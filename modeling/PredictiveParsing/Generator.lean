import PredictiveParsing.Dialect.PythonModule
import PredictiveParsing.Dialect.RustProgram
import PredictiveParsing.Grammar.Reader
import PredictiveParsing.Synthesis

namespace PredictiveParsing

/-!
# Generating parsers

The whole way from grammar text to the source text of a parser.  Where a step
fails, the report names the step and then the reason.
-/

/-- The languages that parsers are generated in. -/
inductive Target where
  | python
  | rust
deriving DecidableEq

inductive GeneratorError where
  /-- No language has this name. -/
  | unknownTarget (name : String)
  /-- The text describes no grammar. -/
  | invalidGrammar (reason : GrammarError)
  /-- The grammar has no parser. -/
  | noParser (target : Target) (reason : SynthesisError)
deriving DecidableEq

namespace Target

def name : Target -> String
  | .python => "python"
  | .rust => "rust"

def extension : Target -> String
  | .python => "py"
  | .rust => "rs"

/-- The language that a name or an extension stands for, in capital or small
letters. -/
def read (text : String) : Except GeneratorError Target :=
  let lower := text.toLower
  if lower == "python" || lower == "py" then .ok .python
  else if lower == "rust" || lower == "rs" then .ok .rust
  else .error (.unknownTarget text)

def write (target : Target) (program : Program) : String :=
  match target with
  | .python => ((PythonModule.dialect.writeProgram program).run .fresh).1
  | .rust => ((RustProgram.dialect.writeProgram program).run .fresh).1

end Target

/-- What failed and why, each reason after the step that it made fail. -/
def GeneratorError.messages : GeneratorError -> List String
  | .unknownTarget name => ["unknown target language: " ++ name]
  | .invalidGrammar reason => ["invalid grammar", reason.message]
  | .noParser target reason =>
      ["failed to synthesize " ++ target.name ++ " parser", reason.message]

def Grammar.source (grammar : Grammar) (target : Target) (settings : Settings) :
    Except GeneratorError String :=
  match grammar.parser settings with
  | .ok program => .ok (target.write program)
  | .error reason => .error (.noParser target reason)

/-- The source text of the parser for a grammar given as text, with the standard
settings. -/
def sourceOfText (text : String) (target : Target) : Except GeneratorError String :=
  match Grammar.read text with
  | .ok grammar => grammar.source target .standard
  | .error reason => .error (.invalidGrammar reason)

end PredictiveParsing
