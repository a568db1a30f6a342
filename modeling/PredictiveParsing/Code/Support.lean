import PredictiveParsing.Code.Basic

namespace PredictiveParsing

/-!
# What every parser contains

The token buffer and the routines around the rules, whatever the grammar.  Their
names and the names of their variables are not free for rules.  How they meet the lexer
can be chosen, and so can the name of the one variable of the rules' routines.
-/

/-! ## Settings -/

/-- What can be chosen about a generated parser. -/
structure Settings where
  /-- The command that makes the token file.  The input's path is appended to it. -/
  lexerCommand : String
  /-- The file with one token record to a line. -/
  tokenFile : String
  /-- What stands between the fields of a record. -/
  delimiter : Char
  /-- The class of the token after the last one. -/
  endOfInput : String
  /-- The variable that holds the token being looked at. -/
  tokenVariable : String
deriving DecidableEq

/-- The settings for a lexer in a directory of its own, whose records have the
character BEL between their fields. -/
def Settings.standard : Settings where
  lexerCommand := "cd lexer && make --silent && ./lexer "
  tokenFile := "lexer/out.jl"
  delimiter := '\x07'
  endOfInput := "EOF"
  tokenVariable := "next_token"

namespace Support

/-! ## Names -/

/-- The token buffer. -/
def tokens : String := "tokens"

/-- The routine that runs the lexer. -/
def generateTokens : String := "generate_tokens"

/-- The routine that fills the token buffer. -/
def loadTokens : String := "load_tokens"

/-- The routine that looks at the front token. -/
def peek : String := "peek"

/-- The routine that takes the front token. -/
def take : String := "get_token"

/-- The routine that reports a mismatch. -/
def expect : String := "expect"

/-- The routine that parses a file. -/
def parse : String := "parse"

/-- The routine that the program starts with. -/
def main : String := "main"

/-- The parameter that holds the path of the input. -/
def file : String := "file"

/-- The variable that holds the program's argument. -/
def fileName : String := "filename"

/-- The parameter that holds where a mismatch is. -/
def position : String := "position"

/-- The parameter that holds what was expected. -/
def expected : String := "expected"

/-- The names that no rule may have. -/
def reservedNames : List String :=
  [tokens, generateTokens, loadTokens, peek, take, expect, parse, main, file, fileName, position,
    expected]

/-! ## Routines -/

def primitiveRoutine (name : String) (parameters : List Parameter) (returns : Option ValueType)
    (operation : Primitive) : Definition :=
  .routine ⟨name, .support, parameters, returns, [.primitive operation]⟩

/-- The token buffer and the routines that work on it. -/
def bufferDefinitions (settings : Settings) : List Definition :=
  [.global ⟨tokens, .tokenList⟩,
    primitiveRoutine generateTokens [⟨file, .text⟩] none (.runLexer settings.lexerCommand file),
    primitiveRoutine loadTokens [] none (.loadTokens settings.tokenFile settings.delimiter),
    primitiveRoutine peek [] (some .token) .peek,
    primitiveRoutine take [] (some .token) .take,
    primitiveRoutine expect [⟨position, .text⟩, ⟨expected, .text⟩] none (.report position expected)]

/-- The routine that makes the tokens of a file and parses them from the start
rule on. -/
def parseRoutine (start : String) : Definition :=
  .routine ⟨parse, .support, [⟨file, .text⟩], none,
    [.call generateTokens [.var file], .call loadTokens [], .call start []]⟩

/-- The routine that parses the file named by the first argument, and then
requires the end of the input. -/
def mainRoutine (settings : Settings) : Definition :=
  let token := Expression.var settings.tokenVariable
  .routine ⟨main, .entry, [], none,
    [.primitive (.requireArguments 1),
      .declare fileName .text,
      .assign fileName (.argument 1),
      .call parse [.var fileName],
      .declare settings.tokenVariable .token,
      .assign settings.tokenVariable (.call take []),
      .branch
        [(.different (.field token .className) (.text settings.endOfInput),
          [.mismatch (.field token .position) settings.endOfInput])]
        none]⟩

end Support
end PredictiveParsing
