import PredictiveParsing.Dialect.Basic
import PredictiveParsing.Dialect.Layout
import PredictiveParsing.Naming.Identifier
import PredictiveParsing.Text.Quoted

namespace PredictiveParsing

/-!
# Python modules

Programs written as modules of Python 3, indented with tabs.  A module begins
with the imports that its definitions need, in a fixed order, and ends by
starting the entry routine when it is run itself.  Needs and the entry are kept
for as long as one writer is in use.
-/

/-- The names that a module has to import. -/
structure ModuleNeeds where
  /-- Commands are run. -/
  subprocess : Bool
  /-- Arguments are read or the program is stopped. -/
  sys : Bool
  /-- Lists appear among the types. -/
  typing : Bool
deriving DecidableEq

namespace ModuleNeeds

def none : ModuleNeeds := ⟨false, false, false⟩

def union (left right : ModuleNeeds) : ModuleNeeds :=
  ⟨left.subprocess || right.subprocess, left.sys || right.sys, left.typing || right.typing⟩

def ofType : ValueType -> ModuleNeeds
  | .text => none
  | .token | .tokenList => ⟨false, false, true⟩

mutual

/-- Whether an argument of the command line is read. -/
def readsArgument : Expression -> Bool
  | .text _ | .var _ => false
  | .argument _ => true
  | .call _ arguments => anyReadsArgument arguments
  | .field record _ => readsArgument record
  | .equal left right | .different left right => readsArgument left || readsArgument right

def anyReadsArgument : List Expression -> Bool
  | [] => false
  | expression :: rest => readsArgument expression || anyReadsArgument rest

end

def ofExpression (expression : Expression) : ModuleNeeds :=
  ⟨false, readsArgument expression, false⟩

def ofPrimitive : Primitive -> ModuleNeeds
  | .runLexer _ _ => ⟨true, true, false⟩
  | .report _ _ | .requireArguments _ => ⟨false, true, false⟩
  | .loadTokens _ _ | .peek | .take => none

/-- What the types of a routine need. -/
def ofSignature (routine : Routine) : ModuleNeeds :=
  let parameters := routine.parameters.map fun parameter => ofType parameter.type
  let returns := routine.returns.toList.map ofType
  (parameters ++ returns).foldl union none

/-- The imports in their order. -/
def imports (needs : ModuleNeeds) : List String :=
  (if needs.subprocess then ["import subprocess"] else []) ++
    (if needs.sys then ["import sys"] else []) ++
    if needs.typing then ["from typing import List"] else []

end ModuleNeeds

namespace PythonModule

/-! ## Texts -/

def identifier (name : String) : String :=
  Naming.avoiding Naming.pythonWords name

def typeName : ValueType -> String
  | .text => "str"
  | .token => "List[str]"
  | .tokenList => "List[List[str]]"

/-- What a global variable begins with. -/
def initialValue : ValueType -> String
  | .text => "\"\""
  | .token => "[\"\", \"\", \"\"]"
  | .tokenList => "[]"

/-- A routine applied to arguments. -/
def application (routine : String) (arguments : List String) : String :=
  identifier routine ++ "(" ++ ", ".intercalate arguments ++ ")"

mutual

def expressionText : Expression -> String
  | .text value => Text.quoted value
  | .var name => identifier name
  | .argument number => "sys.argv[" ++ toString number ++ "]"
  | .call routine arguments => application routine (expressionTexts arguments)
  | .field record field => expressionText record ++ "[" ++ toString field.index ++ "]"
  | .equal left right => expressionText left ++ " == " ++ expressionText right
  | .different left right => expressionText left ++ " != " ++ expressionText right

def expressionTexts : List Expression -> List String
  | [] => []
  | expression :: rest => expressionText expression :: expressionTexts rest

end

def typed (name : String) (type : ValueType) : String :=
  identifier name ++ ": " ++ typeName type

/-- The line that a routine begins with. -/
def header (routine : Routine) : String :=
  let parameters := routine.parameters.map fun parameter => typed parameter.name parameter.type
  let returns :=
    match routine.returns with
    | some type => " -> " ++ typeName type
    | none => ""
  "def " ++ identifier routine.name ++ "(" ++ ", ".intercalate parameters ++ ")" ++ returns ++ ":"

def laterArms : List (String × List (List String)) -> List String
  | [] => []
  | (condition, body) :: rest =>
      ("elif " ++ condition ++ ":") :: Layout.block body ++ laterArms rest

/-- The fallback after some arms. -/
def fallbackLines : Option (List (List String)) -> List String
  | none => []
  | some body => "else:" :: Layout.block body

/-- Arms and a fallback, of which only the fallback's statements remain when there
are no arms. -/
def branchLines (arms : List (String × List (List String)))
    (fallback : Option (List (List String))) : List String :=
  match arms with
  | [] =>
      match fallback with
      | none => Layout.empty
      | some body => Layout.stack body
  | (condition, body) :: rest =>
      ("if " ++ condition ++ ":") :: Layout.block body ++ laterArms rest ++ fallbackLines fallback

def returnEmptyToken : String := "return " ++ initialValue .token

def primitiveLines : Primitive -> List String
  | .runLexer command parameter =>
      ["response = subprocess.run(" ++ Text.quoted command ++ " + " ++ identifier parameter ++
          ", shell=True)",
        "if response.returncode != 0:",
        "\tsys.exit(1)"]
  | .loadTokens path delimiter =>
      ["global " ++ Support.tokens,
        "with open(" ++ Text.quoted path ++ ") as f:",
        "\t" ++ Support.tokens ++ " = [line.split(" ++ Text.quoted (String.ofList [delimiter]) ++
          ") for line in f.read().splitlines()]"]
  | .peek =>
      ["if len(" ++ Support.tokens ++ ") > 0:",
        "\treturn " ++ Support.tokens ++ "[0]",
        returnEmptyToken]
  | .take =>
      ["if len(" ++ Support.tokens ++ ") > 0:",
        "\treturn " ++ Support.tokens ++ ".pop(0)",
        returnEmptyToken]
  | .report position expected =>
      ["print(\"Error: line\", " ++ identifier position ++ ", \"- expected\", " ++
          identifier expected ++ ")",
        "sys.exit(1)"]
  | .requireArguments count =>
      ["if len(sys.argv) < " ++ toString (count + 1) ++ ":",
        "\tprint(\"usage: parser FILE\")",
        "\tsys.exit(1)"]

/-- The lines that start the entry routine. -/
def entryGuard (entry : String) : List String :=
  ["if __name__ == \"__main__\":", "\t" ++ entry ++ "()"]

/-! ## Writing -/

/-- What a writer of modules remembers. -/
structure Memory where
  /-- What the definitions need so far. -/
  needs : ModuleNeeds
  /-- The identifier of the last entry routine. -/
  entry : Option String

/-- Nothing has been written. -/
def Memory.fresh : Memory := ⟨.none, none⟩

def need (needs : ModuleNeeds) : StateM Memory Unit :=
  modify fun memory => ⟨memory.needs.union needs, memory.entry⟩

/-- Remembers the identifier of an entry routine. -/
def remember (routine : Routine) : StateM Memory Unit :=
  modify fun memory =>
    if routine.role = .entry then ⟨memory.needs, some (identifier routine.name)⟩ else memory

/-- The module's text: the imports, the definitions and the start of the entry
routine, with a blank line between them. -/
def moduleText (memory : Memory) (definitions : List (List String)) : String :=
  let imports := memory.needs.imports
  let header := if imports.isEmpty then [] else [imports]
  let guards := memory.entry.toList.map entryGuard
  "\n\n".intercalate ((header ++ definitions ++ guards).map Layout.text) ++ "\n"

/-- Programs written as Python modules. -/
def dialect : Dialect Memory (List String) String where
  expression expression := do
    need (.ofExpression expression)
    return expressionText expression
  global variableDefinition := do
    need (.ofType variableDefinition.type)
    return [typed variableDefinition.name variableDefinition.type ++ " = " ++
      initialValue variableDefinition.type]
  routine routine body := do
    remember routine
    need (.ofSignature routine)
    return header routine :: Layout.block body
  comment text := return Layout.ofText ("# " ++ text)
  declare name type := do
    need (.ofType type)
    return [typed name type]
  assign name value := return [identifier name ++ " = " ++ value]
  call routine arguments := return [application routine arguments]
  branch arms fallback := return branchLines arms fallback
  leave value :=
    match value with
    | some value => return ["return " ++ value]
    | none => return ["return"]
  primitive operation := do
    need (.ofPrimitive operation)
    return primitiveLines operation
  finish definitions := return moduleText (← get) definitions

end PythonModule
end PredictiveParsing
