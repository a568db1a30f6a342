import PredictiveParsing.Dialect.Basic
import PredictiveParsing.Dialect.SourceToken
import PredictiveParsing.Naming.Identifier
import PredictiveParsing.Text.Quoted

namespace PredictiveParsing
namespace RustProgram

/-!
# Rust programs

Programs written as single files of Rust, as token trees.  The global variables
are fields of one structure and the routines are its methods, so a global leaves
no fragment behind and is remembered as a field.  A comment directly in a routine
becomes documentation of the routine, other comments disappear.
-/

open SourceToken

/-! ## Tokens -/

def identifier (name : String) : SourceToken :=
  .atom (Naming.avoiding Naming.rustWords name)

def textLiteral (text : String) : SourceToken :=
  .atom (Text.stringLiteral text)

/-- A number as a literal with the type of sizes. -/
def sizeLiteral (number : Nat) : SourceToken :=
  .atom (toString number ++ "usize")

def typeTokens : ValueType -> List SourceToken
  | .text => words "String"
  | .token => words "Token"
  | .tokenList => words "VecDeque < Token >"

/-- The type of a parameter. -/
def parameterTypeTokens : ValueType -> List SourceToken
  | .text => words "& str"
  | .token => words "& Token"
  | .tokenList => words "& VecDeque < Token >"

def fieldName : TokenField -> String
  | .className => "class"
  | .literal => "literal"
  | .position => "position"

/-- A routine applied to borrowed arguments. -/
def application (routine : String) (arguments : List (List SourceToken)) : List SourceToken :=
  words "self ." ++ identifier routine ::
    parenthesized (commaSeparated (arguments.map fun tokens => .atom "&" :: tokens))

mutual

def expressionTokens : Expression -> List SourceToken
  | .text value => [textLiteral value]
  | .var name => [identifier name]
  | .argument number =>
      words "std :: env :: args" ++ parenthesized [] ++ words ". nth" ++
        parenthesized [sizeLiteral number] ++ words ". unwrap_or_default" ++ parenthesized []
  | .call routine arguments => application routine (expressionTokenLists arguments)
  | .field record field => expressionTokens record ++ [.atom ".", .atom (fieldName field)]
  | .equal left right => expressionTokens left ++ .atom "==" :: expressionTokens right
  | .different left right => expressionTokens left ++ .atom "!=" :: expressionTokens right

def expressionTokenLists : List Expression -> List (List SourceToken)
  | [] => []
  | expression :: rest => expressionTokens expression :: expressionTokenLists rest

end

/-! ## Statements -/

/-- A condition with the statements that it guards. -/
def armTokens (condition : List SourceToken) (body : List (List SourceToken)) : List SourceToken :=
  .atom "if" :: condition ++ braced body.flatten

/-- What follows the last arm. -/
def fallbackTokens : Option (List (List SourceToken)) -> List SourceToken
  | none => []
  | some body => .atom "else" :: braced body.flatten

/-- Arms that have been put together from the last one on. -/
structure Chain where
  /-- The arms themselves. -/
  tokens : List SourceToken
  /-- What follows an arm that is put in front of them. -/
  tail : List SourceToken

/-- The chain with one more arm in front. -/
def Chain.prepend (chain : Chain) (arm : List SourceToken × List (List SourceToken)) : Chain :=
  let tokens := armTokens arm.1 arm.2 ++ chain.tail
  ⟨tokens, .atom "else" :: tokens⟩

/-- Arms and a fallback, of which only the fallback's statements remain when there
are no arms. -/
def branchTokens (arms : List (List SourceToken × List (List SourceToken)))
    (fallback : Option (List (List SourceToken))) : List SourceToken :=
  match arms with
  | [] => (fallback.getD []).flatten
  | _ :: _ => (arms.reverse.foldl Chain.prepend ⟨[], fallbackTokens fallback⟩).tokens

/-- A call that stops the program with an error. -/
def exitTokens : List SourceToken :=
  words "std :: process :: exit" ++ parenthesized (words "1")

/-- A field of a record that is the next part of a split line. -/
def nextFieldTokens (field : TokenField) : List SourceToken :=
  words (fieldName field) ++ words ": fields . next" ++ parenthesized [] ++
    words ". unwrap_or_default" ++ parenthesized [] ++ words ","

/-- The token buffer of the parser itself. -/
def bufferTokens : List SourceToken :=
  words "self ." ++ [identifier Support.tokens]

def primitiveTokens : Primitive -> List SourceToken
  | .runLexer command parameter =>
      let line := words "format !" ++ parenthesized
        (textLiteral "\x7b\x7d\x7b\x7d" :: .atom "," :: textLiteral command :: .atom "," ::
          [identifier parameter])
      words "let status = std :: process :: Command :: new" ++ parenthesized [textLiteral "sh"] ++
        words ". arg" ++ parenthesized [textLiteral "-c"] ++ words ". arg" ++ parenthesized line ++
        words ". status" ++ parenthesized [] ++ words "; match status" ++
        braced (words "Ok" ++ parenthesized (words "status") ++ words "if status . success" ++
          parenthesized [] ++ words "=>" ++ braced [] ++ words "_ =>" ++ exitTokens ++ words ",")
  | .loadTokens path delimiter =>
      let record := words "Token" ++ braced (nextFieldTokens .className ++
        nextFieldTokens .literal ++ nextFieldTokens .position)
      let readLine := words "| line |" ++ braced (words "let mut fields = line . split" ++
        parenthesized [.atom (Text.characterLiteral delimiter)] ++ words ". map" ++
        parenthesized (words "String :: from") ++ words ";" ++ record)
      words "let text = match std :: fs :: read_to_string" ++ parenthesized [textLiteral path] ++
        braced (words "Ok" ++ parenthesized (words "text") ++ words "=> text , Err" ++
          parenthesized (words "_") ++ words "=>" ++ exitTokens ++ words ",") ++ words ";" ++
        bufferTokens ++ words "= text . lines" ++ parenthesized [] ++ words ". map" ++
        parenthesized readLine ++ words ". collect" ++ parenthesized [] ++ words ";"
  | .peek =>
      words "return" ++ bufferTokens ++ words ". front" ++ parenthesized [] ++ words ". cloned" ++
        parenthesized [] ++ words ". unwrap_or_default" ++ parenthesized [] ++ words ";"
  | .take =>
      words "return" ++ bufferTokens ++ words ". pop_front" ++ parenthesized [] ++
        words ". unwrap_or_default" ++ parenthesized [] ++ words ";"
  | .report position expected =>
      words "eprintln !" ++ parenthesized
        (textLiteral "Error: line \x7b\x7d - expected \x7b\x7d" :: .atom "," ::
          identifier position :: .atom "," :: [identifier expected]) ++ words ";" ++
        exitTokens ++ words ";"
  | .requireArguments count =>
      words "if std :: env :: args" ++ parenthesized [] ++ words ". len" ++ parenthesized [] ++
        words "<" ++ sizeLiteral (count + 1) ::
        braced (words "eprintln !" ++ parenthesized [textLiteral "usage: parser FILE"] ++
          words ";" ++ exitTokens ++ words ";")

/-! ## Routines and the whole program -/

/-- What a statement says about the routine that it stands in. -/
def documentation : Statement -> Option (List SourceToken)
  | .comment text =>
      some (words "#" ++ bracketed (words "doc =" ++ [textLiteral (" " ++ text)]))
  | _ => none

/-- A parameter with its type, after a comma. -/
def parameterTokens (parameter : Parameter) : List SourceToken :=
  .atom "," :: identifier parameter.name :: .atom ":" :: parameterTypeTokens parameter.type

/-- A method, given the tokens of its statements. -/
def routineTokens (routine : Routine) (body : List (List SourceToken)) : List SourceToken :=
  let returns :=
    match routine.returns with
    | some type => .atom "->" :: typeTokens type
    | none => []
  (routine.body.filterMap documentation).flatten ++
    (if routine.role = .entry then words "pub" else []) ++ words "fn" ++
    identifier routine.name ::
      parenthesized (words "& mut self" ++ routine.parameters.flatMap parameterTokens) ++
    returns ++ braced body.flatten

/-- What a writer of programs remembers. -/
structure Memory where
  /-- The fields of the parser so far. -/
  fields : List (List SourceToken)
  /-- The identifier of the last entry routine. -/
  entry : Option SourceToken

/-- Nothing has been written. -/
def Memory.fresh : Memory := ⟨[], none⟩

/-- Remembers a global variable as a field. -/
def addField (variableDefinition : GlobalVariable) : StateM Memory Unit :=
  modify fun memory =>
    ⟨memory.fields ++
      [identifier variableDefinition.name :: .atom ":" :: typeTokens variableDefinition.type],
      memory.entry⟩

/-- Remembers the identifier of an entry routine. -/
def remember (routine : Routine) : StateM Memory Unit :=
  modify fun memory =>
    if routine.role = .entry then ⟨memory.fields, some (identifier routine.name)⟩ else memory

/-- The names in round brackets after an attribute's name. -/
def attributeTokens (name names : String) : List SourceToken :=
  words "#" ++ bracketed (words name ++ parenthesized (words names))

/-- The function that starts the entry routine. -/
def startTokens (entry : SourceToken) : List SourceToken :=
  words "fn main" ++ parenthesized [] ++
    braced (words "Parser :: default" ++ parenthesized [] ++ words "." ++ entry ::
      parenthesized [] ++ words ";")

/-- The whole program with the given definitions. -/
def programTokens (memory : Memory) (definitions : List (List SourceToken)) : List SourceToken :=
  words "use std :: collections :: VecDeque ;" ++
    attributeTokens "derive" "Debug , Clone , Default" ++ words "struct Token" ++
    braced (words "class : String , literal : String , position : String ,") ++
    attributeTokens "derive" "Debug , Default" ++ words "struct Parser" ++
    braced (commaSeparated memory.fields) ++
    attributeTokens "allow" "unused_assignments , unused_mut , dead_code , non_snake_case" ++
    words "impl Parser" ++ braced definitions.flatten ++
    (memory.entry.toList.map startTokens).flatten

/-- Programs written in Rust. -/
def dialect : Dialect Memory (List SourceToken) (List SourceToken) where
  expression expression := return expressionTokens expression
  global variableDefinition := do
    addField variableDefinition
    return []
  routine routine body := do
    remember routine
    return routineTokens routine body
  comment _ := return []
  declare name type := return words "let mut" ++ identifier name :: .atom ":" :: typeTokens type ++ words ";"
  assign name value := return identifier name :: .atom "=" :: value ++ words ";"
  call routine arguments := return application routine arguments ++ words ";"
  branch arms fallback := return branchTokens arms fallback
  leave value := return words "return" ++ value.getD [] ++ words ";"
  primitive operation := return primitiveTokens operation
  finish definitions := return textOf (programTokens (← get) definitions)

end RustProgram
end PredictiveParsing
