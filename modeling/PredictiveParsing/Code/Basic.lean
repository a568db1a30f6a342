namespace PredictiveParsing

/-!
# Abstract programs

The program of a parser before it is written in any language.  It works on a
buffer of token records that an external lexer produced, and consists of
routines that read the buffer token by token.  What depends on the language, such
as running the lexer, stands in it as a primitive.
-/

inductive ValueType where
  | text
  /-- A single token record. -/
  | token
  /-- The buffer of token records. -/
  | tokenList
deriving DecidableEq

inductive TokenField where
  | className
  /-- The text of the token. -/
  | literal
  /-- Where the token stands in the input. -/
  | position
deriving DecidableEq

/-- The place of a field in the lexer's records, counted from zero. -/
def TokenField.index : TokenField -> Nat
  | .className => 0
  | .literal => 1
  | .position => 2

/-- What a statement can compute. -/
inductive Expression where
  | text (value : String)
  /-- The value of a variable. -/
  | var (name : String)
  /-- An argument on the program's command line. -/
  | argument (number : Nat)
  /-- What a routine returns. -/
  | call (routine : String) (arguments : List Expression)
  | field (record : Expression) (field : TokenField)
  /-- Whether two values agree. -/
  | equal (left right : Expression)
  /-- Whether two values differ. -/
  | different (left right : Expression)

/-- Operations that each language writes in its own way. -/
inductive Primitive where
  /-- Runs the lexer on the file in a parameter and stops if it fails. -/
  | runLexer (command parameter : String)
  /-- Fills the token buffer with the records in a file. -/
  | loadTokens (path : String) (delimiter : Char)
  /-- Returns the front token and leaves it, or an empty record. -/
  | peek
  /-- Returns the front token and removes it, or an empty record. -/
  | take
  /-- Reports what was expected at a position and stops. -/
  | report (position expected : String)
  /-- Stops unless at least as many arguments were given. -/
  | requireArguments (count : Nat)
deriving DecidableEq

/-- The statements of a routine. -/
inductive Statement where
  /-- Says something to the reader of the program. -/
  | comment (text : String)
  /-- Introduces a variable. -/
  | declare (name : String) (type : ValueType)
  /-- Gives a variable a value. -/
  | assign (name : String) (value : Expression)
  /-- Runs a routine. -/
  | call (routine : String) (arguments : List Expression)
  /-- Runs the first arm whose condition holds, else the fallback if there is one. -/
  | branch (arms : List (Expression × List Statement)) (fallback : Option (List Statement))
  /-- Reports what was expected at a position and stops the program. -/
  | mismatch (position : Expression) (expected : String)
  /-- Leaves the routine. -/
  | leave (value : Option Expression)
  /-- Does what only the language can say. -/
  | primitive (operation : Primitive)

/-- What a routine is for. -/
inductive Role where
  /-- It serves every parser. -/
  | support
  /-- It parses what one rule describes. -/
  | rule
  /-- The program starts with it. -/
  | entry
deriving DecidableEq

structure Parameter where
  name : String
  type : ValueType
deriving DecidableEq

/-- A named list of statements. -/
structure Routine where
  /-- The name that the routine is called by. -/
  name : String
  /-- What the routine is for. -/
  role : Role
  /-- What the routine is called with. -/
  parameters : List Parameter
  /-- The type of what it returns, if it returns anything. -/
  returns : Option ValueType
  /-- What the routine does. -/
  body : List Statement

structure GlobalVariable where
  name : String
  type : ValueType
deriving DecidableEq

/-- What a program is made of. -/
inductive Definition where
  /-- A variable of the whole program. -/
  | global (variableDefinition : GlobalVariable)
  | routine (routineDefinition : Routine)

def Definition.routine? : Definition -> Option Routine
  | .global _ => none
  | .routine routineDefinition => some routineDefinition

/-- The definitions of a parser in the order in which they are written. -/
structure Program where
  /-- The globals and the routines. -/
  definitions : List Definition

namespace Statement

mutual

/-- Whether running the statement can give the variable a value. -/
def assigns (variableName : String) : Statement -> Bool
  | .assign name _ => name == variableName
  | .branch arms fallback => armsAssign variableName arms || fallbackAssigns variableName fallback
  | _ => false

def blockAssigns (variableName : String) : List Statement -> Bool
  | [] => false
  | statement :: rest => assigns variableName statement || blockAssigns variableName rest

def armsAssign (variableName : String) : List (Expression × List Statement) -> Bool
  | [] => false
  | (_, body) :: rest => blockAssigns variableName body || armsAssign variableName rest

def fallbackAssigns (variableName : String) : Option (List Statement) -> Bool
  | none => false
  | some body => blockAssigns variableName body

end

end Statement

namespace Program

def routines (program : Program) : List Routine :=
  program.definitions.filterMap (·.routine?)

/-- The first routine of the given name. -/
def routine? (program : Program) (name : String) : Option Routine :=
  program.routines.find? (·.name == name)

/-- The routine that the program starts with. -/
def entry? (program : Program) : Option Routine :=
  program.routines.find? (·.role == .entry)

end Program
end PredictiveParsing
