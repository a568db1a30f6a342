import PredictiveParsing.Code.Support

namespace PredictiveParsing

/-!
# Dialects

A dialect says how programs are written down: one operation for each thing that
programs are made of.  Parts are written before the whole that they stand in, so
each operation receives what its parts have become, in the order of the program.
What a dialect has to remember from one operation to the next is its state.
-/

/-- How programs are written, with a fragment for every statement and definition
and a value for every expression. -/
structure Dialect (State Fragment Value : Type) where
  /-- Writes an expression with all its parts. -/
  expression : Expression -> StateM State Value
  global : GlobalVariable -> StateM State Fragment
  /-- Writes a routine, given what its statements have become. -/
  routine : Routine -> List Fragment -> StateM State Fragment
  comment : String -> StateM State Fragment
  declare : String -> ValueType -> StateM State Fragment
  assign : String -> Value -> StateM State Fragment
  /-- Writes a call whose result is not used. -/
  call : String -> List Value -> StateM State Fragment
  /-- Writes arms with their conditions, and a fallback. -/
  branch : List (Value × List Fragment) -> Option (List Fragment) -> StateM State Fragment
  /-- Writes the end of a routine. -/
  leave : Option Value -> StateM State Fragment
  primitive : Primitive -> StateM State Fragment
  /-- Puts the definitions of a program together. -/
  finish : List Fragment -> StateM State String

namespace Dialect

variable {State Fragment Value : Type}

def writeExpressions (dialect : Dialect State Fragment Value) :
    List Expression -> StateM State (List Value)
  | [] => pure []
  | expression :: rest => do
      let first ← dialect.expression expression
      return first :: (← dialect.writeExpressions rest)

/-- Writes a mismatch, which is a call of the routine that reports it. -/
def writeMismatch (dialect : Dialect State Fragment Value) (position : Expression)
    (expected : String) : StateM State Fragment := do
  let position ← dialect.expression position
  let expected ← dialect.expression (.text expected)
  dialect.call Support.expect [position, expected]

mutual

def writeStatement (dialect : Dialect State Fragment Value) :
    Statement -> StateM State Fragment
  | .comment text => dialect.comment text
  | .declare name type => dialect.declare name type
  | .assign name value => do dialect.assign name (← dialect.expression value)
  | .call name arguments => do dialect.call name (← dialect.writeExpressions arguments)
  | .branch arms fallback => do
      let arms ← dialect.writeArms arms
      dialect.branch arms (← dialect.writeFallback fallback)
  | .mismatch position expected => dialect.writeMismatch position expected
  | .leave none => dialect.leave none
  | .leave (some value) => do dialect.leave (some (← dialect.expression value))
  | .primitive operation => dialect.primitive operation

def writeBlock (dialect : Dialect State Fragment Value) :
    List Statement -> StateM State (List Fragment)
  | [] => pure []
  | statement :: rest => do
      let first ← dialect.writeStatement statement
      return first :: (← dialect.writeBlock rest)

/-- Writes arms in order, each condition before its statements. -/
def writeArms (dialect : Dialect State Fragment Value) :
    List (Expression × List Statement) -> StateM State (List (Value × List Fragment))
  | [] => pure []
  | (condition, body) :: rest => do
      let condition ← dialect.expression condition
      let body ← dialect.writeBlock body
      return (condition, body) :: (← dialect.writeArms rest)

/-- Writes the statements of a fallback, if there is one. -/
def writeFallback (dialect : Dialect State Fragment Value) :
    Option (List Statement) -> StateM State (Option (List Fragment))
  | none => pure none
  | some body => do return some (← dialect.writeBlock body)

end

/-- Writes a routine, its statements first. -/
def writeRoutine (dialect : Dialect State Fragment Value) (routine : Routine) :
    StateM State Fragment := do
  dialect.routine routine (← dialect.writeBlock routine.body)

def writeDefinitions (dialect : Dialect State Fragment Value) :
    List Definition -> StateM State (List Fragment)
  | [] => pure []
  | .global variableDefinition :: rest => do
      let first ← dialect.global variableDefinition
      return first :: (← dialect.writeDefinitions rest)
  | .routine routineDefinition :: rest => do
      let first ← dialect.writeRoutine routineDefinition
      return first :: (← dialect.writeDefinitions rest)

def writeProgram (dialect : Dialect State Fragment Value) (program : Program) :
    StateM State String := do
  dialect.finish (← dialect.writeDefinitions program.definitions)

end Dialect
end PredictiveParsing
