import PredictiveParsing.Dialect.Basic

namespace PredictiveParsing

/-!
# Journals

A journal is a program written as a list of numbered notes, one for each
operation of a dialect in the order in which they happen.  A note refers to its
parts by their numbers, so a journal shows exactly how a program is walked.
-/

/-- What is noted of one operation. -/
inductive Note where
  /-- A whole expression. -/
  | expression (written : Expression)
  | global (name : String)
  /-- A routine and the notes of its statements. -/
  | routine (name : String) (body : List Nat)
  | comment (text : String)
  | declare (name : String) (type : ValueType)
  /-- An assignment and the note of its value. -/
  | assign (name : String) (value : Nat)
  /-- A call and the notes of its arguments. -/
  | call (routine : String) (arguments : List Nat)
  /-- The notes of all conditions and statements. -/
  | branch (arms : List (Nat × List Nat)) (fallback : Option (List Nat))
  /-- The end of a routine and the note of its value. -/
  | leave (value : Option Nat)
  | primitive (operation : Primitive)
  /-- The notes of a program's definitions. -/
  | finish (definitions : List Nat)

namespace Journal

/-- Adds a note and answers its number, counted from zero. -/
def add (note : Note) : StateM (List Note) Nat := fun notes =>
  (notes.length, notes ++ [note])

/-- Programs written as notes. -/
def dialect : Dialect (List Note) Nat Nat where
  expression written := add (.expression written)
  global variableDefinition := add (.global variableDefinition.name)
  routine routine body := add (.routine routine.name body)
  comment text := add (.comment text)
  declare name type := add (.declare name type)
  assign name value := add (.assign name value)
  call routine arguments := add (.call routine arguments)
  branch arms fallback := add (.branch arms fallback)
  leave value := add (.leave value)
  primitive operation := add (.primitive operation)
  finish definitions := do
    let _ ← add (.finish definitions)
    return "done"

def ofProgram (program : Program) : List Note :=
  ((dialect.writeProgram program).run []).2

end Journal
end PredictiveParsing
