import PredictiveParsing.Pattern.Basic

namespace PredictiveParsing
namespace Pattern

/-!
# The spelling of patterns

Everything is set apart by single spaces.  A choice is put into parentheses
inside a sequence or another choice, and whatever is not a single atom is put
into parentheses before a question mark.  A sequence inside a choice needs none,
because it binds more tightly.
-/

/-- The text, in parentheses where they are needed. -/
def grouped (needed : Bool) (text : String) : String :=
  if needed then "( " ++ text ++ " )" else text

def isChoice : Pattern -> Bool
  | .choice _ => true
  | _ => false

/-- Whether the pattern is a single word or a quoted or bracketed one. -/
def isAtom : Pattern -> Bool
  | .terminal _ | .reference _ => true
  | _ => false

mutual

def render : Pattern -> String
  | .terminal (.literal text) => "\"" ++ text ++ "\""
  | .terminal (.tokenClass name) => "<" ++ name ++ ">"
  | .reference rule => rule
  | .sequence factors => " ".intercalate (renderParts factors)
  | .choice alternatives => " | ".intercalate (renderParts alternatives)
  | .optional content => grouped (!content.isAtom) (render content) ++ " ?"

/-- The texts of the parts of a sequence or of a choice. -/
def renderParts : List Pattern -> List String
  | [] => []
  | part :: rest => grouped part.isChoice (render part) :: renderParts rest

end

theorem renderParts_eq_map (parts : List Pattern) :
    renderParts parts = parts.map fun part => grouped part.isChoice (render part) := by
  induction parts with
  | nil => rfl
  | cons part rest inductionHypothesis => rw [renderParts, inductionHypothesis, List.map_cons]

end Pattern
end PredictiveParsing
