namespace PredictiveParsing

/-!
# Patterns

The right-hand side of a grammar rule is a pattern over terminals and references
to rules.  Patterns are compared exactly as they are built: a sequence of one
factor differs from that factor.  The builders `Pattern.inOrder` and
`Pattern.oneOf` avoid such detours, and the reader of rule text uses nothing
else.
-/

/-- One leaf of a pattern: what a single token of the input has to be. -/
inductive Terminal where
  /-- The token is spelled like this text. -/
  | literal (text : String)
  /-- The token belongs to this class. -/
  | tokenClass (name : String)
deriving DecidableEq

namespace Terminal

/-- The text that stands for the terminal in tables and in messages.  A literal
and a class of the same spelling share it. -/
def spelling : Terminal -> String
  | .literal text => text
  | .tokenClass name => name

/-- The text of the literal that matches no input at all. -/
def epsilonText : String := "¬"

/-- The terminal that matches no input at all. -/
def epsilon : Terminal := .literal epsilonText

end Terminal

/-- What the right-hand side of a rule describes. -/
inductive Pattern where
  /-- A single token. -/
  | terminal (leaf : Terminal)
  /-- Whatever the named rule describes. -/
  | reference (rule : String)
  /-- All the factors, one after the other. -/
  | sequence (factors : List Pattern)
  /-- One of the alternatives, preferably an early one. -/
  | choice (alternatives : List Pattern)
  /-- The content, or nothing. -/
  | optional (content : Pattern)

namespace Pattern

/-! ## Equality -/

mutual

def decideEq : (left right : Pattern) -> Decidable (left = right)
  | .terminal left, .terminal right =>
      if equal : left = right then isTrue (equal ▸ rfl)
      else isFalse (fun patterns => equal (terminal.inj patterns))
  | .reference left, .reference right =>
      if equal : left = right then isTrue (equal ▸ rfl)
      else isFalse (fun patterns => equal (reference.inj patterns))
  | .sequence left, .sequence right =>
      match decideEqAll left right with
      | isTrue equal => isTrue (equal ▸ rfl)
      | isFalse different => isFalse (fun patterns => different (sequence.inj patterns))
  | .choice left, .choice right =>
      match decideEqAll left right with
      | isTrue equal => isTrue (equal ▸ rfl)
      | isFalse different => isFalse (fun patterns => different (choice.inj patterns))
  | .optional left, .optional right =>
      match decideEq left right with
      | isTrue equal => isTrue (equal ▸ rfl)
      | isFalse different => isFalse (fun patterns => different (optional.inj patterns))
  | .terminal _, .reference _ | .terminal _, .sequence _ | .terminal _, .choice _
  | .terminal _, .optional _ | .reference _, .terminal _ | .reference _, .sequence _
  | .reference _, .choice _ | .reference _, .optional _ | .sequence _, .terminal _
  | .sequence _, .reference _ | .sequence _, .choice _ | .sequence _, .optional _
  | .choice _, .terminal _ | .choice _, .reference _ | .choice _, .sequence _
  | .choice _, .optional _ | .optional _, .terminal _ | .optional _, .reference _
  | .optional _, .sequence _ | .optional _, .choice _ => isFalse nofun

def decideEqAll : (left right : List Pattern) -> Decidable (left = right)
  | [], [] => isTrue rfl
  | [], _ :: _ | _ :: _, [] => isFalse nofun
  | left :: lefts, right :: rights =>
      match decideEq left right, decideEqAll lefts rights with
      | isTrue heads, isTrue tails => isTrue (heads ▸ tails ▸ rfl)
      | isFalse different, _ => isFalse (fun lists => different (List.cons.inj lists).1)
      | _, isFalse different => isFalse (fun lists => different (List.cons.inj lists).2)

end

instance : DecidableEq Pattern := decideEq

/-! ## Building -/

def literal (text : String) : Pattern := .terminal (.literal text)

def tokenClass (name : String) : Pattern := .terminal (.tokenClass name)

def epsilon : Pattern := .terminal .epsilon

/-- The factors a pattern matches in order.  Anything but a sequence is its own
only factor. -/
def factors : Pattern -> List Pattern
  | .sequence factors => factors
  | pattern => [pattern]

/-- The alternatives a pattern stands for.  Anything but a choice is its own only
alternative. -/
def alternatives : Pattern -> List Pattern
  | .choice alternatives => alternatives
  | pattern => [pattern]

/-- The parts one after the other.  A part that is a sequence itself gives its
factors, and a single factor needs no sequence around it. -/
def inOrder (parts : List Pattern) : Pattern :=
  match parts.flatMap factors with
  | [factor] => factor
  | factors => .sequence factors

/-- One of the parts.  A part that is a choice itself gives its alternatives, and
a single alternative needs no choice around it. -/
def oneOf (parts : List Pattern) : Pattern :=
  match parts.flatMap alternatives with
  | [alternative] => alternative
  | alternatives => .choice alternatives

/-! ## Parts -/

mutual

/-- The rules referred to, from left to right and with repetitions. -/
def references : Pattern -> List String
  | .terminal _ => []
  | .reference rule => [rule]
  | .sequence factors => referencesOfAll factors
  | .choice alternatives => referencesOfAll alternatives
  | .optional content => references content

def referencesOfAll : List Pattern -> List String
  | [] => []
  | pattern :: rest => references pattern ++ referencesOfAll rest

end

theorem referencesOfAll_eq_flatMap (patterns : List Pattern) :
    referencesOfAll patterns = patterns.flatMap references := by
  induction patterns with
  | nil => rfl
  | cons pattern rest inductionHypothesis =>
      rw [referencesOfAll, inductionHypothesis, List.flatMap_cons]

mutual

/-- The number of patterns that the pattern is built from, with one more for each
place in a list. -/
def size : Pattern -> Nat
  | .terminal _ | .reference _ => 1
  | .sequence factors => 1 + sizeOfAll factors
  | .choice alternatives => 1 + sizeOfAll alternatives
  | .optional content => 1 + size content

def sizeOfAll : List Pattern -> Nat
  | [] => 0
  | pattern :: rest => 1 + size pattern + sizeOfAll rest

end

theorem sizeOfAll_cons (pattern : Pattern) (rest : List Pattern) :
    sizeOfAll (pattern :: rest) = 1 + pattern.size + sizeOfAll rest := rfl

theorem size_lt_of_mem {pattern : Pattern} {patterns : List Pattern}
    (member : pattern ∈ patterns) : pattern.size < sizeOfAll patterns := by
  induction patterns with
  | nil => exact absurd member List.not_mem_nil
  | cons first rest inductionHypothesis =>
      rw [sizeOfAll]
      rcases List.mem_cons.mp member with rfl | later
      · omega
      · have smaller := inductionHypothesis later
        omega

def hasReference (pattern : Pattern) : Bool :=
  !pattern.references.isEmpty

/-- The factors without the epsilon markers at their start, which match nothing. -/
def factorsPastMarkers (pattern : Pattern) : List Pattern :=
  pattern.factors.dropWhile (· == epsilon)

/-- The leaf that a match of the pattern has to begin with, where the pattern
says so itself. -/
def firstLeaf? (pattern : Pattern) : Option Terminal :=
  match pattern.factorsPastMarkers with
  | .terminal leaf :: _ => some leaf
  | _ => none

end Pattern
end PredictiveParsing
