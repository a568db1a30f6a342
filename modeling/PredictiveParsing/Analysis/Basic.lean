import PredictiveParsing.Grammar.Basic

namespace PredictiveParsing

/-!
# Grammars under analysis

Every question about how a pattern begins needs the rules that can match nothing, so
they are found once for a grammar and kept beside it.  A reference can match nothing when
its rule can, so these rules are the least solution of mutually dependent conditions.
They are found in rounds: each round takes the rules whose right-hand sides can match
nothing if the rules of the round before can.  A round that adds a rule adds at least
one, hence there are never more rounds than rules.
-/

/-! ## Patterns that can match nothing -/

namespace Pattern

mutual

/-- Whether the pattern can match nothing, if the given rules can. -/
def isNullable (nullable : List String) : Pattern -> Bool
  | .terminal leaf => leaf == .epsilon
  | .reference rule => nullable.contains rule
  | .sequence factors => areAllNullable nullable factors
  | .choice alternatives => isAnyNullable nullable alternatives
  | .optional _ => true

def areAllNullable (nullable : List String) : List Pattern -> Bool
  | [] => true
  | pattern :: rest => isNullable nullable pattern && areAllNullable nullable rest

def isAnyNullable (nullable : List String) : List Pattern -> Bool
  | [] => false
  | pattern :: rest => isNullable nullable pattern || isAnyNullable nullable rest

end

theorem areAllNullable_eq_all (nullable : List String) (patterns : List Pattern) :
    areAllNullable nullable patterns = patterns.all (isNullable nullable) := by
  induction patterns with
  | nil => rfl
  | cons pattern rest inductionHypothesis =>
      rw [areAllNullable, inductionHypothesis, List.all_cons]

theorem isAnyNullable_eq_any (nullable : List String) (patterns : List Pattern) :
    isAnyNullable nullable patterns = patterns.any (isNullable nullable) := by
  induction patterns with
  | nil => rfl
  | cons pattern rest inductionHypothesis =>
      rw [isAnyNullable, inductionHypothesis, List.any_cons]

end Pattern

namespace Grammar

/-- The rules that can match nothing if the given rules can. -/
def nullableGiven (grammar : Grammar) (nullable : List String) : List String :=
  (grammar.productions.filter fun production => production.root.isNullable nullable).map (·.name)

/-- The rules that are known to match nothing after some rounds. -/
def nullableAfter (grammar : Grammar) : Nat -> List String
  | 0 => []
  | rounds + 1 => grammar.nullableGiven (grammar.nullableAfter rounds)

def nullableRules (grammar : Grammar) : List String :=
  grammar.nullableAfter grammar.size

end Grammar

/-! ## Analyses -/

/-- A grammar together with its nullable rules, which every further question
about it needs. -/
structure Analysis where
  grammar : Grammar
  /-- The rules that can match nothing. -/
  nullable : List String
  nullable_eq : nullable = grammar.nullableRules

def Grammar.analysis (grammar : Grammar) : Analysis :=
  ⟨grammar, grammar.nullableRules, rfl⟩

/-- Whether the pattern can match nothing. -/
def Analysis.isNullable (analysis : Analysis) (pattern : Pattern) : Bool :=
  pattern.isNullable analysis.nullable

end PredictiveParsing
