import Mathlib.Data.Fintype.Card
import Mathlib.Data.Set.Finite.Basic
import PredictiveParsing.Proofs.Lookahead

namespace PredictiveParsing

/-!
# The order of leading references

Where no rule reaches itself through leading references, the references that a
pattern can begin with come to an end: a grammar has finitely many rules, and the
rules that the right-hand side of a rule can begin with come before the rule.  So
there is an induction that goes from a pattern to all that it can begin with, also
through references.

The induction keeps to patterns that can stand first in a right-hand side.  None of
them can begin with the rule that it stands in, which would begin with itself.
-/

namespace Grammar

variable {grammar : Grammar}

/-! ## Rules before rules -/

/-- Whether no rule reaches itself through leading references. -/
def NotLeftRecursive (grammar : Grammar) : Prop :=
  ∀ production ∈ grammar.productions, ¬ grammar.BeginsWith production.name production.root

theorem beginsWith_trans {production : Production} (declared : production ∈ grammar.productions)
    {pattern : Pattern} (begins : grammar.BeginsWith production.name pattern) {rule : String}
    (further : grammar.BeginsWith rule production.root) : grammar.BeginsWith rule pattern := by
  induction begins with
  | here => exact .through declared further
  | through entered _ inductionHypothesis => exact .through entered inductionHypothesis
  | head _ inductionHypothesis => exact .head inductionHypothesis
  | later nullable _ inductionHypothesis => exact .later nullable inductionHypothesis
  | alternative member _ inductionHypothesis => exact .alternative member inductionHypothesis
  | content _ inductionHypothesis => exact .content inductionHypothesis

theorem beginsWith_of_mem_selectable {pattern branch : Pattern} (member : branch ∈ pattern.selectable)
    {rule : String} (begins : grammar.BeginsWith rule branch) : grammar.BeginsWith rule pattern := by
  cases pattern with
  | choice alternatives => exact .alternative member begins
  | optional content =>
      rw [List.mem_singleton.mp member] at begins
      exact .content begins
  | _ => cases member

/-- The rules that a right-hand side can begin with come before its own rule. -/
def ComesBefore (grammar : Grammar) (earlier later : { production // production ∈ grammar.productions }) : Prop :=
  grammar.BeginsWith earlier.val.name later.val.root

theorem wellFounded_comesBefore (notLeftRecursive : grammar.NotLeftRecursive) :
    WellFounded grammar.ComesBefore := by
  have finite : Finite { production // production ∈ grammar.productions } :=
    grammar.productions.finite_toSet.to_subtype
  have transitive : IsTrans _ grammar.ComesBefore :=
    ⟨fun _ middle _ first second => beginsWith_trans middle.property second first⟩
  have irreflexive : Std.Irrefl grammar.ComesBefore :=
    ⟨fun production => notLeftRecursive production.val production.property⟩
  exact Finite.wellFounded_of_trans_of_irrefl grammar.ComesBefore

/-! ## Patterns that stand first -/

/-- Whether the pattern can stand first in the right-hand side of a rule that does not
begin with itself. -/
structure IsLeading (grammar : Grammar) (owner : String) (pattern : Pattern) : Prop where
  leaves : pattern.leaves ⊆ grammar.leaves
  references : pattern.references ⊆ grammar.names
  apart : ¬ grammar.BeginsWith owner pattern

namespace IsLeading

variable {owner : String}

theorem root (notLeftRecursive : grammar.NotLeftRecursive) {production : Production}
    (declared : production ∈ grammar.productions) : grammar.IsLeading production.name production.root where
  leaves := leaves_subset declared
  references := references_subset_names declared
  apart := notLeftRecursive production declared

theorem head {factor : Pattern} {rest : List Pattern}
    (leading : grammar.IsLeading owner (.sequence (factor :: rest))) : grammar.IsLeading owner factor where
  leaves := Pattern.leaves_sequence_subset.mp leading.leaves factor List.mem_cons_self
  references := Pattern.references_sequence_subset.mp leading.references factor List.mem_cons_self
  apart begins := leading.apart (.head begins)

theorem later {factor : Pattern} {rest : List Pattern}
    (leading : grammar.IsLeading owner (.sequence (factor :: rest))) (nullable : grammar.Derives factor []) :
    grammar.IsLeading owner (.sequence rest) where
  leaves := Pattern.leaves_sequence_subset.mpr fun other member =>
    Pattern.leaves_sequence_subset.mp leading.leaves other (List.mem_cons_of_mem _ member)
  references := Pattern.references_sequence_subset.mpr fun other member =>
    Pattern.references_sequence_subset.mp leading.references other (List.mem_cons_of_mem _ member)
  apart begins := leading.apart (.later nullable begins)

theorem branch {pattern branch : Pattern} (leading : grammar.IsLeading owner pattern)
    (member : branch ∈ pattern.selectable) : grammar.IsLeading owner branch where
  leaves := List.Subset.trans (Pattern.leaves_subset_of_mem_selectable member) leading.leaves
  references := List.Subset.trans (Pattern.references_subset_of_mem_selectable member) leading.references
  apart begins := leading.apart (beginsWith_of_mem_selectable member begins)

end IsLeading

/-! ## Induction -/

section

variable {motive : ∀ owner pattern, grammar.IsLeading owner pattern -> Prop}
  (terminal : ∀ owner leaf (leading : grammar.IsLeading owner (.terminal leaf)), motive _ _ leading)
  (reference : ∀ owner production (_ : production ∈ grammar.productions)
    (leading : grammar.IsLeading owner (.reference production.name))
    (root : grammar.IsLeading production.name production.root), motive _ _ root -> motive _ _ leading)
  (noFactors : ∀ owner (leading : grammar.IsLeading owner (.sequence [])), motive _ _ leading)
  (factors : ∀ owner factor rest (leading : grammar.IsLeading owner (.sequence (factor :: rest))),
    motive _ _ leading.head -> (∀ nullable : grammar.Derives factor [], motive _ _ (leading.later nullable)) ->
    motive _ _ leading)
  (selection : ∀ owner pattern (_ : pattern.selects = true) (leading : grammar.IsLeading owner pattern),
    (∀ branch (member : branch ∈ pattern.selectable), motive _ _ (leading.branch member)) -> motive _ _ leading)

include terminal reference noFactors factors selection

/-- A pattern leads through its parts to the rules that it can begin with. -/
private theorem inductionOnLeading_of_rules {owner : String} {pattern : Pattern}
    (leading : grammar.IsLeading owner pattern)
    (rules : ∀ production ∈ grammar.productions, grammar.BeginsWith production.name pattern ->
      ∃ root : grammar.IsLeading production.name production.root, motive _ _ root) : motive _ _ leading := by
  induction pattern using Pattern.inductionOnParts with
  | terminal leaf => exact terminal owner leaf leading
  | reference rule =>
      have isRule := leading.references (List.mem_singleton.mpr rfl)
      rcases exists_production_of_mem_names isRule with ⟨production, declared, rfl⟩
      rcases rules production declared .here with ⟨root, ofRoot⟩
      exact reference owner production declared leading root ofRoot
  | sequence parts inductionHypothesis =>
      induction parts with
      | nil => exact noFactors owner leading
      | cons factor rest restHypothesis =>
          refine factors owner factor rest leading ?_ fun nullable => ?_
          · exact inductionHypothesis factor List.mem_cons_self leading.head
              fun production declared begins => rules production declared (.head begins)
          · exact restHypothesis (fun other member => inductionHypothesis other (List.mem_cons_of_mem _ member))
              (leading.later nullable)
              fun production declared begins => rules production declared (.later nullable begins)
  | choice alternatives inductionHypothesis =>
      refine selection owner _ rfl leading fun branch member => ?_
      exact inductionHypothesis branch member (leading.branch member)
        fun production declared begins => rules production declared (.alternative member begins)
  | optional content inductionHypothesis =>
      refine selection owner _ rfl leading fun branch member => ?_
      cases List.mem_singleton.mp member
      exact inductionHypothesis (leading.branch member)
        fun production declared begins => rules production declared (.content begins)

/-- Induction from what a pattern can begin with to the pattern. -/
@[elab_as_elim]
theorem inductionOnLeading (notLeftRecursive : grammar.NotLeftRecursive) {owner : String} {pattern : Pattern}
    (leading : grammar.IsLeading owner pattern) : motive _ _ leading := by
  have roots (entered : { production // production ∈ grammar.productions }) :
      motive _ _ (IsLeading.root notLeftRecursive entered.property) := by
    induction entered using (wellFounded_comesBefore notLeftRecursive).induction with
    | _ entered inductionHypothesis =>
        exact inductionOnLeading_of_rules terminal reference noFactors factors selection _
          fun production declared begins => ⟨_, inductionHypothesis ⟨production, declared⟩ begins⟩
  exact inductionOnLeading_of_rules terminal reference noFactors factors selection leading
    fun production declared _ => ⟨_, roots ⟨production, declared⟩⟩

end

end Grammar
end PredictiveParsing
