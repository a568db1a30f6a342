import PredictiveParsing.Analysis.Exploration
import PredictiveParsing.Plan.Step

namespace PredictiveParsing

/-!
# Planning

A factor is planned by its shape.  A choice and an optional part become
selections by their lookahead tables.  A selection takes the token away at once
only where no arm could need it any more: if every alternative begins with a
leaf, no rule is called, and the pattern cannot be absent.

Main statement: every entry of a selection's table that stands for a token takes
an alternative of the choice or the content of the optional part, which is
smaller than the pattern, and so planning ends.
-/

/-- Whether the next token selects among parts of the pattern. -/
def Pattern.selects : Pattern -> Bool
  | .choice _ | .optional _ => true
  | _ => false

/-- The parts among which a pattern selects by the next token. -/
def Pattern.selectable : Pattern -> List Pattern
  | .choice alternatives => alternatives
  | .optional content => [content]
  | _ => []

namespace Analysis

theorem branch_mem_of_exploreAlternatives (analysis : Analysis) (owner : String)
    (unentered : List Production) (alternatives : List Pattern) (entry : LookaheadEntry)
    (member : entry ∈ (analysis.exploreAlternatives owner unentered alternatives).found.entries) :
    entry.branch ∈ alternatives := by
  induction alternatives generalizing unentered with
  | nil =>
      rw [exploreAlternatives] at member
      exact absurd member List.not_mem_nil
  | cons alternative rest inductionHypothesis =>
      rw [exploreAlternatives] at member
      rcases Lookahead.mem_merge.mp member with early | late
      · apply List.mem_cons.mpr
        apply Or.inl
        rcases Lookahead.mem_of_mem_marked early with inside | ⟨_, rfl⟩
        · exact Lookahead.branch_of_mem_towards inside
        · rfl
      · exact List.mem_cons_of_mem _ (inductionHypothesis _ late.1)

/-- A token is answered with one of the parts that the pattern selects among. -/
theorem branch_mem_selectable (analysis : Analysis) (owner : String) (unentered : List Production)
    (pattern : Pattern) (selects : pattern.selects = true) (entry : LookaheadEntry)
    (member : entry ∈ (analysis.explore owner unentered pattern).found.tokenEntries) :
    entry.branch ∈ pattern.selectable := by
  obtain ⟨found, isToken⟩ := List.mem_filter.mp member
  cases pattern with
  | terminal leaf => exact absurd selects Bool.false_ne_true
  | reference rule => exact absurd selects Bool.false_ne_true
  | sequence factors => exact absurd selects Bool.false_ne_true
  | choice alternatives =>
      rw [explore] at found
      exact branch_mem_of_exploreAlternatives _ _ _ _ _ found
  | optional content =>
      rw [explore] at found
      rcases Lookahead.mem_merge.mp found with inside | own
      · exact List.mem_singleton.mpr (Lookahead.branch_of_mem_towards inside)
      · rw [List.mem_singleton.mp own.1] at isToken
        exact absurd isToken Bool.false_ne_true

theorem size_branch_lt (analysis : Analysis) (owner : String) (pattern : Pattern)
    (selects : pattern.selects = true) (entry : LookaheadEntry)
    (member : entry ∈ (analysis.lookaheadOf owner pattern).tokenEntries) :
    entry.branch.size < pattern.size := by
  have part := branch_mem_selectable analysis owner _ pattern selects entry member
  cases pattern with
  | terminal leaf => exact absurd selects Bool.false_ne_true
  | reference rule => exact absurd selects Bool.false_ne_true
  | sequence factors => exact absurd selects Bool.false_ne_true
  | choice alternatives =>
      have smaller := Pattern.size_lt_of_mem part
      rw [Pattern.selectable] at smaller
      rw [Pattern.size]
      omega
  | optional content =>
      rw [List.mem_singleton.mp part, Pattern.size]
      omega

/-- How the token for a selection is obtained, given the pattern's table. -/
def acquisitionFor (pattern : Pattern) (table : Lookahead) : Acquisition :=
  if table.admitsNothing || pattern.hasReference ||
      !pattern.alternatives.all (·.firstLeaf?.isSome) then .peek
  else .take

/-- The selection among the parts of a pattern, given the plan for each entry of
its table. -/
def selectionBy (pattern : Pattern) (table : Lookahead)
    (planned : { entry // entry ∈ table.tokenEntries } -> Step) : Step :=
  let acquisition := acquisitionFor pattern table
  .select acquisition
    (table.tokenEntries.attach.map fun entry =>
      (entry.val.terminal, (planned entry).afterSelection acquisition entry.val.terminal))
    table.admitsNothing

/-- The plan for a factor in the right-hand side of its owner. -/
def plan (analysis : Analysis) (owner : String) : Pattern -> Step
  | .terminal leaf => if leaf = .epsilon then .nothing else .require leaf
  | .reference rule => .call rule
  | .sequence factors => .group (factors.attach.map fun factor => analysis.plan owner factor.val)
  | .choice alternatives =>
      selectionBy (.choice alternatives) (analysis.lookaheadOf owner (.choice alternatives))
        fun entry => analysis.plan owner entry.val.branch
  | .optional content =>
      selectionBy (.optional content) (analysis.lookaheadOf owner (.optional content))
        fun entry => analysis.plan owner entry.val.branch
termination_by pattern => pattern.size
decreasing_by
  · have smaller := Pattern.size_lt_of_mem factor.property
    rw [Pattern.size]
    omega
  · exact size_branch_lt analysis owner _ rfl entry.val entry.property
  · exact size_branch_lt analysis owner _ rfl entry.val entry.property

def selection (analysis : Analysis) (owner : String) (pattern : Pattern) (table : Lookahead) : Step :=
  selectionBy pattern table fun entry => analysis.plan owner entry.val.branch

theorem plan_sequence (analysis : Analysis) (owner : String) (factors : List Pattern) :
    analysis.plan owner (.sequence factors) = .group (factors.map (analysis.plan owner)) := by
  rw [plan, List.attach_map_val (f := analysis.plan owner)]

theorem plan_of_selects (analysis : Analysis) (owner : String) (pattern : Pattern)
    (selects : pattern.selects = true) :
    analysis.plan owner pattern =
      analysis.selection owner pattern (analysis.lookaheadOf owner pattern) := by
  cases pattern with
  | terminal leaf => exact absurd selects Bool.false_ne_true
  | reference rule => exact absurd selects Bool.false_ne_true
  | sequence factors => exact absurd selects Bool.false_ne_true
  | choice alternatives => rw [plan, selection]
  | optional content => rw [plan, selection]

theorem selection_eq (analysis : Analysis) (owner : String) (pattern : Pattern) (table : Lookahead) :
    analysis.selection owner pattern table =
      .select (acquisitionFor pattern table)
        (table.tokenEntries.map fun entry =>
          (entry.terminal,
            (analysis.plan owner entry.branch).afterSelection (acquisitionFor pattern table) entry.terminal))
        table.admitsNothing := by
  rw [selection, selectionBy, List.attach_map_val (f := fun entry : LookaheadEntry =>
    (entry.terminal,
      (analysis.plan owner entry.branch).afterSelection (acquisitionFor pattern table) entry.terminal))]

/-- The plan for the routine of a production.  A right-hand side that is a
selection uses the table of the declared rule of that name, without which there
is no plan. -/
def routinePlan? (analysis : Analysis) (production : Production) : Option (List Step) :=
  if production.root.selects then
    (analysis.lookahead? production.name).map fun table =>
      [analysis.selection production.name production.root table]
  else some (production.root.factors.map (analysis.plan production.name))

end Analysis
end PredictiveParsing
