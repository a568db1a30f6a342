import Mathlib.Data.List.Perm.Subperm
import PredictiveParsing.NumberSet
import PredictiveParsing.Proofs.Derivation

namespace PredictiveParsing

/-!
# Marking the nullable rules in place

The nullable rules can also be found with a single set of marks, one for the number
of each rule.  A pass goes over the productions in declaration order and marks each
one whose right-hand side is nullable by the marks so far, those of the same pass
included.  Passes are repeated until one of them adds no mark.

A pass that adds a mark leaves fewer numbers unmarked, and so the passes come to an
end.  No mark is ever wrong, whatever the order of the productions, since the marks
so far all belong to nullable rules.  None is missing at the end: the last pass has
judged every production by the same marks, so each round of the nullable rules stays
within them.

Main statement: the passes end without a refusal by the set, with a mark exactly at
the numbers of the productions that derive the empty sentence; and a pattern is
nullable by these marks exactly if it derives the empty sentence itself.
-/

/-! ## Numbers without a mark -/

namespace NumberSet

theorem nodup_toList (set : NumberSet) : set.toList.Nodup :=
  set.pairwise_toList.imp Nat.ne_of_lt

/-- How many numbers can still be added. -/
def room (set : NumberSet) : Nat :=
  set.blocks.length * blockBits - set.toList.length

/-- A larger set with as many blocks has less room. -/
theorem room_lt {set next : NumberSet} (sameBlocks : next.blocks.length = set.blocks.length)
    (keeps : ∀ number, set.contains number = true -> next.contains number = true) {added : Nat}
    (fresh : set.contains added = false) (present : next.contains added = true) : next.room < set.room := by
  have longer : (added :: set.toList).length ≤ next.toList.length := by
    have nodup : (added :: set.toList).Nodup := by
      refine List.nodup_cons.mpr ⟨fun member => ?_, nodup_toList set⟩
      rw [mem_toList, fresh] at member
      cases member
    apply (List.subperm_of_subset nodup ?_).length_le
    refine List.cons_subset.mpr ⟨mem_toList.mpr present, fun number member => ?_⟩
    exact mem_toList.mpr (keeps number (mem_toList.mp member))
  have bound : next.toList.length ≤ next.blocks.length * blockBits := by
    have inRange : next.toList ⊆ List.range (next.blocks.length * blockBits) :=
      fun number member => List.mem_range.mpr (lt_of_contains (mem_toList.mp member))
    have fits := (List.subperm_of_subset (nodup_toList next) inRange).length_le
    rwa [List.length_range] at fits
  rw [List.length_cons] at longer
  rw [room, room, sameBlocks]
  rw [sameBlocks] at bound
  omega

end NumberSet

namespace Grammar

open NumberSet (BeyondLastBlock blockBits)

variable {grammar : Grammar} {marks : NumberSet}

/-! ## Passes -/

def marked (grammar : Grammar) (marks : NumberSet) : List String :=
  grammar.names.filter fun rule => (grammar.position? rule).any marks.contains

/-- One pass over productions, the first of which has the given number.  It says
whether it added a mark. -/
def pass (grammar : Grammar) (number : Nat) (marks : NumberSet) :
    List Production -> Except BeyondLastBlock (Bool × NumberSet)
  | [] => .ok (false, marks)
  | production :: rest =>
      if !marks.contains number && production.root.isNullable (grammar.marked marks) then
        match marks.insert number with
        | .error refusal => .error refusal
        | .ok (_, more) => (grammar.pass (number + 1) more rest).map fun (_, last) => (true, last)
      else grammar.pass (number + 1) marks rest

/-- What a pass does at its first production: it marks a production that is nullable
by the marks so far, and passes over any other. -/
theorem pass_cons_cases {number : Nat} {production : Production} {rest : List Production} {added : Bool}
    {last : NumberSet} (passed : grammar.pass number marks (production :: rest) = .ok (added, last)) :
    (marks.contains number = false ∧ production.root.isNullable (grammar.marked marks) = true ∧ added = true ∧
      ∃ isNew more addedLater, marks.insert number = .ok (isNew, more) ∧
        grammar.pass (number + 1) more rest = .ok (addedLater, last)) ∨
    ((marks.contains number = false -> production.root.isNullable (grammar.marked marks) = false) ∧
      grammar.pass (number + 1) marks rest = .ok (added, last)) := by
  rw [pass] at passed
  split at passed
  · rename_i chosen
    rw [Bool.and_eq_true, Bool.not_eq_true'] at chosen
    split at passed
    · cases passed
    · rename_i isNew more inserted
      cases later : grammar.pass (number + 1) more rest with
      | error refusal =>
          rw [later] at passed
          cases passed
      | ok result =>
          rw [later] at passed
          cases passed
          exact Or.inl ⟨chosen.1, chosen.2, rfl, isNew, more, result.1, inserted, later⟩
  · rename_i notChosen
    refine Or.inr ⟨fun unmarked => ?_, passed⟩
    rw [unmarked, Bool.not_false, Bool.true_and, Bool.not_eq_true] at notChosen
    exact notChosen

/-- Marks are only ever added, and in the blocks that the set has. -/
theorem grows_of_pass {number : Nat} {productions : List Production} {added : Bool} {last : NumberSet}
    (passed : grammar.pass number marks productions = .ok (added, last)) :
    last.blocks.length = marks.blocks.length ∧
      ∀ other, marks.contains other = true -> last.contains other = true := by
  induction productions generalizing number marks added with
  | nil =>
      cases passed
      exact ⟨rfl, fun _ => id⟩
  | cons production rest inductionHypothesis =>
      rcases pass_cons_cases passed with ⟨_, _, _, isNew, more, addedLater, inserted, later⟩ | ⟨_, later⟩
      · rcases inductionHypothesis later with ⟨sameBlocks, keeps⟩
        refine ⟨sameBlocks.trans (NumberSet.length_blocks_of_insert inserted), fun other member => keeps other ?_⟩
        rw [(NumberSet.contains_of_insert inserted).2, member, Bool.true_or]
      · exact inductionHypothesis later

/-- A pass that says so has added a mark. -/
theorem exists_added_of_pass {number : Nat} {productions : List Production} {last : NumberSet}
    (passed : grammar.pass number marks productions = .ok (true, last)) :
    ∃ other, marks.contains other = false ∧ last.contains other = true := by
  induction productions generalizing number with
  | nil => cases passed
  | cons production rest inductionHypothesis =>
      rcases pass_cons_cases passed with ⟨unmarked, _, _, isNew, more, addedLater, inserted, later⟩ | ⟨_, later⟩
      · refine ⟨number, unmarked, (grows_of_pass later).2 number ?_⟩
        rw [(NumberSet.contains_of_insert inserted).2, beq_self_eq_true, Bool.or_true]
      · exact inductionHypothesis later

/-- A pass that added nothing has found no unmarked production nullable by the
marks that it leaves. -/
theorem rests_of_pass {number : Nat} {productions : List Production} {last : NumberSet}
    (passed : grammar.pass number marks productions = .ok (false, last)) :
    last = marks ∧ ∀ offset production, productions[offset]? = some production ->
      marks.contains (number + offset) = false -> production.root.isNullable (grammar.marked marks) = false := by
  induction productions generalizing number with
  | nil =>
      cases passed
      exact ⟨rfl, fun offset production found => by cases found⟩
  | cons production rest inductionHypothesis =>
      rcases pass_cons_cases passed with ⟨_, _, impossible, _⟩ | ⟨notNullable, later⟩
      · cases impossible
      · rcases inductionHypothesis later with ⟨same, others⟩
        refine ⟨same, fun offset other found unmarked => ?_⟩
        cases offset with
        | zero =>
            cases found
            exact notNullable unmarked
        | succ offset =>
            apply others offset other found
            rw [Nat.add_assoc, Nat.add_comm 1 offset]
            exact unmarked

/-- A pass is not refused where every number has a block. -/
theorem exists_pass {number : Nat} {productions : List Production}
    (admitted : ∀ offset, offset < productions.length -> (number + offset) / blockBits < marks.blocks.length) :
    ∃ added last, grammar.pass number marks productions = .ok (added, last) := by
  induction productions generalizing number marks with
  | nil => exact ⟨false, marks, rfl⟩
  | cons production rest inductionHypothesis =>
      have here : number / blockBits < marks.blocks.length := admitted 0 (Nat.succ_pos _)
      have later : ∀ offset, offset < rest.length -> (number + 1 + offset) / blockBits < marks.blocks.length := by
        intro offset below
        rw [Nat.add_assoc, Nat.add_comm 1 offset]
        exact admitted (offset + 1) (Nat.succ_lt_succ below)
      rw [pass]
      split
      · rcases NumberSet.exists_insert here with ⟨isNew, more, inserted⟩
        rw [← NumberSet.length_blocks_of_insert inserted] at later
        rcases inductionHypothesis later with ⟨added, last, passed⟩
        rw [inserted]
        refine ⟨true, last, ?_⟩
        change Except.map _ (grammar.pass (number + 1) more rest) = _
        rw [passed]
        rfl
      · exact inductionHypothesis later

/-! ## Repeating passes -/

/-- Repeats passes until one adds no mark. -/
def settle (grammar : Grammar) (marks : NumberSet) : Except BeyondLastBlock NumberSet :=
  match passed : grammar.pass 0 marks grammar.productions with
  | .error refusal => .error refusal
  | .ok (false, last) => .ok last
  | .ok (true, more) =>
      have _added := exists_added_of_pass passed
      grammar.settle more
termination_by marks.room
decreasing_by
  rcases grows_of_pass passed with ⟨sameBlocks, keeps⟩
  rcases _added with ⟨added, fresh, present⟩
  exact NumberSet.room_lt sameBlocks keeps fresh present

def nullableMarks (grammar : Grammar) : Except BeyondLastBlock NumberSet :=
  grammar.settle (.empty grammar.size)

/-! ## Marks and rules -/

theorem mem_marked {number : Nat} {production : Production}
    (found : grammar.productions[number]? = some production) :
    production.name ∈ grammar.marked marks ↔ marks.contains number = true := by
  have isRule := name_mem_names (List.mem_of_getElem? found)
  rw [marked, List.mem_filter, position?_of_getElem? found, Option.any_some]
  exact and_iff_right isRule

/-- Whether every mark belongs to a production that derives the empty sentence. -/
def MarksOnlyNullable (grammar : Grammar) (marks : NumberSet) : Prop :=
  ∀ number, marks.contains number = true ->
    ∃ production, grammar.productions[number]? = some production ∧ grammar.Derives production.root []

/-- Rules that are marked so are nullable. -/
theorem MarksOnlyNullable.marked_subset (only : grammar.MarksOnlyNullable marks) :
    grammar.marked marks ⊆ grammar.nullableRules := by
  intro rule member
  have isMarked := (List.mem_filter.mp member).2
  cases stands : grammar.position? rule with
  | none =>
      rw [stands] at isMarked
      cases isMarked
  | some number =>
      rw [stands] at isMarked
      rcases only number isMarked with ⟨production, found, derives⟩
      rcases exists_getElem?_of_position? stands with ⟨other, sameFound, sameName⟩
      cases found.symm.trans sameFound
      have nullable := isNullable_iff_derives_nil.mpr (.rule (List.mem_of_getElem? found) derives)
      rw [Pattern.isNullable, List.contains_iff_mem, sameName] at nullable
      exact nullable

/-- A pass over productions at their own numbers makes no wrong mark. -/
theorem MarksOnlyNullable.pass {number : Nat} {productions : List Production} {added : Bool} {last : NumberSet}
    (only : grammar.MarksOnlyNullable marks)
    (placed : ∀ offset production, productions[offset]? = some production ->
      grammar.productions[number + offset]? = some production)
    (passed : grammar.pass number marks productions = .ok (added, last)) : grammar.MarksOnlyNullable last := by
  induction productions generalizing number marks added with
  | nil =>
      cases passed
      exact only
  | cons production rest inductionHypothesis =>
      have placedRest : ∀ offset other, rest[offset]? = some other ->
          grammar.productions[number + 1 + offset]? = some other := by
        intro offset other found
        rw [Nat.add_assoc, Nat.add_comm 1 offset]
        exact placed (offset + 1) other found
      rcases pass_cons_cases passed with ⟨_, nullable, _, isNew, more, addedLater, inserted, later⟩ | ⟨_, later⟩
      · refine inductionHypothesis (fun other member => ?_) placedRest later
        rw [(NumberSet.contains_of_insert inserted).2, Bool.or_eq_true, beq_iff_eq] at member
        rcases member with before | rfl
        · exact only other before
        · refine ⟨production, placed 0 production rfl, isNullable_iff_derives_nil.mp ?_⟩
          exact isNullable_of_subset only.marked_subset production.root nullable
      · exact inductionHypothesis only placedRest later

/-- Where a whole pass adds nothing, no nullable rule is without a mark. -/
theorem nullableRules_subset_marked (passed : grammar.pass 0 marks grammar.productions = .ok (false, marks)) :
    grammar.nullableRules ⊆ grammar.marked marks := by
  have closed : grammar.nullableGiven (grammar.marked marks) ⊆ grammar.marked marks := by
    intro rule member
    rcases List.mem_map.mp member with ⟨production, kept, rfl⟩
    rcases List.mem_filter.mp kept with ⟨declared, nullable⟩
    rcases List.getElem?_of_mem declared with ⟨number, found⟩
    rw [mem_marked found]
    cases unmarked : marks.contains number with
    | true => rfl
    | false =>
        have notNullable := (rests_of_pass passed).2 number production found (by rw [Nat.zero_add, unmarked])
        rw [nullable] at notNullable
        cases notNullable
  have rounds (count : Nat) : grammar.nullableAfter count ⊆ grammar.marked marks := by
    induction count with
    | zero => exact List.nil_subset _
    | succ count inductionHypothesis =>
        exact List.Subset.trans (nullableGiven_sublist inductionHypothesis).subset closed
  exact rounds grammar.size

/-- Repeated passes end with marks for exactly the nullable rules. -/
theorem settle_spec (admitted : ∀ number, number < grammar.size -> number / blockBits < marks.blocks.length)
    (only : grammar.MarksOnlyNullable marks) :
    ∃ last, grammar.settle marks = .ok last ∧ grammar.MarksOnlyNullable last ∧
      grammar.nullableRules ⊆ grammar.marked last := by
  have length : grammar.productions.length = grammar.size := List.length_map _
  have placed : ∀ offset production, grammar.productions[offset]? = some production ->
      grammar.productions[0 + offset]? = some production := by
    intro offset production found
    rw [Nat.zero_add]
    exact found
  fun_induction settle grammar marks with
  | case1 marks refusal refused =>
      have inBlocks : ∀ offset, offset < grammar.productions.length ->
          (0 + offset) / blockBits < marks.blocks.length := by
        intro offset below
        rw [Nat.zero_add]
        exact admitted offset (length ▸ below)
      rcases exists_pass inBlocks with ⟨added, last, passed⟩
      cases refused.symm.trans passed
  | case2 marks last passed =>
      cases (rests_of_pass passed).1
      exact ⟨_, rfl, only, nullableRules_subset_marked passed⟩
  | case3 marks more passed _ inductionHypothesis =>
      apply inductionHypothesis
      · intro number below
        rw [(grows_of_pass passed).1]
        exact admitted number below
      · exact only.pass placed passed

/-! ## The equations of nullable patterns -/

/-- The right-hand sides of the equations for patterns that derive the empty
sentence. -/
def nullableEquation (grammar : Grammar) (nullable : Pattern -> Prop) : Pattern -> Prop
  | .terminal leaf => leaf = .epsilon
  | .reference rule => ∃ production ∈ grammar.productions, production.name = rule ∧ nullable production.root
  | .sequence factors => ∀ factor ∈ factors, nullable factor
  | .choice alternatives => ∃ alternative ∈ alternatives, nullable alternative
  | .optional _ => True

theorem derives_nil_iff_nullableEquation {pattern : Pattern} :
    grammar.Derives pattern [] ↔ grammar.nullableEquation (grammar.Derives · []) pattern := by
  cases pattern with
  | terminal leaf =>
      constructor
      · intro derives
        cases derives
        rfl
      · intro marker
        rw [show leaf = .epsilon from marker]
        exact .marker
  | reference rule =>
      constructor
      · exact exists_production_of_derives
      · rintro ⟨production, declared, rfl, root⟩
        exact .rule declared root
  | sequence factors =>
      constructor
      · intro derives factor member
        have nullable := isNullable_iff_derives_nil.mpr derives
        rw [Pattern.isNullable, Pattern.areAllNullable_eq_all, List.all_eq_true] at nullable
        exact isNullable_iff_derives_nil.mp (nullable factor member)
      · exact derives_nil_of_all
  | choice alternatives =>
      constructor
      · intro derives
        cases derives with
        | alternative member taken => exact ⟨_, member, taken⟩
      · rintro ⟨alternative, member, taken⟩
        exact .alternative member taken
  | optional content => exact iff_of_true .absent trivial

/-! ## The marks of a grammar -/

/-- The passes end, and then the marks are those of the productions that derive the
empty sentence.  So the patterns that are nullable by the marks are those that derive
it, by the equations of their shapes, and those that an analysis takes for nullable. -/
theorem nullableMarks_iff_derives (grammar : Grammar) :
    ∃ marks, grammar.nullableMarks = .ok marks ∧
      (∀ number, marks.contains number = true ↔
        ∃ production, grammar.productions[number]? = some production ∧ grammar.Derives production.root []) ∧
      ∀ pattern,
        (pattern.isNullable (grammar.marked marks) = true ↔ grammar.Derives pattern []) ∧
        (grammar.Derives pattern [] ↔ grammar.nullableEquation (grammar.Derives · []) pattern) ∧
        grammar.analysis.isNullable pattern = pattern.isNullable (grammar.marked marks) := by
  have unmarked : grammar.MarksOnlyNullable (.empty grammar.size) := by
    intro number member
    rw [NumberSet.contains_empty] at member
    cases member
  rcases settle_spec (fun number => NumberSet.div_lt_length_blocks_empty) unmarked with
    ⟨marks, settled, only, complete⟩
  have byMarks (pattern : Pattern) :
      pattern.isNullable (grammar.marked marks) = true ↔ grammar.Derives pattern [] := by
    rw [← isNullable_iff_derives_nil]
    exact ⟨isNullable_of_subset only.marked_subset pattern, isNullable_of_subset complete pattern⟩
  refine ⟨marks, settled, fun number => ⟨only number, ?_⟩, fun pattern =>
    ⟨byMarks pattern, derives_nil_iff_nullableEquation, ?_⟩⟩
  · rintro ⟨production, found, derives⟩
    have nullable := (byMarks (.reference production.name)).mpr (.rule (List.mem_of_getElem? found) derives)
    rw [Pattern.isNullable, List.contains_iff_mem] at nullable
    exact (mem_marked found).mp nullable
  · exact Bool.eq_iff_iff.mpr ((grammar.analysis.isNullable_iff pattern).trans (byMarks pattern).symm)

end Grammar
end PredictiveParsing
