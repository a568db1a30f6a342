import Mathlib.Data.Finset.Insert
import PredictiveParsing.NumberSet

namespace PredictiveParsing
namespace NumberSet

/-!
# Blocks as finite sets

The blocks of a set are machine words, on which a shift may go too far and a difference may
fall below zero.  Here both are checked each time, and stop the program.  In the masks of a
set they never do: the place of a number in its block is a remainder, and a cursor that
stands behind the last place is seen before it becomes a distance.

What remains to be observed of a set are the answers to a sequence of commands, and its
listing after them.  Both are those of a finite set of numbers that refuses what lies beyond
a bound.
-/

/-! ## Checked arithmetic -/

/-- What stops a program that works on blocks. -/
inductive Fault where
  /-- A shift by as many places as there are in a block, or more. -/
  | shift
  /-- A difference below zero. -/
  | difference
  /-- The use of a block that a set does not have. -/
  | block (refusal : BeyondLastBlock)
deriving DecidableEq

/-- One, shifted to the left. -/
def shiftOne (distance : Nat) : Except Fault (BitVec blockBits) :=
  if distance < blockBits then .ok (BitVec.twoPow blockBits distance) else .error .shift

/-- A block less one. -/
def subtractOne (block : BitVec blockBits) : Except Fault (BitVec blockBits) :=
  if 1 ≤ block then .ok (block - 1) else .error .difference

/-- The bits of a block before a place. -/
def checkedBefore (bit : Nat) : Except Fault (BitVec blockBits) := do
  subtractOne (← shiftOne bit)

def checkedContains (set : NumberSet) (number : Nat) : Except Fault Bool :=
  match set.blocks[number / blockBits]? with
  | some block => do
      let mask ← shiftOne (number % blockBits)
      return block &&& mask != 0
  | none => .ok false

def checkedInsert (set : NumberSet) (number : Nat) : Except Fault (Bool × NumberSet) := do
  let mask ← shiftOne (number % blockBits)
  match set.blocks[number / blockBits]? with
  | some block => return (block &&& mask == 0, ⟨set.blocks.set (number / blockBits) (block ||| mask)⟩)
  | none => .error (.block ⟨set.blocks.length, number / blockBits⟩)

def checkedNext (set : NumberSet) (cursor : Cursor) : Except Fault (Option (Nat × Cursor)) :=
  if inside : cursor.index < set.blocks.length then
    if cursor.bit < blockBits then do
      let passed ← checkedBefore cursor.bit
      let bit := (set.blocks[cursor.index] &&& ~~~passed).ctz.toNat
      if found : bit < blockBits then
        return some (cursor.index * blockBits + bit, ⟨cursor.index, bit + 1, found⟩)
      else set.checkedNext (.start (cursor.index + 1))
    else set.checkedNext (.start (cursor.index + 1))
  else return none
termination_by set.blocks.length - cursor.index
decreasing_by
  all_goals exact Nat.sub_lt_sub_left inside (Nat.lt_succ_self _)

theorem shiftOne_val (place : Fin blockBits) : shiftOne place.val = .ok (single place) :=
  if_pos place.isLt

theorem checkedBefore_val (place : Fin blockBits) : checkedBefore place.val = .ok (single place - 1) := by
  rw [checkedBefore, shiftOne_val]
  exact if_pos (one_le_single place)

theorem checkedContains_eq (set : NumberSet) (number : Nat) :
    set.checkedContains number = .ok (set.contains number) := by
  rw [checkedContains, contains]
  cases set.blocks[number / blockBits]? with
  | none => rfl
  | some block =>
      change (do let mask ← shiftOne (place number).val; return block &&& mask != 0) = _
      rw [shiftOne_val]
      rfl

/-- Nothing but a missing block stops an insertion. -/
theorem checkedInsert_eq (set : NumberSet) (number : Nat) :
    set.checkedInsert number = (set.insert number).mapError .block := by
  have mask : shiftOne (number % blockBits) = .ok (single (place number)) := shiftOne_val (place number)
  rw [checkedInsert, insert, mask]
  cases set.blocks[number / blockBits]? with
  | none => rfl
  | some block => rfl

/-- Nothing stops the cursor. -/
theorem checkedNext_eq (set : NumberSet) (cursor : Cursor) : set.checkedNext cursor = .ok (set.next cursor) := by
  fun_induction next set cursor with
  | case1 cursor inside within bit isBit =>
      have passed : checkedBefore cursor.bit = .ok (single ⟨cursor.bit, within⟩ - 1) :=
        checkedBefore_val ⟨cursor.bit, within⟩
      rw [checkedNext, dif_pos inside, if_pos within, passed]
      exact dif_pos isBit
  | case2 cursor inside within bit noBit inductionHypothesis =>
      have passed : checkedBefore cursor.bit = .ok (single ⟨cursor.bit, within⟩ - 1) :=
        checkedBefore_val ⟨cursor.bit, within⟩
      rw [checkedNext, dif_pos inside, if_pos within, passed, ← inductionHypothesis]
      exact dif_neg noBit
  | case3 cursor inside full inductionHypothesis =>
      rw [checkedNext, dif_pos inside, if_neg full, inductionHypothesis]
  | case4 cursor outside =>
      rw [checkedNext, dif_neg outside]
      rfl

/-! ## Listings -/

/-- What steps of the cursor yield one after another until there is none, where nothing stops them. -/
inductive Yields (set : NumberSet) : Cursor -> List Nat -> Prop where
  | ends {cursor : Cursor} (none : set.checkedNext cursor = .ok none) : Yields set cursor []
  | step {cursor later : Cursor} {number : Nat} {rest : List Nat}
      (found : set.checkedNext cursor = .ok (some (number, later))) (further : Yields set later rest) :
      Yields set cursor (number :: rest)

/-- The steps come to an end, and there is one listing. -/
theorem yields_iff {set : NumberSet} {cursor : Cursor} {listing : List Nat} :
    set.Yields cursor listing ↔ listing = set.listFrom cursor := by
  constructor
  · intro yields
    induction yields with
    | ends none =>
        rw [checkedNext_eq] at none
        rw [listFrom]
        split
        · rfl
        · rename_i found
          cases none.symm.trans (congrArg _ found)
    | step found further inductionHypothesis =>
        rw [checkedNext_eq] at found
        rw [listFrom, inductionHypothesis]
        split
        · rename_i none
          cases found.symm.trans (congrArg _ none)
        · rename_i same
          cases found.symm.trans (congrArg _ same)
          rfl
  · rintro rfl
    fun_induction listFrom set cursor with
    | case1 cursor none =>
        apply Yields.ends
        rw [checkedNext_eq, none]
    | case2 cursor number later found inductionHypothesis =>
        refine Yields.step ?_ inductionHypothesis
        rw [checkedNext_eq, found]

/-! ## Commands -/

/-- What a set is told or asked. -/
inductive Command where
  /-- To add a number, and tell whether it is new. -/
  | insert (number : Nat)
  | contains (number : Nat)

inductive Answer where
  | truth (value : Bool)
  /-- That the command was stopped. -/
  | refused (fault : Fault)

/-- The answers to commands one after another, and the state after them. -/
def respond {State : Type} (step : State -> Command -> Answer × State) : State -> List Command -> List Answer × State
  | state, [] => ([], state)
  | state, command :: rest =>
      let first := step state command
      let later := respond step first.2 rest
      (first.1 :: later.1, later.2)

/-- The answer of blocks, which stay as they are when the command is stopped. -/
def Command.onBlocks (set : NumberSet) : Command -> Answer × NumberSet
  | .insert number =>
      match set.checkedInsert number with
      | .ok (isNew, next) => (.truth isNew, next)
      | .error fault => (.refused fault, set)
  | .contains number =>
      match set.checkedContains number with
      | .ok member => (.truth member, set)
      | .error fault => (.refused fault, set)

/-- The answer of a finite set of numbers that fit into so many blocks. -/
def Command.onNumbers (blocks : Nat) (members : Finset Nat) : Command -> Answer × Finset Nat
  | .insert number =>
      if number < blockBits * blocks then (.truth (number ∉ members), Insert.insert number members)
      else (.refused (.block ⟨blocks, number / blockBits⟩), members)
  | .contains number => (.truth (number ∈ members), members)

/-- Whether blocks hold exactly the members of a finite set. -/
structure Represents (set : NumberSet) (blocks : Nat) (members : Finset Nat) : Prop where
  length_blocks : set.blocks.length = blocks
  contains_eq : ∀ number, set.contains number = decide (number ∈ members)

variable {set : NumberSet} {blocks : Nat} {members : Finset Nat}

theorem represents_empty (bits : Nat) : (empty bits).Represents ((bits + blockBits - 1) / blockBits) ∅ where
  length_blocks := length_blocks_empty bits
  contains_eq number := contains_empty bits number

/-- An insertion is stopped exactly beyond the last block. -/
theorem Represents.insert_eq_error (represents : set.Represents blocks members) {number : Nat}
    (beyond : ¬number < blockBits * blocks) : set.insert number = .error ⟨blocks, number / blockBits⟩ := by
  apply insert_eq_error_iff.mpr
  rw [represents.length_blocks]
  refine ⟨?_, rfl⟩
  apply Nat.not_lt.mp
  rwa [Nat.div_lt_iff_lt_mul (by decide), Nat.mul_comm]

/-- An insertion within the blocks adds the number to the members, and nothing else. -/
theorem Represents.insert (represents : set.Represents blocks members) {number : Nat}
    (within : number < blockBits * blocks) :
    ∃ next, set.insert number = .ok (decide (number ∉ members), next) ∧
      next.Represents blocks (Insert.insert number members) := by
  have admitted : number / blockBits < set.blocks.length := by
    rw [represents.length_blocks]
    exact Nat.div_lt_of_lt_mul within
  rcases exists_insert admitted with ⟨isNew, next, inserted⟩
  rcases contains_of_insert inserted with ⟨tells, adds⟩
  refine ⟨next, ?_, (length_blocks_of_insert inserted).trans represents.length_blocks, fun other => ?_⟩
  · rw [inserted, tells, represents.contains_eq, decide_not]
  · rw [adds, represents.contains_eq, Bool.eq_iff_iff]
    simp [or_comm]

/-- Blocks answer one command as the finite set that they hold, and hold the same set again. -/
theorem Represents.onBlocks (represents : set.Represents blocks members) (command : Command) :
    (command.onBlocks set).1 = (command.onNumbers blocks members).1 ∧
      (command.onBlocks set).2.Represents blocks (command.onNumbers blocks members).2 := by
  cases command with
  | insert number =>
      by_cases within : number < blockBits * blocks
      · rcases represents.insert within with ⟨next, inserted, after⟩
        simp only [Command.onBlocks, Command.onNumbers, checkedInsert_eq, inserted, if_pos within]
        exact ⟨rfl, after⟩
      · simp only [Command.onBlocks, Command.onNumbers, checkedInsert_eq, represents.insert_eq_error within,
          if_neg within]
        exact ⟨rfl, represents⟩
  | contains number =>
      simp only [Command.onBlocks, Command.onNumbers, checkedContains_eq, represents.contains_eq]
      exact ⟨trivial, represents⟩

/-- So they do for commands one after another. -/
theorem Represents.respond (represents : set.Represents blocks members) (commands : List Command) :
    (NumberSet.respond Command.onBlocks set commands).1 =
        (NumberSet.respond (Command.onNumbers blocks) members commands).1 ∧
      (NumberSet.respond Command.onBlocks set commands).2.Represents blocks
        (NumberSet.respond (Command.onNumbers blocks) members commands).2 := by
  induction commands generalizing set members with
  | nil => exact ⟨rfl, represents⟩
  | cons command rest inductionHypothesis =>
      rcases represents.onBlocks command with ⟨sameAnswer, after⟩
      rcases inductionHypothesis after with ⟨sameAnswers, afterAll⟩
      exact ⟨congrArg₂ _ sameAnswer sameAnswers, afterAll⟩

/-- The members are the numbers that were inserted, of those that fit. -/
theorem mem_respond_onNumbers (commands : List Command) (number : Nat) :
    number ∈ (respond (Command.onNumbers blocks) members commands).2 ↔
      number ∈ members ∨ number < blockBits * blocks ∧ Command.insert number ∈ commands := by
  induction commands generalizing members with
  | nil => simp [respond]
  | cons command rest inductionHypothesis =>
      rw [respond, inductionHypothesis, List.mem_cons]
      cases command with
      | insert other =>
          by_cases within : other < blockBits * blocks
          · simp only [Command.onNumbers, if_pos within, Finset.mem_insert, Command.insert.injEq]
            constructor
            · rintro ((rfl | before) | ⟨fits, later⟩)
              · exact Or.inr ⟨within, Or.inl rfl⟩
              · exact Or.inl before
              · exact Or.inr ⟨fits, Or.inr later⟩
            · rintro (before | ⟨fits, rfl | later⟩)
              · exact Or.inl (Or.inr before)
              · exact Or.inl (Or.inl rfl)
              · exact Or.inr ⟨fits, later⟩
          · simp only [Command.onNumbers, if_neg within, Command.insert.injEq]
            have different (fits : number < blockBits * blocks) : number ≠ other := by
              rintro rfl
              exact within fits
            exact or_congr_right (and_congr_right fun fits => (or_iff_right (different fits)).symm)
      | contains other => simp [Command.onNumbers]

/-! ## Refinement -/

/-- On a fresh set of any size, each of a sequence of commands is answered as by a finite set of the
numbers inserted so far: an insertion that fits tells whether the number is new, and one that does not
is refused.  The cursor then yields the numbers inserted in ascending order, and comes to an end.  No
shift and no difference stops any of this. -/
theorem respond_eq_respond_finset (bits : Nat) (commands : List Command) :
    let blocks := (bits + blockBits - 1) / blockBits
    let onBlocks := respond Command.onBlocks (empty bits) commands
    let onNumbers := respond (Command.onNumbers blocks) ∅ commands
    onBlocks.1 = onNumbers.1 ∧
    onBlocks.2.blocks.length = blocks ∧
    (∀ number, onBlocks.2.checkedContains number = .ok (decide (number ∈ onNumbers.2))) ∧
    (∀ number, number ∈ onNumbers.2 ↔ number < blockBits * blocks ∧ Command.insert number ∈ commands) ∧
    (∀ listing, onBlocks.2.Yields (.start 0) listing ↔ listing = onBlocks.2.toList) ∧
    onBlocks.2.toList.Pairwise (· < ·) ∧
    ∀ number, number ∈ onBlocks.2.toList ↔ number ∈ onNumbers.2 := by
  intro blocks onBlocks onNumbers
  rcases (represents_empty bits).respond commands with ⟨sameAnswers, represents⟩
  refine ⟨sameAnswers, represents.length_blocks, fun number => ?_, fun number => ?_, fun listing => yields_iff,
    pairwise_toList _, fun number => ?_⟩
  · rw [checkedContains_eq, represents.contains_eq]
  · exact (mem_respond_onNumbers commands number).trans (or_iff_right (Finset.notMem_empty number))
  · rw [mem_toList, represents.contains_eq, decide_eq_true_eq]

/-- Numbers at the ends of blocks, and one beyond the last. -/
example : (respond Command.onBlocks (empty 130) [.insert 191, .insert 64, .insert 63, .insert 192]).2.toList =
    [63, 64, 191] := by
  decide +kernel

end NumberSet
end PredictiveParsing
