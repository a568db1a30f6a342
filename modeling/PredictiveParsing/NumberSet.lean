namespace PredictiveParsing

/-!
# Sets of small numbers

A set of numbers below a bound, one bit to a number in blocks of 64.  The bound
is a whole number of blocks, so a set admits the numbers up to the end of its
last block, and no others.

The numbers are listed by a cursor, which stands before one place of one block.
It looks for the first bit from this place on, by masking the block and counting the
zeros at its end, and goes to the next block when there is none.  A cursor may
stand behind the last place of a block, from where nothing is masked.

Main statements: an insertion succeeds exactly for the numbers that the set
admits, and then it adds this number, changes nothing else and tells whether the
number is new; a step of the cursor goes to the next number of the set, and so the
list holds exactly the numbers in the set, in ascending order.
-/

def NumberSet.blockBits : Nat := 64

/-- A set of numbers below 64 for each of its blocks. -/
structure NumberSet where
  /-- The blocks, where bit `b` of block `i` stands for the number `64 * i + b`. -/
  blocks : List (BitVec NumberSet.blockBits)
deriving DecidableEq

namespace NumberSet

/-- A number that lies beyond the last block of a set. -/
structure BeyondLastBlock where
  blocks : Nat
  /-- The block in which the number would lie. -/
  index : Nat
deriving DecidableEq

def BeyondLastBlock.message (refusal : BeyondLastBlock) : String :=
  "index out of bounds: the len is " ++ toString refusal.blocks ++ " but the index is " ++
    toString refusal.index

/-- The empty set with room for the given number of bits, rounded up to whole blocks.  The
sum has no bound here, where one of 64 bits would overflow for the 63 greatest sizes: these
are left out.  No grammar has as many rules. -/
def empty (bits : Nat) : NumberSet :=
  ⟨List.replicate ((bits + blockBits - 1) / blockBits) 0⟩

/-- The place of a number in its block. -/
def place (number : Nat) : Fin blockBits :=
  ⟨number % blockBits, Nat.mod_lt number (by decide)⟩

/-- The block with a single bit. -/
def single (place : Fin blockBits) : BitVec blockBits :=
  BitVec.twoPow blockBits place.val

def contains (set : NumberSet) (number : Nat) : Bool :=
  match set.blocks[number / blockBits]? with
  | some block => block &&& single (place number) != 0
  | none => false

/-- The set with a number added, and whether the number is new. -/
def insert (set : NumberSet) (number : Nat) : Except BeyondLastBlock (Bool × NumberSet) :=
  match set.blocks[number / blockBits]? with
  | some block =>
      let mask := single (place number)
      .ok (block &&& mask == 0, ⟨set.blocks.set (number / blockBits) (block ||| mask)⟩)
  | none => .error ⟨set.blocks.length, number / blockBits⟩

/-- Where the listing of a set stands. -/
structure Cursor where
  /-- The block. -/
  index : Nat
  /-- The place in the block, or the number of its bits behind the last place. -/
  bit : Nat
  bit_le : bit ≤ blockBits

/-- Before the first place of a block. -/
def Cursor.start (index : Nat) : Cursor :=
  ⟨index, 0, Nat.zero_le _⟩

/-- The bits of a block from a place on. -/
def onwards (block : BitVec blockBits) (place : Fin blockBits) : BitVec blockBits :=
  block &&& ~~~(single place - 1)

/-- The next number from the cursor on, with the cursor behind it. -/
def next (set : NumberSet) (cursor : Cursor) : Option (Nat × Cursor) :=
  if inside : cursor.index < set.blocks.length then
    if within : cursor.bit < blockBits then
      let bit := (onwards set.blocks[cursor.index] ⟨cursor.bit, within⟩).ctz.toNat
      if found : bit < blockBits then
        some (cursor.index * blockBits + bit, ⟨cursor.index, bit + 1, found⟩)
      else set.next (.start (cursor.index + 1))
    else set.next (.start (cursor.index + 1))
  else none
termination_by set.blocks.length - cursor.index
decreasing_by
  all_goals exact Nat.sub_lt_sub_left inside (Nat.lt_succ_self _)

/-! ## Bits of blocks -/

@[simp] theorem getLsbD_single (place : Fin blockBits) (bit : Nat) :
    (single place).getLsbD bit = decide (place.val = bit) := by
  rw [single, BitVec.getLsbD_twoPow, decide_eq_true place.isLt, Bool.true_and]

theorem toNat_single (place : Fin blockBits) : (single place).toNat = 1 <<< place.val := by
  rw [single, BitVec.toNat_twoPow, Nat.mod_eq_of_lt (Nat.pow_lt_pow_right (by decide) place.isLt), Nat.one_shiftLeft]

/-- There is no borrow when one is taken from a single bit. -/
theorem one_le_single (place : Fin blockBits) : 1 ≤ single place := by
  rw [BitVec.le_def, toNat_single, Nat.one_shiftLeft]
  exact Nat.one_le_two_pow

theorem and_single_ne_zero (block : BitVec blockBits) (place : Fin blockBits) :
    (block &&& single place != 0) = block.getLsbD place.val := by
  rw [single, BitVec.and_twoPow]
  cases block.getLsbD place.val with
  | false => rfl
  | true =>
      rw [if_pos rfl, bne_iff_ne]
      intro zero
      have positive := one_le_single place
      rw [single, zero] at positive
      cases positive

@[simp] theorem getLsbD_onwards (block : BitVec blockBits) (place : Fin blockBits) (bit : Nat) :
    (onwards block place).getLsbD bit = (block.getLsbD bit && decide (place.val ≤ bit)) := by
  have below : (single place - 1).getLsbD bit = decide (bit < place.val) := by
    rw [← BitVec.testBit_toNat, BitVec.toNat_sub_of_le (one_le_single place), toNat_single,
      Nat.one_shiftLeft]
    exact Nat.testBit_two_pow_sub_one place.val bit
  rw [onwards, BitVec.getLsbD_and, BitVec.getLsbD_not, below]
  cases stands : block.getLsbD bit with
  | false => rfl
  | true =>
      rw [decide_eq_true (BitVec.lt_of_getLsbD stands), Bool.true_and, Bool.true_and, ← decide_not]
      exact decide_eq_decide.mpr Nat.not_lt

/-- The zeros at the end of a block are fewer than its bits if there is a bit. -/
theorem toNat_ctz_lt_iff {block : BitVec blockBits} : block.ctz.toNat < blockBits ↔ block ≠ 0 :=
  BitVec.lt_def.symm.trans BitVec.ctz_lt_iff_ne_zero

/-- No bit from the place on stands before the first one. -/
theorem getLsbD_of_lt_ctz_onwards {block : BitVec blockBits} {place bit : Nat} {within : place < blockBits}
    (onPlace : place ≤ bit) (before : bit < (onwards block ⟨place, within⟩).ctz.toNat) :
    block.getLsbD bit = false := by
  have unset := BitVec.getLsbD_false_of_lt_ctz before
  rwa [getLsbD_onwards, decide_eq_true onPlace, Bool.and_true] at unset

/-- The first bit from the place on, if there is one. -/
theorem getLsbD_ctz_onwards {block : BitVec blockBits} {place : Fin blockBits}
    (found : (onwards block place).ctz.toNat < blockBits) :
    block.getLsbD (onwards block place).ctz.toNat = true ∧ place.val ≤ (onwards block place).ctz.toNat := by
  have bit := BitVec.getLsbD_true_ctz_of_ne_zero (toNat_ctz_lt_iff.mp found)
  rwa [getLsbD_onwards, Bool.and_eq_true, decide_eq_true_eq] at bit

/-! ## The numbers in a set -/

theorem contains_eq {set : NumberSet} {number : Nat} {block : BitVec blockBits}
    (found : set.blocks[number / blockBits]? = some block) :
    set.contains number = block.getLsbD (number % blockBits) := by
  rw [contains, found]
  exact and_single_ne_zero block (place number)

theorem contains_empty (bits number : Nat) : (empty bits).contains number = false := by
  cases found : (empty bits).blocks[number / blockBits]? with
  | none => rw [contains, found]
  | some block =>
      rw [contains_eq found, List.eq_of_mem_replicate (List.mem_of_getElem? found)]
      exact BitVec.getLsbD_zero

theorem insert_eq_error_iff {set : NumberSet} {number : Nat} {refusal : BeyondLastBlock} :
    set.insert number = .error refusal ↔
      set.blocks.length ≤ number / blockBits ∧
        refusal = ⟨set.blocks.length, number / blockBits⟩ := by
  unfold insert
  split
  · rename_i block found
    have inside := (List.getElem?_eq_some_iff.mp found).1
    constructor
    · intro impossible
      cases impossible
    · intro beyond
      omega
  · rename_i missing
    rw [Except.error.injEq, eq_comm]
    constructor
    · intro same
      exact ⟨List.getElem?_eq_none_iff.mp missing, same⟩
    · intro beyond
      exact beyond.2

theorem contains_of_insert {set next : NumberSet} {number : Nat} {isNew : Bool}
    (inserted : set.insert number = .ok (isNew, next)) :
    isNew = !set.contains number ∧
      forall other, next.contains other = (set.contains other || other == number) := by
  unfold insert at inserted
  split at inserted
  · rename_i block found
    have inside := (List.getElem?_eq_some_iff.mp found).1
    cases inserted
    constructor
    · rw [contains, found]
      exact (Bool.not_not _).symm
    · intro other
      by_cases sameBlock : number / blockBits = other / blockBits
      · have added : (set.blocks.set (number / blockBits) (block ||| single (place number)))[other / blockBits]? =
            some (block ||| single (place number)) := by
          rw [← sameBlock, List.getElem?_set_self inside]
        have sameNumber : number % blockBits = other % blockBits ↔ other = number := by
          constructor
          · intro sameBit
            rw [← Nat.div_add_mod other blockBits, ← Nat.div_add_mod number blockBits, sameBlock, sameBit]
          · intro same
            rw [same]
        rw [contains_eq added, contains_eq (sameBlock ▸ found), BitVec.getLsbD_or, getLsbD_single]
        exact congrArg _ (decide_eq_decide.mpr sameNumber)
      · have different : (other == number) = false := by
          apply beq_eq_false_iff_ne.mpr
          intro same
          exact sameBlock (congrArg (· / blockBits) same.symm)
        rw [contains, List.getElem?_set_ne sameBlock, different, Bool.or_false]
        rfl
  · cases inserted

theorem contains_before_insert {set next : NumberSet} {number : Nat} {isNew : Bool}
    (inserted : set.insert number = .ok (isNew, next)) : set.contains number = !isNew := by
  rw [(contains_of_insert inserted).1, Bool.not_not]

theorem length_blocks_of_insert {set next : NumberSet} {number : Nat} {isNew : Bool}
    (inserted : set.insert number = .ok (isNew, next)) : next.blocks.length = set.blocks.length := by
  unfold insert at inserted
  split at inserted
  · cases inserted
    exact List.length_set
  · cases inserted

theorem exists_insert {set : NumberSet} {number : Nat} (admitted : number / blockBits < set.blocks.length) :
    ∃ isNew next, set.insert number = .ok (isNew, next) := by
  cases inserted : set.insert number with
  | error refusal =>
      have beyond := (insert_eq_error_iff.mp inserted).1
      omega
  | ok result => exact ⟨result.1, result.2, rfl⟩

theorem length_blocks_empty (bits : Nat) : (empty bits).blocks.length = (bits + blockBits - 1) / blockBits :=
  List.length_replicate

/-- Every number below its size has a block in the empty set. -/
theorem div_lt_length_blocks_empty {bits number : Nat} (below : number < bits) :
    number / blockBits < (empty bits).blocks.length := by
  rw [length_blocks_empty, blockBits]
  omega

theorem lt_of_contains {set : NumberSet} {number : Nat}
    (member : set.contains number = true) : number < set.blocks.length * blockBits := by
  unfold contains at member
  split at member
  · rename_i block found
    have inside := (List.getElem?_eq_some_iff.mp found).1
    exact (Nat.div_lt_iff_lt_mul (by decide)).mp inside
  · cases member

/-! ## Steps of the cursor -/

/-- The number before which a cursor stands. -/
def Cursor.position (cursor : Cursor) : Nat :=
  cursor.index * blockBits + cursor.bit

theorem Cursor.position_start (index : Nat) : (start index).position = index * blockBits :=
  Nat.add_zero _

/-- The next block begins at or behind the cursor. -/
theorem Cursor.position_le (cursor : Cursor) : cursor.position ≤ (start (cursor.index + 1)).position := by
  rw [position_start, Nat.succ_mul]
  exact Nat.add_le_add_left cursor.bit_le _

/-- Whether the set holds no number from the cursor on that is below the bound. -/
def HasNoneBelow (set : NumberSet) (cursor : Cursor) (bound : Nat) : Prop :=
  ∀ number, cursor.position ≤ number -> number < bound -> set.contains number = false

variable {set : NumberSet} {cursor : Cursor}

theorem HasNoneBelow.trans {middle : Cursor} {bound : Nat} (first : set.HasNoneBelow cursor middle.position)
    (second : set.HasNoneBelow middle bound) : set.HasNoneBelow cursor bound := by
  intro number behind below
  rcases Nat.lt_or_ge number middle.position with before | beyond
  · exact first number behind before
  · exact second number beyond below

/-- Bits that are not set in a block are numbers that are not in the set. -/
theorem hasNoneBelow_of_getLsbD (inside : cursor.index < set.blocks.length) {upTo : Nat} (inBlock : upTo ≤ blockBits)
    (unset : ∀ bit, cursor.bit ≤ bit -> bit < upTo -> set.blocks[cursor.index].getLsbD bit = false) :
    set.HasNoneBelow cursor (cursor.index * blockBits + upTo) := by
  intro number behind before
  rw [Cursor.position] at behind
  have sameBlock : number / blockBits = cursor.index := by
    apply Nat.div_eq_of_lt_le
    · exact Nat.le_trans (Nat.le_add_right _ _) behind
    · rw [Nat.succ_mul]
      exact Nat.lt_of_lt_of_le before (Nat.add_le_add_left inBlock _)
  have splits := Nat.div_add_mod' number blockBits
  rw [sameBlock] at splits
  have found : set.blocks[number / blockBits]? = some set.blocks[cursor.index] := by
    rw [sameBlock, List.getElem?_eq_getElem inside]
  rw [contains_eq found]
  exact unset _ (by omega) (by omega)

/-- A block that is left for the next one has no more numbers. -/
theorem hasNoneBelow_start (inside : cursor.index < set.blocks.length)
    (unset : ∀ bit, cursor.bit ≤ bit -> bit < blockBits -> set.blocks[cursor.index].getLsbD bit = false) :
    set.HasNoneBelow cursor (Cursor.start (cursor.index + 1)).position := by
  rw [Cursor.position_start, Nat.succ_mul]
  exact hasNoneBelow_of_getLsbD inside (Nat.le_refl _) unset

theorem hasNoneBelow_of_noBit (inside : cursor.index < set.blocks.length) (within : cursor.bit < blockBits)
    (noBit : ¬(onwards set.blocks[cursor.index] ⟨cursor.bit, within⟩).ctz.toNat < blockBits) :
    set.HasNoneBelow cursor (Cursor.start (cursor.index + 1)).position :=
  hasNoneBelow_start inside fun _ onPlace inBlock =>
    getLsbD_of_lt_ctz_onwards onPlace (Nat.lt_of_lt_of_le inBlock (Nat.not_lt.mp noBit))

theorem hasNoneBelow_of_full (inside : cursor.index < set.blocks.length) (full : ¬cursor.bit < blockBits) :
    set.HasNoneBelow cursor (Cursor.start (cursor.index + 1)).position :=
  hasNoneBelow_start inside fun _ onPlace inBlock => absurd (Nat.lt_of_le_of_lt onPlace inBlock) full

/-- A step yields the first number from the cursor on, and leaves the cursor right behind it. -/
theorem spec_of_next_eq_some {later : Cursor} {number : Nat} (found : set.next cursor = some (number, later)) :
    set.contains number = true ∧ cursor.position ≤ number ∧ later.position = number + 1 ∧
      set.HasNoneBelow cursor number := by
  fun_induction next set cursor with
  | case1 cursor inside within bit isBit =>
      cases found
      rcases getLsbD_ctz_onwards isBit with ⟨isSet, onPlace⟩
      refine ⟨?_, Nat.add_le_add_left onPlace _, rfl, ?_⟩
      · have index : (cursor.index * blockBits + bit) / blockBits = cursor.index := by
          rw [Nat.mul_comm, Nat.mul_add_div (by decide), Nat.div_eq_of_lt isBit, Nat.add_zero]
        have block : set.blocks[(cursor.index * blockBits + bit) / blockBits]? = some set.blocks[cursor.index] := by
          rw [index, List.getElem?_eq_getElem inside]
        rw [contains_eq block, Nat.mul_comm, Nat.mul_add_mod, Nat.mod_eq_of_lt isBit]
        exact isSet
      · apply hasNoneBelow_of_getLsbD inside (Nat.le_of_lt isBit)
        intro other onPlace before
        exact getLsbD_of_lt_ctz_onwards onPlace before
  | case2 cursor inside within bit noBit inductionHypothesis =>
      rcases inductionHypothesis found with ⟨isSet, behind, right, none⟩
      exact ⟨isSet, Nat.le_trans cursor.position_le behind, right,
        (hasNoneBelow_of_noBit inside within noBit).trans none⟩
  | case3 cursor inside full inductionHypothesis =>
      rcases inductionHypothesis found with ⟨isSet, behind, right, none⟩
      exact ⟨isSet, Nat.le_trans cursor.position_le behind, right, (hasNoneBelow_of_full inside full).trans none⟩
  | case4 cursor outside => cases found

/-- There is no step from where no number is left. -/
theorem hasNoneBelow_of_next_eq_none (ends : set.next cursor = none) (bound : Nat) :
    set.HasNoneBelow cursor bound := by
  fun_induction next set cursor with
  | case1 cursor inside within bit isBit => cases ends
  | case2 cursor inside within bit noBit inductionHypothesis =>
      exact (hasNoneBelow_of_noBit inside within noBit).trans (inductionHypothesis ends)
  | case3 cursor inside full inductionHypothesis =>
      exact (hasNoneBelow_of_full inside full).trans (inductionHypothesis ends)
  | case4 cursor outside =>
      intro number behind _
      cases member : set.contains number with
      | false => rfl
      | true =>
          have beyond : set.blocks.length * blockBits ≤ number :=
            calc set.blocks.length * blockBits
              _ ≤ cursor.index * blockBits := Nat.mul_le_mul_right _ (Nat.not_lt.mp outside)
              _ ≤ cursor.position := Nat.le_add_right _ _
              _ ≤ number := behind
          exact absurd (lt_of_contains member) (Nat.not_lt.mpr beyond)

/-! ## Lists of numbers -/

/-- The numbers from the cursor on. -/
def listFrom (set : NumberSet) (cursor : Cursor) : List Nat :=
  match _found : set.next cursor with
  | none => []
  | some (number, later) => number :: set.listFrom later
termination_by set.blocks.length * blockBits - cursor.position
decreasing_by
  rcases spec_of_next_eq_some _found with ⟨isSet, behind, right, _⟩
  rw [right]
  exact Nat.sub_lt_sub_left (Nat.lt_of_le_of_lt behind (lt_of_contains isSet)) (Nat.lt_succ_of_le behind)

/-- The numbers in the set in ascending order. -/
def toList (set : NumberSet) : List Nat :=
  set.listFrom (.start 0)

theorem mem_listFrom {number : Nat} :
    number ∈ set.listFrom cursor ↔ cursor.position ≤ number ∧ set.contains number = true := by
  fun_induction listFrom set cursor with
  | case1 cursor ends =>
      have none := hasNoneBelow_of_next_eq_none ends (number + 1) number
      constructor
      · intro member
        cases member
      · rintro ⟨behind, isSet⟩
        cases isSet.symm.trans (none behind (Nat.lt_succ_self _))
  | case2 cursor first later found inductionHypothesis =>
      rcases spec_of_next_eq_some found with ⟨isSet, behind, right, none⟩
      rw [List.mem_cons, inductionHypothesis, right]
      constructor
      · rintro (rfl | ⟨beyond, member⟩)
        · exact ⟨behind, isSet⟩
        · exact ⟨Nat.le_trans behind (Nat.le_of_succ_le beyond), member⟩
      · rintro ⟨fromCursor, member⟩
        rcases Nat.lt_trichotomy number first with before | same | beyond
        · cases member.symm.trans (none number fromCursor before)
        · exact Or.inl same
        · exact Or.inr ⟨beyond, member⟩

theorem mem_toList {set : NumberSet} {number : Nat} :
    number ∈ set.toList ↔ set.contains number = true := by
  rw [toList, mem_listFrom, Cursor.position_start, Nat.zero_mul]
  exact and_iff_right (Nat.zero_le _)

theorem pairwise_listFrom : (set.listFrom cursor).Pairwise (· < ·) := by
  fun_induction listFrom set cursor with
  | case1 cursor ends => exact List.Pairwise.nil
  | case2 cursor first later found inductionHypothesis =>
      refine List.pairwise_cons.mpr ⟨fun number member => ?_, inductionHypothesis⟩
      have behind := (mem_listFrom.mp member).1
      rw [(spec_of_next_eq_some found).2.2.1] at behind
      exact behind

theorem pairwise_toList (set : NumberSet) : set.toList.Pairwise (· < ·) :=
  pairwise_listFrom

/-- The numbers between braces, in ascending order. -/
def render (set : NumberSet) : String :=
  "\x7b" ++ ", ".intercalate (set.toList.map toString) ++ "\x7d"

end NumberSet
end PredictiveParsing
