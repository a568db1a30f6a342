import PredictiveParsing.Proofs.Lookahead
import PredictiveParsing.Proofs.NullableMarks

namespace PredictiveParsing

/-!
# Rules entered on the way

The beginnings of a pattern can also be resolved with one set of marks, which is handed on
from each part to the next.  A reference goes on in the right-hand side of its rule if the
number of the rule has no mark yet, and marks it; otherwise it contributes nothing.

The size of what is left to resolve does not shrink at a reference, where another pattern
takes over, and the marks do not change where a pattern falls into its parts.  One of the
two shrinks all the same, if rules without a mark are counted first.  For the parts after the
first this takes into account what the parts before them have entered: the marks only grow,
since they are the marks of the beginning with those of the rules entered, each of which had
no mark before.

Main statement: from any marks the resolution ends with one outcome, which is that of the walk
through the unmarked rules; it enters no rule twice, and that of a rule never its own.
-/

/-! ## Unmarked rules -/

namespace Grammar

open NumberSet (BeyondLastBlock blockBits)

/-- The productions whose numbers have no mark. -/
def unmarked (grammar : Grammar) (marks : NumberSet) : List Production :=
  grammar.productions.filter fun production => production.name ∉ grammar.marked marks

variable {grammar : Grammar} {marks : NumberSet}

theorem lt_size_of_position? {rule : String} {number : Nat}
    (stands : grammar.position? rule = some number) : number < grammar.size := by
  rcases exists_getElem?_of_position? stands with ⟨production, found, _⟩
  have below := (List.getElem?_eq_some_iff.mp found).1
  rwa [productions, List.length_map] at below

theorem mem_unmarked {number : Nat} {production : Production}
    (found : grammar.productions[number]? = some production) :
    production ∈ grammar.unmarked marks ↔ marks.contains number = false := by
  rw [unmarked, List.mem_filter, decide_eq_true_eq, mem_marked found, Bool.not_eq_true]
  exact and_iff_right (List.mem_of_getElem? found)

theorem unmarked_subset : grammar.unmarked marks ⊆ grammar.productions :=
  List.filter_subset_self _

/-- Among the unmarked productions a rule is found by its name. -/
theorem find?_unmarked {number : Nat} {production : Production}
    (found : grammar.productions[number]? = some production) (fresh : marks.contains number = false) :
    (grammar.unmarked marks).find? (·.name == production.name) = some production := by
  have member := (mem_unmarked found).mpr fresh
  cases search : (grammar.unmarked marks).find? (·.name == production.name) with
  | none => exact absurd (beq_self_eq_true _) (List.find?_eq_none.mp search production member)
  | some other =>
      have sameName : other.name = production.name := by simpa using List.find?_some search
      have declared := unmarked_subset (List.mem_of_find?_eq_some search)
      rw [production_eq_of_name declared (List.mem_of_getElem? found) sameName]

theorem find?_unmarked_eq_none {rule : String}
    (marked : ∀ number, grammar.position? rule = some number -> marks.contains number = true) :
    (grammar.unmarked marks).find? (·.name == rule) = none := by
  apply List.find?_eq_none.mpr
  intro production member same
  rcases List.getElem?_of_mem (unmarked_subset member) with ⟨number, found⟩
  have isMarked := marked number (beq_iff_eq.mp same ▸ position?_of_getElem? found)
  rw [(mem_unmarked found).mp member] at isMarked
  cases isMarked

/-- The same marks leave the same rules. -/
theorem unmarked_congr {other : NumberSet} (same : ∀ number, other.contains number = marks.contains number) :
    grammar.unmarked other = grammar.unmarked marks := by
  apply List.filter_congr
  intro production declared
  rcases List.getElem?_of_mem declared with ⟨number, found⟩
  rw [decide_eq_decide, mem_marked found, mem_marked found, same]

theorem unmarked_empty (bits : Nat) : grammar.unmarked (.empty bits) = grammar.productions := by
  apply List.filter_eq_self.mpr
  intro production declared
  rcases List.getElem?_of_mem declared with ⟨number, found⟩
  rw [decide_eq_true_eq, mem_marked found, NumberSet.contains_empty]
  exact Bool.false_ne_true

/-- One more mark leaves one rule less. -/
theorem unmarked_of_insert {more : NumberSet} {number : Nat} {production : Production} {isNew : Bool}
    (found : grammar.productions[number]? = some production) (inserted : marks.insert number = .ok (isNew, more)) :
    grammar.unmarked more = (grammar.unmarked marks).eraseP (·.name == production.name) := by
  have distinct : ((grammar.unmarked marks).map (·.name)).Nodup :=
    (nodup_names_productions grammar).sublist (List.filter_sublist.map _)
  rw [eraseP_eq_filter _ distinct, unmarked, unmarked, List.filter_filter]
  apply List.filter_congr
  intro other declared
  rcases List.getElem?_of_mem declared with ⟨place, stands⟩
  have sameRule : other.name = production.name ↔ place = number := by
    constructor
    · intro sameName
      have placed := position?_of_getElem? stands
      rw [sameName, position?_of_getElem? found] at placed
      exact (Option.some.inj placed).symm
    · rintro rfl
      rw [Option.some.inj (stands.symm.trans found)]
  have marked := (NumberSet.contains_of_insert inserted).2 place
  rw [Bool.eq_iff_iff, decide_eq_true_eq, mem_marked stands, marked, Bool.and_eq_true, bne_iff_ne, decide_eq_true_eq,
    mem_marked stands, Ne, sameRule, Bool.or_eq_true, beq_iff_eq, not_or, and_comm]

theorem length_unmarked_lt {more : NumberSet} {number : Nat} {production : Production}
    (found : grammar.productions[number]? = some production) (inserted : marks.insert number = .ok (true, more)) :
    (grammar.unmarked more).length < (grammar.unmarked marks).length := by
  have fresh : marks.contains number = false := NumberSet.contains_before_insert inserted
  have member := (mem_unmarked found).mpr fresh
  have erased : ((grammar.unmarked marks).eraseP (·.name == production.name)).length =
      (grammar.unmarked marks).length - 1 :=
    List.length_eraseP_of_mem member (beq_self_eq_true _)
  rw [unmarked_of_insert found inserted, erased]
  exact Nat.sub_lt (List.length_pos_of_mem member) Nat.one_pos

/-! ## Growing marks -/

/-- Marks after rules were entered, each of which had no mark before. -/
structure Grows (grammar : Grammar) (before : NumberSet) (entered : List Nat) (after : NumberSet) : Prop where
  /-- There are as many blocks as before. -/
  length_blocks : after.blocks.length = before.blocks.length
  /-- The marks before are kept, and those of the rules entered are added. -/
  contains_iff : ∀ number, after.contains number = true ↔ before.contains number = true ∨ number ∈ entered
  /-- No rule is entered twice. -/
  nodup : entered.Nodup
  /-- No rule is entered that has a mark before. -/
  fresh : ∀ number ∈ entered, before.contains number = false
  /-- What is entered are rules. -/
  declared : ∀ number ∈ entered, number < grammar.size

namespace Grows

theorem refl (marks : NumberSet) : grammar.Grows marks [] marks where
  length_blocks := rfl
  contains_iff _ := (or_iff_left List.not_mem_nil).symm
  nodup := List.nodup_nil
  fresh _ member := absurd member List.not_mem_nil
  declared _ member := absurd member List.not_mem_nil

theorem trans {middle last : NumberSet} {first second : List Nat} (before : grammar.Grows marks first middle)
    (after : grammar.Grows middle second last) : grammar.Grows marks (first ++ second) last where
  length_blocks := after.length_blocks.trans before.length_blocks
  contains_iff number := by
    rw [after.contains_iff, before.contains_iff, List.mem_append, or_assoc]
  nodup := by
    refine List.nodup_append.mpr ⟨before.nodup, after.nodup, ?_⟩
    rintro number early _ late rfl
    have marked := (before.contains_iff number).mpr (Or.inr early)
    rw [after.fresh number late] at marked
    cases marked
  fresh number member := by
    rcases List.mem_append.mp member with early | late
    · exact before.fresh number early
    · apply Bool.eq_false_iff.mpr
      intro marked
      have kept := (before.contains_iff number).mpr (Or.inl marked)
      rw [after.fresh number late] at kept
      cases kept
  declared number member := by
    rcases List.mem_append.mp member with early | late
    · exact before.declared number early
    · exact after.declared number late

/-- A new mark is that of the one rule entered. -/
theorem of_insert {more : NumberSet} {number : Nat} (declared : number < grammar.size)
    (inserted : marks.insert number = .ok (true, more)) : grammar.Grows marks [number] more where
  length_blocks := NumberSet.length_blocks_of_insert inserted
  contains_iff other := by
    rw [(NumberSet.contains_of_insert inserted).2, Bool.or_eq_true, beq_iff_eq, List.mem_singleton]
  nodup := List.nodup_singleton number
  fresh other member := by
    rw [List.mem_singleton.mp member]
    exact NumberSet.contains_before_insert inserted
  declared other member := List.mem_singleton.mp member ▸ declared

/-- A mark that was there before adds nothing. -/
theorem of_insert_again {same : NumberSet} {number : Nat} (inserted : marks.insert number = .ok (false, same)) :
    grammar.Grows marks [] same where
  length_blocks := NumberSet.length_blocks_of_insert inserted
  contains_iff other := by
    have marked : marks.contains number = true := NumberSet.contains_before_insert inserted
    rw [(NumberSet.contains_of_insert inserted).2, Bool.or_eq_true, beq_iff_eq, or_iff_left List.not_mem_nil]
    exact or_iff_left_of_imp fun isNumber => isNumber ▸ marked
  nodup := List.nodup_nil
  fresh _ member := absurd member List.not_mem_nil
  declared _ member := absurd member List.not_mem_nil

theorem length_unmarked_le {after : NumberSet} {entered : List Nat} (grows : grammar.Grows marks entered after) :
    (grammar.unmarked after).length ≤ (grammar.unmarked marks).length := by
  have kept : grammar.marked marks ⊆ grammar.marked after := by
    intro rule member
    rcases List.mem_filter.mp member with ⟨isRule, isMarked⟩
    refine List.mem_filter.mpr ⟨isRule, ?_⟩
    cases stands : grammar.position? rule with
    | none =>
        rw [stands] at isMarked
        cases isMarked
    | some number =>
        rw [stands] at isMarked
        exact (grows.contains_iff number).mpr (Or.inl isMarked)
  apply List.Sublist.length_le
  apply List.monotone_filter_right
  intro production isUnmarked
  rw [decide_eq_true_eq] at isUnmarked ⊢
  exact fun member => isUnmarked (kept member)

end Grows
end Grammar

/-! ## Resolution with marks -/

theorem Pattern.sizeOfAll_lt_cons (pattern : Pattern) (rest : List Pattern) :
    sizeOfAll rest < sizeOfAll (pattern :: rest) := by
  rw [sizeOfAll_cons]
  omega

namespace Analysis

/-- What is resolved next. -/
inductive Pending where
  | pattern (pattern : Pattern)
  /-- The factors of a sequence that are left. -/
  | factors (factors : List Pattern)
  /-- The alternatives of a choice that are left. -/
  | alternatives (alternatives : List Pattern)

def Pending.size : Pending -> Nat
  | .pattern whole => whole.size
  | .factors parts | .alternatives parts => Pattern.sizeOfAll parts

/-- What is asked for. -/
structure Query where
  /-- The rule in whose right-hand side the patterns stand. -/
  owner : String
  /-- The marks so far. -/
  marks : NumberSet
  pending : Pending

/-- What is left when a resolution has ended. -/
structure Outcome where
  /-- The terminals that were found. -/
  found : Lookahead
  /-- The numbers of the rules whose right-hand sides were entered, in this order. -/
  entered : List Nat
  marks : NumberSet

namespace Outcome

/-- Nothing is found, and nothing is entered. -/
def still (marks : NumberSet) : Outcome :=
  ⟨.empty, [], marks⟩

def mapFound (change : Lookahead -> Lookahead) (outcome : Outcome) : Outcome :=
  ⟨change outcome.found, outcome.entered, outcome.marks⟩

/-- The outcome of a part, and of the parts after it with the marks that it leaves. -/
def andThen (first later : Outcome) : Outcome :=
  ⟨first.found.merge later.found, first.entered ++ later.entered, later.marks⟩

end Outcome

/-- How a resolution ends. -/
inductive EndsWith (analysis : Analysis) : Query -> Outcome -> Prop where
  | terminal {owner : String} {marks : NumberSet} {leaf : Terminal} :
      EndsWith analysis ⟨owner, marks, .pattern (.terminal leaf)⟩
        ⟨.single ⟨leaf, owner, .terminal leaf⟩, [], marks⟩
  | undeclared {owner rule : String} {marks : NumberSet} (nowhere : analysis.grammar.position? rule = none) :
      EndsWith analysis ⟨owner, marks, .pattern (.reference rule)⟩ (.still marks)
  | again {owner rule : String} {marks same : NumberSet} {number : Nat}
      (stands : analysis.grammar.position? rule = some number) (inserted : marks.insert number = .ok (false, same)) :
      EndsWith analysis ⟨owner, marks, .pattern (.reference rule)⟩ (.still same)
  | enters {owner rule : String} {marks more : NumberSet} {number : Nat} {production : Production} {inside : Outcome}
      (stands : analysis.grammar.position? rule = some number)
      (found : analysis.grammar.productions[number]? = some production)
      (inserted : marks.insert number = .ok (true, more))
      (root : EndsWith analysis ⟨production.name, more, .pattern production.root⟩ inside) :
      EndsWith analysis ⟨owner, marks, .pattern (.reference rule)⟩
        ⟨inside.found.towards (.reference rule), number :: inside.entered, inside.marks⟩
  | sequence {owner : String} {marks : NumberSet} {factors : List Pattern} {leading : Outcome}
      (each : EndsWith analysis ⟨owner, marks, .factors factors⟩ leading) :
      EndsWith analysis ⟨owner, marks, .pattern (.sequence factors)⟩ (leading.mapFound fun table =>
        if factors.all analysis.isNullable then
          table.merge (.single ⟨.epsilon, owner, .sequence factors⟩)
        else table)
  | choice {owner : String} {marks : NumberSet} {alternatives : List Pattern} {outcome : Outcome}
      (each : EndsWith analysis ⟨owner, marks, .alternatives alternatives⟩ outcome) :
      EndsWith analysis ⟨owner, marks, .pattern (.choice alternatives)⟩ outcome
  | optional {owner : String} {marks : NumberSet} {content : Pattern} {inside : Outcome}
      (taken : EndsWith analysis ⟨owner, marks, .pattern content⟩ inside) :
      EndsWith analysis ⟨owner, marks, .pattern (.optional content)⟩ (inside.mapFound fun table =>
        (table.towards content).merge (.single ⟨.epsilon, owner, .optional content⟩))
  | noFactor {owner : String} {marks : NumberSet} :
      EndsWith analysis ⟨owner, marks, .factors []⟩ (.still marks)
  | lastFactor {owner : String} {marks : NumberSet} {factor : Pattern} {rest : List Pattern} {first : Outcome}
      (needed : analysis.isNullable factor = false)
      (here : EndsWith analysis ⟨owner, marks, .pattern factor⟩ first) :
      EndsWith analysis ⟨owner, marks, .factors (factor :: rest)⟩ (first.mapFound (·.withoutEpsilon))
  | nullableFactor {owner : String} {marks : NumberSet} {factor : Pattern} {rest : List Pattern}
      {first later : Outcome} (nullable : analysis.isNullable factor = true)
      (here : EndsWith analysis ⟨owner, marks, .pattern factor⟩ first)
      (after : EndsWith analysis ⟨owner, first.marks, .factors rest⟩ later) :
      EndsWith analysis ⟨owner, marks, .factors (factor :: rest)⟩
        ((first.mapFound (·.withoutEpsilon)).andThen later)
  | noAlternative {owner : String} {marks : NumberSet} :
      EndsWith analysis ⟨owner, marks, .alternatives []⟩ (.still marks)
  | alternative {owner : String} {marks : NumberSet} {alternative : Pattern} {rest : List Pattern}
      {first later : Outcome} (here : EndsWith analysis ⟨owner, marks, .pattern alternative⟩ first)
      (after : EndsWith analysis ⟨owner, first.marks, .alternatives rest⟩ later) :
      EndsWith analysis ⟨owner, marks, .alternatives (alternative :: rest)⟩
        ((first.mapFound fun table =>
          if analysis.isNullable alternative then
            (table.towards alternative).merge (.single ⟨.epsilon, owner, alternative⟩)
          else table.towards alternative).andThen later)

variable {analysis : Analysis} {query : Query} {outcome : Outcome}

/-- Whatever is resolved, the marks grow by the rules that are entered. -/
theorem EndsWith.grows (ends : analysis.EndsWith query outcome) :
    analysis.grammar.Grows query.marks outcome.entered outcome.marks := by
  induction ends with
  | terminal => exact .refl _
  | undeclared nowhere => exact .refl _
  | again stands inserted => exact .of_insert_again inserted
  | enters stands found inserted root inductionHypothesis =>
      exact (Grammar.Grows.of_insert (Grammar.lt_size_of_position? stands) inserted).trans inductionHypothesis
  | sequence each inductionHypothesis => exact inductionHypothesis
  | choice each inductionHypothesis => exact inductionHypothesis
  | optional taken inductionHypothesis => exact inductionHypothesis
  | noFactor => exact .refl _
  | lastFactor needed here inductionHypothesis => exact inductionHypothesis
  | nullableFactor nullable here after firstHypothesis laterHypothesis => exact firstHypothesis.trans laterHypothesis
  | noAlternative => exact .refl _
  | alternative here after firstHypothesis laterHypothesis => exact firstHypothesis.trans laterHypothesis

/-- There is one outcome. -/
theorem EndsWith.unique {other : Outcome} (ends : analysis.EndsWith query outcome)
    (again : analysis.EndsWith query other) : outcome = other := by
  induction ends generalizing other with
  | terminal =>
      cases again
      rfl
  | undeclared nowhere =>
      cases again with
      | undeclared _ => rfl
      | again stands _ => cases nowhere.symm.trans stands
      | enters stands _ _ _ => cases nowhere.symm.trans stands
  | again stands inserted =>
      cases again with
      | undeclared nowhere => cases nowhere.symm.trans stands
      | again otherStands otherInserted =>
          cases stands.symm.trans otherStands
          cases inserted.symm.trans otherInserted
          rfl
      | enters otherStands _ otherInserted _ =>
          cases stands.symm.trans otherStands
          cases inserted.symm.trans otherInserted
  | enters stands found inserted root inductionHypothesis =>
      cases again with
      | undeclared nowhere => cases nowhere.symm.trans stands
      | again otherStands otherInserted =>
          cases stands.symm.trans otherStands
          cases inserted.symm.trans otherInserted
      | enters otherStands otherFound otherInserted otherRoot =>
          cases stands.symm.trans otherStands
          cases found.symm.trans otherFound
          cases inserted.symm.trans otherInserted
          rw [inductionHypothesis otherRoot]
  | sequence each inductionHypothesis =>
      cases again with
      | sequence otherEach => rw [inductionHypothesis otherEach]
  | choice each inductionHypothesis =>
      cases again with
      | choice otherEach => exact inductionHypothesis otherEach
  | optional taken inductionHypothesis =>
      cases again with
      | optional otherTaken => rw [inductionHypothesis otherTaken]
  | noFactor =>
      cases again
      rfl
  | lastFactor needed here inductionHypothesis =>
      cases again with
      | lastFactor _ otherHere => rw [inductionHypothesis otherHere]
      | nullableFactor nullable _ _ => cases needed.symm.trans nullable
  | nullableFactor nullable here after firstHypothesis laterHypothesis =>
      cases again with
      | lastFactor needed _ => cases nullable.symm.trans needed
      | nullableFactor _ otherHere otherAfter =>
          cases firstHypothesis otherHere
          rw [laterHypothesis otherAfter]
  | noAlternative =>
      cases again
      rfl
  | alternative here after firstHypothesis laterHypothesis =>
      cases again with
      | alternative otherHere otherAfter =>
          cases firstHypothesis otherHere
          rw [laterHypothesis otherAfter]

/-! ## Why resolutions end -/

/-- What has to be resolved for a query, where later parts are asked for with the marks that the part
before them has left. -/
inductive GoesOnWith (analysis : Analysis) : Query -> Query -> Prop where
  | root {owner rule : String} {marks more : NumberSet} {number : Nat} {production : Production}
      (stands : analysis.grammar.position? rule = some number)
      (found : analysis.grammar.productions[number]? = some production)
      (inserted : marks.insert number = .ok (true, more)) :
      GoesOnWith analysis ⟨owner, marks, .pattern (.reference rule)⟩
        ⟨production.name, more, .pattern production.root⟩
  | factors {owner : String} {marks : NumberSet} {factors : List Pattern} :
      GoesOnWith analysis ⟨owner, marks, .pattern (.sequence factors)⟩ ⟨owner, marks, .factors factors⟩
  | alternatives {owner : String} {marks : NumberSet} {alternatives : List Pattern} :
      GoesOnWith analysis ⟨owner, marks, .pattern (.choice alternatives)⟩
        ⟨owner, marks, .alternatives alternatives⟩
  | content {owner : String} {marks : NumberSet} {content : Pattern} :
      GoesOnWith analysis ⟨owner, marks, .pattern (.optional content)⟩ ⟨owner, marks, .pattern content⟩
  | firstFactor {owner : String} {marks : NumberSet} {factor : Pattern} {rest : List Pattern} :
      GoesOnWith analysis ⟨owner, marks, .factors (factor :: rest)⟩ ⟨owner, marks, .pattern factor⟩
  | laterFactors {owner : String} {marks : NumberSet} {factor : Pattern} {rest : List Pattern} {first : Outcome}
      (nullable : analysis.isNullable factor = true)
      (here : analysis.EndsWith ⟨owner, marks, .pattern factor⟩ first) :
      GoesOnWith analysis ⟨owner, marks, .factors (factor :: rest)⟩ ⟨owner, first.marks, .factors rest⟩
  | firstAlternative {owner : String} {marks : NumberSet} {alternative : Pattern} {rest : List Pattern} :
      GoesOnWith analysis ⟨owner, marks, .alternatives (alternative :: rest)⟩
        ⟨owner, marks, .pattern alternative⟩
  | laterAlternatives {owner : String} {marks : NumberSet} {alternative : Pattern} {rest : List Pattern}
      {first : Outcome} (here : analysis.EndsWith ⟨owner, marks, .pattern alternative⟩ first) :
      GoesOnWith analysis ⟨owner, marks, .alternatives (alternative :: rest)⟩
        ⟨owner, first.marks, .alternatives rest⟩

/-- The number of rules without a mark, and the size of what is resolved. -/
def Query.measure (query : Query) (grammar : Grammar) : Nat × Nat :=
  ((grammar.unmarked query.marks).length, query.pending.size)

/-- Less is left when no rule gets unmarked and the patterns get smaller. -/
theorem lex_of_grows {grammar : Grammar} {owner other : String} {marks after : NumberSet} {entered : List Nat}
    {whole part : Pending} (grows : grammar.Grows marks entered after) (smaller : part.size < whole.size) :
    Prod.Lex (· < ·) (· < ·) (Query.measure ⟨other, after, part⟩ grammar)
      (Query.measure ⟨owner, marks, whole⟩ grammar) := by
  rcases Nat.lt_or_eq_of_le grows.length_unmarked_le with fewer | same
  · exact Prod.Lex.left _ _ fewer
  · rw [Query.measure, Query.measure, same]
    exact Prod.Lex.right _ smaller

/-- Whatever a resolution goes on with, fewer rules are without a mark, or no more and the patterns
are smaller. -/
theorem GoesOnWith.lex {next : Query} (goesOn : analysis.GoesOnWith query next) :
    Prod.Lex (· < ·) (· < ·) (next.measure analysis.grammar) (query.measure analysis.grammar) := by
  cases goesOn with
  | root stands found inserted => exact Prod.Lex.left _ _ (Grammar.length_unmarked_lt found inserted)
  | factors => exact lex_of_grows (.refl _) (Nat.lt_add_of_pos_left Nat.one_pos)
  | alternatives => exact lex_of_grows (.refl _) (Nat.lt_add_of_pos_left Nat.one_pos)
  | content => exact lex_of_grows (.refl _) (Nat.lt_add_of_pos_left Nat.one_pos)
  | firstFactor => exact lex_of_grows (.refl _) (Pattern.size_lt_of_mem List.mem_cons_self)
  | laterFactors nullable here => exact lex_of_grows here.grows (Pattern.sizeOfAll_lt_cons _ _)
  | firstAlternative => exact lex_of_grows (.refl _) (Pattern.size_lt_of_mem List.mem_cons_self)
  | laterAlternatives here => exact lex_of_grows here.grows (Pattern.sizeOfAll_lt_cons _ _)

theorem GoesOnWith.length_blocks {next : Query} (goesOn : analysis.GoesOnWith query next) :
    next.marks.blocks.length = query.marks.blocks.length := by
  cases goesOn with
  | root stands found inserted => exact NumberSet.length_blocks_of_insert inserted
  | laterFactors nullable here => exact here.grows.length_blocks
  | laterAlternatives here => exact here.grows.length_blocks
  | _ => rfl

/-- Whether every rule has a block for its number. -/
def HasRoom (grammar : Grammar) (marks : NumberSet) : Prop :=
  ∀ number, number < grammar.size -> number / NumberSet.blockBits < marks.blocks.length

/-- A resolution ends if all that it goes on with ends. -/
theorem exists_endsWith_of_goesOn (room : HasRoom analysis.grammar query.marks)
    (each : ∀ next, analysis.GoesOnWith query next -> ∃ outcome, analysis.EndsWith next outcome) :
    ∃ outcome, analysis.EndsWith query outcome := by
  rcases query with ⟨owner, marks, pending⟩
  cases pending with
  | pattern whole =>
      cases whole with
      | terminal leaf => exact ⟨_, .terminal⟩
      | reference rule =>
          cases stands : analysis.grammar.position? rule with
          | none => exact ⟨_, .undeclared stands⟩
          | some number =>
              rcases Grammar.exists_getElem?_of_position? stands with ⟨production, found, _⟩
              rcases NumberSet.exists_insert (room number (Grammar.lt_size_of_position? stands)) with
                ⟨isNew, more, inserted⟩
              cases isNew with
              | false => exact ⟨_, .again stands inserted⟩
              | true =>
                  rcases each _ (.root stands found inserted) with ⟨inside, root⟩
                  exact ⟨_, .enters stands found inserted root⟩
      | sequence factors =>
          rcases each _ .factors with ⟨leading, ends⟩
          exact ⟨_, .sequence ends⟩
      | choice alternatives =>
          rcases each _ .alternatives with ⟨outcome, ends⟩
          exact ⟨_, .choice ends⟩
      | optional content =>
          rcases each _ .content with ⟨inside, ends⟩
          exact ⟨_, .optional ends⟩
  | factors parts =>
      cases parts with
      | nil => exact ⟨_, .noFactor⟩
      | cons factor rest =>
          rcases each _ .firstFactor with ⟨first, here⟩
          cases nullable : analysis.isNullable factor with
          | false => exact ⟨_, .lastFactor nullable here⟩
          | true =>
              rcases each _ (.laterFactors nullable here) with ⟨later, after⟩
              exact ⟨_, .nullableFactor nullable here after⟩
  | alternatives parts =>
      cases parts with
      | nil => exact ⟨_, .noAlternative⟩
      | cons alternative rest =>
          rcases each _ .firstAlternative with ⟨first, here⟩
          rcases each _ (.laterAlternatives here) with ⟨later, after⟩
          exact ⟨_, .alternative here after⟩

/-- Every resolution ends, by induction on the rules without a mark and then on the patterns. -/
theorem exists_endsWith (query : Query) (room : HasRoom analysis.grammar query.marks) :
    ∃ outcome, analysis.EndsWith query outcome := by
  have wellFounded : WellFounded (InvImage (Prod.Lex (· < ·) (· < ·)) (Query.measure · analysis.grammar)) :=
    InvImage.wf _ (Prod.lex Nat.lt_wfRel Nat.lt_wfRel).wf
  induction query using wellFounded.induction with
  | _ query inductionHypothesis =>
      apply exists_endsWith_of_goesOn room
      intro next goesOn
      apply inductionHypothesis next goesOn.lex
      intro number below
      rw [goesOn.length_blocks]
      exact room number below

/-! ## Walks with marks -/

/-- The walk through the given rules. -/
def walk (analysis : Analysis) (owner : String) (unentered : List Production) : Pending -> Exploration unentered
  | .pattern whole => analysis.explore owner unentered whole
  | .factors parts => analysis.exploreLeading owner unentered parts
  | .alternatives parts => analysis.exploreAlternatives owner unentered parts

/-- Whether an outcome is that of a walk through the unmarked rules. -/
structure Outcome.IsOf (outcome : Outcome) (grammar : Grammar) {unentered : List Production}
    (walk : Exploration unentered) : Prop where
  /-- The tables are the same. -/
  found : walk.found = outcome.found
  /-- What the walk did not enter has no mark. -/
  remaining : walk.remaining = grammar.unmarked outcome.marks

namespace Outcome.IsOf

variable {grammar : Grammar} {unentered : List Production} {walk : Exploration unentered}

theorem still (marks : NumberSet) :
    (Outcome.still marks).IsOf grammar (Exploration.still .empty : Exploration (grammar.unmarked marks)) :=
  ⟨rfl, rfl⟩

theorem mapFound (isOf : outcome.IsOf grammar walk) (change : Lookahead -> Lookahead) :
    (outcome.mapFound change).IsOf grammar (walk.mapFound change) :=
  ⟨congrArg change isOf.found, isOf.remaining⟩

/-- The part after another is walked into with the rules that are left to it. -/
theorem andThen {laterOutcome : Outcome} (isOf : outcome.IsOf grammar walk)
    (later : ∀ unentered, Exploration unentered)
    (laterIsOf : laterOutcome.IsOf grammar (later (grammar.unmarked outcome.marks))) :
    (outcome.andThen laterOutcome).IsOf grammar
      (⟨walk.found.merge (later walk.remaining).found, (later walk.remaining).remaining,
        (later walk.remaining).shrinks.trans walk.shrinks⟩ : Exploration unentered) := by
  rw [← isOf.remaining] at laterIsOf
  exact ⟨congrArg₂ Lookahead.merge isOf.found laterIsOf.found, laterIsOf.remaining⟩

end Outcome.IsOf

/-- A resolution finds what the walk through the unmarked rules finds, and leaves those unmarked that the
walk does not enter. -/
theorem EndsWith.isOf_walk (ends : analysis.EndsWith query outcome) :
    outcome.IsOf analysis.grammar
      (analysis.walk query.owner (analysis.grammar.unmarked query.marks) query.pending) := by
  induction ends with
  | terminal =>
      rw [walk, explore]
      exact ⟨rfl, rfl⟩
  | @undeclared owner rule marks nowhere =>
      have unknown : (analysis.grammar.unmarked marks).find? (·.name == rule) = none :=
        Grammar.find?_unmarked_eq_none fun number stands => by cases nowhere.symm.trans stands
      rw [walk, explore_reference_of_none analysis _ unknown]
      exact .still marks
  | @again owner rule marks same number stands inserted =>
      have entered : (analysis.grammar.unmarked marks).find? (·.name == rule) = none := by
        apply Grammar.find?_unmarked_eq_none
        intro other otherStands
        cases stands.symm.trans otherStands
        exact NumberSet.contains_before_insert inserted
      rw [walk, explore_reference_of_none analysis _ entered]
      refine ⟨rfl, (Grammar.unmarked_congr fun other => ?_).symm⟩
      have kept : analysis.grammar.Grows marks [] same := .of_insert_again inserted
      exact Bool.eq_iff_iff.mpr ((kept.contains_iff other).trans (or_iff_left List.not_mem_nil))
  | @enters owner rule marks more number production inside stands found inserted root inductionHypothesis =>
      rcases Grammar.exists_getElem?_of_position? stands with ⟨other, sameFound, sameName⟩
      cases found.symm.trans sameFound
      subst sameName
      have fresh : marks.contains number = false := NumberSet.contains_before_insert inserted
      rcases explore_reference_of_some analysis owner (Grammar.find?_unmarked found fresh) with ⟨table, remaining⟩
      rw [Grammar.unmarked_of_insert found inserted] at inductionHypothesis
      exact ⟨table.trans (congrArg _ inductionHypothesis.found), remaining.trans inductionHypothesis.remaining⟩
  | sequence each inductionHypothesis =>
      rw [walk, explore]
      exact inductionHypothesis.mapFound _
  | choice each inductionHypothesis =>
      rw [walk, explore]
      exact inductionHypothesis
  | optional taken inductionHypothesis =>
      rw [walk, explore]
      exact inductionHypothesis.mapFound _
  | noFactor =>
      rw [walk, exploreLeading]
      exact .still _
  | lastFactor needed here inductionHypothesis =>
      rw [walk, exploreLeading, needed]
      exact inductionHypothesis.mapFound _
  | @nullableFactor owner marks factor rest first later nullable here after firstHypothesis laterHypothesis =>
      rw [walk, exploreLeading, nullable]
      exact (firstHypothesis.mapFound _).andThen (analysis.exploreLeading owner · rest) laterHypothesis
  | noAlternative =>
      rw [walk, exploreAlternatives]
      exact .still _
  | @alternative owner marks alternative rest first later here after firstHypothesis laterHypothesis =>
      rw [walk, exploreAlternatives]
      exact (firstHypothesis.mapFound _).andThen (analysis.exploreAlternatives owner · rest) laterHypothesis

end Analysis

/-! ## Whole resolutions -/

/-- Marks that may be handed to a resolution. -/
structure Visited (grammar : Grammar) where
  marks : NumberSet
  /-- Every rule has a block for its number. -/
  room : Analysis.HasRoom grammar marks

namespace Grammar

/-- The marks with which a pattern in the right-hand side of a rule is resolved, where the rule counts as
entered already. -/
def initialMarks (grammar : Grammar) (owner : String) : Except NumberSet.BeyondLastBlock NumberSet :=
  match grammar.position? owner with
  | some number => ((NumberSet.empty grammar.size).insert number).map (·.2)
  | none => .ok (.empty grammar.size)

/-- There is one mark at the beginning, if the rule is declared, and only this rule cannot be entered. -/
theorem exists_initialMarks (grammar : Grammar) (owner : String) :
    ∃ visited : Visited grammar, grammar.initialMarks owner = .ok visited.marks ∧
      (∀ own, grammar.position? owner = some own -> visited.marks.contains own = true) ∧
      grammar.unmarked visited.marks = grammar.productions.eraseP (·.name == owner) := by
  have room : Analysis.HasRoom grammar (.empty grammar.size) := fun _ => NumberSet.div_lt_length_blocks_empty
  cases stands : grammar.position? owner with
  | none =>
      refine ⟨⟨.empty grammar.size, room⟩, by rw [initialMarks, stands], nofun, ?_⟩
      rw [unmarked_empty, List.eraseP_of_forall_not]
      intro production declared same
      rcases List.getElem?_of_mem declared with ⟨number, found⟩
      rw [← beq_iff_eq.mp same, position?_of_getElem? found] at stands
      cases stands
  | some own =>
      rcases exists_getElem?_of_position? stands with ⟨production, found, rfl⟩
      rcases NumberSet.exists_insert (room own (lt_size_of_position? stands)) with ⟨isNew, marks, inserted⟩
      have roomAfter : Analysis.HasRoom grammar marks := by
        rw [Analysis.HasRoom, NumberSet.length_blocks_of_insert inserted]
        exact room
      have initial : grammar.initialMarks production.name = .ok marks := by
        rw [initialMarks, stands]
        exact congrArg (Except.map _) inserted
      refine ⟨⟨marks, roomAfter⟩, initial, fun other same => ?_, ?_⟩
      · rw [(NumberSet.contains_of_insert inserted).2, Option.some.inj same, beq_self_eq_true, Bool.or_true]
      · rw [unmarked_of_insert found inserted, unmarked_empty]

end Grammar

/-- Resolution goes on only where fewer rules are without a mark, or as many and the patterns are smaller.
So from any marks it ends with one outcome, which finds and enters what the walk through the unmarked rules
does, and whose marks are those before with those of the rules entered.  The query for a pattern finds its lookahead table;
no right-hand side is entered twice, and that of the owner not again. -/
theorem Analysis.resolution_ends (analysis : Analysis) :
    (∀ query next, analysis.GoesOnWith query next ->
      Prod.Lex (· < ·) (· < ·) (next.measure analysis.grammar) (query.measure analysis.grammar)) ∧
    (∀ owner pattern (visited : Visited analysis.grammar), ∃ outcome,
      (∀ other, analysis.EndsWith ⟨owner, visited.marks, .pattern pattern⟩ other ↔ other = outcome) ∧
      (analysis.explore owner (analysis.grammar.unmarked visited.marks) pattern).found = outcome.found ∧
      (analysis.explore owner (analysis.grammar.unmarked visited.marks) pattern).remaining =
        analysis.grammar.unmarked outcome.marks ∧
      analysis.grammar.Grows visited.marks outcome.entered outcome.marks) ∧
    ∀ owner pattern, ∃ marks outcome, analysis.grammar.initialMarks owner = .ok marks ∧
      analysis.EndsWith ⟨owner, marks, .pattern pattern⟩ outcome ∧
      analysis.lookaheadOf owner pattern = outcome.found ∧
      outcome.entered.Nodup ∧ ∀ own, analysis.grammar.position? owner = some own -> own ∉ outcome.entered := by
  refine ⟨fun query next goesOn => goesOn.lex, fun owner pattern visited => ?_, fun owner pattern => ?_⟩
  · rcases exists_endsWith ⟨owner, visited.marks, .pattern pattern⟩ visited.room with ⟨outcome, ends⟩
    refine ⟨outcome, fun other => ⟨fun again => again.unique ends, ?_⟩, ends.isOf_walk.found,
      ends.isOf_walk.remaining, ends.grows⟩
    rintro rfl
    exact ends
  · rcases analysis.grammar.exists_initialMarks owner with ⟨visited, initial, ownMark, unmarked⟩
    rcases exists_endsWith ⟨owner, visited.marks, .pattern pattern⟩ visited.room with ⟨outcome, ends⟩
    refine ⟨visited.marks, outcome, initial, ends, ?_, ends.grows.nodup, fun own stands again => ?_⟩
    · rw [lookaheadOf, ← unmarked]
      exact ends.isOf_walk.found
    · have fresh := ends.grows.fresh own again
      rw [ownMark own stands] at fresh
      cases fresh

end PredictiveParsing
