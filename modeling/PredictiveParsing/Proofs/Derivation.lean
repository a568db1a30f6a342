import Mathlib.Data.List.Basic
import PredictiveParsing.Analysis.Basic
import PredictiveParsing.Proofs.Part

namespace PredictiveParsing

/-!
# What a grammar derives

A pattern derives sentences, which are lists of leaves.  The epsilon marker
stands for no leaf at all, so it derives the empty sentence only.  What is left of
a sequence after its first factor is a sequence again, and the relation follows
the factors one by one.

The nullable rules are found in rounds, without any mention of sentences.  They
are exactly the rules that derive the empty sentence: a round keeps what the
rounds before it found, so the number of rules found grows until a round adds
nothing, and this happens before there are more rounds than rules.
-/

namespace Grammar

/-! ## Sentences -/

/-- The sentences that a pattern derives. -/
inductive Derives (grammar : Grammar) : Pattern -> List Terminal -> Prop where
  | marker : Derives grammar (.terminal .epsilon) []
  | leaf {leaf : Terminal} (real : leaf ≠ .epsilon) : Derives grammar (.terminal leaf) [leaf]
  | rule {production : Production} {sentence : List Terminal}
      (declared : production ∈ grammar.productions) (root : Derives grammar production.root sentence) :
      Derives grammar (.reference production.name) sentence
  | noFactors : Derives grammar (.sequence []) []
  | factor {factor : Pattern} {rest : List Pattern} {front back : List Terminal}
      (first : Derives grammar factor front) (later : Derives grammar (.sequence rest) back) :
      Derives grammar (.sequence (factor :: rest)) (front ++ back)
  | alternative {alternative : Pattern} {alternatives : List Pattern} {sentence : List Terminal}
      (member : alternative ∈ alternatives) (taken : Derives grammar alternative sentence) :
      Derives grammar (.choice alternatives) sentence
  | absent {content : Pattern} : Derives grammar (.optional content) []
  | present {content : Pattern} {sentence : List Terminal} (taken : Derives grammar content sentence) :
      Derives grammar (.optional content) sentence

variable {grammar : Grammar}

theorem exists_production_of_derives {rule : String} {sentence : List Terminal}
    (derives : grammar.Derives (.reference rule) sentence) :
    ∃ production ∈ grammar.productions, production.name = rule ∧ grammar.Derives production.root sentence := by
  cases derives with
  | rule declared root => exact ⟨_, declared, rfl, root⟩

theorem derives_nil_of_all {factors : List Pattern}
    (all : ∀ factor ∈ factors, grammar.Derives factor []) : grammar.Derives (.sequence factors) [] := by
  induction factors with
  | nil => exact .noFactors
  | cons factor rest inductionHypothesis =>
      have first := all factor List.mem_cons_self
      have later := inductionHypothesis fun other member => all other (List.mem_cons_of_mem _ member)
      exact .factor first later

/-! ## Rounds -/

/-- With more nullable rules, more patterns are nullable. -/
theorem isNullable_of_subset {fewer more : List String} (subset : fewer ⊆ more) (pattern : Pattern)
    (nullable : pattern.isNullable fewer = true) : pattern.isNullable more = true := by
  induction pattern using Pattern.inductionOnParts with
  | terminal leaf => exact nullable
  | reference rule =>
      rw [Pattern.isNullable, List.contains_iff_mem] at nullable ⊢
      exact subset nullable
  | sequence factors inductionHypothesis =>
      rw [Pattern.isNullable, Pattern.areAllNullable_eq_all, List.all_eq_true] at nullable ⊢
      intro factor member
      exact inductionHypothesis factor member (nullable factor member)
  | choice alternatives inductionHypothesis =>
      rw [Pattern.isNullable, Pattern.isAnyNullable_eq_any, List.any_eq_true] at nullable ⊢
      rcases nullable with ⟨alternative, member, found⟩
      exact ⟨alternative, member, inductionHypothesis alternative member found⟩
  | optional content _ => rfl

theorem nullableGiven_sublist {fewer more : List String} (subset : fewer ⊆ more) :
    (grammar.nullableGiven fewer).Sublist (grammar.nullableGiven more) := by
  apply List.Sublist.map
  apply List.monotone_filter_right
  intro production nullable
  exact isNullable_of_subset subset production.root nullable

theorem nullableAfter_sublist (grammar : Grammar) (rounds : Nat) :
    (grammar.nullableAfter rounds).Sublist (grammar.nullableAfter (rounds + 1)) := by
  induction rounds with
  | zero => exact List.nil_sublist _
  | succ rounds inductionHypothesis => exact nullableGiven_sublist inductionHypothesis.subset

/-- Until a round adds nothing, each round adds a rule. -/
private theorem nullableAfter_stable_or_longer (grammar : Grammar) (rounds : Nat) :
    grammar.nullableAfter (rounds + 1) = grammar.nullableAfter rounds ∨
      rounds < (grammar.nullableAfter (rounds + 1)).length := by
  induction rounds with
  | zero =>
      cases found : grammar.nullableAfter 1 with
      | nil => exact Or.inl rfl
      | cons rule rest => exact Or.inr (Nat.succ_pos _)
  | succ rounds inductionHypothesis =>
      rcases inductionHypothesis with stable | longer
      · exact Or.inl (congrArg grammar.nullableGiven stable)
      · have kept := nullableAfter_sublist grammar (rounds + 1)
        rcases Nat.lt_or_ge (grammar.nullableAfter (rounds + 1)).length
          (grammar.nullableAfter (rounds + 2)).length with more | same
        · exact Or.inr (Nat.lt_of_le_of_lt longer more)
        · exact Or.inl (kept.eq_of_length_le same).symm

/-- Another round after as many as there are rules adds nothing. -/
theorem nullableGiven_nullableRules (grammar : Grammar) :
    grammar.nullableGiven grammar.nullableRules = grammar.nullableRules := by
  rcases nullableAfter_stable_or_longer grammar grammar.size with stable | longer
  · exact stable
  · have few : (grammar.nullableAfter (grammar.size + 1)).length ≤ grammar.size := by
      rw [nullableAfter, nullableGiven, List.length_map]
      have all : grammar.productions.length = grammar.size := List.length_map _
      exact all ▸ List.length_filter_le _ _
    omega

/-! ## The nullable patterns are those that derive the empty sentence -/

/-- If the given rules derive the empty sentence, so do the patterns that are
nullable by them. -/
private theorem derives_nil_of_rules {nullable : List String}
    (rules : ∀ rule ∈ nullable, grammar.Derives (.reference rule) []) (pattern : Pattern)
    (holds : pattern.isNullable nullable = true) : grammar.Derives pattern [] := by
  induction pattern using Pattern.inductionOnParts with
  | terminal leaf =>
      rw [Pattern.isNullable, beq_iff_eq] at holds
      rw [holds]
      exact .marker
  | reference rule =>
      rw [Pattern.isNullable, List.contains_iff_mem] at holds
      exact rules rule holds
  | sequence factors inductionHypothesis =>
      rw [Pattern.isNullable, Pattern.areAllNullable_eq_all, List.all_eq_true] at holds
      apply derives_nil_of_all
      intro factor member
      exact inductionHypothesis factor member (holds factor member)
  | choice alternatives inductionHypothesis =>
      rw [Pattern.isNullable, Pattern.isAnyNullable_eq_any, List.any_eq_true] at holds
      rcases holds with ⟨alternative, member, found⟩
      exact .alternative member (inductionHypothesis alternative member found)
  | optional content _ => exact .absent

private theorem derives_nil_of_mem_nullableAfter (rounds : Nat) :
    ∀ rule ∈ grammar.nullableAfter rounds, grammar.Derives (.reference rule) [] := by
  induction rounds with
  | zero =>
      intro rule member
      cases member
  | succ rounds inductionHypothesis =>
      intro rule member
      rcases List.mem_map.mp member with ⟨production, kept, rfl⟩
      rcases List.mem_filter.mp kept with ⟨declared, nullable⟩
      exact .rule declared (derives_nil_of_rules inductionHypothesis production.root nullable)

theorem derives_nil_of_isNullableAfter {rounds : Nat} {pattern : Pattern}
    (nullable : pattern.isNullable (grammar.nullableAfter rounds) = true) : grammar.Derives pattern [] :=
  derives_nil_of_rules (derives_nil_of_mem_nullableAfter rounds) pattern nullable

/-- A nullable rule is found in some round for the first time. -/
theorem exists_first_round {rule : String} {rounds : Nat} (member : rule ∈ grammar.nullableAfter rounds) :
    ∃ first, rule ∉ grammar.nullableAfter first ∧ rule ∈ grammar.nullableAfter (first + 1) := by
  induction rounds with
  | zero => cases member
  | succ rounds inductionHypothesis =>
      by_cases earlier : rule ∈ grammar.nullableAfter rounds
      · exact inductionHypothesis earlier
      · exact ⟨rounds, earlier, member⟩

private theorem isNullable_of_derives {pattern : Pattern} {sentence : List Terminal}
    (derives : grammar.Derives pattern sentence) (empty : sentence = []) :
    pattern.isNullable grammar.nullableRules = true := by
  induction derives with
  | marker => rfl
  | leaf _ => cases empty
  | rule declared _ inductionHypothesis =>
      rw [Pattern.isNullable, List.contains_iff_mem, ← nullableGiven_nullableRules]
      exact List.mem_map.mpr ⟨_, List.mem_filter.mpr ⟨declared, inductionHypothesis empty⟩, rfl⟩
  | noFactors => rfl
  | factor _ _ firstHypothesis laterHypothesis =>
      have parts := List.append_eq_nil_iff.mp empty
      have later := laterHypothesis parts.2
      rw [Pattern.isNullable] at later
      rw [Pattern.isNullable, Pattern.areAllNullable, firstHypothesis parts.1, later, Bool.and_self]
  | alternative member _ inductionHypothesis =>
      rw [Pattern.isNullable, Pattern.isAnyNullable_eq_any, List.any_eq_true]
      exact ⟨_, member, inductionHypothesis empty⟩
  | absent => rfl
  | present _ _ => rfl

/-- The nullable patterns are those that derive the empty sentence. -/
theorem isNullable_iff_derives_nil {pattern : Pattern} :
    pattern.isNullable grammar.nullableRules = true ↔ grammar.Derives pattern [] := by
  constructor
  · exact derives_nil_of_isNullableAfter
  · intro derives
    exact isNullable_of_derives derives rfl

end Grammar

theorem Analysis.isNullable_iff (analysis : Analysis) (pattern : Pattern) :
    analysis.isNullable pattern = true ↔ analysis.grammar.Derives pattern [] := by
  rw [Analysis.isNullable, analysis.nullable_eq]
  exact Grammar.isNullable_iff_derives_nil

end PredictiveParsing
