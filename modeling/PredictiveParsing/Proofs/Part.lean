import Mathlib.Data.List.Nodup
import PredictiveParsing.Grammar.Basic

namespace PredictiveParsing

/-!
# Parts of patterns

A part of a pattern is the pattern itself or a part of one that it is built from.
The leaves of a grammar are the terminals among the parts of its right-hand sides
that a token can match, so the epsilon marker is not one of them.
-/

namespace Pattern

/-- Induction over a pattern, where the parts of a list are taken together. -/
@[elab_as_elim]
theorem inductionOnParts {motive : Pattern -> Prop}
    (terminal : ∀ leaf, motive (.terminal leaf))
    (reference : ∀ rule, motive (.reference rule))
    (sequence : ∀ factors, (∀ factor ∈ factors, motive factor) -> motive (.sequence factors))
    (choice : ∀ alternatives, (∀ alternative ∈ alternatives, motive alternative) ->
      motive (.choice alternatives))
    (optional : ∀ content, motive content -> motive (.optional content))
    (pattern : Pattern) : motive pattern := by
  cases pattern with
  | terminal leaf => exact terminal leaf
  | reference rule => exact reference rule
  | sequence factors =>
      exact sequence factors fun factor _member =>
        inductionOnParts terminal reference sequence choice optional factor
  | choice alternatives =>
      exact choice alternatives fun alternative _member =>
        inductionOnParts terminal reference sequence choice optional alternative
  | optional content =>
      exact optional content (inductionOnParts terminal reference sequence choice optional content)
termination_by pattern.size
decreasing_by
  · have smaller := size_lt_of_mem _member
    rw [size]
    omega
  · have smaller := size_lt_of_mem _member
    rw [size]
    omega
  · rw [size]
    omega

/-! ## Parts -/

mutual

/-- The patterns nested strictly inside a pattern, one for each place. -/
def innerParts : Pattern -> List Pattern
  | .terminal _ | .reference _ => []
  | .sequence factors => partsOfAll factors
  | .choice alternatives => partsOfAll alternatives
  | .optional content => content :: innerParts content

/-- The patterns of a list, each followed by those nested inside it. -/
def partsOfAll : List Pattern -> List Pattern
  | [] => []
  | pattern :: rest => (pattern :: innerParts pattern) ++ partsOfAll rest

end

/-- A pattern and the patterns nested inside it. -/
def parts (pattern : Pattern) : List Pattern :=
  pattern :: pattern.innerParts

theorem mem_partsOfAll {part : Pattern} {patterns : List Pattern} :
    part ∈ partsOfAll patterns ↔ ∃ pattern ∈ patterns, part ∈ pattern.parts := by
  induction patterns with
  | nil => simp only [partsOfAll, List.not_mem_nil, false_and, exists_false]
  | cons pattern rest inductionHypothesis =>
      rw [partsOfAll, List.mem_append, inductionHypothesis]
      constructor
      · rintro (here | ⟨other, member, inside⟩)
        · exact ⟨pattern, List.mem_cons_self, here⟩
        · exact ⟨other, List.mem_cons_of_mem _ member, inside⟩
      · rintro ⟨other, member, inside⟩
        rcases List.mem_cons.mp member with rfl | later
        · exact Or.inl inside
        · exact Or.inr ⟨other, later, inside⟩

theorem mem_parts_self (pattern : Pattern) : pattern ∈ pattern.parts :=
  List.mem_cons_self

theorem innerParts_subset_parts (pattern : Pattern) : pattern.innerParts ⊆ pattern.parts :=
  List.subset_cons_self pattern pattern.innerParts

/-- What is nested inside a part is nested inside the whole. -/
theorem mem_innerParts_of_mem_parts {pattern part inner : Pattern} (inside : part ∈ pattern.parts)
    (nested : inner ∈ part.innerParts) : inner ∈ pattern.innerParts := by
  induction pattern using inductionOnParts with
  | terminal leaf =>
      rw [List.mem_singleton.mp inside] at nested
      exact nested
  | reference rule =>
      rw [List.mem_singleton.mp inside] at nested
      exact nested
  | sequence factors inductionHypothesis =>
      rcases List.mem_cons.mp inside with rfl | deeper
      · exact nested
      · rcases mem_partsOfAll.mp deeper with ⟨factor, member, within⟩
        have inner := inductionHypothesis factor member within
        exact mem_partsOfAll.mpr ⟨factor, member, List.mem_cons_of_mem _ inner⟩
  | choice alternatives inductionHypothesis =>
      rcases List.mem_cons.mp inside with rfl | deeper
      · exact nested
      · rcases mem_partsOfAll.mp deeper with ⟨alternative, member, within⟩
        have inner := inductionHypothesis alternative member within
        exact mem_partsOfAll.mpr ⟨alternative, member, List.mem_cons_of_mem _ inner⟩
  | optional content inductionHypothesis =>
      rcases List.mem_cons.mp inside with rfl | deeper
      · exact nested
      · exact List.mem_cons_of_mem _ (inductionHypothesis deeper)

theorem mem_parts_trans {pattern part inner : Pattern} (inside : part ∈ pattern.parts)
    (nested : inner ∈ part.parts) : inner ∈ pattern.parts := by
  rcases List.mem_cons.mp nested with rfl | deeper
  · exact inside
  · exact List.mem_cons_of_mem _ (mem_innerParts_of_mem_parts inside deeper)

theorem factor_mem_innerParts {factor : Pattern} {factors : List Pattern} (member : factor ∈ factors) :
    factor ∈ (Pattern.sequence factors).innerParts :=
  mem_partsOfAll.mpr ⟨factor, member, mem_parts_self factor⟩

theorem alternative_mem_innerParts {alternative : Pattern} {alternatives : List Pattern}
    (member : alternative ∈ alternatives) : alternative ∈ (Pattern.choice alternatives).innerParts :=
  mem_partsOfAll.mpr ⟨alternative, member, mem_parts_self alternative⟩

/-! ## Leaves -/

/-- The terminal that the pattern is, unless it is the epsilon marker. -/
def leaf? : Pattern -> Option Terminal
  | .terminal leaf => if leaf = .epsilon then none else some leaf
  | _ => none

/-- The terminals of a pattern other than the epsilon marker. -/
def leaves (pattern : Pattern) : List Terminal :=
  pattern.parts.filterMap leaf?

theorem leaf?_eq_some {pattern : Pattern} {leaf : Terminal} :
    pattern.leaf? = some leaf ↔ pattern = .terminal leaf ∧ leaf ≠ .epsilon := by
  cases pattern with
  | terminal other =>
      rw [leaf?, Option.ite_none_left_eq_some, Option.some.injEq, terminal.injEq]
      constructor
      · rintro ⟨real, rfl⟩
        exact ⟨rfl, real⟩
      · rintro ⟨rfl, real⟩
        exact ⟨real, rfl⟩
  | reference rule => exact ⟨nofun, nofun⟩
  | sequence factors => exact ⟨nofun, nofun⟩
  | choice alternatives => exact ⟨nofun, nofun⟩
  | optional content => exact ⟨nofun, nofun⟩

theorem mem_leaves {pattern : Pattern} {leaf : Terminal} :
    leaf ∈ pattern.leaves ↔ .terminal leaf ∈ pattern.parts ∧ leaf ≠ .epsilon := by
  rw [leaves, List.mem_filterMap]
  constructor
  · rintro ⟨part, member, found⟩
    rcases leaf?_eq_some.mp found with ⟨rfl, real⟩
    exact ⟨member, real⟩
  · rintro ⟨member, real⟩
    exact ⟨_, member, leaf?_eq_some.mpr ⟨rfl, real⟩⟩

theorem leaves_subset_of_mem_parts {pattern part : Pattern} (inside : part ∈ pattern.parts) :
    part.leaves ⊆ pattern.leaves := by
  intro leaf member
  rcases mem_leaves.mp member with ⟨deeper, real⟩
  exact mem_leaves.mpr ⟨mem_parts_trans inside deeper, real⟩

theorem leaves_subset_of_mem_innerParts {pattern part : Pattern} (nested : part ∈ pattern.innerParts) :
    part.leaves ⊆ pattern.leaves :=
  leaves_subset_of_mem_parts (innerParts_subset_parts pattern nested)

theorem leaves_sequence_subset {factors : List Pattern} {leaves : List Terminal} :
    (Pattern.sequence factors).leaves ⊆ leaves ↔ ∀ factor ∈ factors, factor.leaves ⊆ leaves := by
  constructor
  · intro subset factor member
    exact List.Subset.trans (leaves_subset_of_mem_innerParts (factor_mem_innerParts member)) subset
  · intro all leaf member
    rcases mem_leaves.mp member with ⟨inside, real⟩
    rcases List.mem_cons.mp inside with same | deeper
    · cases same
    · rcases mem_partsOfAll.mp deeper with ⟨factor, inFactors, within⟩
      exact all factor inFactors (mem_leaves.mpr ⟨within, real⟩)

/-! ## References -/

theorem references_sequence_subset {factors : List Pattern} {rules : List String} :
    (Pattern.sequence factors).references ⊆ rules ↔ ∀ factor ∈ factors, factor.references ⊆ rules := by
  rw [references, referencesOfAll_eq_flatMap]
  constructor
  · intro subset factor member rule reference
    exact subset (List.mem_flatMap.mpr ⟨factor, member, reference⟩)
  · intro all rule member
    rcases List.mem_flatMap.mp member with ⟨factor, inFactors, reference⟩
    exact all factor inFactors reference

end Pattern

namespace Grammar

/-- The leaves of a grammar, without the epsilon marker. -/
def leaves (grammar : Grammar) : List Terminal :=
  grammar.productions.flatMap (·.root.leaves)

theorem leaves_subset {grammar : Grammar} {production : Production}
    (declared : production ∈ grammar.productions) : production.root.leaves ⊆ grammar.leaves := by
  intro leaf member
  exact List.mem_flatMap.mpr ⟨production, declared, member⟩

variable {grammar : Grammar}

theorem nodup_names_productions (grammar : Grammar) : (grammar.productions.map (·.name)).Nodup := by
  rw [productions, List.map_map]
  exact grammar.distinct

/-- Productions of one grammar with the same name are the same. -/
theorem production_eq_of_name {first second : Production} (firstDeclared : first ∈ grammar.productions)
    (secondDeclared : second ∈ grammar.productions) (sameName : first.name = second.name) : first = second :=
  List.inj_on_of_nodup_map (nodup_names_productions grammar) firstDeclared secondDeclared sameName

theorem references_subset_names {production : Production} (declared : production ∈ grammar.productions) :
    production.root.references ⊆ grammar.names := by
  rcases List.mem_map.mp declared with ⟨declaration, member, rfl⟩
  exact grammar.closed declaration member

theorem exists_production_of_mem_names {rule : String} (declared : rule ∈ grammar.names) :
    ∃ production ∈ grammar.productions, production.name = rule := by
  rcases List.mem_map.mp declared with ⟨declaration, member, sameName⟩
  exact ⟨declaration.toProduction, List.mem_map.mpr ⟨declaration, member, rfl⟩, sameName⟩

theorem mem_productions_of_find? {rule : String} {declaration : Declaration}
    (found : grammar.find? rule = some declaration) : declaration.toProduction ∈ grammar.productions :=
  List.mem_map.mpr ⟨declaration, mem_of_find? found, rfl⟩

theorem exists_find?_of_mem {production : Production} (declared : production ∈ grammar.productions) :
    ∃ declaration, grammar.find? production.name = some declaration ∧
      declaration.toProduction = production := by
  rcases List.mem_map.mp declared with ⟨given, member, rfl⟩
  cases search : grammar.find? given.name with
  | none => simpa using List.find?_eq_none.mp search given member
  | some declaration =>
      have found := mem_productions_of_find? search
      exact ⟨declaration, rfl, production_eq_of_name found declared (name_of_find? search)⟩

theorem find?_of_mem_declarations {declaration : Declaration} (declared : declaration ∈ grammar.declarations) :
    grammar.find? declaration.name = some declaration := by
  have asProduction : declaration.toProduction ∈ grammar.productions := List.mem_map.mpr ⟨declaration, declared, rfl⟩
  rcases exists_find?_of_mem asProduction with ⟨found, search, _⟩
  have same := List.inj_on_of_nodup_map grammar.distinct (mem_of_find? search) declared (name_of_find? search)
  rw [same] at search
  exact search

theorem find?_productions {production : Production} (declared : production ∈ grammar.productions) :
    grammar.productions.find? (·.name == production.name) = some production := by
  rcases exists_find?_of_mem declared with ⟨declaration, found, same⟩
  rw [productions, List.find?_map]
  exact (congrArg (Option.map _) found).trans (congrArg some same)

theorem name_mem_names {production : Production} (declared : production ∈ grammar.productions) :
    production.name ∈ grammar.names := by
  rcases List.mem_map.mp declared with ⟨declaration, member, rfl⟩
  exact List.mem_map.mpr ⟨declaration, member, rfl⟩

/-- A rule stands at one position only. -/
theorem position?_of_getElem? {number : Nat} {production : Production}
    (found : grammar.productions[number]? = some production) :
    grammar.position? production.name = some number := by
  rw [productions, List.getElem?_map, Option.map_eq_some_iff] at found
  rcases found with ⟨declaration, stands, rfl⟩
  rcases List.getElem?_eq_some_iff.mp stands with ⟨below, rfl⟩
  rw [position?, List.findIdx?_eq_some_iff_getElem]
  refine ⟨below, beq_self_eq_true _, fun earlier before same => ?_⟩
  have distinct := List.pairwise_iff_getElem.mp (List.pairwise_map.mp grammar.distinct)
  exact distinct earlier number _ below before (beq_iff_eq.mp same)

theorem exists_getElem?_of_position? {rule : String} {number : Nat}
    (stands : grammar.position? rule = some number) :
    ∃ production, grammar.productions[number]? = some production ∧ production.name = rule := by
  rw [position?, List.findIdx?_eq_some_iff_getElem] at stands
  rcases stands with ⟨below, same, _⟩
  refine ⟨grammar.declarations[number].toProduction, ?_, beq_iff_eq.mp same⟩
  rw [productions, List.getElem?_map, List.getElem?_eq_getElem below, Option.map_some]

end Grammar
end PredictiveParsing
