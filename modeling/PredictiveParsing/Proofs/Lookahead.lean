import PredictiveParsing.Proofs.Exploration

namespace PredictiveParsing

/-!
# Lookahead tables against FIRST sets

The table of a pattern inside a right-hand side holds exactly the spellings of the
leaves that the pattern can begin with when no reference leads back into the rule
that owns it.  For the whole right-hand side of a rule nothing is lost by that:
what a reference back to the rule would contribute begins the right-hand side
itself.  For a part strictly inside it something can be lost, and the table is
complete exactly where the lost leaves have spellings that it holds anyway.
-/

/-! ## Parts that a pattern selects among -/

theorem Pattern.selectable_subset_innerParts (pattern : Pattern) : pattern.selectable ⊆ pattern.innerParts := by
  intro branch member
  cases pattern with
  | choice alternatives => exact alternative_mem_innerParts member
  | optional content =>
      rw [List.mem_singleton.mp member]
      exact List.mem_cons_self
  | _ => cases member

theorem Pattern.leaves_subset_of_mem_selectable {pattern branch : Pattern} (member : branch ∈ pattern.selectable) :
    branch.leaves ⊆ pattern.leaves :=
  leaves_subset_of_mem_innerParts (selectable_subset_innerParts pattern member)

theorem Pattern.references_subset_of_mem_selectable {pattern branch : Pattern}
    (member : branch ∈ pattern.selectable) : branch.references ⊆ pattern.references := by
  intro rule reference
  cases pattern with
  | choice alternatives =>
      rw [references, referencesOfAll_eq_flatMap]
      exact List.mem_flatMap.mpr ⟨branch, member, reference⟩
  | optional content =>
      rw [List.mem_singleton.mp member] at reference
      exact reference
  | _ => cases member

namespace Grammar

variable {grammar : Grammar}

theorem derives_of_mem_selectable {pattern branch : Pattern} (member : branch ∈ pattern.selectable)
    {sentence : List Terminal} (derives : grammar.Derives branch sentence) :
    grammar.Derives pattern sentence := by
  cases pattern with
  | choice alternatives => exact .alternative member derives
  | optional content =>
      rw [List.mem_singleton.mp member] at derives
      exact .present derives
  | _ => cases member

theorem first_of_mem_selectable {pattern branch : Pattern} (member : branch ∈ pattern.selectable)
    {leaf : Terminal} (first : grammar.First branch leaf) : grammar.First pattern leaf := by
  cases pattern with
  | choice alternatives => exact .alternative member first
  | optional content =>
      rw [List.mem_singleton.mp member] at first
      exact .content first
  | _ => cases member

/-! ## Without references back to the owner -/

theorem eraseP_eq_filter {productions : List Production} (owner : String)
    (distinct : (productions.map (·.name)).Nodup) :
    productions.eraseP (·.name == owner) = productions.filter fun production => production.name != owner := by
  induction productions with
  | nil => rfl
  | cons production rest inductionHypothesis =>
      rw [List.map_cons, List.nodup_cons] at distinct
      by_cases same : production.name = owner
      · have others : ∀ other ∈ rest, (other.name != owner) = true := by
          intro other member
          apply bne_iff_ne.mpr
          intro again
          exact distinct.1 (List.mem_map.mpr ⟨other, member, again.trans same.symm⟩)
        rw [List.eraseP_cons_of_pos (by simp [same]), List.filter_cons_of_neg (by simp [same])]
        exact (List.filter_eq_self.mpr others).symm
      · rw [List.eraseP_cons_of_neg (by simp [same]), List.filter_cons_of_pos (by simp [same]),
          inductionHypothesis distinct.2]

/-- The productions beside that of one rule. -/
theorem eraseP_productions (grammar : Grammar) (owner : String) :
    grammar.productions.eraseP (·.name == owner) =
      grammar.productions.filter fun production => production.name != owner :=
  eraseP_eq_filter owner (nodup_names_productions grammar)

/-- What a pattern can begin with is found without references back to a rule, from
the pattern itself or from the right-hand side of the rule. -/
theorem firstAvoiding_or_root {production : Production} (declared : production ∈ grammar.productions)
    {pattern : Pattern} {leaf : Terminal} (first : grammar.First pattern leaf) :
    grammar.FirstAvoiding production.name pattern leaf ∨
      grammar.FirstAvoiding production.name production.root leaf := by
  rcases first.within_or_afresh (grammar.productions.filter fun other => other.name != production.name)
    with within | ⟨other, otherDeclared, notKept, afresh⟩
  · exact Or.inl within
  · have same : other.name = production.name := by
      by_contra different
      exact notKept (List.mem_filter.mpr ⟨otherDeclared, bne_iff_ne.mpr different⟩)
    rw [production_eq_of_name otherDeclared declared same] at afresh
    exact Or.inr afresh

/-- A right-hand side can begin with nothing but what it begins with without
references back to its rule. -/
theorem firstAvoiding_root_iff {production : Production} (declared : production ∈ grammar.productions)
    {leaf : Terminal} :
    grammar.FirstAvoiding production.name production.root leaf ↔ grammar.First production.root leaf :=
  ⟨first_of_firstAvoiding, fun first => (firstAvoiding_or_root declared first).elim id id⟩

end Grammar

namespace Analysis

variable (analysis : Analysis)

/-! ## Entries and spellings -/

/-- The entries of a table are found without entering the owner. -/
theorem finds_of_mem_lookaheadOf (owner : String) (pattern : Pattern) {entry : LookaheadEntry}
    (member : entry ∈ (analysis.lookaheadOf owner pattern).entries) :
    analysis.Finds (analysis.grammar.productions.filter fun production => production.name != owner) owner pattern
      entry := by
  rw [lookaheadOf, Grammar.eraseP_productions] at member
  exact analysis.finds_of_walks.1 _ _ _ entry member

/-- What an entry of a table says holds of the pattern. -/
theorem justified_of_mem_lookaheadOf (owner : String) (pattern : Pattern) {entry : LookaheadEntry}
    (member : entry ∈ (analysis.lookaheadOf owner pattern).entries) :
    analysis.Justified (analysis.grammar.productions.filter fun production => production.name != owner)
      pattern entry :=
  (analysis.finds_of_mem_lookaheadOf owner pattern member).justified (List.filter_subset_self _)

/-- A token entry takes a part that the pattern selects among and that can begin with
the token's leaf. -/
theorem branch_of_mem_tokenEntries {owner : String} {pattern : Pattern} (selects : pattern.selects = true)
    {entry : LookaheadEntry} (member : entry ∈ (analysis.lookaheadOf owner pattern).tokenEntries) :
    entry.branch ∈ pattern.selectable ∧
      analysis.grammar.FirstAvoiding owner entry.branch entry.terminal := by
  rcases Lookahead.mem_withoutEpsilon.mp member with ⟨found, isToken⟩
  rcases (analysis.finds_of_mem_lookaheadOf owner pattern found).of_selects selects isToken with ⟨taken, _, inBranch⟩
  have justified := inBranch.justified (List.filter_subset_self _)
  exact ⟨taken, justified.first (terminal_ne_epsilon_of_isEpsilon isToken)⟩

/-- A table holds the spellings of the leaves that the pattern can begin with when
no reference leads back to the owner, and no others. -/
theorem mem_spellings_lookaheadOf (owner : String) (pattern : Pattern) {spelling : String}
    (real : spelling ≠ Terminal.epsilonText) :
    spelling ∈ (analysis.lookaheadOf owner pattern).spellings ↔
      ∃ leaf, analysis.grammar.FirstAvoiding owner pattern leaf ∧ leaf.spelling = spelling := by
  constructor
  · intro member
    rcases List.mem_map.mp member with ⟨entry, found, rfl⟩
    have isReal : entry.terminal ≠ .epsilon := terminal_ne_epsilon_of_isEpsilon (beq_eq_false_iff_ne.mpr real)
    exact ⟨entry.terminal, (analysis.justified_of_mem_lookaheadOf owner pattern found).first isReal, rfl⟩
  · rintro ⟨leaf, first, rfl⟩
    rw [lookaheadOf, Grammar.eraseP_productions]
    exact (analysis.complete_of_walks.1 _ _ _ (List.filter_subset_self _)).pattern leaf real first

/-! ## The epsilon marker -/

/-- A table that holds the epsilon marker belongs to a nullable pattern, unless a
class is spelled like the marker. -/
theorem derives_nil_of_admitsNothing {owner : String} {pattern : Pattern}
    (plain : Terminal.tokenClass Terminal.epsilonText ∉ analysis.grammar.leaves)
    (subset : pattern.leaves ⊆ analysis.grammar.leaves)
    (admits : Terminal.epsilonText ∈ (analysis.lookaheadOf owner pattern).spellings) :
    analysis.grammar.Derives pattern [] := by
  rcases List.mem_map.mp admits with ⟨entry, found, spelled⟩
  have justified := analysis.justified_of_mem_lookaheadOf owner pattern found
  by_cases marker : entry.terminal = .epsilon
  · rw [Justified, if_pos marker] at justified
    exact justified
  · have leaf := (justified.first marker).mem_leaves (List.filter_subset_self _) subset
    exfalso
    cases same : entry.terminal with
    | literal text =>
        rw [LookaheadEntry.spelling, same] at spelled
        exact marker (same.trans (congrArg Terminal.literal spelled))
    | tokenClass name =>
        rw [LookaheadEntry.spelling, same] at spelled
        rw [same] at leaf
        exact plain ((congrArg Terminal.tokenClass spelled) ▸ leaf)

private theorem epsilon_mem_exploreAlternatives (owner : String) (unentered : List Production)
    {alternative : Pattern} {alternatives : List Pattern} (member : alternative ∈ alternatives)
    (nullable : analysis.isNullable alternative = true) :
    Terminal.epsilonText ∈ (analysis.exploreAlternatives owner unentered alternatives).found.spellings := by
  induction alternatives generalizing unentered with
  | nil => cases member
  | cons first rest inductionHypothesis =>
      rw [exploreAlternatives]
      apply Lookahead.mem_spellings_merge.mpr
      rcases List.mem_cons.mp member with rfl | later
      · apply Or.inl
        simp only [Exploration.mapFound, if_pos nullable]
        exact Lookahead.mem_spellings_merge.mpr (Or.inr List.mem_cons_self)
      · exact Or.inr (inductionHypothesis _ later)

private theorem epsilon_mem_explore_of_selects (owner : String) (unentered : List Production) {pattern : Pattern}
    (selects : pattern.selects = true) (nullable : analysis.isNullable pattern = true) :
    Terminal.epsilonText ∈ (analysis.explore owner unentered pattern).found.spellings := by
  cases pattern with
  | choice alternatives =>
      have any : alternatives.any analysis.isNullable = true :=
        (Pattern.isAnyNullable_eq_any _ alternatives).symm.trans nullable
      rcases List.any_eq_true.mp any with ⟨alternative, member, found⟩
      rw [explore]
      exact analysis.epsilon_mem_exploreAlternatives owner unentered member found
  | optional content =>
      rw [explore]
      exact Lookahead.mem_spellings_merge.mpr (Or.inr List.mem_cons_self)
  | _ => cases selects

/-- Only references decide by what the walk finds, all other patterns by the
nullable rules. -/
private theorem epsilon_mem_explore (owner : String) (unentered : List Production) {rounds : Nat}
    (references : ∀ rule ∈ analysis.grammar.nullableAfter rounds,
      Terminal.epsilonText ∈ (analysis.explore owner unentered (.reference rule)).found.spellings)
    {pattern : Pattern} (known : pattern.isNullable (analysis.grammar.nullableAfter rounds) = true) :
    Terminal.epsilonText ∈ (analysis.explore owner unentered pattern).found.spellings := by
  have nullable := (analysis.isNullable_iff pattern).mpr (Grammar.derives_nil_of_isNullableAfter known)
  cases pattern with
  | terminal leaf =>
      have marker : leaf = .epsilon := beq_iff_eq.mp nullable
      rw [explore, marker]
      exact List.mem_cons_self
  | reference rule =>
      rw [Pattern.isNullable, List.contains_iff_mem] at known
      exact references rule known
  | sequence factors =>
      have all : factors.all analysis.isNullable = true :=
        (Pattern.areAllNullable_eq_all _ factors).symm.trans nullable
      rw [explore]
      simp only [Exploration.mapFound, if_pos all]
      exact Lookahead.mem_spellings_merge.mpr (Or.inr List.mem_cons_self)
  | choice alternatives => exact analysis.epsilon_mem_explore_of_selects owner unentered rfl nullable
  | optional content => exact analysis.epsilon_mem_explore_of_selects owner unentered rfl nullable

/-- A reference to a rule found in some round has the epsilon marker in its table,
as long as the walk can still enter all rules found by then.  The root of such a
rule is nullable by the rules of the round before. -/
private theorem epsilon_mem_explore_reference (rounds : Nat) (owner : String) (unentered : List Production)
    (declared : unentered ⊆ analysis.grammar.productions)
    (enterable : ∀ production ∈ analysis.grammar.productions,
      production.name ∈ analysis.grammar.nullableAfter rounds -> production ∈ unentered)
    {rule : String} (known : rule ∈ analysis.grammar.nullableAfter rounds) :
    Terminal.epsilonText ∈ (analysis.explore owner unentered (.reference rule)).found.spellings := by
  induction rounds generalizing owner unentered rule with
  | zero => cases known
  | succ rounds inductionHypothesis =>
      have kept := (Grammar.nullableAfter_sublist analysis.grammar rounds).subset
      by_cases earlier : rule ∈ analysis.grammar.nullableAfter rounds
      · exact inductionHypothesis owner unentered declared
          (fun production member found => enterable production member (kept found)) earlier
      · rcases List.mem_map.mp known with ⟨production, filtered, rfl⟩
        rcases List.mem_filter.mp filtered with ⟨member, nullable⟩
        have enters := enterable production member known
        have found : unentered.find? (·.name == production.name) = some production := by
          cases search : unentered.find? (·.name == production.name) with
          | none => simpa using List.find?_eq_none.mp search production enters
          | some other =>
              have otherMember := declared (List.mem_of_find?_eq_some search)
              have sameName : other.name = production.name := by simpa using List.find?_some search
              rw [Grammar.production_eq_of_name otherMember member sameName]
        rw [Lookahead.spellings, (analysis.explore_reference_of_some owner found).1]
        rw [← Lookahead.spellings, Lookahead.spellings_towards]
        refine analysis.epsilon_mem_explore _ _ (fun next => ?_) nullable
        refine inductionHypothesis _ _ (List.Subset.trans List.eraseP_subset declared) ?_
        intro other otherMember otherFound
        have different : ¬ (other.name == production.name) = true := by
          intro same
          exact earlier (beq_iff_eq.mp same ▸ otherFound)
        have stays : other ∈ unentered.eraseP (·.name == production.name) ↔ other ∈ unentered :=
          List.mem_eraseP_of_neg different
        exact stays.mpr (enterable other otherMember (kept otherFound))

/-- The table of a nullable selection holds the epsilon marker. -/
theorem admitsNothing_of_selects (owner : String) {pattern : Pattern} (selects : pattern.selects = true)
    (nullable : analysis.grammar.Derives pattern []) :
    (analysis.lookaheadOf owner pattern).admitsNothing = true :=
  List.contains_iff_mem.mpr
    (analysis.epsilon_mem_explore_of_selects owner _ selects ((analysis.isNullable_iff pattern).mpr nullable))

/-- The table of a nullable rule holds the epsilon marker. -/
theorem epsilon_mem_lookaheadOf_root {production : Production}
    (declared : production ∈ analysis.grammar.productions)
    (nullable : analysis.grammar.Derives (.reference production.name) []) :
    Terminal.epsilonText ∈ (analysis.lookaheadOf production.name production.root).spellings := by
  have member : production.name ∈ analysis.grammar.nullableRules := by
    have holds := Grammar.isNullable_iff_derives_nil.mpr nullable
    rw [Pattern.isNullable, List.contains_iff_mem] at holds
    exact holds
  rcases Grammar.exists_first_round member with ⟨rounds, unknown, known⟩
  rcases List.mem_map.mp known with ⟨other, filtered, sameName⟩
  rcases List.mem_filter.mp filtered with ⟨otherDeclared, rootNullable⟩
  rw [Grammar.production_eq_of_name otherDeclared declared sameName] at rootNullable
  rw [lookaheadOf, Grammar.eraseP_productions]
  refine analysis.epsilon_mem_explore _ _ (fun next => ?_) rootNullable
  refine analysis.epsilon_mem_explore_reference rounds _ _ (List.filter_subset_self _) ?_
  intro other otherDeclared otherKnown
  have different : other.name ≠ production.name := fun same => unknown (same ▸ otherKnown)
  exact List.mem_filter.mpr ⟨otherDeclared, bne_iff_ne.mpr different⟩

/-! ## The tables of rules and of their parts -/

theorem lookahead?_of_mem {production : Production} (declared : production ∈ analysis.grammar.productions) :
    analysis.lookahead? production.name = some (analysis.lookaheadOf production.name production.root) := by
  rcases Grammar.exists_find?_of_mem declared with ⟨declaration, found, same⟩
  have sameRoot : declaration.root = production.root := congrArg Production.root same
  rw [lookahead?, found, Option.map_some, sameRoot]

end Analysis

namespace Grammar

/-- The table of a declared rule holds exactly the spellings in FIRST of the rule,
and the epsilon marker exactly if the rule derives the empty sentence. -/
theorem lookahead_of_rule (grammar : Grammar)
    (plain : Terminal.tokenClass Terminal.epsilonText ∉ grammar.leaves) {rule : String}
    (declared : rule ∈ grammar.names) :
    ∃ table, grammar.analysis.lookahead? rule = some table ∧
      (∀ spelling, spelling ≠ Terminal.epsilonText ->
        (spelling ∈ table.spellings ↔
          ∃ leaf, grammar.First (.reference rule) leaf ∧ leaf.spelling = spelling)) ∧
      (Terminal.epsilonText ∈ table.spellings ↔ grammar.Derives (.reference rule) []) := by
  rcases exists_production_of_mem_names declared with ⟨production, member, rfl⟩
  have ofRoot : ∀ leaf, grammar.First (.reference production.name) leaf ↔
      grammar.FirstAvoiding production.name production.root leaf := by
    intro leaf
    rw [firstAvoiding_root_iff member]
    constructor
    · intro first
      rcases first.exists_production with ⟨other, otherMember, sameName, root⟩
      rw [production_eq_of_name otherMember member sameName] at root
      exact root
    · exact .rule member
  refine ⟨_, grammar.analysis.lookahead?_of_mem member, ?_, ?_, ?_⟩
  · intro spelling real
    rw [grammar.analysis.mem_spellings_lookaheadOf _ _ real]
    exact exists_congr fun leaf => and_congr_left fun _ => (ofRoot leaf).symm
  · intro admits
    exact .rule member (grammar.analysis.derives_nil_of_admitsNothing plain (leaves_subset member) admits)
  · exact grammar.analysis.epsilon_mem_lookaheadOf_root member

/-- Rules that lead back to each other, one of which is nullable. -/
def circularRules : Grammar where
  declarations :=
    [⟨⟨"a", .sequence [.reference "b", .literal "x"]⟩, "b \"x\""⟩,
      ⟨⟨"b", .choice [.reference "c", .epsilon]⟩, "c | \"¬\""⟩,
      ⟨⟨"c", .sequence [.reference "a", .literal "y"]⟩, "a \"y\""⟩]
  nonempty := by decide
  distinct := by decide
  closed := by decide

theorem lookahead_of_circularRule :
    (Terminal.tokenClass Terminal.epsilonText ∉ circularRules.leaves ∧ "b" ∈ circularRules.names) ∧
      ∃ table, circularRules.analysis.lookahead? "b" = some table ∧
        (∀ spelling, spelling ≠ Terminal.epsilonText ->
          (spelling ∈ table.spellings ↔
            ∃ leaf, circularRules.First (.reference "b") leaf ∧ leaf.spelling = spelling)) ∧
        (Terminal.epsilonText ∈ table.spellings ↔ circularRules.Derives (.reference "b") []) :=
  ⟨by decide, lookahead_of_rule circularRules (by decide) (by decide)⟩

/-- The table of a part of a right-hand side holds exactly the spellings of the
leaves that the part can begin with when no reference leads back to the owner.
These are all spellings in FIRST of the part, unless the part can begin with its
owner and some spelling in FIRST of the owner is not among them. -/
theorem lookahead_of_part (grammar : Grammar) {production : Production}
    (declared : production ∈ grammar.productions) (part : Pattern) :
    let table := grammar.analysis.lookaheadOf production.name part
    (∀ spelling, spelling ≠ Terminal.epsilonText ->
      (spelling ∈ table.spellings ↔
        ∃ leaf, grammar.FirstAvoiding production.name part leaf ∧ leaf.spelling = spelling)) ∧
    ((∀ spelling, spelling ≠ Terminal.epsilonText ->
        (spelling ∈ table.spellings ↔ ∃ leaf, grammar.First part leaf ∧ leaf.spelling = spelling)) ↔
      (grammar.BeginsWith production.name part ->
        ∀ leaf, leaf.spelling ≠ Terminal.epsilonText -> grammar.First production.root leaf ->
          leaf.spelling ∈ table.spellings)) := by
  intro table
  have avoiding : ∀ spelling, spelling ≠ Terminal.epsilonText ->
      (spelling ∈ table.spellings ↔
        ∃ leaf, grammar.FirstAvoiding production.name part leaf ∧ leaf.spelling = spelling) :=
    fun spelling => grammar.analysis.mem_spellings_lookaheadOf production.name part
  refine ⟨avoiding, ?_, ?_⟩
  · intro complete begins leaf real first
    exact (complete leaf.spelling real).mpr ⟨leaf, first_of_beginsWith declared begins first, rfl⟩
  · intro covered spelling real
    constructor
    · intro member
      rcases (avoiding spelling real).mp member with ⟨leaf, first, same⟩
      exact ⟨leaf, first_of_firstAvoiding first, same⟩
    · rintro ⟨leaf, first, rfl⟩
      by_cases begins : grammar.BeginsWith production.name part
      · rcases firstAvoiding_or_root declared first with within | root
        · exact (avoiding leaf.spelling real).mpr ⟨leaf, within, rfl⟩
        · exact covered begins leaf real (first_of_firstAvoiding root)
      · have within := firstAvoiding_of_not_beginsWith first begins
        exact (avoiding leaf.spelling real).mpr ⟨leaf, within, rfl⟩

/-- Nested lists around a single item. -/
def nestedLists : Grammar where
  declarations :=
    [⟨⟨"list", .sequence [.literal "(", .choice [.reference "list", .literal "x"], .literal ")"]⟩,
      "\"(\" ( list | \"x\" ) \")\""⟩]
  nonempty := by decide
  distinct := by decide
  closed := by decide

/-- What stands between the parentheses of a list. -/
def nestedItem : Pattern := .choice [.reference "list", .literal "x"]

theorem lookahead_of_nestedItem :
    let production : Production := ⟨"list", .sequence [.literal "(", nestedItem, .literal ")"]⟩
    let table := nestedLists.analysis.lookaheadOf "list" nestedItem
    production ∈ nestedLists.productions ∧
      (∀ spelling, spelling ≠ Terminal.epsilonText ->
        (spelling ∈ table.spellings ↔
          ∃ leaf, nestedLists.FirstAvoiding "list" nestedItem leaf ∧ leaf.spelling = spelling)) ∧
      ((∀ spelling, spelling ≠ Terminal.epsilonText ->
          (spelling ∈ table.spellings ↔
            ∃ leaf, nestedLists.First nestedItem leaf ∧ leaf.spelling = spelling)) ↔
        (nestedLists.BeginsWith "list" nestedItem ->
          ∀ leaf, leaf.spelling ≠ Terminal.epsilonText -> nestedLists.First production.root leaf ->
            leaf.spelling ∈ table.spellings)) := by
  intro production table
  have declared : production ∈ nestedLists.productions := by decide
  exact ⟨declared, lookahead_of_part nestedLists declared nestedItem⟩

/-- A part can begin with leaves that its table leaves out: the item of a nested
list can be a list, but its table does not hold the parenthesis. -/
theorem lookahead_of_part_incomplete :
    ¬ ∀ (grammar : Grammar), Terminal.tokenClass Terminal.epsilonText ∉ grammar.leaves ->
      ∀ production ∈ grammar.productions, ∀ part ∈ production.root.innerParts, part.selects = true ->
        ∀ spelling, spelling ≠ Terminal.epsilonText ->
          (spelling ∈ (grammar.analysis.lookaheadOf production.name part).spellings ↔
            ∃ leaf, grammar.First part leaf ∧ leaf.spelling = spelling) := by
  intro complete
  have declared : (⟨"list", .sequence [.literal "(", nestedItem, .literal ")"]⟩ : Production) ∈
      nestedLists.productions := by decide
  have parenthesis := complete nestedLists (by decide) _ declared nestedItem (by decide) rfl "(" (by decide)
  have begins : nestedLists.First nestedItem (.literal "(") :=
    .alternative List.mem_cons_self (.rule declared (.head (.leaf (by decide))))
  have missing : "(" ∉ (nestedLists.analysis.lookaheadOf "list" nestedItem).spellings := by decide +kernel
  exact missing (parenthesis.mpr ⟨_, begins, rfl⟩)

end Grammar
end PredictiveParsing
