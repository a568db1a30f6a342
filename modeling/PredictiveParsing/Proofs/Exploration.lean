import PredictiveParsing.Plan.Construction
import PredictiveParsing.Proofs.FirstSet

namespace PredictiveParsing

/-!
# What walks find

A walk enters each rule at most once and adds nothing for a rule that it entered
before.  It misses no leaf all the same: whatever can be found from a rule that
the walk has entered and left is among its findings by then, so that a leaf which
lies behind a rule entered before is already there.  This is the invariant of the
walk, and it speaks about the productions that could be entered at its start.

Whether a pattern can match nothing never depends on the rules entered, because
the walk asks the nullable rules for it wherever a reference is not the pattern
itself.
-/

namespace Analysis

open Exploration

/-! ## References -/

theorem explore_reference_of_none (analysis : Analysis) (owner : String) {unentered : List Production}
    {rule : String} (entered : unentered.find? (·.name == rule) = none) :
    analysis.explore owner unentered (.reference rule) = .still .empty := by
  rw [explore]
  split
  · rfl
  · rename_i production found
    rw [entered] at found
    cases found

theorem explore_reference_of_some (analysis : Analysis) (owner : String) {unentered : List Production}
    {rule : String} {production : Production} (found : unentered.find? (·.name == rule) = some production) :
    let inside := analysis.explore production.name (unentered.eraseP (·.name == rule)) production.root
    (analysis.explore owner unentered (.reference rule)).found = inside.found.towards (.reference rule) ∧
      (analysis.explore owner unentered (.reference rule)).remaining = inside.remaining := by
  rw [explore]
  split
  · rename_i entered
    rw [found] at entered
    cases entered
  · rename_i other same
    rw [found] at same
    cases same
    exact ⟨rfl, rfl⟩

/-! ## Where findings come from -/

/-- Whether a walk into a pattern of the owner finds the entry when it can enter the given
productions: at a leaf or for want of one, with the shapes of the pattern around it. -/
inductive Finds (analysis : Analysis) (unentered : List Production) : String -> Pattern -> LookaheadEntry -> Prop where
  | leaf {owner : String} {leaf : Terminal} :
      Finds analysis unentered owner (.terminal leaf) ⟨leaf, owner, .terminal leaf⟩
  | rule {owner : String} {production : Production} {entry : LookaheadEntry} (enters : production ∈ unentered)
      (root : Finds analysis unentered production.name production.root entry) :
      Finds analysis unentered owner (.reference production.name) { entry with branch := .reference production.name }
  | head {owner : String} {factor : Pattern} {rest : List Pattern} {entry : LookaheadEntry}
      (isToken : entry.isEpsilon = false) (first : Finds analysis unentered owner factor entry) :
      Finds analysis unentered owner (.sequence (factor :: rest)) entry
  | later {owner : String} {factor : Pattern} {rest : List Pattern} {entry : LookaheadEntry}
      (nullable : analysis.isNullable factor = true) (isToken : entry.isEpsilon = false)
      (remaining : Finds analysis unentered owner (.sequence rest) entry) :
      Finds analysis unentered owner (.sequence (factor :: rest)) entry
  | noFactor {owner : String} {factors : List Pattern} (nullable : factors.all analysis.isNullable = true) :
      Finds analysis unentered owner (.sequence factors) ⟨.epsilon, owner, .sequence factors⟩
  | alternative {owner : String} {alternative : Pattern} {alternatives : List Pattern} {entry : LookaheadEntry}
      (member : alternative ∈ alternatives) (taken : Finds analysis unentered owner alternative entry) :
      Finds analysis unentered owner (.choice alternatives) { entry with branch := alternative }
  | noAlternative {owner : String} {alternative : Pattern} {alternatives : List Pattern}
      (member : alternative ∈ alternatives) (nullable : analysis.isNullable alternative = true) :
      Finds analysis unentered owner (.choice alternatives) ⟨.epsilon, owner, alternative⟩
  | content {owner : String} {content : Pattern} {entry : LookaheadEntry}
      (taken : Finds analysis unentered owner content entry) :
      Finds analysis unentered owner (.optional content) { entry with branch := content }
  | noContent {owner : String} {content : Pattern} :
      Finds analysis unentered owner (.optional content) ⟨.epsilon, owner, .optional content⟩

namespace Finds

variable {analysis : Analysis} {unentered : List Production} {owner : String} {entry : LookaheadEntry}

theorem mono {pattern : Pattern} {more : List Production} (subset : unentered ⊆ more)
    (finds : analysis.Finds unentered owner pattern entry) : analysis.Finds more owner pattern entry := by
  induction finds with
  | leaf => exact .leaf
  | rule enters _ inductionHypothesis => exact .rule (subset enters) inductionHypothesis
  | head isToken _ inductionHypothesis => exact .head isToken inductionHypothesis
  | later nullable isToken _ inductionHypothesis => exact .later nullable isToken inductionHypothesis
  | noFactor nullable => exact .noFactor nullable
  | alternative member _ inductionHypothesis => exact .alternative member inductionHypothesis
  | noAlternative member nullable => exact .noAlternative member nullable
  | content _ inductionHypothesis => exact .content inductionHypothesis
  | noContent => exact .noContent

/-- What is found in some of the alternatives is found in the choice among all of them. -/
theorem of_alternatives_subset {fewer more : List Pattern} (subset : fewer ⊆ more)
    (finds : analysis.Finds unentered owner (.choice fewer) entry) :
    analysis.Finds unentered owner (.choice more) entry := by
  cases finds with
  | alternative member taken => exact .alternative (subset member) taken
  | noAlternative member nullable => exact .noAlternative (subset member) nullable

/-- The token of a selection is found in the part that is taken for it. -/
theorem of_selects {pattern : Pattern} (finds : analysis.Finds unentered owner pattern entry)
    (selects : pattern.selects = true) (isToken : entry.isEpsilon = false) :
    entry.branch ∈ pattern.selectable ∧
      ∃ branch, analysis.Finds unentered owner entry.branch { entry with branch } := by
  cases finds with
  | alternative member taken => exact ⟨member, _, taken⟩
  | content taken => exact ⟨List.mem_singleton_self _, _, taken⟩
  | noAlternative _ _ => cases isToken
  | noContent => cases isToken
  | _ => cases selects

end Finds

/-- Every entry of a walk is found by its pattern, one among the alternatives by their
choice, and one among the leading factors, which is never the marker, by their sequence. -/
theorem finds_of_walks (analysis : Analysis) :
    (∀ owner unentered pattern, ∀ entry ∈ (analysis.explore owner unentered pattern).found.entries,
      analysis.Finds unentered owner pattern entry) ∧
    (∀ owner unentered alternatives,
      ∀ entry ∈ (analysis.exploreAlternatives owner unentered alternatives).found.entries,
        analysis.Finds unentered owner (.choice alternatives) entry) ∧
    (∀ owner unentered factors, ∀ entry ∈ (analysis.exploreLeading owner unentered factors).found.entries,
      entry.isEpsilon = false ∧ analysis.Finds unentered owner (.sequence factors) entry) := by
  refine explore.mutual_induct analysis _ _ _ ?terminal ?entered ?enters ?sequence ?choice ?optional
    ?noAlternative ?alternative ?noFactor ?nullableFactor ?lastFactor
  case terminal =>
    intro owner unentered leaf entry member
    rw [explore] at member
    cases List.mem_singleton.mp member
    exact .leaf
  case entered =>
    intro owner unentered rule entered entry member
    rw [explore_reference_of_none analysis owner entered] at member
    cases member
  case enters =>
    intro owner unentered rule production found _ inductionHypothesis entry member
    rw [(explore_reference_of_some analysis owner found).1] at member
    rcases List.mem_map.mp member with ⟨inner, inside, rfl⟩
    have sameName : production.name = rule := by simpa using List.find?_some found
    subst sameName
    exact .rule (List.mem_of_find?_eq_some found) ((inductionHypothesis inner inside).mono List.eraseP_subset)
  case sequence =>
    intro owner unentered factors inductionHypothesis entry member
    rw [explore] at member
    rcases Lookahead.mem_of_mem_marked member with early | ⟨allNullable, rfl⟩
    · exact (inductionHypothesis entry early).2
    · exact .noFactor allNullable
  case choice =>
    intro owner unentered alternatives inductionHypothesis entry member
    rw [explore] at member
    exact inductionHypothesis entry member
  case optional =>
    intro owner unentered content inductionHypothesis entry member
    rw [explore] at member
    rcases Lookahead.mem_merge.mp member with early | late
    · rcases List.mem_map.mp early with ⟨inner, inside, rfl⟩
      exact .content (inductionHypothesis inner inside)
    · cases List.mem_singleton.mp late.1
      exact .noContent
  case noAlternative =>
    intro owner unentered entry member
    rw [exploreAlternatives] at member
    cases member
  case alternative =>
    intro owner unentered alternative rest first firstHypothesis laterHypothesis _ entry member
    rw [exploreAlternatives] at member
    rcases Lookahead.mem_merge.mp member with early | late
    · rcases Lookahead.mem_of_mem_marked early with inside | ⟨nullable, rfl⟩
      · rcases List.mem_map.mp inside with ⟨inner, here, rfl⟩
        exact .alternative List.mem_cons_self (firstHypothesis inner here)
      · exact .noAlternative List.mem_cons_self nullable
    · have remaining := (laterHypothesis entry late.1).mono first.shrinks.subset
      exact remaining.of_alternatives_subset (List.subset_cons_self _ _)
  case noFactor =>
    intro owner unentered entry member
    rw [exploreLeading] at member
    cases member
  case nullableFactor =>
    intro owner unentered factor rest first nullable firstHypothesis laterHypothesis _ entry member
    rw [exploreLeading, if_pos nullable] at member
    rcases Lookahead.mem_merge.mp member with early | late
    · rcases Lookahead.mem_withoutEpsilon.mp early with ⟨inside, isToken⟩
      exact ⟨isToken, .head isToken (firstHypothesis entry inside)⟩
    · rcases laterHypothesis entry late.1 with ⟨isToken, remaining⟩
      exact ⟨isToken, .later nullable isToken (remaining.mono first.shrinks.subset)⟩
  case lastFactor =>
    intro owner unentered factor rest notNullable firstHypothesis entry member
    rw [exploreLeading, if_neg notNullable] at member
    rcases Lookahead.mem_withoutEpsilon.mp member with ⟨inside, isToken⟩
    exact ⟨isToken, .head isToken (firstHypothesis entry inside)⟩

/-! ## Findings are justified -/

/-- Whether an entry says something true about the pattern that it was found in. -/
def Justified (analysis : Analysis) (unentered : List Production) (pattern : Pattern)
    (entry : LookaheadEntry) : Prop :=
  if entry.terminal = .epsilon then analysis.grammar.Derives pattern []
  else analysis.grammar.FirstWithin unentered pattern entry.terminal

theorem Justified.first {analysis : Analysis} {unentered : List Production} {pattern : Pattern}
    {entry : LookaheadEntry} (justified : analysis.Justified unentered pattern entry)
    (real : entry.terminal ≠ .epsilon) :
    analysis.grammar.FirstWithin unentered pattern entry.terminal := by
  rw [Justified, if_neg real] at justified
  exact justified

theorem Justified.of_first {analysis : Analysis} {unentered : List Production} {pattern : Pattern}
    {entry : LookaheadEntry} (real : entry.terminal ≠ .epsilon)
    (first : analysis.grammar.FirstWithin unentered pattern entry.terminal) :
    analysis.Justified unentered pattern entry := by
  rw [Justified, if_neg real]
  exact first

theorem Justified.of_derives {analysis : Analysis} {unentered : List Production} {pattern branch : Pattern}
    {owner : String} (derives : analysis.grammar.Derives pattern []) :
    analysis.Justified unentered pattern ⟨.epsilon, owner, branch⟩ := by
  rw [Justified, if_pos rfl]
  exact derives

/-- A pattern inherits the entries of a part that it can begin with and that makes
it nullable. -/
theorem Justified.lift {analysis : Analysis} {unentered : List Production} {part whole : Pattern}
    {entry : LookaheadEntry} (justified : analysis.Justified unentered part entry)
    (nullable : analysis.grammar.Derives part [] -> analysis.grammar.Derives whole [])
    (first : ∀ leaf, analysis.grammar.FirstWithin unentered part leaf ->
      analysis.grammar.FirstWithin unentered whole leaf) : analysis.Justified unentered whole entry := by
  unfold Justified at justified ⊢
  split
  · rename_i marker
    rw [if_pos marker] at justified
    exact nullable justified
  · rename_i real
    rw [if_neg real] at justified
    exact first _ justified

theorem terminal_ne_epsilon_of_isEpsilon {entry : LookaheadEntry} (isToken : entry.isEpsilon = false) :
    entry.terminal ≠ .epsilon := by
  intro marker
  rw [LookaheadEntry.isEpsilon, LookaheadEntry.spelling, marker] at isToken
  cases isToken

/-- What is found in a pattern is justified by the pattern. -/
theorem Finds.justified {analysis : Analysis} {unentered : List Production}
    (declared : unentered ⊆ analysis.grammar.productions) {owner : String} {pattern : Pattern}
    {entry : LookaheadEntry} (finds : analysis.Finds unentered owner pattern entry) :
    analysis.Justified unentered pattern entry := by
  induction finds with
  | @leaf owner leaf =>
      rw [Justified]
      split
      · rename_i marker
        exact (show leaf = .epsilon from marker) ▸ .marker
      · rename_i real
        exact .leaf real
  | rule enters _ inductionHypothesis => exact inductionHypothesis.lift (.rule (declared enters)) fun _ => .rule enters
  | head isToken _ inductionHypothesis =>
      have real := terminal_ne_epsilon_of_isEpsilon isToken
      exact .of_first real (.head (inductionHypothesis.first real))
  | later nullable isToken _ inductionHypothesis =>
      have real := terminal_ne_epsilon_of_isEpsilon isToken
      exact .of_first real (.later ((analysis.isNullable_iff _).mp nullable) (inductionHypothesis.first real))
  | noFactor nullable =>
      apply Justified.of_derives
      apply Grammar.derives_nil_of_all
      intro factor member
      exact (analysis.isNullable_iff factor).mp (List.all_eq_true.mp nullable factor member)
  | alternative member _ inductionHypothesis =>
      exact inductionHypothesis.lift (.alternative member) fun _ => .alternative member
  | noAlternative member nullable => exact .of_derives (.alternative member ((analysis.isNullable_iff _).mp nullable))
  | content _ inductionHypothesis => exact inductionHypothesis.lift (fun _ => .absent) fun _ => .content
  | noContent => exact .of_derives .absent

end Analysis

/-! ## Findings are complete -/

namespace Exploration

/-- Every leaf that the pattern can begin with is among the findings. -/
def Covers (grammar : Grammar) (unentered : List Production) (found : Lookahead)
    (pattern : Pattern) : Prop :=
  ∀ leaf, leaf.spelling ≠ Terminal.epsilonText -> grammar.FirstWithin unentered pattern leaf ->
    leaf.spelling ∈ found.spellings

/-- The findings of a walk cover its pattern and all productions that it entered. -/
structure Complete (grammar : Grammar) {unentered : List Production} (walk : Exploration unentered)
    (pattern : Pattern) : Prop where
  pattern : Covers grammar unentered walk.found pattern
  /-- What was entered is covered. -/
  entered : ∀ production ∈ unentered, production ∉ walk.remaining ->
    Covers grammar unentered walk.found production.root

variable {grammar : Grammar} {unentered : List Production}

/-- A walk that enters no rule is complete as soon as it covers its pattern. -/
theorem complete_still {found : Lookahead} {pattern : Pattern} (covers : Covers grammar unentered found pattern) :
    Complete grammar (still found : Exploration unentered) pattern where
  pattern := covers
  entered _ member gone := absurd member gone

/-- A walk stays complete if its table keeps its spellings. -/
theorem Complete.mapFound {walk : Exploration unentered} {part whole : Pattern}
    (complete : Complete grammar walk part) {change : Lookahead -> Lookahead}
    (keeps : ∀ spelling, spelling ≠ Terminal.epsilonText -> spelling ∈ walk.found.spellings ->
      spelling ∈ (change walk.found).spellings)
    (narrows : ∀ leaf, grammar.FirstWithin unentered whole leaf -> grammar.FirstWithin unentered part leaf) :
    Complete grammar (walk.mapFound change) whole where
  pattern leaf real first := keeps _ real (complete.pattern leaf real (narrows leaf first))
  entered production member gone leaf real first :=
    keeps _ real (complete.entered production member gone leaf real first)

theorem Complete.withoutEpsilon {walk : Exploration unentered} {part whole : Pattern}
    (complete : Complete grammar walk part)
    (narrows : ∀ leaf, grammar.FirstWithin unentered whole leaf -> grammar.FirstWithin unentered part leaf) :
    Complete grammar (walk.mapFound (·.withoutEpsilon)) whole := by
  refine complete.mapFound (fun spelling real member => ?_) narrows
  rcases List.mem_map.mp member with ⟨entry, found, rfl⟩
  have isToken : entry.isEpsilon = false := beq_eq_false_iff_ne.mpr real
  exact List.mem_map.mpr ⟨entry, Lookahead.mem_withoutEpsilon.mpr ⟨found, isToken⟩, rfl⟩

theorem Complete.marked {walk : Exploration unentered} {part whole : Pattern} {marks : Bool} {marker : LookaheadEntry}
    (complete : Complete grammar walk part)
    (narrows : ∀ leaf, grammar.FirstWithin unentered whole leaf -> grammar.FirstWithin unentered part leaf) :
    Complete grammar (walk.mapFound fun table => if marks then table.merge (.single marker) else table) whole :=
  complete.mapFound (fun _ _ member => Lookahead.spellings_subset_marked _ _ _ member) narrows

theorem Complete.towards_marked {walk : Exploration unentered} {part branch : Pattern} {marks : Bool}
    {marker : LookaheadEntry} (complete : Complete grammar walk part) :
    Complete grammar (walk.mapFound fun table =>
      if marks then (table.towards branch).merge (.single marker) else table.towards branch) part := by
  refine complete.mapFound (fun spelling _ member => ?_) fun _ => id
  rw [← Lookahead.spellings_towards branch] at member
  exact Lookahead.spellings_subset_marked _ _ _ member

/-- What can be found before the first of two walks is found by one of them, if the
second would find it with the rules that the first left to it. -/
private theorem covers_both {first : Exploration unentered} {later : Exploration first.remaining}
    {part other : Pattern} (firstComplete : Complete grammar first part)
    (covers : Covers grammar first.remaining later.found other) :
    Covers grammar unentered (first.found.merge later.found) other := by
  intro leaf real found
  apply Lookahead.mem_spellings_merge.mpr
  rcases found.within_or_afresh first.remaining with within | ⟨production, member, gone, afresh⟩
  · exact Or.inr (covers leaf real within)
  · have wider := afresh.mono first.shrinks.subset
    exact Or.inl (firstComplete.entered production member gone leaf real wider)

/-- Two walks one after the other, where the second may not enter what the first
has entered. -/
theorem Complete.andThen {first : Exploration unentered} {later : Exploration first.remaining}
    {part other whole : Pattern} (firstComplete : Complete grammar first part)
    (laterComplete : Complete grammar later other)
    (splits : ∀ leaf, grammar.FirstWithin unentered whole leaf ->
      grammar.FirstWithin unentered part leaf ∨ grammar.FirstWithin unentered other leaf) :
    Complete grammar ⟨first.found.merge later.found, later.remaining, later.shrinks.trans first.shrinks⟩
      whole where
  pattern leaf real found := by
    rcases splits leaf found with early | late
    · exact Lookahead.mem_spellings_merge.mpr (Or.inl (firstComplete.pattern leaf real early))
    · exact covers_both firstComplete laterComplete.pattern leaf real late
  entered production member gone := by
    by_cases left : production ∈ first.remaining
    · exact covers_both firstComplete (laterComplete.entered production left gone)
    · intro leaf real found
      exact Lookahead.mem_spellings_merge.mpr
        (Or.inl (firstComplete.entered production member left leaf real found))

/-- Entering a production from a walk that could not enter it again. -/
private theorem covers_of_entering {production : Production} {fewer : List Production}
    {inside : Exploration fewer}
    (only : ∀ other ∈ unentered, other ∉ fewer -> other = production) {found : Lookahead}
    (same : found.spellings = inside.found.spellings) {pattern : Pattern}
    (complete : Complete grammar inside production.root)
    (covers : Covers grammar fewer inside.found pattern) : Covers grammar unentered found pattern := by
  intro leaf real first
  rw [same]
  rcases first.within_or_afresh fewer with within | ⟨other, member, gone, afresh⟩
  · exact covers leaf real within
  · rw [only other member gone] at afresh
    exact complete.pattern leaf real afresh

end Exploration

namespace Analysis

open Exploration

/-- Entering a rule takes nothing but its production from what can be entered. -/
private theorem eq_of_not_mem_eraseP {grammar : Grammar} {unentered : List Production}
    (declared : unentered ⊆ grammar.productions) {production : Production} (enters : production ∈ unentered) :
    ∀ other ∈ unentered, other ∉ unentered.eraseP (·.name == production.name) -> other = production := by
  intro other member gone
  by_contra different
  have kept : other ∈ unentered.eraseP (·.name == production.name) ↔ other ∈ unentered := by
    apply List.mem_eraseP_of_neg
    intro same
    exact different (Grammar.production_eq_of_name (declared member) (declared enters) (beq_iff_eq.mp same))
  exact gone (kept.mpr member)

/-- A rule that was entered before adds nothing, but it cannot be entered again either. -/
theorem complete_of_entered (analysis : Analysis) (owner : String) {unentered : List Production} {rule : String}
    (entered : unentered.find? (·.name == rule) = none) :
    Complete analysis.grammar (analysis.explore owner unentered (.reference rule)) (.reference rule) := by
  rw [explore_reference_of_none analysis owner entered]
  refine complete_still fun leaf real first => ?_
  cases first with
  | rule enters _ => simpa using List.find?_eq_none.mp entered _ enters

theorem complete_of_enters (analysis : Analysis) (owner : String) {unentered : List Production}
    (declared : unentered ⊆ analysis.grammar.productions) {rule : String} {production : Production}
    (found : unentered.find? (·.name == rule) = some production)
    (inside : Complete analysis.grammar
      (analysis.explore production.name (unentered.eraseP (·.name == rule)) production.root) production.root) :
    Complete analysis.grammar (analysis.explore owner unentered (.reference rule)) (.reference rule) := by
  have enters := List.mem_of_find?_eq_some found
  have sameName : production.name = rule := by simpa using List.find?_some found
  subst sameName
  have only := eq_of_not_mem_eraseP declared enters
  rcases explore_reference_of_some analysis owner found with ⟨table, remaining⟩
  have same := (congrArg Lookahead.spellings table).trans (Lookahead.spellings_towards _ _)
  have root := covers_of_entering only same inside inside.pattern
  constructor
  · intro leaf real first
    rcases first.exists_production with ⟨other, otherEnters, sameName, first⟩
    rw [Grammar.production_eq_of_name (declared otherEnters) (declared enters) sameName] at first
    exact root leaf real first
  · intro other member gone
    rw [remaining] at gone
    by_cases left : other ∈ unentered.eraseP (·.name == production.name)
    · exact covers_of_entering only same inside (inside.entered other left gone)
    · exact only other member left ▸ root

/-- Walks miss nothing. -/
theorem complete_of_walks (analysis : Analysis) :
    (∀ owner unentered pattern, unentered ⊆ analysis.grammar.productions ->
      Complete analysis.grammar (analysis.explore owner unentered pattern) pattern) ∧
    (∀ owner unentered alternatives, unentered ⊆ analysis.grammar.productions ->
      Complete analysis.grammar (analysis.exploreAlternatives owner unentered alternatives)
        (.choice alternatives)) ∧
    (∀ owner unentered factors, unentered ⊆ analysis.grammar.productions ->
      Complete analysis.grammar (analysis.exploreLeading owner unentered factors) (.sequence factors)) := by
  refine explore.mutual_induct analysis _ _ _ ?terminal ?entered ?enters ?sequence ?choice ?optional
    ?noAlternative ?alternative ?noFactor ?nullableFactor ?lastFactor
  case terminal =>
    intro owner unentered leaf _declared
    rw [explore]
    refine complete_still fun found real first => ?_
    cases first
    exact List.mem_singleton.mpr rfl
  case entered =>
    intro owner unentered rule entered _declared
    exact analysis.complete_of_entered owner entered
  case enters =>
    intro owner unentered rule production found _ inductionHypothesis declared
    have fewer : unentered.eraseP (·.name == rule) ⊆ unentered := List.eraseP_subset
    exact analysis.complete_of_enters owner declared found (inductionHypothesis (List.Subset.trans fewer declared))
  case sequence =>
    intro owner unentered factors inductionHypothesis declared
    rw [explore]
    exact (inductionHypothesis declared).marked fun leaf => id
  case choice =>
    intro owner unentered alternatives inductionHypothesis declared
    rw [explore]
    exact inductionHypothesis declared
  case optional =>
    intro owner unentered content inductionHypothesis declared
    rw [explore]
    refine (inductionHypothesis declared).mapFound (fun spelling _ member => ?_) fun leaf first => ?_
    · rw [← Lookahead.spellings_towards content] at member
      exact Lookahead.mem_spellings_merge.mpr (Or.inl member)
    · cases first with
      | content taken => exact taken
  case noAlternative =>
    intro owner unentered _declared
    rw [exploreAlternatives]
    refine complete_still fun leaf real first => ?_
    cases first with
    | alternative member _ => cases member
  case alternative =>
    intro owner unentered alternative rest first firstHypothesis laterHypothesis _ declared
    rw [exploreAlternatives]
    have own : Complete analysis.grammar first alternative := (firstHypothesis declared).towards_marked
    refine own.andThen (laterHypothesis (List.Subset.trans first.shrinks.subset declared)) fun leaf found => ?_
    cases found with
    | alternative member taken =>
        rcases List.mem_cons.mp member with rfl | later
        · exact Or.inl taken
        · exact Or.inr (.alternative later taken)
  case noFactor =>
    intro owner unentered _declared
    rw [exploreLeading]
    refine complete_still fun leaf real first => ?_
    cases first
  case nullableFactor =>
    intro owner unentered factor rest first nullable firstHypothesis laterHypothesis _ declared
    rw [exploreLeading, if_pos nullable]
    have own : Complete analysis.grammar first factor := (firstHypothesis declared).withoutEpsilon fun leaf => id
    refine own.andThen (laterHypothesis (List.Subset.trans first.shrinks.subset declared)) fun leaf found => ?_
    cases found with
    | head early => exact Or.inl early
    | later _ remaining => exact Or.inr remaining
  case lastFactor =>
    intro owner unentered factor rest notNullable firstHypothesis declared
    rw [exploreLeading, if_neg notNullable]
    refine (firstHypothesis declared).withoutEpsilon fun leaf found => ?_
    cases found with
    | head early => exact early
    | later nullable _ => exact absurd ((analysis.isNullable_iff factor).mpr nullable) notNullable

end Analysis
end PredictiveParsing
