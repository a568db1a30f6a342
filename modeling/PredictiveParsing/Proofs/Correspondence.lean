import PredictiveParsing.Proofs.ClassRenaming

namespace PredictiveParsing

/-!
# Grammars that correspond on some rules

What is found out about a rule depends only on the right-hand sides that references
lead to from there.  A grammar that says about these rules what another grammar says,
with other names for the token classes, has the same tables and plans for them up to
these names, whatever else it declares and in whatever order.  Walks keep lists of all
rules that can be entered; these differ between the grammars, but not in what they say
about the rules in question.

Tables find their entries by spellings, so the new names may neither join nor part the
spellings of the terminals that are met.  A plan is the renamed plan because it follows
the tables and because a step that requires the terminal selected by is recognized by
the terminal, which keeps apart what its spelling keeps apart.
-/

/-- Two grammars, of which the second says about some rules what the first says about
them, with other names for the classes. -/
structure Correspondence where
  first : Grammar
  second : Grammar
  /-- The rules that the grammars correspond on. -/
  rules : String -> Prop
  rename : String -> String
  /-- The leaves that can be met, those of the first grammar among them. -/
  leaves : List Terminal
  contained : first.leaves ⊆ leaves
  keeps : Terminal.KeepsSpellings rename (.epsilon :: leaves)
  /-- Patterns over the rules can match nothing in both grammars or in neither. -/
  isNullable_eq : ∀ pattern : Pattern, (∀ rule ∈ pattern.references, rules rule) ->
    second.analysis.isNullable (pattern.renameClasses rename) = first.analysis.isNullable pattern
  /-- A rule is declared in both grammars, with the right-hand side renamed, or in neither. -/
  find?_eq : ∀ rule, rules rule -> second.productions.find? (·.name == rule) =
    (first.productions.find? (·.name == rule)).map (Production.renameClasses rename)
  /-- The rules refer to no other rules. -/
  closed : ∀ production ∈ first.productions, rules production.name -> ∀ rule ∈ production.root.references, rules rule

namespace Correspondence

variable (correspondence : Correspondence)

/-! ## Patterns -/

/-- Whether the pattern is made of the leaves that can be met and of the rules that the
grammars correspond on. -/
structure IsOver (pattern : Pattern) : Prop where
  leaves : pattern.leaves ⊆ correspondence.leaves
  rules : ∀ rule ∈ pattern.references, correspondence.rules rule

namespace IsOver

variable {correspondence} {pattern : Pattern}

theorem mem_leaves {leaf : Terminal} (isOver : correspondence.IsOver (.terminal leaf)) :
    leaf ∈ Terminal.epsilon :: correspondence.leaves := by
  by_cases marker : leaf = .epsilon
  · exact marker ▸ List.mem_cons_self
  · exact List.mem_cons_of_mem _ (isOver.leaves (Pattern.mem_leaves.mpr ⟨Pattern.mem_parts_self _, marker⟩))

theorem factor {factors : List Pattern} (isOver : correspondence.IsOver (.sequence factors)) :
    ∀ factor ∈ factors, correspondence.IsOver factor := fun factor member => ⟨
  Pattern.leaves_sequence_subset.mp isOver.leaves factor member, fun rule reference =>
    isOver.rules rule (Pattern.references_sequence_subset.mp (List.Subset.refl _) factor member reference)⟩

theorem selectable (isOver : correspondence.IsOver pattern) :
    ∀ branch ∈ pattern.selectable, correspondence.IsOver branch := fun _ member => ⟨
  List.Subset.trans (Pattern.leaves_subset_of_mem_selectable member) isOver.leaves, fun rule reference =>
    isOver.rules rule (Pattern.references_subset_of_mem_selectable member reference)⟩

theorem root {production : Production} (declared : production ∈ correspondence.first.productions)
    (isMet : correspondence.rules production.name) : correspondence.IsOver production.root where
  leaves := List.Subset.trans (Grammar.leaves_subset declared) correspondence.contained
  rules := correspondence.closed production declared isMet

theorem isNullable_eq (isOver : correspondence.IsOver pattern) :
    correspondence.second.analysis.isNullable (pattern.renameClasses correspondence.rename) =
      correspondence.first.analysis.isNullable pattern :=
  correspondence.isNullable_eq pattern isOver.rules

theorem all_isNullable_eq {factors : List Pattern} (isOver : correspondence.IsOver (.sequence factors)) :
    (factors.map (Pattern.renameClasses correspondence.rename)).all correspondence.second.analysis.isNullable =
      factors.all correspondence.first.analysis.isNullable := by
  rw [List.all_map, Bool.eq_iff_iff, List.all_eq_true, List.all_eq_true]
  refine forall₂_congr fun factor member => ?_
  rw [Function.comp_apply, (isOver.factor factor member).isNullable_eq]

end IsOver

/-! ## Rules that can be entered -/

/-- Whether the same of the rules can be entered in both grammars. -/
structure EnterAlike (unentered others : List Production) : Prop where
  /-- The productions belong to the first grammar. -/
  sublist : unentered.Sublist correspondence.first.productions
  /-- The other productions belong to the second grammar. -/
  othersSublist : others.Sublist correspondence.second.productions
  /-- A rule has corresponding productions in both lists or none. -/
  find?_eq : ∀ rule, correspondence.rules rule -> others.find? (·.name == rule) =
    (unentered.find? (·.name == rule)).map (Production.renameClasses correspondence.rename)

private theorem nodup_names_of_sublist {grammar : Grammar} {unentered : List Production}
    (sublist : unentered.Sublist grammar.productions) : (unentered.map (·.name)).Nodup :=
  (Grammar.nodup_names_productions grammar).sublist (sublist.map _)

private theorem find?_eraseP {productions : List Production} (distinct : (productions.map (·.name)).Nodup)
    (erased rule : String) :
    (productions.eraseP (·.name == erased)).find? (·.name == rule) =
      if rule = erased then none else productions.find? (·.name == rule) := by
  rw [Grammar.eraseP_eq_filter erased distinct, List.find?_filter]
  split
  · rename_i same
    apply List.find?_eq_none.mpr
    intro production _ found
    simp [same] at found
  · rename_i different
    congr 1
    funext production
    by_cases named : production.name = rule
    · simp [named, different]
    · simp [named]

namespace EnterAlike

variable {correspondence} {unentered others : List Production}

/-- All rules can be entered at first. -/
theorem all (correspondence : Correspondence) :
    correspondence.EnterAlike correspondence.first.productions correspondence.second.productions where
  sublist := List.Sublist.refl _
  othersSublist := List.Sublist.refl _
  find?_eq := correspondence.find?_eq

/-- After a rule was entered in both grammars it can be entered in neither. -/
theorem eraseP (alike : correspondence.EnterAlike unentered others) (erased : String) :
    correspondence.EnterAlike (unentered.eraseP (·.name == erased)) (others.eraseP (·.name == erased)) where
  sublist := List.eraseP_sublist.trans alike.sublist
  othersSublist := List.eraseP_sublist.trans alike.othersSublist
  find?_eq := by
    intro rule isMet
    rw [find?_eraseP (nodup_names_of_sublist alike.sublist),
      find?_eraseP (nodup_names_of_sublist alike.othersSublist), alike.find?_eq rule isMet]
    split <;> rfl

end EnterAlike

/-! ## Walks -/

/-- Whether walks in the two grammars find corresponding tables and leave the same of the
rules. -/
structure WalkAlike {unentered others : List Production} (walk : Exploration unentered)
    (other : Exploration others) : Prop where
  found : Lookahead.RenamesTo correspondence.leaves correspondence.rename walk.found other.found
  remaining : correspondence.EnterAlike walk.remaining other.remaining

/-- A reference leads into corresponding right-hand sides, or nowhere in both grammars. -/
theorem walkAlike_of_entered {unentered others : List Production} (alike : correspondence.EnterAlike unentered others)
    (owner : String) {rule : String} (isMet : correspondence.rules rule)
    (entered : unentered.find? (·.name == rule) = none) :
    correspondence.WalkAlike (correspondence.first.analysis.explore owner unentered (.reference rule))
      (correspondence.second.analysis.explore owner others (.reference rule)) := by
  have otherEntered : others.find? (·.name == rule) = none := by rw [alike.find?_eq rule isMet, entered, Option.map_none]
  rw [Analysis.explore_reference_of_none _ owner entered, Analysis.explore_reference_of_none _ owner otherEntered]
  exact ⟨.empty, alike⟩

theorem walkAlike_of_enters {unentered others : List Production} (alike : correspondence.EnterAlike unentered others)
    (owner : String) {rule : String} (isMet : correspondence.rules rule) {production : Production}
    (found : unentered.find? (·.name == rule) = some production)
    (inside : correspondence.WalkAlike
      (correspondence.first.analysis.explore production.name (unentered.eraseP (·.name == rule)) production.root)
      (correspondence.second.analysis.explore production.name (others.eraseP (·.name == rule))
        (production.root.renameClasses correspondence.rename))) :
    correspondence.WalkAlike (correspondence.first.analysis.explore owner unentered (.reference rule))
      (correspondence.second.analysis.explore owner others (.reference rule)) := by
  have otherFound : others.find? (·.name == rule) = some (production.renameClasses correspondence.rename) := by
    rw [alike.find?_eq rule isMet, found, Option.map_some]
  rcases Analysis.explore_reference_of_some correspondence.first.analysis owner found with ⟨table, remaining⟩
  rcases Analysis.explore_reference_of_some correspondence.second.analysis owner otherFound with
    ⟨otherTable, otherRemaining⟩
  constructor
  · rw [table, otherTable]
    exact inside.found.towards (.reference rule)
  · rw [remaining, otherRemaining]
    exact inside.remaining

/-- Walks into corresponding patterns go alike. -/
theorem walks :
    (∀ owner unentered (pattern : Pattern), correspondence.IsOver pattern ->
      ∀ others, correspondence.EnterAlike unentered others ->
        correspondence.WalkAlike (correspondence.first.analysis.explore owner unentered pattern)
          (correspondence.second.analysis.explore owner others (pattern.renameClasses correspondence.rename))) ∧
    (∀ owner unentered (alternatives : List Pattern),
      (∀ alternative ∈ alternatives, correspondence.IsOver alternative) ->
      ∀ others, correspondence.EnterAlike unentered others ->
        correspondence.WalkAlike (correspondence.first.analysis.exploreAlternatives owner unentered alternatives)
          (correspondence.second.analysis.exploreAlternatives owner others
            (alternatives.map (Pattern.renameClasses correspondence.rename)))) ∧
    (∀ owner unentered (factors : List Pattern), (∀ factor ∈ factors, correspondence.IsOver factor) ->
      ∀ others, correspondence.EnterAlike unentered others ->
        correspondence.WalkAlike (correspondence.first.analysis.exploreLeading owner unentered factors)
          (correspondence.second.analysis.exploreLeading owner others
            (factors.map (Pattern.renameClasses correspondence.rename)))) := by
  -- The lists of rules that can be entered are related and not equal, so the walk in the
  -- second grammar starts from any list that is known to be related.
  refine Analysis.explore.mutual_induct correspondence.first.analysis _ _ _ ?terminal ?entered ?enters ?sequence
    ?choice ?optional ?noAlternative ?alternative ?noFactor ?nullableFactor ?lastFactor
  case terminal =>
    intro owner unentered leaf isOver others alike
    rw [Analysis.explore, Pattern.renameClasses, Analysis.explore]
    exact ⟨.single isOver.mem_leaves, alike⟩
  case entered =>
    intro owner unentered rule entered isOver others alike
    exact correspondence.walkAlike_of_entered alike owner (isOver.rules rule List.mem_cons_self) entered
  case enters =>
    intro owner unentered rule production found _ inductionHypothesis isOver others alike
    have isMet := isOver.rules rule List.mem_cons_self
    have sameName : production.name = rule := by simpa using List.find?_some found
    have root := IsOver.root (alike.sublist.subset (List.mem_of_find?_eq_some found)) (sameName ▸ isMet)
    exact correspondence.walkAlike_of_enters alike owner isMet found (inductionHypothesis root _ (alike.eraseP rule))
  case sequence =>
    intro owner unentered factors inductionHypothesis isOver others alike
    have leading := inductionHypothesis isOver.factor others alike
    have nullable := isOver.all_isNullable_eq
    rw [Pattern.renameClasses_sequence, Analysis.explore, Analysis.explore]
    rw [← Pattern.renameClasses_sequence]
    exact ⟨leading.found.marked correspondence.keeps nullable owner (.sequence factors), leading.remaining⟩
  case choice =>
    intro owner unentered alternatives inductionHypothesis isOver others alike
    rw [Pattern.renameClasses_choice, Analysis.explore, Analysis.explore]
    exact inductionHypothesis isOver.selectable others alike
  case optional =>
    intro owner unentered content inductionHypothesis isOver others alike
    have inside := inductionHypothesis (isOver.selectable content List.mem_cons_self) others alike
    rw [Pattern.renameClasses, Analysis.explore, Analysis.explore]
    exact ⟨(inside.found.towards content).merge correspondence.keeps (.marker owner (.optional content)),
      inside.remaining⟩
  case noAlternative =>
    intro owner unentered _isOver others alike
    rw [List.map_nil, Analysis.exploreAlternatives, Analysis.exploreAlternatives]
    exact ⟨.empty, alike⟩
  case alternative =>
    intro owner unentered alternative rest first firstHypothesis laterHypothesis _ isOver others alike
    rcases List.forall_mem_cons.mp isOver with ⟨own, ofRest⟩
    have inside := firstHypothesis own others alike
    have later := laterHypothesis ofRest _ inside.remaining
    have marked := (inside.found.towards alternative).marked correspondence.keeps own.isNullable_eq owner alternative
    rw [List.map_cons, Analysis.exploreAlternatives, Analysis.exploreAlternatives]
    exact ⟨marked.merge correspondence.keeps later.found, later.remaining⟩
  case noFactor =>
    intro owner unentered _isOver others alike
    rw [List.map_nil, Analysis.exploreLeading, Analysis.exploreLeading]
    exact ⟨.empty, alike⟩
  case nullableFactor =>
    intro owner unentered factor rest first nullable firstHypothesis laterHypothesis _ isOver others alike
    rcases List.forall_mem_cons.mp isOver with ⟨own, ofRest⟩
    have inside := firstHypothesis own others alike
    have later := laterHypothesis ofRest _ inside.remaining
    rw [List.map_cons, Analysis.exploreLeading, Analysis.exploreLeading, own.isNullable_eq, if_pos nullable,
      if_pos nullable]
    exact ⟨(inside.found.withoutEpsilon correspondence.keeps).merge correspondence.keeps later.found, later.remaining⟩
  case lastFactor =>
    intro owner unentered factor rest notNullable firstHypothesis isOver others alike
    have own := isOver factor List.mem_cons_self
    have inside := firstHypothesis own others alike
    rw [List.map_cons, Analysis.exploreLeading, Analysis.exploreLeading, own.isNullable_eq, if_neg notNullable,
      if_neg notNullable]
    exact ⟨inside.found.withoutEpsilon correspondence.keeps, inside.remaining⟩

/-- Corresponding patterns have corresponding tables. -/
theorem lookaheadOf (owner : String) {pattern : Pattern} (isOver : correspondence.IsOver pattern) :
    Lookahead.RenamesTo correspondence.leaves correspondence.rename
      (correspondence.first.analysis.lookaheadOf owner pattern)
      (correspondence.second.analysis.lookaheadOf owner (pattern.renameClasses correspondence.rename)) :=
  (correspondence.walks.1 owner _ pattern isOver _ ((EnterAlike.all correspondence).eraseP owner)).found

end Correspondence

/-! ## Plans -/

namespace Step

mutual

/-- The step with other names for the classes in it. -/
def renameClasses (rename : String -> String) : Step -> Step
  | .nothing => .nothing
  | .require leaf => .require (leaf.renameClass rename)
  | .call rule => .call rule
  | .advance => .advance
  | .group steps => .group (renameClassesOfAll rename steps)
  | .select acquisition arms mayBeAbsent => .select acquisition (renameClassesOfArms rename arms) mayBeAbsent

def renameClassesOfAll (rename : String -> String) : List Step -> List Step
  | [] => []
  | step :: rest => renameClasses rename step :: renameClassesOfAll rename rest

def renameClassesOfArms (rename : String -> String) : List (Terminal × List Step) -> List (Terminal × List Step)
  | [] => []
  | (leaf, steps) :: rest =>
      (leaf.renameClass rename, renameClassesOfAll rename steps) :: renameClassesOfArms rename rest

end

variable (rename : String -> String)

theorem renameClassesOfAll_eq_map (steps : List Step) :
    renameClassesOfAll rename steps = steps.map (renameClasses rename) := by
  induction steps with
  | nil => rfl
  | cons step rest inductionHypothesis => rw [renameClassesOfAll, inductionHypothesis, List.map_cons]

theorem renameClassesOfArms_eq_map (arms : List (Terminal × List Step)) :
    renameClassesOfArms rename arms =
      arms.map fun arm => (arm.1.renameClass rename, renameClassesOfAll rename arm.2) := by
  induction arms with
  | nil => rfl
  | cons arm rest inductionHypothesis => rw [renameClassesOfArms, inductionHypothesis, List.map_cons]

theorem isNothing_renameClasses (step : Step) : (step.renameClasses rename).isNothing = step.isNothing := by
  cases step <;> rfl

theorem body_renameClasses (step : Step) :
    (step.renameClasses rename).body = renameClassesOfAll rename step.body := by
  cases step with
  | group steps =>
      rw [renameClasses, body, body, renameClassesOfAll_eq_map, renameClassesOfAll_eq_map, List.dropWhile_map]
      exact congrArg (fun isNothing => (steps.dropWhile isNothing).map (renameClasses rename))
        (funext (isNothing_renameClasses rename))
  | _ => rfl

/-- A step that requires the terminal selected by is recognized after renaming where it
was before. -/
theorem afterSelection_renameClasses (acquisition : Acquisition) {seen : Terminal} {alternative : Step}
    (apart : ∀ leaf, .require leaf ∈ alternative.body ->
      (leaf.renameClass rename = seen.renameClass rename ↔ leaf = seen)) :
    (alternative.renameClasses rename).afterSelection acquisition (seen.renameClass rename) =
      renameClassesOfAll rename (alternative.afterSelection acquisition seen) := by
  rw [afterSelection, afterSelection, body_renameClasses]
  cases steps : alternative.body with
  | nil => rfl
  | cons step rest =>
      cases step with
      | require leaf =>
          have same := apart leaf (steps ▸ List.mem_cons_self)
          simp only [renameClassesOfAll, renameClasses, same]
          split
          · cases acquisition <;> rfl
          · rfl
      | _ => rfl

mutual

/-- Classes that keep their names change nothing. -/
theorem renameClasses_id : ∀ step : Step, step.renameClasses id = step
  | .nothing => rfl
  | .require leaf => congrArg Step.require leaf.renameClass_id
  | .call _ => rfl
  | .advance => rfl
  | .group steps => congrArg Step.group (renameClassesOfAll_id steps)
  | .select acquisition arms mayBeAbsent =>
      congrArg (fun renamed => Step.select acquisition renamed mayBeAbsent) (renameClassesOfArms_id arms)

theorem renameClassesOfAll_id : ∀ steps : List Step, renameClassesOfAll id steps = steps
  | [] => rfl
  | step :: rest => congrArg₂ List.cons (renameClasses_id step) (renameClassesOfAll_id rest)

theorem renameClassesOfArms_id : ∀ arms : List (Terminal × List Step), renameClassesOfArms id arms = arms
  | [] => rfl
  | (leaf, steps) :: rest =>
      congrArg₂ List.cons (congrArg₂ Prod.mk leaf.renameClass_id (renameClassesOfAll_id steps))
        (renameClassesOfArms_id rest)

end

mutual

theorem calls_renameClasses : ∀ step : Step, (step.renameClasses rename).calls = step.calls
  | .nothing => rfl
  | .require _ => rfl
  | .call _ => rfl
  | .advance => rfl
  | .group steps => callsOfAll_renameClasses steps
  | .select _ arms _ => callsOfArms_renameClasses arms

theorem callsOfAll_renameClasses :
    ∀ steps : List Step, callsOfAll (renameClassesOfAll rename steps) = callsOfAll steps
  | [] => rfl
  | step :: rest => by
      rw [renameClassesOfAll, callsOfAll, calls_renameClasses step, callsOfAll_renameClasses rest, callsOfAll]

theorem callsOfArms_renameClasses :
    ∀ arms : List (Terminal × List Step), callsOfArms (renameClassesOfArms rename arms) = callsOfArms arms
  | [] => rfl
  | (leaf, steps) :: rest => by
      rw [renameClassesOfArms, callsOfArms, callsOfAll_renameClasses steps, callsOfArms_renameClasses rest,
        callsOfArms]

end

theorem leadingCalls_renameClasses (steps : List Step) :
    leadingCalls (renameClassesOfAll rename steps) = leadingCalls steps := by
  induction steps with
  | nil => rfl
  | cons step rest inductionHypothesis =>
      cases step with
      | call rule => exact congrArg (rule :: ·) inductionHypothesis
      | _ => rfl

end Step

namespace Analysis

theorem mem_leaves_of_plan_eq_require (analysis : Analysis) (owner : String) {pattern : Pattern} {leaf : Terminal}
    (planned : analysis.plan owner pattern = .require leaf) : leaf ∈ pattern.leaves := by
  by_cases selects : pattern.selects = true
  · rw [plan_of_selects analysis owner pattern selects, selection_eq] at planned
    cases planned
  · cases pattern with
    | terminal other =>
        rw [plan] at planned
        split at planned
        · cases planned
        · rename_i real
          cases planned
          exact Pattern.mem_leaves.mpr ⟨Pattern.mem_parts_self _, real⟩
    | reference rule =>
        rw [plan] at planned
        cases planned
    | sequence factors =>
        rw [plan_sequence] at planned
        cases planned
    | choice alternatives => exact absurd rfl selects
    | optional content => exact absurd rfl selects

/-- What a plan requires at its start is a leaf of the pattern. -/
theorem mem_leaves_of_require_mem_body (analysis : Analysis) (owner : String) {pattern : Pattern} {leaf : Terminal}
    (required : .require leaf ∈ (analysis.plan owner pattern).body) : leaf ∈ pattern.leaves := by
  by_cases selects : pattern.selects = true
  · rw [plan_of_selects analysis owner pattern selects, selection_eq] at required
    cases List.mem_singleton.mp required
  · cases pattern with
    | terminal other =>
        rw [plan] at required
        split at required
        · cases required
        · rename_i real
          cases List.mem_singleton.mp required
          exact Pattern.mem_leaves.mpr ⟨Pattern.mem_parts_self _, real⟩
    | reference rule =>
        rw [plan] at required
        cases List.mem_singleton.mp required
    | sequence factors =>
        rw [plan_sequence] at required
        rcases List.mem_map.mp ((List.dropWhile_sublist _).subset required) with ⟨factor, member, same⟩
        have inFactor := analysis.mem_leaves_of_plan_eq_require owner same
        exact Pattern.leaves_subset_of_mem_innerParts (Pattern.factor_mem_innerParts member) inFactor
    | choice alternatives => exact absurd rfl selects
    | optional content => exact absurd rfl selects

theorem acquisitionFor_renameClasses (rename : String -> String) (pattern : Pattern) {table renamed : Lookahead}
    (admits : renamed.admitsNothing = table.admitsNothing) :
    acquisitionFor (pattern.renameClasses rename) renamed = acquisitionFor pattern table := by
  have leaves : (pattern.renameClasses rename).alternatives.all (·.firstLeaf?.isSome) =
      pattern.alternatives.all (·.firstLeaf?.isSome) := by
    rw [Pattern.alternatives_renameClasses, List.all_map]
    exact congrArg pattern.alternatives.all (funext (Pattern.isSome_firstLeaf?_renameClasses rename))
  rw [acquisitionFor, acquisitionFor, admits, Pattern.hasReference_renameClasses, leaves]

end Analysis

namespace Correspondence

variable (correspondence : Correspondence)

/-- A selection follows the renaming where the plans of its branches do. -/
theorem selection_eq (owner : String) (pattern : Pattern) {table others : Lookahead}
    (tables : Lookahead.RenamesTo correspondence.leaves correspondence.rename table others)
    (branches : ∀ entry ∈ table.tokenEntries, correspondence.IsOver entry.branch ∧
      correspondence.second.analysis.plan owner (entry.branch.renameClasses correspondence.rename) =
        (correspondence.first.analysis.plan owner entry.branch).renameClasses correspondence.rename) :
    correspondence.second.analysis.selection owner (pattern.renameClasses correspondence.rename) others =
      (correspondence.first.analysis.selection owner pattern table).renameClasses correspondence.rename := by
  have admits := tables.admitsNothing_eq correspondence.keeps
  rw [Analysis.selection_eq, Analysis.selection_eq, Step.renameClasses, Step.renameClassesOfArms_eq_map,
    Analysis.acquisitionFor_renameClasses correspondence.rename pattern admits, admits,
    tables.tokenEntries_eq correspondence.keeps, List.map_map, List.map_map]
  refine congrArg (fun arms => Step.select _ arms _) (List.map_congr_left fun entry member => ?_)
  rcases branches entry member with ⟨isOver, planned⟩
  have seen := tables.known entry (List.mem_filter.mp member).1
  refine congrArg (Prod.mk _) ?_
  change Step.afterSelection _ _
    (correspondence.second.analysis.plan owner (entry.branch.renameClasses correspondence.rename)) = _
  rw [planned]
  apply Step.afterSelection_renameClasses
  intro leaf required
  have inBranch := correspondence.first.analysis.mem_leaves_of_require_mem_body owner required
  exact correspondence.keeps.renameClass_inj (List.mem_cons_of_mem _ (isOver.leaves inBranch)) seen

/-- The plan of a selection follows the renaming where the plans of its parts do. -/
theorem plan_eq_of_selects (owner : String) {pattern : Pattern} (selects : pattern.selects = true)
    (isOver : correspondence.IsOver pattern)
    (branches : ∀ branch ∈ pattern.selectable, correspondence.IsOver branch ->
      correspondence.second.analysis.plan owner (branch.renameClasses correspondence.rename) =
        (correspondence.first.analysis.plan owner branch).renameClasses correspondence.rename) :
    correspondence.second.analysis.plan owner (pattern.renameClasses correspondence.rename) =
      (correspondence.first.analysis.plan owner pattern).renameClasses correspondence.rename := by
  rw [Analysis.plan_of_selects correspondence.first.analysis owner pattern selects,
    Analysis.plan_of_selects correspondence.second.analysis owner _ ((Pattern.selects_renameClasses _ pattern).trans selects)]
  refine correspondence.selection_eq owner pattern (correspondence.lookaheadOf owner isOver) fun entry member => ?_
  have taken := Analysis.branch_mem_selectable _ owner _ _ selects entry member
  have inner := isOver.selectable _ taken
  exact ⟨inner, branches _ taken inner⟩

/-- Corresponding patterns have corresponding plans. -/
theorem plan_eq (owner : String) {pattern : Pattern} (isOver : correspondence.IsOver pattern) :
    correspondence.second.analysis.plan owner (pattern.renameClasses correspondence.rename) =
      (correspondence.first.analysis.plan owner pattern).renameClasses correspondence.rename := by
  induction pattern using Pattern.inductionOnParts with
  | terminal leaf =>
      rw [Pattern.renameClasses, Analysis.plan, Analysis.plan]
      simp only [Terminal.renameClass_eq_epsilon]
      split <;> rfl
  | reference rule =>
      rw [Pattern.renameClasses, Analysis.plan, Analysis.plan]
      rfl
  | sequence factors inductionHypothesis =>
      rw [Pattern.renameClasses_sequence, Analysis.plan_sequence, Analysis.plan_sequence, Step.renameClasses,
        Step.renameClassesOfAll_eq_map, List.map_map, List.map_map]
      exact congrArg Step.group
        (List.map_congr_left fun factor member => inductionHypothesis factor member (isOver.factor factor member))
  | choice alternatives inductionHypothesis =>
      exact correspondence.plan_eq_of_selects owner rfl isOver inductionHypothesis
  | optional content inductionHypothesis =>
      refine correspondence.plan_eq_of_selects owner rfl isOver fun branch member inner => ?_
      cases List.mem_singleton.mp member
      exact inductionHypothesis inner

end Correspondence
end PredictiveParsing
