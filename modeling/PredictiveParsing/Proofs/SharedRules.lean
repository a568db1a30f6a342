import PredictiveParsing.Proofs.Correspondence
import PredictiveParsing.Proofs.RoutineCalls

namespace PredictiveParsing

/-!
# Rules that grammars share

Another grammar that contains the productions that references lead to from a rule finds
out the same about the rule, whatever else it declares and in whatever order.  The
nullable rules come from rounds over all rules, which differ between the grammars, but
what they say about the shared rules is what can be derived.  So the grammars correspond
on these rules, and no class gets another name.
-/

namespace Grammar

/-- Whether references lead from one rule to another through right-hand sides of the
grammar. -/
inductive LeadsTo (grammar : Grammar) (rule : String) : String -> Prop where
  | here : LeadsTo grammar rule rule
  | further {production : Production} {other : String} (leads : LeadsTo grammar rule production.name)
      (declared : production ∈ grammar.productions) (reference : other ∈ production.root.references) :
      LeadsTo grammar rule other

/-- Whether grammars have the same productions for the given rules, which refer to no
other rules. -/
def Share (rules : String -> Prop) (first second : Grammar) : Prop :=
  ∀ rule, rules rule -> ∃ production, production.name = rule ∧ production ∈ first.productions ∧
    production ∈ second.productions ∧ ∀ other ∈ production.root.references, rules other

variable {first second : Grammar} {rules : String -> Prop}

theorem Share.symm (shared : Share rules first second) : Share rules second first := by
  intro rule isShared
  rcases shared rule isShared with ⟨production, named, inFirst, inSecond, closed⟩
  exact ⟨production, named, inSecond, inFirst, closed⟩

/-- A production of a shared rule is shared. -/
theorem Share.of_mem (shared : Share rules first second) {production : Production}
    (declared : production ∈ first.productions) (isShared : rules production.name) :
    production ∈ second.productions ∧ ∀ other ∈ production.root.references, rules other := by
  rcases shared production.name isShared with ⟨other, named, inFirst, inSecond, closed⟩
  cases production_eq_of_name inFirst declared named
  exact ⟨inSecond, closed⟩

/-- Grammars share the rules that references lead to from a rule, if the second contains
the productions of these. -/
theorem share_of_leadsTo {rule : String} (declared : rule ∈ first.names)
    (contained : ∀ production ∈ first.productions, first.LeadsTo rule production.name ->
      production ∈ second.productions) : Share (first.LeadsTo rule) first second := by
  intro other leads
  have known : other ∈ first.names := by
    cases leads with
    | here => exact declared
    | further _ owner reference => exact references_subset_names owner reference
  rcases exists_production_of_mem_names known with ⟨production, member, rfl⟩
  exact ⟨production, rfl, member, contained production member leads,
    fun next reference => .further leads member reference⟩

/-! ## Nullable patterns -/

/-- A pattern over shared rules derives the same sentences in both grammars. -/
theorem Share.derives (shared : Share rules first second) {pattern : Pattern} {sentence : List Terminal}
    (derives : first.Derives pattern sentence) (within : ∀ rule ∈ pattern.references, rules rule) :
    second.Derives pattern sentence := by
  induction derives with
  | marker => exact .marker
  | leaf real => exact .leaf real
  | rule declared _ inductionHypothesis =>
      rcases shared.of_mem declared (within _ List.mem_cons_self) with ⟨inSecond, closed⟩
      exact .rule inSecond (inductionHypothesis closed)
  | noFactors => exact .noFactors
  | factor _ _ firstHypothesis laterHypothesis =>
      rcases List.forall_mem_append.mp within with ⟨ofFactor, ofRest⟩
      exact .factor (firstHypothesis ofFactor) (laterHypothesis ofRest)
  | @alternative alternative alternatives _ member _ inductionHypothesis =>
      have part : alternative.references ⊆ (Pattern.choice alternatives).references :=
        Pattern.references_subset_of_mem_selectable member
      exact .alternative member (inductionHypothesis fun rule reference => within rule (part reference))
  | absent => exact .absent
  | present _ inductionHypothesis => exact .present (inductionHypothesis within)

theorem Share.isNullable_eq (shared : Share rules first second) {pattern : Pattern}
    (within : ∀ rule ∈ pattern.references, rules rule) :
    first.analysis.isNullable pattern = second.analysis.isNullable pattern := by
  rw [Bool.eq_iff_iff, Analysis.isNullable_iff, Analysis.isNullable_iff]
  exact ⟨fun derives => shared.derives derives within, fun derives => shared.symm.derives derives within⟩

/-! ## Tables -/

/-- Grammars that share rules correspond on them, all classes keeping their names. -/
def Share.correspondence (shared : Share rules first second) (leaves : List Terminal) : Correspondence where
  first := first
  second := second
  rules := rules
  rename := id
  leaves := first.leaves ++ leaves
  contained := List.subset_append_left _ _
  keeps := Terminal.keepsSpellings_id _
  isNullable_eq pattern within := by rw [Pattern.renameClasses_id, shared.isNullable_eq within]
  find?_eq rule isShared := by
    rcases shared rule isShared with ⟨production, rfl, inFirst, inSecond, _⟩
    rw [find?_productions inFirst, find?_productions inSecond, Option.map_some, Production.renameClasses,
      Pattern.renameClasses_id]
  closed _ declared isShared := (shared.of_mem declared isShared).2

/-- A pattern over shared rules has the same table in both grammars. -/
theorem Share.lookaheadOf_eq (shared : Share rules first second) (owner : String) {pattern : Pattern}
    (within : ∀ rule ∈ pattern.references, rules rule) :
    first.analysis.lookaheadOf owner pattern = second.analysis.lookaheadOf owner pattern := by
  have tables : Lookahead.RenamesTo (first.leaves ++ pattern.leaves) id (first.analysis.lookaheadOf owner pattern)
      (second.analysis.lookaheadOf owner (pattern.renameClasses id)) :=
    (shared.correspondence pattern.leaves).lookaheadOf owner ⟨List.subset_append_right _ _, within⟩
  rw [Pattern.renameClasses_id] at tables
  exact tables.eq_of_id.symm

/-! ## Plans and routines -/

/-- A pattern over shared rules has the same plan in both grammars. -/
theorem Share.plan_eq (shared : Share rules first second) (owner : String) {pattern : Pattern}
    (within : ∀ rule ∈ pattern.references, rules rule) :
    first.analysis.plan owner pattern = second.analysis.plan owner pattern := by
  have plans : second.analysis.plan owner (pattern.renameClasses id) =
      (first.analysis.plan owner pattern).renameClasses id :=
    (shared.correspondence pattern.leaves).plan_eq owner ⟨List.subset_append_right _ _, within⟩
  rw [Pattern.renameClasses_id, Step.renameClasses_id] at plans
  exact plans.symm

/-- A shared rule is written as the same routine, or refused for the same reason, where
its source text is the same. -/
theorem Share.routine_eq (shared : Share rules first second) (settings : Settings) {production : Production}
    (declared : production ∈ first.productions) (isShared : rules production.name)
    (written : first.analysis.sourceOf production = second.analysis.sourceOf production) :
    first.analysis.routine settings production = second.analysis.routine settings production := by
  rcases shared.of_mem declared isShared with ⟨inSecond, closed⟩
  have planned : production.root.factors.map (first.analysis.plan production.name) =
      production.root.factors.map (second.analysis.plan production.name) := by
    refine List.map_congr_left fun factor member => shared.plan_eq _ fun rule reference => closed rule ?_
    exact Pattern.references_subset_of_mem_factors member reference
  rw [Analysis.routine_of_mem first.analysis settings declared, Analysis.routine_of_mem second.analysis settings inSecond,
    planned, Analysis.routineBody, Analysis.routineBody, written]

/-- A rule whose production, with all productions that references lead to from there, is
contained in another grammar is nullable in both grammars or in neither, has the same
table in both, and is written as the same routine where its source text is the same. -/
theorem agree_on_rule {rule : String} (declared : rule ∈ first.names)
    (contained : ∀ production ∈ first.productions, first.LeadsTo rule production.name ->
      production ∈ second.productions) :
    (rule ∈ first.nullableRules ↔ rule ∈ second.nullableRules) ∧
      (∃ table, first.analysis.lookahead? rule = some table ∧ second.analysis.lookahead? rule = some table) ∧
      ∃ production, production.name = rule ∧ production ∈ first.productions ∧ production ∈ second.productions ∧
        ((first.find? rule).map (·.written) = (second.find? rule).map (·.written) -> ∀ settings,
          first.analysis.routine settings production = second.analysis.routine settings production) := by
  have shared := share_of_leadsTo declared contained
  rcases shared rule .here with ⟨production, rfl, inFirst, inSecond, closed⟩
  refine ⟨?_, ⟨_, Analysis.lookahead?_of_mem first.analysis inFirst, ?_⟩, production, rfl, inFirst, inSecond,
    fun sameText settings => shared.routine_eq settings inFirst .here ?_⟩
  · have ofReference : ∀ rule ∈ (Pattern.reference production.name).references, first.LeadsTo production.name rule :=
      List.forall_mem_singleton.mpr .here
    have nullable := shared.isNullable_eq ofReference
    rw [Analysis.isNullable, Analysis.isNullable, Pattern.isNullable, Pattern.isNullable, Bool.eq_iff_iff,
      List.contains_iff_mem, List.contains_iff_mem] at nullable
    exact nullable
  · rw [Analysis.lookahead?_of_mem second.analysis inSecond, shared.lookaheadOf_eq _ closed]
  · rcases exists_find?_of_mem inFirst with ⟨declaration, found, _⟩
    rcases exists_find?_of_mem inSecond with ⟨other, otherFound, _⟩
    rw [found, otherFound] at sameText
    dsimp only [Analysis.sourceOf, analysis]
    rw [found, otherFound]
    exact Option.some.inj sameText

/-- A list of items, and a rule that needs the list. -/
def itemsThenEnd : Grammar where
  declarations :=
    [⟨⟨"items", .choice [.sequence [.reference "item", .reference "items"], .epsilon]⟩, "item items | ¬"⟩,
      ⟨⟨"item", .literal "x"⟩, "\"x\""⟩,
      ⟨⟨"text", .sequence [.reference "items", .literal "end"]⟩, "items \"end\""⟩]
  nonempty := by decide
  distinct := by decide
  closed := by decide

/-- The same list after another rule of the name. -/
def startThenItem : Grammar where
  declarations :=
    [⟨⟨"text", .sequence [.tokenClass "start", .reference "item"]⟩, "<start> item"⟩,
      ⟨⟨"item", .literal "x"⟩, "\"x\""⟩,
      ⟨⟨"items", .choice [.sequence [.reference "item", .reference "items"], .epsilon]⟩, "item items | ¬"⟩]
  nonempty := by decide
  distinct := by decide
  closed := by decide

theorem agree_on_items :
    "items" ∈ itemsThenEnd.names ∧
      (∀ production ∈ itemsThenEnd.productions, itemsThenEnd.LeadsTo "items" production.name ->
        production ∈ startThenItem.productions) ∧
      ("items" ∈ itemsThenEnd.nullableRules ↔ "items" ∈ startThenItem.nullableRules) ∧
      (∃ table, itemsThenEnd.analysis.lookahead? "items" = some table ∧
        startThenItem.analysis.lookahead? "items" = some table) ∧
      ∃ production, production.name = "items" ∧ production ∈ itemsThenEnd.productions ∧
        production ∈ startThenItem.productions ∧ ∀ settings,
          itemsThenEnd.analysis.routine settings production = startThenItem.analysis.routine settings production := by
  have reached : ∀ other, itemsThenEnd.LeadsTo "items" other -> other ∈ ["items", "item"] := by
    intro other leads
    induction leads with
    | here => decide
    | further _ declared reference inductionHypothesis =>
        have closed : ∀ production ∈ itemsThenEnd.productions, production.name ∈ ["items", "item"] ->
            ∀ other ∈ production.root.references, other ∈ ["items", "item"] := by decide
        exact closed _ declared inductionHypothesis _ reference
  have known : ∀ production ∈ itemsThenEnd.productions, production.name ∈ ["items", "item"] ->
      production ∈ startThenItem.productions := by decide
  have contained (production : Production) (declared : production ∈ itemsThenEnd.productions)
      (leads : itemsThenEnd.LeadsTo "items" production.name) : production ∈ startThenItem.productions :=
    known production declared (reached _ leads)
  have declared : "items" ∈ itemsThenEnd.names := by decide
  rcases agree_on_rule declared contained with ⟨nullable, table, production, named, inFirst, inSecond, sameRoutine⟩
  exact ⟨declared, contained, nullable, table, production, named, inFirst, inSecond, sameRoutine (by decide)⟩

end Grammar
end PredictiveParsing
