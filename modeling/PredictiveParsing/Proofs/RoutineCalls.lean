import PredictiveParsing.Proofs.Lookahead
import PredictiveParsing.Proofs.ParserContents

namespace PredictiveParsing

/-!
# The calls in a routine

A plan calls no rules but those that its pattern refers to, whatever the lookahead
tables say: they choose among the alternatives and never leave the pattern.  The
statements written for a plan call these rules without arguments.  Apart from that
they take tokens and report mismatches, always in the same few ways.
-/

/-! ## Calls of plans -/

theorem Pattern.references_subset_of_mem_factors {pattern factor : Pattern} (member : factor ∈ pattern.factors) :
    factor.references ⊆ pattern.references := by
  cases pattern with
  | sequence factors => exact references_sequence_subset.mp (List.Subset.refl _) factor member
  | _ =>
      cases List.mem_singleton.mp member
      exact List.Subset.refl _

namespace Step

theorem callsOfAll_eq_flatMap (steps : List Step) : callsOfAll steps = steps.flatMap calls := by
  induction steps with
  | nil => rfl
  | cons step rest inductionHypothesis => rw [callsOfAll, inductionHypothesis, List.flatMap_cons]

theorem callsOfArms_eq_flatMap (arms : List (Terminal × List Step)) :
    callsOfArms arms = arms.flatMap fun arm => callsOfAll arm.2 := by
  induction arms with
  | nil => rfl
  | cons arm rest inductionHypothesis => rw [callsOfArms, inductionHypothesis, List.flatMap_cons]

theorem callsOfAll_subset {fewer more : List Step} (subset : fewer ⊆ more) : callsOfAll fewer ⊆ callsOfAll more := by
  rw [callsOfAll_eq_flatMap, callsOfAll_eq_flatMap]
  intro rule called
  rcases List.mem_flatMap.mp called with ⟨step, member, inStep⟩
  exact List.mem_flatMap.mpr ⟨step, subset member, inStep⟩

theorem leadingCalls_subset (steps : List Step) : leadingCalls steps ⊆ callsOfAll steps := by
  induction steps with
  | nil => exact List.nil_subset _
  | cons step rest inductionHypothesis =>
      cases step with
      | call rule => exact List.cons_subset_cons rule inductionHypothesis
      | _ => exact List.nil_subset _

theorem callsOfAll_body (step : Step) : callsOfAll step.body ⊆ step.calls := by
  cases step with
  | group steps => exact callsOfAll_subset (List.dropWhile_sublist isNothing).subset
  | nothing => exact List.nil_subset _
  | _ =>
      change callsOfAll [_] ⊆ _
      rw [callsOfAll_eq_flatMap, List.flatMap_singleton]
      exact List.Subset.refl _

/-- Leaving out the terminal that was seen leaves out no call. -/
theorem callsOfAll_afterSelection (acquisition : Acquisition) (seen : Terminal) (alternative : Step) :
    callsOfAll (alternative.afterSelection acquisition seen) = callsOfAll alternative.body := by
  rw [afterSelection]
  cases alternative.body with
  | nil => rfl
  | cons step rest =>
      cases step with
      | require leaf =>
          dsimp only
          split
          · cases acquisition <;> rfl
          · rfl
      | _ => rfl

end Step

namespace Analysis

/-- A selection calls nothing but what its branches call. -/
theorem calls_selection_subset (analysis : Analysis) (owner : String) (pattern : Pattern) (table : Lookahead)
    {rules : List String}
    (branches : ∀ entry ∈ table.tokenEntries, (analysis.plan owner entry.branch).calls ⊆ rules) :
    (analysis.selection owner pattern table).calls ⊆ rules := by
  rw [selection_eq, Step.calls, Step.callsOfArms_eq_flatMap]
  intro rule called
  rcases List.mem_flatMap.mp called with ⟨arm, member, inArm⟩
  rcases List.mem_map.mp member with ⟨entry, found, rfl⟩
  rw [Step.callsOfAll_afterSelection] at inArm
  exact branches entry found (Step.callsOfAll_body _ inArm)

/-- The plan of a selection by its own table calls nothing but what the parts call. -/
theorem calls_plan_of_selects (analysis : Analysis) (owner : String) {pattern : Pattern}
    (selects : pattern.selects = true)
    (parts : ∀ branch ∈ pattern.selectable, (analysis.plan owner branch).calls ⊆ branch.references) :
    (analysis.plan owner pattern).calls ⊆ pattern.references := by
  rw [plan_of_selects analysis owner pattern selects]
  apply calls_selection_subset
  intro entry member
  have taken := branch_mem_selectable analysis owner _ pattern selects entry member
  exact List.Subset.trans (parts entry.branch taken) (Pattern.references_subset_of_mem_selectable taken)

/-- A plan calls no rules but those that the pattern refers to. -/
theorem calls_plan_subset (analysis : Analysis) (owner : String) (pattern : Pattern) :
    (analysis.plan owner pattern).calls ⊆ pattern.references := by
  induction pattern using Pattern.inductionOnParts with
  | terminal leaf =>
      rw [plan]
      split <;> exact List.nil_subset _
  | reference rule =>
      rw [plan]
      exact List.Subset.refl _
  | sequence factors inductionHypothesis =>
      rw [plan_sequence, Step.calls, Step.callsOfAll_eq_flatMap, Pattern.references,
        Pattern.referencesOfAll_eq_flatMap, List.flatMap_map]
      intro rule called
      rcases List.mem_flatMap.mp called with ⟨factor, member, inFactor⟩
      exact List.mem_flatMap.mpr ⟨factor, member, inductionHypothesis factor member inFactor⟩
  | choice alternatives inductionHypothesis => exact analysis.calls_plan_of_selects owner rfl inductionHypothesis
  | optional content inductionHypothesis =>
      exact analysis.calls_plan_of_selects owner rfl (List.forall_mem_singleton.mpr inductionHypothesis)

/-- The plan for the routine of a declared production. -/
theorem routinePlan?_of_mem (analysis : Analysis) {production : Production}
    (declared : production ∈ analysis.grammar.productions) :
    analysis.routinePlan? production = some (production.root.factors.map (analysis.plan production.name)) := by
  rw [routinePlan?]
  split
  · rename_i selects
    have single : production.root.factors = [production.root] := by
      cases root : production.root with
      | sequence factors =>
          rw [root] at selects
          cases selects
      | _ => rfl
    rw [analysis.lookahead?_of_mem declared, single, Option.map_some, List.map_singleton,
      plan_of_selects analysis production.name _ selects]
  · rfl

theorem callsOfAll_plans_subset (analysis : Analysis) (owner : String) (pattern : Pattern) :
    Step.callsOfAll (pattern.factors.map (analysis.plan owner)) ⊆ pattern.references := by
  rw [Step.callsOfAll_eq_flatMap, List.flatMap_map]
  intro rule called
  rcases List.mem_flatMap.mp called with ⟨factor, member, inFactor⟩
  exact Pattern.references_subset_of_mem_factors member (analysis.calls_plan_subset owner factor inFactor)

/-- A declared production gets a routine unless its name is reserved: its plan is there, and
the rules called are declared. -/
theorem routine_of_mem (analysis : Analysis) (settings : Settings) {production : Production}
    (declared : production ∈ analysis.grammar.productions) :
    analysis.routine settings production =
      (refuseReserved settings production.name).map fun _ =>
        ⟨production.name, .rule, [], none, analysis.routineBody settings production
          (production.root.factors.map (analysis.plan production.name))⟩ := by
  have known : (Step.callsOfAll (production.root.factors.map (analysis.plan production.name))).find?
      (fun rule => !analysis.grammar.declares rule) = none := by
    apply List.find?_eq_none.mpr
    intro rule called
    have reference := analysis.callsOfAll_plans_subset production.name production.root called
    rw [Grammar.declares_iff.mpr (Grammar.references_subset_names declared reference)]
    exact Bool.false_ne_true
  rw [routine, analysis.routinePlan?_of_mem declared]
  dsimp only
  rw [known]
  cases refuseReserved settings production.name <;> rfl

end Analysis

/-! ## Calls of statements -/

structure Call where
  /-- The routine that is called. -/
  routine : String
  /-- The number of arguments. -/
  arguments : Nat
  /-- Whether what the routine returns is used. -/
  isValue : Bool
deriving DecidableEq

namespace Call

def ofRule (rule : String) : Call := ⟨rule, 0, false⟩

/-- The call that reports a mismatch. -/
def ofMismatch : Call := ⟨Support.expect, 2, false⟩

/-- The calls that rules make besides those of other rules. -/
def supporting : List Call :=
  [⟨Support.peek, 0, true⟩, ⟨Support.take, 0, true⟩, ⟨Support.take, 0, false⟩, ofMismatch]

end Call

namespace Expression

mutual

/-- The calls in an expression, from left to right. -/
def calls : Expression -> List Call
  | .text _ | .var _ | .argument _ => []
  | .call routine arguments => ⟨routine, arguments.length, true⟩ :: callsOfAll arguments
  | .field record _ => calls record
  | .equal left right | .different left right => calls left ++ calls right

def callsOfAll : List Expression -> List Call
  | [] => []
  | expression :: rest => calls expression ++ callsOfAll rest

end

end Expression

namespace Statement

mutual

/-- The calls in a statement, from left to right.  A mismatch is reported by a routine. -/
def calls : Statement -> List Call
  | .comment _ | .declare _ _ | .leave none | .primitive _ => []
  | .assign _ value | .leave (some value) => value.calls
  | .call routine arguments => ⟨routine, arguments.length, false⟩ :: Expression.callsOfAll arguments
  | .branch arms fallback => armsCalls arms ++ fallbackCalls fallback
  | .mismatch position _ => .ofMismatch :: position.calls

def blockCalls : List Statement -> List Call
  | [] => []
  | statement :: rest => calls statement ++ blockCalls rest

/-- The calls in arms, those in a condition before those in its statements. -/
def armsCalls : List (Expression × List Statement) -> List Call
  | [] => []
  | (condition, body) :: rest => condition.calls ++ blockCalls body ++ armsCalls rest

def fallbackCalls : Option (List Statement) -> List Call
  | none => []
  | some body => blockCalls body

end

theorem blockCalls_eq_flatMap (statements : List Statement) : blockCalls statements = statements.flatMap calls := by
  induction statements with
  | nil => rfl
  | cons statement rest inductionHypothesis => rw [blockCalls, inductionHypothesis, List.flatMap_cons]

theorem blockCalls_append (first second : List Statement) :
    blockCalls (first ++ second) = blockCalls first ++ blockCalls second := by
  rw [blockCalls_eq_flatMap, blockCalls_eq_flatMap, blockCalls_eq_flatMap, List.flatMap_append]

theorem blockCalls_drop_subset (statements : List Statement) (count : Nat) :
    blockCalls (statements.drop count) ⊆ blockCalls statements := by
  rw [blockCalls_eq_flatMap, blockCalls_eq_flatMap]
  intro call called
  rcases List.mem_flatMap.mp called with ⟨statement, member, inStatement⟩
  exact List.mem_flatMap.mpr ⟨statement, List.mem_of_mem_drop member, inStatement⟩

end Statement

/-! ## Calls of what is written for a plan -/

/-- Whether calls are those that rules make in support or calls of the given rules. -/
def Call.AreOfRules (rules : List String) (calls : List Call) : Prop :=
  ∀ call ∈ calls, call ∈ supporting ∨ ∃ rule ∈ rules, call = ofRule rule

namespace Call.AreOfRules

variable {rules more : List String} {calls others : List Call}

theorem mono (subset : rules ⊆ more) (areOfRules : AreOfRules rules calls) : AreOfRules more calls := by
  intro call member
  refine (areOfRules call member).imp_right ?_
  rintro ⟨rule, known, same⟩
  exact ⟨rule, subset known, same⟩

theorem append (ofCalls : AreOfRules rules calls) (ofOthers : AreOfRules rules others) :
    AreOfRules rules (calls ++ others) :=
  List.forall_mem_append.mpr ⟨ofCalls, ofOthers⟩

end Call.AreOfRules

namespace Step

open Statement (blockCalls armsCalls blockCalls_append blockCalls_drop_subset)

variable {settings : Settings} {rules : List String}

theorem areOfRules_acquireCode (acquisition : Acquisition) :
    Call.AreOfRules rules (acquireCode settings acquisition).calls := by
  intro call member
  cases acquisition <;> cases List.mem_singleton.mp member <;> exact Or.inl (by decide)

theorem areOfRules_mismatchCode (expected : String) :
    Call.AreOfRules rules (mismatchCode settings expected).calls := by
  intro call member
  cases List.mem_singleton.mp member
  exact Or.inl (by decide)

theorem calls_matchCode (leaf : Terminal) : (matchCode settings leaf).calls = [] := by
  cases leaf <;> rfl

theorem blockCalls_callCode (called : List String) : blockCalls (callCode called) = called.map .ofRule := by
  induction called with
  | nil => rfl
  | cons rule rest inductionHypothesis => exact congrArg (Call.ofRule rule :: ·) inductionHypothesis

theorem areOfRules_selectCode (acquisition : Acquisition) {arms : List (Expression × List Statement)}
    (ofArms : Call.AreOfRules rules (armsCalls arms)) (spellings : List String) (mayBeAbsent : Bool) :
    Call.AreOfRules rules (blockCalls (selectCode settings acquisition arms spellings mayBeAbsent)) := by
  have acquires : Call.AreOfRules rules (acquireCode settings acquisition).calls := areOfRules_acquireCode acquisition
  have reports : Call.AreOfRules rules (mismatchCode settings (",".intercalate spellings)).calls :=
    areOfRules_mismatchCode _
  unfold selectCode
  split
  · split
    · exact List.forall_mem_nil _
    · exact acquires.append (reports.append (List.forall_mem_nil _))
  · refine acquires.append (Call.AreOfRules.append (ofArms.append ?_) (List.forall_mem_nil _))
    split
    · exact List.forall_mem_nil _
    · exact reports.append (List.forall_mem_nil _)

mutual

/-- The statements written for steps call the rules that the steps call. -/
theorem areOfRules_code (settings : Settings) :
    ∀ steps : List Step, Call.AreOfRules (callsOfAll steps) (blockCalls (code settings steps))
  | [] => by
      rw [code]
      exact List.forall_mem_nil _
  | .nothing :: rest => by
      rw [code]
      exact areOfRules_code settings rest
  | .require leaf :: rest => by
      have later := areOfRules_code settings rest
      have folded : Call.AreOfRules (callsOfAll rest) (blockCalls (callCode (leadingCalls rest))) := by
        rw [blockCalls_callCode]
        intro call member
        rcases List.mem_map.mp member with ⟨rule, leading, rfl⟩
        exact Or.inr ⟨rule, leadingCalls_subset rest leading, rfl⟩
      have reports : Call.AreOfRules (callsOfAll rest) (mismatchCode settings leaf.spelling).calls :=
        areOfRules_mismatchCode _
      rw [code]
      refine (areOfRules_acquireCode .take).append (Call.AreOfRules.append ?_ ?_)
      · refine Call.AreOfRules.append ?_ (reports.append (List.forall_mem_nil _))
        rw [armsCalls, calls_matchCode]
        exact folded.append (List.forall_mem_nil _)
      · exact fun call member => later call (blockCalls_drop_subset _ _ member)
  | .call rule :: rest => by
      rw [code]
      have later := (areOfRules_code settings rest).mono (List.subset_cons_self rule _)
      exact List.forall_mem_cons.mpr ⟨Or.inr ⟨rule, List.mem_cons_self, rfl⟩, later⟩
  | .advance :: rest => by
      rw [code]
      exact List.forall_mem_cons.mpr ⟨Or.inl (by decide), areOfRules_code settings rest⟩
  | .group steps :: rest => by
      rw [code, blockCalls_append]
      exact ((areOfRules_code settings steps).mono (List.subset_append_left _ _)).append
        ((areOfRules_code settings rest).mono (List.subset_append_right _ _))
  | .select acquisition arms mayBeAbsent :: rest => by
      rw [code, blockCalls_append]
      have ofArms := (areOfRules_armsCode settings arms).mono (List.subset_append_left _ (callsOfAll rest))
      exact (areOfRules_selectCode acquisition ofArms _ mayBeAbsent).append
        ((areOfRules_code settings rest).mono (List.subset_append_right _ _))

theorem areOfRules_armsCode (settings : Settings) :
    ∀ arms : List (Terminal × List Step), Call.AreOfRules (callsOfArms arms) (armsCalls (armsCode settings arms))
  | [] => by
      rw [armsCode]
      exact List.forall_mem_nil _
  | (leaf, steps) :: rest => by
      rw [armsCode, armsCalls, calls_matchCode]
      exact ((areOfRules_code settings steps).mono (List.subset_append_left _ _)).append
        ((areOfRules_armsCode settings rest).mono (List.subset_append_right _ _))

end

end Step

/-- The routine of a rule makes the calls of its plan. -/
theorem Analysis.RoutineFor.areOfRules {analysis : Analysis} {settings : Settings} {production : Production}
    {routine : Routine} {steps : List Step} (routineFor : analysis.RoutineFor settings production routine steps) :
    Call.AreOfRules (Step.callsOfAll steps) (Statement.blockCalls routine.body) := by
  have ofSteps := Step.areOfRules_code settings steps
  rw [routineFor.written]
  change Call.AreOfRules _ (Statement.blockCalls (_ ++ Step.code settings steps))
  rw [Statement.blockCalls_append]
  split
  · exact ofSteps
  · exact ofSteps

end PredictiveParsing
