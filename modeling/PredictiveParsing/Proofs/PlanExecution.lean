import PredictiveParsing.Proofs.Lookahead
import PredictiveParsing.Proofs.StepExecution

namespace PredictiveParsing

/-!
# Following the plans of patterns

The plan of a pattern takes several short cuts.  It takes the token of a selection
away at once where every alternative begins with a leaf, it does not require the
leaf again that selected an alternative, and it leaves out epsilon markers.  None
of them changes what the plan does to the buffer: following it is the same as
looking at the next token, taking the alternative that the lookahead table names,
and following this alternative in full from its first factor.
-/

/-! ## Steps after a selection -/

namespace Step

variable {call : RuleCall}

theorem followAll_singleton (step : Step) (buffer : List TokenRecord) :
    followAll call [step] buffer = follow call step buffer := by
  rw [followAll]
  exact bind_pure (follow call step buffer)

theorem followAll_dropWhile (steps : List Step) (buffer : List TokenRecord) :
    followAll call (steps.dropWhile isNothing) buffer = followAll call steps buffer := by
  induction steps with
  | nil => rfl
  | cons step rest inductionHypothesis =>
      cases step with
      | nothing =>
          rw [followAll, follow]
          exact inductionHypothesis
      | _ => rfl

theorem followAll_body (alternative : Step) (buffer : List TokenRecord) :
    followAll call alternative.body buffer = follow call alternative buffer := by
  cases alternative with
  | nothing => rw [body, followAll, follow]
  | group steps => rw [body, followAll_dropWhile, follow]
  | _ => exact followAll_singleton _ buffer

/-- A leaf that selected an alternative has only to be removed. -/
theorem followAll_afterSelection_peek {alternative : Step} {seen : Terminal} {buffer : List TokenRecord}
    (accepted : seen.accepts (frontToken buffer) = true) :
    followAll call (alternative.afterSelection .peek seen) buffer = follow call alternative buffer := by
  rw [← followAll_body, afterSelection]
  split
  · rename_i leaf rest begins
    rw [begins]
    by_cases same : leaf = seen
    · rw [if_pos same, followAll, followAll, follow, follow, same, if_pos accepted]
    · rw [if_neg same]
  · rfl

/-- A leaf that has been taken is not required again. -/
theorem followAll_afterSelection_take {alternative : Step} {seen : Terminal} {rest : List Step}
    (begins : alternative.body = .require seen :: rest) {buffer : List TokenRecord}
    (accepted : seen.accepts (frontToken buffer) = true) :
    followAll call (alternative.afterSelection .take seen) buffer.tail = follow call alternative buffer := by
  rw [← followAll_body, afterSelection, begins]
  simp only [if_true]
  rw [followAll, follow, if_pos accepted]
  rfl

end Step

/-! ## Patterns that begin with a leaf -/

namespace Pattern

theorem firstLeaf?_eq_some {pattern : Pattern} {leaf : Terminal} :
    pattern.firstLeaf? = some leaf ↔ ∃ rest, pattern.factorsPastMarkers = .terminal leaf :: rest := by
  unfold firstLeaf?
  constructor
  · intro begins
    split at begins
    · rename_i found rest past
      cases begins
      exact ⟨rest, past⟩
    · cases begins
  · rintro ⟨rest, past⟩
    rw [past]

/-- Either the first factor is a marker or the factors past the markers begin with it. -/
private theorem marker_or_first {factor : Pattern} {others rest : List Pattern} {leaf : Terminal}
    (past : (factor :: others).dropWhile (· == epsilon) = .terminal leaf :: rest) :
    factor = epsilon ∧ others.dropWhile (· == epsilon) = .terminal leaf :: rest ∨
      factor ≠ epsilon ∧ factor = .terminal leaf := by
  by_cases marker : factor = epsilon
  · rw [List.dropWhile_cons_of_pos (by simp [marker])] at past
    exact Or.inl ⟨marker, past⟩
  · rw [List.dropWhile_cons_of_neg (by simp [marker])] at past
    exact Or.inr ⟨marker, (List.cons.inj past).1⟩

variable {grammar : Grammar} {enterable : List Production}

private theorem eq_of_first_sequence {factors rest : List Pattern} {leaf found : Terminal}
    (past : factors.dropWhile (· == epsilon) = .terminal leaf :: rest)
    (first : grammar.FirstWithin enterable (.sequence factors) found) : found = leaf := by
  induction factors with
  | nil => cases past
  | cons factor others inductionHypothesis =>
      rcases marker_or_first past with ⟨rfl, past⟩ | ⟨notMarker, rfl⟩
      · cases first with
        | head inMarker =>
            cases inMarker with
            | leaf real => exact absurd rfl real
        | later _ remaining => exact inductionHypothesis past remaining
      · cases first with
        | head inLeaf =>
            cases inLeaf
            rfl
        | later nullable _ =>
            cases nullable
            exact absurd rfl notMarker

/-- A pattern that says which leaf it begins with begins with no other. -/
theorem eq_firstLeaf_of_first {pattern : Pattern} {leaf found : Terminal}
    (begins : pattern.firstLeaf? = some leaf)
    (first : grammar.FirstWithin enterable pattern found) : found = leaf := by
  rcases firstLeaf?_eq_some.mp begins with ⟨rest, past⟩
  apply eq_of_first_sequence past
  cases pattern with
  | sequence factors => exact first
  | _ => exact .head first

private theorem dropWhile_plan (analysis : Analysis) (owner : String) {factors rest : List Pattern}
    {leaf : Terminal} (past : factors.dropWhile (· == epsilon) = .terminal leaf :: rest) :
    ∃ steps, (factors.map (analysis.plan owner)).dropWhile Step.isNothing = .require leaf :: steps := by
  induction factors with
  | nil => cases past
  | cons factor others inductionHypothesis =>
      rw [List.map_cons]
      rcases marker_or_first past with ⟨rfl, past⟩ | ⟨notMarker, rfl⟩
      · have nothing : analysis.plan owner epsilon = .nothing := by
          rw [epsilon, Analysis.plan, if_pos rfl]
        rw [nothing]
        exact inductionHypothesis past
      · have real : leaf ≠ .epsilon := fun marker => notMarker (congrArg Pattern.terminal marker)
        rw [Analysis.plan, if_neg real]
        exact ⟨_, rfl⟩

/-- A pattern that says which leaf it begins with requires this leaf first. -/
theorem body_plan_of_firstLeaf (analysis : Analysis) (owner : String) {pattern : Pattern} {leaf : Terminal}
    (begins : pattern.firstLeaf? = some leaf) :
    ∃ rest, (analysis.plan owner pattern).body = .require leaf :: rest := by
  rcases firstLeaf?_eq_some.mp begins with ⟨rest, past⟩
  cases pattern with
  | sequence factors =>
      rw [Analysis.plan_sequence]
      exact dropWhile_plan analysis owner past
  | terminal found =>
      rcases marker_or_first past with ⟨_, impossible⟩ | ⟨notMarker, same⟩
      · cases impossible
      · cases same
        have real : leaf ≠ .epsilon := fun marker => notMarker (congrArg Pattern.terminal marker)
        rw [Analysis.plan, if_neg real]
        exact ⟨[], rfl⟩
  | _ => rcases marker_or_first past with ⟨_, impossible⟩ | ⟨_, impossible⟩ <;> cases impossible

end Pattern

/-! ## Parsing by patterns -/

/-- Takes the part of a pattern that its table names for the next token. -/
def Lookahead.dispatch (table : Lookahead) (take : Pattern -> Except Halt (List TokenRecord))
    (buffer : List TokenRecord) : Except Halt (List TokenRecord) :=
  match table.tokenEntries.find? (·.terminal.accepts (frontToken buffer)) with
  | some entry => take entry.branch
  | none =>
      if table.admitsNothing then .ok buffer
      else
        let expected := ",".intercalate (table.tokenEntries.map (·.spelling))
        .error (.mismatch (frontToken buffer).position expected)

namespace Analysis

/-- What the plan for a pattern does to the token buffer. -/
def parse (analysis : Analysis) (call : RuleCall) (owner : String) (pattern : Pattern) :
    List TokenRecord -> Except Halt (List TokenRecord) :=
  (analysis.plan owner pattern).follow call

variable (analysis : Analysis) (call : RuleCall) (owner : String)

theorem parse_marker (buffer : List TokenRecord) :
    analysis.parse call owner (.terminal .epsilon) buffer = .ok buffer := by
  rw [parse, plan, if_pos rfl, Step.follow]

theorem parse_leaf {leaf : Terminal} (real : leaf ≠ .epsilon) (buffer : List TokenRecord) :
    analysis.parse call owner (.terminal leaf) buffer =
      if leaf.accepts (frontToken buffer) then .ok buffer.tail
      else .error (.mismatch (frontToken buffer).position leaf.spelling) := by
  rw [parse, plan, if_neg real, Step.follow]

theorem parse_reference (rule : String) (buffer : List TokenRecord) :
    analysis.parse call owner (.reference rule) buffer = call rule buffer := by
  rw [parse, plan, Step.follow]

theorem parse_sequence_nil (buffer : List TokenRecord) :
    analysis.parse call owner (.sequence []) buffer = .ok buffer := by
  rw [parse, plan_sequence, Step.follow, List.map_nil, Step.followAll]

theorem parse_sequence_cons (factor : Pattern) (rest : List Pattern) (buffer : List TokenRecord) :
    analysis.parse call owner (.sequence (factor :: rest)) buffer =
      analysis.parse call owner factor buffer >>= analysis.parse call owner (.sequence rest) := by
  rw [parse, plan_sequence, Step.follow, List.map_cons, Step.followAll]
  congr 1
  funext remaining
  rw [parse, plan_sequence, Step.follow]

/-- A token is taken at once only where each entry's alternative requires it first. -/
theorem body_plan_branch_of_take {pattern : Pattern} (selects : pattern.selects = true)
    (takes : acquisitionFor pattern (analysis.lookaheadOf owner pattern) = .take) {entry : LookaheadEntry}
    (member : entry ∈ (analysis.lookaheadOf owner pattern).tokenEntries) :
    ∃ rest, (analysis.plan owner entry.branch).body = .require entry.terminal :: rest := by
  rcases analysis.branch_of_mem_tokenEntries selects member with ⟨taken, first⟩
  unfold acquisitionFor at takes
  split at takes
  · cases takes
  · rename_i takesAtOnce
    rw [Bool.not_eq_true, Bool.or_eq_false_iff, Bool.not_eq_false'] at takesAtOnce
    have allBegin := List.all_eq_true.mp takesAtOnce.2
    cases pattern with
    | choice alternatives =>
        rcases Option.isSome_iff_exists.mp (allBegin entry.branch taken) with ⟨leaf, begins⟩
        rw [Pattern.eq_firstLeaf_of_first begins first]
        exact Pattern.body_plan_of_firstLeaf analysis owner begins
    | optional content => cases allBegin _ (List.mem_singleton.mpr rfl)
    | _ => cases selects

private theorem followArms_map (steps : LookaheadEntry -> List Step)
    (take : Pattern -> Except Halt (List TokenRecord)) (token : TokenRecord) (remaining : List TokenRecord)
    (otherwise : Except Halt (List TokenRecord)) {entries : List LookaheadEntry}
    (taken : ∀ entry ∈ entries, entry.terminal.accepts token = true ->
      Step.followAll call (steps entry) remaining = take entry.branch) :
    Step.followArms call (entries.map fun entry => (entry.terminal, steps entry)) token remaining otherwise =
      match entries.find? (·.terminal.accepts token) with
      | some entry => take entry.branch
      | none => otherwise := by
  induction entries with
  | nil => rw [List.map_nil, Step.followArms, List.find?_nil]
  | cons entry rest inductionHypothesis =>
      rw [List.map_cons, Step.followArms, List.find?_cons]
      cases accepted : entry.terminal.accepts token with
      | true =>
          rw [if_pos rfl]
          exact taken entry List.mem_cons_self accepted
      | false =>
          exact inductionHypothesis fun other member => taken other (List.mem_cons_of_mem _ member)

/-- The arm that an entry selects follows the entry's alternative in full. -/
private theorem followAll_arm {pattern : Pattern} (selects : pattern.selects = true) {entry : LookaheadEntry}
    (member : entry ∈ (analysis.lookaheadOf owner pattern).tokenEntries) {buffer : List TokenRecord}
    (accepted : entry.terminal.accepts (frontToken buffer) = true) :
    Step.followAll call
        ((analysis.plan owner entry.branch).afterSelection
          (acquisitionFor pattern (analysis.lookaheadOf owner pattern)) entry.terminal)
        ((acquisitionFor pattern (analysis.lookaheadOf owner pattern)).remaining buffer) =
      analysis.parse call owner entry.branch buffer := by
  cases obtained : acquisitionFor pattern (analysis.lookaheadOf owner pattern) with
  | peek => exact Step.followAll_afterSelection_peek accepted
  | take =>
      rcases analysis.body_plan_branch_of_take owner selects obtained member with ⟨rest, begins⟩
      exact Step.followAll_afterSelection_take begins accepted

/-- A token stays in the buffer as long as the pattern may turn out to be absent. -/
private theorem remaining_of_admitsNothing (pattern : Pattern) {table : Lookahead}
    (nullable : table.admitsNothing = true) (buffer : List TokenRecord) :
    (acquisitionFor pattern table).remaining buffer = buffer := by
  rw [acquisitionFor, nullable]
  rfl

/-- Following the plan of a selection is dispatching by its table. -/
theorem parse_of_selects {pattern : Pattern} (selects : pattern.selects = true) (buffer : List TokenRecord) :
    analysis.parse call owner pattern buffer =
      (analysis.lookaheadOf owner pattern).dispatch
        (fun branch => analysis.parse call owner branch buffer) buffer := by
  rw [parse, plan_of_selects analysis owner pattern selects, selection_eq, Step.follow, List.isEmpty_map,
    List.map_map, Lookahead.dispatch]
  have arms := followArms_map call
    (fun entry => (analysis.plan owner entry.branch).afterSelection
      (acquisitionFor pattern (analysis.lookaheadOf owner pattern)) entry.terminal)
    (fun branch => analysis.parse call owner branch buffer) (frontToken buffer)
    ((acquisitionFor pattern (analysis.lookaheadOf owner pattern)).remaining buffer)
    (if (analysis.lookaheadOf owner pattern).admitsNothing then
      .ok ((acquisitionFor pattern (analysis.lookaheadOf owner pattern)).remaining buffer)
    else
      .error (.mismatch (frontToken buffer).position
        (",".intercalate ((analysis.lookaheadOf owner pattern).tokenEntries.map (·.spelling)))))
    (fun entry member accepted => analysis.followAll_arm call owner selects member accepted)
  split
  · rename_i absent
    rw [Bool.and_eq_true, List.isEmpty_iff] at absent
    rw [absent.1, absent.2]
    rfl
  · refine arms.trans ?_
    cases (analysis.lookaheadOf owner pattern).tokenEntries.find? (·.terminal.accepts (frontToken buffer)) with
    | some entry => rfl
    | none =>
        cases nullable : (analysis.lookaheadOf owner pattern).admitsNothing with
        | true => rw [remaining_of_admitsNothing pattern nullable]
        | false => rfl

/-- A routine follows the right-hand side of its production. -/
theorem followAll_routinePlan {grammar : Grammar} {production : Production}
    (member : production ∈ grammar.productions) {steps : List Step}
    (planned : grammar.analysis.routinePlan? production = some steps) (buffer : List TokenRecord) :
    Step.followAll call steps buffer =
      grammar.analysis.parse call production.name production.root buffer := by
  unfold routinePlan? at planned
  split at planned
  · rename_i selects
    rw [Analysis.lookahead?_of_mem _ member, Option.map_some, Option.some.injEq] at planned
    rw [← planned, Step.followAll_singleton, parse, plan_of_selects _ _ _ selects]
  · cases planned
    cases shape : production.root with
    | sequence factors =>
        rw [Pattern.factors, parse, plan_sequence, Step.follow]
    | _ => exact Step.followAll_singleton _ buffer

end Analysis
end PredictiveParsing
