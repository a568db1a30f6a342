import PredictiveParsing.Proofs.Part
import PredictiveParsing.Synthesis

namespace PredictiveParsing

/-!
# What parsers consist of

Where a grammar has a parser, its rules have names of their own, and the parser
has one routine for each production.  This routine is found under the name of the
production, and it calls declared rules only.
-/

/-- A computation in two parts that succeeds does so in both. -/
theorem exists_of_bind_eq_ok {ε α β : Type} {result : Except ε α} {next : α -> Except ε β} {value : β}
    (made : result >>= next = .ok value) : ∃ first, result = .ok first ∧ next first = .ok value := by
  cases result with
  | error reason => cases made
  | ok first => exact ⟨first, rfl, made⟩

/-- Whether a computation succeeds can be tested without naming its value. -/
theorem exists_of_isOk {ε α : Type} {result : Except ε α} (succeeds : result.isOk = true) :
    ∃ value, result = .ok value := by
  cases result with
  | error reason => cases succeeds
  | ok value => exact ⟨value, rfl⟩

theorem exists_of_toOption_any {ε α : Type} {result : Except ε α} {test : α -> Bool}
    (passes : result.toOption.any test = true) : ∃ value, result = .ok value ∧ test value = true := by
  cases result with
  | error reason => cases passes
  | ok value => exact ⟨value, rfl, passes⟩

/-! ## Names of rules -/

/-- The reserved names are identifiers already. -/
theorem Support.universal_of_mem_reservedNames :
    ∀ name ∈ Support.reservedNames, Naming.universal name = name := by
  decide +kernel

theorem not_mem_reservedNames_of_refuseReserved {settings : Settings} {rule : String}
    (admitted : refuseReserved settings rule = .ok ()) : rule ∉ Support.reservedNames := by
  intro reserved
  have contained : Support.reservedNames.contains (Naming.universal rule) = true := by
    rw [Support.universal_of_mem_reservedNames rule reserved]
    exact List.contains_iff_mem.mpr reserved
  rw [refuseReserved, contained, Bool.true_or, if_pos rfl] at admitted
  cases admitted

/-! ## Routines of productions -/

/-- What is known of a routine that was made for a production. -/
structure Analysis.RoutineFor (analysis : Analysis) (settings : Settings) (production : Production)
    (routine : Routine) (steps : List Step) : Prop where
  admitted : refuseReserved settings production.name = .ok ()
  planned : analysis.routinePlan? production = some steps
  callsDeclared : ∀ rule ∈ Step.callsOfAll steps, rule ∈ analysis.grammar.names
  written : routine = ⟨production.name, .rule, [], none, analysis.routineBody settings production steps⟩

theorem Analysis.routineFor_of_ok {analysis : Analysis} {settings : Settings} {production : Production}
    {routine : Routine} (made : analysis.routine settings production = .ok routine) :
    ∃ steps, analysis.RoutineFor settings production routine steps := by
  unfold Analysis.routine at made
  rcases exists_of_bind_eq_ok made with ⟨_, admitted, made⟩
  split at made
  · cases made
  · rename_i steps planned
    split at made
    · cases made
    · rename_i allDeclared
      refine ⟨steps, admitted, planned, ?_, (Except.ok.inj made).symm⟩
      intro rule called
      have known := List.find?_eq_none.mp allDeclared rule called
      rw [Bool.not_eq_true, Bool.not_eq_false'] at known
      exact Grammar.declares_iff.mp known

/-! ## Routines of parsers -/

theorem filterMap_routine? (routines : List Routine) :
    (routines.map Definition.routine).filterMap (·.routine?) = routines := by
  rw [List.filterMap_map]
  exact List.filterMap_some

/-- Where a map succeeds on a list, it does so on each of its elements. -/
theorem forall₂_of_mapM {α β ε : Type} {f : α -> Except ε β} {inputs : List α} {outputs : List β}
    (mapped : inputs.mapM f = .ok outputs) :
    List.Forall₂ (fun input output => f input = .ok output) inputs outputs := by
  induction inputs generalizing outputs with
  | nil =>
      cases mapped
      exact .nil
  | cons input rest inductionHypothesis =>
      rw [List.mapM_cons] at mapped
      rcases exists_of_bind_eq_ok mapped with ⟨output, first, mapped⟩
      rcases exists_of_bind_eq_ok mapped with ⟨others, later, mapped⟩
      cases mapped
      exact .cons first (inductionHypothesis later)

theorem exists_related_right {α β : Type} {related : α -> β -> Prop} {left : List α} {right : List β}
    (allRelated : List.Forall₂ related left right) {value : α} (member : value ∈ left) :
    ∃ other ∈ right, related value other := by
  induction allRelated with
  | nil => cases member
  | cons first _ inductionHypothesis =>
      rcases List.mem_cons.mp member with rfl | later
      · exact ⟨_, List.mem_cons_self, first⟩
      · rcases inductionHypothesis later with ⟨other, inRest, relation⟩
        exact ⟨other, List.mem_cons_of_mem _ inRest, relation⟩

namespace Grammar

variable {grammar : Grammar} {settings : Settings} {program : Program}

/-- The routines of a parser are those for its productions between those that
every parser contains. -/
theorem exists_routines (made : grammar.parser settings = .ok program) :
    ∃ routines,
      List.Forall₂ (fun production routine => grammar.analysis.routine settings production = .ok routine)
        grammar.productions routines ∧
      program = ⟨Support.bufferDefinitions settings ++ routines.map .routine ++
        [Support.parseRoutine grammar.start.name, Support.mainRoutine settings]⟩ := by
  unfold parser at made
  rcases exists_of_bind_eq_ok made with ⟨_, _, made⟩
  rcases exists_of_bind_eq_ok made with ⟨routines, mapped, made⟩
  exact ⟨routines, forall₂_of_mapM mapped, (Except.ok.inj made).symm⟩

theorem routine?_peek (made : grammar.parser settings = .ok program) :
    program.routine? Support.peek =
      some ⟨Support.peek, .support, [], some .token, [.primitive .peek]⟩ := by
  rcases exists_routines made with ⟨routines, _, rfl⟩
  rfl

theorem routine?_take (made : grammar.parser settings = .ok program) :
    program.routine? Support.take =
      some ⟨Support.take, .support, [], some .token, [.primitive .take]⟩ := by
  rcases exists_routines made with ⟨routines, _, rfl⟩
  rfl

private theorem name_mem_reservedNames {routine : Routine}
    (member : routine ∈ (Support.bufferDefinitions settings).filterMap (·.routine?)) :
    routine.name ∈ Support.reservedNames := by
  have names : ((Support.bufferDefinitions settings).filterMap (·.routine?)).map (·.name) =
      (Support.reservedNames.drop 1).take 5 := rfl
  have among : routine.name ∈ (Support.reservedNames.drop 1).take 5 := by
    rw [← names]
    exact List.mem_map.mpr ⟨routine, member, rfl⟩
  exact List.mem_of_mem_drop (List.mem_of_mem_take among)

/-- A routine of a rule stands behind the definitions that every parser contains. -/
theorem routine?_of_find? {routines : List Routine} {name : String} (free : name ∉ Support.reservedNames)
    {routine : Routine} (found : routines.find? (·.name == name) = some routine) (behind : List Definition) :
    (Program.mk (Support.bufferDefinitions settings ++ routines.map .routine ++ behind)).routine? name =
      some routine := by
  have notSupport : ((Support.bufferDefinitions settings).filterMap (·.routine?)).find? (·.name == name) = none := by
    apply List.find?_eq_none.mpr
    intro support member same
    apply free
    rw [← beq_iff_eq.mp same]
    exact name_mem_reservedNames member
  rw [Program.routine?, Program.routines, List.filterMap_append, List.filterMap_append, filterMap_routine?,
    List.append_assoc, List.find?_append, notSupport, List.find?_append, found]
  rfl

/-- The routine of a production is found under its name. -/
theorem routine?_of_mem (made : grammar.parser settings = .ok program) {production : Production}
    (declared : production ∈ grammar.productions) :
    ∃ routine steps, program.routine? production.name = some routine ∧
      grammar.analysis.RoutineFor settings production routine steps := by
  rcases exists_routines made with ⟨routines, allMade, rfl⟩
  rcases exists_related_right allMade declared with ⟨own, ownMember, ownMade⟩
  rcases Analysis.routineFor_of_ok ownMade with ⟨steps, ownFor⟩
  cases search : routines.find? (·.name == production.name) with
  | none =>
      have ownName : own.name = production.name := by rw [ownFor.written]
      exact absurd (beq_iff_eq.mpr ownName) (List.find?_eq_none.mp search own ownMember)
  | some found =>
      rcases exists_related_right allMade.flip (List.mem_of_find?_eq_some search) with
        ⟨other, otherDeclared, otherMade⟩
      rcases Analysis.routineFor_of_ok otherMade with ⟨steps, foundFor⟩
      have foundName : found.name = production.name := by simpa using List.find?_some search
      have sameName : other.name = production.name := by rw [← foundName, foundFor.written]
      have same := production_eq_of_name otherDeclared declared sameName
      have free := not_mem_reservedNames_of_refuseReserved ownFor.admitted
      exact ⟨found, steps, routine?_of_find? free search _, same ▸ foundFor⟩

/-- The rules of a grammar that has a parser have none of the reserved names. -/
theorem not_mem_reservedNames (made : grammar.parser settings = .ok program) {rule : String}
    (isRule : rule ∈ grammar.names) : rule ∉ Support.reservedNames := by
  rcases exists_production_of_mem_names isRule with ⟨production, declared, rfl⟩
  rcases routine?_of_mem made declared with ⟨routine, steps, _, routineFor⟩
  exact not_mem_reservedNames_of_refuseReserved routineFor.admitted

end Grammar
end PredictiveParsing
