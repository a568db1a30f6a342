import Mathlib.Data.List.Forall2
import PredictiveParsing.Proofs.RoutineCalls

namespace PredictiveParsing

/-!
# Parsers are linked

The routines of a parser have names of their own, and whatever they call is there
and called as it is meant to be.  The rules of a grammar refer to declared rules,
and no rule has the name of a routine that every parser contains.  So a call in the
routine of a rule reaches either the routine of a rule, which takes no arguments,
or one of the routines that work on the token buffer.

The main statement is `Grammar.isLinked_of_parser_eq_ok`.
-/

/-- Whether the routine is the one called, takes what is passed, and returns a token where its value is used. -/
structure Call.Fits (call : Call) (target : Routine) : Prop where
  /-- The routine has the name. -/
  named : target.name = call.routine
  /-- There is an argument for each parameter. -/
  arguments : target.parameters.length = call.arguments
  /-- A value that is used is a token. -/
  token : call.isValue = true -> target.returns = some .token

namespace Program

/-- The call names exactly one routine and fits it. -/
def Resolves (program : Program) (call : Call) : Prop :=
  ∃ target, program.routines.filter (·.name == call.routine) = [target] ∧ call.Fits target

/-- A program in which every name of a routine stands for one routine and every call reaches one. -/
structure IsLinked (program : Program) : Prop where
  /-- No two routines have the same name. -/
  distinct : (program.routines.map (·.name)).Nodup
  /-- Calls reach routines that they fit. -/
  resolves : ∀ routine ∈ program.routines, ∀ call ∈ Statement.blockCalls routine.body, program.Resolves call

variable {program : Program}

theorem filter_name_eq_singleton {routines : List Routine} (distinct : (routines.map (·.name)).Nodup)
    {target : Routine} (member : target ∈ routines) : routines.filter (·.name == target.name) = [target] := by
  induction routines with
  | nil => cases member
  | cons routine rest inductionHypothesis =>
      rw [List.map_cons, List.nodup_cons] at distinct
      rcases List.mem_cons.mp member with rfl | inRest
      · have noOther : rest.filter (·.name == target.name) = [] := by
          apply List.filter_eq_nil_iff.mpr
          intro other otherMember sameName
          apply distinct.1
          rw [← beq_iff_eq.mp sameName]
          exact List.mem_map.mpr ⟨other, otherMember, rfl⟩
        rw [List.filter_cons, if_pos (beq_iff_eq.mpr rfl), noOther]
      · have differs : ¬(routine.name == target.name) = true := by
          intro sameName
          apply distinct.1
          rw [beq_iff_eq.mp sameName]
          exact List.mem_map.mpr ⟨target, inRest, rfl⟩
        rw [List.filter_cons, if_neg differs, inductionHypothesis distinct.2 inRest]

/-- A call reaches a routine that it fits. -/
theorem resolves_of_fits (distinct : (program.routines.map (·.name)).Nodup) {target : Routine}
    (member : target ∈ program.routines) {call : Call} (fits : call.Fits target) : program.Resolves call :=
  ⟨target, fits.named ▸ filter_name_eq_singleton distinct member, fits⟩

theorem routine?_of_mem_routines (distinct : (program.routines.map (·.name)).Nodup) {target : Routine}
    (member : target ∈ program.routines) : program.routine? target.name = some target := by
  rw [routine?, ← List.head?_filter, filter_name_eq_singleton distinct member]
  rfl

end Program

/-! ## Routines of every parser -/

namespace Support

variable {settings : Settings} {start : String}

def bufferRoutines (settings : Settings) : List Routine :=
  (bufferDefinitions settings).filterMap (·.routine?)

/-- The routines behind those of the rules. -/
def lastRoutines (settings : Settings) (start : String) : List Routine :=
  [parseRoutine start, mainRoutine settings].filterMap (·.routine?)

def routineNames : List String :=
  [generateTokens, loadTokens, peek, take, expect, parse, main]

theorem names_bufferRoutines_lastRoutines (settings : Settings) (start : String) :
    (bufferRoutines settings).map (·.name) ++ (lastRoutines settings start).map (·.name) = routineNames := rfl

theorem routineNames_subset_reservedNames : routineNames ⊆ reservedNames := by decide

theorem nodup_routineNames : routineNames.Nodup := by decide

theorem role_ne_rule {routine : Routine}
    (member : routine ∈ bufferRoutines settings ++ lastRoutines settings start) : routine.role ≠ .rule := by
  have roles : (bufferRoutines settings ++ lastRoutines settings start).map (·.role) =
      [.support, .support, .support, .support, .support, .support, .entry] := rfl
  have notRule : ∀ role ∈ [Role.support, .support, .support, .support, .support, .support, .entry],
      role ≠ .rule := by decide
  exact notRule _ (roles ▸ List.mem_map_of_mem member)

/-- The routines on the token buffer call nothing. -/
theorem blockCalls_of_mem_bufferRoutines {routine : Routine} (member : routine ∈ bufferRoutines settings) :
    Statement.blockCalls routine.body = [] := by
  simp only [bufferRoutines, bufferDefinitions, primitiveRoutine, List.filterMap_cons, Definition.routine?,
    List.filterMap_nil, List.mem_cons, List.not_mem_nil, or_false] at member
  rcases member with rfl | rfl | rfl | rfl | rfl <;> rfl

/-- What rules call in support is there. -/
theorem exists_fits_of_mem_supporting {call : Call} (member : call ∈ Call.supporting) :
    ∃ target ∈ bufferRoutines settings, call.Fits target := by
  simp only [Call.supporting, List.mem_cons, List.not_mem_nil, or_false] at member
  rcases member with rfl | rfl | rfl | rfl
  · exact ⟨_, .tail _ (.tail _ (.head _)), rfl, rfl, fun _ => rfl⟩
  · exact ⟨_, .tail _ (.tail _ (.tail _ (.head _))), rfl, rfl, fun _ => rfl⟩
  · exact ⟨_, .tail _ (.tail _ (.tail _ (.head _))), rfl, rfl, fun _ => rfl⟩
  · exact ⟨_, .tail _ (.tail _ (.tail _ (.tail _ (.head _)))), rfl, rfl, fun used => nomatch used⟩

/-- What the routines behind those of the rules call is there, the start rule apart. -/
theorem exists_fits_of_mem_lastRoutines {routine : Routine} (member : routine ∈ lastRoutines settings start)
    {called : Call} (isCalled : called ∈ Statement.blockCalls routine.body) :
    called = .ofRule start ∨
      ∃ target ∈ bufferRoutines settings ++ lastRoutines settings start, called.Fits target := by
  simp only [lastRoutines, parseRoutine, mainRoutine, List.filterMap_cons, Definition.routine?,
    List.filterMap_nil, List.mem_cons, List.not_mem_nil, or_false] at member
  rcases member with rfl | rfl
  · have calls : called ∈ [⟨generateTokens, 1, false⟩, ⟨loadTokens, 0, false⟩, .ofRule start] := isCalled
    simp only [List.mem_cons, List.not_mem_nil, or_false] at calls
    rcases calls with rfl | rfl | rfl
    · exact Or.inr ⟨_, .head _, rfl, rfl, fun used => nomatch used⟩
    · exact Or.inr ⟨_, .tail _ (.head _), rfl, rfl, fun used => nomatch used⟩
    · exact Or.inl rfl
  · have calls : called ∈ ⟨parse, 1, false⟩ :: [⟨take, 0, true⟩, .ofMismatch] := isCalled
    rcases List.mem_cons.mp calls with rfl | supports
    · exact Or.inr ⟨_, List.mem_append_right _ (.head _), rfl, rfl, fun used => nomatch used⟩
    · have known : ∀ call ∈ [⟨take, 0, true⟩, .ofMismatch], call ∈ Call.supporting := by decide
      rcases exists_fits_of_mem_supporting (known called supports) with ⟨target, known, fits⟩
      exact Or.inr ⟨target, List.mem_append_left _ known, fits⟩

end Support

namespace Grammar

variable {grammar : Grammar} {settings : Settings} {program : Program}

/-- The routines of a parser in order. -/
theorem exists_routines_eq (made : grammar.parser settings = .ok program) :
    ∃ routines,
      List.Forall₂ (fun production routine => grammar.analysis.routine settings production = .ok routine)
        grammar.productions routines ∧
      program.definitions = Support.bufferDefinitions settings ++ routines.map .routine ++
        [Support.parseRoutine grammar.start.name, Support.mainRoutine settings] ∧
      program.routines =
        Support.bufferRoutines settings ++ routines ++ Support.lastRoutines settings grammar.start.name := by
  rcases exists_routines made with ⟨routines, allMade, rfl⟩
  refine ⟨routines, allMade, rfl, ?_⟩
  rw [Program.routines, List.filterMap_append, List.filterMap_append, filterMap_routine?]
  rfl

theorem mem_routines_of_mem_support (made : grammar.parser settings = .ok program) {target : Routine}
    (known : target ∈ Support.bufferRoutines settings ++ Support.lastRoutines settings grammar.start.name) :
    target ∈ program.routines := by
  rcases exists_routines_eq made with ⟨routines, _, _, ordered⟩
  rw [ordered]
  rcases List.mem_append.mp known with ofBuffer | last
  · exact List.mem_append_left _ (List.mem_append_left _ ofBuffer)
  · exact List.mem_append_right _ last

/-- The routine of a rule was made for a production. -/
theorem exists_production_of_role (made : grammar.parser settings = .ok program) {routine : Routine}
    (member : routine ∈ program.routines) (ofRule : routine.role = .rule) :
    ∃ production ∈ grammar.productions, ∃ steps,
      grammar.analysis.RoutineFor settings production routine steps := by
  rcases exists_routines_eq made with ⟨routines, allMade, _, ordered⟩
  have notSupport : routine ∉ Support.bufferRoutines settings ++ Support.lastRoutines settings grammar.start.name :=
    fun known => Support.role_ne_rule known ofRule
  rw [List.mem_append, not_or] at notSupport
  rw [ordered, List.mem_append, List.mem_append] at member
  have ofProduction := (member.resolve_right notSupport.2).resolve_left notSupport.1
  rcases exists_related_right allMade.flip ofProduction with ⟨production, declared, ownMade⟩
  exact ⟨production, declared, Analysis.routineFor_of_ok ownMade⟩

/-! ## Names -/

theorem names_routines (made : grammar.parser settings = .ok program) :
    program.routines.map (·.name) =
      (Support.bufferRoutines settings).map (·.name) ++ grammar.names ++
        (Support.lastRoutines settings grammar.start.name).map (·.name) := by
  rcases exists_routines_eq made with ⟨routines, allMade, _, ordered⟩
  have sameNames : grammar.productions.map (·.name) = routines.map (·.name) := by
    rw [← List.forall₂_eq_eq_eq, List.forall₂_map_left_iff, List.forall₂_map_right_iff]
    refine allMade.imp fun production routine ownMade => ?_
    rcases Analysis.routineFor_of_ok ownMade with ⟨steps, routineFor⟩
    rw [routineFor.written]
  rw [productions, List.map_map] at sameNames
  rw [ordered, List.map_append, List.map_append, ← sameNames]
  rfl

theorem perm_names_routines (made : grammar.parser settings = .ok program) :
    (program.routines.map (·.name)).Perm (grammar.names ++ Support.routineNames) := by
  rw [names_routines made, ← Support.names_bufferRoutines_lastRoutines settings grammar.start.name,
    ← List.append_assoc]
  exact List.Perm.append_right _ List.perm_append_comm

theorem distinct_names_routines (made : grammar.parser settings = .ok program) :
    (program.routines.map (·.name)).Nodup := by
  refine (perm_names_routines made).nodup_iff.mpr
    (List.nodup_append.mpr ⟨grammar.distinct, Support.nodup_routineNames, ?_⟩)
  rintro rule isRule name reserved rfl
  exact not_mem_reservedNames made isRule (Support.routineNames_subset_reservedNames reserved)

/-! ## Calls -/

/-- A call of a declared rule reaches the routine of the rule. -/
theorem resolves_ofRule (made : grammar.parser settings = .ok program) {rule : String}
    (declared : rule ∈ grammar.names) : program.Resolves (.ofRule rule) := by
  have distinct := distinct_names_routines made
  rcases exists_production_of_mem_names declared with ⟨production, inGrammar, rfl⟩
  rcases routine?_of_mem made inGrammar with ⟨routine, steps, found, routineFor⟩
  refine Program.resolves_of_fits distinct (List.mem_of_find?_eq_some found) ⟨?_, ?_, fun used => nomatch used⟩
  · rw [routineFor.written]
    rfl
  · rw [routineFor.written]
    rfl

/-- Whatever a routine of a parser calls can be called that way. -/
theorem resolves_of_mem_blockCalls (made : grammar.parser settings = .ok program) {routine : Routine}
    (member : routine ∈ program.routines) {call : Call} (called : call ∈ Statement.blockCalls routine.body) :
    program.Resolves call := by
  have distinct := distinct_names_routines made
  rcases exists_routines_eq made with ⟨routines, allMade, _, ordered⟩
  rw [ordered] at member
  rcases List.mem_append.mp member with front | last
  · rcases List.mem_append.mp front with ofBuffer | ofRules
    · rw [Support.blockCalls_of_mem_bufferRoutines ofBuffer] at called
      cases called
    · rcases exists_related_right allMade.flip ofRules with ⟨production, declared, ownMade⟩
      rcases Analysis.routineFor_of_ok ownMade with ⟨steps, routineFor⟩
      rcases routineFor.areOfRules call called with supports | ⟨rule, inPlan, rfl⟩
      · rcases Support.exists_fits_of_mem_supporting supports with ⟨target, known, fits⟩
        have present := mem_routines_of_mem_support made (List.mem_append_left _ known)
        exact Program.resolves_of_fits distinct present fits
      · exact resolves_ofRule made (routineFor.callsDeclared rule inPlan)
  · rcases Support.exists_fits_of_mem_lastRoutines last called with rfl | ⟨target, known, fits⟩
    · exact resolves_ofRule made (List.mem_map.mpr ⟨_, List.head_mem _, rfl⟩)
    · exact Program.resolves_of_fits distinct (mem_routines_of_mem_support made known) fits

/-! ## Linked parsers -/

/-- The only routine that a parser can start with is the last one. -/
theorem exists_entry (made : grammar.parser settings = .ok program) :
    ∃ entry, program.routines.filter (·.role == .entry) = [entry] ∧ entry.name = Support.main ∧
      .routine entry = Support.mainRoutine settings := by
  rcases exists_routines_eq made with ⟨routines, allMade, _, ordered⟩
  have ofRules : routines.filter (·.role == .entry) = [] := by
    apply List.filter_eq_nil_iff.mpr
    intro routine member
    rcases exists_related_right allMade.flip member with ⟨production, declared, ownMade⟩
    rcases Analysis.routineFor_of_ok ownMade with ⟨steps, routineFor⟩
    rw [routineFor.written]
    exact Bool.false_ne_true
  refine ⟨_, ?_, rfl, rfl⟩
  rw [ordered, List.filter_append, List.filter_append, ofRules]
  rfl

/-- A parser is linked.  Its routines for the productions stand in declaration order between those that every
parser contains, each found under its production's name, and it starts with its main routine only. -/
theorem isLinked_of_parser_eq_ok (made : grammar.parser settings = .ok program) :
    program.IsLinked ∧
      (∃ routines,
        List.Forall₂ (fun production routine =>
          grammar.analysis.routine settings production = .ok routine ∧
            program.routine? production.name = some routine) grammar.productions routines ∧
        program.definitions = Support.bufferDefinitions settings ++ routines.map .routine ++
          [Support.parseRoutine grammar.start.name, Support.mainRoutine settings]) ∧
      ∃ entry, program.routines.filter (·.role == .entry) = [entry] ∧ entry.name = Support.main ∧
        .routine entry = Support.mainRoutine settings := by
  have distinct := distinct_names_routines made
  have linked : program.IsLinked :=
    ⟨distinct, fun _ member _ called => resolves_of_mem_blockCalls made member called⟩
  rcases exists_routines_eq made with ⟨routines, allMade, written, ordered⟩
  have allMembers : List.Forall₂ (fun routine production => routine ∈ routines ∧
      grammar.analysis.routine settings production = .ok routine) routines grammar.productions :=
    (List.forall₂_and_left _ _).mpr ⟨fun _ => id, allMade.flip⟩
  refine ⟨linked, ⟨routines, allMembers.flip.imp ?_, written⟩, exists_entry made⟩
  rintro production routine ⟨member, ownMade⟩
  rcases Analysis.routineFor_of_ok ownMade with ⟨steps, routineFor⟩
  have present : routine ∈ program.routines := by
    rw [ordered]
    exact List.mem_append_left _ (List.mem_append_right _ member)
  have named : routine.name = production.name := by rw [routineFor.written]
  exact ⟨ownMade, named ▸ Program.routine?_of_mem_routines distinct present⟩

/-- Groups within groups. -/
def groups : Grammar where
  declarations :=
    [⟨⟨"group", .sequence [.literal "(", .reference "content", .literal ")"]⟩, "\"(\" content \")\""⟩,
      ⟨⟨"content", .choice [.reference "group", .tokenClass "word"]⟩, "group | <word>"⟩]
  nonempty := by decide
  distinct := by decide
  closed := by decide

theorem groups_hasParser : ∃ program, groups.parser .standard = .ok program :=
  exists_of_isOk (by decide +kernel)

theorem isLinked_of_groups :
    ∃ program, groups.parser .standard = .ok program ∧ program.IsLinked ∧
      (∃ routines,
        List.Forall₂ (fun production routine =>
          groups.analysis.routine .standard production = .ok routine ∧
            program.routine? production.name = some routine) groups.productions routines ∧
        program.definitions = Support.bufferDefinitions .standard ++ routines.map .routine ++
          [Support.parseRoutine groups.start.name, Support.mainRoutine .standard]) ∧
      ∃ entry, program.routines.filter (·.role == .entry) = [entry] ∧ entry.name = Support.main ∧
        .routine entry = Support.mainRoutine .standard := by
  rcases groups_hasParser with ⟨program, made⟩
  exact ⟨program, made, isLinked_of_parser_eq_ok made⟩

end Grammar
end PredictiveParsing
