import PredictiveParsing.Proofs.StepExecution

namespace PredictiveParsing

/-!
# Points of runs

How a run ends does not say what it does before, so a run is also followed from point
to point.  At each point some routines have been called and have not returned; each
of them has statements left and variables of its own, and all share the buffer.

A run that comes to a point goes on as if it had started there.  On the way it takes
tokens away one by one at the statements that do so, goes into arms whose conditions
hold, and enters routines.  Whatever else it runs leaves the buffer as it is.
-/

/-- A routine that has not returned. -/
structure Frame where
  /-- The statements that are left. -/
  statements : List Statement
  /-- The variables of the routine. -/
  locals : Locals

/-- A point of a run. -/
structure RunPoint where
  /-- The routines that have not returned, from the innermost outwards. -/
  frames : List Frame
  /-- The tokens that are left. -/
  buffer : List TokenRecord

/-! ## Running from a point -/

/-- Runs what is left of all routines. -/
def Frame.executeAll (invoke : Invocation) : List Frame -> List TokenRecord -> Except Halt (List TokenRecord)
  | [], buffer => .ok buffer
  | frame :: callers, buffer => do
      let remaining ← (Statement.executeBlock invoke frame.statements frame.locals buffer).map Prod.snd
      executeAll invoke callers remaining

namespace Frame

variable {invoke deeper : Invocation}

theorem executeAll_extends (deepens : Invocation.Extends invoke deeper) (frames : List Frame)
    (buffer : List TokenRecord) : Extends (executeAll invoke frames buffer) (executeAll deeper frames buffer) := by
  induction frames generalizing buffer with
  | nil => exact .refl _
  | cons frame callers inductionHypothesis =>
      rw [executeAll, executeAll]
      exact ((Statement.executeBlock_extends deepens _ _ _).map Prod.snd).bind inductionHypothesis

/-- Statements that have been run can be left out. -/
theorem executeAll_of_executeBlock {front rest : List Statement} {locals after : Locals}
    {buffer remaining : List TokenRecord}
    (run : Statement.executeBlock invoke front locals buffer = .ok (.next after, remaining)) (callers : List Frame) :
    executeAll invoke (⟨front ++ rest, locals⟩ :: callers) buffer =
      executeAll invoke (⟨rest, after⟩ :: callers) remaining := by
  rw [executeAll, executeAll, Statement.executeBlock_append, run]
  rfl

theorem executeAll_call (name : String) (rest : List Statement) (locals : Locals) (callers : List Frame)
    (buffer : List TokenRecord) :
    executeAll invoke (⟨.call name [] :: rest, locals⟩ :: callers) buffer =
      (invoke name [] buffer).map Prod.snd >>= executeAll invoke (⟨rest, locals⟩ :: callers) := by
  rw [executeAll, Statement.executeBlock, Step.execute_call]
  cases invoke name [] buffer <;> rfl

end Frame

/-- The arm behind those whose conditions fail is gone into if its condition holds. -/
theorem Statement.executeArms_of_holds {invoke : Invocation} {earlier others : List (Expression × List Statement)}
    {condition : Expression} {body : List Statement} {locals : Locals} {buffer : List TokenRecord}
    (fail : ∀ arm ∈ earlier, arm.1.evaluate invoke locals buffer = .ok (.truth false, buffer))
    (holds : condition.evaluate invoke locals buffer = .ok (.truth true, buffer))
    (otherwise : List TokenRecord -> Except Halt (Flow × List TokenRecord)) :
    executeArms invoke (earlier ++ (condition, body) :: others) locals otherwise buffer =
      executeBlock invoke body locals buffer := by
  induction earlier with
  | nil =>
      rw [List.nil_append, executeArms, holds]
      rfl
  | cons arm rest inductionHypothesis =>
      rw [List.cons_append, executeArms, fail arm List.mem_cons_self]
      exact inductionHypothesis fun other member => fail other (List.mem_cons_of_mem _ member)

/-- Whether the statement by itself takes the front token away. -/
def Statement.takesToken : Statement -> Bool
  | .assign _ (.call routine []) | .call routine [] => routine == Support.take
  | _ => false

/-- Whether the statement is a branch whose first arm that accepts the token is for the
leaf and has the given statements. -/
def Statement.Chooses (settings : Settings) (token : TokenRecord) (leaf : Terminal) (body : List Statement)
    (statement : Statement) : Prop :=
  leaf.accepts token = true ∧ ∃ earlier others fallback,
    statement = .branch (earlier ++ (Step.matchCode settings leaf, body) :: others) fallback ∧
      ∀ arm ∈ earlier, ∃ other, arm.1 = Step.matchCode settings other ∧ other.accepts token = false

namespace Program

variable {program : Program}

/-- Runs what is left at a point, with calls nested up to the given depth. -/
def runFrom (program : Program) (depth : Nat) (point : RunPoint) : Except Halt (List TokenRecord) :=
  Frame.executeAll (program.run depth) point.frames point.buffer

theorem runFrom_extends (program : Program) {depth deeper : Nat} (le : depth ≤ deeper) (point : RunPoint) :
    Extends (program.runFrom depth point) (program.runFrom deeper point) :=
  Frame.executeAll_extends (program.run_extends le) point.frames point.buffer

/-- Whether a run from the point ends with the given result. -/
def EndsFrom (program : Program) (point : RunPoint) (result : Except Halt (List TokenRecord)) : Prop :=
  result ≠ .error .unfinished ∧ ∃ depth, program.runFrom depth point = result

def entryPoint (rule : String) (buffer : List TokenRecord) : RunPoint :=
  ⟨[⟨[.call rule []], .none⟩], buffer⟩

/-- Calling a rule by itself is running its routine. -/
theorem endsFrom_entryPoint {rule : String} {buffer : List TokenRecord} {result : Except Halt (List TokenRecord)} :
    program.EndsFrom (entryPoint rule buffer) result ↔ program.Ends rule buffer result := by
  have same (depth : Nat) : program.runFrom depth (entryPoint rule buffer) =
      (program.run depth rule [] buffer).map Prod.snd := by
    rw [runFrom, entryPoint, Frame.executeAll_call]
    cases program.run depth rule [] buffer <;> rfl
  simp only [EndsFrom, Ends, same]

/-! ## From point to point -/

/-- Whether a run moves from one point to another without coming to points in between
that are worth telling.  If it goes into an arm, it has tested the arm's condition. -/
inductive Moves (program : Program) : RunPoint -> Option Expression -> RunPoint -> Prop where
  | past {front rest : List Statement} {locals after : Locals} {callers : List Frame} {buffer : List TokenRecord}
      {depth : Nat}
      (run : Statement.executeBlock (program.run depth) front locals buffer = .ok (.next after, buffer)) :
      Moves program ⟨⟨front ++ rest, locals⟩ :: callers, buffer⟩ none ⟨⟨rest, after⟩ :: callers, buffer⟩
  | taking {statement : Statement} {rest : List Statement} {locals after : Locals} {callers : List Frame}
      {buffer remaining : List TokenRecord} {depth : Nat} (takes : statement.takesToken = true)
      (run : statement.execute (program.run depth) locals buffer = .ok (.next after, remaining)) :
      Moves program ⟨⟨statement :: rest, locals⟩ :: callers, buffer⟩ none ⟨⟨rest, after⟩ :: callers, remaining⟩
  | arm {earlier others : List (Expression × List Statement)} {condition : Expression} {body rest : List Statement}
      {fallback : Option (List Statement)} {locals : Locals} {callers : List Frame} {buffer : List TokenRecord}
      (fail : ∀ depth, ∀ arm ∈ earlier, arm.1.evaluate (program.run depth) locals buffer = .ok (.truth false, buffer))
      (holds : ∀ depth, condition.evaluate (program.run depth) locals buffer = .ok (.truth true, buffer)) :
      Moves program ⟨⟨.branch (earlier ++ (condition, body) :: others) fallback :: rest, locals⟩ :: callers, buffer⟩
        (some condition) ⟨⟨body ++ rest, locals⟩ :: callers, buffer⟩
  | entering {name : String} {routine : Routine} {rest : List Statement} {locals : Locals} {callers : List Frame}
      {buffer : List TokenRecord} (found : program.routine? name = some routine)
      (noParameters : routine.parameters = []) :
      Moves program ⟨⟨.call name [] :: rest, locals⟩ :: callers, buffer⟩ none
        ⟨⟨routine.body, .none⟩ :: ⟨rest, locals⟩ :: callers, buffer⟩

/-- Whether a run that is at one point comes to another, with the tests of all arms that
it goes into on the way. -/
inductive Reaches (program : Program) : RunPoint -> List Expression -> RunPoint -> Prop where
  | here (point : RunPoint) : Reaches program point [] point
  | onward {start middle target : RunPoint} {test : Option Expression} {tests : List Expression}
      (moves : program.Moves start test middle) (further : Reaches program middle tests target) :
      Reaches program start (test.toList ++ tests) target

/-! ## Going on from a point -/

private theorem endsFrom_past {front rest : List Statement} {locals after : Locals} {callers : List Frame}
    {buffer remaining : List TokenRecord} {enough : Nat}
    (run : Statement.executeBlock (program.run enough) front locals buffer = .ok (.next after, remaining))
    {result : Except Halt (List TokenRecord)} :
    program.EndsFrom ⟨⟨front ++ rest, locals⟩ :: callers, buffer⟩ result ↔
      program.EndsFrom ⟨⟨rest, after⟩ :: callers, remaining⟩ result := by
  have deepens {depth deeper : Nat} (le : depth ≤ deeper) :=
    Statement.executeBlock_extends (program.run_extends le) front locals buffer
  refine and_congr_right fun finished => ⟨?_, ?_⟩
  · rintro ⟨depth, rfl⟩
    refine ⟨depth, ?_⟩
    have frontFinished : Statement.executeBlock (program.run depth) front locals buffer ≠ .error .unfinished := by
      intro unfinished
      rw [runFrom, Frame.executeAll, Statement.executeBlock_append, unfinished] at finished
      exact finished rfl
    have deep := (deepens (Nat.le_max_left enough depth)).ok run
    rw [deepens (Nat.le_max_right enough depth) frontFinished] at deep
    exact (Frame.executeAll_of_executeBlock deep callers).symm
  · rintro ⟨depth, rfl⟩
    refine ⟨max enough depth, ?_⟩
    have deep := (deepens (Nat.le_max_left enough depth)).ok run
    exact (Frame.executeAll_of_executeBlock deep callers).trans
      (program.runFrom_extends (Nat.le_max_right enough depth) _ finished)

/-- The body of a routine runs one call deeper than the statement that calls it. -/
private theorem endsFrom_entering {name : String} {routine : Routine} {rest : List Statement} {locals : Locals}
    {callers : List Frame} {buffer : List TokenRecord} (found : program.routine? name = some routine)
    (noParameters : routine.parameters = []) {result : Except Halt (List TokenRecord)} :
    program.EndsFrom ⟨⟨.call name [] :: rest, locals⟩ :: callers, buffer⟩ result ↔
      program.EndsFrom ⟨⟨routine.body, .none⟩ :: ⟨rest, locals⟩ :: callers, buffer⟩ result := by
  have called (depth : Nat) : program.runFrom (depth + 1) ⟨⟨.call name [] :: rest, locals⟩ :: callers, buffer⟩ =
      (Statement.executeBlock (program.run depth) routine.body .none buffer).map Prod.snd >>=
        Frame.executeAll (program.run (depth + 1)) (⟨rest, locals⟩ :: callers) := by
    rw [runFrom, Frame.executeAll_call, run, found]
    exact congrArg (· >>= _) (Routine.map_snd_execute noParameters _ buffer)
  refine and_congr_right fun finished => ⟨?_, ?_⟩
  · rintro ⟨depth, rfl⟩
    cases depth with
    | zero =>
        rw [runFrom, Frame.executeAll_call] at finished
        exact absurd rfl finished
    | succ depth =>
        refine ⟨depth + 1, ?_⟩
        have body := Statement.executeBlock_extends (program.run_extends_succ depth) routine.body .none buffer
        rw [called] at finished ⊢
        exact (body.map Prod.snd).bind (fun _ => .refl _) finished
  · rintro ⟨depth, rfl⟩
    refine ⟨depth + 1, ?_⟩
    rw [called]
    exact (Extends.refl _).bind (Frame.executeAll_extends (program.run_extends_succ depth) _) finished

/-- A run ends as it does from the next point that it comes to. -/
theorem Moves.endsFrom_iff {start target : RunPoint} {test : Option Expression}
    (moves : program.Moves start test target) {result : Except Halt (List TokenRecord)} :
    program.EndsFrom start result ↔ program.EndsFrom target result := by
  cases moves with
  | past run => exact endsFrom_past run
  | @taking statement rest locals after callers buffer remaining depth takes run =>
      have block : Statement.executeBlock (program.run depth) [statement] locals buffer =
          .ok (.next after, remaining) := by
        rw [Statement.executeBlock, run]
        rfl
      exact endsFrom_past block
  | @arm earlier others condition body rest fallback locals callers buffer fail holds =>
      have same (depth : Nat) :
          program.runFrom depth
              ⟨⟨.branch (earlier ++ (condition, body) :: others) fallback :: rest, locals⟩ :: callers, buffer⟩ =
            program.runFrom depth ⟨⟨body ++ rest, locals⟩ :: callers, buffer⟩ := by
        rw [runFrom, runFrom, Frame.executeAll, Frame.executeAll, Statement.executeBlock_append,
          Statement.executeBlock, Statement.execute, Statement.executeArms_of_holds (fail depth) (holds depth)]
      simp only [EndsFrom, same]
  | entering found noParameters => exact endsFrom_entering found noParameters

/-- A run ends as it does from each of the points that it comes to. -/
theorem Reaches.endsFrom_iff {start target : RunPoint} {tests : List Expression}
    (reaches : program.Reaches start tests target) {result : Except Halt (List TokenRecord)} :
    program.EndsFrom start result ↔ program.EndsFrom target result := by
  induction reaches with
  | here => exact Iff.rfl
  | onward moves _ inductionHypothesis => exact moves.endsFrom_iff.trans inductionHypothesis

/-! ## Taking a token -/

/-- Whether a run comes from one point to another by taking the front token away as the
given leaf.  This token, and no other, is gone and is the one being looked at, and all
arms that the run has gone into, of which there is one at least, are for the leaf. -/
def Takes (program : Program) (settings : Settings) (leaf : Terminal) (start target : RunPoint) : Prop :=
  ∃ tests frame callers token,
    program.Reaches start tests target ∧ start.buffer = token :: target.buffer ∧
      target.frames = frame :: callers ∧ frame.locals settings.tokenVariable = some (.record token) ∧
      tests ≠ [] ∧ ∀ test ∈ tests, test = Step.matchCode settings leaf

private theorem Takes.of_moves {settings : Settings} {leaf : Terminal} {start middle target : RunPoint}
    {test : Option Expression} (moves : program.Moves start test middle) (keeps : middle.buffer = start.buffer)
    (own : ∀ condition ∈ test, condition = Step.matchCode settings leaf)
    (takes : program.Takes settings leaf middle target) : program.Takes settings leaf start target := by
  rcases takes with ⟨tests, frame, callers, token, reaches, front, innermost, current, nonempty, all⟩
  refine ⟨_, frame, callers, token, .onward moves reaches, keeps ▸ front, innermost, current, ?_, ?_⟩
  · exact List.append_ne_nil_of_right_ne_nil _ nonempty
  · intro condition member
    rcases List.mem_append.mp member with here | later
    · exact own condition (Option.mem_toList.mp here)
    · exact all condition later

theorem Takes.of_untested {settings : Settings} {leaf : Terminal} {start middle target : RunPoint}
    (moves : program.Moves start none middle) (keeps : middle.buffer = start.buffer)
    (takes : program.Takes settings leaf middle target) : program.Takes settings leaf start target := by
  refine takes.of_moves moves keeps ?_
  intro condition impossible
  cases impossible

theorem Takes.of_tested {settings : Settings} {leaf : Terminal} {start middle target : RunPoint}
    (moves : program.Moves start (some (Step.matchCode settings leaf)) middle)
    (keeps : middle.buffer = start.buffer) (takes : program.Takes settings leaf middle target) :
    program.Takes settings leaf start target := by
  refine takes.of_moves moves keeps ?_
  intro condition same
  exact (Option.some.inj same).symm

/-- A rule that takes a token ends as the run goes on behind the token. -/
theorem Takes.ends_iff {settings : Settings} {leaf : Terminal} {rule : String} {buffer : List TokenRecord}
    {target : RunPoint} (takes : program.Takes settings leaf (entryPoint rule buffer) target)
    {result : Except Halt (List TokenRecord)} : program.Ends rule buffer result ↔ program.EndsFrom target result := by
  rcases takes with ⟨tests, frame, callers, token, reaches, _⟩
  exact endsFrom_entryPoint.symm.trans reaches.endsFrom_iff

/-- A branch that chooses an arm for the token being looked at goes into it. -/
theorem Moves.chosen {settings : Settings} {locals : Locals} {token : TokenRecord}
    (current : locals settings.tokenVariable = some (.record token)) {statement : Statement} {leaf : Terminal}
    {body : List Statement} (chooses : statement.Chooses settings token leaf body) (behind : List Statement)
    (callers : List Frame) (buffer : List TokenRecord) :
    program.Moves ⟨⟨statement :: behind, locals⟩ :: callers, buffer⟩ (some (Step.matchCode settings leaf))
      ⟨⟨body ++ behind, locals⟩ :: callers, buffer⟩ := by
  rcases chooses with ⟨accepted, earlier, others, fallback, rfl, fail⟩
  refine .arm (fun depth arm member => ?_) fun depth => ?_
  · rcases fail arm member with ⟨other, written, refused⟩
    rw [written, Step.evaluate_matchCode current, refused]
  · rw [Step.evaluate_matchCode current, accepted]

end Program
end PredictiveParsing
