import PredictiveParsing.Plan.Writing
import PredictiveParsing.Proofs.Execution

namespace PredictiveParsing

/-!
# Following plans

The steps of a plan have a meaning of their own: what they do to the token buffer,
given what calling a rule does to it.  The statements written for the steps do the
same, whatever the variables hold beforehand.  The only detour is that calls which
come directly after a required token are written into the branch where it matched;
the statements after the branch go on behind them.
-/

/-- What calling a rule does to the token buffer. -/
abbrev RuleCall := String -> List TokenRecord -> Except Halt (List TokenRecord)

/-- The token buffer after a token has been obtained. -/
def Acquisition.remaining : Acquisition -> List TokenRecord -> List TokenRecord
  | .peek, buffer => buffer
  | .take, buffer => buffer.tail

namespace Step

mutual

/-- What a step does to the token buffer. -/
def follow (call : RuleCall) : Step -> List TokenRecord -> Except Halt (List TokenRecord)
  | .nothing, buffer => .ok buffer
  | .require leaf, buffer =>
      if leaf.accepts (frontToken buffer) then .ok buffer.tail
      else .error (.mismatch (frontToken buffer).position leaf.spelling)
  | .call rule, buffer => call rule buffer
  | .advance, buffer => .ok buffer.tail
  | .group steps, buffer => followAll call steps buffer
  | .select acquisition arms mayBeAbsent, buffer =>
      if arms.isEmpty && mayBeAbsent then .ok buffer
      else
        let expected := ",".intercalate (arms.map (·.1.spelling))
        followArms call arms (frontToken buffer) (acquisition.remaining buffer)
          (if mayBeAbsent then .ok (acquisition.remaining buffer)
          else .error (.mismatch (frontToken buffer).position expected))

def followAll (call : RuleCall) : List Step -> List TokenRecord -> Except Halt (List TokenRecord)
  | [], buffer => .ok buffer
  | step :: rest, buffer => do followAll call rest (← follow call step buffer)

/-- Follows the first arm that accepts the token, on the given buffer. -/
def followArms (call : RuleCall) :
    List (Terminal × List Step) -> TokenRecord -> List TokenRecord ->
      Except Halt (List TokenRecord) -> Except Halt (List TokenRecord)
  | [], _, _, otherwise => otherwise
  | (leaf, steps) :: rest, token, buffer, otherwise =>
      if leaf.accepts token then followAll call steps buffer else followArms call rest token buffer otherwise

end

end Step

/-! ## Running the written statements -/

/-- Whether an invocation reads and takes tokens as the buffer routines do. -/
structure Invocation.ServesTokens (invoke : Invocation) : Prop where
  peek : ∀ buffer, invoke Support.peek [] buffer = .ok (some (.record (frontToken buffer)), buffer)
  take : ∀ buffer, invoke Support.take [] buffer = .ok (some (.record (frontToken buffer)), buffer.tail)

def Invocation.ruleCall (invoke : Invocation) : RuleCall :=
  fun rule buffer => (invoke rule [] buffer).map Prod.snd

/-- Whether running statements changes the buffer as the result says and goes on,
or halts where the result does. -/
def GoesOn (run : Except Halt (Flow × List TokenRecord)) : Except Halt (List TokenRecord) -> Prop
  | .ok remaining => ∃ locals, run = .ok (.next locals, remaining)
  | .error halt => run = .error halt

theorem GoesOn.map_snd {run : Except Halt (Flow × List TokenRecord)} {result : Except Halt (List TokenRecord)}
    (goes : GoesOn run result) : run.map Prod.snd = result := by
  cases result with
  | ok remaining =>
      rcases goes with ⟨locals, rfl⟩
      rfl
  | error halt =>
      have halted : run = .error halt := goes
      rw [halted]
      rfl

namespace Step

variable {invoke : Invocation} {settings : Settings}

theorem goesOn_append {first later : List Statement} {locals : Locals} {buffer : List TokenRecord}
    {result : Except Halt (List TokenRecord)} {next : List TokenRecord -> Except Halt (List TokenRecord)}
    (firstGoes : GoesOn (Statement.executeBlock invoke first locals buffer) result)
    (laterGoes : ∀ locals remaining,
      GoesOn (Statement.executeBlock invoke later locals remaining) (next remaining)) :
    GoesOn (Statement.executeBlock invoke (first ++ later) locals buffer) (result >>= next) := by
  rw [Statement.executeBlock_append]
  cases result with
  | ok remaining =>
      rcases firstGoes with ⟨after, run⟩
      rw [run]
      exact laterGoes after remaining
  | error halt =>
      have run : Statement.executeBlock invoke first locals buffer = .error halt := firstGoes
      rw [run]
      rfl

theorem execute_acquireCode (settings : Settings) (serves : invoke.ServesTokens) (acquisition : Acquisition)
    (locals : Locals) (buffer : List TokenRecord) :
    (acquireCode settings acquisition).execute invoke locals buffer =
      .ok (.next (locals.set settings.tokenVariable (.record (frontToken buffer))),
        acquisition.remaining buffer) := by
  cases acquisition with
  | peek =>
      rw [acquireCode, Statement.execute, Expression.evaluate, Expression.evaluateAll]
      simp only [bind, Except.bind, serves.peek, Acquisition.remaining]
  | take =>
      rw [acquireCode, Statement.execute, Expression.evaluate, Expression.evaluateAll]
      simp only [bind, Except.bind, serves.take, Acquisition.remaining]

private theorem text_beq_text (left right : String) : (Value.text left == Value.text right) = (left == right) := by
  rw [Bool.eq_iff_iff, beq_iff_eq, beq_iff_eq, Value.text.injEq]

theorem evaluate_matchCode {locals : Locals} {token : TokenRecord}
    (current : locals settings.tokenVariable = some (.record token)) (leaf : Terminal)
    (buffer : List TokenRecord) :
    (matchCode settings leaf).evaluate invoke locals buffer = .ok (.truth (leaf.accepts token), buffer) := by
  cases leaf with
  | literal text =>
      simp only [matchCode, currentToken, Expression.evaluate, current, bind, Except.bind, TokenRecord.field,
        text_beq_text, Terminal.accepts]
  | tokenClass name =>
      simp only [matchCode, currentToken, Expression.evaluate, current, bind, Except.bind, TokenRecord.field,
        text_beq_text, Terminal.accepts]

theorem execute_mismatchCode (invoke : Invocation) {locals : Locals} {token : TokenRecord}
    (current : locals settings.tokenVariable = some (.record token)) (expected : String)
    (buffer : List TokenRecord) :
    (mismatchCode settings expected).execute invoke locals buffer =
      .error (.mismatch token.position expected) := by
  simp only [mismatchCode, currentToken, Statement.execute, Expression.evaluate, current, bind, Except.bind,
    TokenRecord.field]

theorem execute_call (invoke : Invocation) (routine : String) (locals : Locals) (buffer : List TokenRecord) :
    (Statement.call routine []).execute invoke locals buffer =
      (invoke routine [] buffer).map fun result => (.next locals, result.2) := by
  rw [Statement.execute, Expression.evaluateAll]
  simp only [bind, Except.bind, Except.map]

/-- Only a required leaf looks at the steps behind it. -/
theorem code_cons (settings : Settings) {step : Step} (notRequired : ∀ leaf, step ≠ .require leaf)
    (more : List Step) : code settings (step :: more) = code settings [step] ++ code settings more := by
  cases step with
  | require leaf => exact absurd rfl (notRequired leaf)
  | nothing => rw [code, code, code, List.nil_append]
  | call rule => rw [code, code, code, List.singleton_append]
  | advance => rw [code, code, code, List.singleton_append]
  | group steps => rw [code, code, code, List.append_nil]
  | select acquisition arms mayBeAbsent => rw [code, code, code, List.append_nil]

theorem code_dropWhile (settings : Settings) (steps : List Step) :
    code settings (steps.dropWhile isNothing) = code settings steps := by
  induction steps with
  | nil => rfl
  | cons step rest inductionHypothesis =>
      cases step with
      | nothing =>
          rw [code]
          exact inductionHypothesis
      | _ => rfl

theorem code_body (settings : Settings) (alternative : Step) :
    code settings alternative.body = code settings [alternative] := by
  cases alternative with
  | nothing => rw [body, code, code, code]
  | group steps => rw [body, code_dropWhile, code, code, List.append_nil]
  | _ => rfl

theorem armsCode_eq_map (settings : Settings) (arms : List (Terminal × List Step)) :
    armsCode settings arms = arms.map fun arm => (matchCode settings arm.1, code settings arm.2) := by
  induction arms with
  | nil => rw [armsCode, List.map_nil]
  | cons arm rest inductionHypothesis => rw [armsCode, inductionHypothesis, List.map_cons]

/-- Calls that come first are written first. -/
theorem callCode_append_code (steps : List Step) :
    code settings steps = callCode (leadingCalls steps) ++ (code settings steps).drop (leadingCalls steps).length := by
  induction steps with
  | nil => rfl
  | cons step rest inductionHypothesis =>
      cases step with
      | call rule =>
          rw [code, leadingCalls, List.length_cons, List.drop_succ_cons]
          exact congrArg (Statement.call rule [] :: ·) inductionHypothesis
      | _ => rfl

theorem goesOn_cons {statement : Statement} {rest : List Statement} {locals after : Locals}
    {buffer remaining : List TokenRecord} {result : Except Halt (List TokenRecord)}
    (first : statement.execute invoke locals buffer = .ok (.next after, remaining))
    (later : GoesOn (Statement.executeBlock invoke rest after remaining) result) :
    GoesOn (Statement.executeBlock invoke (statement :: rest) locals buffer) result := by
  rw [Statement.executeBlock, first]
  exact later

theorem goesOn_single {statement : Statement} {locals : Locals} {buffer : List TokenRecord}
    {result : Except Halt (List TokenRecord)}
    (goes : GoesOn (statement.execute invoke locals buffer) result) :
    GoesOn (Statement.executeBlock invoke [statement] locals buffer) result := by
  cases result with
  | ok remaining =>
      rcases goes with ⟨after, run⟩
      exact goesOn_cons run ⟨after, rfl⟩
  | error halt =>
      have run : statement.execute invoke locals buffer = .error halt := goes
      rw [Statement.executeBlock, run]
      rfl

theorem executeBlock_mismatchCode (invoke : Invocation) {locals : Locals} {token : TokenRecord}
    (current : locals settings.tokenVariable = some (.record token)) (expected : String)
    (buffer : List TokenRecord) :
    Statement.executeBlock invoke [mismatchCode settings expected] locals buffer =
      .error (.mismatch token.position expected) := by
  rw [Statement.executeBlock, execute_mismatchCode invoke current]
  rfl

/-- Whether running the written arms does what following the arms does, once the
token is in its variable. -/
def ArmsGoOn (invoke : Invocation) (settings : Settings) (arms : List (Terminal × List Step)) : Prop :=
  ∀ (locals : Locals) (token : TokenRecord) (buffer : List TokenRecord)
    (otherwise : List TokenRecord -> Except Halt (Flow × List TokenRecord))
    (result : Except Halt (List TokenRecord)),
    locals settings.tokenVariable = some (.record token) -> GoesOn (otherwise buffer) result ->
    GoesOn (Statement.executeArms invoke (armsCode settings arms) locals otherwise buffer)
      (followArms invoke.ruleCall arms token buffer result)

/-- A selection is written as a branch among its arms, except where there are none. -/
private theorem selectCode_goesOn (serves : invoke.ServesTokens) (acquisition : Acquisition)
    {arms : List (Terminal × List Step)} (armsGo : ArmsGoOn invoke settings arms) (mayBeAbsent : Bool)
    (locals : Locals) (buffer : List TokenRecord) :
    GoesOn
      (Statement.executeBlock invoke
        (selectCode settings acquisition (armsCode settings arms) (arms.map (·.1.spelling)) mayBeAbsent)
        locals buffer)
      (follow invoke.ruleCall (.select acquisition arms mayBeAbsent) buffer) := by
  have current := locals.set_self settings.tokenVariable (.record (frontToken buffer))
  have acquired := execute_acquireCode settings serves acquisition locals buffer
  cases arms with
  | nil =>
      cases mayBeAbsent with
      | true =>
          rw [armsCode, follow]
          exact ⟨locals, rfl⟩
      | false =>
          rw [armsCode, follow, followArms]
          exact goesOn_cons acquired (executeBlock_mismatchCode invoke current _ _)
  | cons arm rest =>
      rcases arm with ⟨leaf, steps⟩
      have nonempty : (armsCode settings ((leaf, steps) :: rest)).isEmpty = false := by
        rw [armsCode]
        rfl
      rw [follow, selectCode, nonempty]
      refine goesOn_cons acquired (goesOn_single ?_)
      rw [Statement.execute]
      refine armsGo _ _ _ _ _ current ?_
      cases mayBeAbsent with
      | true => exact ⟨_, rfl⟩
      | false => exact executeBlock_mismatchCode invoke current _ _

mutual

/-- The statements written for steps do what the steps do. -/
theorem code_goesOn (serves : invoke.ServesTokens) (settings : Settings) :
    ∀ (steps : List Step) (locals : Locals) (buffer : List TokenRecord),
      GoesOn (Statement.executeBlock invoke (code settings steps) locals buffer)
        (followAll invoke.ruleCall steps buffer)
  | [], locals, buffer => by
      rw [code, followAll]
      exact ⟨locals, rfl⟩
  | .nothing :: rest, locals, buffer => by
      rw [code, followAll, follow]
      exact code_goesOn serves settings rest locals buffer
  | .require leaf :: rest, locals, buffer => by
      rw [code, followAll, follow]
      refine goesOn_cons (execute_acquireCode settings serves .take locals buffer) ?_
      have current := locals.set_self settings.tokenVariable (.record (frontToken buffer))
      rw [Statement.executeBlock, Statement.execute, Statement.executeArms, evaluate_matchCode current]
      cases leaf.accepts (frontToken buffer) with
      | true =>
          -- The calls moved into the branch and the statements behind it are those of `rest`.
          have whole := code_goesOn serves settings rest
            (locals.set settings.tokenVariable (.record (frontToken buffer))) buffer.tail
          rw [callCode_append_code, Statement.executeBlock_append] at whole
          exact whole
      | false =>
          have failed := executeBlock_mismatchCode invoke current leaf.spelling buffer.tail
          simp only [bind, Except.bind, Statement.executeArms, Statement.executeFallback, Acquisition.remaining,
            failed]
          rfl
  | .call rule :: rest, locals, buffer => by
      rw [code, followAll, follow, Invocation.ruleCall]
      cases called : invoke rule [] buffer with
      | ok result =>
          refine goesOn_cons ?_ (code_goesOn serves settings rest locals result.2)
          rw [execute_call, called]
          rfl
      | error halt =>
          rw [Statement.executeBlock, execute_call, called]
          rfl
  | .advance :: rest, locals, buffer => by
      rw [code, followAll, follow]
      refine goesOn_cons ?_ (code_goesOn serves settings rest locals buffer.tail)
      rw [execute_call, serves.take]
      rfl
  | .group steps :: rest, locals, buffer => by
      rw [code, followAll, follow]
      exact goesOn_append (code_goesOn serves settings steps locals buffer)
        (fun after remaining => code_goesOn serves settings rest after remaining)
  | .select acquisition arms mayBeAbsent :: rest, locals, buffer => by
      rw [code, followAll]
      refine goesOn_append ?_ fun after remaining => code_goesOn serves settings rest after remaining
      exact selectCode_goesOn serves acquisition (armsCode_goesOn serves settings arms) mayBeAbsent locals buffer

theorem armsCode_goesOn (serves : invoke.ServesTokens) (settings : Settings) :
    ∀ arms : List (Terminal × List Step), ArmsGoOn invoke settings arms
  | [], locals, token, buffer, otherwise, result, _, fallback => by
      rw [armsCode, followArms]
      exact fallback
  | (leaf, steps) :: rest, locals, token, buffer, otherwise, result, current, fallback => by
      rw [armsCode, Statement.executeArms, evaluate_matchCode current, followArms]
      cases leaf.accepts token with
      | true => exact code_goesOn serves settings steps locals buffer
      | false => exact armsCode_goesOn serves settings rest locals token buffer otherwise result current fallback

end

end Step
end PredictiveParsing
