import PredictiveParsing.Code.Support
import PredictiveParsing.Proofs.TokenBuffer

namespace PredictiveParsing

/-!
# Running programs

Statements run in order.  A branch takes the first arm whose condition holds, a
mismatch stops the program, and the variables of a routine are its own.  Reading
or taking the front token concerns the buffer alone; what needs the lexer, a file
or the command line has no meaning here, and a program that comes to it is stuck.

A call may go as deep as a given number says.  A run that needs to go deeper has
not finished, and more depth changes nothing about a run that has.
-/

/-- What a statement can compute. -/
inductive Value where
  | text (value : String)
  | record (token : TokenRecord)
  | truth (holds : Bool)
deriving DecidableEq

/-- Why a run does not complete. -/
inductive Halt where
  /-- The program has reported what it expected at a position. -/
  | mismatch (position expected : String)
  /-- The program makes no sense from here on. -/
  | stuck
  /-- The run has to go deeper. -/
  | unfinished
deriving DecidableEq

theorem ok_ne_unfinished {α : Type} (value : α) : Except.ok value ≠ .error Halt.unfinished := by
  intro same
  cases same

theorem mismatch_ne_unfinished {α : Type} (position expected : String) :
    (Except.error (.mismatch position expected) : Except Halt α) ≠ .error .unfinished := by
  intro same
  cases same

/-- The variables of a routine that have values. -/
abbrev Locals := String -> Option Value

namespace Locals

def none : Locals := fun _ => Option.none

def set (locals : Locals) (name : String) (value : Value) : Locals :=
  fun other => if other = name then some value else locals other

/-- A variable has no value when it is introduced. -/
def introduce (locals : Locals) (name : String) : Locals :=
  fun other => if other = name then Option.none else locals other

theorem set_self (locals : Locals) (name : String) (value : Value) :
    locals.set name value name = some value :=
  if_pos rfl

/-- The variables of a routine when it is called. -/
def ofArguments : List Parameter -> List Value -> Locals
  | parameter :: parameters, argument :: arguments =>
      (ofArguments parameters arguments).set parameter.name argument
  | _, _ => none

end Locals

/-- What comes after a statement. -/
inductive Flow where
  | next (locals : Locals)
  | leave (value : Option Value)

/-- Running a routine on arguments and a buffer. -/
abbrev Invocation :=
  String -> List Value -> List TokenRecord -> Except Halt (Option Value × List TokenRecord)

/-! ## Expressions -/

namespace Expression

mutual

/-- The value of an expression, and the buffer after its calls. -/
def evaluate (invoke : Invocation) (locals : Locals) :
    Expression -> List TokenRecord -> Except Halt (Value × List TokenRecord)
  | .text value, buffer => .ok (.text value, buffer)
  | .var name, buffer =>
      match locals name with
      | some value => .ok (value, buffer)
      | none => .error .stuck
  | .argument _, _ => .error .stuck
  | .call routine arguments, buffer => do
      let (values, buffer) ← evaluateAll invoke locals arguments buffer
      match ← invoke routine values buffer with
      | (some value, buffer) => .ok (value, buffer)
      | (none, _) => .error .stuck
  | .field record selected, buffer => do
      match ← evaluate invoke locals record buffer with
      | (.record token, buffer) => .ok (.text (token.field selected), buffer)
      | _ => .error .stuck
  | .equal left right, buffer => do
      let (leftValue, buffer) ← evaluate invoke locals left buffer
      let (rightValue, buffer) ← evaluate invoke locals right buffer
      .ok (.truth (leftValue == rightValue), buffer)
  | .different left right, buffer => do
      let (leftValue, buffer) ← evaluate invoke locals left buffer
      let (rightValue, buffer) ← evaluate invoke locals right buffer
      .ok (.truth (leftValue != rightValue), buffer)

def evaluateAll (invoke : Invocation) (locals : Locals) :
    List Expression -> List TokenRecord -> Except Halt (List Value × List TokenRecord)
  | [], buffer => .ok ([], buffer)
  | expression :: rest, buffer => do
      let (value, buffer) ← evaluate invoke locals expression buffer
      let (values, buffer) ← evaluateAll invoke locals rest buffer
      .ok (value :: values, buffer)

end

end Expression

/-! ## Statements -/

/-- What a primitive operation does in a routine with the given variables. -/
def Primitive.perform (locals : Locals) :
    Primitive -> List TokenRecord -> Except Halt (Flow × List TokenRecord)
  | .peek, buffer => .ok (.leave (some (.record (frontToken buffer))), buffer)
  | .take, buffer => .ok (.leave (some (.record (frontToken buffer))), buffer.tail)
  | .report position expected, _ =>
      match locals position, locals expected with
      | some (.text position), some (.text expected) => .error (.mismatch position expected)
      | _, _ => .error .stuck
  | .runLexer _ _, _ | .loadTokens _ _, _ | .requireArguments _, _ => .error .stuck

namespace Statement

mutual

def execute (invoke : Invocation) :
    Statement -> Locals -> List TokenRecord -> Except Halt (Flow × List TokenRecord)
  | .comment _, locals, buffer => .ok (.next locals, buffer)
  | .declare name _, locals, buffer => .ok (.next (locals.introduce name), buffer)
  | .assign name value, locals, buffer => do
      let (value, buffer) ← value.evaluate invoke locals buffer
      .ok (.next (locals.set name value), buffer)
  | .call routine arguments, locals, buffer => do
      let (values, buffer) ← Expression.evaluateAll invoke locals arguments buffer
      let (_, buffer) ← invoke routine values buffer
      .ok (.next locals, buffer)
  | .branch arms fallback, locals, buffer =>
      executeArms invoke arms locals (executeFallback invoke fallback locals) buffer
  | .mismatch position expected, locals, buffer => do
      match ← position.evaluate invoke locals buffer with
      | (.text position, _) => .error (.mismatch position expected)
      | _ => .error .stuck
  | .leave none, _, buffer => .ok (.leave none, buffer)
  | .leave (some value), locals, buffer => do
      let (value, buffer) ← value.evaluate invoke locals buffer
      .ok (.leave (some value), buffer)
  | .primitive operation, locals, buffer => operation.perform locals buffer

def executeBlock (invoke : Invocation) :
    List Statement -> Locals -> List TokenRecord -> Except Halt (Flow × List TokenRecord)
  | [], locals, buffer => .ok (.next locals, buffer)
  | statement :: rest, locals, buffer => do
      match ← execute invoke statement locals buffer with
      | (.next locals, buffer) => executeBlock invoke rest locals buffer
      | (.leave value, buffer) => .ok (.leave value, buffer)

/-- Runs the first arm whose condition holds, and what comes otherwise if none does. -/
def executeArms (invoke : Invocation) :
    List (Expression × List Statement) -> Locals ->
      (List TokenRecord -> Except Halt (Flow × List TokenRecord)) ->
      List TokenRecord -> Except Halt (Flow × List TokenRecord)
  | [], _, otherwise, buffer => otherwise buffer
  | (condition, body) :: rest, locals, otherwise, buffer => do
      match ← condition.evaluate invoke locals buffer with
      | (.truth true, buffer) => executeBlock invoke body locals buffer
      | (.truth false, buffer) => executeArms invoke rest locals otherwise buffer
      | _ => .error .stuck

def executeFallback (invoke : Invocation) :
    Option (List Statement) -> Locals -> List TokenRecord -> Except Halt (Flow × List TokenRecord)
  | none, locals, buffer => .ok (.next locals, buffer)
  | some body, locals, buffer => executeBlock invoke body locals buffer

end

end Statement

/-- Running the body of a routine, which takes as many arguments as it has parameters. -/
def Routine.execute (invoke : Invocation) (routine : Routine) (arguments : List Value)
    (buffer : List TokenRecord) : Except Halt (Option Value × List TokenRecord) :=
  if arguments.length = routine.parameters.length then do
    let locals := Locals.ofArguments routine.parameters arguments
    match ← Statement.executeBlock invoke routine.body locals buffer with
    | (.next _, buffer) => .ok (none, buffer)
    | (.leave value, buffer) => .ok (value, buffer)
  else .error .stuck

/-- Running a routine of the program, with calls nested up to the given depth. -/
def Program.run (program : Program) : Nat -> Invocation
  | 0, _, _, _ => .error .unfinished
  | depth + 1, name, arguments, buffer =>
      match program.routine? name with
      | none => .error .stuck
      | some routine => routine.execute (program.run depth) arguments buffer

/-! ## More depth -/

/-- Whether the second result is the first, if the first is from a finished run. -/
def Extends {α : Type} (result deeper : Except Halt α) : Prop :=
  result ≠ .error .unfinished -> deeper = result

namespace Extends

variable {α β : Type}

theorem refl (result : Except Halt α) : Extends result result :=
  fun _ => rfl

theorem trans {first second third : Except Halt α} (left : Extends first second)
    (right : Extends second third) : Extends first third := by
  intro finished
  have same := left finished
  exact (right (same ▸ finished)).trans same

theorem bind {result deeper : Except Halt α} {next nextDeeper : α -> Except Halt β}
    (first : Extends result deeper) (later : ∀ value, Extends (next value) (nextDeeper value)) :
    Extends (result >>= next) (deeper >>= nextDeeper) := by
  intro finished
  cases result with
  | ok value =>
      rw [first (fun unfinished => by cases unfinished)]
      exact later value finished
  | error halt =>
      rw [first (fun unfinished => finished (by rw [unfinished]; rfl))]
      rfl

theorem ok {result deeper : Except Halt α} {value : α} (extended : Extends result deeper)
    (finished : result = .ok value) : deeper = .ok value := by
  rw [extended (fun unfinished => by rw [finished] at unfinished; cases unfinished), finished]

theorem map {result deeper : Except Halt α} (extended : Extends result deeper) (f : α -> β) :
    Extends (result.map f) (deeper.map f) := by
  intro finished
  rw [extended (fun unfinished => finished (by rw [unfinished]; rfl))]

end Extends

variable {invoke deeper : Invocation}

/-- Whether running routines by the second invocation extends doing so by the first. -/
def Invocation.Extends (invoke deeper : Invocation) : Prop :=
  ∀ name arguments buffer, PredictiveParsing.Extends (invoke name arguments buffer) (deeper name arguments buffer)

namespace Expression

mutual

theorem evaluate_extends (deepens : Invocation.Extends invoke deeper) (locals : Locals) :
    ∀ (expression : Expression) (buffer : List TokenRecord),
      Extends (expression.evaluate invoke locals buffer) (expression.evaluate deeper locals buffer)
  | .text value, buffer => .refl _
  | .var name, buffer => .refl _
  | .argument number, buffer => .refl _
  | .call routine arguments, buffer => by
      rw [evaluate, evaluate]
      refine (evaluateAll_extends deepens locals arguments buffer).bind ?_
      intro values
      refine (deepens routine values.1 values.2).bind ?_
      intro result
      exact .refl _
  | .field record selected, buffer => by
      rw [evaluate, evaluate]
      refine (evaluate_extends deepens locals record buffer).bind ?_
      intro result
      exact .refl _
  | .equal left right, buffer => by
      rw [evaluate, evaluate]
      refine (evaluate_extends deepens locals left buffer).bind ?_
      intro result
      refine (evaluate_extends deepens locals right result.2).bind ?_
      intro result
      exact .refl _
  | .different left right, buffer => by
      rw [evaluate, evaluate]
      refine (evaluate_extends deepens locals left buffer).bind ?_
      intro result
      refine (evaluate_extends deepens locals right result.2).bind ?_
      intro result
      exact .refl _

theorem evaluateAll_extends (deepens : Invocation.Extends invoke deeper) (locals : Locals) :
    ∀ (expressions : List Expression) (buffer : List TokenRecord),
      Extends (evaluateAll invoke locals expressions buffer) (evaluateAll deeper locals expressions buffer)
  | [], buffer => .refl _
  | expression :: rest, buffer => by
      rw [evaluateAll, evaluateAll]
      refine (evaluate_extends deepens locals expression buffer).bind ?_
      intro result
      refine (evaluateAll_extends deepens locals rest result.2).bind ?_
      intro result
      exact .refl _

end

end Expression

namespace Statement

mutual

theorem execute_extends (deepens : Invocation.Extends invoke deeper) :
    ∀ (statement : Statement) (locals : Locals) (buffer : List TokenRecord),
      Extends (statement.execute invoke locals buffer) (statement.execute deeper locals buffer)
  | .comment text, locals, buffer => .refl _
  | .declare name type, locals, buffer => .refl _
  | .assign name value, locals, buffer => by
      rw [execute, execute]
      refine (Expression.evaluate_extends deepens locals value buffer).bind ?_
      intro result
      exact .refl _
  | .call routine arguments, locals, buffer => by
      rw [execute, execute]
      refine (Expression.evaluateAll_extends deepens locals arguments buffer).bind ?_
      intro values
      refine (deepens routine values.1 values.2).bind ?_
      intro result
      exact .refl _
  | .branch arms fallback, locals, buffer => by
      rw [execute, execute]
      exact executeArms_extends deepens arms locals _ _ (executeFallback_extends deepens fallback locals) buffer
  | .mismatch position expected, locals, buffer => by
      rw [execute, execute]
      refine (Expression.evaluate_extends deepens locals position buffer).bind ?_
      intro result
      exact .refl _
  | .leave none, locals, buffer => .refl _
  | .leave (some value), locals, buffer => by
      rw [execute, execute]
      refine (Expression.evaluate_extends deepens locals value buffer).bind ?_
      intro result
      exact .refl _
  | .primitive operation, locals, buffer => .refl _

theorem executeBlock_extends (deepens : Invocation.Extends invoke deeper) :
    ∀ (statements : List Statement) (locals : Locals) (buffer : List TokenRecord),
      Extends (executeBlock invoke statements locals buffer) (executeBlock deeper statements locals buffer)
  | [], locals, buffer => .refl _
  | statement :: rest, locals, buffer => by
      rw [executeBlock, executeBlock]
      refine (execute_extends deepens statement locals buffer).bind ?_
      rintro ⟨flow, buffer⟩
      cases flow with
      | next locals => exact executeBlock_extends deepens rest locals buffer
      | leave value => exact .refl _

theorem executeArms_extends (deepens : Invocation.Extends invoke deeper) :
    ∀ (arms : List (Expression × List Statement)) (locals : Locals)
      (otherwise otherwiseDeeper : List TokenRecord -> Except Halt (Flow × List TokenRecord)),
      (∀ buffer, Extends (otherwise buffer) (otherwiseDeeper buffer)) -> ∀ buffer : List TokenRecord,
      Extends (executeArms invoke arms locals otherwise buffer)
        (executeArms deeper arms locals otherwiseDeeper buffer)
  | [], locals, otherwise, otherwiseDeeper, fallback, buffer => fallback buffer
  | (condition, body) :: rest, locals, otherwise, otherwiseDeeper, fallback, buffer => by
      rw [executeArms, executeArms]
      refine (Expression.evaluate_extends deepens locals condition buffer).bind ?_
      rintro ⟨value, buffer⟩
      cases value with
      | text value => exact .refl _
      | record token => exact .refl _
      | truth holds =>
          cases holds with
          | true => exact executeBlock_extends deepens body locals buffer
          | false => exact executeArms_extends deepens rest locals _ _ fallback buffer

theorem executeFallback_extends (deepens : Invocation.Extends invoke deeper) :
    ∀ (fallback : Option (List Statement)) (locals : Locals) (buffer : List TokenRecord),
      Extends (executeFallback invoke fallback locals buffer) (executeFallback deeper fallback locals buffer)
  | none, _, _ => .refl _
  | some body, locals, buffer => executeBlock_extends deepens body locals buffer

end

/-- A block is run part by part. -/
theorem executeBlock_append (invoke : Invocation) (first later : List Statement) (locals : Locals)
    (buffer : List TokenRecord) :
    executeBlock invoke (first ++ later) locals buffer =
      executeBlock invoke first locals buffer >>= fun
        | (.next locals, buffer) => executeBlock invoke later locals buffer
        | (.leave value, buffer) => .ok (.leave value, buffer) := by
  induction first generalizing locals buffer with
  | nil => rfl
  | cons statement rest inductionHypothesis =>
      rw [List.cons_append, executeBlock, executeBlock, bind_assoc]
      congr 1
      funext result
      rcases result with ⟨flow, remaining⟩
      cases flow with
      | next locals => exact inductionHypothesis locals remaining
      | leave value => rfl

end Statement

theorem Routine.execute_extends (deepens : Invocation.Extends invoke deeper) (routine : Routine)
    (arguments : List Value) (buffer : List TokenRecord) :
    Extends (routine.execute invoke arguments buffer) (routine.execute deeper arguments buffer) := by
  unfold Routine.execute
  split
  · refine (Statement.executeBlock_extends deepens routine.body _ buffer).bind ?_
    intro result
    exact .refl _
  · exact .refl _

/-- A routine without parameters does to the buffer what its body does. -/
theorem Routine.map_snd_execute {routine : Routine} (noParameters : routine.parameters = [])
    (invoke : Invocation) (buffer : List TokenRecord) :
    (routine.execute invoke [] buffer).map Prod.snd =
      (Statement.executeBlock invoke routine.body .none buffer).map Prod.snd := by
  rcases routine with ⟨name, role, parameters, returns, body⟩
  cases noParameters
  refine (congrArg (Except.map Prod.snd) (if_pos rfl)).trans ?_
  cases ran : Statement.executeBlock invoke body .none buffer with
  | ok result =>
      rcases result with ⟨flow, remaining⟩
      simp only [Locals.ofArguments, ran]
      cases flow <;> rfl
  | error halt =>
      simp only [Locals.ofArguments, ran]
      rfl

namespace Program

theorem run_extends_succ (program : Program) (depth : Nat) :
    Invocation.Extends (program.run depth) (program.run (depth + 1)) := by
  induction depth with
  | zero =>
      intro name arguments buffer finished
      exact absurd rfl finished
  | succ depth inductionHypothesis =>
      intro name arguments buffer
      rw [run, run]
      cases program.routine? name with
      | none => exact .refl _
      | some routine => exact routine.execute_extends inductionHypothesis arguments buffer

/-- A finished run stays as it is when calls may go deeper. -/
theorem run_extends (program : Program) {depth deeper : Nat} (le : depth ≤ deeper) :
    Invocation.Extends (program.run depth) (program.run deeper) := by
  induction le with
  | refl => exact fun _ _ _ => .refl _
  | step _ inductionHypothesis =>
      intro name arguments buffer
      exact (inductionHypothesis name arguments buffer).trans (program.run_extends_succ _ name arguments buffer)

/-- Whether a run of the routine completes and leaves the given tokens. -/
def Completes (program : Program) (routine : String) (buffer rest : List TokenRecord) : Prop :=
  ∃ depth value, program.run depth routine [] buffer = .ok (value, rest)

/-- Whether a run of the routine ends with the given result: it leaves tokens, or it
halts for a reason of its own. -/
def Ends (program : Program) (routine : String) (buffer : List TokenRecord)
    (result : Except Halt (List TokenRecord)) : Prop :=
  result ≠ .error .unfinished ∧ ∃ depth, (program.run depth routine [] buffer).map Prod.snd = result

theorem completes_iff_ends {program : Program} {routine : String} {buffer rest : List TokenRecord} :
    program.Completes routine buffer rest ↔ program.Ends routine buffer (.ok rest) := by
  constructor
  · rintro ⟨depth, value, run⟩
    exact ⟨ok_ne_unfinished rest, depth, by rw [run]; rfl⟩
  · rintro ⟨_, depth, run⟩
    cases ran : program.run depth routine [] buffer with
    | ok result =>
        rw [ran] at run
        cases run
        exact ⟨depth, result.1, ran⟩
    | error halt =>
        rw [ran] at run
        cases run

end Program
end PredictiveParsing
