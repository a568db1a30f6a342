import PredictiveParsing.Dialect.PythonModule
import PredictiveParsing.Dialect.RustProgram

namespace PredictiveParsing

/-!
# Writing that does not look back

A dialect may remember what it has written, but only for the end of the program.  What
becomes of a statement does not depend on it, in any of the languages.  So a branch can be
taken apart: its arms are put together from what the conditions and the bodies become when
they are written by themselves.
-/

namespace Dialect

variable {State Fragment Value α β : Type}

/-- Whether a writer gives the same, whatever was written before. -/
def Steady (write : StateM State α) : Prop :=
  ∀ before other, (write.run before).1 = (write.run other).1

theorem Steady.pure (value : α) : Steady (Pure.pure value : StateM State α) :=
  fun _ _ => rfl

theorem Steady.bind {write : StateM State α} {next : α -> StateM State β} (first : Steady write)
    (later : ∀ value, Steady (next value)) : Steady (write >>= next) := by
  intro before other
  change ((next (write.run before).1).run (write.run before).2).1 =
    ((next (write.run other).1).run (write.run other).2).1
  rw [first before other]
  exact later _ _ _

/-- Whether none of the operations for statements depends on what was written before. -/
structure IsSteady (dialect : Dialect State Fragment Value) : Prop where
  expression : ∀ expression, Steady (dialect.expression expression)
  comment : ∀ text, Steady (dialect.comment text)
  declare : ∀ name type, Steady (dialect.declare name type)
  assign : ∀ name value, Steady (dialect.assign name value)
  call : ∀ routine arguments, Steady (dialect.call routine arguments)
  branch : ∀ arms fallback, Steady (dialect.branch arms fallback)
  leave : ∀ value, Steady (dialect.leave value)
  primitive : ∀ operation, Steady (dialect.primitive operation)

namespace IsSteady

variable {dialect : Dialect State Fragment Value}

theorem writeExpressions (steady : dialect.IsSteady) (expressions : List Expression) :
    Steady (dialect.writeExpressions expressions) := by
  induction expressions with
  | nil => exact .pure []
  | cons expression rest inductionHypothesis =>
      exact (steady.expression expression).bind fun _ => inductionHypothesis.bind fun _ => .pure _

mutual

theorem writeStatement (steady : dialect.IsSteady) : ∀ statement : Statement,
    Steady (dialect.writeStatement statement)
  | .comment text => by
      rw [Dialect.writeStatement]
      exact steady.comment text
  | .declare name type => by
      rw [Dialect.writeStatement]
      exact steady.declare name type
  | .assign name value => by
      rw [Dialect.writeStatement]
      exact (steady.expression value).bind fun _ => steady.assign name _
  | .call routine arguments => by
      rw [Dialect.writeStatement]
      exact (steady.writeExpressions arguments).bind fun _ => steady.call routine _
  | .branch arms fallback => by
      rw [Dialect.writeStatement]
      exact (writeArms steady arms).bind fun _ => (writeFallback steady fallback).bind fun _ => steady.branch _ _
  | .mismatch position expected => by
      rw [Dialect.writeStatement, Dialect.writeMismatch]
      exact (steady.expression position).bind fun _ => (steady.expression _).bind fun _ => steady.call _ _
  | .leave none => by
      rw [Dialect.writeStatement]
      exact steady.leave none
  | .leave (some value) => by
      rw [Dialect.writeStatement]
      exact (steady.expression value).bind fun _ => steady.leave _
  | .primitive operation => by
      rw [Dialect.writeStatement]
      exact steady.primitive operation

theorem writeBlock (steady : dialect.IsSteady) : ∀ statements : List Statement,
    Steady (dialect.writeBlock statements)
  | [] => by
      rw [Dialect.writeBlock]
      exact .pure []
  | statement :: rest => by
      rw [Dialect.writeBlock]
      exact (writeStatement steady statement).bind fun _ => (writeBlock steady rest).bind fun _ => .pure _

theorem writeArms (steady : dialect.IsSteady) : ∀ arms : List (Expression × List Statement),
    Steady (dialect.writeArms arms)
  | [] => by
      rw [Dialect.writeArms]
      exact .pure []
  | (condition, body) :: rest => by
      rw [Dialect.writeArms]
      exact (steady.expression condition).bind fun _ => (writeBlock steady body).bind fun _ =>
        (writeArms steady rest).bind fun _ => .pure _

theorem writeFallback (steady : dialect.IsSteady) : ∀ fallback : Option (List Statement),
    Steady (dialect.writeFallback fallback)
  | none => by
      rw [Dialect.writeFallback]
      exact .pure none
  | some body => by
      rw [Dialect.writeFallback]
      exact (writeBlock steady body).bind fun _ => .pure _

end

/-- Arms are written as if each condition and each body were written by itself. -/
theorem run_writeArms (steady : dialect.IsSteady) (start before : State)
    (arms : List (Expression × List Statement)) :
    ((dialect.writeArms arms).run before).1 = arms.map fun arm =>
      (((dialect.expression arm.1).run start).1, ((dialect.writeBlock arm.2).run start).1) := by
  induction arms generalizing before with
  | nil =>
      rw [Dialect.writeArms]
      rfl
  | cons arm rest inductionHypothesis =>
      rcases arm with ⟨condition, body⟩
      rw [Dialect.writeArms, List.map_cons, ← inductionHypothesis, steady.expression condition start before,
        steady.writeBlock body start ((dialect.expression condition).run before).2]
      rfl

theorem run_writeFallback (steady : dialect.IsSteady) (start before : State) (fallback : Option (List Statement)) :
    ((dialect.writeFallback fallback).run before).1 =
      fallback.map fun body => ((dialect.writeBlock body).run start).1 := by
  cases fallback with
  | none =>
      rw [Dialect.writeFallback]
      rfl
  | some body =>
      rw [Dialect.writeFallback, Option.map_some, steady.writeBlock body start before]
      rfl

/-- A branch is put together from what its conditions and bodies become by themselves. -/
theorem run_writeStatement_branch (steady : dialect.IsSteady) (start before : State)
    (arms : List (Expression × List Statement)) (fallback : Option (List Statement)) :
    ((dialect.writeStatement (.branch arms fallback)).run before).1 =
      ((dialect.branch
        (arms.map fun arm => (((dialect.expression arm.1).run start).1, ((dialect.writeBlock arm.2).run start).1))
        (fallback.map fun body => ((dialect.writeBlock body).run start).1)).run start).1 := by
  rw [Dialect.writeStatement, ← steady.run_writeArms start before,
    ← steady.run_writeFallback start ((dialect.writeArms arms).run before).2]
  exact steady.branch _ _ _ _

end IsSteady
end Dialect

/-! ## The languages -/

theorem RustProgram.isSteady : RustProgram.dialect.IsSteady where
  expression _ _ _ := rfl
  comment _ _ _ := rfl
  declare _ _ _ _ := rfl
  assign _ _ _ _ := rfl
  call _ _ _ _ := rfl
  branch _ _ _ _ := rfl
  leave _ _ _ := rfl
  primitive _ _ _ := rfl

theorem PythonModule.isSteady : PythonModule.dialect.IsSteady where
  expression _ _ _ := rfl
  comment _ _ _ := rfl
  declare _ _ _ _ := rfl
  assign _ _ _ _ := rfl
  call _ _ _ _ := rfl
  branch _ _ _ _ := rfl
  leave value := by cases value <;> exact .pure _
  primitive _ _ _ := rfl

end PredictiveParsing
