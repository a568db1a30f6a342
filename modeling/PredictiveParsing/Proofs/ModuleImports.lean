import Mathlib.Data.List.Basic
import PredictiveParsing.Dialect.PythonModule

namespace PredictiveParsing

/-!
# Imports of Python modules

A module imports what its definitions need, and this is found out on the way.  Each writer
notes the needs of the thing that it writes, wherever in an expression, an arm or a signature
it stands, and a writer that is used again keeps the notes.

Here the needs are described without the writers: what a definition has in it, at any depth,
and what needs which library.  The notes agree with this description before and after each
thing that is written, so they do so after all of them.

Main statement: after any programs and routines, a module imports the libraries that some
definition written so far needs and no others, each once and in a fixed order, and it starts
the entry routine that was written last.
-/

/-! ## What definitions have in them -/

/-- What a definition can have in it that a writer of modules takes notes of. -/
inductive Ingredient where
  | expression (expression : Expression)
  | primitive (operation : Primitive)
  | type (type : ValueType)

/-- The expressions in an expression, at any depth. -/
inductive Expression.Has : Expression -> Ingredient -> Prop
  | self {expression : Expression} : Has expression (.expression expression)
  | argument {routine : String} {arguments : List Expression} {argument : Expression} {ingredient : Ingredient} :
      argument ∈ arguments -> Has argument ingredient -> Has (.call routine arguments) ingredient
  | record {record : Expression} {field : TokenField} {ingredient : Ingredient} :
      Has record ingredient -> Has (.field record field) ingredient
  | equalLeft {left right : Expression} {ingredient : Ingredient} :
      Has left ingredient -> Has (.equal left right) ingredient
  | equalRight {left right : Expression} {ingredient : Ingredient} :
      Has right ingredient -> Has (.equal left right) ingredient
  | differentLeft {left right : Expression} {ingredient : Ingredient} :
      Has left ingredient -> Has (.different left right) ingredient
  | differentRight {left right : Expression} {ingredient : Ingredient} :
      Has right ingredient -> Has (.different left right) ingredient

/-- What a statement has in it, also in its arms and its fallback. -/
inductive Statement.Has : Statement -> Ingredient -> Prop
  | declare {name : String} {type : ValueType} : Has (.declare name type) (.type type)
  | assign {name : String} {value : Expression} {ingredient : Ingredient} :
      value.Has ingredient -> Has (.assign name value) ingredient
  | argument {routine : String} {arguments : List Expression} {argument : Expression} {ingredient : Ingredient} :
      argument ∈ arguments -> argument.Has ingredient -> Has (.call routine arguments) ingredient
  | condition {arms : List (Expression × List Statement)} {fallback : Option (List Statement)}
      {arm : Expression × List Statement} {ingredient : Ingredient} :
      arm ∈ arms -> arm.1.Has ingredient -> Has (.branch arms fallback) ingredient
  | arm {arms : List (Expression × List Statement)} {fallback : Option (List Statement)}
      {arm : Expression × List Statement} {statement : Statement} {ingredient : Ingredient} :
      arm ∈ arms -> statement ∈ arm.2 -> Has statement ingredient -> Has (.branch arms fallback) ingredient
  | fallback {arms : List (Expression × List Statement)} {body : List Statement} {statement : Statement}
      {ingredient : Ingredient} :
      statement ∈ body -> Has statement ingredient -> Has (.branch arms (some body)) ingredient
  | position {position : Expression} {expected : String} {ingredient : Ingredient} :
      position.Has ingredient -> Has (.mismatch position expected) ingredient
  | expected {position : Expression} {expected : String} {ingredient : Ingredient} :
      (Expression.text expected).Has ingredient -> Has (.mismatch position expected) ingredient
  | leave {value : Expression} {ingredient : Ingredient} :
      value.Has ingredient -> Has (.leave (some value)) ingredient
  | primitive {operation : Primitive} : Has (.primitive operation) (.primitive operation)

namespace Statement

variable {name routine expected : String} {type : ValueType} {value position : Expression}
  {arguments : List Expression} {arms : List (Expression × List Statement)} {body : Option (List Statement)}
  {operation : Primitive} {ingredient : Ingredient}

theorem has_declare_iff : (declare name type).Has ingredient ↔ ingredient = .type type := by
  constructor
  · rintro ⟨⟩
    rfl
  · rintro rfl
    exact .declare

theorem has_assign_iff : (assign name value).Has ingredient ↔ value.Has ingredient := by
  refine ⟨fun inside => ?_, .assign⟩
  cases inside with
  | assign inside => exact inside

theorem has_call_iff :
    (call routine arguments).Has ingredient ↔ ∃ argument ∈ arguments, argument.Has ingredient := by
  constructor
  · intro inside
    cases inside with
    | argument member inside => exact ⟨_, member, inside⟩
  · rintro ⟨argument, member, inside⟩
    exact .argument member inside

theorem has_branch_iff : (branch arms body).Has ingredient ↔
    (∃ arm ∈ arms, arm.1.Has ingredient ∨ ∃ statement ∈ arm.2, statement.Has ingredient) ∨
      ∃ statements ∈ body, ∃ statement ∈ statements, statement.Has ingredient := by
  constructor
  · intro inside
    cases inside with
    | condition member inside => exact Or.inl ⟨_, member, Or.inl inside⟩
    | arm member inBody inside => exact Or.inl ⟨_, member, Or.inr ⟨_, inBody, inside⟩⟩
    | fallback inBody inside => exact Or.inr ⟨_, rfl, _, inBody, inside⟩
  · rintro (⟨arm, member, inside | ⟨statement, inBody, inside⟩⟩ | ⟨statements, rfl, statement, inBody, inside⟩)
    · exact .condition member inside
    · exact .arm member inBody inside
    · exact .fallback inBody inside

theorem has_mismatch_iff : (mismatch position expected).Has ingredient ↔
    position.Has ingredient ∨ (Expression.text expected).Has ingredient := by
  constructor
  · intro inside
    cases inside with
    | position inside => exact Or.inl inside
    | expected inside => exact Or.inr inside
  · rintro (inside | inside)
    · exact .position inside
    · exact .expected inside

theorem has_leave_iff : (leave (some value)).Has ingredient ↔ value.Has ingredient := by
  refine ⟨fun inside => ?_, .leave⟩
  cases inside with
  | leave inside => exact inside

theorem has_primitive_iff : (primitive operation).Has ingredient ↔ ingredient = .primitive operation := by
  constructor
  · rintro ⟨⟩
    rfl
  · rintro rfl
    exact .primitive

end Statement

/-- What a definition has in it. -/
inductive Definition.Has : Definition -> Ingredient -> Prop
  | global {variableDefinition : GlobalVariable} : Has (.global variableDefinition) (.type variableDefinition.type)
  | parameter {routine : Routine} {parameter : Parameter} :
      parameter ∈ routine.parameters -> Has (.routine routine) (.type parameter.type)
  | returns {routine : Routine} {type : ValueType} :
      routine.returns = some type -> Has (.routine routine) (.type type)
  | body {routine : Routine} {statement : Statement} {ingredient : Ingredient} :
      statement ∈ routine.body -> statement.Has ingredient -> Has (.routine routine) ingredient

namespace Definition

variable {variableDefinition : GlobalVariable} {routineDefinition : Routine} {ingredient : Ingredient}

theorem has_global_iff : (global variableDefinition).Has ingredient ↔ ingredient = .type variableDefinition.type := by
  constructor
  · rintro ⟨⟩
    rfl
  · rintro rfl
    exact .global

theorem has_routine_iff : (routine routineDefinition).Has ingredient ↔
    (∃ statement ∈ routineDefinition.body, statement.Has ingredient) ∨
      ∃ type, ((∃ parameter ∈ routineDefinition.parameters, parameter.type = type) ∨
        routineDefinition.returns = some type) ∧ ingredient = .type type := by
  constructor
  · intro inside
    cases inside with
    | parameter member => exact Or.inr ⟨_, Or.inl ⟨_, member, rfl⟩, rfl⟩
    | returns returned => exact Or.inr ⟨_, Or.inr returned, rfl⟩
    | body member inside => exact Or.inl ⟨_, member, inside⟩
  · rintro (⟨statement, member, inside⟩ | ⟨type, ⟨parameter, member, rfl⟩ | returned, rfl⟩)
    · exact .body member inside
    · exact .parameter member
    · exact .returns returned

end Definition

def lastEntryRoutine? (definitions : List Definition) : Option Routine :=
  ((definitions.filterMap (·.routine?)).filter (·.role == .entry)).getLast?

/-! ## What needs an import -/

/-- What a module can import. -/
inductive Library where
  /-- Running commands. -/
  | subprocess
  /-- The command line, and stopping the program. -/
  | sys
  /-- The types of lists. -/
  | typing

def Library.importLine : Library -> String
  | .subprocess => "import subprocess"
  | .sys => "import sys"
  | .typing => "from typing import List"

/-- What needs a library. -/
inductive Ingredient.Needs : Ingredient -> Library -> Prop
  | command {command parameter : String} : Needs (.primitive (.runLexer command parameter)) .subprocess
  | exit {command parameter : String} : Needs (.primitive (.runLexer command parameter)) .sys
  | argument {number : Nat} : Needs (.expression (.argument number)) .sys
  | report {position expected : String} : Needs (.primitive (.report position expected)) .sys
  | usage {count : Nat} : Needs (.primitive (.requireArguments count)) .sys
  | token : Needs (.type .token) .typing
  | tokenList : Needs (.type .tokenList) .typing

namespace Ingredient

variable {written : Ingredient -> Prop}

theorem exists_needs_subprocess_iff : (∃ ingredient : Ingredient, ingredient.Needs .subprocess ∧ written ingredient) ↔
    ∃ command parameter, written (.primitive (.runLexer command parameter)) := by
  constructor
  · rintro ⟨_, ⟨⟩, found⟩
    exact ⟨_, _, found⟩
  · rintro ⟨command, parameter, found⟩
    exact ⟨_, .command, found⟩

theorem exists_needs_sys_iff : (∃ ingredient : Ingredient, ingredient.Needs .sys ∧ written ingredient) ↔
    (∃ number, written (.expression (.argument number))) ∨
      (∃ command parameter, written (.primitive (.runLexer command parameter))) ∨
      (∃ position expected, written (.primitive (.report position expected))) ∨
      ∃ count, written (.primitive (.requireArguments count)) := by
  constructor
  · rintro ⟨_, needed, found⟩
    cases needed with
    | argument => exact Or.inl ⟨_, found⟩
    | exit => exact Or.inr (Or.inl ⟨_, _, found⟩)
    | report => exact Or.inr (Or.inr (Or.inl ⟨_, _, found⟩))
    | usage => exact Or.inr (Or.inr (Or.inr ⟨_, found⟩))
  · rintro (⟨number, found⟩ | ⟨command, parameter, found⟩ | ⟨position, expected, found⟩ | ⟨count, found⟩)
    · exact ⟨_, .argument, found⟩
    · exact ⟨_, .exit, found⟩
    · exact ⟨_, .report, found⟩
    · exact ⟨_, .usage, found⟩

theorem exists_needs_typing_iff : (∃ ingredient : Ingredient, ingredient.Needs .typing ∧ written ingredient) ↔
    written (.type .token) ∨ written (.type .tokenList) := by
  constructor
  · rintro ⟨_, needed, found⟩
    cases needed with
    | token => exact Or.inl found
    | tokenList => exact Or.inr found
  · rintro (found | found)
    · exact ⟨_, .token, found⟩
    · exact ⟨_, .tokenList, found⟩

end Ingredient

namespace ModuleNeeds

variable {library : Library}

/-- Whether a library has to be imported. -/
def has (needs : ModuleNeeds) : Library -> Bool
  | .subprocess => needs.subprocess
  | .sys => needs.sys
  | .typing => needs.typing

theorem has_none : none.has library = false := by
  cases library <;> rfl

theorem has_union {left right : ModuleNeeds} :
    (left.union right).has library = true ↔ left.has library = true ∨ right.has library = true := by
  rw [← Bool.or_eq_true]
  cases library <;> rfl

theorem has_foldl_union {all : List ModuleNeeds} {start : ModuleNeeds} :
    (all.foldl union start).has library = true ↔
      start.has library = true ∨ ∃ needs ∈ all, needs.has library = true := by
  induction all generalizing start with
  | nil => simp
  | cons needs rest inductionHypothesis =>
      rw [List.foldl_cons, inductionHypothesis, has_union, or_assoc]
      simp only [List.mem_cons, exists_eq_or_imp]

theorem importLine_mem_imports {needs : ModuleNeeds} :
    library.importLine ∈ needs.imports ↔ needs.has library = true := by
  rcases needs with ⟨_ | _, _ | _, _ | _⟩ <;> cases library <;> decide

/-- Each import stands at most once, and their order is fixed. -/
theorem imports_sublist (needs : ModuleNeeds) :
    needs.imports.Sublist ["import subprocess", "import sys", "from typing import List"] := by
  rcases needs with ⟨_ | _, _ | _, _ | _⟩ <;> decide

theorem has_ofType {type : ValueType} : (ofType type).has library = true ↔ (Ingredient.type type).Needs library := by
  cases type with
  | text => cases library <;> exact ⟨nofun, nofun⟩
  | token =>
      cases library with
      | typing => exact iff_of_true rfl .token
      | subprocess | sys => exact ⟨nofun, nofun⟩
  | tokenList =>
      cases library with
      | typing => exact iff_of_true rfl .tokenList
      | subprocess | sys => exact ⟨nofun, nofun⟩

theorem has_ofPrimitive {operation : Primitive} :
    (ofPrimitive operation).has library = true ↔ (Ingredient.primitive operation).Needs library := by
  cases operation with
  | runLexer command parameter =>
      cases library with
      | subprocess => exact iff_of_true rfl .command
      | sys => exact iff_of_true rfl .exit
      | typing => exact ⟨nofun, nofun⟩
  | report position expected =>
      cases library with
      | sys => exact iff_of_true rfl .report
      | subprocess | typing => exact ⟨nofun, nofun⟩
  | requireArguments count =>
      cases library with
      | sys => exact iff_of_true rfl .usage
      | subprocess | typing => exact ⟨nofun, nofun⟩
  | loadTokens _ _ | peek | take => cases library <;> exact ⟨nofun, nofun⟩

theorem anyReadsArgument_eq_any (expressions : List Expression) :
    anyReadsArgument expressions = expressions.any readsArgument := by
  induction expressions with
  | nil => rfl
  | cons expression rest inductionHypothesis => rw [anyReadsArgument, inductionHypothesis, List.any_cons]

mutual

theorem exists_argument_of_readsArgument : ∀ expression : Expression, readsArgument expression = true ->
    ∃ number, expression.Has (.expression (.argument number))
  | .text _, reads | .var _, reads => by cases reads
  | .argument number, _ => ⟨number, .self⟩
  | .call _ arguments, reads => by
      rw [readsArgument] at reads
      rcases exists_argument_of_anyReadsArgument arguments reads with ⟨number, argument, member, inside⟩
      exact ⟨number, .argument member inside⟩
  | .field record _, reads => by
      rw [readsArgument] at reads
      rcases exists_argument_of_readsArgument record reads with ⟨number, inside⟩
      exact ⟨number, .record inside⟩
  | .equal left right, reads => by
      rw [readsArgument, Bool.or_eq_true] at reads
      rcases reads with reads | reads
      · rcases exists_argument_of_readsArgument left reads with ⟨number, inside⟩
        exact ⟨number, .equalLeft inside⟩
      · rcases exists_argument_of_readsArgument right reads with ⟨number, inside⟩
        exact ⟨number, .equalRight inside⟩
  | .different left right, reads => by
      rw [readsArgument, Bool.or_eq_true] at reads
      rcases reads with reads | reads
      · rcases exists_argument_of_readsArgument left reads with ⟨number, inside⟩
        exact ⟨number, .differentLeft inside⟩
      · rcases exists_argument_of_readsArgument right reads with ⟨number, inside⟩
        exact ⟨number, .differentRight inside⟩

theorem exists_argument_of_anyReadsArgument : ∀ expressions : List Expression,
    anyReadsArgument expressions = true ->
      ∃ number, ∃ expression ∈ expressions, expression.Has (.expression (.argument number))
  | [], reads => by cases reads
  | expression :: rest, reads => by
      rw [anyReadsArgument, Bool.or_eq_true] at reads
      rcases reads with reads | reads
      · rcases exists_argument_of_readsArgument expression reads with ⟨number, inside⟩
        exact ⟨number, expression, List.mem_cons_self, inside⟩
      · rcases exists_argument_of_anyReadsArgument rest reads with ⟨number, other, member, inside⟩
        exact ⟨number, other, List.mem_cons_of_mem _ member, inside⟩

end

theorem readsArgument_of_has {expression : Expression} {ingredient : Ingredient} (inside : expression.Has ingredient)
    (needed : ingredient.Needs library) : library = .sys ∧ readsArgument expression = true := by
  induction inside with
  | self =>
      cases needed
      exact ⟨rfl, rfl⟩
  | argument member _ inductionHypothesis =>
      refine ⟨(inductionHypothesis needed).1, ?_⟩
      rw [readsArgument, anyReadsArgument_eq_any]
      exact List.any_eq_true.mpr ⟨_, member, (inductionHypothesis needed).2⟩
  | record _ inductionHypothesis => exact inductionHypothesis needed
  | equalLeft _ inductionHypothesis | differentLeft _ inductionHypothesis =>
      rw [readsArgument, (inductionHypothesis needed).2]
      exact ⟨(inductionHypothesis needed).1, Bool.true_or _⟩
  | equalRight _ inductionHypothesis | differentRight _ inductionHypothesis =>
      rw [readsArgument, (inductionHypothesis needed).2]
      exact ⟨(inductionHypothesis needed).1, Bool.or_true _⟩

theorem has_ofExpression {expression : Expression} : (ofExpression expression).has library = true ↔
    ∃ ingredient : Ingredient, expression.Has ingredient ∧ ingredient.Needs library := by
  constructor
  · intro needed
    cases library with
    | sys =>
        rcases exists_argument_of_readsArgument expression needed with ⟨number, inside⟩
        exact ⟨_, inside, .argument⟩
    | subprocess | typing => cases needed
  · rintro ⟨ingredient, inside, needed⟩
    rcases readsArgument_of_has inside needed with ⟨rfl, reads⟩
    exact reads

theorem has_ofSignature {routine : Routine} : (ofSignature routine).has library = true ↔
    ∃ type, ((∃ parameter ∈ routine.parameters, parameter.type = type) ∨ routine.returns = some type) ∧
      (Ingredient.type type).Needs library := by
  simp only [ofSignature, has_foldl_union, has_none, Bool.false_eq_true, false_or, List.mem_append, List.mem_map,
    Option.mem_toList, or_and_right, exists_or, exists_exists_and_eq_and, has_ofType]

end ModuleNeeds

namespace PythonModule

/-! ## What writers note -/

/-- Whether a writer notes just the needs of these ingredients, and whatever was written
before makes no difference to what it gives. -/
structure Notes {α : Type} (write : StateM Memory α) (ingredients : Ingredient -> Prop) : Prop where
  value : ∀ memory other : Memory, (write.run memory).1 = (write.run other).1
  needs : ∀ (memory : Memory) (library : Library), (write.run memory).2.needs.has library = true ↔
    memory.needs.has library = true ∨ ∃ ingredient, ingredients ingredient ∧ ingredient.Needs library
  entry : ∀ memory : Memory, (write.run memory).2.entry = memory.entry

namespace Notes

variable {α β : Type} {write : StateM Memory α} {ingredients : Ingredient -> Prop}

theorem congr {others : Ingredient -> Prop} (notes : Notes write ingredients)
    (same : ∀ ingredient, ingredients ingredient ↔ others ingredient) : Notes write others := by
  have equal : ingredients = others := funext fun ingredient => propext (same ingredient)
  exact equal ▸ notes

theorem pure (value : α) : Notes (Pure.pure value) fun _ => False where
  value := fun _ _ => rfl
  needs := fun memory library => by simp; rfl
  entry := fun _ => rfl

theorem bind {next : α -> StateM Memory β} {others : Ingredient -> Prop} (first : Notes write ingredients)
    (later : ∀ value, Notes (next value) others) :
    Notes (write >>= next) fun ingredient => ingredients ingredient ∨ others ingredient where
  value memory other := by
    change ((next (write.run memory).1).run _).1 = ((next (write.run other).1).run _).1
    rw [first.value memory other]
    exact (later _).value _ _
  needs memory library := by
    change ((next (write.run memory).1).run (write.run memory).2).2.needs.has library = true ↔ _
    rw [(later _).needs, first.needs, or_assoc]
    simp only [or_and_right, exists_or]
  entry memory := by
    change ((next (write.run memory).1).run (write.run memory).2).2.entry = _
    rw [(later _).entry, first.entry]

theorem need {needs : ModuleNeeds} (described : ∀ library, needs.has library = true ↔
    ∃ ingredient, ingredients ingredient ∧ ingredient.Needs library) : Notes (need needs) ingredients where
  value _ _ := rfl
  needs memory library := by
    rw [← described library]
    exact ModuleNeeds.has_union
  entry _ := rfl

/-- What a writer does with what another has given makes no difference. -/
theorem thenGive (notes : Notes write ingredients) {next : α -> StateM Memory β} {give : α -> β}
    (gives : ∀ value, next value = Pure.pure (give value)) : Notes (write >>= next) ingredients := by
  refine (notes.bind fun value => ?_).congr fun ingredient => iff_of_eq (or_false (ingredients ingredient))
  rw [gives value]
  exact .pure _

end Notes

theorem notes_type (type : ValueType) {α : Type} (value : α) :
    Notes (do need (.ofType type); return value) fun ingredient => ingredient = .type type := by
  refine (Notes.need fun library => ?_).thenGive fun _ => rfl
  rw [ModuleNeeds.has_ofType, exists_eq_left]

theorem notes_primitive (operation : Primitive) :
    Notes (dialect.primitive operation) fun ingredient => ingredient = .primitive operation := by
  refine (Notes.need fun library => ?_).thenGive fun _ => rfl
  rw [ModuleNeeds.has_ofPrimitive, exists_eq_left]

theorem notes_expression (expression : Expression) : Notes (dialect.expression expression) expression.Has :=
  (Notes.need fun _ => ModuleNeeds.has_ofExpression).thenGive fun _ => rfl

theorem notes_writeExpressions (expressions : List Expression) : Notes (dialect.writeExpressions expressions)
    fun ingredient => ∃ expression ∈ expressions, expression.Has ingredient := by
  induction expressions with
  | nil => exact (Notes.pure []).congr fun _ => by simp
  | cons expression rest inductionHypothesis =>
      refine ((notes_expression expression).bind fun _ => inductionHypothesis.thenGive fun _ => rfl).congr fun _ => ?_
      simp only [List.mem_cons, exists_eq_or_imp]

mutual

theorem notes_writeStatement : ∀ statement : Statement, Notes (dialect.writeStatement statement) statement.Has
  | .comment text => by
      rw [Dialect.writeStatement]
      exact (Notes.pure _).congr fun _ => ⟨False.elim, nofun⟩
  | .declare name type => by
      rw [Dialect.writeStatement]
      exact (notes_type type _).congr fun _ => Statement.has_declare_iff.symm
  | .assign name value => by
      rw [Dialect.writeStatement]
      exact ((notes_expression value).thenGive fun _ => rfl).congr fun _ => Statement.has_assign_iff.symm
  | .call routine arguments => by
      rw [Dialect.writeStatement]
      exact ((notes_writeExpressions arguments).thenGive fun _ => rfl).congr fun _ => Statement.has_call_iff.symm
  | .branch arms fallback => by
      rw [Dialect.writeStatement]
      exact ((notes_writeArms arms).bind fun _ => (notes_writeFallback fallback).thenGive fun _ => rfl).congr
        fun _ => Statement.has_branch_iff.symm
  | .mismatch position expected => by
      rw [Dialect.writeStatement]
      exact ((notes_expression position).bind fun _ => (notes_expression (.text expected)).thenGive fun _ => rfl).congr
        fun _ => Statement.has_mismatch_iff.symm
  | .leave none => by
      rw [Dialect.writeStatement]
      exact (Notes.pure _).congr fun _ => ⟨False.elim, nofun⟩
  | .leave (some value) => by
      rw [Dialect.writeStatement]
      exact ((notes_expression value).thenGive fun _ => rfl).congr fun _ => Statement.has_leave_iff.symm
  | .primitive operation => by
      rw [Dialect.writeStatement]
      exact (notes_primitive operation).congr fun _ => Statement.has_primitive_iff.symm

theorem notes_writeBlock : ∀ statements : List Statement, Notes (dialect.writeBlock statements)
    fun ingredient => ∃ statement ∈ statements, statement.Has ingredient
  | [] => by
      rw [Dialect.writeBlock]
      exact (Notes.pure _).congr fun _ => by simp
  | statement :: rest => by
      rw [Dialect.writeBlock]
      refine ((notes_writeStatement statement).bind fun _ => (notes_writeBlock rest).thenGive fun _ => rfl).congr
        fun _ => ?_
      simp only [List.mem_cons, exists_eq_or_imp]

theorem notes_writeArms : ∀ arms : List (Expression × List Statement), Notes (dialect.writeArms arms)
    fun ingredient => ∃ arm ∈ arms, arm.1.Has ingredient ∨ ∃ statement ∈ arm.2, statement.Has ingredient
  | [] => by
      rw [Dialect.writeArms]
      exact (Notes.pure _).congr fun _ => by simp
  | (condition, body) :: rest => by
      rw [Dialect.writeArms]
      refine ((notes_expression condition).bind fun _ => (notes_writeBlock body).bind fun _ =>
        (notes_writeArms rest).thenGive fun _ => rfl).congr fun _ => ?_
      simp only [List.mem_cons, exists_eq_or_imp, or_assoc]

theorem notes_writeFallback : ∀ fallback : Option (List Statement), Notes (dialect.writeFallback fallback)
    fun ingredient => ∃ body ∈ fallback, ∃ statement ∈ body, statement.Has ingredient
  | none => by
      rw [Dialect.writeFallback]
      exact (Notes.pure _).congr fun _ => by simp
  | some body => by
      rw [Dialect.writeFallback]
      refine ((notes_writeBlock body).thenGive fun _ => rfl).congr fun _ => ?_
      simp only [Option.mem_some_iff, exists_eq_left']

end

theorem notes_global (variableDefinition : GlobalVariable) :
    Notes (dialect.global variableDefinition) (Definition.global variableDefinition).Has :=
  (notes_type variableDefinition.type _).congr fun _ => Definition.has_global_iff.symm

/-- The needs of a routine are those of its statements and its signature. -/
theorem notes_body (routine : Routine) :
    Notes (do let _ ← dialect.writeBlock routine.body; need (.ofSignature routine))
      (Definition.routine routine).Has := by
  refine ((notes_writeBlock routine.body).bind fun _ => Notes.need fun library => ?_).congr
    fun _ => Definition.has_routine_iff.symm
  rw [ModuleNeeds.has_ofSignature]
  constructor
  · rintro ⟨type, signed, needed⟩
    exact ⟨.type type, ⟨type, signed, rfl⟩, needed⟩
  · rintro ⟨_, ⟨type, signed, rfl⟩, needed⟩
    exact ⟨type, signed, needed⟩

theorem run_writeRoutine (routine : Routine) (memory : Memory) : ((dialect.writeRoutine routine).run memory).2 =
    ⟨((do let _ ← dialect.writeBlock routine.body; need (.ofSignature routine)).run memory).2.needs,
      if routine.role = .entry then some (identifier routine.name) else memory.entry⟩ := by
  -- The routine is remembered after its statements are written and before its signature is.
  change ((need (.ofSignature routine)).run (if routine.role = .entry
    then ⟨((dialect.writeBlock routine.body).run memory).2.needs, some (identifier routine.name)⟩
    else ((dialect.writeBlock routine.body).run memory).2)).2 = _
  split
  · rfl
  · rw [← (notes_writeBlock routine.body).entry memory]
    rfl

theorem lastEntryRoutine?_append_routine (definitions : List Definition) (routine : Routine) :
    lastEntryRoutine? (definitions ++ [.routine routine]) =
      if routine.role = .entry then some routine else lastEntryRoutine? definitions := by
  have found : [Definition.routine routine].filterMap (·.routine?) = [routine] := rfl
  rw [lastEntryRoutine?, lastEntryRoutine?, List.filterMap_append, found, List.filter_append]
  by_cases entry : routine.role = .entry
  · have kept : [routine].filter (·.role == .entry) = [routine] := List.filter_cons_of_pos (beq_iff_eq.mpr entry)
    rw [if_pos entry, kept, List.getLast?_concat]
  · have dropped : [routine].filter (·.role == .entry) = [] :=
      List.filter_cons_of_neg fun same => entry (beq_iff_eq.mp same)
    rw [if_neg entry, dropped, List.append_nil]

theorem lastEntryRoutine?_append_global (definitions : List Definition) (variableDefinition : GlobalVariable) :
    lastEntryRoutine? (definitions ++ [.global variableDefinition]) = lastEntryRoutine? definitions := by
  have found : [Definition.global variableDefinition].filterMap (·.routine?) = [] := rfl
  rw [lastEntryRoutine?, lastEntryRoutine?, List.filterMap_append, found, List.append_nil]

/-! ## What is remembered -/

/-- Whether the memory agrees with the definitions: it has the needs that some of them has
and no others, and the identifier of the last entry routine. -/
structure Memory.Records (memory : Memory) (definitions : List Definition) : Prop where
  needs : ∀ library, memory.needs.has library = true ↔
    ∃ ingredient : Ingredient, ingredient.Needs library ∧ ∃ definition ∈ definitions, definition.Has ingredient
  entry : memory.entry = (lastEntryRoutine? definitions).map fun routine => identifier routine.name

namespace Memory.Records

variable {memory : Memory} {definitions : List Definition}

theorem fresh : Memory.fresh.Records [] where
  needs library := by
    rw [Memory.fresh, ModuleNeeds.has_none]
    simp
  entry := rfl

/-- One more definition is recorded by its needs and, if it is an entry routine, by its
identifier. -/
theorem append (records : memory.Records definitions) {definition : Definition} {later : Memory}
    (needs : ∀ library, later.needs.has library = true ↔ memory.needs.has library = true ∨
      ∃ ingredient, definition.Has ingredient ∧ ingredient.Needs library)
    (entry : later.entry = (lastEntryRoutine? (definitions ++ [definition])).map fun routine => identifier routine.name) :
    later.Records (definitions ++ [definition]) where
  needs library := by
    rw [needs, records.needs]
    constructor
    · rintro (⟨ingredient, needed, other, member, inside⟩ | ⟨ingredient, inside, needed⟩)
      · exact ⟨ingredient, needed, other, List.mem_append_left _ member, inside⟩
      · exact ⟨ingredient, needed, definition, List.mem_append_right _ (List.mem_singleton_self _), inside⟩
    · rintro ⟨ingredient, needed, other, member, inside⟩
      rcases List.mem_append.mp member with earlier | last
      · exact Or.inl ⟨ingredient, needed, other, earlier, inside⟩
      · rw [List.mem_singleton.mp last] at inside
        exact Or.inr ⟨ingredient, inside, needed⟩
  entry := entry

theorem global (records : memory.Records definitions) (variableDefinition : GlobalVariable) :
    ((dialect.global variableDefinition).run memory).2.Records (definitions ++ [.global variableDefinition]) := by
  refine records.append ((notes_global variableDefinition).needs memory) ?_
  rw [lastEntryRoutine?_append_global, (notes_global variableDefinition).entry]
  exact records.entry

theorem writeRoutine (records : memory.Records definitions) (routine : Routine) :
    ((dialect.writeRoutine routine).run memory).2.Records (definitions ++ [.routine routine]) := by
  rw [run_writeRoutine]
  refine records.append ((notes_body routine).needs memory) ?_
  rw [lastEntryRoutine?_append_routine, records.entry]
  split <;> rfl

theorem writeDefinitions (records : memory.Records definitions) (others : List Definition) :
    ((dialect.writeDefinitions others).run memory).2.Records (definitions ++ others) := by
  induction others generalizing memory definitions with
  | nil =>
      rw [List.append_nil]
      exact records
  | cons definition rest inductionHypothesis =>
      rw [List.append_cons]
      cases definition with
      | global variableDefinition => exact inductionHypothesis (records.global variableDefinition)
      | routine routineDefinition => exact inductionHypothesis (records.writeRoutine routineDefinition)

end Memory.Records

/-- What was written before makes no difference to the lines of definitions. -/
theorem writeDefinitions_value (definitions : List Definition) (memory other : Memory) :
    ((dialect.writeDefinitions definitions).run memory).1 = ((dialect.writeDefinitions definitions).run other).1 := by
  induction definitions generalizing memory other with
  | nil => rfl
  | cons definition rest inductionHypothesis =>
      cases definition with
      | global variableDefinition =>
          exact congrArg (List.cons _) (inductionHypothesis _ _)
      | routine routineDefinition =>
          have body := (notes_writeBlock routineDefinition.body).value memory other
          change (header routineDefinition ::
            Layout.block ((dialect.writeBlock routineDefinition.body).run memory).1) ::
              ((dialect.writeDefinitions rest).run _).1 = _
          rw [body]
          exact congrArg (List.cons _) (inductionHypothesis _ _)

/-! ## Modules -/

/-- What is written with a writer of modules: a whole program, or a routine by itself. -/
inductive Rendering where
  | whole (program : Program)
  /-- A routine by itself. -/
  | alone (routine : Routine)

namespace Rendering

def definitions : Rendering -> List Definition
  | .whole program => program.definitions
  | .alone routine => [.routine routine]

/-- What a writer remembers afterwards. -/
def remembered (memory : Memory) : Rendering -> Memory
  | .whole program => ((dialect.writeProgram program).run memory).2
  | .alone routine => ((dialect.writeRoutine routine).run memory).2

end Rendering

/-- What a new writer remembers after all that was written with it. -/
def memoryAfter (renderings : List Rendering) : Memory :=
  renderings.foldl Rendering.remembered .fresh

/-- All definitions that were written, in their order. -/
def written (renderings : List Rendering) : List Definition :=
  renderings.flatMap (·.definitions)

/-- Whether a definition that was written has the ingredient in it, at any depth. -/
def Wrote (renderings : List Rendering) (ingredient : Ingredient) : Prop :=
  ∃ definition ∈ written renderings, definition.Has ingredient

theorem Memory.Records.remembered {memory : Memory} {definitions : List Definition}
    (records : memory.Records definitions) (rendering : Rendering) :
    (rendering.remembered memory).Records (definitions ++ rendering.definitions) := by
  cases rendering with
  | whole program => exact records.writeDefinitions program.definitions
  | alone routine => exact records.writeRoutine routine

theorem Memory.Records.foldl {memory : Memory} {definitions : List Definition} (records : memory.Records definitions)
    (renderings : List Rendering) :
    (renderings.foldl Rendering.remembered memory).Records (definitions ++ written renderings) := by
  induction renderings generalizing memory definitions with
  | nil =>
      rw [written, List.flatMap_nil, List.append_nil]
      exact records
  | cons rendering rest inductionHypothesis =>
      rw [written, List.flatMap_cons, ← List.append_assoc]
      exact inductionHypothesis (records.remembered rendering)

theorem records_memoryAfter (renderings : List Rendering) : (memoryAfter renderings).Records (written renderings) :=
  Memory.Records.fresh.foldl renderings

/-- The text of a module: its imports if there are any, its sections and, if there is an
entry routine, the lines that start it. -/
def textOf (imports : List String) (sections : List (List String)) (entry : Option Routine) : String :=
  "\n\n".intercalate (((if imports = [] then [] else [imports]) ++ sections ++
    entry.toList.map fun routine => entryGuard (identifier routine.name)).map Layout.text) ++ "\n"

theorem moduleText_eq_textOf {memory : Memory} {definitions : List Definition} (records : memory.Records definitions)
    (sections : List (List String)) :
    moduleText memory sections = textOf memory.needs.imports sections (lastEntryRoutine? definitions) := by
  rw [moduleText, textOf, records.entry]
  simp only [List.isEmpty_iff, Option.toList_map, List.map_map, Function.comp_def]

/-- A program is put together from the lines that its definitions have in any memory, with
the imports and the entry that are due after it. -/
theorem run_writeProgram (earlier : List Rendering) (program : Program) :
    ((dialect.writeProgram program).run (memoryAfter earlier)).1 =
      ((dialect.finish ((dialect.writeDefinitions program.definitions).run .fresh).1).run
        (memoryAfter (earlier ++ [.whole program]))).1 := by
  have after : memoryAfter (earlier ++ [.whole program]) =
      ((dialect.writeDefinitions program.definitions).run (memoryAfter earlier)).2 := by
    rw [memoryAfter, List.foldl_append]
    rfl
  rw [after, writeDefinitions_value program.definitions .fresh (memoryAfter earlier)]
  rfl

/-- After any programs and routines, a module imports the libraries that something written so
far needs and no others, each once and in a fixed order, and starts the last entry routine
written so far.  So does the module of a program that was written last, which has the lines
of its definitions in between. -/
theorem imports_after_renderings (renderings : List Rendering) :
    ∃ imports : List String, imports.Sublist ["import subprocess", "import sys", "from typing import List"] ∧
      ("import subprocess" ∈ imports ↔
        ∃ command parameter, Wrote renderings (.primitive (.runLexer command parameter))) ∧
      ("import sys" ∈ imports ↔
        (∃ number, Wrote renderings (.expression (.argument number))) ∨
          (∃ command parameter, Wrote renderings (.primitive (.runLexer command parameter))) ∨
          (∃ position expected, Wrote renderings (.primitive (.report position expected))) ∨
          ∃ count, Wrote renderings (.primitive (.requireArguments count))) ∧
      ("from typing import List" ∈ imports ↔ Wrote renderings (.type .token) ∨ Wrote renderings (.type .tokenList)) ∧
      (∀ sections, ((dialect.finish sections).run (memoryAfter renderings)).1 =
        textOf imports sections (lastEntryRoutine? (written renderings))) ∧
      ∀ earlier program, renderings = earlier ++ [.whole program] ->
        ((dialect.writeProgram program).run (memoryAfter earlier)).1 =
          textOf imports ((dialect.writeDefinitions program.definitions).run .fresh).1
            (lastEntryRoutine? (written renderings)) := by
  have records := records_memoryAfter renderings
  have listed (library : Library) : library.importLine ∈ (memoryAfter renderings).needs.imports ↔
      ∃ ingredient : Ingredient, ingredient.Needs library ∧ Wrote renderings ingredient :=
    ModuleNeeds.importLine_mem_imports.trans (records.needs library)
  have finished (sections : List (List String)) : ((dialect.finish sections).run (memoryAfter renderings)).1 =
      textOf (memoryAfter renderings).needs.imports sections (lastEntryRoutine? (written renderings)) :=
    moduleText_eq_textOf records sections
  refine ⟨(memoryAfter renderings).needs.imports, ModuleNeeds.imports_sublist _, ?_, ?_, ?_, finished, ?_⟩
  · exact (listed .subprocess).trans Ingredient.exists_needs_subprocess_iff
  · exact (listed .sys).trans Ingredient.exists_needs_sys_iff
  · exact (listed .typing).trans Ingredient.exists_needs_typing_iff
  · rintro earlier program rfl
    rw [run_writeProgram]
    exact finished _

/-- A routine that was written by itself leaves its import and its entry to a later program. -/
example : ((dialect.writeProgram ⟨[.global ⟨"depth", .text⟩]⟩).run (memoryAfter
      [.alone ⟨"from", .entry, [], none, [.call "parse" [.call "file" [.argument 1]]]⟩])).1 =
    "import sys\n\ndepth: str = \"\"\n\nif __name__ == \"__main__\":\n\tfrom_()\n" := by
  decide +kernel

end PythonModule
end PredictiveParsing
