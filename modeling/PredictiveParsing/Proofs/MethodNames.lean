import PredictiveParsing.Proofs.DecisionLists
import PredictiveParsing.Proofs.Hygiene
import PredictiveParsing.Proofs.LinkedParser

namespace PredictiveParsing

/-!
# Names of methods in the tokens of programs

Whether a program is hygienic is said about its routines and not about what is written for
them.  The two are tied together by a reader of tokens.  It looks for two things only: a name
behind the keyword of a function, which is defined there, and a member of `self` before round
brackets, which is called there.  Neither of the two words is ever a name, so that the reader
cannot be misled by one.

The methods that are defined and called in the tokens of a program are those of its routines
and of their statements, in the same order, whatever the program is.

Main statements: every method that is called in the tokens of a parser is defined in them,
and the program is hygienic if and only if the functions of the parser's type all differ in
their names, the one that makes the parser among them.
-/

namespace RustProgram

open SourceToken

/-! ## Reading tokens -/

/-- What tokens say about a method. -/
inductive MethodUse where
  | defines (identifier : String)
  /-- The method is called on the parser itself. -/
  | calls (identifier : String)
deriving DecidableEq

/-- Where a reader of tokens stands. -/
inductive TokenPlace where
  | between
  /-- Behind the keyword of a function. -/
  | behindFunction
  /-- Behind the word for the parser itself. -/
  | behindSelf
  /-- Behind the dot after that word. -/
  | behindDot
  /-- Behind a member of the parser. -/
  | behindMember (name : String)
deriving DecidableEq

namespace TokenPlace

/-- Where a word leads from between. -/
def begin (text : String) : TokenPlace :=
  if text = "fn" then .behindFunction else if text = "self" then .behindSelf else .between

/-- What an atom says, and where it leads. -/
def atAtom (text : String) : TokenPlace -> List MethodUse × TokenPlace
  | .behindFunction => ([.defines text], .between)
  | .behindSelf => ([], if text = "." then .behindDot else begin text)
  | .behindDot => ([], .behindMember text)
  | _ => ([], begin text)

/-- What brackets say before their content. -/
def atGroup (delimiter : Delimiter) : TokenPlace -> List MethodUse
  | .behindMember name => if delimiter = .parenthesis then [.calls name] else []
  | _ => []

end TokenPlace

mutual

/-- What a token says from a place on, and where it leads.  Inside of brackets reading starts
afresh, and so it does behind them. -/
def readToken (place : TokenPlace) : SourceToken -> List MethodUse × TokenPlace
  | .atom text => place.atAtom text
  | .group delimiter content => (place.atGroup delimiter ++ (readTokens .between content).1, .between)

def readTokens (place : TokenPlace) : List SourceToken -> List MethodUse × TokenPlace
  | [] => ([], place)
  | token :: rest =>
      let first := readToken place token
      let later := readTokens first.2 rest
      (first.1 ++ later.1, later.2)

end

/-- The methods that are defined and called in tokens, in order. -/
def methodUses (tokens : List SourceToken) : List MethodUse :=
  (readTokens .between tokens).1

theorem readTokens_append (place : TokenPlace) (first later : List SourceToken) :
    readTokens place (first ++ later) =
      ((readTokens place first).1 ++ (readTokens (readTokens place first).2 later).1,
        (readTokens (readTokens place first).2 later).2) := by
  induction first generalizing place with
  | nil => rfl
  | cons token rest inductionHypothesis =>
      rw [List.cons_append, readTokens, inductionHypothesis, readTokens, List.append_assoc]

/-! ## Pieces of code -/

/-- Whether tokens by themselves say this about methods and are a whole to their end. -/
def ReadsAs (tokens : List SourceToken) (uses : List MethodUse) : Prop :=
  readTokens .between tokens = (uses, .between)

instance (tokens : List SourceToken) (uses : List MethodUse) : Decidable (ReadsAs tokens uses) :=
  inferInstanceAs (Decidable (_ = _))

namespace ReadsAs

variable {first later content : List SourceToken} {uses others : List MethodUse}

theorem methodUses_eq (reads : ReadsAs first uses) : methodUses first = uses :=
  congrArg Prod.fst reads

theorem append (reads : ReadsAs first uses) (readsLater : ReadsAs later others) :
    ReadsAs (first ++ later) (uses ++ others) := by
  unfold ReadsAs at reads readsLater ⊢
  rw [readTokens_append, reads, readsLater]

/-- Code that says nothing about methods can stand in front. -/
theorem behind (reads : ReadsAs later uses) (silent : ReadsAs first []) : ReadsAs (first ++ later) uses :=
  silent.append reads

theorem before (reads : ReadsAs first uses) (silent : ReadsAs later []) : ReadsAs (first ++ later) uses := by
  have whole := reads.append silent
  rw [List.append_nil] at whole
  exact whole

theorem group (delimiter : Delimiter) (reads : methodUses content = uses) :
    ReadsAs [.group delimiter content] uses := by
  rw [ReadsAs, readTokens, readTokens, readToken, ← reads]
  exact congrArg (·, TokenPlace.between) (List.append_nil _)

theorem atom {text : String} (plain : TokenPlace.begin text = .between) : ReadsAs [.atom text] [] := by
  change ([], TokenPlace.begin text) = _
  rw [plain]

/-- A method that is called on the parser itself. -/
theorem call (name : String) (reads : methodUses content = uses) :
    ReadsAs (words "self ." ++ .atom name :: parenthesized content) (.calls name :: uses) := by
  have member : readTokens .between (words "self .") = ([], .behindDot) := rfl
  rw [ReadsAs, readTokens_append, member]
  change ([] ++ ([] ++ (([.calls name] ++ (readTokens .between content).1) ++ [])), TokenPlace.between) = _
  rw [List.nil_append, List.nil_append, List.append_nil, List.singleton_append]
  exact congrArg (fun inside => (MethodUse.calls name :: inside, TokenPlace.between)) reads

theorem flatten {lists : List (List SourceToken)} {each : List (List MethodUse)}
    (reads : List.Forall₂ ReadsAs lists each) : ReadsAs lists.flatten each.flatten := by
  induction reads with
  | nil => rfl
  | cons first _ inductionHypothesis => exact first.append inductionHypothesis

end ReadsAs

/-! ## Atoms -/

/-- No name is one of the words that the reader looks for. -/
theorem begin_identifier (name : String) : TokenPlace.begin (Target.rust.identifier name) = .between := by
  have reserved : Target.rust.identifier name ∉ Naming.rustWords :=
    Naming.avoiding_not_mem (List.cons_subset_cons _ (List.subset_append_right _ _)) name
  have isNot : ∀ word ∈ Naming.rustWords, Target.rust.identifier name ≠ word := fun word member same =>
    reserved (same ▸ member)
  rw [TokenPlace.begin, if_neg (isNot "fn" (by decide)), if_neg (isNot "self" (by decide))]

theorem readsAs_identifier (name : String) : ReadsAs [identifier name] [] :=
  ReadsAs.atom (begin_identifier name)

theorem begin_of_head {text : String} {c : Char} {rest : List Char} (front : text.toList = c :: rest)
    (other : c ≠ 'f' ∧ c ≠ 's') : TokenPlace.begin text = .between := by
  have isNot : ∀ word : String, word.toList.head? ≠ some c -> text ≠ word := by
    rintro word different rfl
    exact different (front ▸ rfl)
  rw [TokenPlace.begin, if_neg (isNot "fn" (by simp [other.1.symm])), if_neg (isNot "self" (by simp [other.2.symm]))]

theorem readsAs_comma : ReadsAs [.atom ","] [] := rfl

theorem readsAs_colon : ReadsAs [.atom ":"] [] := rfl

theorem readsAs_semicolon : ReadsAs (words ";") [] := rfl

theorem readsAs_textLiteral (text : String) : ReadsAs [textLiteral text] [] := by
  refine ReadsAs.atom (begin_of_head (String.toList_ofList) ?_)
  decide

theorem readsAs_characterLiteral (c : Char) : ReadsAs [.atom (Text.characterLiteral c)] [] := by
  refine ReadsAs.atom (begin_of_head (String.toList_ofList) ?_)
  decide

theorem readsAs_sizeLiteral (number : Nat) : ReadsAs [sizeLiteral number] [] := by
  have isNot : ∀ word : String, word.length < 5 -> toString number ++ "usize" ≠ word := by
    rintro word short rfl
    rw [String.length_append] at short
    exact absurd short (Nat.not_lt.mpr (Nat.le_add_left 5 _))
  apply ReadsAs.atom
  rw [TokenPlace.begin, if_neg (isNot "fn" (by decide)), if_neg (isNot "self" (by decide))]

theorem readsAs_type (type : ValueType) :
    ReadsAs (typeTokens type) [] ∧ ReadsAs (parameterTypeTokens type) [] := by
  cases type <;> decide +kernel

/-! ## Expressions -/

/-- The method that a call of a routine becomes. -/
def MethodUse.ofCall (call : Call) : MethodUse :=
  .calls (Target.rust.identifier call.routine)

theorem ReadsAs.commaSeparated {parts : List (List SourceToken)} {each : List (List MethodUse)}
    (reads : List.Forall₂ ReadsAs parts each) : ReadsAs (commaSeparated parts) each.flatten := by
  induction reads with
  | nil => rfl
  | @cons part uses parts each first later inductionHypothesis =>
      cases later with
      | nil =>
          rw [SourceToken.commaSeparated, List.intercalate_singleton, List.flatten_cons, List.flatten_nil,
            List.append_nil]
          exact first
      | cons _ _ =>
          rw [SourceToken.commaSeparated, List.intercalate_cons_cons, List.append_assoc]
          exact first.append (inductionHypothesis.behind readsAs_comma)

theorem flatten_map_calls (expressions : List Expression) :
    (expressions.map fun expression => expression.calls.map MethodUse.ofCall).flatten =
      (Expression.callsOfAll expressions).map .ofCall := by
  induction expressions with
  | nil => rfl
  | cons expression rest inductionHypothesis =>
      rw [List.map_cons, List.flatten_cons, inductionHypothesis, Expression.callsOfAll, List.map_append]

mutual

/-- An expression calls the methods of its calls. -/
theorem readsAs_expressionTokens : ∀ expression : Expression,
    ReadsAs (expressionTokens expression) (expression.calls.map .ofCall)
  | .text value => by
      rw [expressionTokens, Expression.calls]
      exact readsAs_textLiteral value
  | .var name => by
      rw [expressionTokens, Expression.calls]
      exact readsAs_identifier name
  | .argument number => by
      have place : ReadsAs (parenthesized [sizeLiteral number]) [] :=
        .group _ (readsAs_sizeLiteral number).methodUses_eq
      rw [expressionTokens, Expression.calls]
      refine ((ReadsAs.before ?_ place).before ?_).before ?_
      all_goals decide +kernel
  | .call routine arguments => by
      rw [expressionTokens, Expression.calls, List.map_cons, ← flatten_map_calls]
      exact .call _ (ReadsAs.commaSeparated (readsAs_arguments arguments)).methodUses_eq
  | .field record field => by
      have member : ReadsAs [.atom ".", .atom (fieldName field)] [] := by cases field <;> rfl
      rw [expressionTokens, Expression.calls]
      exact (readsAs_expressionTokens record).before member
  | .equal left right => by
      have operator : ReadsAs [.atom "=="] [] := rfl
      rw [expressionTokens, Expression.calls, List.map_append]
      exact (readsAs_expressionTokens left).append ((readsAs_expressionTokens right).behind operator)
  | .different left right => by
      have operator : ReadsAs [.atom "!="] [] := rfl
      rw [expressionTokens, Expression.calls, List.map_append]
      exact (readsAs_expressionTokens left).append ((readsAs_expressionTokens right).behind operator)

theorem readsAs_arguments : ∀ expressions : List Expression,
    List.Forall₂ ReadsAs ((expressionTokenLists expressions).map fun tokens => .atom "&" :: tokens)
      (expressions.map fun expression => expression.calls.map .ofCall)
  | [] => by
      rw [expressionTokenLists]
      exact .nil
  | expression :: rest => by
      have borrow : ReadsAs [.atom "&"] [] := rfl
      rw [expressionTokenLists]
      exact .cons ((readsAs_expressionTokens expression).behind borrow) (readsAs_arguments rest)

end

/-! ## Statements -/

/-- A template and what is put into it. -/
theorem readsAs_template (template : String) {content : List SourceToken} (silent : ReadsAs content []) :
    methodUses (textLiteral template :: .atom "," :: content) = [] :=
  (((readsAs_textLiteral template).before readsAs_comma).before silent).methodUses_eq

/-- No primitive calls a method.  What is the same in all of them is read by evaluation. -/
theorem readsAs_primitiveTokens (operation : Primitive) : ReadsAs (primitiveTokens operation) [] := by
  cases operation with
  | runLexer command parameter =>
      have content := ((readsAs_textLiteral command).before readsAs_comma).before (readsAs_identifier parameter)
      have line := readsAs_template "\x7b\x7d\x7b\x7d" content
      rw [primitiveTokens]
      refine ((((ReadsAs.before ?_ (.group _ (ReadsAs.before ?_ (.group _ line)).methodUses_eq)).before ?_).before
        ?_).before ?_).before ?_
      all_goals decide +kernel
  | loadTokens path delimiter =>
      have file : ReadsAs (parenthesized [textLiteral path]) [] :=
        .group _ (readsAs_textLiteral path).methodUses_eq
      have separator : ReadsAs (parenthesized [.atom (Text.characterLiteral delimiter)]) [] :=
        .group _ (readsAs_characterLiteral delimiter).methodUses_eq
      -- The buffer is a member of the parser, but nothing in round brackets follows it.
      rw [primitiveTokens, List.append_assoc _ bufferTokens]
      refine (((((((((ReadsAs.before ?_ file).before ?_).before ?_).before ?_).before ?_).before ?_).before
        (.group _ (ReadsAs.before ?_ (.group _ (((((ReadsAs.before ?_ separator).before ?_).before ?_).before
          ?_).before ?_).methodUses_eq)).methodUses_eq)).before ?_).before ?_).before ?_
      all_goals decide +kernel
  | peek => decide +kernel
  | take => decide +kernel
  | report position expected =>
      have content := ((readsAs_identifier position).before readsAs_comma).before (readsAs_identifier expected)
      have line := readsAs_template "Error: line \x7b\x7d - expected \x7b\x7d" content
      rw [primitiveTokens]
      refine (((ReadsAs.before ?_ (.group _ line)).before ?_).before ?_).before ?_
      all_goals decide +kernel
  | requireArguments count =>
      rw [primitiveTokens]
      refine ReadsAs.before ?_ ((readsAs_sizeLiteral (count + 1)).before ?_)
      all_goals decide +kernel

theorem readsAs_flatMap_armTokens {arms : List (List SourceToken × List (List SourceToken))}
    {each : List (List MethodUse)} (reads : List.Forall₂ (fun arm => ReadsAs (armTokens arm.1 arm.2)) arms each) :
    ReadsAs (arms.flatMap fun arm => .atom "else" :: armTokens arm.1 arm.2) each.flatten := by
  have keyword : ReadsAs [.atom "else"] [] := rfl
  induction reads with
  | nil => rfl
  | cons first _ inductionHypothesis => exact (first.behind keyword).append inductionHypothesis

/-- Arms and a fallback call the methods of their parts in the order of the program. -/
theorem readsAs_branchTokens {arms : List (List SourceToken × List (List SourceToken))}
    {each : List (List MethodUse)}
    (reads : List.Forall₂ (fun arm => ReadsAs (armTokens arm.1 arm.2)) arms each)
    {fallback : Option (List (List SourceToken))} {uses : List MethodUse}
    (readsFallback : ReadsAs (fallback.getD []).flatten uses) :
    ReadsAs (branchTokens arms fallback) (each.flatten ++ uses) := by
  have keyword : ReadsAs [.atom "else"] [] := rfl
  cases reads with
  | nil => exact readsFallback
  | cons first later =>
      rw [branchTokens_cons, elseTokens, List.flatten_cons, List.append_assoc]
      refine first.append ((readsAs_flatMap_armTokens later).append ?_)
      cases fallback with
      | none => exact readsFallback
      | some body => exact ReadsAs.behind (.group _ readsFallback.methodUses_eq) keyword

theorem flatten_map_armsCalls (arms : List (Expression × List Statement)) :
    (arms.map fun arm => (arm.1.calls ++ Statement.blockCalls arm.2).map MethodUse.ofCall).flatten =
      (Statement.armsCalls arms).map .ofCall := by
  induction arms with
  | nil => rfl
  | cons arm rest inductionHypothesis =>
      rw [List.map_cons, List.flatten_cons, inductionHypothesis, Statement.armsCalls]
      exact List.map_append.symm

theorem writeExpressions_eq (expressions : List Expression) (memory : Memory) :
    ((dialect.writeExpressions expressions).run memory).1 = expressionTokenLists expressions := by
  induction expressions with
  | nil => rfl
  | cons expression rest inductionHypothesis => 
      rw [Dialect.writeExpressions, expressionTokenLists, ← inductionHypothesis]
      rfl

mutual

/-- A statement calls the methods of its calls, in the same order. -/
theorem readsAs_writeStatement : ∀ (statement : Statement) (memory : Memory),
    ReadsAs ((dialect.writeStatement statement).run memory).1 (statement.calls.map .ofCall)
  | .comment _, _ => by
      rw [Dialect.writeStatement, Statement.calls]
      rfl
  | .declare name type, _ => by
      have introduction : ReadsAs (words "let mut") [] := rfl
      have typed := ((readsAs_identifier name).append readsAs_colon).append (readsAs_type type).1
      rw [Dialect.writeStatement, Statement.calls]
      exact (introduction.append typed).append readsAs_semicolon
  | .assign name value, _ => by
      have sign : ReadsAs [.atom "="] [] := rfl
      rw [Dialect.writeStatement, Statement.calls]
      exact ((readsAs_expressionTokens value).before readsAs_semicolon).behind ((readsAs_identifier name).append sign)
  | .call routine arguments, memory => by
      have written := readsAs_expressionTokens (.call routine arguments)
      rw [expressionTokens, ← writeExpressions_eq arguments memory] at written
      rw [Dialect.writeStatement, Statement.calls]
      exact written.before readsAs_semicolon
  | .branch arms fallback, memory => by
      rw [Dialect.writeStatement, Statement.calls, List.map_append, ← flatten_map_armsCalls]
      exact readsAs_branchTokens (readsAs_writeArms arms memory) (readsAs_writeFallback fallback _)
  | .mismatch position expected, _ => by
      have written := readsAs_expressionTokens (.call Support.expect [position, .text expected])
      have onlyPosition : Expression.callsOfAll [position, .text expected] = position.calls := List.append_nil _
      rw [Expression.calls, onlyPosition] at written
      rw [Dialect.writeStatement, Statement.calls]
      exact written.before readsAs_semicolon
  | .leave none, _ => by
      rw [Dialect.writeStatement, Statement.calls]
      rfl
  | .leave (some value), _ => by
      have keyword : ReadsAs (words "return") [] := rfl
      rw [Dialect.writeStatement, Statement.calls]
      exact ((readsAs_expressionTokens value).behind keyword).before readsAs_semicolon
  | .primitive operation, _ => by
      rw [Dialect.writeStatement, Statement.calls]
      exact readsAs_primitiveTokens operation

theorem readsAs_writeBlock : ∀ (statements : List Statement) (memory : Memory),
    ReadsAs ((dialect.writeBlock statements).run memory).1.flatten ((Statement.blockCalls statements).map .ofCall)
  | [], _ => by
      rw [Dialect.writeBlock, Statement.blockCalls]
      rfl
  | statement :: rest, memory => by
      rw [Dialect.writeBlock, Statement.blockCalls, List.map_append]
      exact (readsAs_writeStatement statement memory).append (readsAs_writeBlock rest _)

theorem readsAs_writeArms : ∀ (arms : List (Expression × List Statement)) (memory : Memory),
    List.Forall₂ (fun arm => ReadsAs (armTokens arm.1 arm.2)) ((dialect.writeArms arms).run memory).1
      (arms.map fun arm => (arm.1.calls ++ Statement.blockCalls arm.2).map .ofCall)
  | [], _ => by
      rw [Dialect.writeArms]
      exact .nil
  | (condition, body) :: rest, memory => by
      have keyword : ReadsAs [.atom "if"] [] := rfl
      rw [Dialect.writeArms]
      refine .cons ?_ (readsAs_writeArms rest _)
      dsimp only
      rw [List.map_append]
      exact ((readsAs_expressionTokens condition).behind keyword).append
        (.group _ (readsAs_writeBlock body memory).methodUses_eq)

theorem readsAs_writeFallback : ∀ (fallback : Option (List Statement)) (memory : Memory),
    ReadsAs ((((dialect.writeFallback fallback).run memory).1).getD []).flatten
      ((Statement.fallbackCalls fallback).map .ofCall)
  | none, _ => by
      rw [Dialect.writeFallback, Statement.fallbackCalls]
      rfl
  | some body, memory => by
      rw [Dialect.writeFallback, Statement.fallbackCalls]
      exact readsAs_writeBlock body memory

end

/-! ## Definitions -/

/-- What a definition says about methods: the method that it is, and those that it calls. -/
def MethodUse.ofDefinition : Definition -> List MethodUse
  | .global _ => []
  | .routine routineDefinition =>
      .defines (Target.rust.identifier routineDefinition.name) ::
        (Statement.blockCalls routineDefinition.body).map .ofCall

theorem readsAs_documentation {statement : Statement} {tokens : List SourceToken}
    (documents : documentation statement = some tokens) : ReadsAs tokens [] := by
  cases statement with
  | comment text =>
      have hash : ReadsAs (words "#") [] := rfl
      have doc : ReadsAs (words "doc =") [] := rfl
      cases documents
      exact hash.before (.group _ (doc.before (readsAs_textLiteral _)).methodUses_eq)
  | _ => cases documents

theorem readsAs_filterMap_documentation (statements : List Statement) :
    ReadsAs (statements.filterMap documentation).flatten [] := by
  induction statements with
  | nil => rfl
  | cons statement rest inductionHypothesis =>
      rw [List.filterMap_cons]
      cases documents : documentation statement with
      | none => exact inductionHypothesis
      | some tokens => exact (readsAs_documentation documents).before inductionHypothesis

/-- The parser itself and the parameters of a method are no calls. -/
theorem methodUses_parameters (parameters : List Parameter) :
    methodUses (words "& mut self" ++ parameters.flatMap parameterTokens) = [] := by
  have itself : readTokens .between (words "& mut self") = ([], .behindSelf) := by decide +kernel
  have each : ReadsAs (parameters.flatMap parameterTokens) [] := by
    induction parameters with
    | nil => rfl
    | cons parameter rest inductionHypothesis =>
        have named := readsAs_comma.before (readsAs_identifier parameter.name)
        exact ((named.before readsAs_colon).before (readsAs_type parameter.type).2).before inductionHypothesis
  rw [methodUses, readTokens_append, itself, List.nil_append]
  cases parameters with
  | nil => rfl
  | cons parameter rest => exact each.methodUses_eq

theorem readsAs_signature (routine : Routine) :
    ReadsAs (words "fn" ++ identifier routine.name :: parenthesized
      (words "& mut self" ++ routine.parameters.flatMap parameterTokens))
      [.defines (Target.rust.identifier routine.name)] := by
  have keyword : readTokens .between (words "fn") = ([], .behindFunction) := rfl
  have parameters : ReadsAs (parenthesized (words "& mut self" ++ routine.parameters.flatMap parameterTokens)) [] :=
    .group _ (methodUses_parameters routine.parameters)
  have named (content : List SourceToken) : readTokens .behindFunction (identifier routine.name :: content) =
      (.defines (Target.rust.identifier routine.name) :: (readTokens .between content).1,
        (readTokens .between content).2) := by
    rw [readTokens]
    rfl
  rw [ReadsAs, readTokens_append, keyword, named, parameters]
  rfl

/-- A routine becomes one method, in which the methods of its calls are called. -/
theorem readsAs_routineTokens (routine : Routine) {body : List (List SourceToken)} {uses : List MethodUse}
    (reads : ReadsAs body.flatten uses) :
    ReadsAs (routineTokens routine body) (.defines (Target.rust.identifier routine.name) :: uses) := by
  have documented := readsAs_filterMap_documentation routine.body
  have visible : ReadsAs (if routine.role = .entry then words "pub" else []) [] := by
    split <;> rfl
  have statements : ReadsAs (braced body.flatten) uses := .group _ reads.methodUses_eq
  have arrow : ReadsAs [.atom "->"] [] := rfl
  rw [routineTokens, List.append_assoc _ (words "fn")]
  refine (((readsAs_signature routine).behind (documented.before visible)).before ?_).append statements
  cases routine.returns with
  | none => rfl
  | some type => exact arrow.before (readsAs_type type).1

/-- A definition says about methods what its routine does. -/
theorem readsAs_writeDefinitions (definitions : List Definition) (memory : Memory) :
    List.Forall₂ (fun definition tokens => ReadsAs tokens (MethodUse.ofDefinition definition)) definitions
      ((dialect.writeDefinitions definitions).run memory).1 := by
  induction definitions generalizing memory with
  | nil => exact .nil
  | cons definition rest inductionHypothesis =>
      cases definition with
      | global variableDefinition =>
          rw [Dialect.writeDefinitions]
          exact .cons rfl (inductionHypothesis _)
      | routine routineDefinition =>
          rw [Dialect.writeDefinitions]
          exact .cons (readsAs_routineTokens _ (readsAs_writeBlock _ memory)) (inductionHypothesis _)

/-! ## Methods of parsers -/

def MethodUse.defined? : MethodUse -> Option String
  | .defines identifier => some identifier
  | .calls _ => none

def MethodUse.called? : MethodUse -> Option String
  | .defines _ => none
  | .calls identifier => some identifier

/-- The methods that are defined in tokens. -/
def methodsDefined (tokens : List SourceToken) : List String :=
  (methodUses tokens).filterMap (·.defined?)

/-- The methods that are called in tokens. -/
def methodsCalled (tokens : List SourceToken) : List String :=
  (methodUses tokens).filterMap (·.called?)

/-- The tokens of all methods of a program. -/
def methodTokens (program : Program) : List SourceToken :=
  ((dialect.writeDefinitions program.definitions).run .fresh).1.flatten

theorem methodUses_methodTokens (program : Program) :
    methodUses (methodTokens program) = program.definitions.flatMap MethodUse.ofDefinition := by
  have each := readsAs_writeDefinitions program.definitions .fresh
  have uses : List.Forall₂ ReadsAs ((dialect.writeDefinitions program.definitions).run .fresh).1
      (program.definitions.map MethodUse.ofDefinition) :=
    List.forall₂_map_right_iff.mpr each.flip
  rw [methodTokens, (ReadsAs.flatten uses).methodUses_eq, List.flatMap_def]

theorem methodsDefined_methodTokens (program : Program) :
    methodsDefined (methodTokens program) =
      program.routines.map fun routine => Target.rust.identifier routine.name := by
  rw [methodsDefined, methodUses_methodTokens, Program.routines]
  induction program.definitions with
  | nil => rfl
  | cons definition rest inductionHypothesis =>
      have ofCalls (calls : List Call) : (calls.map MethodUse.ofCall).filterMap (·.defined?) = [] := by
        rw [List.filterMap_map]
        exact List.filterMap_eq_nil_iff.mpr fun _ _ => rfl
      rw [List.flatMap_cons, List.filterMap_append, inductionHypothesis]
      cases definition with
      | global variableDefinition => rfl
      | routine routineDefinition =>
          have ofRoutine := ofCalls (Statement.blockCalls routineDefinition.body)
          exact congrArg (fun others => (Target.rust.identifier routineDefinition.name :: others) ++ _) ofRoutine

theorem mem_methodsCalled {program : Program} {name : String} :
    name ∈ methodsCalled (methodTokens program) ↔
      ∃ routine ∈ program.routines, ∃ call ∈ Statement.blockCalls routine.body,
        Target.rust.identifier call.routine = name := by
  have called (use : MethodUse) : use.called? = some name ↔ use = .calls name := by
    cases use <;> simp [MethodUse.called?]
  rw [methodsCalled, methodUses_methodTokens]
  constructor
  · intro member
    rcases List.mem_filterMap.mp member with ⟨use, inUses, isCall⟩
    rcases List.mem_flatMap.mp inUses with ⟨definition, defined, inDefinition⟩
    rw [(called use).mp isCall] at inDefinition
    cases definition with
    | global variableDefinition => cases inDefinition
    | routine routineDefinition =>
        rcases List.mem_cons.mp inDefinition with same | inBody
        · cases same
        · rcases List.mem_map.mp inBody with ⟨call, isCalled, same⟩
          have member : routineDefinition ∈ program.routines := List.mem_filterMap.mpr ⟨_, defined, rfl⟩
          exact ⟨routineDefinition, member, call, isCalled, MethodUse.calls.inj same⟩
  · rintro ⟨routine, member, call, isCalled, rfl⟩
    rcases List.mem_filterMap.mp member with ⟨definition, defined, isRoutine⟩
    cases definition with
    | global variableDefinition => cases isRoutine
    | routine routineDefinition =>
        cases isRoutine
        refine List.mem_filterMap.mpr ⟨.ofCall call, List.mem_flatMap.mpr ⟨_, defined, ?_⟩, rfl⟩
        exact List.mem_cons_of_mem _ (List.mem_map_of_mem isCalled)

end RustProgram

namespace Grammar

variable {grammar : Grammar} {settings : Settings} {program : Program}

/-- Every method that is called in the text of a parser is defined in it. -/
theorem methodsCalled_subset (made : grammar.parser settings = .ok program) :
    RustProgram.methodsCalled (RustProgram.methodTokens program) ⊆
      RustProgram.methodsDefined (RustProgram.methodTokens program) := by
  intro name called
  rcases RustProgram.mem_methodsCalled.mp called with ⟨routine, member, call, isCalled, rfl⟩
  rcases resolves_of_mem_blockCalls made member isCalled with ⟨target, only, fits⟩
  have present : target ∈ program.routines := (List.mem_filter.mp (only ▸ List.mem_singleton_self target)).1
  rw [RustProgram.methodsDefined_methodTokens, ← fits.named]
  exact List.mem_map.mpr ⟨target, present, rfl⟩

/-- No method of a parser is taken for another one if and only if no two of the functions of
the parser's type have the same name, that which makes the parser included. -/
theorem isHygienic_iff_nodup (made : grammar.parser settings = .ok program) :
    Target.rust.IsHygienic program ↔
      (RustProgram.makerName :: RustProgram.methodsDefined (RustProgram.methodTokens program)).Nodup := by
  have apart := List.pairwise_map.mp (distinct_universal_names_routines made)
  have distinct : (program.routines.map fun routine => Target.rust.identifier routine.name).Nodup :=
    List.pairwise_map.mpr (apart.imp fun different => mt Target.rust.universal_eq_of_identifier_eq different)
  have ofSupport : RustProgram.makerName ∉ Support.routineNames.map Target.rust.identifier := by decide
  have regrouped := (perm_names_routines made).map Target.rust.identifier
  rw [List.map_map, List.map_append] at regrouped
  have ofRule : RustProgram.makerName ∈ (program.routines.map fun routine => Target.rust.identifier routine.name) ↔
      ∃ rule ∈ grammar.names, Target.rust.identifier rule = RustProgram.makerName := by
    refine regrouped.mem_iff.trans ?_
    rw [List.mem_append, or_iff_left ofSupport, List.mem_map]
  rw [RustProgram.methodsDefined_methodTokens, List.nodup_cons, and_iff_left distinct, rust_isHygienic_iff made,
    ofRule]
  simp only [not_exists, not_and, ne_eq]

end Grammar
end PredictiveParsing
