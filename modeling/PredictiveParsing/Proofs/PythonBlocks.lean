import PredictiveParsing.Generator
import PredictiveParsing.Proofs.GrammarText
import PredictiveParsing.Proofs.ParserContents
import PredictiveParsing.Proofs.PythonText

namespace PredictiveParsing

/-!
# Blocks of Python modules

The interpreter wants a statement in every block.  The arms and fallbacks of branches
always have one, since a placeholder stands for statements that are missing.  Routines
have one too unless all they hold is the comment that shows their rule: the comment
keeps the placeholder away, but it is no statement.  So what decides whether every
block of a parser has a body is whether every rule's routine does anything.

Comments must keep to their lines for this, because what goes on below is read as code.
-/

/-! ## Statements without comments -/

namespace Statement

mutual

/-- Whether there is no comment in the statement, and all its branches have arms. -/
def isRegular : Statement -> Bool
  | .comment _ => false
  | .branch arms fallback => !arms.isEmpty && armsRegular arms && fallbackRegular fallback
  | _ => true

def blockRegular : List Statement -> Bool
  | [] => true
  | statement :: rest => isRegular statement && blockRegular rest

def armsRegular : List (Expression × List Statement) -> Bool
  | [] => true
  | (_, body) :: rest => blockRegular body && armsRegular rest

def fallbackRegular : Option (List Statement) -> Bool
  | none => true
  | some body => blockRegular body

end

theorem blockRegular_eq_all (statements : List Statement) : blockRegular statements = statements.all isRegular := by
  induction statements with
  | nil => rfl
  | cons statement rest inductionHypothesis => rw [blockRegular, inductionHypothesis, List.all_cons]

theorem blockRegular_append {front back : List Statement} (first : blockRegular front = true)
    (later : blockRegular back = true) : blockRegular (front ++ back) = true := by
  rw [blockRegular_eq_all] at first later ⊢
  rw [List.all_append, first, later, Bool.and_self]

theorem blockRegular_drop {statements : List Statement} (regular : blockRegular statements = true) (count : Nat) :
    blockRegular (statements.drop count) = true := by
  rw [blockRegular_eq_all, List.all_eq_true] at regular ⊢
  exact fun statement member => regular statement (List.mem_of_mem_drop member)

def isComment : Statement -> Bool
  | .comment _ => true
  | _ => false

theorem isComment_of_isRegular {statement : Statement} (regular : statement.isRegular = true) :
    statement.isComment = false := by
  cases statement with
  | comment _ => cases regular
  | _ => rfl

end Statement

namespace Step

open Statement (blockRegular armsRegular blockRegular_append)

theorem blockRegular_callCode (rules : List String) : blockRegular (callCode rules) = true := by
  rw [Statement.blockRegular_eq_all, callCode, List.all_map]
  exact List.all_eq_true.mpr fun _ _ => rfl

theorem blockRegular_selectCode (settings : Settings) (acquisition : Acquisition)
    {arms : List (Expression × List Statement)} (regular : armsRegular arms = true) (spellings : List String)
    (mayBeAbsent : Bool) : blockRegular (selectCode settings acquisition arms spellings mayBeAbsent) = true := by
  cases arms with
  | nil => cases mayBeAbsent <;> cases acquisition <;> rfl
  | cons arm rest =>
      rw [selectCode]
      cases mayBeAbsent <;> cases acquisition <;>
        simp [acquireCode, mismatchCode, Statement.blockRegular, Statement.isRegular, Statement.fallbackRegular,
          regular]

mutual

/-- What is written for a plan has no comments, and no branch without arms. -/
theorem blockRegular_code (settings : Settings) : ∀ steps : List Step, blockRegular (code settings steps) = true
  | [] => by
      rw [code]
      rfl
  | .nothing :: rest => by
      rw [code]
      exact blockRegular_code settings rest
  | .require leaf :: rest => by
      have others := Statement.blockRegular_drop (blockRegular_code settings rest) (leadingCalls rest).length
      have calls := blockRegular_callCode (leadingCalls rest)
      rw [code, blockRegular, blockRegular, others, Statement.isRegular, armsRegular, calls]
      rfl
  | .call rule :: rest => by
      rw [code, blockRegular, blockRegular_code settings rest]
      rfl
  | .advance :: rest => by
      rw [code, blockRegular, blockRegular_code settings rest]
      rfl
  | .group steps :: rest => by
      rw [code]
      exact blockRegular_append (blockRegular_code settings steps) (blockRegular_code settings rest)
  | .select acquisition arms mayBeAbsent :: rest => by
      rw [code]
      exact blockRegular_append
        (blockRegular_selectCode settings acquisition (armsRegular_armsCode settings arms) _ mayBeAbsent)
        (blockRegular_code settings rest)

theorem armsRegular_armsCode (settings : Settings) :
    ∀ arms : List (Terminal × List Step), armsRegular (armsCode settings arms) = true
  | [] => by
      rw [armsCode]
      rfl
  | (leaf, steps) :: rest => by
      rw [armsCode, armsRegular, blockRegular_code settings steps, armsRegular_armsCode settings rest]
      rfl

end

end Step

/-! ## Writers -/

open Layout (IsTidy IsBody AreTidy IsSection HasNoReturns beginsCode everyBlockHasBody opensBlock)

namespace PythonModule

/-- The entry routine has been remembered by an identifier. -/
def Memory.IsSound (memory : Memory) : Prop :=
  ∀ entry ∈ memory.entry, Naming.IsIdentifier entry

/-- Whether a writer gives something with the property, whatever was written before. -/
def Gives {α : Type} (write : StateM Memory α) (property : α -> Prop) : Prop :=
  ∀ memory : Memory, memory.IsSound -> property (write.run memory).1 ∧ (write.run memory).2.IsSound

namespace Gives

variable {α β : Type} {write : StateM Memory α} {property : α -> Prop}

theorem pure {value : α} (holds : property value) : Gives (Pure.pure value) property :=
  fun _ sound => ⟨holds, sound⟩

theorem bind {next : α -> StateM Memory β} {result : β -> Prop} (first : Gives write property)
    (later : ∀ value, property value -> Gives (next value) result) : Gives (write >>= next) result := by
  intro memory sound
  rcases first memory sound with ⟨holds, soundNext⟩
  exact later _ holds _ soundNext

theorem mono {wider : α -> Prop} (gives : Gives write property) (widens : ∀ value, property value -> wider value) :
    Gives write wider :=
  fun memory sound => ⟨widens _ (gives memory sound).1, (gives memory sound).2⟩

theorem both {other : α -> Prop} (first : Gives write property) (second : Gives write other) :
    Gives write fun value => property value ∧ other value :=
  fun memory sound => ⟨⟨(first memory sound).1, (second memory sound).1⟩, (first memory sound).2⟩

theorem need (needs : ModuleNeeds) : Gives (need needs) fun _ => True :=
  fun _ sound => ⟨trivial, sound⟩

theorem remember (routine : Routine) : Gives (remember routine) fun _ => True := by
  intro memory sound
  refine ⟨trivial, ?_⟩
  change Memory.IsSound (if routine.role = .entry then ⟨memory.needs, some (identifier routine.name)⟩ else memory)
  split
  · intro entry same
    cases Option.mem_some_iff.mp same
    exact Naming.isIdentifier_avoiding _ routine.name
  · exact sound

end Gives

theorem gives_expression (expression : Expression) :
    Gives (dialect.expression expression) fun text => text = expressionText expression :=
  (Gives.need _).bind fun _ _ => .pure rfl

theorem gives_isCode (expression : Expression) : Gives (dialect.expression expression) IsCode :=
  (gives_expression expression).mono fun _ same => same ▸ isCode_expressionText expression

theorem gives_writeExpressions (expressions : List Expression) :
    Gives (dialect.writeExpressions expressions) fun texts => ∀ text ∈ texts, IsCode text := by
  induction expressions with
  | nil => exact .pure (List.forall_mem_nil _)
  | cons expression rest inductionHypothesis =>
      exact (gives_isCode expression).bind fun text code =>
        inductionHypothesis.bind fun texts each => .pure (List.forall_mem_cons.mpr ⟨code, each⟩)

/-! ## Lines -/

theorem isTidy_line {line : String} (begins : beginsCode line = true) (code : IsCode line) : IsTidy [line] := by
  have flush := Layout.isFlush_of_beginsCode begins
  refine Layout.isTidy_singleton ⟨Layout.ne_empty_of_beginsCode begins, code.noFeed, code.noReturn⟩ flush ?_
  rw [opensBlock, flush.speaks, Bool.not_false, Bool.true_and]
  exact beq_false_of_ne code.last

/-- A header and the lines of its block. -/
theorem isTidy_header {line : String} (begins : beginsCode line = true) (code : IsCode line) {lines : List String}
    (body : IsBody lines) : IsTidy ((line ++ ":") :: lines) := by
  have whole := Layout.beginsCode_append begins ":"
  refine body.below ⟨Layout.ne_empty_of_beginsCode whole, ?_, ?_⟩ (Layout.isFlush_of_beginsCode whole)
  · rw [String.toList_append]
    exact List.not_mem_append code.noFeed (by decide)
  · rw [String.toList_append]
    exact List.not_mem_append code.noReturn (by decide)

/-- A word that is known, and code behind it. -/
theorem isTidy_word {word rest : String} (begins : beginsCode word = true) (known : IsCode word) (code : IsCode rest) :
    IsTidy [word ++ rest] :=
  isTidy_line (Layout.beginsCode_append begins rest) (known.append code)

theorem beginsCode_of_isIdentifier {text : String} (isIdentifier : Naming.IsIdentifier text) :
    beginsCode text = true := by
  rcases List.exists_cons_of_ne_nil isIdentifier.nonempty with ⟨c, others, spelled⟩
  have inIdentifier := isIdentifier.characters c (spelled ▸ List.mem_cons_self)
  refine Layout.beginsCode_of_cons spelled (Naming.isWhiteSpace_of_isIdentifierCharacter inIdentifier) ?_
  rintro rfl
  cases inIdentifier

theorem beginsCode_identifier (name : String) : beginsCode (identifier name) = true :=
  beginsCode_of_isIdentifier (Naming.isIdentifier_avoiding Naming.pythonWords name)

theorem isTidy_identifier (name : String) {rest : String} (code : IsCode rest) : IsTidy [identifier name ++ rest] :=
  isTidy_word (beginsCode_identifier name) (.identifier name) code

theorem isCode_typeName (type : ValueType) : IsCode (typeName type) := by
  cases type <;> decide

theorem isCode_typed (name : String) (type : ValueType) : IsCode (typed name type) :=
  ((IsCode.identifier name).append (by decide)).append (isCode_typeName type)

theorem beginsCode_typed (name : String) (type : ValueType) : beginsCode (typed name type) = true :=
  Layout.beginsCode_append (Layout.beginsCode_append (beginsCode_identifier name) _) _

theorem beginsCode_application (routine : String) (arguments : List String) :
    beginsCode (application routine arguments) = true :=
  Layout.beginsCode_append (Layout.beginsCode_append (Layout.beginsCode_append (beginsCode_identifier routine) _) _) _

theorem isTidy_application (routine : String) {arguments : List String} (each : ∀ text ∈ arguments, IsCode text) :
    IsTidy [application routine arguments] :=
  isTidy_line (beginsCode_application routine arguments) (.application routine each)

/-! ## Primitives -/

theorem isBody_line {line : String} (begins : beginsCode line = true) (code : IsCode line) : IsBody ["\t" ++ line] :=
  (isTidy_line begins code).further (List.cons_ne_nil _ _)

theorem isTidy_primitiveLines (operation : Primitive) : IsTidy (primitiveLines operation) := by
  cases operation with
  | runLexer command parameter =>
      have runs : IsTidy ["response = subprocess.run(" ++ (Text.quoted command ++ (" + " ++
          (identifier parameter ++ ", shell=True)")))] :=
        isTidy_word (by decide) (by decide)
          ((IsCode.quoted command).append (.append (by decide) ((IsCode.identifier parameter).append (by decide))))
      have checks : IsTidy ["if response.returncode != 0" ++ ":", "\t" ++ "sys.exit(1)"] :=
        isTidy_header (by decide) (by decide) (isBody_line (by decide) (by decide))
      rw [primitiveLines, String.append_assoc, String.append_assoc, String.append_assoc]
      exact runs.append checks
  | loadTokens path delimiter =>
      have declares : IsTidy ["global " ++ Support.tokens] := isTidy_line (by decide) (by decide)
      have opens : IsTidy [("with open(" ++ Text.quoted path ++ ") as f") ++ ":",
          "\t" ++ (Support.tokens ++ " = [line.split(" ++ Text.quoted (String.ofList [delimiter]) ++
            ") for line in f.read().splitlines()]")] := by
        refine isTidy_header (Layout.beginsCode_append (Layout.beginsCode_append (by decide) _) _) ?_
          (isBody_line ?_ ?_)
        · exact (IsCode.append (by decide) (.quoted path)).append (by decide)
        · exact Layout.beginsCode_append (Layout.beginsCode_append (by decide) _) _
        · exact (IsCode.append (by decide) (.quoted _)).append (by decide)
      rw [primitiveLines]
      have joined := declares.append opens
      simpa [String.append_assoc] using joined
  | peek =>
      have looks : IsTidy [("if len(" ++ Support.tokens ++ ") > 0") ++ ":",
          "\t" ++ ("return " ++ Support.tokens ++ "[0]")] :=
        isTidy_header (by decide) (by decide) (isBody_line (by decide) (by decide))
      have gives : IsTidy [returnEmptyToken] := isTidy_line (by decide) (by decide)
      exact looks.append gives
  | take =>
      have looks : IsTidy [("if len(" ++ Support.tokens ++ ") > 0") ++ ":",
          "\t" ++ ("return " ++ Support.tokens ++ ".pop(0)")] :=
        isTidy_header (by decide) (by decide) (isBody_line (by decide) (by decide))
      have gives : IsTidy [returnEmptyToken] := isTidy_line (by decide) (by decide)
      exact looks.append gives
  | report position expected =>
      have prints : IsTidy ["print(\"Error: line\", " ++ (identifier position ++ (", \"- expected\", " ++
          (identifier expected ++ ")")))] :=
        isTidy_word (by decide) (by decide)
          ((IsCode.identifier position).append (.append (by decide) ((IsCode.identifier expected).append (by decide))))
      have stops : IsTidy ["sys.exit(1)"] := isTidy_line (by decide) (by decide)
      rw [primitiveLines, String.append_assoc, String.append_assoc, String.append_assoc]
      exact prints.append stops
  | requireArguments count =>
      have prints : IsTidy ["print(\"usage: parser FILE\")"] := isTidy_line (by decide) (by decide)
      have stops : IsTidy ["sys.exit(1)"] := isTidy_line (by decide) (by decide)
      have body := (prints.append stops).further (List.cons_ne_nil _ _)
      exact isTidy_header (Layout.beginsCode_append (by decide) _) (.append (by decide) (.number _)) body

/-! ## Statements -/

theorem isTidy_laterArms {arms : List (String × List (List String))}
    (each : ∀ arm ∈ arms, IsCode arm.1 ∧ AreTidy arm.2) : IsTidy (laterArms arms) := by
  induction arms with
  | nil => exact Layout.isTidy_nil
  | cons arm rest inductionHypothesis =>
      rcases List.forall_mem_cons.mp each with ⟨⟨code, tidy⟩, later⟩
      have header : IsTidy (("elif " ++ arm.1 ++ ":") :: Layout.block arm.2) :=
        isTidy_header (Layout.beginsCode_append (by decide) _) (.append (by decide) code) (Layout.isBody_block tidy)
      exact header.append (inductionHypothesis later)

theorem isTidy_fallbackLines {fallback : Option (List (List String))} (each : ∀ body ∈ fallback, AreTidy body) :
    IsTidy (fallbackLines fallback) := by
  cases fallback with
  | none => exact Layout.isTidy_nil
  | some body =>
      have header : IsTidy (("else" ++ ":") :: Layout.block body) :=
        isTidy_header (by decide) (by decide) (Layout.isBody_block (each body rfl))
      exact header

theorem branchLines_spec {arms : List (String × List (List String))} (nonempty : arms ≠ [])
    (each : ∀ arm ∈ arms, IsCode arm.1 ∧ AreTidy arm.2) {fallback : Option (List (List String))}
    (otherwise : ∀ body ∈ fallback, AreTidy body) :
    branchLines arms fallback ≠ [] ∧ IsTidy (branchLines arms fallback) := by
  rcases List.exists_cons_of_ne_nil nonempty with ⟨⟨condition, body⟩, rest, rfl⟩
  rcases List.forall_mem_cons.mp each with ⟨⟨code, tidy⟩, later⟩
  have header : IsTidy (("if " ++ condition ++ ":") :: Layout.block body) :=
    isTidy_header (Layout.beginsCode_append (by decide) _) (.append (by decide) code) (Layout.isBody_block tidy)
  refine ⟨List.cons_ne_nil _ _, ?_⟩
  exact (header.append (isTidy_laterArms later)).append (isTidy_fallbackLines otherwise)

theorem primitiveLines_ne_nil (operation : Primitive) : primitiveLines operation ≠ [] := by
  cases operation <;> exact List.cons_ne_nil _ _

open Statement (blockRegular armsRegular fallbackRegular)

mutual

theorem gives_writeStatement : ∀ statement : Statement, statement.isRegular = true ->
    Gives (dialect.writeStatement statement) fun fragment => fragment ≠ [] ∧ IsTidy fragment
  | .comment _, regular => by cases regular
  | .declare name type, _ => by
      rw [Dialect.writeStatement]
      exact (Gives.need _).bind fun _ _ =>
        .pure ⟨List.cons_ne_nil _ _, isTidy_line (beginsCode_typed name type) (isCode_typed name type)⟩
  | .assign name value, _ => by
      rw [Dialect.writeStatement]
      refine (gives_isCode value).bind fun text code => .pure ⟨List.cons_ne_nil _ _, ?_⟩
      rw [String.append_assoc]
      exact isTidy_identifier name (.append (by decide) code)
  | .call name arguments, _ => by
      rw [Dialect.writeStatement]
      exact (gives_writeExpressions arguments).bind fun _ each =>
        .pure ⟨List.cons_ne_nil _ _, isTidy_application name each⟩
  | .branch arms fallback, regular => by
      rw [Statement.isRegular, Bool.and_eq_true, Bool.and_eq_true, Bool.not_eq_true'] at regular
      rcases regular with ⟨⟨nonempty, ofArms⟩, ofFallback⟩
      rw [Dialect.writeStatement]
      refine (gives_writeArms arms ofArms).bind fun written ⟨length, each⟩ =>
        (gives_writeFallback fallback ofFallback).bind fun otherwise tidy => .pure (branchLines_spec ?_ each tidy)
      rintro rfl
      cases arms with
      | nil => cases nonempty
      | cons _ _ => cases length
  | .mismatch position expected, _ => by
      rw [Dialect.writeStatement, Dialect.writeMismatch]
      refine (gives_isCode position).bind fun place placeCode => (gives_isCode _).bind fun text textCode =>
        .pure ⟨List.cons_ne_nil _ _, isTidy_application _ ?_⟩
      exact List.forall_mem_cons.mpr ⟨placeCode, List.forall_mem_singleton.mpr textCode⟩
  | .leave none, _ => by
      rw [Dialect.writeStatement]
      exact .pure ⟨List.cons_ne_nil _ _, isTidy_line (by decide) (by decide)⟩
  | .leave (some value), _ => by
      rw [Dialect.writeStatement]
      exact (gives_isCode value).bind fun _ code =>
        .pure ⟨List.cons_ne_nil _ _, isTidy_word (by decide) (by decide) code⟩
  | .primitive operation, _ => by
      rw [Dialect.writeStatement]
      exact (Gives.need _).bind fun _ _ => .pure ⟨primitiveLines_ne_nil operation, isTidy_primitiveLines operation⟩

theorem gives_writeBlock : ∀ statements : List Statement, blockRegular statements = true ->
    Gives (dialect.writeBlock statements) fun fragments =>
      fragments.length = statements.length ∧ AreTidy fragments
  | [], _ => by
      rw [Dialect.writeBlock]
      exact .pure ⟨rfl, List.forall_mem_nil _⟩
  | statement :: rest, regular => by
      rw [blockRegular, Bool.and_eq_true] at regular
      rw [Dialect.writeBlock]
      exact (gives_writeStatement statement regular.1).bind fun _ tidy =>
        (gives_writeBlock rest regular.2).bind fun _ ⟨length, later⟩ =>
          .pure ⟨congrArg Nat.succ length, List.forall_mem_cons.mpr ⟨tidy, later⟩⟩

theorem gives_writeArms : ∀ arms : List (Expression × List Statement), armsRegular arms = true ->
    Gives (dialect.writeArms arms) fun written =>
      written.length = arms.length ∧ ∀ arm ∈ written, IsCode arm.1 ∧ AreTidy arm.2
  | [], _ => by
      rw [Dialect.writeArms]
      exact .pure ⟨rfl, List.forall_mem_nil _⟩
  | (condition, body) :: rest, regular => by
      rw [armsRegular, Bool.and_eq_true] at regular
      rw [Dialect.writeArms]
      exact (gives_isCode condition).bind fun _ code => (gives_writeBlock body regular.1).bind fun _ ⟨_, tidy⟩ =>
        (gives_writeArms rest regular.2).bind fun _ ⟨length, later⟩ =>
          .pure ⟨congrArg Nat.succ length, List.forall_mem_cons.mpr ⟨⟨code, tidy⟩, later⟩⟩

theorem gives_writeFallback : ∀ fallback : Option (List Statement), fallbackRegular fallback = true ->
    Gives (dialect.writeFallback fallback) fun written => ∀ body ∈ written, AreTidy body
  | none, _ => by
      rw [Dialect.writeFallback]
      exact .pure nofun
  | some body, regular => by
      rw [Dialect.writeFallback]
      refine (gives_writeBlock body regular).bind fun fragments ⟨_, tidy⟩ => .pure fun other same => ?_
      cases Option.mem_some_iff.mp same
      exact tidy

end

end PythonModule

/-! ## Routines -/

/-- Whether the routine does anything but to show a comment. -/
def Routine.acts (routine : Routine) : Bool :=
  routine.body.any fun statement => !statement.isComment

/-- Whether nothing that the routine shows in a comment holds a carriage return. -/
def Routine.HasNoReturns (routine : Routine) : Prop :=
  ∀ text, .comment text ∈ routine.body -> '\r' ∉ text.toList

/-- The shapes of routines in parsers. -/
inductive Routine.IsRegular (routine : Routine) : Prop where
  /-- There are only statements. -/
  | plain (nonempty : routine.body ≠ []) (regular : Statement.blockRegular routine.body = true)
  /-- A comment on a line of its own comes first. -/
  | commented {text : String} {others : List Statement} (body : routine.body = .comment text :: others)
      (oneLine : '\n' ∉ text.toList) (regular : Statement.blockRegular others = true)

theorem Statement.not_mem_of_blockRegular {statements : List Statement} (regular : blockRegular statements = true)
    (text : String) : .comment text ∉ statements := by
  rw [blockRegular_eq_all, List.all_eq_true] at regular
  exact fun member => by cases regular _ member

theorem Routine.hasNoReturns_of_blockRegular {routine : Routine}
    (regular : Statement.blockRegular routine.body = true) : routine.HasNoReturns :=
  fun text member => absurd member (Statement.not_mem_of_blockRegular regular text)

theorem Routine.hasNoReturns_of_commented {routine : Routine} {text : String} {others : List Statement}
    (body : routine.body = .comment text :: others) (noReturn : '\r' ∉ text.toList)
    (regular : Statement.blockRegular others = true) : routine.HasNoReturns := by
  intro other member
  rw [body] at member
  rcases List.mem_cons.mp member with same | later
  · cases same
    exact noReturn
  · exact absurd later (Statement.not_mem_of_blockRegular regular other)

theorem Statement.any_of_blockRegular {statements : List Statement} (nonempty : statements ≠ [])
    (regular : blockRegular statements = true) : statements.any (!·.isComment) = true := by
  rcases List.exists_cons_of_ne_nil nonempty with ⟨statement, rest, rfl⟩
  rw [blockRegular, Bool.and_eq_true] at regular
  rw [List.any_cons, isComment_of_isRegular regular.1, Bool.not_false, Bool.true_or]

namespace PythonModule

/-- The line that a routine begins with is a header. -/
theorem exists_header (routine : Routine) :
    ∃ line, header routine = line ++ ":" ∧ beginsCode line = true ∧ IsCode line := by
  rcases routine with ⟨name, role, parameters, returns, body⟩
  have each : ∀ text ∈ parameters.map fun parameter => typed parameter.name parameter.type, IsCode text := by
    intro text member
    rcases List.mem_map.mp member with ⟨parameter, _, rfl⟩
    exact isCode_typed parameter.name parameter.type
  have named := IsCode.append (by decide : IsCode "def ") ((IsCode.identifier name).append (.arguments each))
  have begins (rest : String) : beginsCode ("def " ++ rest) = true := Layout.beginsCode_append (by decide) rest
  refine ⟨_, rfl, ?_, ?_⟩
  all_goals rw [String.append_assoc, String.append_assoc, String.append_assoc, String.append_assoc]
  · exact begins _
  · cases returns with
    | none => simpa only [String.append_assoc] using named.append (by decide : IsCode "")
    | some type =>
        have returned := IsCode.append (by decide : IsCode " -> ") (isCode_typeName type)
        simpa only [String.append_assoc] using named.append returned

theorem opensBlock_header {line : String} (begins : beginsCode line = true) : opensBlock (line ++ ":") = true := by
  have speaks := (Layout.isFlush_of_beginsCode (Layout.beginsCode_append begins ":")).speaks
  have ends : (line ++ ":").toList.getLast? = some ':' := by
    rw [String.toList_append]
    exact List.getLast?_concat
  rw [opensBlock, speaks, ends]
  rfl

theorem comment_ne_empty (text : String) : "# " ++ text ≠ "" := by
  intro empty
  have spelled := congrArg String.toList empty
  rw [String.toList_append] at spelled
  cases spelled

theorem isSilent_comment (text : String) : Layout.isSilent ("# " ++ text) = true := by
  rw [Layout.isSilent, String.toList_append]
  rfl

/-- A routine with a comment, as a section. -/
theorem isSection_commented {line text : String} (begins : beginsCode line = true) (code : IsCode line)
    (oneLine : '\n' ∉ text.toList) {fragments : List (List String)} (tidy : AreTidy fragments) :
    IsSection ((line ++ ":") :: Layout.block (["# " ++ text] :: fragments)) where
  noFeed := by
    rw [Layout.block_comment (comment_ne_empty text) tidy]
    refine List.forall_mem_cons.mpr ⟨?_, List.forall_mem_cons.mpr ⟨?_, ?_⟩⟩
    · rw [String.toList_append]
      exact List.not_mem_append code.noFeed (by decide)
    · rw [String.toList_append, String.toList_append]
      exact List.not_mem_append (by decide) (List.not_mem_append (by decide) oneLine)
    · exact fun other member => (Layout.isLine_of_mem_flatMap_indent tidy other member).noFeed
  flush := ⟨_, _, rfl, Layout.isFlush_of_beginsCode (Layout.beginsCode_append begins ":")⟩

theorem hasNoReturns_commented {line text : String} (code : IsCode line) (noReturn : '\r' ∉ text.toList)
    {fragments : List (List String)} (tidy : AreTidy fragments) :
    HasNoReturns ((line ++ ":") :: Layout.block (["# " ++ text] :: fragments)) := by
  rw [Layout.block_comment (comment_ne_empty text) tidy]
  refine List.forall_mem_cons.mpr ⟨?_, List.forall_mem_cons.mpr ⟨?_, ?_⟩⟩
  · rw [String.toList_append]
    exact List.not_mem_append code.noReturn (by decide)
  · rw [String.toList_append, String.toList_append]
    exact List.not_mem_append (by decide) (List.not_mem_append (by decide) noReturn)
  · exact fun other member => (Layout.isLine_of_mem_flatMap_indent tidy other member).noReturn

/-- A comment on one line comes before whatever the statements after it become. -/
theorem gives_writeBlock_comment {text : String} (oneLine : '\n' ∉ text.toList) {others : List Statement}
    {property : List (List String) -> Prop} (gives : Gives (dialect.writeBlock others) property) :
    Gives (dialect.writeBlock (.comment text :: others)) fun fragments =>
      ∃ rest, fragments = ["# " ++ text] :: rest ∧ property rest := by
  have single : Layout.ofText ("# " ++ text) = ["# " ++ text] := by
    apply Text.segments_of_not_mem
    rw [String.toList_append]
    exact List.not_mem_append (by decide) oneLine
  have ofComment : Gives (dialect.comment text) fun first => first = ["# " ++ text] := .pure single
  rw [Dialect.writeBlock, Dialect.writeStatement]
  exact ofComment.bind fun first same => gives.bind fun rest holds => .pure ⟨rest, same ▸ rfl, holds⟩

/-- A routine becomes a section, and its own block has a body there if the routine acts. -/
theorem gives_writeRoutine {routine : Routine} (regular : routine.IsRegular) :
    Gives (dialect.writeRoutine routine) fun lines =>
      IsSection lines ∧ (routine.HasNoReturns -> HasNoReturns lines) ∧
        (everyBlockHasBody lines = true ↔ routine.acts = true) := by
  rcases exists_header routine with ⟨line, written, begins, code⟩
  rw [Dialect.writeRoutine]
  cases regular with
  | plain nonempty regular =>
      refine (gives_writeBlock routine.body regular).bind fun fragments ⟨_, tidy⟩ =>
        (Gives.remember routine).bind fun _ _ => (Gives.need _).bind fun _ _ => .pure ?_
      have whole := isTidy_header begins code (Layout.isBody_block tidy)
      rw [written]
      exact ⟨whole.isSection (List.cons_ne_nil _ _), fun _ => whole.hasNoReturns,
        iff_of_true whole.bodies (Statement.any_of_blockRegular nonempty regular)⟩
  | @commented text others body oneLine regular =>
      have acts : routine.acts = true ↔ others ≠ [] := by
        rw [Routine.acts, body, List.any_cons, Statement.isComment, Bool.not_true, Bool.false_or]
        refine ⟨?_, fun nonempty => Statement.any_of_blockRegular nonempty regular⟩
        rintro acts rfl
        cases acts
      have shown : Statement.comment text ∈ routine.body := body ▸ List.mem_cons_self
      rw [body]
      refine (gives_writeBlock_comment oneLine (gives_writeBlock others regular)).bind
        fun fragments ⟨rest, same, length, tidy⟩ =>
        (Gives.remember routine).bind fun _ _ => (Gives.need _).bind fun _ _ => .pure ?_
      rw [written, same]
      refine ⟨isSection_commented begins code oneLine tidy,
        fun noReturns => hasNoReturns_commented code (noReturns text shown) tidy, ?_⟩
      rw [Layout.everyBlockHasBody_comment_iff (comment_ne_empty text) tidy (isSilent_comment text)
        (opensBlock_header begins) (Layout.isFlush_of_beginsCode (Layout.beginsCode_append begins ":")), acts,
        ← List.length_pos_iff, length, List.length_pos_iff]

/-! ## Modules -/

end PythonModule

def Definition.IsRegular : Definition -> Prop
  | .global _ => True
  | .routine routineDefinition => routineDefinition.IsRegular

def Definition.HasNoReturns : Definition -> Prop
  | .global _ => True
  | .routine routineDefinition => routineDefinition.HasNoReturns

def Definition.Acts : Definition -> Prop
  | .global _ => True
  | .routine routineDefinition => routineDefinition.acts = true

namespace PythonModule

theorem gives_global (variableDefinition : GlobalVariable) :
    Gives (dialect.global variableDefinition) fun lines =>
      IsSection lines ∧ HasNoReturns lines ∧ everyBlockHasBody lines = true := by
  refine (Gives.need _).bind fun _ _ => .pure ?_
  have code : IsCode (initialValue variableDefinition.type) := by
    cases variableDefinition.type <;> decide
  have tidy := isTidy_word (beginsCode_typed variableDefinition.name variableDefinition.type) (isCode_typed _ _)
    (IsCode.append (by decide : IsCode " = ") code)
  rw [String.append_assoc]
  exact ⟨tidy.isSection (List.cons_ne_nil _ _), tidy.hasNoReturns, tidy.bodies⟩

theorem gives_writeDefinitions {definitions : List Definition}
    (regular : ∀ definition ∈ definitions, definition.IsRegular) :
    Gives (dialect.writeDefinitions definitions) fun sections => sections.length = definitions.length ∧
      (∀ lines ∈ sections, IsSection lines) ∧
      ((∀ definition ∈ definitions, definition.HasNoReturns) -> ∀ lines ∈ sections, HasNoReturns lines) ∧
      (sections.all everyBlockHasBody = true ↔ ∀ definition ∈ definitions, definition.Acts) := by
  induction definitions with
  | nil =>
      exact .pure ⟨rfl, List.forall_mem_nil _, fun _ => List.forall_mem_nil _,
        iff_of_true rfl (List.forall_mem_nil _)⟩
  | cons definition rest inductionHypothesis =>
      rcases List.forall_mem_cons.mp regular with ⟨first, later⟩
      have ofFirst (write : StateM Memory (List String))
          (gives : Gives write fun lines => IsSection lines ∧ (definition.HasNoReturns -> HasNoReturns lines) ∧
            (everyBlockHasBody lines = true ↔ definition.Acts)) :
          Gives (do return (← write) :: (← dialect.writeDefinitions rest)) fun sections =>
            sections.length = (definition :: rest).length ∧ (∀ lines ∈ sections, IsSection lines) ∧
            ((∀ each ∈ definition :: rest, each.HasNoReturns) -> ∀ lines ∈ sections, HasNoReturns lines) ∧
            (sections.all everyBlockHasBody = true ↔ ∀ each ∈ definition :: rest, each.Acts) := by
        refine gives.bind fun lines ⟨isSection, noReturns, acts⟩ =>
          (inductionHypothesis later).bind fun sections ⟨length, each, restNoReturns, restActs⟩ => .pure ?_
        refine ⟨congrArg Nat.succ length, List.forall_mem_cons.mpr ⟨isSection, each⟩, fun all => ?_, ?_⟩
        · rcases List.forall_mem_cons.mp all with ⟨ofDefinition, ofRest⟩
          exact List.forall_mem_cons.mpr ⟨noReturns ofDefinition, restNoReturns ofRest⟩
        · rw [List.all_cons, Bool.and_eq_true, acts, restActs, List.forall_mem_cons]
      cases definition with
      | global variableDefinition =>
          rw [Dialect.writeDefinitions]
          exact ofFirst _ ((gives_global variableDefinition).mono fun lines ⟨isSection, noReturns, bodies⟩ =>
            ⟨isSection, fun _ => noReturns, iff_of_true bodies trivial⟩)
      | routine routineDefinition =>
          rw [Dialect.writeDefinitions]
          exact ofFirst _ (gives_writeRoutine first)

theorem isTidy_imports (needs : ModuleNeeds) : IsTidy needs.imports := by
  have subprocess : IsTidy ["import subprocess"] := isTidy_line (by decide) (by decide)
  have sys : IsTidy ["import sys"] := isTidy_line (by decide) (by decide)
  have typing : IsTidy ["from typing import List"] := isTidy_line (by decide) (by decide)
  rw [ModuleNeeds.imports]
  refine IsTidy.append (.append ?_ ?_) ?_ <;> split <;> first | assumption | exact Layout.isTidy_nil

theorem isTidy_entryGuard {entry : String} (isIdentifier : Naming.IsIdentifier entry) : IsTidy (entryGuard entry) := by
  have starts : IsBody ["\t" ++ (entry ++ "()")] :=
    isBody_line (Layout.beginsCode_append (beginsCode_of_isIdentifier isIdentifier) _)
      ((IsCode.of_isIdentifier isIdentifier).append (by decide))
  have header : IsTidy [("if __name__ == \"__main__\"") ++ ":", "\t" ++ (entry ++ "()")] :=
    isTidy_header (by decide) (by decide) starts
  rw [entryGuard, String.append_assoc]
  exact header

/-- The sections around the definitions have bodies in all their blocks anyway, and no
carriage returns. -/
theorem gives_finish {definitions : List (List String)} (nonempty : definitions ≠ [])
    (each : ∀ lines ∈ definitions, IsSection lines) :
    Gives (dialect.finish definitions) fun text =>
      everyBlockHasBody (Text.segments text) = definitions.all everyBlockHasBody ∧
        ((∀ lines ∈ definitions, HasNoReturns lines) -> HasNoReturns (Text.segments text)) := by
  intro memory sound
  refine ⟨?_, sound⟩
  change everyBlockHasBody (Text.segments (moduleText memory definitions)) = _ ∧
    (_ -> HasNoReturns (Text.segments (moduleText memory definitions)))
  have front : ∀ lines ∈ (if memory.needs.imports.isEmpty then [] else [memory.needs.imports]),
      IsTidy lines ∧ lines ≠ [] := by
    split
    · exact List.forall_mem_nil _
    · rename_i some
      exact List.forall_mem_singleton.mpr
        ⟨isTidy_imports memory.needs, fun none => some (List.isEmpty_iff.mpr none)⟩
  have back : ∀ lines ∈ memory.entry.toList.map entryGuard, IsTidy lines ∧ lines ≠ [] := by
    intro lines member
    rcases List.mem_map.mp member with ⟨entry, remembered, rfl⟩
    exact ⟨isTidy_entryGuard (sound entry (Option.mem_toList.mp remembered)), List.cons_ne_nil _ _⟩
  have sections := List.forall_mem_append.mpr
    ⟨List.forall_mem_append.mpr ⟨fun lines member => (front lines member).1.isSection (front lines member).2, each⟩,
      fun lines member => (back lines member).1.isSection (back lines member).2⟩
  have inhabited := List.append_ne_nil_of_left_ne_nil (List.append_ne_nil_of_right_ne_nil
    (if memory.needs.imports.isEmpty then [] else [memory.needs.imports]) nonempty)
    (memory.entry.toList.map entryGuard)
  have frontBodies := List.all_eq_true.mpr fun lines member => (front lines member).1.bodies
  have backBodies := List.all_eq_true.mpr fun lines member => (back lines member).1.bodies
  rw [moduleText, Layout.segments_sections inhabited sections]
  refine ⟨?_, fun noReturns => ?_⟩
  · rw [Layout.everyBlockHasBody_sections sections, List.all_append, List.all_append, frontBodies, backBodies,
      Bool.true_and, Bool.and_true]
  · have all := List.forall_mem_append.mpr ⟨List.forall_mem_append.mpr
      ⟨fun lines member => (front lines member).1.hasNoReturns, noReturns⟩,
      fun lines member => (back lines member).1.hasNoReturns⟩
    refine List.forall_mem_flatMap.mpr fun lines member => ?_
    exact List.forall_mem_append.mpr ⟨all lines member, List.forall_mem_singleton.mpr (by decide)⟩

theorem forall_mem_definitions_iff {program : Program} {property : Definition -> Prop}
    (ofGlobals : ∀ variableDefinition, property (.global variableDefinition)) :
    (∀ definition ∈ program.definitions, property definition) ↔
      ∀ routine ∈ program.routines, property (.routine routine) := by
  refine ⟨fun holds routine member => ?_, fun holds definition member => ?_⟩
  · rcases List.mem_filterMap.mp member with ⟨definition, inProgram, isRoutine⟩
    cases definition with
    | global _ => cases isRoutine
    | routine other =>
        cases isRoutine
        exact holds _ inProgram
  · cases definition with
    | global variableDefinition => exact ofGlobals variableDefinition
    | routine routine => exact holds routine (List.mem_filterMap.mpr ⟨_, member, rfl⟩)

/-- Every block of a module has a body if and only if every definition does something.
Where no comment holds a carriage return, this is so however its lines are counted. -/
theorem everyBlockHasBody_write_iff {program : Program} (nonempty : program.definitions ≠ [])
    (regular : ∀ definition ∈ program.definitions, definition.IsRegular) :
    (everyBlockHasBody (Text.segments (Target.python.write program)) = true ↔
      ∀ routine ∈ program.routines, routine.acts = true) ∧
    ((∀ routine ∈ program.routines, routine.HasNoReturns) ->
      (everyBlockHasBody (Text.physicalLines (Target.python.write program)) = true ↔
        ∀ routine ∈ program.routines, routine.acts = true)) := by
  have gives : Gives (dialect.writeProgram program) fun text =>
      (everyBlockHasBody (Text.segments text) = true ↔ ∀ definition ∈ program.definitions, definition.Acts) ∧
      ((∀ definition ∈ program.definitions, definition.HasNoReturns) -> HasNoReturns (Text.segments text)) := by
    refine (gives_writeDefinitions regular).bind fun sections ⟨length, each, noReturns, acts⟩ => ?_
    have some : sections ≠ [] := by
      rintro rfl
      exact nonempty (List.length_eq_zero_iff.mp length.symm)
    exact (gives_finish some each).mono fun text ⟨bodies, kept⟩ => ⟨bodies ▸ acts, kept ∘ noReturns⟩
  have sound : Memory.IsSound .fresh := nofun
  rcases (gives .fresh sound).1 with ⟨bodies, kept⟩
  have acting := bodies.trans (forall_mem_definitions_iff fun _ => trivial)
  refine ⟨acting, fun noReturns => ?_⟩
  have physical := Layout.everyBlockHasBody_physicalLines
    (kept ((forall_mem_definitions_iff fun _ => trivial).mpr noReturns))
  exact (Bool.eq_iff_iff.mp physical).trans acting

end PythonModule

/-! ## Parsers -/

namespace Grammar

variable {grammar : Grammar} {settings : Settings} {program : Program}

theorem exists_sourceOf_eq {production : Production} (declared : production ∈ grammar.productions) :
    ∃ declaration ∈ grammar.declarations,
      declaration.name = production.name ∧ grammar.analysis.sourceOf production = declaration.written := by
  rcases exists_find?_of_mem declared with ⟨declaration, found, same⟩
  have search : grammar.analysis.grammar.find? production.name = some declaration := found
  refine ⟨declaration, mem_of_find? found, congrArg Production.name same, ?_⟩
  rw [Analysis.sourceOf, search]

/-- The routine of a rule begins with a comment, and there are no others in it. -/
theorem exists_body_of_routineFor {production : Production} {routine : Routine} {steps : List Step}
    (routineFor : grammar.analysis.RoutineFor settings production routine steps) :
    ∃ others, routine.body =
        .comment (production.name ++ " ::= " ++ grammar.analysis.sourceOf production) :: others ∧
      Statement.blockRegular others = true := by
  have regular := Step.blockRegular_code settings steps
  rw [routineFor.written]
  refine ⟨_, rfl, ?_⟩
  split
  · exact Statement.blockRegular_append rfl regular
  · exact regular

theorem isRegular_of_routineFor (keeps : grammar.KeepsToLines) {production : Production}
    (declared : production ∈ grammar.productions) {routine : Routine} {steps : List Step}
    (routineFor : grammar.analysis.RoutineFor settings production routine steps) :
    routine.IsRegular ∧ (grammar.IsOnLines -> routine.HasNoReturns) := by
  rcases exists_sourceOf_eq declared with ⟨declaration, member, named, source⟩
  rcases exists_body_of_routineFor routineFor with ⟨others, body, regular⟩
  rcases keeps declaration member with ⟨nameLine, writtenLine⟩
  rw [source, ← named] at body
  refine ⟨.commented body ?_ regular, fun onLines => Routine.hasNoReturns_of_commented body ?_ regular⟩
  · rw [String.toList_append, String.toList_append]
    exact List.not_mem_append (List.not_mem_append nameLine (by decide)) writtenLine
  · rcases onLines declaration member with ⟨nameLine, writtenLine⟩
    rw [String.toList_append, String.toList_append]
    exact List.not_mem_append (List.not_mem_append nameLine.2 (by decide)) writtenLine.2

theorem isRegular_of_plain {routine : Routine} (nonempty : routine.body ≠ [])
    (regular : Statement.blockRegular routine.body = true) :
    Definition.IsRegular (.routine routine) ∧ (grammar.IsOnLines -> Definition.HasNoReturns (.routine routine)) :=
  ⟨.plain nonempty regular, fun _ => Routine.hasNoReturns_of_blockRegular regular⟩

theorem isRegular_of_parser_eq_ok (keeps : grammar.KeepsToLines) (made : grammar.parser settings = .ok program) :
    ∀ definition ∈ program.definitions,
      definition.IsRegular ∧ (grammar.IsOnLines -> definition.HasNoReturns) := by
  rcases exists_routines made with ⟨routines, related, rfl⟩
  refine List.forall_mem_append.mpr ⟨List.forall_mem_append.mpr ⟨?_, ?_⟩, ?_⟩
  · have primitive (name : String) (parameters : List Parameter) (returns : Option ValueType)
        (operation : Primitive) : (Support.primitiveRoutine name parameters returns operation).IsRegular ∧
          (grammar.IsOnLines -> (Support.primitiveRoutine name parameters returns operation).HasNoReturns) :=
      isRegular_of_plain (List.cons_ne_nil _ _) rfl
    simp only [Support.bufferDefinitions, List.forall_mem_cons]
    exact ⟨⟨trivial, fun _ => trivial⟩, primitive _ _ _ _, primitive _ _ _ _, primitive _ _ _ _, primitive _ _ _ _,
      primitive _ _ _ _, List.forall_mem_nil _⟩
  · intro definition member
    rcases List.mem_map.mp member with ⟨routine, inRoutines, rfl⟩
    rcases exists_related_right related.flip inRoutines with ⟨production, declared, routineMade⟩
    rcases Analysis.routineFor_of_ok routineMade with ⟨steps, routineFor⟩
    exact isRegular_of_routineFor keeps declared routineFor
  · exact List.forall_mem_cons.mpr ⟨isRegular_of_plain (List.cons_ne_nil _ _) rfl,
      List.forall_mem_singleton.mpr (isRegular_of_plain (List.cons_ne_nil _ _) rfl)⟩

theorem definitions_ne_nil (made : grammar.parser settings = .ok program) : program.definitions ≠ [] := by
  rcases exists_routines made with ⟨routines, _, rfl⟩
  exact List.append_ne_nil_of_right_ne_nil _ (List.cons_ne_nil _ _)

/-- Every block of a parser's module has a body if and only if every routine does more
than to show its rule.  This is so for the lines between line feeds, and for the lines that
an interpreter counts unless a rule holds a carriage return. -/
theorem everyBlockHasBody_iff_acts (keeps : grammar.KeepsToLines) (made : grammar.parser settings = .ok program) :
    (everyBlockHasBody (Text.segments (Target.python.write program)) = true ↔
      ∀ routine ∈ program.routines, routine.acts = true) ∧
    (grammar.IsOnLines ->
      (everyBlockHasBody (Text.physicalLines (Target.python.write program)) = true ↔
        ∀ routine ∈ program.routines, routine.acts = true)) := by
  have each := isRegular_of_parser_eq_ok keeps made
  rcases PythonModule.everyBlockHasBody_write_iff (definitions_ne_nil made) fun definition member =>
    (each definition member).1 with ⟨bodies, physical⟩
  refine ⟨bodies, fun onLines => physical ?_⟩
  exact (PythonModule.forall_mem_definitions_iff fun _ => trivial).mp fun definition member =>
    (each definition member).2 onLines

/-- Whether a grammar text has a parser that passes a test can be computed. -/
theorem exists_parser_of_any (text : String) (settings : Settings) (test : Program -> Bool)
    (passes : (read text).toOption.any (fun grammar => (grammar.parser settings).toOption.any test) = true) :
    ∃ grammar program, read text = .ok grammar ∧ grammar.parser settings = .ok program ∧ test program = true := by
  rcases exists_of_toOption_any passes with ⟨grammar, accepted, passes⟩
  rcases exists_of_toOption_any passes with ⟨program, made, passes⟩
  exact ⟨grammar, program, accepted, made, passes⟩

/-- The text of a grammar in which every rule takes something. -/
def listText : String := "list ::= <NAME> ( \",\" list ) ?"

theorem everyBlockHasBody_iff_acts_list :
    ∃ grammar program, read listText = .ok grammar ∧ grammar.KeepsToLines ∧ grammar.IsOnLines ∧
      grammar.parser .standard = .ok program ∧ (∀ routine ∈ program.routines, routine.acts = true) ∧
      everyBlockHasBody (Text.segments (Target.python.write program)) = true ∧
      everyBlockHasBody (Text.physicalLines (Target.python.write program)) = true := by
  rcases exists_parser_of_any listText .standard (·.routines.all Routine.acts) (by decide +kernel) with
    ⟨grammar, program, readFrom, made, acts⟩
  have keeps := keepsToLines_of_read readFrom
  have onLines := isOnLines_of_read readFrom (by decide)
  have each := List.all_eq_true.mp acts
  rcases everyBlockHasBody_iff_acts keeps made with ⟨bodies, physical⟩
  exact ⟨grammar, program, readFrom, keeps, onLines, made, each, bodies.mpr each, (physical onLines).mpr each⟩

/-- The text of a grammar with a rule that matches nothing. -/
def markerText : String := "s ::= ¬"

/-- The comment of a rule that matches nothing stands where a body is missing. -/
theorem not_everyBlockHasBody_marker :
    ∃ grammar program, read markerText = .ok grammar ∧ grammar.parser .standard = .ok program ∧
      everyBlockHasBody (Text.segments (Target.python.write program)) = false ∧
      everyBlockHasBody (Text.physicalLines (Target.python.write program)) = false := by
  rcases exists_parser_of_any markerText .standard (fun program => !program.routines.all Routine.acts)
    (by decide +kernel) with ⟨grammar, program, readFrom, made, idle⟩
  have onLines := isOnLines_of_read readFrom (by decide)
  have each := isRegular_of_parser_eq_ok (keepsToLines_of_read readFrom) made
  rcases PythonModule.everyBlockHasBody_write_iff (definitions_ne_nil made) fun definition member =>
    (each definition member).1 with ⟨bodies, physical⟩
  have noReturns := (PythonModule.forall_mem_definitions_iff fun _ => trivial).mp fun definition member =>
    (each definition member).2 onLines
  have idles : ¬∀ routine ∈ program.routines, routine.acts = true := by
    intro acts
    rw [List.all_eq_true.mpr acts] at idle
    cases idle
  exact ⟨grammar, program, readFrom, made, Bool.eq_false_iff.mpr (idles ∘ bodies.mp),
    Bool.eq_false_iff.mpr (idles ∘ (physical noReturns).mp)⟩

end Grammar
end PredictiveParsing
