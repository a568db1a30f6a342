import PredictiveParsing.Proofs.CommentLines

namespace PredictiveParsing

/-!
# Indentation as nesting depth

A routine is written from the inside out: the lines of a branch's statements are read again
and moved in each time a header is put above them, and what says nothing is left out.  Yet a
routine can be written from the outside in as well, by one walk that counts how deep it
stands and puts as many tabs in front of each line.  Both give the same lines, because no
line that is written for a statement breaks into several when it is read again, or vanishes.

This fails for comments that hold the end of a line, and for branches without arms, which have
no header of their own.  Main statement: all other routines are written with their nesting
depth as indentation, and without blank lines.
-/

/-! ## Statements that keep to their lines -/

namespace Statement

mutual

/-- Whether every comment stays on its line and every branch has an arm. -/
def keepsToLines : Statement -> Bool
  | .comment text => decide (Text.IsOneLine text)
  | .branch arms fallback => !arms.isEmpty && armsKeepToLines arms && fallbackKeepsToLines fallback
  | _ => true

def blockKeepsToLines : List Statement -> Bool
  | [] => true
  | statement :: rest => keepsToLines statement && blockKeepsToLines rest

def armsKeepToLines : List (Expression × List Statement) -> Bool
  | [] => true
  | (_, body) :: rest => blockKeepsToLines body && armsKeepToLines rest

def fallbackKeepsToLines : Option (List Statement) -> Bool
  | none => true
  | some body => blockKeepsToLines body

end

theorem keepsToLines_of_mem {statements : List Statement} (keep : blockKeepsToLines statements = true) :
    ∀ statement ∈ statements, statement.keepsToLines = true := by
  induction statements with
  | nil => exact List.forall_mem_nil _
  | cons statement rest inductionHypothesis =>
      rw [blockKeepsToLines, Bool.and_eq_true] at keep
      exact List.forall_mem_cons.mpr ⟨keep.1, inductionHypothesis keep.2⟩

end Statement

/-! ## Writing from the outside in -/

namespace Layout

/-- The line with as many tabs in front. -/
def atDepth (depth : Nat) (line : String) : String :=
  String.ofList (List.replicate depth '\t') ++ line

theorem atDepth_zero (line : String) : atDepth 0 line = line :=
  String.empty_append

theorem atDepth_succ (depth : Nat) (line : String) : atDepth (depth + 1) line = "\t" ++ atDepth depth line := by
  have spelled : String.ofList (List.replicate (depth + 1) '\t') =
      "\t" ++ String.ofList (List.replicate depth '\t') := by
    apply String.toList_inj.mp
    rw [toList_tab, String.toList_ofList, String.toList_ofList, List.replicate_succ]
  rw [atDepth, spelled, String.append_assoc, atDepth]

end Layout

namespace PythonModule

open Layout (atDepth IsLine)

mutual

/-- The lines of a statement at a depth. -/
def statementLines (depth : Nat) : Statement -> List String
  | .comment text => [atDepth depth ("# " ++ text)]
  | .declare name type => [atDepth depth (typed name type)]
  | .assign name value => [atDepth depth (identifier name ++ " = " ++ expressionText value)]
  | .call routine arguments => [atDepth depth (application routine (expressionTexts arguments))]
  | .branch arms fallback => armsLines depth "if " arms ++ otherwiseLines depth fallback
  | .mismatch position expected =>
      [atDepth depth (application Support.expect [expressionText position, Text.quoted expected])]
  | .leave none => [atDepth depth "return"]
  | .leave (some value) => [atDepth depth ("return " ++ expressionText value)]
  | .primitive operation => (primitiveLines operation).map (atDepth depth)

def blockLines (depth : Nat) : List Statement -> List String
  | [] => []
  | statement :: rest => statementLines depth statement ++ blockLines depth rest

/-- The lines below a header, where a placeholder stands for statements that are missing. -/
def bodyLines (depth : Nat) : List Statement -> List String
  | [] => [atDepth depth "pass"]
  | statement :: rest => statementLines depth statement ++ blockLines depth rest

/-- The lines of arms, the first of which has a keyword of its own. -/
def armsLines (depth : Nat) (keyword : String) : List (Expression × List Statement) -> List String
  | [] => []
  | (condition, body) :: rest =>
      atDepth depth (keyword ++ expressionText condition ++ ":") ::
        (bodyLines (depth + 1) body ++ armsLines depth "elif " rest)

def otherwiseLines (depth : Nat) : Option (List Statement) -> List String
  | none => []
  | some body => atDepth depth "else:" :: bodyLines (depth + 1) body

end

/-- The lines of a routine, whose statements stand one step further in than its header. -/
def routineLines (routine : Routine) : List String :=
  header routine :: bodyLines 1 routine.body

end PythonModule

/-! ## Lines that are not blank -/

namespace Layout

/-- Whether the text can be a line of a fragment and is not blank. -/
structure IsFilled (line : String) : Prop extends IsLine line where
  filled : Text.isBlank line.toList = false

theorem isFilled_of_cons {line : String} {c : Char} {rest : List Char} (spelled : line.toList = c :: rest)
    (black : Text.isWhiteSpace c = false) (oneLine : Text.IsOneLine line) : IsFilled line where
  nonempty empty := by
    rw [empty] at spelled
    cases spelled
  noFeed := oneLine.1
  noReturn := oneLine.2
  filled := by rw [spelled, Text.isBlank, List.all_cons, black, Bool.false_and]

theorem isFilled_of_beginsCode {line : String} (begins : beginsCode line = true) (oneLine : Text.IsOneLine line) :
    IsFilled line := by
  rcases exists_cons_of_beginsCode begins with ⟨c, rest, spelled, black, _⟩
  exact isFilled_of_cons spelled black oneLine

theorem IsFilled.atDepth {line : String} (isFilled : IsFilled line) (depth : Nat) : IsFilled (atDepth depth line) := by
  induction depth with
  | zero =>
      rw [atDepth_zero]
      exact isFilled
  | succ depth inductionHypothesis =>
      rw [atDepth_succ]
      refine ⟨inductionHypothesis.toIsLine.tab, ?_⟩
      rw [toList_tab, Text.isBlank, List.all_cons]
      exact inductionHypothesis.filled

/-- Fragments with lines that are read again as they are. -/
theorem block_of_isLine {fragments : List (List String)} (nonempty : fragments ≠ [])
    (each : ∀ fragment ∈ fragments, fragment ≠ [] ∧ ∀ line ∈ fragment, IsLine line) :
    block fragments = fragments.flatten.map ("\t" ++ ·) := by
  have kept : ∀ fragment ∈ fragments, fragment ≠ empty := by
    rintro _ member rfl
    exact ((each _ member).2 "" List.mem_cons_self).nonempty rfl
  rw [block_of_ne_empty nonempty kept, flatMap_indent_of_isLine fun fragment member => (each fragment member).2]

theorem segments_text {lines : List String} (nonempty : lines ≠ []) (noFeed : ∀ line ∈ lines, '\n' ∉ line.toList) :
    Text.segments (text lines) = lines := by
  induction lines with
  | nil => exact absurd rfl nonempty
  | cons line rest inductionHypothesis =>
      rcases List.forall_mem_cons.mp noFeed with ⟨first, later⟩
      cases rest with
      | nil =>
          rw [text, String.intercalate_singleton]
          exact Text.segments_of_not_mem first
      | cons next others =>
          rw [text, String.intercalate_cons_cons, Text.segments_append first]
          exact congrArg (line :: ·) (inductionHypothesis (List.cons_ne_nil _ _) later)

/-- The text of lines falls into these lines again. -/
theorem physicalLines_text {lines : List String} (nonempty : lines ≠ []) (each : ∀ line ∈ lines, IsLine line) :
    Text.physicalLines (text lines) = lines := by
  have single : ∀ line ∈ lines, Text.pieces '\r' line = [line] :=
    fun line member => Text.pieces_of_not_mem (each line member).noReturn
  rw [Text.physicalLines, Text.lines, segments_text nonempty fun line member => (each line member).noFeed,
    settle_of_isLine each, List.flatMap_congr single, List.flatMap_singleton']

end Layout

namespace PythonModule

open Layout (IsFilled IsLine atDepth atDepth_succ atDepth_zero)

theorem IsCode.oneLine {text : String} (code : IsCode text) : Text.IsOneLine text :=
  ⟨code.noFeed, code.noReturn⟩

theorem isFilled_header {line : String} (begins : Layout.beginsCode line = true) (code : IsCode line) :
    IsFilled (line ++ ":") :=
  Layout.isFilled_of_beginsCode (Layout.beginsCode_append begins ":")
    (Text.isOneLine_append.mpr ⟨code.oneLine, by decide⟩)

/-- Each line of a primitive begins with words that are known. -/
theorem isBlank_primitiveLines (operation : Primitive) :
    ∀ line ∈ primitiveLines operation, Text.isBlank line.toList = false := by
  cases operation with
  | report position expected =>
      simp only [primitiveLines, List.forall_mem_cons, Text.isBlank, String.toList_append, List.all_append]
      exact ⟨rfl, rfl, List.forall_mem_nil _⟩
  | _ =>
      simp only [primitiveLines, List.forall_mem_cons, Text.isBlank, String.toList_append, List.all_append]
      exact ⟨rfl, rfl, rfl, List.forall_mem_nil _⟩

theorem isFilled_primitiveLines (operation : Primitive) : ∀ line ∈ primitiveLines operation, IsFilled line :=
  fun line member =>
    ⟨(isTidy_primitiveLines operation).isLine line member, isBlank_primitiveLines operation line member⟩

theorem isFilled_comment {text : String} (oneLine : Text.IsOneLine text) : IsFilled ("# " ++ text) := by
  have spelled : ("# " ++ text).toList = '#' :: (' ' :: text.toList) := String.toList_append
  exact Layout.isFilled_of_cons spelled rfl (Text.isOneLine_append.mpr ⟨by decide, oneLine⟩)

/-- A line of code at a depth. -/
theorem isFilled_code {line : String} (begins : Layout.beginsCode line = true) (code : IsCode line) (depth : Nat) :
    ∀ written ∈ [atDepth depth line], IsFilled written :=
  List.forall_mem_singleton.mpr ((Layout.isFilled_of_beginsCode begins code.oneLine).atDepth depth)

mutual

theorem isFilled_statementLines (depth : Nat) : ∀ statement : Statement, statement.keepsToLines = true ->
    ∀ line ∈ statementLines depth statement, IsFilled line
  | .comment text, keeps => by
      rw [Statement.keepsToLines, decide_eq_true_eq] at keeps
      rw [statementLines]
      exact List.forall_mem_singleton.mpr ((isFilled_comment keeps).atDepth depth)
  | .declare name type, _ => by
      rw [statementLines]
      exact isFilled_code (beginsCode_typed name type) (isCode_typed name type) depth
  | .assign name value, _ => by
      have begins := Layout.beginsCode_append (beginsCode_identifier name) " = "
      have code := ((IsCode.identifier name).append (by decide : IsCode " = ")).append (isCode_expressionText value)
      rw [statementLines]
      exact isFilled_code (Layout.beginsCode_append begins _) code depth
  | .call routine arguments, _ => by
      have code := IsCode.application routine (isCode_expressionTexts arguments)
      rw [statementLines]
      exact isFilled_code (beginsCode_application routine _) code depth
  | .branch arms fallback, keeps => by
      rw [Statement.keepsToLines, Bool.and_eq_true, Bool.and_eq_true] at keeps
      have begins : Layout.beginsCode "if " = true := by decide
      rw [statementLines]
      exact List.forall_mem_append.mpr ⟨isFilled_armsLines depth begins (by decide) arms keeps.1.2,
        isFilled_otherwiseLines depth fallback keeps.2⟩
  | .mismatch position expected, _ => by
      rw [statementLines]
      refine isFilled_code (beginsCode_application _ _) (.application _ ?_) depth
      exact List.forall_mem_cons.mpr
        ⟨isCode_expressionText position, List.forall_mem_singleton.mpr (.quoted expected)⟩
  | .leave none, _ => by
      have begins : Layout.beginsCode "return" = true := by decide
      rw [statementLines]
      exact isFilled_code begins (by decide) depth
  | .leave (some value), _ => by
      have begins : Layout.beginsCode "return " = true := by decide
      have code := (by decide : IsCode "return ").append (isCode_expressionText value)
      rw [statementLines]
      exact isFilled_code (Layout.beginsCode_append begins _) code depth
  | .primitive operation, _ => by
      rw [statementLines]
      intro written member
      rcases List.mem_map.mp member with ⟨line, inPrimitive, rfl⟩
      exact (isFilled_primitiveLines operation line inPrimitive).atDepth depth

theorem isFilled_blockLines (depth : Nat) : ∀ statements : List Statement,
    Statement.blockKeepsToLines statements = true -> ∀ line ∈ blockLines depth statements, IsFilled line
  | [], _ => by
      rw [blockLines]
      exact List.forall_mem_nil _
  | statement :: rest, keeps => by
      rw [Statement.blockKeepsToLines, Bool.and_eq_true] at keeps
      rw [blockLines]
      exact List.forall_mem_append.mpr
        ⟨isFilled_statementLines depth statement keeps.1, isFilled_blockLines depth rest keeps.2⟩

theorem isFilled_bodyLines (depth : Nat) : ∀ statements : List Statement,
    Statement.blockKeepsToLines statements = true -> ∀ line ∈ bodyLines depth statements, IsFilled line
  | [], _ => by
      have begins : Layout.beginsCode "pass" = true := by decide
      rw [bodyLines]
      exact isFilled_code begins (by decide) depth
  | statement :: rest, keeps => by
      rw [Statement.blockKeepsToLines, Bool.and_eq_true] at keeps
      rw [bodyLines]
      exact List.forall_mem_append.mpr
        ⟨isFilled_statementLines depth statement keeps.1, isFilled_blockLines depth rest keeps.2⟩

theorem isFilled_armsLines (depth : Nat) {keyword : String} (begins : Layout.beginsCode keyword = true)
    (code : IsCode keyword) : ∀ arms : List (Expression × List Statement), Statement.armsKeepToLines arms = true ->
      ∀ line ∈ armsLines depth keyword arms, IsFilled line
  | [], _ => by
      rw [armsLines]
      exact List.forall_mem_nil _
  | (condition, body) :: rest, keeps => by
      rw [Statement.armsKeepToLines, Bool.and_eq_true] at keeps
      have first := isFilled_header (Layout.beginsCode_append begins _) (code.append (isCode_expressionText condition))
      have beginsNext : Layout.beginsCode "elif " = true := by decide
      rw [armsLines]
      refine List.forall_mem_cons.mpr ⟨first.atDepth depth, List.forall_mem_append.mpr ⟨?_, ?_⟩⟩
      · exact isFilled_bodyLines (depth + 1) body keeps.1
      · exact isFilled_armsLines depth beginsNext (by decide) rest keeps.2

theorem isFilled_otherwiseLines (depth : Nat) : ∀ fallback : Option (List Statement),
    Statement.fallbackKeepsToLines fallback = true -> ∀ line ∈ otherwiseLines depth fallback, IsFilled line
  | none, _ => by
      rw [otherwiseLines]
      exact List.forall_mem_nil _
  | some body, keeps => by
      have first : IsFilled "else:" := Layout.isFilled_of_beginsCode (by decide) (by decide)
      rw [otherwiseLines]
      exact List.forall_mem_cons.mpr ⟨first.atDepth depth, isFilled_bodyLines (depth + 1) body keeps⟩

end

/-- A statement that keeps to its lines has at least one. -/
theorem statementLines_ne_nil (depth : Nat) {statement : Statement} (keeps : statement.keepsToLines = true) :
    statementLines depth statement ≠ [] := by
  cases statement with
  | branch arms fallback =>
      cases arms with
      | nil => cases keeps
      | cons arm rest =>
          rw [statementLines, armsLines]
          exact List.cons_ne_nil _ _
  | leave value => cases value <;> (rw [statementLines]; exact List.cons_ne_nil _ _)
  | primitive operation =>
      rw [statementLines]
      exact mt List.map_eq_nil_iff.mp (primitiveLines_ne_nil operation)
  | _ =>
      rw [statementLines]
      exact List.cons_ne_nil _ _

mutual

/-- What is written one step further in has one more tab in front of each line. -/
theorem statementLines_succ (depth : Nat) : ∀ statement : Statement,
    statementLines (depth + 1) statement = (statementLines depth statement).map ("\t" ++ ·)
  | .branch arms fallback => by
      rw [statementLines, statementLines, armsLines_succ, otherwiseLines_succ, List.map_append]
  | .leave none => by rw [statementLines, statementLines, atDepth_succ, List.map_singleton]
  | .leave (some value) => by rw [statementLines, statementLines, atDepth_succ, List.map_singleton]
  | .primitive operation => by
      rw [statementLines, statementLines, List.map_map]
      exact List.map_congr_left fun line _ => atDepth_succ depth line
  | .comment _ | .declare _ _ | .assign _ _ | .call _ _ | .mismatch _ _ => by
      rw [statementLines, statementLines, atDepth_succ, List.map_singleton]

theorem blockLines_succ (depth : Nat) : ∀ statements : List Statement,
    blockLines (depth + 1) statements = (blockLines depth statements).map ("\t" ++ ·)
  | [] => by rw [blockLines, blockLines, List.map_nil]
  | statement :: rest => by
      rw [blockLines, blockLines, statementLines_succ, blockLines_succ, List.map_append]

theorem bodyLines_succ (depth : Nat) : ∀ statements : List Statement,
    bodyLines (depth + 1) statements = (bodyLines depth statements).map ("\t" ++ ·)
  | [] => by rw [bodyLines, bodyLines, atDepth_succ, List.map_singleton]
  | statement :: rest => by
      rw [bodyLines, bodyLines, statementLines_succ, blockLines_succ, List.map_append]

theorem armsLines_succ (depth : Nat) (keyword : String) : ∀ arms : List (Expression × List Statement),
    armsLines (depth + 1) keyword arms = (armsLines depth keyword arms).map ("\t" ++ ·)
  | [] => by rw [armsLines, armsLines, List.map_nil]
  | (condition, body) :: rest => by
      rw [armsLines, armsLines, atDepth_succ, bodyLines_succ (depth + 1), armsLines_succ, List.map_cons,
        List.map_append]

theorem otherwiseLines_succ (depth : Nat) : ∀ fallback : Option (List Statement),
    otherwiseLines (depth + 1) fallback = (otherwiseLines depth fallback).map ("\t" ++ ·)
  | none => by rw [otherwiseLines, otherwiseLines, List.map_nil]
  | some body => by
      rw [otherwiseLines, otherwiseLines, atDepth_succ, bodyLines_succ (depth + 1), List.map_cons]

end

/-! ## Writing from the inside out -/

theorem blockLines_eq_flatMap (depth : Nat) (statements : List Statement) :
    blockLines depth statements = statements.flatMap (statementLines depth) := by
  induction statements with
  | nil => rw [blockLines, List.flatMap_nil]
  | cons statement rest inductionHypothesis => rw [blockLines, inductionHypothesis, List.flatMap_cons]

/-- The fragments that statements become before they are moved in. -/
def blockFragments (statements : List Statement) : List (List String) :=
  statements.map (statementLines 0)

/-- Moving in the lines of statements gives their lines one step further in. -/
theorem block_blockFragments {statements : List Statement}
    (keep : Statement.blockKeepsToLines statements = true) :
    Layout.block (blockFragments statements) = bodyLines 1 statements := by
  cases statements with
  | nil => rfl
  | cons statement rest =>
      have each : ∀ fragment ∈ blockFragments (statement :: rest),
          fragment ≠ [] ∧ ∀ line ∈ fragment, IsLine line := by
        intro fragment member
        rcases List.mem_map.mp member with ⟨written, inBlock, rfl⟩
        have keeps := Statement.keepsToLines_of_mem keep written inBlock
        have filled := isFilled_statementLines 0 written keeps
        exact ⟨statementLines_ne_nil 0 keeps, fun line found => (filled line found).toIsLine⟩
      have further := blockLines_succ 0 (statement :: rest)
      rw [blockLines] at further
      have nonempty : (statement :: rest).map (statementLines 0) ≠ [] := List.cons_ne_nil _ _
      rw [blockFragments, Layout.block_of_isLine nonempty each, ← List.flatMap_def, ← blockLines_eq_flatMap,
        bodyLines, further]

/-- What arms become before they are put together. -/
def armFragments (arms : List (Expression × List Statement)) : List (String × List (List String)) :=
  arms.map fun arm => (expressionText arm.1, blockFragments arm.2)

theorem laterArms_armFragments {arms : List (Expression × List Statement)}
    (keep : Statement.armsKeepToLines arms = true) : laterArms (armFragments arms) = armsLines 0 "elif " arms := by
  induction arms with
  | nil => rw [armsLines]; rfl
  | cons arm rest inductionHypothesis =>
      rcases arm with ⟨condition, body⟩
      rw [Statement.armsKeepToLines, Bool.and_eq_true] at keep
      rw [armsLines, atDepth_zero, ← block_blockFragments keep.1, ← inductionHypothesis keep.2]
      rfl

theorem fallbackLines_blockFragments {fallback : Option (List Statement)}
    (keep : Statement.fallbackKeepsToLines fallback = true) :
    fallbackLines (fallback.map blockFragments) = otherwiseLines 0 fallback := by
  cases fallback with
  | none => rw [otherwiseLines]; rfl
  | some body =>
      rw [otherwiseLines, atDepth_zero, ← block_blockFragments keep]
      rfl

theorem branchLines_armFragments {arms : List (Expression × List Statement)} {fallback : Option (List Statement)}
    (keep : (Statement.branch arms fallback).keepsToLines = true) :
    branchLines (armFragments arms) (fallback.map blockFragments) =
      armsLines 0 "if " arms ++ otherwiseLines 0 fallback := by
  rw [Statement.keepsToLines, Bool.and_eq_true, Bool.and_eq_true] at keep
  cases arms with
  | nil => cases keep.1.1
  | cons arm rest =>
      rcases arm with ⟨condition, body⟩
      have inArms := keep.1.2
      rw [Statement.armsKeepToLines, Bool.and_eq_true] at inArms
      rw [armsLines, atDepth_zero, ← block_blockFragments inArms.1, ← laterArms_armFragments inArms.2,
        ← fallbackLines_blockFragments keep.2]
      rfl

/-- Whether a writer gives the value, whatever was written before. -/
def AlwaysGives {α : Type} (write : StateM Memory α) (value : α) : Prop :=
  ∀ memory : Memory, (write.run memory).1 = value

theorem AlwaysGives.bind {α β : Type} {write : StateM Memory α} {next : α -> StateM Memory β} {value : α}
    {result : β} (first : AlwaysGives write value) (later : AlwaysGives (next value) result) :
    AlwaysGives (write >>= next) result := by
  intro memory
  change ((next (write.run memory).1).run (write.run memory).2).1 = result
  rw [first memory]
  exact later _

theorem alwaysGives_expression (expression : Expression) :
    AlwaysGives (dialect.expression expression) (expressionText expression) :=
  fun _ => rfl

theorem alwaysGives_writeExpressions (expressions : List Expression) :
    AlwaysGives (dialect.writeExpressions expressions) (expressionTexts expressions) := by
  induction expressions with
  | nil => exact fun _ => rfl
  | cons expression rest inductionHypothesis =>
      exact (alwaysGives_expression expression).bind (inductionHypothesis.bind fun _ => rfl)

mutual

/-- A statement is written with the lines that it has at the margin. -/
theorem alwaysGives_writeStatement : ∀ statement : Statement, statement.keepsToLines = true ->
    AlwaysGives (dialect.writeStatement statement) (statementLines 0 statement)
  | .comment text, keeps => by
      rw [Statement.keepsToLines, decide_eq_true_eq] at keeps
      rw [Dialect.writeStatement, statementLines, atDepth_zero]
      exact fun _ => commentLines_of_isOneLine keeps
  | .call routine arguments, _ => by
      rw [Dialect.writeStatement, statementLines, atDepth_zero]
      exact (alwaysGives_writeExpressions arguments).bind fun _ => rfl
  | .branch arms fallback, keeps => by
      have together := branchLines_armFragments keeps
      rw [Statement.keepsToLines, Bool.and_eq_true, Bool.and_eq_true] at keeps
      rw [Dialect.writeStatement, statementLines]
      exact (alwaysGives_writeArms arms keeps.1.2).bind
        ((alwaysGives_writeFallback fallback keeps.2).bind fun _ => together)
  | .primitive operation, _ => by
      have margin : (primitiveLines operation).map (atDepth 0) = primitiveLines operation :=
        List.map_id'' atDepth_zero _
      rw [Dialect.writeStatement, statementLines, margin]
      exact fun _ => rfl
  | .leave none, _ | .leave (some _), _ | .declare _ _, _ | .assign _ _, _ | .mismatch _ _, _ => by
      rw [Dialect.writeStatement, statementLines, atDepth_zero]
      exact fun _ => rfl

theorem alwaysGives_writeBlock : ∀ statements : List Statement, Statement.blockKeepsToLines statements = true ->
    AlwaysGives (dialect.writeBlock statements) (blockFragments statements)
  | [], _ => by
      rw [Dialect.writeBlock]
      exact fun _ => rfl
  | statement :: rest, keep => by
      rw [Statement.blockKeepsToLines, Bool.and_eq_true] at keep
      rw [Dialect.writeBlock]
      exact (alwaysGives_writeStatement statement keep.1).bind
        ((alwaysGives_writeBlock rest keep.2).bind fun _ => rfl)

theorem alwaysGives_writeArms : ∀ arms : List (Expression × List Statement),
    Statement.armsKeepToLines arms = true -> AlwaysGives (dialect.writeArms arms) (armFragments arms)
  | [], _ => by
      rw [Dialect.writeArms]
      exact fun _ => rfl
  | (condition, body) :: rest, keep => by
      rw [Statement.armsKeepToLines, Bool.and_eq_true] at keep
      rw [Dialect.writeArms]
      exact (alwaysGives_expression condition).bind
        ((alwaysGives_writeBlock body keep.1).bind ((alwaysGives_writeArms rest keep.2).bind fun _ => rfl))

theorem alwaysGives_writeFallback : ∀ fallback : Option (List Statement),
    Statement.fallbackKeepsToLines fallback = true ->
      AlwaysGives (dialect.writeFallback fallback) (fallback.map blockFragments)
  | none, _ => by
      rw [Dialect.writeFallback]
      exact fun _ => rfl
  | some body, keep => by
      rw [Dialect.writeFallback]
      exact (alwaysGives_writeBlock body keep).bind fun _ => rfl

end

/-! ## Routines -/

theorem isFilled_routineLines {routine : Routine} (keep : Statement.blockKeepsToLines routine.body = true) :
    ∀ line ∈ routineLines routine, IsFilled line := by
  rcases exists_header routine with ⟨line, written, begins, code⟩
  rw [routineLines, written]
  exact List.forall_mem_cons.mpr ⟨isFilled_header begins code, isFilled_bodyLines 1 routine.body keep⟩

/-- A routine with comments that stay on their lines and with arms in all its branches is
written with the lines that stand at their nesting depth, whatever was written before.
Its text falls into just these lines again, and none of them is blank. -/
theorem writeRoutine_eq_routineLines {routine : Routine} (keep : Statement.blockKeepsToLines routine.body = true)
    (memory : Memory) :
    ((dialect.writeRoutine routine).run memory).1 = routineLines routine ∧
      Text.physicalLines (Layout.text ((dialect.writeRoutine routine).run memory).1) = routineLines routine ∧
      ∀ line ∈ routineLines routine, Text.isBlank line.toList = false := by
  have filled := isFilled_routineLines keep
  have always : AlwaysGives (dialect.writeRoutine routine) (routineLines routine) := by
    rw [Dialect.writeRoutine, routineLines, ← block_blockFragments keep]
    exact (alwaysGives_writeBlock routine.body keep).bind fun _ => rfl
  refine ⟨always memory, ?_, fun line member => (filled line member).filled⟩
  rw [always memory]
  exact Layout.physicalLines_text (List.cons_ne_nil _ _) fun line member => (filled line member).toIsLine

/-- A routine with branches inside of branches and with bodies of all kinds. -/
def nestedRoutine : Routine :=
  ⟨"value", .rule, [⟨"file", .text⟩], none,
    [.comment "value ::= ( \"+\" <NUMBER> ? ) ?",
      .assign "token" (.call "peek" []),
      .branch
        [(.equal (.field (.var "token") .literal) (.text "+"),
          [.call "get_token" [],
            .branch
              [(.equal (.field (.var "token") .className) (.text "NUMBER"), [.comment "taken", .primitive .take])]
              (some [])]),
          (.equal (.field (.var "token") .className) (.text "END"), [])]
        (some [.mismatch (.field (.var "token") .position) "+"])]⟩

theorem writeRoutine_eq_routineLines_nested :
    Statement.blockKeepsToLines nestedRoutine.body = true ∧
    ((dialect.writeRoutine nestedRoutine).run .fresh).1 =
      ["def value(file: str):",
        "\t# value ::= ( \"+\" <NUMBER> ? ) ?",
        "\ttoken = peek()",
        "\tif token[1] == \"+\":",
        "\t\tget_token()",
        "\t\tif token[0] == \"NUMBER\":",
        "\t\t\t# taken",
        "\t\t\tif len(tokens) > 0:",
        "\t\t\t\treturn tokens.pop(0)",
        "\t\t\treturn [\"\", \"\", \"\"]",
        "\t\telse:",
        "\t\t\tpass",
        "\telif token[0] == \"END\":",
        "\t\tpass",
        "\telse:",
        "\t\texpect(token[2], \"+\")"] := by
  have keep : Statement.blockKeepsToLines nestedRoutine.body = true := by decide +kernel
  have lines := (writeRoutine_eq_routineLines keep .fresh).1
  refine ⟨keep, lines.trans ?_⟩
  decide +kernel

end PythonModule
end PredictiveParsing
