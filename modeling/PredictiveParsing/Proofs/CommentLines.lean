import PredictiveParsing.Proofs.LinkedParser
import PredictiveParsing.Proofs.PythonBlocks

namespace PredictiveParsing

/-!
# Lines of comments in Python modules

The comment that shows a rule is the only place where the text of a grammar stands in a
module as it is.  A carriage return ends a line of a module as well as a line feed does, so
a comment stays on its line if and only if neither of them is in what it shows: the name
of the rule and the text that its right-hand side was written as.  Nothing that writes the
module takes them out.

What a grammar was made of decides whether they get that far.  Grammar text loses its line
feeds, since it is cut at them, but not the carriage returns inside its lines.  Rules and
productions that are given one by one keep both.
-/

/-! ## Where the comment stands -/

namespace Layout

theorem text_append {front back : List String} (first : front ≠ []) (later : back ≠ []) :
    text (front ++ back) = text front ++ "\n" ++ text back := by
  induction front with
  | nil => exact absurd rfl first
  | cons line rest inductionHypothesis =>
      cases rest with
      | nil =>
          rcases List.exists_cons_of_ne_nil later with ⟨next, others, rfl⟩
          rw [List.singleton_append, text, String.intercalate_cons_cons, text, String.intercalate_singleton, text]
      | cons next others =>
          have opened (lines : List String) : text (line :: next :: lines) = line ++ "\n" ++ text (next :: lines) :=
            String.intercalate_cons_cons
          have behind := inductionHypothesis (List.cons_ne_nil _ _)
          rw [List.cons_append] at behind
          rw [List.cons_append, List.cons_append, opened, behind, opened]
          simp only [String.append_assoc]

/-- A section stands between the sections around it, with a line feed after it. -/
theorem exists_eq_append_section {sections : List (List String)} {lines : List String} (member : lines ∈ sections) :
    ∃ before after, "\n\n".intercalate (sections.map text) ++ "\n" = before ++ text lines ++ "\n" ++ after := by
  induction sections with
  | nil => cases member
  | cons first rest inductionHypothesis =>
      cases rest with
      | nil =>
          cases List.mem_singleton.mp member
          exact ⟨"", "", by rw [List.map_singleton, String.intercalate_singleton, String.empty_append,
            String.append_empty]⟩
      | cons next others =>
          have joined : "\n\n".intercalate ((first :: next :: others).map text) ++ "\n" =
              text first ++ "\n" ++ ("\n" ++ ("\n\n".intercalate ((next :: others).map text) ++ "\n")) := by
            rw [List.map_cons, List.map_cons, String.intercalate_cons_cons]
            apply String.toList_inj.mp
            simp [String.toList_append]
          rw [joined]
          rcases List.mem_cons.mp member with rfl | later
          · exact ⟨"", _, by rw [String.empty_append]⟩
          · rcases inductionHypothesis later with ⟨before, after, split⟩
            refine ⟨text first ++ "\n" ++ ("\n" ++ before), after, ?_⟩
            rw [split]
            simp only [String.append_assoc]

end Layout

namespace PythonModule

/-- The lines that a comment becomes. -/
def commentLines (text : String) : List String :=
  ((dialect.comment text).run .fresh).1

/-- What was written before does not matter to a comment. -/
theorem run_comment (text : String) (memory : Memory) :
    (dialect.comment text).run memory = (commentLines text, memory) := rfl

theorem text_commentLines (text : String) : Layout.text (commentLines text) = "# " ++ text :=
  Text.intercalate_segments ("# " ++ text)

theorem isOneLine_commentLines {text : String} :
    Text.IsOneLine (Layout.text (commentLines text)) ↔ Text.IsOneLine text := by
  have sign : Text.IsOneLine "# " := by decide
  rw [text_commentLines, Text.isOneLine_append, and_iff_right sign]

/-- The first line that a comment becomes has the sign of a comment. -/
theorem exists_commentLines_eq_cons (text : String) :
    ∃ first rest, commentLines text = first :: rest ∧ first ≠ "" := by
  have spelled : ("# " ++ text).toList = '#' :: (' ' :: text.toList) := String.toList_append
  have cut : Text.cut '\n' ('#' :: (' ' :: text.toList)) =
      ('#' :: (Text.cut '\n' (' ' :: text.toList)).1, (Text.cut '\n' (' ' :: text.toList)).2) := rfl
  refine ⟨String.ofList ('#' :: (Text.cut '\n' (' ' :: text.toList)).1),
    (Text.cut '\n' (' ' :: text.toList)).2.map String.ofList, ?_, ?_⟩
  · change Text.pieces '\n' ("# " ++ text) = _
    rw [Text.pieces, spelled, cut]
    rfl
  · intro empty
    have characters := congrArg String.toList empty
    rw [String.toList_ofList] at characters
    cases characters

theorem commentLines_ne_empty (text : String) : commentLines text ≠ Layout.empty := by
  rcases exists_commentLines_eq_cons text with ⟨first, rest, lines, nonempty⟩
  rw [lines]
  exact fun same => nonempty (List.cons.inj same).1

theorem indent_commentLines_ne_nil (text : String) : Layout.indent (commentLines text) ≠ [] := by
  rcases exists_commentLines_eq_cons text with ⟨first, rest, lines, nonempty⟩
  rw [lines, Layout.indent]
  intro none
  have settled := List.map_eq_nil_iff.mp none
  cases rest with
  | nil =>
      have some : first.isEmpty = false := Bool.eq_false_iff.mpr fun empty => nonempty (String.isEmpty_iff.mp empty)
      rw [Text.settle, some] at settled
      cases settled
  | cons next others => cases settled

/-- The block of a routine that begins with a comment. -/
theorem exists_writeRoutine_eq {routine : Routine} {text : String} {others : List Statement}
    (body : routine.body = .comment text :: others) (memory : Memory) :
    ∃ rest, ((dialect.writeRoutine routine).run memory).1 =
      header routine :: (Layout.indent (commentLines text) ++ rest) := by
  have kept (fragments : List (List String)) : (commentLines text :: fragments).filter (· != Layout.empty) =
      commentLines text :: fragments.filter (· != Layout.empty) :=
    List.filter_cons_of_pos (bne_iff_ne.mpr (commentLines_ne_empty text))
  have written : ((dialect.writeRoutine routine).run memory).1 =
      header routine :: Layout.block ((dialect.writeBlock routine.body).run memory).1 := rfl
  have block : ((dialect.writeBlock (.comment text :: others)).run memory).1 =
      commentLines text :: ((dialect.writeBlock others).run memory).1 := by
    rw [Dialect.writeBlock, Dialect.writeStatement]
    rfl
  rw [written, body, block, Layout.block, kept]
  exact ⟨_, rfl⟩

theorem exists_mem_writeDefinitions {definitions : List Definition} {routine : Routine}
    (member : .routine routine ∈ definitions) (memory : Memory) :
    ∃ earlier : Memory, ((dialect.writeRoutine routine).run earlier).1 ∈
      ((dialect.writeDefinitions definitions).run memory).1 := by
  induction definitions generalizing memory with
  | nil => cases member
  | cons definition rest inductionHypothesis =>
      rcases List.mem_cons.mp member with rfl | later
      · exact ⟨memory, List.mem_cons_self⟩
      · cases definition with
        | global variableDefinition =>
            rcases inductionHypothesis later ((dialect.global variableDefinition).run memory).2 with ⟨earlier, found⟩
            exact ⟨earlier, List.mem_cons_of_mem _ found⟩
        | routine other =>
            rcases inductionHypothesis later ((dialect.writeRoutine other).run memory).2 with ⟨earlier, found⟩
            exact ⟨earlier, List.mem_cons_of_mem _ found⟩

theorem exists_moduleText_eq (memory : Memory) {definitions : List (List String)} {lines : List String}
    (member : lines ∈ definitions) :
    ∃ before after, moduleText memory definitions = before ++ Layout.text lines ++ "\n" ++ after :=
  Layout.exists_eq_append_section (List.mem_append_left _ (List.mem_append_right _ member))

/-- The comment that a routine begins with fills the lines below the routine's header. -/
theorem exists_write_eq {program : Program} {routine : Routine} (member : .routine routine ∈ program.definitions)
    {text : String} {others : List Statement} (body : routine.body = .comment text :: others) :
    ∃ before after, Target.python.write program =
      before ++ header routine ++ "\n" ++ Layout.text (Layout.indent (commentLines text)) ++ "\n" ++ after := by
  have written : Target.python.write program =
      moduleText ((dialect.writeDefinitions program.definitions).run .fresh).2
        ((dialect.writeDefinitions program.definitions).run .fresh).1 := rfl
  rcases exists_mem_writeDefinitions member .fresh with ⟨earlier, found⟩
  rcases exists_writeRoutine_eq body earlier with ⟨rest, lines⟩
  rcases exists_moduleText_eq ((dialect.writeDefinitions program.definitions).run .fresh).2 found with
    ⟨before, after, split⟩
  have indented := indent_commentLines_ne_nil text
  have behind := List.append_ne_nil_of_left_ne_nil indented rest
  have headed : Layout.text (header routine :: (Layout.indent (commentLines text) ++ rest)) =
      header routine ++ "\n" ++ Layout.text (Layout.indent (commentLines text) ++ rest) :=
    Layout.text_append (List.cons_ne_nil (header routine) []) behind
  rw [written, split, lines, headed]
  cases rest with
  | nil => exact ⟨before, after, by rw [List.append_nil]; simp only [String.append_assoc]⟩
  | cons next others =>
      rw [Layout.text_append indented (List.cons_ne_nil _ _)]
      exact ⟨before, Layout.text (next :: others) ++ "\n" ++ after, by simp only [String.append_assoc]⟩

theorem commentLines_of_isOneLine {text : String} (oneLine : Text.IsOneLine text) :
    commentLines text = ["# " ++ text] := by
  have whole := (isOneLine_commentLines.mpr oneLine).1
  rw [text_commentLines] at whole
  exact Text.segments_of_not_mem whole

/-- A comment on one line is one line further in. -/
theorem indent_commentLines_of_isOneLine {text : String} (oneLine : Text.IsOneLine text) :
    Layout.indent (commentLines text) = ["\t# " ++ text] := by
  rw [commentLines_of_isOneLine oneLine, Layout.indent_singleton (comment_ne_empty text), ← String.append_assoc]
  rfl

end PythonModule

/-! ## What the comments show -/

/-- The text of the comment that shows a declaration. -/
def Declaration.shown (declaration : Declaration) : String :=
  declaration.name ++ " ::= " ++ declaration.written

theorem Declaration.isOneLine_shown {declaration : Declaration} :
    Text.IsOneLine declaration.shown ↔ Text.IsOneLine declaration.name ∧ Text.IsOneLine declaration.written := by
  have sign : Text.IsOneLine " ::= " := by decide
  rw [shown, Text.isOneLine_append, Text.isOneLine_append, and_iff_left sign]

namespace Grammar

variable {grammar : Grammar} {settings : Settings} {program : Program} {declaration : Declaration}

/-- The routine of a declaration begins with the comment that shows it, and has no other. -/
theorem exists_routine_showing (made : grammar.parser settings = .ok program)
    (declared : declaration ∈ grammar.declarations) :
    ∃ routine, .routine routine ∈ program.definitions ∧ routine.name = declaration.name ∧ routine.role = .rule ∧
      ∃ others, routine.body = .comment declaration.shown :: others ∧ Statement.blockRegular others = true := by
  have asProduction : declaration.toProduction ∈ grammar.productions := List.mem_map.mpr ⟨declaration, declared, rfl⟩
  rcases exists_routines_eq made with ⟨routines, allMade, definitions, _⟩
  rcases exists_related_right allMade asProduction with ⟨routine, member, ownMade⟩
  rcases Analysis.routineFor_of_ok ownMade with ⟨steps, routineFor⟩
  have source : grammar.analysis.sourceOf declaration.toProduction = declaration.written := by
    have found : grammar.analysis.grammar.find? declaration.name = some declaration :=
      find?_of_mem_declarations declared
    rw [Analysis.sourceOf, found]
  have inProgram : .routine routine ∈ program.definitions := by
    rw [definitions]
    exact List.mem_append_left _ (List.mem_append_right _ (List.mem_map_of_mem member))
  rcases exists_body_of_routineFor routineFor with ⟨others, body, regular⟩
  rw [source] at body
  exact ⟨routine, inProgram, by rw [routineFor.written], by rw [routineFor.written], others, body, regular⟩

/-- The comment that shows a rule stays on its line if and only if nothing in the rule's name
and in the text of its right-hand side ends the line.  Then it fills a line of the module
by itself, behind a tab and the sign of a comment. -/
theorem isOneLine_comment_iff (made : grammar.parser settings = .ok program)
    (declared : declaration ∈ grammar.declarations) :
    ∃ routine ∈ program.routines, routine.name = declaration.name ∧ routine.role = .rule ∧
      (∃ others, routine.body = .comment declaration.shown :: others ∧ Statement.blockRegular others = true) ∧
      (∀ memory, Text.IsOneLine (Layout.text ((PythonModule.dialect.comment declaration.shown).run memory).1) ↔
        Text.IsOneLine declaration.name ∧ Text.IsOneLine declaration.written) ∧
      ∃ before after,
        Target.python.write program = before ++ PythonModule.header routine ++ "\n" ++
          Layout.text (Layout.indent (PythonModule.commentLines declaration.shown)) ++ "\n" ++ after ∧
        (Text.IsOneLine declaration.name ∧ Text.IsOneLine declaration.written ->
          Text.physicalLines (Target.python.write program) =
            Text.physicalLines (before ++ PythonModule.header routine ++ "\n") ++
              ("\t# " ++ declaration.shown) :: Text.physicalLines after) := by
  rcases exists_routine_showing made declared with ⟨routine, inProgram, named, ofRule, others, body, regular⟩
  rcases PythonModule.exists_write_eq inProgram body with ⟨before, after, written⟩
  refine ⟨routine, List.mem_filterMap.mpr ⟨_, inProgram, rfl⟩, named, ofRule, ⟨others, body, regular⟩,
    fun memory => ?_, before, after, written, fun oneLine => ?_⟩
  · rw [PythonModule.run_comment, PythonModule.isOneLine_commentLines, Declaration.isOneLine_shown]
  · have shownLine := Declaration.isOneLine_shown.mpr oneLine
    have whole : Text.IsOneLine ("\t# " ++ declaration.shown) :=
      Text.isOneLine_append.mpr ⟨by decide, shownLine⟩
    rw [written, Text.physicalLines_between_feeds, PythonModule.indent_commentLines_of_isOneLine shownLine,
      Layout.text, String.intercalate_singleton, Text.physicalLines_of_isOneLine whole]
    rfl

theorem isOneLine_comment_groups :
    ∃ program, groups.parser .standard = .ok program ∧ ∃ before after,
      Text.physicalLines (Target.python.write program) = before ++ "\t# group ::= \"(\" content \")\"" :: after := by
  rcases groups_hasParser with ⟨program, made⟩
  have declared : groups.start ∈ groups.declarations := List.head_mem _
  rcases isOneLine_comment_iff made declared with ⟨_, _, _, _, _, _, _, _, _, lines⟩
  exact ⟨program, made, _, _, lines (by decide)⟩

/-- The lines of a comment are lines of the module, however many they are. -/
theorem mem_physicalLines_of_comment (made : grammar.parser settings = .ok program)
    (declared : declaration ∈ grammar.declarations) {line : String}
    (among : line ∈ Text.physicalLines
      (Layout.text (Layout.indent (PythonModule.commentLines declaration.shown)) ++ "\n")) :
    line ∈ Text.physicalLines (Target.python.write program) := by
  rcases exists_routine_showing made declared with ⟨routine, inProgram, _, _, others, body, _⟩
  rcases PythonModule.exists_write_eq inProgram body with ⟨before, after, written⟩
  rw [written, Text.physicalLines_between_feeds]
  exact List.mem_append_right _ (List.mem_append_left _ among)

/-- Whether the grammar has a parser, and its first rule is shown like this. -/
def shows (grammar : Grammar) (text : String) : Bool :=
  (grammar.parser .standard).isOk && grammar.start.shown == text

/-- The comment that shows the first rule does not stay on one line, and this is a line of
the module because of it. -/
def LeavesComment (grammar : Grammar) (line : String) : Prop :=
  ∃ program, grammar.parser .standard = .ok program ∧
    ¬Text.IsOneLine (Layout.text (PythonModule.commentLines grammar.start.shown)) ∧
    line ∈ Text.physicalLines (Target.python.write program)

theorem leavesComment_of_shows {text line : String} (test : grammar.shows text = true)
    (broken : ¬Text.IsOneLine text)
    (among : line ∈ Text.physicalLines (Layout.text (Layout.indent (PythonModule.commentLines text)) ++ "\n")) :
    grammar.LeavesComment line := by
  rw [shows, Bool.and_eq_true, beq_iff_eq] at test
  rcases exists_of_isOk test.1 with ⟨program, made⟩
  have declared : grammar.start ∈ grammar.declarations := List.head_mem _
  rw [← test.2] at broken among
  refine ⟨program, made, ?_, mem_physicalLines_of_comment made declared among⟩
  rw [PythonModule.isOneLine_commentLines]
  exact broken

/-- Rules with a line feed in a literal. -/
def brokenRules : List (String × String) := [("s", "\"a\nb\"")]

/-- The text of a grammar with a carriage return in a literal. -/
def brokenText : String := "s ::= \"a\rb\""

/-- What ends a line in a literal leaves the comment, and the rest of the rule stands in the
module without the sign of a comment. -/
theorem not_isOneLine_comment :
    (∃ grammar, ofRules brokenRules = .ok grammar ∧ grammar.LeavesComment "\tb\"") ∧
      ∃ grammar, read brokenText = .ok grammar ∧ grammar.LeavesComment "b\"" := by
  constructor
  · have test : (ofRules brokenRules).toOption.any (·.shows "s ::= \"a\nb\"") = true := by decide +kernel
    rcases exists_of_toOption_any test with ⟨grammar, accepted, shown⟩
    exact ⟨grammar, accepted, leavesComment_of_shows shown (by decide) (by decide)⟩
  · have test : (read brokenText).toOption.any (·.shows "s ::= \"a\rb\"") = true := by decide +kernel
    rcases exists_of_toOption_any test with ⟨grammar, accepted, shown⟩
    exact ⟨grammar, accepted, leavesComment_of_shows shown (by decide) (by decide)⟩

end Grammar

/-! ## What grammars are made of -/

namespace Pattern

/-- The word that the pattern is written with, unless it is built from others. -/
def word? : Pattern -> Option String
  | .terminal leaf => some leaf.spelling
  | .reference rule => some rule
  | _ => none

/-- The words that a pattern is written with. -/
def words (pattern : Pattern) : List String :=
  pattern.parts.filterMap word?

theorem filterMap_word?_partsOfAll (patterns : List Pattern) :
    (partsOfAll patterns).filterMap word? = patterns.flatMap words := by
  induction patterns with
  | nil => rfl
  | cons pattern rest inductionHypothesis =>
      rw [partsOfAll, List.filterMap_append, inductionHypothesis, List.flatMap_cons]
      rfl

theorem isOneLine_grouped (needed : Bool) {text : String} : Text.IsOneLine (grouped needed text) ↔ Text.IsOneLine text := by
  have opening : Text.IsOneLine "( " := by decide
  have closing : Text.IsOneLine " )" := by decide
  cases needed with
  | false => exact Iff.rfl
  | true =>
      change Text.IsOneLine ("( " ++ text ++ " )") ↔ _
      rw [Text.isOneLine_append, Text.isOneLine_append, and_iff_right opening, and_iff_left closing]

theorem isOneLine_renderParts {separator : String} (between : Text.IsOneLine separator) {parts : List Pattern}
    (each : ∀ part ∈ parts, Text.IsOneLine part.render ↔ ∀ word ∈ part.words, Text.IsOneLine word) :
    Text.IsOneLine (separator.intercalate (renderParts parts)) ↔ ∀ word ∈ parts.flatMap words, Text.IsOneLine word := by
  rw [Text.isOneLine_intercalate between, renderParts_eq_map, List.forall_mem_map, List.forall_mem_flatMap]
  refine forall₂_congr fun part member => ?_
  rw [isOneLine_grouped, each part member]

/-- A printed pattern stays on one line if and only if its words do. -/
theorem isOneLine_render (pattern : Pattern) :
    Text.IsOneLine pattern.render ↔ ∀ word ∈ pattern.words, Text.IsOneLine word := by
  induction pattern using inductionOnParts with
  | terminal leaf =>
      have quote : Text.IsOneLine "\"" := by decide
      have opening : Text.IsOneLine "<" := by decide
      have closing : Text.IsOneLine ">" := by decide
      have single : (Pattern.terminal leaf).words = [leaf.spelling] := rfl
      rw [single, List.forall_mem_singleton]
      cases leaf with
      | literal text =>
          rw [render, Text.isOneLine_append, Text.isOneLine_append, and_iff_right quote, and_iff_left quote]
          rfl
      | tokenClass name =>
          rw [render, Text.isOneLine_append, Text.isOneLine_append, and_iff_right opening, and_iff_left closing]
          rfl
  | reference rule =>
      have single : (Pattern.reference rule).words = [rule] := rfl
      rw [render, single, List.forall_mem_singleton]
  | sequence factors inductionHypothesis =>
      have inside : (Pattern.sequence factors).words = factors.flatMap words := filterMap_word?_partsOfAll factors
      rw [render, inside]
      exact isOneLine_renderParts (by decide) inductionHypothesis
  | choice alternatives inductionHypothesis =>
      have inside : (Pattern.choice alternatives).words = alternatives.flatMap words :=
        filterMap_word?_partsOfAll alternatives
      rw [render, inside]
      exact isOneLine_renderParts (by decide) inductionHypothesis
  | optional content inductionHypothesis =>
      have mark : Text.IsOneLine " ?" := by decide
      have inside : (Pattern.optional content).words = content.words := rfl
      rw [render, Text.isOneLine_append, and_iff_left mark, isOneLine_grouped, inductionHypothesis, inside]

end Pattern

namespace Grammar

variable {grammar : Grammar}

/-- Rules given by their texts keep to lines if their names and texts do. -/
theorem isOnLines_of_ofRules {rules : List (String × String)} (made : ofRules rules = .ok grammar)
    (each : ∀ rule ∈ rules, Text.IsOneLine rule.1 ∧ Text.IsOneLine rule.2) : grammar.IsOnLines := by
  rcases exists_of_bind_eq_ok made with ⟨declarations, mapped, made⟩
  intro declaration member
  rw [declarations_of_ofDeclarations made] at member
  rcases exists_related_right (List.Forall₂.flip (forall₂_of_mapM mapped)) member with
    ⟨⟨name, text⟩, inRules, read⟩
  rcases eq_of_declaration_read read with ⟨sameName, sameText, _⟩
  rcases each (name, text) inRules with ⟨nameLine, textLine⟩
  rw [sameName, sameText]
  refine ⟨nameLine, textLine.of_subset ?_⟩
  rw [String.toList_ofList]
  exact Text.trim_subset _

/-- Productions keep to lines if and only if their names and their words do. -/
theorem isOnLines_ofProductions_iff {productions : List Production} (made : ofProductions productions = .ok grammar) :
    grammar.IsOnLines ↔ ∀ production ∈ productions,
      Text.IsOneLine production.name ∧ ∀ word ∈ production.root.words, Text.IsOneLine word := by
  rw [IsOnLines, declarations_of_ofDeclarations made, List.forall_mem_map]
  exact forall₂_congr fun production _ => and_congr_right' (Pattern.isOneLine_render production.root)

end Grammar
end PredictiveParsing
