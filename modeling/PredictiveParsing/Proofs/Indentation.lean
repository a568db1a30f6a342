import Mathlib.Data.List.Basic
import PredictiveParsing.Dialect.Layout
import PredictiveParsing.Proofs.TextLines

namespace PredictiveParsing
namespace Layout

/-!
# Blocks of indented lines

A line that ends in a colon is the header of a block, and the lines after it that are
indented more deeply are its body.  Blank lines and comments are silent: they neither
are a body nor end one.  So a block has a body if the first line after the header that
is not silent is indented more deeply.

Fragments are put together without looking at their insides.  A fragment is tidy if it
begins at the margin and every block in it has its body in it.  Tidy fragments below
each other are tidy, and so is a header above a block of them.
-/

/-! ## Headers and bodies -/

/-- The number of tabs that a line begins with. -/
def depth (line : String) : Nat :=
  (line.toList.takeWhile (· == '\t')).length

/-- Whether nothing stands on the line but a comment at most. -/
def isSilent (line : String) : Bool :=
  match line.toList.dropWhile Text.isWhiteSpace with
  | [] => true
  | c :: _ => c == '#'

/-- Whether the line is the header of a block. -/
def opensBlock (line : String) : Bool :=
  !isSilent line && line.toList.getLast? == some ':'

/-- Whether the first line that is not silent is indented more deeply than that. -/
def hasBody (level : Nat) : List String -> Bool
  | [] => false
  | line :: rest => if isSilent line then hasBody level rest else level < depth line

/-- Whether every header among the lines has a body after it. -/
def everyBlockHasBody : List String -> Bool
  | [] => true
  | line :: rest => (!opensBlock line || hasBody (depth line) rest) && everyBlockHasBody rest

theorem hasBody_of_silent {level : Nat} {line : String} (silent : isSilent line = true) (rest : List String) :
    hasBody level (line :: rest) = hasBody level rest := by
  rw [hasBody, if_pos silent]

theorem hasBody_of_not_silent {level : Nat} {line : String} (speaks : isSilent line = false) (rest : List String) :
    hasBody level (line :: rest) = decide (level < depth line) := by
  rw [hasBody, speaks, if_neg Bool.false_ne_true]

theorem everyBlockHasBody_of_not_opensBlock {line : String} (closed : opensBlock line = false) (rest : List String) :
    everyBlockHasBody (line :: rest) = everyBlockHasBody rest := by
  rw [everyBlockHasBody, closed, Bool.not_false, Bool.true_or, Bool.true_and]

theorem opensBlock_of_silent {line : String} (silent : isSilent line = true) : opensBlock line = false := by
  rw [opensBlock, silent, Bool.not_true, Bool.false_and]

/-! ## Lines below each other -/

variable {level : Nat} {front back : List String}

theorem hasBody_append (has : hasBody level front = true) (back : List String) :
    hasBody level (front ++ back) = true := by
  induction front with
  | nil => cases has
  | cons line rest inductionHypothesis =>
      rw [List.cons_append]
      cases silent : isSilent line with
      | true =>
          rw [hasBody_of_silent silent] at has ⊢
          exact inductionHypothesis has
      | false =>
          rw [hasBody_of_not_silent silent] at has ⊢
          exact has

theorem everyBlockHasBody_append (first : everyBlockHasBody front = true) (later : everyBlockHasBody back = true) :
    everyBlockHasBody (front ++ back) = true := by
  induction front with
  | nil => exact later
  | cons line rest inductionHypothesis =>
      rw [everyBlockHasBody, Bool.and_eq_true, Bool.or_eq_true] at first
      rw [List.cons_append, everyBlockHasBody, Bool.and_eq_true, Bool.or_eq_true]
      exact ⟨first.1.imp_right fun has => hasBody_append has back, inductionHypothesis first.2⟩

/-- Lines that come back to the margin are no body for the lines above. -/
theorem hasBody_append_of_returns (returns : ∀ level, hasBody level back = false) (level : Nat)
    (front : List String) : hasBody level (front ++ back) = hasBody level front := by
  induction front with
  | nil => exact returns level
  | cons line rest inductionHypothesis =>
      rw [List.cons_append, hasBody, hasBody, inductionHypothesis]

theorem everyBlockHasBody_append_of_returns (returns : ∀ level, hasBody level back = false)
    (front : List String) :
    everyBlockHasBody (front ++ back) = (everyBlockHasBody front && everyBlockHasBody back) := by
  induction front with
  | nil => rfl
  | cons line rest inductionHypothesis =>
      rw [List.cons_append, everyBlockHasBody, everyBlockHasBody, hasBody_append_of_returns returns,
        inductionHypothesis, Bool.and_assoc]

/-! ## Lines further in -/

theorem toList_tab (line : String) : ("\t" ++ line).toList = '\t' :: line.toList :=
  String.toList_append

theorem depth_tab (line : String) : depth ("\t" ++ line) = depth line + 1 := by
  rw [depth, toList_tab, List.takeWhile_cons_of_pos rfl, List.length_cons, depth]

theorem isSilent_tab (line : String) : isSilent ("\t" ++ line) = isSilent line := by
  rw [isSilent, toList_tab, List.dropWhile_cons_of_pos rfl, isSilent]

theorem opensBlock_tab (line : String) : opensBlock ("\t" ++ line) = opensBlock line := by
  rw [opensBlock, opensBlock, isSilent_tab, toList_tab, List.getLast?_cons]
  cases line.toList.getLast? <;> rfl

theorem hasBody_map_tab (level : Nat) (lines : List String) :
    hasBody (level + 1) (lines.map ("\t" ++ ·)) = hasBody level lines := by
  induction lines with
  | nil => rfl
  | cons line rest inductionHypothesis =>
      have deeper : (level + 1 < depth line + 1) = (level < depth line) :=
        propext Nat.succ_lt_succ_iff
      simp only [List.map_cons, hasBody, isSilent_tab, depth_tab, inductionHypothesis, deeper]

theorem everyBlockHasBody_map_tab (lines : List String) :
    everyBlockHasBody (lines.map ("\t" ++ ·)) = everyBlockHasBody lines := by
  induction lines with
  | nil => rfl
  | cons line rest inductionHypothesis =>
      rw [List.map_cons, everyBlockHasBody, opensBlock_tab, depth_tab, hasBody_map_tab, inductionHypothesis,
        everyBlockHasBody]

/-! ## Tidy fragments -/

/-- Whether the text can be a line of a fragment that is read again as text. -/
structure IsLine (line : String) : Prop where
  nonempty : line ≠ ""
  noFeed : '\n' ∉ line.toList
  noReturn : '\r' ∉ line.toList

/-- Whether the line begins at the margin and says something. -/
structure IsFlush (line : String) : Prop where
  depth : depth line = 0
  speaks : isSilent line = false

/-- Whether the text begins with something other than white space or a comment. -/
def beginsCode (text : String) : Bool :=
  match text.toList with
  | [] => false
  | c :: _ => !Text.isWhiteSpace c && c != '#'

theorem beginsCode_of_cons {text : String} {c : Char} {rest : List Char} (spelled : text.toList = c :: rest)
    (black : Text.isWhiteSpace c = false) (noComment : c ≠ '#') : beginsCode text = true := by
  simp only [beginsCode, spelled, black, Bool.not_false, Bool.true_and]
  exact bne_iff_ne.mpr noComment

theorem exists_cons_of_beginsCode {text : String} (begins : beginsCode text = true) :
    ∃ c rest, text.toList = c :: rest ∧ Text.isWhiteSpace c = false ∧ c ≠ '#' := by
  rw [beginsCode] at begins
  split at begins
  · cases begins
  · rename_i c rest spelled
    rw [Bool.and_eq_true, Bool.not_eq_true', bne_iff_ne] at begins
    exact ⟨c, rest, spelled, begins.1, begins.2⟩

theorem beginsCode_append {front : String} (begins : beginsCode front = true) (back : String) :
    beginsCode (front ++ back) = true := by
  rcases exists_cons_of_beginsCode begins with ⟨c, rest, spelled, black, noComment⟩
  exact beginsCode_of_cons (by rw [String.toList_append, spelled, List.cons_append]) black noComment

theorem ne_empty_of_beginsCode {text : String} (begins : beginsCode text = true) : text ≠ "" := by
  rintro rfl
  cases begins

theorem isFlush_of_beginsCode {line : String} (begins : beginsCode line = true) : IsFlush line := by
  rcases exists_cons_of_beginsCode begins with ⟨c, rest, spelled, black, noComment⟩
  have noTab : c ≠ '\t' := by
    rintro rfl
    cases black
  constructor
  · rw [Layout.depth, spelled, List.takeWhile_cons_of_neg (by simpa using noTab), List.length_nil]
  · rw [isSilent, spelled, List.dropWhile_cons_of_neg (Bool.eq_false_iff.mp black)]
    exact beq_false_of_ne noComment

/-- Whether the lines begin at the margin and hold the bodies of their blocks. -/
structure IsTidy (fragment : List String) : Prop where
  isLine : ∀ line ∈ fragment, IsLine line
  flush : ∀ first, fragment.head? = some first -> IsFlush first
  bodies : everyBlockHasBody fragment = true

/-- Whether the lines can stand below a header at the margin. -/
structure IsBody (lines : List String) : Prop where
  isLine : ∀ line ∈ lines, IsLine line
  follows : hasBody 0 lines = true
  bodies : everyBlockHasBody lines = true

theorem isTidy_nil : IsTidy [] :=
  ⟨List.forall_mem_nil _, nofun, rfl⟩

theorem isTidy_singleton {line : String} (isLine : IsLine line) (flush : IsFlush line)
    (closed : opensBlock line = false) : IsTidy [line] where
  isLine := List.forall_mem_singleton.mpr isLine
  flush _ same := Option.some.inj same ▸ flush
  bodies := everyBlockHasBody_of_not_opensBlock closed []

theorem IsTidy.append (first : IsTidy front) (later : IsTidy back) : IsTidy (front ++ back) where
  isLine := List.forall_mem_append.mpr ⟨first.isLine, later.isLine⟩
  flush line begins := by
    cases front with
    | nil => exact later.flush line begins
    | cons head tail => exact first.flush line begins
  bodies := everyBlockHasBody_append first.bodies later.bodies

theorem isTidy_flatten {fragments : List (List String)} (each : ∀ fragment ∈ fragments, IsTidy fragment) :
    IsTidy fragments.flatten := by
  induction fragments with
  | nil => exact isTidy_nil
  | cons fragment rest inductionHypothesis =>
      rcases List.forall_mem_cons.mp each with ⟨first, later⟩
      rw [List.flatten_cons]
      exact first.append (inductionHypothesis later)

theorem IsLine.tab {line : String} (isLine : IsLine line) : IsLine ("\t" ++ line) where
  nonempty empty := by
    have spelled := congrArg String.toList empty
    rw [toList_tab] at spelled
    cases spelled
  noFeed := by
    rw [toList_tab]
    exact List.not_mem_cons_of_ne_of_not_mem (by decide) isLine.noFeed
  noReturn := by
    rw [toList_tab]
    exact List.not_mem_cons_of_ne_of_not_mem (by decide) isLine.noReturn

theorem IsTidy.further {fragment : List String} (tidy : IsTidy fragment) (nonempty : fragment ≠ []) :
    IsBody (fragment.map ("\t" ++ ·)) where
  isLine := by
    intro line member
    rcases List.mem_map.mp member with ⟨inner, inFragment, rfl⟩
    exact (tidy.isLine inner inFragment).tab
  follows := by
    rcases List.exists_cons_of_ne_nil nonempty with ⟨first, rest, rfl⟩
    have speaks := (tidy.flush first rfl).speaks
    rw [List.map_cons, hasBody_of_not_silent ((isSilent_tab first).trans speaks), depth_tab]
    exact decide_eq_true (Nat.succ_pos _)
  bodies := (everyBlockHasBody_map_tab fragment).trans tidy.bodies

/-- A header above a body. -/
theorem IsBody.below {header : String} {lines : List String} (body : IsBody lines) (isLine : IsLine header)
    (flush : IsFlush header) : IsTidy (header :: lines) where
  isLine := List.forall_mem_cons.mpr ⟨isLine, body.isLine⟩
  flush _ same := Option.some.inj same ▸ flush
  bodies := by
    rw [everyBlockHasBody, flush.depth, body.follows, Bool.or_true, body.bodies, Bool.and_true]

/-! ## Blocks -/

theorem settle_of_isLine {fragment : List String} (isLine : ∀ line ∈ fragment, IsLine line) :
    Text.settle fragment = fragment := by
  induction fragment with
  | nil => rfl
  | cons line rest inductionHypothesis =>
      rcases List.forall_mem_cons.mp isLine with ⟨first, later⟩
      cases rest with
      | nil =>
          rw [Text.settle, if_neg]
          exact fun empty => first.nonempty (String.isEmpty_iff.mp empty)
      | cons next others =>
          have noReturn : line.toList.getLast? ≠ some '\r' := fun last =>
            first.noReturn (List.mem_of_getLast? last)
          rw [Text.settle, inductionHypothesis later, Text.dropCarriageReturn, if_neg noReturn]
          exact List.cons_ne_nil _ _

theorem indentLine_of_ne_empty {line : String} (nonempty : line ≠ "") : indentLine line = "\t" ++ line := by
  rw [indentLine, if_neg]
  exact fun empty => nonempty (String.isEmpty_iff.mp empty)

theorem indent_of_isLine {fragment : List String} (isLine : ∀ line ∈ fragment, IsLine line) :
    indent fragment = fragment.map ("\t" ++ ·) := by
  rw [indent, settle_of_isLine isLine]
  exact List.map_congr_left fun line member => indentLine_of_ne_empty (isLine line member).nonempty

theorem indent_singleton {line : String} (nonempty : line ≠ "") : indent [line] = ["\t" ++ line] := by
  rw [indent, Text.settle, if_neg, List.map_singleton, indentLine_of_ne_empty nonempty]
  exact fun empty => nonempty (String.isEmpty_iff.mp empty)

/-- Where nothing is left out, a block has all its fragments. -/
theorem block_of_ne_empty {fragments : List (List String)} (nonempty : fragments ≠ [])
    (each : ∀ fragment ∈ fragments, fragment ≠ empty) : block fragments = fragments.flatMap indent := by
  have kept : fragments.filter (· != empty) = fragments :=
    List.filter_eq_self.mpr fun fragment member => bne_iff_ne.mpr (each fragment member)
  rw [block, kept]
  cases fragments with
  | nil => exact absurd rfl nonempty
  | cons _ _ => rfl

theorem flatMap_indent_of_isLine {fragments : List (List String)}
    (each : ∀ fragment ∈ fragments, ∀ line ∈ fragment, IsLine line) :
    fragments.flatMap indent = fragments.flatten.map ("\t" ++ ·) := by
  induction fragments with
  | nil => rfl
  | cons fragment rest inductionHypothesis =>
      rcases List.forall_mem_cons.mp each with ⟨first, later⟩
      rw [List.flatMap_cons, List.flatten_cons, List.map_append, inductionHypothesis later,
        indent_of_isLine first]

theorem IsTidy.ne_empty {fragment : List String} (tidy : IsTidy fragment) : fragment ≠ empty := by
  rintro rfl
  cases (tidy.flush "" rfl).speaks

/-- Whether each of the fragments is tidy and has lines. -/
def AreTidy (fragments : List (List String)) : Prop :=
  ∀ fragment ∈ fragments, fragment ≠ [] ∧ IsTidy fragment

theorem isLine_of_mem_flatMap_indent {fragments : List (List String)} (each : AreTidy fragments) :
    ∀ line ∈ fragments.flatMap indent, IsLine line := by
  intro line member
  rw [flatMap_indent_of_isLine fun fragment inFragments => (each fragment inFragments).2.isLine] at member
  rcases List.mem_map.mp member with ⟨inner, inside, rfl⟩
  rcases List.mem_flatten.mp inside with ⟨fragment, inFragments, inFragment⟩
  exact ((each fragment inFragments).2.isLine inner inFragment).tab

theorem isBody_flatMap_indent {fragments : List (List String)} (nonempty : fragments ≠ [])
    (each : AreTidy fragments) : IsBody (fragments.flatMap indent) := by
  have tidy : ∀ fragment ∈ fragments, IsTidy fragment := fun fragment member => (each fragment member).2
  rw [flatMap_indent_of_isLine fun fragment member => (tidy fragment member).isLine]
  refine (isTidy_flatten tidy).further ?_
  rcases List.exists_cons_of_ne_nil nonempty with ⟨first, rest, rfl⟩
  rw [List.flatten_cons]
  exact List.append_ne_nil_of_left_ne_nil (each first List.mem_cons_self).1 _

theorem isBody_block {fragments : List (List String)} (each : AreTidy fragments) : IsBody (block fragments) := by
  cases fragments with
  | nil =>
      refine ⟨List.forall_mem_singleton.mpr ⟨?_, ?_, ?_⟩, ?_, ?_⟩ <;> decide
  | cons fragment rest =>
      rw [block_of_ne_empty (List.cons_ne_nil _ _) fun other member => (each other member).2.ne_empty]
      exact isBody_flatMap_indent (List.cons_ne_nil _ _) each

/-! ## Comments -/

section

variable {comment : String} {fragments : List (List String)} (nonempty : comment ≠ "") (each : AreTidy fragments)

include nonempty each

/-- Below a comment no placeholder stands for statements that are missing. -/
theorem block_comment : block ([comment] :: fragments) = ("\t" ++ comment) :: fragments.flatMap indent := by
  have kept : ∀ fragment ∈ [comment] :: fragments, fragment ≠ empty := by
    refine List.forall_mem_cons.mpr ⟨?_, fun fragment member => (each fragment member).2.ne_empty⟩
    exact fun same => nonempty (List.cons.inj same).1
  rw [block_of_ne_empty (List.cons_ne_nil _ _) kept, List.flatMap_cons, indent_singleton nonempty,
    List.singleton_append]

/-- A comment is no body, although it is indented like one. -/
theorem everyBlockHasBody_comment_iff (silent : isSilent comment = true) {header : String}
    (opens : opensBlock header = true) (flush : IsFlush header) :
    everyBlockHasBody (header :: block ([comment] :: fragments)) = true ↔ fragments ≠ [] := by
  have silentTab : isSilent ("\t" ++ comment) = true := (isSilent_tab comment).trans silent
  rw [block_comment nonempty each, everyBlockHasBody, opens, flush.depth, hasBody_of_silent silentTab,
    everyBlockHasBody_of_not_opensBlock (opensBlock_of_silent silentTab), Bool.not_true, Bool.false_or,
    Bool.and_eq_true]
  constructor
  · rintro ⟨has, _⟩ rfl
    cases has
  · intro more
    have body := isBody_flatMap_indent more each
    exact ⟨body.follows, body.bodies⟩

end

/-! ## Texts of sections -/

/-- Whether the lines are a part of a text that is set apart by blank lines. -/
structure IsSection (lines : List String) : Prop where
  noFeed : ∀ line ∈ lines, '\n' ∉ line.toList
  flush : ∃ first rest, lines = first :: rest ∧ IsFlush first

theorem IsTidy.isSection {fragment : List String} (tidy : IsTidy fragment) (nonempty : fragment ≠ []) :
    IsSection fragment where
  noFeed line member := (tidy.isLine line member).noFeed
  flush := by
    rcases List.exists_cons_of_ne_nil nonempty with ⟨first, rest, rfl⟩
    exact ⟨first, rest, rfl, tidy.flush first rfl⟩

theorem segments_text_append {lines : List String} (nonempty : lines ≠ [])
    (noFeed : ∀ line ∈ lines, '\n' ∉ line.toList) (rest : String) :
    Text.segments (text lines ++ "\n" ++ rest) = lines ++ Text.segments rest := by
  induction lines with
  | nil => exact absurd rfl nonempty
  | cons line others inductionHypothesis =>
      rcases List.forall_mem_cons.mp noFeed with ⟨first, later⟩
      cases others with
      | nil => exact Text.segments_append first rest
      | cons next more =>
          have joined : text (line :: next :: more) ++ "\n" ++ rest =
              line ++ "\n" ++ (text (next :: more) ++ "\n" ++ rest) := by
            rw [text, String.intercalate_cons_cons, text, String.append_assoc, String.append_assoc,
              String.append_assoc, String.append_assoc, String.append_assoc]
          rw [joined, Text.segments_append first, inductionHypothesis (List.cons_ne_nil _ _) later]
          rfl

/-- Sections with a blank line between them fall into their lines again. -/
theorem segments_sections {sections : List (List String)} (nonempty : sections ≠ [])
    (each : ∀ lines ∈ sections, IsSection lines) :
    Text.segments ("\n\n".intercalate (sections.map text) ++ "\n") = sections.flatMap (· ++ [""]) := by
  induction sections with
  | nil => exact absurd rfl nonempty
  | cons lines rest inductionHypothesis =>
      rcases List.forall_mem_cons.mp each with ⟨first, later⟩
      have inhabited : lines ≠ [] := by
        rcases first.flush with ⟨line, others, rfl, _⟩
        exact List.cons_ne_nil _ _
      cases rest with
      | nil =>
          have whole := segments_text_append inhabited first.noFeed ""
          rw [String.append_empty] at whole
          rw [List.map_singleton, String.intercalate_singleton, List.flatMap_singleton]
          exact whole
      | cons next more =>
          have joined : "\n\n".intercalate ((lines :: next :: more).map text) ++ "\n" =
              text lines ++ "\n" ++ ("" ++ "\n" ++ ("\n\n".intercalate ((next :: more).map text) ++ "\n")) := by
            rw [List.map_cons, List.map_cons, String.intercalate_cons_cons]
            apply String.toList_inj.mp
            simp [String.toList_append]
          have ofRest := inductionHypothesis (List.cons_ne_nil _ _) later
          have sections : (lines :: next :: more).flatMap (· ++ [""]) =
              lines ++ [""] ++ (next :: more).flatMap (· ++ [""]) := List.flatMap_cons
          rw [joined, segments_text_append inhabited first.noFeed, Text.segments_append (by decide), ofRest, sections,
            List.append_assoc, List.singleton_append]

theorem returns_of_sections {sections : List (List String)} (each : ∀ lines ∈ sections, IsSection lines) (level : Nat) :
    hasBody level ([""] ++ sections.flatMap (· ++ [""])) = false := by
  have silent : isSilent "" = true := rfl
  rw [List.singleton_append, hasBody_of_silent silent]
  cases sections with
  | nil => rfl
  | cons lines rest =>
      rcases (each lines List.mem_cons_self).flush with ⟨first, others, rfl, flush⟩
      rw [List.flatMap_cons, List.cons_append, List.cons_append, hasBody_of_not_silent flush.speaks, flush.depth]
      exact decide_eq_false (Nat.not_lt_zero level)

/-- A blank line and a section that begins at the margin end every block above. -/
theorem everyBlockHasBody_sections {sections : List (List String)} (each : ∀ lines ∈ sections, IsSection lines) :
    everyBlockHasBody (sections.flatMap (· ++ [""])) = sections.all everyBlockHasBody := by
  induction sections with
  | nil => rfl
  | cons lines rest inductionHypothesis =>
      have later := fun other member => each other (List.mem_cons_of_mem _ member)
      rw [List.flatMap_cons, List.append_assoc, everyBlockHasBody_append_of_returns (returns_of_sections later),
        List.all_cons, List.singleton_append, everyBlockHasBody_of_not_opensBlock rfl, inductionHypothesis later]

/-! ## Physical lines -/

/-- Whether no line holds a carriage return, which would end it. -/
def HasNoReturns (lines : List String) : Prop :=
  ∀ line ∈ lines, '\r' ∉ line.toList

theorem IsTidy.hasNoReturns {fragment : List String} (tidy : IsTidy fragment) : HasNoReturns fragment :=
  fun line member => (tidy.isLine line member).noReturn

/-- Reading lines only leaves out what is blank at the end, where no line holds a carriage
return. -/
theorem settle_of_hasNoReturns {lines : List String} (noReturns : HasNoReturns lines) :
    Text.settle lines = lines ∨ lines = Text.settle lines ++ [""] := by
  induction lines with
  | nil => exact Or.inl rfl
  | cons line rest inductionHypothesis =>
      rcases List.forall_mem_cons.mp noReturns with ⟨first, later⟩
      cases rest with
      | nil =>
          rw [Text.settle]
          split
          · rename_i empty
            exact Or.inr (congrArg (fun only => [only]) (String.isEmpty_iff.mp empty))
          · exact Or.inl rfl
      | cons next others =>
          have kept : Text.dropCarriageReturn line = line := if_neg fun last => first (List.mem_of_getLast? last)
          have settled : Text.settle (line :: next :: others) = line :: Text.settle (next :: others) := by
            rw [Text.settle, kept]
            exact List.cons_ne_nil _ _
          rw [settled]
          exact (inductionHypothesis later).imp (congrArg (line :: ·)) (congrArg (line :: ·))

/-- Without carriage returns, whether blocks have bodies does not depend on how lines are
counted. -/
theorem everyBlockHasBody_physicalLines {text : String} (noReturns : HasNoReturns (Text.segments text)) :
    everyBlockHasBody (Text.physicalLines text) = everyBlockHasBody (Text.segments text) := by
  have single : ∀ line ∈ Text.lines text, Text.pieces '\r' line = [line] := by
    intro line member
    rcases Text.exists_segment_of_mem_settle member with ⟨segment, found, subset⟩
    exact Text.pieces_of_not_mem fun back => noReturns segment found (subset back)
  have lines : Text.physicalLines text = Text.settle (Text.segments text) := by
    rw [Text.physicalLines, List.flatMap_congr single, List.flatMap_singleton', Text.lines]
  rw [lines]
  rcases settle_of_hasNoReturns noReturns with same | blank
  · rw [same]
  · have returns (level : Nat) : hasBody level [""] = false := rfl
    have ended := everyBlockHasBody_append_of_returns returns (Text.settle (Text.segments text))
    rw [← blank] at ended
    rw [ended]
    exact (Bool.and_true _).symm

end Layout
end PredictiveParsing
