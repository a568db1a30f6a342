import Mathlib.Data.List.TakeWhile
import PredictiveParsing.Text.Lines
import PredictiveParsing.Text.WhiteSpace

namespace PredictiveParsing
namespace Text

/-!
# Texts made of lines

A text that is put together from lines falls into the same lines again, as long as
no line holds a line feed.  Reading the lines of a text also takes away a carriage
return at the end of each, so lines that are to be read back must not end with one.

A text is inline if it can stand on a line by itself: nothing in it ends the line,
and there is no white space at either end that trimming would take away.
-/

/-! ## Pieces -/

theorem cut_of_not_mem {separator : Char} {text : List Char} (absent : separator ∉ text) :
    cut separator text = (text, []) := by
  induction text with
  | nil => rfl
  | cons c rest inductionHypothesis =>
      rw [cut, inductionHypothesis (List.not_mem_of_not_mem_cons absent)]
      exact if_neg (Ne.symm (List.ne_of_not_mem_cons absent))

theorem cut_append {separator : Char} {front : List Char} (absent : separator ∉ front) (rest : List Char) :
    cut separator (front ++ separator :: rest) =
      (front, (cut separator rest).1 :: (cut separator rest).2) := by
  induction front with
  | nil =>
      rw [List.nil_append, cut]
      exact if_pos rfl
  | cons c others inductionHypothesis =>
      rw [List.cons_append, cut, inductionHypothesis (List.not_mem_of_not_mem_cons absent)]
      exact if_neg (Ne.symm (List.ne_of_not_mem_cons absent))

theorem not_mem_of_mem_cut {separator : Char} {text piece : List Char}
    (member : piece ∈ (cut separator text).1 :: (cut separator text).2) : separator ∉ piece := by
  induction text generalizing piece with
  | nil =>
      rw [List.mem_singleton.mp member]
      exact List.not_mem_nil
  | cons c rest inductionHypothesis =>
      by_cases separates : c = separator
      · simp only [cut, if_pos separates] at member
        rcases List.mem_cons.mp member with rfl | later
        · exact List.not_mem_nil
        · exact inductionHypothesis later
      · simp only [cut, if_neg separates] at member
        rcases List.mem_cons.mp member with rfl | later
        · exact List.not_mem_cons_of_ne_of_not_mem (Ne.symm separates) (inductionHypothesis List.mem_cons_self)
        · exact inductionHypothesis (List.mem_cons_of_mem _ later)

theorem pieces_of_not_mem {separator : Char} {text : String} (absent : separator ∉ text.toList) :
    pieces separator text = [text] := by
  rw [pieces, cut_of_not_mem absent]
  exact congrArg (fun only => [only]) String.ofList_toList

/-! ## Lines -/

theorem segments_of_not_mem {line : String} (oneLine : '\n' ∉ line.toList) : segments line = [line] :=
  pieces_of_not_mem oneLine

theorem segments_append {line : String} (oneLine : '\n' ∉ line.toList) (rest : String) :
    segments (line ++ "\n" ++ rest) = line :: segments rest := by
  have spelled : (line ++ "\n" ++ rest).toList = line.toList ++ '\n' :: rest.toList := by
    rw [String.toList_append, String.toList_append, List.append_assoc]
    rfl
  rw [segments, pieces, spelled, cut_append oneLine]
  exact congrArg (· :: segments rest) String.ofList_toList

theorem not_mem_of_mem_segments {text line : String} (member : line ∈ segments text) : '\n' ∉ line.toList := by
  rcases List.mem_map.mp member with ⟨piece, found, rfl⟩
  rw [String.toList_ofList]
  exact not_mem_of_mem_cut found

/-- Reading lines only ever takes characters away. -/
theorem exists_segment_of_mem_settle {segments : List String} {line : String} (member : line ∈ settle segments) :
    ∃ segment ∈ segments, line.toList ⊆ segment.toList := by
  induction segments with
  | nil => cases member
  | cons first rest inductionHypothesis =>
      cases rest with
      | nil =>
          rw [settle] at member
          split at member
          · cases member
          · exact ⟨line, member, List.Subset.refl _⟩
      | cons next others =>
          rw [settle] at member
          · rcases List.mem_cons.mp member with rfl | later
            · refine ⟨first, List.mem_cons_self, ?_⟩
              rw [dropCarriageReturn]
              split
              · rw [String.toList_ofList]
                exact List.dropLast_subset _
              · exact List.Subset.refl _
            · rcases inductionHypothesis later with ⟨segment, inRest, subset⟩
              exact ⟨segment, List.mem_cons_of_mem _ inRest, subset⟩
          · exact List.cons_ne_nil _ _

theorem not_mem_of_mem_lines {text line : String} (member : line ∈ lines text) : '\n' ∉ line.toList := by
  rcases exists_segment_of_mem_settle member with ⟨segment, found, subset⟩
  exact fun feed => not_mem_of_mem_segments found (subset feed)

/-- Lines that each end with a line feed are read back. -/
theorem lines_join {texts : List String} (oneLine : ∀ text ∈ texts, '\n' ∉ text.toList)
    (noReturn : ∀ text ∈ texts, text.toList.getLast? ≠ some '\r') :
    lines (String.join (texts.map (· ++ "\n"))) = texts := by
  induction texts with
  | nil => rfl
  | cons text rest inductionHypothesis =>
      have later := inductionHypothesis (fun other member => oneLine other (List.mem_cons_of_mem _ member))
        fun other member => noReturn other (List.mem_cons_of_mem _ member)
      have joined : String.join ((text :: rest).map (· ++ "\n")) =
          text ++ "\n" ++ String.join (rest.map (· ++ "\n")) := by
        rw [List.map_cons, String.join_cons]
      rw [lines] at later ⊢
      rw [joined, segments_append (oneLine text List.mem_cons_self), settle, later, dropCarriageReturn,
        if_neg (noReturn text List.mem_cons_self)]
      exact fun empty => by
        have := congrArg List.length empty
        simp [segments, pieces] at this

/-! ## Texts on one line -/

/-- Whether nothing in the text ends the line that it stands on. -/
def IsOneLine (text : String) : Prop :=
  '\n' ∉ text.toList ∧ '\r' ∉ text.toList

instance (text : String) : Decidable (IsOneLine text) :=
  inferInstanceAs (Decidable (_ ∧ _))

theorem isOneLine_append {front back : String} :
    IsOneLine (front ++ back) ↔ IsOneLine front ∧ IsOneLine back := by
  rw [IsOneLine, IsOneLine, IsOneLine, String.toList_append, List.mem_append, List.mem_append, not_or, not_or,
    and_and_and_comm]

theorem IsOneLine.of_subset {part whole : String} (oneLine : IsOneLine whole)
    (subset : part.toList ⊆ whole.toList) : IsOneLine part :=
  ⟨fun feed => oneLine.1 (subset feed), fun back => oneLine.2 (subset back)⟩

theorem isOneLine_intercalate {separator : String} (between : IsOneLine separator) {texts : List String} :
    IsOneLine (separator.intercalate texts) ↔ ∀ text ∈ texts, IsOneLine text := by
  induction texts with
  | nil =>
      have empty : IsOneLine "" := by decide
      exact iff_of_true empty (List.forall_mem_nil _)
  | cons text rest inductionHypothesis =>
      rw [List.forall_mem_cons]
      cases rest with
      | nil => rw [String.intercalate_singleton, and_iff_left (List.forall_mem_nil _)]
      | cons next others =>
          rw [String.intercalate_cons_cons, isOneLine_append, isOneLine_append, inductionHypothesis,
            and_iff_left between]

/-- The lines of a text as an interpreter counts them, where a carriage return ends a line
too, by itself or together with a line feed. -/
def physicalLines (text : String) : List String :=
  (lines text).flatMap (pieces '\r')

theorem cut_append_separator (separator : Char) (front back : List Char) :
    cut separator (front ++ separator :: back) =
      ((cut separator front).1, (cut separator front).2 ++ (cut separator back).1 :: (cut separator back).2) := by
  induction front with
  | nil => exact if_pos rfl
  | cons c rest inductionHypothesis =>
      rw [List.cons_append, cut, inductionHypothesis, cut]
      dsimp only
      split <;> rfl

theorem segments_append_feed (front back : String) :
    segments (front ++ "\n" ++ back) = segments front ++ segments back := by
  have spelled : (front ++ "\n" ++ back).toList = front.toList ++ '\n' :: back.toList := by
    rw [String.toList_append, String.toList_append, List.append_assoc]
    rfl
  rw [segments, pieces, spelled, cut_append_separator]
  change List.map String.ofList (((cut '\n' front.toList).1 :: (cut '\n' front.toList).2) ++ _) = _
  rw [List.map_append]
  rfl

theorem settle_append (front : List String) {back : List String} (nonempty : back ≠ []) :
    settle (front ++ back) = front.map dropCarriageReturn ++ settle back := by
  induction front with
  | nil => rfl
  | cons line rest inductionHypothesis =>
      have behind := List.append_ne_nil_of_right_ne_nil rest nonempty
      rw [List.cons_append, settle, inductionHypothesis, List.map_cons, List.cons_append]
      exact behind

theorem lines_append_feed (front back : String) :
    lines (front ++ "\n" ++ back) = (segments front).map dropCarriageReturn ++ lines back := by
  rw [lines, segments_append_feed]
  exact settle_append _ (List.cons_ne_nil _ _)

/-- What stands before a line feed does not change the lines behind it, nor the other way
round. -/
theorem physicalLines_append_feed (front back : String) :
    physicalLines (front ++ "\n" ++ back) = physicalLines (front ++ "\n") ++ physicalLines back := by
  have alone := lines_append_feed front ""
  rw [String.append_empty] at alone
  have none : lines "" = [] := by decide
  rw [none, List.append_nil] at alone
  rw [physicalLines, physicalLines, physicalLines, lines_append_feed, alone, List.flatMap_append]

theorem physicalLines_between_feeds (front middle back : String) :
    physicalLines (front ++ "\n" ++ middle ++ "\n" ++ back) =
      physicalLines (front ++ "\n") ++ (physicalLines (middle ++ "\n") ++ physicalLines back) := by
  have first := physicalLines_append_feed front (middle ++ "\n")
  rw [← String.append_assoc] at first
  rw [physicalLines_append_feed, first, List.append_assoc]

theorem physicalLines_of_isOneLine {line : String} (oneLine : IsOneLine line) :
    physicalLines (line ++ "\n") = [line] := by
  have whole := lines_append_feed line ""
  have kept : dropCarriageReturn line = line :=
    if_neg fun last => oneLine.2 (List.mem_of_getLast? last)
  rw [String.append_empty, segments_of_not_mem oneLine.1, List.map_singleton, kept] at whole
  have single : pieces '\r' line = [line] := pieces_of_not_mem oneLine.2
  have none : lines "" = [] := by decide
  rw [none, List.append_nil] at whole
  rw [physicalLines, whole, List.flatMap_singleton, single]

/-! ## White space -/

theorem skipSeparators_subset (text : List Char) : skipSeparators text ⊆ text :=
  (List.dropWhile_sublist isSeparator).subset

theorem trimEnd_subset (text : List Char) : trimEnd text ⊆ text := by
  intro c member
  exact List.mem_reverse.mp ((List.dropWhile_sublist isWhiteSpace).subset (List.mem_reverse.mp member))

theorem trim_subset (text : List Char) : trim text ⊆ text :=
  List.Subset.trans (trimEnd_subset _) (List.dropWhile_sublist isWhiteSpace).subset

/-- White space at the end is trimmed away. -/
theorem trim_append {text gap : List Char} (white : ∀ c ∈ gap, isWhiteSpace c = true) :
    trim (text ++ gap) = trim text := by
  have reversed : ∀ c ∈ gap.reverse, isWhiteSpace c = true := fun c member => white c (List.mem_reverse.mp member)
  have ends (front : List Char) : trimEnd (front ++ gap) = trimEnd front := by
    rw [trimEnd, trimEnd, List.reverse_append, List.dropWhile_append_of_pos reversed]
  rw [trim, trim, List.dropWhile_append]
  split
  · rename_i blank
    rw [List.isEmpty_iff.mp blank, List.dropWhile_eq_nil_iff.mpr white]
  · exact ends _

theorem trim_trimEnd (text : List Char) : trim (trimEnd text) = trim text := by
  have white : ∀ c ∈ (text.reverse.takeWhile isWhiteSpace).reverse, isWhiteSpace c = true := by
    intro c member
    exact List.all_eq_true.mp List.all_takeWhile c (List.mem_reverse.mp member)
  have whole : trimEnd text ++ (text.reverse.takeWhile isWhiteSpace).reverse = text := by
    rw [trimEnd, ← List.reverse_append, List.takeWhile_append_dropWhile, List.reverse_reverse]
  rw [← trim_append white, whole]

theorem exists_eq_append_skipSeparators (text : List Char) :
    ∃ gap, text = gap ++ skipSeparators text ∧ ∀ c ∈ gap, isSeparator c = true :=
  ⟨text.takeWhile isSeparator, List.takeWhile_append_dropWhile.symm, List.all_eq_true.mp List.all_takeWhile⟩

theorem trim_skipSeparators (text : List Char) : trim (skipSeparators text) = trim text := by
  rcases exists_eq_append_skipSeparators text with ⟨gap, whole, separators⟩
  have white : ∀ c ∈ gap, isWhiteSpace c = true := fun c member => isWhiteSpace_of_isSeparator (separators c member)
  have passed : (gap ++ skipSeparators text).dropWhile isWhiteSpace =
      (skipSeparators text).dropWhile isWhiteSpace := List.dropWhile_append_of_pos white
  rw [← whole] at passed
  rw [trim, trim, passed]

/-! ## Inline texts -/

/-- Whether the text fills a line by itself. -/
structure IsInline (text : List Char) : Prop where
  first : ∃ c rest, text = c :: rest ∧ isWhiteSpace c = false
  last : ∃ front c, text = front ++ [c] ∧ isWhiteSpace c = false
  oneLine : '\n' ∉ text

namespace IsInline

variable {text front gap back : List Char}

theorem join (left : IsInline front) (noFeed : '\n' ∉ gap) (right : IsInline back) :
    IsInline (front ++ (gap ++ back)) where
  first := by
    rcases left.first with ⟨c, rest, rfl, black⟩
    exact ⟨c, rest ++ (gap ++ back), rfl, black⟩
  last := by
    rcases right.last with ⟨begin, c, rfl, black⟩
    exact ⟨front ++ (gap ++ begin), c, by simp only [List.append_assoc], black⟩
  oneLine := by
    simp only [List.mem_append, not_or]
    exact ⟨left.oneLine, noFeed, right.oneLine⟩

theorem skipSeparators (isInline : IsInline text) : Text.skipSeparators text = text := by
  rcases isInline.first with ⟨c, rest, rfl, black⟩
  apply List.dropWhile_cons_of_neg
  intro separator
  rw [isWhiteSpace_of_isSeparator separator] at black
  cases black

theorem trimEnd (isInline : IsInline text) : Text.trimEnd text = text := by
  rcases isInline.last with ⟨front, c, rfl, black⟩
  rw [Text.trimEnd, List.reverse_append, List.reverse_singleton, List.singleton_append,
    List.dropWhile_cons_of_neg (Bool.eq_false_iff.mp black), List.reverse_cons, List.reverse_reverse]

theorem trim (isInline : IsInline text) : Text.trim text = text := by
  have start : text.dropWhile isWhiteSpace = text := by
    rcases isInline.first with ⟨c, rest, rfl, black⟩
    exact List.dropWhile_cons_of_neg (Bool.eq_false_iff.mp black)
  rw [Text.trim, start, isInline.trimEnd]

theorem isBlank (isInline : IsInline text) : Text.isBlank text = false := by
  rcases isInline.first with ⟨c, rest, rfl, black⟩
  rw [Text.isBlank, List.all_cons, black, Bool.false_and]

theorem getLast? (isInline : IsInline text) : text.getLast? ≠ some '\r' := by
  rcases isInline.last with ⟨front, c, rfl, black⟩
  rw [List.getLast?_concat]
  rintro same
  cases same
  cases black

end IsInline

end Text
end PredictiveParsing
