namespace PredictiveParsing
namespace Text

/-!
# Pieces and lines of a text

A text is cut at every occurrence of a separating character, which gives one
piece more than there are separators.  Cut at its line feeds, it has segments.
Reading the segments as lines drops the empty segment after a last line feed, and
one carriage return at the end of every line that a line feed ended.  The last line
may lack its line feed, and then keeps its carriage return.

Main statement: joining the pieces with the separator gives the text back.
-/

/-! ## Pieces -/

/-- The first piece of a text and the pieces after it. -/
def cut (separator : Char) : List Char -> List Char × List (List Char)
  | [] => ([], [])
  | c :: rest =>
      let (first, others) := cut separator rest
      if c = separator then ([], first :: others) else (c :: first, others)

/-- The pieces of a text between the separators, at least one. -/
def pieces (separator : Char) (text : String) : List String :=
  let (first, others) := cut separator text.toList
  (first :: others).map String.ofList

private theorem intercalate_cut (separator : Char) (text : List Char) :
    List.intercalate [separator] ((cut separator text).1 :: (cut separator text).2) = text := by
  induction text with
  | nil => rfl
  | cons c rest inductionHypothesis =>
      by_cases separates : c = separator
      · subst separates
        simp only [cut, if_true]
        rw [List.intercalate_cons_cons, inductionHypothesis]
        rfl
      · simp only [cut, if_neg separates]
        cases others : (cut separator rest).2 with
        | nil => simpa [others] using inductionHypothesis
        | cons second more =>
            rw [others, List.intercalate_cons_cons] at inductionHypothesis
            rw [List.intercalate_cons_cons, List.cons_append, List.cons_append, inductionHypothesis]

theorem intercalate_pieces (separator : Char) (text : String) :
    (String.ofList [separator]).intercalate (pieces separator text) = text := by
  apply String.toList_inj.mp
  rw [String.toList_intercalate, pieces]
  simpa [Function.comp_def] using intercalate_cut separator text.toList

/-! ## Lines -/

/-- The pieces of a text between its line feeds, at least one. -/
def segments (text : String) : List String :=
  pieces '\n' text

/-- One carriage return less at the end, if there is one. -/
def dropCarriageReturn (line : String) : String :=
  if line.toList.getLast? = some '\r' then String.ofList line.toList.dropLast else line

/-- Segments read as lines. -/
def settle : List String -> List String
  | [] => []
  | [last] => if last.isEmpty then [] else [last]
  | line :: rest => dropCarriageReturn line :: settle rest

def lines (text : String) : List String :=
  settle (segments text)

theorem intercalate_segments (text : String) : "\n".intercalate (segments text) = text :=
  intercalate_pieces '\n' text

end Text
end PredictiveParsing
