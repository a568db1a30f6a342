import PredictiveParsing.Proofs.PythonText

namespace PredictiveParsing
namespace Text

/-!
# Reading quoted text

A reader of Python finds by itself where a text between double quotes ends: at the first
double quote that is not part of an escape.  An escape is a backslash with a backslash, a
double quote or one of three letters behind it, or with an `x` and exactly two hexadecimal
digits.  The language has more of them, which no quoted text needs and the reader here
refuses, as it refuses a line that ends inside.

Main statement: a quoted text is read back whatever stands behind it, which is left as it is.
So no two texts are quoted alike, and no quoted text is the beginning of another.
-/

/-- The number that a hexadecimal digit stands for, in upper or in lower case. -/
def hexValue? (c : Char) : Option Nat :=
  if '0' ≤ c ∧ c ≤ '9' then some (c.toNat - 48)
  else if 'a' ≤ c ∧ c ≤ 'f' then some (c.toNat - 87)
  else if 'A' ≤ c ∧ c ≤ 'F' then some (c.toNat - 55)
  else none

/-- The character that a backslash stands for with a single character behind it. -/
def namedCharacter? : Char -> Option Char
  | '\\' => some '\\'
  | '"' => some '"'
  | 'n' => some '\n'
  | 't' => some '\t'
  | 'r' => some '\r'
  | _ => none

/-- Reads to the closing quote, and gives what is quoted and what stands behind the quote. -/
def readToQuote? : List Char -> Option (List Char × List Char)
  | [] => none
  | '"' :: rest => some ([], rest)
  | '\\' :: 'x' :: high :: low :: rest =>
      match hexValue? high, hexValue? low with
      | some first, some second =>
          (readToQuote? rest).map fun (inside, behind) => (Char.ofNat (16 * first + second) :: inside, behind)
      | _, _ => none
  | '\\' :: name :: rest =>
      match namedCharacter? name with
      | some c => (readToQuote? rest).map fun (inside, behind) => (c :: inside, behind)
      | none => none
  | c :: rest =>
      if c = '\n' ∨ c = '\r' then none
      else (readToQuote? rest).map fun (inside, behind) => (c :: inside, behind)

/-- Reads a quoted text, and gives what is quoted and what stands behind it. -/
def readQuoted? (text : String) : Option (String × String) :=
  match text.toList with
  | '"' :: rest => (readToQuote? rest).map fun (inside, behind) => (String.ofList inside, String.ofList behind)
  | _ => none

theorem hexValue?_hexDigit : ∀ value < 16, hexValue? (hexDigit value) = some value := by
  decide

theorem readToQuote?_escape {c : Char} (small : c.toNat < 256) (rest : List Char) :
    readToQuote? ('\\' :: 'x' :: hexDigit (c.toNat / 16) :: hexDigit (c.toNat % 16) :: rest) =
      (readToQuote? rest).map fun (inside, behind) => (c :: inside, behind) := by
  have high := hexValue?_hexDigit (c.toNat / 16) (by omega)
  have low := hexValue?_hexDigit (c.toNat % 16) (by omega)
  have whole : Char.ofNat (16 * (c.toNat / 16) + c.toNat % 16) = c := by
    rw [Nat.div_add_mod]
    exact Char.ofNat_toNat c
  rw [readToQuote?, high, low]
  dsimp only
  rw [whole]

theorem readToQuote?_plain {c : Char} (noQuote : c ≠ '"') (noBackslash : c ≠ '\\') (noFeed : c ≠ '\n')
    (noReturn : c ≠ '\r') (rest : List Char) :
    readToQuote? (c :: rest) = (readToQuote? rest).map fun (inside, behind) => (c :: inside, behind) := by
  rw [readToQuote?, if_neg (not_or.mpr ⟨noFeed, noReturn⟩)]
  · exact noQuote
  · exact fun _ _ _ same => absurd same noBackslash
  · exact fun _ _ same => absurd same noBackslash

/-- A character is read back from what is written for it. -/
theorem readToQuote?_quotedCharacter (c : Char) (rest : List Char) :
    readToQuote? (quotedCharacter c ++ rest) =
      (readToQuote? rest).map fun (inside, behind) => (c :: inside, behind) := by
  by_cases backslash : c = '\\'
  · rw [backslash]
    rfl
  by_cases quote : c = '"'
  · rw [quote]
    rfl
  by_cases feed : c = '\n'
  · rw [feed]
    rfl
  by_cases tab : c = '\t'
  · rw [tab]
    rfl
  by_cases back : c = '\r'
  · rw [back]
    rfl
  rw [quotedCharacter, if_neg backslash, if_neg quote, if_neg feed, if_neg tab, if_neg back]
  split
  · rename_i control
    have bound := lt_of_isControl control
    exact readToQuote?_escape (by omega) rest
  · exact readToQuote?_plain quote backslash feed back rest

/-- The closing quote is the first that the reader takes for one. -/
theorem readToQuote?_flatMap_quotedCharacter (text behind : List Char) :
    readToQuote? (text.flatMap quotedCharacter ++ '"' :: behind) = some (text, behind) := by
  induction text with
  | nil => rfl
  | cons c rest inductionHypothesis =>
      rw [List.flatMap_cons, List.append_assoc, readToQuote?_quotedCharacter, inductionHypothesis]
      rfl

theorem readQuoted?_quoted_append (text behind : String) :
    readQuoted? (quoted text ++ behind) = some (text, behind) := by
  have spelled : (quoted text ++ behind).toList =
      '"' :: (text.toList.flatMap quotedCharacter ++ '"' :: behind.toList) := by
    rw [String.toList_append, quoted, String.toList_ofList, List.append_assoc]
    rfl
  have read := readToQuote?_flatMap_quotedCharacter text.toList behind.toList
  simp only [readQuoted?, spelled, read, Option.map_some, String.ofList_toList]

/-- A quoted text is read back exactly and what stands behind it is left, whatever that is.  So the
quoted text determines the text and where it ends.  No control character stands in it, and
with that no end of a line. -/
theorem quoted_isDelimited (text : String) :
    (∀ behind, readQuoted? (quoted text ++ behind) = some (text, behind)) ∧
    (∀ behind other otherBehind, quoted text ++ behind = quoted other ++ otherBehind ->
      text = other ∧ behind = otherBehind) ∧
    ∀ c ∈ (quoted text).toList, 0x1F < c.toNat ∧ (c.toNat < 0x7F ∨ 0x9F < c.toNat) := by
  refine ⟨readQuoted?_quoted_append text, fun behind other otherBehind same => ?_, fun c member => ?_⟩
  · have read := readQuoted?_quoted_append text behind
    rw [same, readQuoted?_quoted_append] at read
    cases read
    exact ⟨rfl, rfl⟩
  · have written := isControl_of_mem_quoted text c member
    simp only [isControl, Bool.or_eq_false_iff, Bool.and_eq_false_iff, decide_eq_false_iff_not] at written
    omega

-- The digit behind the escape is not read as part of it.
example : quoted "\x074\\" = "\"\\x074\\\\\"" ∧
    readQuoted? "\"\\x074\\\\\", \"next\"" = some ("\x074\\", ", \"next\"") := by
  decide +kernel

end Text
end PredictiveParsing
