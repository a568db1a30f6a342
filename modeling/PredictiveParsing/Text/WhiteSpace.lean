namespace PredictiveParsing
namespace Text

/-!
# White space

Two different sets of characters separate things in grammar text.  Unicode
white space ends a word and is trimmed away at the ends of a rule's text.  Only
the four separators may stand between the lexemes of a rule, so a form feed or
a no-break space ends a word without being skipped afterwards.

Main statement: every separator is white space.
-/

/-- The Unicode property `White_Space`. -/
def isWhiteSpace (c : Char) : Bool :=
  let code := c.toNat
  (0x9 ≤ code && code ≤ 0xD) || code == 0x20 || code == 0x85 || code == 0xA0 || code == 0x1680 ||
    (0x2000 ≤ code && code ≤ 0x200A) || code == 0x2028 || code == 0x2029 || code == 0x202F ||
    code == 0x205F || code == 0x3000

/-- A space, a tab, a line feed or a carriage return. -/
def isSeparator (c : Char) : Bool :=
  c == ' ' || c == '\t' || c == '\n' || c == '\r'

theorem isWhiteSpace_of_isSeparator {c : Char} (separator : isSeparator c = true) :
    isWhiteSpace c = true := by
  simp only [isSeparator, Bool.or_eq_true, beq_iff_eq] at separator
  rcases separator with ((rfl | rfl) | rfl) | rfl <;> decide

def isBlank (text : List Char) : Bool :=
  text.all isWhiteSpace

def trimEnd (text : List Char) : List Char :=
  (text.reverse.dropWhile isWhiteSpace).reverse

def trim (text : List Char) : List Char :=
  trimEnd (text.dropWhile isWhiteSpace)

/-- The text without the separators at its start. -/
def skipSeparators (text : List Char) : List Char :=
  text.dropWhile isSeparator

theorem length_skipSeparators_le (text : List Char) : (skipSeparators text).length ≤ text.length :=
  (List.dropWhile_sublist isSeparator).length_le

end Text
end PredictiveParsing
