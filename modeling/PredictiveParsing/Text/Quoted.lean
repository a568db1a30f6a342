import PredictiveParsing.Text.Unprintable

namespace PredictiveParsing
namespace Text

/-!
# Quoted text

Each target language has literals of its own, with a backslash before whatever cannot
stand in them as it is.

Between the double quotes of Python, line feeds, tabs and carriage returns have letters
of their own, and every other control character is written with exactly two hexadecimal
digits, so a digit after it is never read as part of it.

In the string and character literals of Rust every unprintable character is spelled by
its code in braces.  Each kind of literal escapes its own delimiter only.  In a string
the character NUL is a backslash and a zero, unless an octal digit follows and would be
read with it; then it has two hexadecimal digits.
-/

/-! ## Text between double quotes -/

/-- The digit of a number below sixteen, in lower case. -/
def hexDigit (value : Nat) : Char :=
  if value < 10 then Char.ofNat (48 + value) else Char.ofNat (87 + value)

/-- The control characters, which are those from U+0000 to U+001F and from
U+007F to U+009F. -/
def isControl (c : Char) : Bool :=
  c.toNat < 0x20 || (0x7F ≤ c.toNat && c.toNat ≤ 0x9F)

/-- A character as it stands between the quotes. -/
def quotedCharacter (c : Char) : List Char :=
  if c = '\\' then ['\\', '\\']
  else if c = '"' then ['\\', '"']
  else if c = '\n' then ['\\', 'n']
  else if c = '\t' then ['\\', 't']
  else if c = '\r' then ['\\', 'r']
  else if isControl c then ['\\', 'x', hexDigit (c.toNat / 16), hexDigit (c.toNat % 16)]
  else [c]

/-- The text between double quotes. -/
def quoted (text : String) : String :=
  String.ofList ('"' :: text.toList.flatMap quotedCharacter ++ ['"'])

/-! ## Escaped literals -/

/-- A character by its code, in lower case and without leading zeros. -/
def codeEscape (c : Char) : List Char :=
  ['\\', 'u', '\x7b'] ++ Nat.toDigits 16 c.toNat ++ ['\x7d']

/-- A character inside a literal that both kinds of quote delimit. -/
def escapedCharacter (c : Char) : List Char :=
  if c = '\x00' then ['\\', '0']
  else if c = '\t' then ['\\', 't']
  else if c = '\r' then ['\\', 'r']
  else if c = '\n' then ['\\', 'n']
  else if c = '\'' then ['\\', '\'']
  else if c = '"' then ['\\', '"']
  else if c = '\\' then ['\\', '\\']
  else if isUnprintable c then codeEscape c
  else [c]

/-- Whether the text goes on with a digit that an octal escape would take in. -/
def startsWithOctalDigit : List Char -> Bool
  | [] => false
  | c :: _ => '0' ≤ c && c ≤ '7'

/-- The characters of a string literal, without its quotes. -/
def stringBody : List Char -> List Char
  | [] => []
  | c :: rest =>
      let spelling :=
        if c = '\'' then ['\'']
        else if c = '\x00' && startsWithOctalDigit rest then ['\\', 'x', '0', '0']
        else escapedCharacter c
      spelling ++ stringBody rest

def stringLiteral (text : String) : String :=
  String.ofList ('"' :: stringBody text.toList ++ ['"'])

def characterLiteral (c : Char) : String :=
  String.ofList ('\'' :: (if c = '"' then ['"'] else escapedCharacter c) ++ ['\''])

end Text
end PredictiveParsing
