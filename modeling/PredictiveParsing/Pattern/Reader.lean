import PredictiveParsing.Pattern.Basic
import PredictiveParsing.Text.WhiteSpace

namespace PredictiveParsing

/-!
# Reading rule text

An expression is made of alternatives between bars, an alternative of one factor
or more, and a factor is an atom with at most one question mark after it.  Atoms
are words, quoted and bracketed words and expressions in parentheses, words are as
long as possible, and quoted text may hold anything but a quote, line feeds
included.  Separators may stand around all of them.

Each of these has a reader of its own.  It answers with what it finds at the front
of a text and with the text after it, and takes as much as it can: an alternative
goes on while factors follow, and an expression while a bar follows with an
alternative behind it.  A reader uses up at least one character, which is why
reading ends.
-/

namespace Text

/-- What has been read at the front of a text. -/
structure Taken (α : Type) (text : List Char) where
  value : α
  /-- The text after what has been read. -/
  rest : List Char
  shorter : rest.length < text.length

namespace Taken

variable {α β : Type} {text : List Char}

def map (change : α -> β) (taken : Taken α text) : Taken β text :=
  ⟨change taken.value, taken.rest, taken.shorter⟩

/-- What is read after something else has been read. -/
def andThen (first : Taken α text) (later : Taken β first.rest) : Taken β text :=
  ⟨later.value, later.rest, Nat.lt_trans later.shorter first.shorter⟩

/-- What is read after some characters have been skipped. -/
def skipped {keep : Char -> Bool} (taken : Taken α (text.dropWhile keep)) : Taken α text :=
  ⟨taken.value, taken.rest,
    Nat.lt_of_lt_of_le taken.shorter (List.dropWhile_sublist keep).length_le⟩

/-- What is read, with what is read after it if anything is. -/
def followedBy (first : Taken α text) : Option (Taken (List α) first.rest) -> Taken (List α) text
  | some others => (first.andThen others).map (first.value :: ·)
  | none => first.map ([·])

end Taken

end Text

namespace Lexeme

open Text (Taken)

/-- The characters that never stand in a word, white space apart. -/
def isReserved (c : Char) : Bool :=
  ['|', '(', ')', '"', '<', '>', '?', '+', '*'].contains c

def isWordCharacter (c : Char) : Bool :=
  !Text.isWhiteSpace c && !isReserved c

def nonEmpty? (characters : List Char) : Option String :=
  if characters.isEmpty then none else some (String.ofList characters)

theorem length_dropWhile_lt {keep : Char -> Bool} {text : List Char} {taken : String}
    (nonempty : nonEmpty? (text.takeWhile keep) = some taken) :
    (text.dropWhile keep).length < text.length := by
  have whole : (text.takeWhile keep ++ text.dropWhile keep).length = text.length :=
    congrArg List.length List.takeWhile_append_dropWhile
  cases front : text.takeWhile keep with
  | nil =>
      rw [front] at nonempty
      cases nonempty
  | cons c others =>
      rw [front, List.length_append, List.length_cons] at whole
      omega

def symbol? (symbol : Char) : (text : List Char) -> Option (Taken Unit text)
  | [] => none
  | c :: rest => if c = symbol then some ⟨(), rest, Nat.lt_succ_self rest.length⟩ else none

def word? (text : List Char) : Option (Taken String text) :=
  match nonempty : nonEmpty? (text.takeWhile isWordCharacter) with
  | none => none
  | some name => some ⟨name, text.dropWhile isWordCharacter, length_dropWhile_lt nonempty⟩

end Lexeme

namespace Pattern

open Lexeme (symbol? word? nonEmpty?)
open Text (Taken skipSeparators)

/-- Reads text between quotes. -/
def terminal? (text : List Char) : Option (Taken Pattern text) := do
  let opening ← symbol? '"' text
  let closing ← symbol? '"' (opening.rest.dropWhile (· != '"'))
  let content ← nonEmpty? (opening.rest.takeWhile (· != '"'))
  return (opening.andThen closing.skipped).map fun _ => literal content

/-- Reads a word between angle brackets. -/
def token? (text : List Char) : Option (Taken Pattern text) := do
  let opening ← symbol? '<' text
  let name ← word? opening.rest
  let closing ← symbol? '>' name.rest
  return (opening.andThen (name.andThen closing)).map fun _ => tokenClass name.value

/-- What a bare word means: the epsilon marker or a reference. -/
def ofWord (name : String) : Pattern :=
  if name = Terminal.epsilonText then epsilon else .reference name

/-- Reads a word that stands on its own. -/
def nonterminal? (text : List Char) : Option (Taken Pattern text) := do
  let name ← word? text
  return name.map ofWord

mutual

/-- Reads an expression in parentheses. -/
def group? (text : List Char) : Option (Taken Pattern text) := do
  let opening ← symbol? '(' text
  let content ← expression? (skipSeparators opening.rest)
  let closing ← symbol? ')' (skipSeparators content.rest)
  return (opening.andThen (content.andThen closing.skipped).skipped).map fun _ => content.value
termination_by 7 * text.length
decreasing_by
  have shorter := opening.shorter
  have skipped := Text.length_skipSeparators_le opening.rest
  omega

def atom? (text : List Char) : Option (Taken Pattern text) :=
  terminal? text <|> token? text <|> group? text <|> nonterminal? text
termination_by 7 * text.length + 1

/-- Reads an atom, and the question mark after it if there is one. -/
def factor? (text : List Char) : Option (Taken Pattern text) := do
  let atom ← atom? text
  match symbol? '?' (skipSeparators atom.rest) with
  | some mark => return (atom.andThen mark.skipped).map fun _ => .optional atom.value
  | none => return atom
termination_by 7 * text.length + 2

/-- Reads factors, as many as there are. -/
def factors? (text : List Char) : Option (Taken (List Pattern) text) := do
  let first ← factor? (skipSeparators text)
  return (first.followedBy (factors? first.rest)).skipped
termination_by 7 * text.length + 3
decreasing_by
  · have skipped := Text.length_skipSeparators_le text
    omega
  · have shorter : first.rest.length < text.length := first.skipped.shorter
    omega

def term? (text : List Char) : Option (Taken Pattern text) := do
  let factors ← factors? text
  return factors.map inOrder
termination_by 7 * text.length + 4

/-- Reads alternatives, as many as there are with bars between them. -/
def terms? (text : List Char) : Option (Taken (List Pattern) text) := do
  let first ← term? text
  return first.followedBy (laterTerms? first.rest)
termination_by 7 * text.length + 5
decreasing_by
  · omega
  · have shorter := first.shorter
    omega

/-- Reads a bar and the alternatives behind it. -/
def laterTerms? (text : List Char) : Option (Taken (List Pattern) text) := do
  let bar ← symbol? '|' (skipSeparators text)
  let terms ← terms? (skipSeparators bar.rest)
  return (bar.andThen terms.skipped).skipped
termination_by 7 * text.length
decreasing_by
  have shorter : bar.rest.length < text.length := bar.skipped.shorter
  have skipped := Text.length_skipSeparators_le bar.rest
  omega

def expression? (text : List Char) : Option (Taken Pattern text) := do
  let alternatives ← terms? text
  return alternatives.map oneOf
termination_by 7 * text.length + 6

end

/-- The pattern that a rule's text describes, if it is well formed. -/
def read? (text : String) : Option Pattern := do
  let content ← expression? (skipSeparators text.toList)
  if (skipSeparators content.rest).isEmpty then some content.value else none

end Pattern
end PredictiveParsing
