import Mathlib.Data.List.TakeWhile
import PredictiveParsing.Pattern.Reader

namespace PredictiveParsing

/-!
# Lexemes

Rule text is a run of lexemes, with any number of separators around each.  A lexeme
is written in one way only, and what has to be decided is where a word ends: it goes
on as long as it can, so that two words in a row need a separator between them, while
all other lexemes end by themselves.  A text is a way to write one list of lexemes at
most.

The readers of words and of quoted and bracketed words find a lexeme exactly where the
text goes on with it.
-/

/-- The smallest meaningful pieces of rule text. -/
inductive Lexeme where
  /-- Text between double quotes. -/
  | quoted (text : String)
  /-- A word between angle brackets. -/
  | bracketed (name : String)
  | word (name : String)
  | opening
  | closing
  /-- The bar between alternatives. -/
  | bar
  /-- The question mark after an optional factor. -/
  | mark
deriving DecidableEq

namespace Lexeme

/-! ## Writing lexemes -/

/-- Whether the text is a word: characters of words, and at least one of them. -/
def IsWord (text : String) : Prop :=
  text ≠ "" ∧ ∀ c ∈ text.toList, isWordCharacter c = true

/-- Whether the text can stand between quotes. -/
def IsQuotable (text : String) : Prop :=
  text ≠ "" ∧ '"' ∉ text.toList

/-- Whether the lexeme holds a text that it can be read with. -/
def WellFormed : Lexeme -> Prop
  | .quoted text => IsQuotable text
  | .bracketed name | .word name => IsWord name
  | .opening | .closing | .bar | .mark => True

def characters : Lexeme -> List Char
  | .quoted text => '"' :: (text.toList ++ ['"'])
  | .bracketed name => '<' :: (name.toList ++ ['>'])
  | .word name => name.toList
  | .opening => ['(']
  | .closing => [')']
  | .bar => ['|']
  | .mark => ['?']

/-- Whether the lexeme ends before the text.  Only a word could go on. -/
def EndsBefore : Lexeme -> List Char -> Prop
  | .word _, after => ∀ c, after.head? = some c -> isWordCharacter c = false
  | _, _ => True

/-- Whether the text is a way to write the lexemes. -/
inductive Writes : List Lexeme -> List Char -> Prop where
  | blank {gap : List Char} (separators : ∀ c ∈ gap, Text.isSeparator c = true) : Writes [] gap
  | lexeme {gap after : List Char} {lexeme : Lexeme} {rest : List Lexeme}
      (separators : ∀ c ∈ gap, Text.isSeparator c = true) (wellFormed : lexeme.WellFormed)
      (ends : lexeme.EndsBefore after) (later : Writes rest after) :
      Writes (lexeme :: rest) (gap ++ (lexeme.characters ++ after))

namespace Writes

theorem wellFormed {lexemes : List Lexeme} {text : List Char} (writes : Writes lexemes text) :
    ∀ lexeme ∈ lexemes, lexeme.WellFormed := by
  induction writes with
  | blank _ =>
      intro lexeme member
      cases member
  | lexeme _ wellFormed _ _ inductionHypothesis => exact List.forall_mem_cons.mpr ⟨wellFormed, inductionHypothesis⟩

theorem cons {lexeme : Lexeme} {later : List Lexeme} {after : List Char} (wellFormed : lexeme.WellFormed)
    (ends : lexeme.EndsBefore after) (writes : Writes later after) :
    Writes (lexeme :: later) (lexeme.characters ++ after) := by
  have written : Writes (lexeme :: later) ([] ++ (lexeme.characters ++ after)) := .lexeme nofun wellFormed ends writes
  exact written

theorem single {lexeme : Lexeme} (wellFormed : lexeme.WellFormed) : Writes [lexeme] lexeme.characters := by
  have ends : lexeme.EndsBefore [] := by
    cases lexeme with
    | word name =>
        intro c first
        cases first
    | _ => trivial
  have written : Writes [lexeme] (lexeme.characters ++ []) := cons wellFormed ends (.blank nofun)
  rw [List.append_nil] at written
  exact written

/-- Separators may stand in front. -/
theorem prepend {lexemes : List Lexeme} {text gap : List Char} (writes : Writes lexemes text)
    (separators : ∀ c ∈ gap, Text.isSeparator c = true) : Writes lexemes (gap ++ text) := by
  cases writes with
  | blank more => exact .blank (List.forall_mem_append.mpr ⟨separators, more⟩)
  | lexeme more wellFormed ends later =>
      rw [← List.append_assoc]
      exact .lexeme (List.forall_mem_append.mpr ⟨separators, more⟩) wellFormed ends later

theorem space {lexemes : List Lexeme} {text : List Char} (writes : Writes lexemes text) :
    Writes lexemes (' ' :: text) :=
  writes.prepend (List.forall_mem_singleton.mpr rfl)

/-- Texts are put one after the other with a space between them, which ends a word. -/
theorem append {front back : List Lexeme} {text other : List Char} (first : Writes front text)
    (later : Writes back other) : Writes (front ++ back) (text ++ ' ' :: other) := by
  induction first with
  | blank separators => exact later.space.prepend separators
  | @lexeme gap after lexeme rest separators wellFormed ends _ inductionHypothesis =>
      rw [List.append_assoc, List.append_assoc]
      refine .lexeme separators wellFormed ?_ inductionHypothesis
      cases lexeme with
      | word name =>
          intro c first
          cases after with
          | nil =>
              cases first
              rfl
          | cons head tail => exact ends c first
      | _ => trivial

end Writes

/-! ## Lexemes are unique -/

/-- A text is cut where the kept characters end. -/
theorem eq_append_iff_takeWhile {keep : Char -> Bool} {text front after : List Char} :
    (text = front ++ after ∧ (∀ c ∈ front, keep c = true) ∧ ∀ c, after.head? = some c -> keep c = false) ↔
      text.takeWhile keep = front ∧ text.dropWhile keep = after := by
  constructor
  · rintro ⟨rfl, kept, stops⟩
    rw [List.takeWhile_append_of_pos kept, List.dropWhile_append_of_pos kept]
    cases after with
    | nil => exact ⟨List.append_nil front, rfl⟩
    | cons c after =>
        have stop := Bool.eq_false_iff.mp (stops c rfl)
        rw [List.takeWhile_cons_of_neg stop, List.dropWhile_cons_of_neg stop]
        exact ⟨List.append_nil front, rfl⟩
  · rintro ⟨rfl, rfl⟩
    refine ⟨List.takeWhile_append_dropWhile.symm, List.all_eq_true.mp List.all_takeWhile, ?_⟩
    intro c first
    have stop := List.head?_dropWhile_not keep text
    rw [first] at stop
    exact stop

theorem eq_of_append {keep : Char -> Bool} {front other after behind : List Char}
    (kept : ∀ c ∈ front, keep c = true) (otherKept : ∀ c ∈ other, keep c = true)
    (stops : ∀ c, after.head? = some c -> keep c = false)
    (otherStops : ∀ c, behind.head? = some c -> keep c = false) (same : front ++ after = other ++ behind) :
    front = other ∧ after = behind := by
  rcases eq_append_iff_takeWhile.mp ⟨rfl, kept, stops⟩ with ⟨taken, dropped⟩
  rcases eq_append_iff_takeWhile.mp ⟨same, otherKept, otherStops⟩ with ⟨otherTaken, otherDropped⟩
  exact ⟨taken.symm.trans otherTaken, dropped.symm.trans otherDropped⟩

theorem isWordCharacter_eq_false_of_isReserved {c : Char} (reserved : isReserved c = true) :
    isWordCharacter c = false := by
  rw [isWordCharacter, reserved, Bool.not_true, Bool.and_false]

theorem isWordCharacter_eq_false_of_isSeparator {c : Char} (separator : Text.isSeparator c = true) :
    isWordCharacter c = false := by
  rw [isWordCharacter, Text.isWhiteSpace_of_isSeparator separator, Bool.not_true, Bool.false_and]

/-- The reserved character that a lexeme begins with, unless it is a word. -/
def sign : Lexeme -> Option Char
  | .quoted _ => some '"'
  | .bracketed _ => some '<'
  | .word _ => none
  | .opening => some '('
  | .closing => some ')'
  | .bar => some '|'
  | .mark => some '?'

/-- The first character tells whether a lexeme is a word, and which other one it can be. -/
theorem WellFormed.sign_eq {lexeme : Lexeme} (wellFormed : lexeme.WellFormed) (after : List Char) :
    ∃ c others, lexeme.characters ++ after = c :: others ∧
      lexeme.sign = if isReserved c then some c else none := by
  cases lexeme with
  | word name =>
      cases spelled : name.toList with
      | nil => exact absurd (String.toList_eq_nil_iff.mp spelled) wellFormed.1
      | cons c others =>
          have inWord := wellFormed.2 c (spelled ▸ List.mem_cons_self)
          have free : isReserved c = false := by
            by_contra reserved
            rw [isWordCharacter_eq_false_of_isReserved (eq_true_of_ne_false reserved)] at inWord
            cases inWord
          refine ⟨c, others ++ after, ?_, ?_⟩
          · rw [characters, spelled, List.cons_append]
          · rw [free]
            rfl
  | _ => exact ⟨_, _, rfl, rfl⟩

theorem sign_eq_of_append {left right : Lexeme} {after behind : List Char} (wellFormed : left.WellFormed)
    (otherWellFormed : right.WellFormed) (same : left.characters ++ after = right.characters ++ behind) :
    left.sign = right.sign := by
  rcases wellFormed.sign_eq after with ⟨c, others, begins, sign⟩
  rcases otherWellFormed.sign_eq behind with ⟨d, rest, otherBegins, otherSign⟩
  rw [begins, otherBegins, List.cons.injEq] at same
  rw [sign, otherSign, same.1]

theorem IsQuotable.ne_quote {text : String} (quotable : IsQuotable text) :
    ∀ c ∈ text.toList, (c != '"') = true := by
  intro c member
  exact bne_iff_ne.mpr fun quote => quotable.2 (quote ▸ member)

theorem stops_cons {keep : Char -> Bool} {symbol : Char} (stop : keep symbol = false) (after : List Char) :
    ∀ c, (symbol :: after).head? = some c -> keep c = false := by
  intro c first
  cases first
  exact stop

/-- The first lexeme of a text is determined, and so is the text after it. -/
theorem eq_of_characters_append {left right : Lexeme} {after behind : List Char}
    (wellFormed : left.WellFormed) (otherWellFormed : right.WellFormed) (ends : left.EndsBefore after)
    (otherEnds : right.EndsBefore behind) (same : left.characters ++ after = right.characters ++ behind) :
    left = right ∧ after = behind := by
  have signs := sign_eq_of_append wellFormed otherWellFormed same
  cases left with
  | quoted text =>
      cases right with
      | quoted other =>
          rw [characters, characters, List.cons_append, List.cons_append, List.append_assoc, List.append_assoc] at same
          rcases eq_of_append wellFormed.ne_quote otherWellFormed.ne_quote (stops_cons rfl after)
            (stops_cons rfl behind) (List.cons.inj same).2 with ⟨texts, rests⟩
          exact ⟨congrArg quoted (String.toList_inj.mp texts), (List.cons.inj rests).2⟩
      | _ => simp [sign] at signs
  | bracketed name =>
      cases right with
      | bracketed other =>
          rw [characters, characters, List.cons_append, List.cons_append, List.append_assoc, List.append_assoc] at same
          rcases eq_of_append wellFormed.2 otherWellFormed.2 (stops_cons rfl after) (stops_cons rfl behind)
            (List.cons.inj same).2 with ⟨names, rests⟩
          exact ⟨congrArg bracketed (String.toList_inj.mp names), (List.cons.inj rests).2⟩
      | _ => simp [sign] at signs
  | word name =>
      cases right with
      | word other =>
          rcases eq_of_append wellFormed.2 otherWellFormed.2 ends otherEnds same with ⟨names, rests⟩
          exact ⟨congrArg word (String.toList_inj.mp names), rests⟩
      | _ => cases signs
  | opening =>
      cases right with
      | opening => exact ⟨rfl, (List.cons.inj same).2⟩
      | _ => simp [sign] at signs
  | closing =>
      cases right with
      | closing => exact ⟨rfl, (List.cons.inj same).2⟩
      | _ => simp [sign] at signs
  | bar =>
      cases right with
      | bar => exact ⟨rfl, (List.cons.inj same).2⟩
      | _ => simp [sign] at signs
  | mark =>
      cases right with
      | mark => exact ⟨rfl, (List.cons.inj same).2⟩
      | _ => simp [sign] at signs

/-- A lexeme does not begin with a separator. -/
theorem WellFormed.skipSeparators {lexeme : Lexeme} (wellFormed : lexeme.WellFormed) {gap : List Char}
    (separators : ∀ c ∈ gap, Text.isSeparator c = true) (after : List Char) :
    Text.skipSeparators (gap ++ (lexeme.characters ++ after)) = lexeme.characters ++ after := by
  refine (eq_append_iff_takeWhile.mp ⟨rfl, separators, ?_⟩).2
  intro c first
  cases lexeme with
  | word name =>
      cases spelled : name.toList with
      | nil => exact absurd (String.toList_eq_nil_iff.mp spelled) wellFormed.1
      | cons head others =>
          rw [characters, spelled] at first
          cases first
          by_contra separator
          have inWord := wellFormed.2 c (spelled ▸ List.mem_cons_self)
          rw [isWordCharacter_eq_false_of_isSeparator (eq_true_of_ne_false separator)] at inWord
          cases inWord
  | _ =>
      cases first
      rfl

namespace Writes

theorem skipSeparators_eq_nil {text : List Char} (writes : Writes [] text) : Text.skipSeparators text = [] := by
  cases writes with
  | blank separators => exact List.dropWhile_eq_nil_iff.mpr separators

theorem exists_after {lexeme : Lexeme} {later : List Lexeme} {text : List Char}
    (writes : Writes (lexeme :: later) text) :
    ∃ after, Text.skipSeparators text = lexeme.characters ++ after ∧ lexeme.WellFormed ∧
      lexeme.EndsBefore after ∧ Writes later after := by
  cases writes with
  | lexeme separators wellFormed ends later =>
      exact ⟨_, wellFormed.skipSeparators separators _, wellFormed, ends, later⟩

theorem of_skipSeparators {lexemes : List Lexeme} {text : List Char}
    (writes : Writes lexemes (Text.skipSeparators text)) : Writes lexemes text := by
  rw [← List.takeWhile_append_dropWhile (p := Text.isSeparator) (l := text)]
  exact writes.prepend (List.all_eq_true.mp List.all_takeWhile)

theorem skipSeparators {lexemes : List Lexeme} {text : List Char} (writes : Writes lexemes text) :
    Writes lexemes (Text.skipSeparators text) := by
  cases lexemes with
  | nil =>
      rw [writes.skipSeparators_eq_nil]
      exact .blank nofun
  | cons lexeme later =>
      rcases writes.exists_after with ⟨after, skipped, wellFormed, ends, behind⟩
      rw [skipped]
      exact behind.cons wellFormed ends

/-- No text is a way to write two lists of lexemes. -/
theorem unique {left right : List Lexeme} {text : List Char} (writes : Writes left text)
    (otherWrites : Writes right text) : left = right := by
  induction left generalizing right text with
  | nil =>
      cases right with
      | nil => rfl
      | cons lexeme later =>
          rcases otherWrites.exists_after with ⟨after, skipped, wellFormed, _, _⟩
          rcases wellFormed.sign_eq after with ⟨c, others, begins, _⟩
          rw [writes.skipSeparators_eq_nil, begins] at skipped
          cases skipped
  | cons first rest inductionHypothesis =>
      rcases writes.exists_after with ⟨after, skipped, wellFormed, ends, later⟩
      cases right with
      | nil =>
          rcases wellFormed.sign_eq after with ⟨c, others, begins, _⟩
          rw [otherWrites.skipSeparators_eq_nil, begins] at skipped
          cases skipped
      | cons other others =>
          rcases otherWrites.exists_after with ⟨behind, otherSkipped, otherWellFormed, otherEnds, otherLater⟩
          rcases eq_of_characters_append wellFormed otherWellFormed ends otherEnds
            (skipped.symm.trans otherSkipped) with ⟨rfl, rfl⟩
          rw [inductionHypothesis later otherLater]

end Writes

/-! ## Reading lexemes -/

open Text (Taken)

/-- Whether the value has been found, and the text after it. -/
def Finds {α : Type} {text : List Char} (found : Option (Taken α text)) (value : α) (after : List Char) : Prop :=
  ∃ reading, found = some reading ∧ reading.value = value ∧ reading.rest = after

theorem nonEmpty?_eq_some_iff {characters : List Char} {text : String} :
    nonEmpty? characters = some text ↔ characters = text.toList ∧ text ≠ "" := by
  rw [nonEmpty?, Option.ite_none_left_eq_some, Option.some.injEq, List.isEmpty_iff]
  constructor
  · rintro ⟨nonempty, rfl⟩
    exact ⟨String.toList_ofList.symm, fun empty => nonempty (String.ofList_eq_empty_iff.mp empty)⟩
  · rintro ⟨rfl, nonempty⟩
    exact ⟨fun empty => nonempty (String.toList_eq_nil_iff.mp empty), String.ofList_toList⟩

section

variable {text after : List Char}

theorem finds_symbol_iff {symbol : Char} : Finds (symbol? symbol text) () after ↔ text = symbol :: after := by
  constructor
  · rintro ⟨reading, found, -, rfl⟩
    cases text with
    | nil => cases found
    | cons c rest =>
        rcases Option.ite_none_right_eq_some.mp found with ⟨rfl, same⟩
        cases same
        rfl
  · rintro rfl
    exact ⟨_, if_pos rfl, rfl, rfl⟩

/-- A word goes on as long as it can. -/
theorem finds_word_iff {name : String} :
    Finds (word? text) name after ↔
      text = name.toList ++ after ∧ IsWord name ∧ ∀ c, after.head? = some c -> isWordCharacter c = false := by
  constructor
  · rintro ⟨reading, found, rfl, rfl⟩
    rw [word?] at found
    split at found
    · cases found
    · rename_i name nonempty
      cases found
      rcases nonEmpty?_eq_some_iff.mp nonempty with ⟨taken, nonempty⟩
      rcases eq_append_iff_takeWhile.mpr ⟨taken, rfl⟩ with ⟨whole, kept, stops⟩
      exact ⟨whole, ⟨nonempty, kept⟩, stops⟩
  · rintro ⟨whole, isWord, stops⟩
    rcases eq_append_iff_takeWhile.mp ⟨whole, isWord.2, stops⟩ with ⟨taken, dropped⟩
    have nonempty := nonEmpty?_eq_some_iff.mpr ⟨taken, isWord.1⟩
    rw [word?]
    split
    · rename_i absent
      cases nonempty.symm.trans absent
    · rename_i found present
      cases nonempty.symm.trans present
      exact ⟨_, rfl, rfl, dropped⟩

open Pattern (terminal? token? nonterminal?)

/-- A quoted text begins where its closing quote is found. -/
theorem finds_terminal_iff {pattern : Pattern} :
    Finds (terminal? text) pattern after ↔
      ∃ content, IsQuotable content ∧ pattern = .literal content ∧ text = (quoted content).characters ++ after := by
  constructor
  · rintro ⟨reading, found, rfl, rfl⟩
    rcases Option.bind_eq_some_iff.mp found with ⟨opening, opens, found⟩
    rcases Option.bind_eq_some_iff.mp found with ⟨closing, closes, found⟩
    rcases Option.bind_eq_some_iff.mp found with ⟨content, nonempty, found⟩
    cases found
    rcases nonEmpty?_eq_some_iff.mp nonempty with ⟨taken, nonempty⟩
    have begins := finds_symbol_iff.mp ⟨opening, opens, rfl, rfl⟩
    have ends := finds_symbol_iff.mp ⟨closing, closes, rfl, rfl⟩
    rcases eq_append_iff_takeWhile.mpr ⟨taken, ends⟩ with ⟨whole, kept, _⟩
    refine ⟨content, ⟨nonempty, fun quote => absurd (kept _ quote) (by decide)⟩, rfl, ?_⟩
    exact begins.trans ((congrArg ('"' :: ·) whole).trans
      (List.append_assoc ('"' :: content.toList) ['"'] closing.rest).symm)
  · rintro ⟨content, quotable, rfl, whole⟩
    have begins : text = '"' :: (content.toList ++ '"' :: after) :=
      whole.trans (List.append_assoc ('"' :: content.toList) ['"'] after)
    rcases finds_symbol_iff.mpr begins with ⟨opening, opens, -, behind⟩
    rcases eq_append_iff_takeWhile.mp ⟨behind, quotable.ne_quote, stops_cons rfl after⟩ with ⟨taken, dropped⟩
    rcases finds_symbol_iff.mpr dropped with ⟨closing, closes, -, ends⟩
    have nonempty := nonEmpty?_eq_some_iff.mpr ⟨taken, quotable.1⟩
    exact ⟨_, Option.bind_eq_some_iff.mpr ⟨opening, opens, Option.bind_eq_some_iff.mpr ⟨closing, closes,
      Option.bind_eq_some_iff.mpr ⟨content, nonempty, rfl⟩⟩⟩, rfl, ends⟩

/-- A bracketed name begins where the bracket closes right after it. -/
theorem finds_token_iff {pattern : Pattern} :
    Finds (token? text) pattern after ↔
      ∃ name, IsWord name ∧ pattern = .tokenClass name ∧ text = (bracketed name).characters ++ after := by
  constructor
  · rintro ⟨reading, found, rfl, rfl⟩
    rcases Option.bind_eq_some_iff.mp found with ⟨opening, opens, found⟩
    rcases Option.bind_eq_some_iff.mp found with ⟨name, named, found⟩
    rcases Option.bind_eq_some_iff.mp found with ⟨closing, closes, found⟩
    cases found
    have begins := finds_symbol_iff.mp ⟨opening, opens, rfl, rfl⟩
    have ends := finds_symbol_iff.mp ⟨closing, closes, rfl, rfl⟩
    rcases finds_word_iff.mp ⟨name, named, rfl, rfl⟩ with ⟨whole, isWord, _⟩
    refine ⟨name.value, isWord, rfl, ?_⟩
    rw [ends] at whole
    exact begins.trans ((congrArg ('<' :: ·) whole).trans
      (List.append_assoc ('<' :: name.value.toList) ['>'] closing.rest).symm)
  · rintro ⟨name, isWord, rfl, whole⟩
    have begins : text = '<' :: (name.toList ++ '>' :: after) :=
      whole.trans (List.append_assoc ('<' :: name.toList) ['>'] after)
    rcases finds_symbol_iff.mpr begins with ⟨opening, opens, -, behind⟩
    rcases finds_word_iff.mpr ⟨behind, isWord, stops_cons rfl _⟩ with ⟨word, named, same, bracket⟩
    rcases finds_symbol_iff.mpr bracket with ⟨closing, closes, -, ends⟩
    exact ⟨_, Option.bind_eq_some_iff.mpr ⟨opening, opens, Option.bind_eq_some_iff.mpr ⟨word, named,
      Option.bind_eq_some_iff.mpr ⟨closing, closes, rfl⟩⟩⟩, congrArg Pattern.tokenClass same, ends⟩

theorem finds_nonterminal_iff {pattern : Pattern} :
    Finds (nonterminal? text) pattern after ↔
      ∃ name, (word name).WellFormed ∧ (word name).EndsBefore after ∧ pattern = .ofWord name ∧
        text = (word name).characters ++ after := by
  constructor
  · rintro ⟨reading, found, rfl, rfl⟩
    rcases Option.bind_eq_some_iff.mp found with ⟨name, named, found⟩
    cases found
    rcases finds_word_iff.mp ⟨name, named, rfl, rfl⟩ with ⟨whole, isWord, stops⟩
    exact ⟨name.value, isWord, stops, rfl, whole⟩
  · rintro ⟨name, isWord, stops, rfl, whole⟩
    rcases finds_word_iff.mpr ⟨whole, isWord, stops⟩ with ⟨word, named, rfl, rfl⟩
    exact ⟨_, Option.bind_eq_some_iff.mpr ⟨word, named, rfl⟩, rfl, rfl⟩

end

end Lexeme
end PredictiveParsing
