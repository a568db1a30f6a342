import PredictiveParsing.Pattern.Reader
import PredictiveParsing.Proofs.LexemeText

namespace PredictiveParsing
namespace RuleText

/-!
# The grammar of rule text

An expression is one alternative or more with bars between them, an alternative is
one factor or more, and a factor is an atom with or without a question mark.  Atoms
are words, quoted and bracketed words and expressions in parentheses.  A syntax tree
says how a text follows this grammar, and the pattern of the text is built along the
tree.

No text has two trees: an atom shows where it ends, a factor ends where no question
mark follows, and an alternative ends at a bar, at a closing parenthesis or with the
text.  Each reader finds a tree of its kind at the front of a text exactly where there
is one, so the texts that can be read are those that have the tree of an expression,
and the pattern is the one of the tree.
-/

/-! ## Syntax trees -/

mutual

/-- A piece of rule text that is a factor by itself. -/
inductive Atom where
  | quoted (text : String)
  | bracketed (name : String)
  | word (name : String)
  | group (content : Expression)

/-- An atom with or without a question mark after it. -/
inductive Factor where
  | plain (atom : Atom)
  | marked (atom : Atom)

/-- One factor or more, one after the other. -/
inductive Alternative where
  | last (factor : Factor)
  | more (factor : Factor) (rest : Alternative)

/-- One alternative or more, with bars between them. -/
inductive Expression where
  | last (alternative : Alternative)
  | more (alternative : Alternative) (rest : Expression)

end

mutual

def Atom.lexemes : Atom -> List Lexeme
  | .quoted text => [.quoted text]
  | .bracketed name => [.bracketed name]
  | .word name => [.word name]
  | .group content => .opening :: (content.lexemes ++ [.closing])

def Factor.lexemes : Factor -> List Lexeme
  | .plain atom => atom.lexemes
  | .marked atom => atom.lexemes ++ [.mark]

def Alternative.lexemes : Alternative -> List Lexeme
  | .last factor => factor.lexemes
  | .more factor rest => factor.lexemes ++ rest.lexemes

def Expression.lexemes : Expression -> List Lexeme
  | .last alternative => alternative.lexemes
  | .more alternative rest => alternative.lexemes ++ .bar :: rest.lexemes

end

mutual

def Atom.pattern : Atom -> Pattern
  | .quoted text => .literal text
  | .bracketed name => .tokenClass name
  | .word name => if name = Terminal.epsilonText then .epsilon else .reference name
  | .group content => .oneOf content.patterns

def Factor.pattern : Factor -> Pattern
  | .plain atom => atom.pattern
  | .marked atom => .optional atom.pattern

def Alternative.patterns : Alternative -> List Pattern
  | .last factor => [factor.pattern]
  | .more factor rest => factor.pattern :: rest.patterns

def Expression.patterns : Expression -> List Pattern
  | .last alternative => [.inOrder alternative.patterns]
  | .more alternative rest => .inOrder alternative.patterns :: rest.patterns

end

/-- The pattern that an expression describes. -/
def Expression.pattern (expression : Expression) : Pattern :=
  .oneOf expression.patterns

/-- Whether the text is a way to write the expression. -/
def Expression.IsWrittenAs (expression : Expression) (text : String) : Prop :=
  Lexeme.Writes expression.lexemes text.toList

theorem Alternative.patterns_ne_nil (alternative : Alternative) : alternative.patterns ≠ [] := by
  cases alternative <;> rw [Alternative.patterns] <;> exact List.cons_ne_nil _ _

/-! ## Trees are unique -/

/-- Whether an atom can begin with the lexeme. -/
def BeginsAtom : Lexeme -> Prop
  | .quoted _ | .bracketed _ | .word _ | .opening => True
  | .closing | .bar | .mark => False

theorem Atom.exists_first (atom : Atom) :
    ∃ first others, atom.lexemes = first :: others ∧ BeginsAtom first := by
  cases atom with
  | quoted text => exact ⟨.quoted text, [], by rw [Atom.lexemes], trivial⟩
  | bracketed name => exact ⟨.bracketed name, [], by rw [Atom.lexemes], trivial⟩
  | word name => exact ⟨.word name, [], by rw [Atom.lexemes], trivial⟩
  | group content => exact ⟨.opening, content.lexemes ++ [.closing], by rw [Atom.lexemes], trivial⟩

theorem Factor.exists_first (factor : Factor) :
    ∃ first others, factor.lexemes = first :: others ∧ BeginsAtom first := by
  cases factor with
  | plain atom =>
      rw [Factor.lexemes]
      exact atom.exists_first
  | marked atom =>
      rcases atom.exists_first with ⟨first, others, begins, beginsAtom⟩
      exact ⟨first, others ++ [.mark], by rw [Factor.lexemes, begins, List.cons_append], beginsAtom⟩

theorem Alternative.exists_first (alternative : Alternative) :
    ∃ first others, alternative.lexemes = first :: others ∧ BeginsAtom first := by
  cases alternative with
  | last factor =>
      rw [Alternative.lexemes]
      exact factor.exists_first
  | more factor rest =>
      rcases factor.exists_first with ⟨first, others, begins, beginsAtom⟩
      exact ⟨first, others ++ rest.lexemes, by rw [Alternative.lexemes, begins, List.cons_append], beginsAtom⟩

/-- Whether the lexemes after an alternative begin in a way that ends it. -/
def EndsAlternative (after : List Lexeme) : Prop :=
  ∀ lexeme, after.head? = some lexeme -> lexeme = .bar ∨ lexeme = .closing

/-- Whether the lexemes after an expression begin in a way that ends it. -/
def EndsExpression (after : List Lexeme) : Prop :=
  ∀ lexeme, after.head? = some lexeme -> lexeme = .closing

theorem EndsExpression.endsAlternative {after : List Lexeme} (ends : EndsExpression after) :
    EndsAlternative after :=
  fun lexeme first => Or.inr (ends lexeme first)

theorem endsAlternative_bar (after : List Lexeme) : EndsAlternative (.bar :: after) := by
  intro lexeme first
  cases first
  exact Or.inl rfl

theorem EndsAlternative.head?_ne_mark {after : List Lexeme} (ends : EndsAlternative after) :
    after.head? ≠ some .mark := by
  intro mark
  rcases ends _ mark with impossible | impossible <;> cases impossible

theorem EndsAlternative.ne_append {after other : List Lexeme} (ends : EndsAlternative after)
    (alternative : Alternative) : after ≠ alternative.lexemes ++ other := by
  rintro rfl
  rcases alternative.exists_first with ⟨first, others, begins, beginsAtom⟩
  rw [begins] at ends
  rcases ends first rfl with rfl | rfl <;> exact beginsAtom

theorem Alternative.head?_append_ne_mark (alternative : Alternative) (after : List Lexeme) :
    (alternative.lexemes ++ after).head? ≠ some .mark := by
  rcases alternative.exists_first with ⟨first, others, begins, beginsAtom⟩
  rw [begins]
  intro mark
  cases mark
  exact beginsAtom

mutual

theorem Atom.eq_of_append :
    ∀ (left right : Atom) {after other : List Lexeme}, left.lexemes ++ after = right.lexemes ++ other ->
      left = right ∧ after = other
  | .quoted text, right, after, other, same => by
      cases right <;> rw [Atom.lexemes, Atom.lexemes] at same <;> cases same
      exact ⟨rfl, rfl⟩
  | .bracketed name, right, after, other, same => by
      cases right <;> rw [Atom.lexemes, Atom.lexemes] at same <;> cases same
      exact ⟨rfl, rfl⟩
  | .word name, right, after, other, same => by
      cases right <;> rw [Atom.lexemes, Atom.lexemes] at same <;> cases same
      exact ⟨rfl, rfl⟩
  | .group content, right, after, other, same => by
      cases right with
      | group otherContent =>
          rw [Atom.lexemes, Atom.lexemes, List.cons_append, List.cons_append, List.append_assoc,
            List.append_assoc] at same
          have closes (behind : List Lexeme) : EndsExpression ([.closing] ++ behind) := by
            intro lexeme first
            cases first
            rfl
          have parts := Expression.eq_of_append content otherContent (closes _) (closes _) (List.cons.inj same).2
          exact ⟨congrArg Atom.group parts.1, (List.cons.inj parts.2).2⟩
      | _ =>
          rw [Atom.lexemes, Atom.lexemes] at same
          cases same

theorem Factor.eq_of_append :
    ∀ (left right : Factor) {after other : List Lexeme}, after.head? ≠ some .mark -> other.head? ≠ some .mark ->
      left.lexemes ++ after = right.lexemes ++ other -> left = right ∧ after = other
  | .plain atom, .plain otherAtom, after, other, _, _, same => by
      rw [Factor.lexemes, Factor.lexemes] at same
      have parts := Atom.eq_of_append atom otherAtom same
      exact ⟨congrArg Factor.plain parts.1, parts.2⟩
  | .plain atom, .marked otherAtom, after, other, unmarked, _, same => by
      rw [Factor.lexemes, Factor.lexemes, List.append_assoc] at same
      have parts := Atom.eq_of_append atom otherAtom same
      rw [parts.2] at unmarked
      exact absurd rfl unmarked
  | .marked atom, .plain otherAtom, after, other, _, unmarked, same => by
      rw [Factor.lexemes, Factor.lexemes, List.append_assoc] at same
      have parts := Atom.eq_of_append atom otherAtom same
      rw [← parts.2] at unmarked
      exact absurd rfl unmarked
  | .marked atom, .marked otherAtom, after, other, _, _, same => by
      rw [Factor.lexemes, Factor.lexemes, List.append_assoc, List.append_assoc] at same
      have parts := Atom.eq_of_append atom otherAtom same
      exact ⟨congrArg Factor.marked parts.1, (List.cons.inj parts.2).2⟩

theorem Alternative.eq_of_append :
    ∀ (left right : Alternative) {after other : List Lexeme}, EndsAlternative after -> EndsAlternative other ->
      left.lexemes ++ after = right.lexemes ++ other -> left = right ∧ after = other
  | .last factor, .last otherFactor, after, other, ends, otherEnds, same => by
      rw [Alternative.lexemes, Alternative.lexemes] at same
      have parts := Factor.eq_of_append factor otherFactor ends.head?_ne_mark otherEnds.head?_ne_mark same
      exact ⟨congrArg Alternative.last parts.1, parts.2⟩
  | .last factor, .more otherFactor otherRest, after, other, ends, _, same => by
      rw [Alternative.lexemes, Alternative.lexemes, List.append_assoc] at same
      have parts := Factor.eq_of_append factor otherFactor ends.head?_ne_mark
        (otherRest.head?_append_ne_mark other) same
      exact absurd parts.2 (ends.ne_append otherRest)
  | .more factor rest, .last otherFactor, after, other, _, otherEnds, same => by
      rw [Alternative.lexemes, Alternative.lexemes, List.append_assoc] at same
      have parts := Factor.eq_of_append factor otherFactor (rest.head?_append_ne_mark after)
        otherEnds.head?_ne_mark same
      exact absurd parts.2.symm (otherEnds.ne_append rest)
  | .more factor rest, .more otherFactor otherRest, after, other, ends, otherEnds, same => by
      rw [Alternative.lexemes, Alternative.lexemes, List.append_assoc, List.append_assoc] at same
      have firsts := Factor.eq_of_append factor otherFactor (rest.head?_append_ne_mark after)
        (otherRest.head?_append_ne_mark other) same
      have rests := Alternative.eq_of_append rest otherRest ends otherEnds firsts.2
      exact ⟨congrArg₂ Alternative.more firsts.1 rests.1, rests.2⟩

theorem Expression.eq_of_append :
    ∀ (left right : Expression) {after other : List Lexeme}, EndsExpression after -> EndsExpression other ->
      left.lexemes ++ after = right.lexemes ++ other -> left = right ∧ after = other
  | .last alternative, .last otherAlternative, after, other, ends, otherEnds, same => by
      rw [Expression.lexemes, Expression.lexemes] at same
      have parts := Alternative.eq_of_append alternative otherAlternative ends.endsAlternative
        otherEnds.endsAlternative same
      exact ⟨congrArg Expression.last parts.1, parts.2⟩
  | .last alternative, .more otherAlternative otherRest, after, other, ends, _, same => by
      rw [Expression.lexemes, Expression.lexemes, List.append_assoc] at same
      have parts := Alternative.eq_of_append alternative otherAlternative ends.endsAlternative
        (endsAlternative_bar _) same
      rw [parts.2] at ends
      cases ends _ rfl
  | .more alternative rest, .last otherAlternative, after, other, _, otherEnds, same => by
      rw [Expression.lexemes, Expression.lexemes, List.append_assoc] at same
      have parts := Alternative.eq_of_append alternative otherAlternative (endsAlternative_bar _)
        otherEnds.endsAlternative same
      rw [← parts.2] at otherEnds
      cases otherEnds _ rfl
  | .more alternative rest, .more otherAlternative otherRest, after, other, ends, otherEnds, same => by
      rw [Expression.lexemes, Expression.lexemes, List.append_assoc, List.append_assoc] at same
      have firsts := Alternative.eq_of_append alternative otherAlternative (endsAlternative_bar _)
        (endsAlternative_bar _) same
      have rests := Expression.eq_of_append rest otherRest ends otherEnds (List.cons.inj firsts.2).2
      exact ⟨congrArg₂ Expression.more firsts.1 rests.1, rests.2⟩

end

/-- A list of lexemes has one tree at most. -/
theorem Expression.eq_of_lexemes {left right : Expression} (same : left.lexemes = right.lexemes) :
    left = right := by
  have ends : EndsExpression [] := fun _ impossible => by cases impossible
  have whole : left.lexemes ++ [] = right.lexemes ++ [] := congrArg (· ++ []) same
  exact (Expression.eq_of_append left right ends ends whole).1

/-! ## Readers find the trees of texts -/

open Lexeme (Writes Finds symbol? finds_symbol_iff)
open Pattern (terminal? token? nonterminal? group? atom? factor? factors? term? terms? laterTerms? expression?)
open Text (Taken skipSeparators)

/-- Whether the value has been found in front of a text that writes the lexemes. -/
def Reads {α : Type} {text : List Char} (found : Option (Taken α text)) (value : α) (later : List Lexeme) :
    Prop :=
  ∃ reading, found = some reading ∧ reading.value = value ∧ Writes later reading.rest

section

variable {later : List Lexeme} {text : List Char}

theorem reads_of_finds {α : Type} {found : Option (Taken α text)} {value : α} {after : List Char}
    (finds : Finds found value after) (writes : Writes later after) : Reads found value later := by
  rcases finds with ⟨reading, same, value, rfl⟩
  exact ⟨reading, same, value, writes⟩

theorem reads_symbol {lexeme : Lexeme} {symbol : Char} (alone : lexeme.characters = [symbol])
    (writes : Writes (lexeme :: later) text) : Reads (symbol? symbol (skipSeparators text)) () later := by
  rcases writes.exists_after with ⟨after, skipped, _, _, behind⟩
  rw [alone] at skipped
  exact reads_of_finds (finds_symbol_iff.mpr skipped) behind

/-- A symbol is found only where the first lexeme begins with it. -/
theorem symbol?_eq_none {symbol : Char} (writes : Writes later text)
    (reserved : Lexeme.isReserved symbol = true) (other : later.head?.bind Lexeme.sign ≠ some symbol) :
    symbol? symbol (skipSeparators text) = none := by
  cases found : symbol? symbol (skipSeparators text) with
  | none => rfl
  | some reading =>
      have begins := finds_symbol_iff.mp ⟨reading, found, rfl, rfl⟩
      cases later with
      | nil =>
          cases writes.skipSeparators_eq_nil.symm.trans begins
      | cons lexeme later =>
          rcases writes.exists_after with ⟨after, skipped, wellFormed, _, _⟩
          rcases wellFormed.sign_eq after with ⟨c, others, spelled, sign⟩
          have same := (skipped.trans spelled).symm.trans begins
          rw [(List.cons.inj same).1, reserved] at sign
          exact absurd sign other

theorem nonterminal?_eq_none (writes : Writes later text) (other : ∀ name, later.head? ≠ some (.word name)) :
    nonterminal? (skipSeparators text) = none := by
  cases found : nonterminal? (skipSeparators text) with
  | none => rfl
  | some reading =>
      rcases Lexeme.finds_nonterminal_iff.mp ⟨reading, found, rfl, rfl⟩ with ⟨name, isWord, ends, _, whole⟩
      cases later with
      | nil =>
          rcases isWord.sign_eq reading.rest with ⟨c, others, spelled, _⟩
          cases (writes.skipSeparators_eq_nil.symm.trans whole).trans spelled
      | cons lexeme later =>
          rcases writes.exists_after with ⟨after, skipped, wellFormed, lexemeEnds, _⟩
          have same := Lexeme.eq_of_characters_append wellFormed isWord lexemeEnds ends (skipped.symm.trans whole)
          exact absurd (congrArg some same.1) (other name)

theorem terminal?_eq_none (absent : symbol? '"' text = none) : terminal? text = none := by
  rw [terminal?, absent]
  rfl

theorem token?_eq_none (absent : symbol? '<' text = none) : token? text = none := by
  rw [token?, absent]
  rfl

theorem group?_eq_none (absent : symbol? '(' text = none) : group? text = none := by
  rw [group?, absent]
  rfl

theorem EndsAlternative.sign_ne (ends : EndsAlternative later) {symbol : Char} (notBar : symbol ≠ '|')
    (notClosing : symbol ≠ ')') : later.head?.bind Lexeme.sign ≠ some symbol := by
  cases first : later.head? with
  | none => nofun
  | some lexeme =>
      rcases ends lexeme first with rfl | rfl
      · exact fun same => notBar (Option.some.inj same).symm
      · exact fun same => notClosing (Option.some.inj same).symm

/-- No factor follows where an alternative ends. -/
theorem factors?_eq_none (writes : Writes later text) (ends : EndsAlternative later) : factors? text = none := by
  have noQuote : symbol? '"' (skipSeparators text) = none :=
    symbol?_eq_none writes rfl (ends.sign_ne (by decide) (by decide))
  have noBracket : symbol? '<' (skipSeparators text) = none :=
    symbol?_eq_none writes rfl (ends.sign_ne (by decide) (by decide))
  have noOpening : symbol? '(' (skipSeparators text) = none :=
    symbol?_eq_none writes rfl (ends.sign_ne (by decide) (by decide))
  have noWord : nonterminal? (skipSeparators text) = none := by
    refine nonterminal?_eq_none writes fun name first => ?_
    rcases ends _ first with impossible | impossible <;> cases impossible
  have noAtom : atom? (skipSeparators text) = none := by
    rw [atom?, terminal?_eq_none noQuote, token?_eq_none noBracket, group?_eq_none noOpening, noWord]
    rfl
  rw [factors?, factor?, noAtom]
  rfl

theorem sign_ne_mark (unmarked : later.head? ≠ some .mark) : later.head?.bind Lexeme.sign ≠ some '?' := by
  cases first : later.head? with
  | none => nofun
  | some lexeme =>
      rw [first] at unmarked
      cases lexeme <;> simp_all [Lexeme.sign]

theorem sign_ne_bar (ends : EndsExpression later) : later.head?.bind Lexeme.sign ≠ some '|' := by
  cases first : later.head? with
  | none => nofun
  | some lexeme =>
      rw [ends lexeme first]
      simp [Lexeme.sign]

theorem reads_term {patterns : List Pattern} (reads : Reads (factors? text) patterns later) :
    Reads (term? text) (.inOrder patterns) later := by
  rcases reads with ⟨reading, found, value, behind⟩
  rw [term?, found]
  exact ⟨_, rfl, congrArg Pattern.inOrder value, behind⟩

theorem reads_expression {patterns : List Pattern} (reads : Reads (terms? text) patterns later) :
    Reads (expression? text) (.oneOf patterns) later := by
  rcases reads with ⟨reading, found, value, behind⟩
  rw [expression?, found]
  exact ⟨_, rfl, congrArg Pattern.oneOf value, behind⟩

end

mutual

theorem Atom.reads :
    ∀ (atom : Atom) {later : List Lexeme} {text : List Char}, Writes (atom.lexemes ++ later) text ->
      Reads (atom? (skipSeparators text)) atom.pattern later
  | .quoted content, later, text, writes => by
      rw [Atom.lexemes] at writes
      rcases writes.exists_after with ⟨after, skipped, quotable, _, behind⟩
      rcases Lexeme.finds_terminal_iff.mpr ⟨content, quotable, rfl, skipped⟩ with ⟨reading, found, value, rfl⟩
      rw [atom?, found, Atom.pattern]
      exact ⟨reading, rfl, value, behind⟩
  | .bracketed name, later, text, writes => by
      rw [Atom.lexemes] at writes
      have noQuote := terminal?_eq_none (symbol?_eq_none writes rfl (by simp [Lexeme.sign]))
      rcases writes.exists_after with ⟨after, skipped, isWord, _, behind⟩
      rcases Lexeme.finds_token_iff.mpr ⟨name, isWord, rfl, skipped⟩ with ⟨reading, found, value, rfl⟩
      rw [atom?, noQuote, found, Atom.pattern]
      exact ⟨reading, rfl, value, behind⟩
  | .word name, later, text, writes => by
      rw [Atom.lexemes] at writes
      have noQuote := terminal?_eq_none (symbol?_eq_none writes rfl (by simp [Lexeme.sign]))
      have noBracket := token?_eq_none (symbol?_eq_none writes rfl (by simp [Lexeme.sign]))
      have noOpening := group?_eq_none (symbol?_eq_none writes rfl (by simp [Lexeme.sign]))
      rcases writes.exists_after with ⟨after, skipped, isWord, ends, behind⟩
      rcases Lexeme.finds_nonterminal_iff.mpr ⟨name, isWord, ends, rfl, skipped⟩ with ⟨reading, found, value, rfl⟩
      rw [atom?, noQuote, noBracket, noOpening, found, Atom.pattern]
      exact ⟨reading, rfl, value, behind⟩
  | .group content, later, text, writes => by
      rw [Atom.lexemes, List.cons_append, List.append_assoc] at writes
      have noQuote := terminal?_eq_none (symbol?_eq_none writes rfl (by simp [Lexeme.sign]))
      have noBracket := token?_eq_none (symbol?_eq_none writes rfl (by simp [Lexeme.sign]))
      have closes : EndsExpression ([.closing] ++ later) := by
        intro lexeme first
        cases first
        rfl
      rcases reads_symbol rfl writes with ⟨opening, opens, _, inside⟩
      rcases reads_expression (content.reads closes inside.skipSeparators) with ⟨inner, found, value, afterInner⟩
      rcases reads_symbol rfl afterInner with ⟨closing, closed, _, behind⟩
      have grouped : Reads (group? (skipSeparators text)) (.oneOf content.patterns) later := by
        rw [group?, opens, Option.bind_eq_bind, Option.bind_some, found, Option.bind_eq_bind, Option.bind_some, closed]
        exact ⟨_, rfl, value, behind⟩
      rcases grouped with ⟨reading, found, value, behind⟩
      rw [atom?, noQuote, noBracket, found, Atom.pattern]
      exact ⟨reading, rfl, value, behind⟩

theorem Factor.reads :
    ∀ (factor : Factor) {later : List Lexeme} {text : List Char}, later.head? ≠ some .mark ->
      Writes (factor.lexemes ++ later) text -> Reads (factor? (skipSeparators text)) factor.pattern later
  | .plain atom, later, text, unmarked, writes => by
      rw [Factor.lexemes] at writes
      rcases atom.reads writes with ⟨reading, found, value, behind⟩
      have noMark : symbol? '?' (skipSeparators reading.rest) = none :=
        symbol?_eq_none behind rfl (sign_ne_mark unmarked)
      rw [factor?, found, Option.bind_eq_bind, Option.bind_some, noMark, Factor.pattern]
      exact ⟨reading, rfl, value, behind⟩
  | .marked atom, later, text, _, writes => by
      rw [Factor.lexemes, List.append_assoc] at writes
      rcases atom.reads writes with ⟨reading, found, value, marked⟩
      rcases reads_symbol rfl marked with ⟨mark, marks, _, behind⟩
      rw [factor?, found, Option.bind_eq_bind, Option.bind_some, marks, Factor.pattern]
      exact ⟨_, rfl, congrArg Pattern.optional value, behind⟩

theorem Alternative.reads :
    ∀ (alternative : Alternative) {later : List Lexeme} {text : List Char}, EndsAlternative later ->
      Writes (alternative.lexemes ++ later) text -> Reads (factors? text) alternative.patterns later
  | .last factor, later, text, ends, writes => by
      rw [Alternative.lexemes] at writes
      rcases factor.reads ends.head?_ne_mark writes with ⟨first, found, value, behind⟩
      rw [factors?, found, Option.bind_eq_bind, Option.bind_some, factors?_eq_none behind ends, Alternative.patterns]
      exact ⟨_, rfl, congrArg ([·]) value, behind⟩
  | .more factor rest, later, text, ends, writes => by
      rw [Alternative.lexemes, List.append_assoc] at writes
      rcases factor.reads (rest.head?_append_ne_mark later) writes with ⟨first, found, value, afterFirst⟩
      rcases rest.reads ends afterFirst with ⟨others, foundOthers, values, behind⟩
      rw [factors?, found, Option.bind_eq_bind, Option.bind_some, foundOthers, Alternative.patterns]
      exact ⟨_, rfl, congrArg₂ List.cons value values, behind⟩

theorem Expression.reads :
    ∀ (expression : Expression) {later : List Lexeme} {text : List Char}, EndsExpression later ->
      Writes (expression.lexemes ++ later) text -> Reads (terms? text) expression.patterns later
  | .last alternative, later, text, ends, writes => by
      rw [Expression.lexemes] at writes
      rcases reads_term (alternative.reads ends.endsAlternative writes) with ⟨first, found, value, behind⟩
      have noBar : symbol? '|' (skipSeparators first.rest) = none :=
        symbol?_eq_none behind rfl (sign_ne_bar ends)
      rw [terms?, found, Option.bind_eq_bind, Option.bind_some, laterTerms?, noBar, Expression.patterns]
      exact ⟨_, rfl, congrArg ([·]) value, behind⟩
  | .more alternative rest, later, text, ends, writes => by
      rw [Expression.lexemes, List.append_assoc, List.cons_append] at writes
      rcases reads_term (alternative.reads (endsAlternative_bar _) writes) with ⟨first, found, value, afterFirst⟩
      rcases reads_symbol rfl afterFirst with ⟨bar, bars, _, afterBar⟩
      rcases rest.reads ends afterBar.skipSeparators with ⟨others, foundOthers, values, behind⟩
      rw [terms?, found, Option.bind_eq_bind, Option.bind_some, laterTerms?, bars, Option.bind_eq_bind,
        Option.bind_some, foundOthers, Expression.patterns]
      exact ⟨_, rfl, congrArg₂ List.cons value values, behind⟩

end

/-! ## What readers find has a tree -/

/-- Whether the lexemes are what stands in the text before the rest of the reading. -/
def Covers {α : Type} {text : List Char} (lexemes : List Lexeme) (reading : Taken α text) : Prop :=
  ∀ later, Writes later reading.rest -> Writes (lexemes ++ later) text

section

variable {α β : Type} {text : List Char} {lexemes others : List Lexeme}

theorem Covers.andThen {first : Taken α text} {later : Taken β first.rest} (covers : Covers lexemes first)
    (coversLater : Covers others later) : Covers (lexemes ++ others) (first.andThen later) := by
  intro after writes
  rw [List.append_assoc]
  exact covers _ (coversLater _ writes)

theorem Covers.skipped {reading : Taken α (skipSeparators text)} (covers : Covers lexemes reading) :
    Covers lexemes reading.skipped :=
  fun later writes => (covers later writes).of_skipSeparators

theorem covers_of_eq {lexeme : Lexeme} {reading : Taken α text} (wellFormed : lexeme.WellFormed)
    (ends : lexeme.EndsBefore reading.rest) (whole : text = lexeme.characters ++ reading.rest) :
    Covers [lexeme] reading := by
  intro later writes
  have written := writes.cons wellFormed ends
  exact whole ▸ written

end

theorem covers_symbol {lexeme : Lexeme} {symbol : Char} {text : List Char} {reading : Taken Unit text}
    (found : symbol? symbol text = some reading) (alone : lexeme.characters = [symbol])
    (wellFormed : lexeme.WellFormed) (ends : lexeme.EndsBefore reading.rest) : Covers [lexeme] reading := by
  refine covers_of_eq wellFormed ends ?_
  rw [alone]
  exact finds_symbol_iff.mp ⟨reading, found, rfl, rfl⟩

mutual

theorem exists_of_group? {text : List Char} {reading : Taken Pattern text} (found : group? text = some reading) :
    ∃ atom : Atom, atom.pattern = reading.value ∧ Covers atom.lexemes reading := by
  rw [group?] at found
  rcases Option.bind_eq_some_iff.mp found with ⟨opening, opens, found⟩
  rcases Option.bind_eq_some_iff.mp found with ⟨inner, foundInner, found⟩
  rcases Option.bind_eq_some_iff.mp found with ⟨closing, closes, found⟩
  cases found
  rcases exists_of_expression? foundInner with ⟨content, value, covers⟩
  refine ⟨.group content, ?_, ?_⟩
  · rw [Atom.pattern]
    exact value
  · rw [Atom.lexemes]
    have openingCovers : Covers [.opening] opening := covers_symbol opens rfl trivial trivial
    have closingCovers : Covers [.closing] closing := covers_symbol closes rfl trivial trivial
    exact openingCovers.andThen (covers.andThen closingCovers.skipped).skipped
termination_by 7 * text.length
decreasing_by
  have shorter := opening.shorter
  have skipped := Text.length_skipSeparators_le opening.rest
  omega

theorem exists_of_atom? {text : List Char} {reading : Taken Pattern text} (found : atom? text = some reading) :
    ∃ atom : Atom, atom.pattern = reading.value ∧ Covers atom.lexemes reading := by
  rw [atom?, Option.orElse_eq_orElse, Option.orElse_eq_or, Option.or_eq_some_iff] at found
  rcases found with quoted | ⟨-, found⟩
  · rcases Lexeme.finds_terminal_iff.mp ⟨reading, quoted, rfl, rfl⟩ with ⟨content, quotable, value, whole⟩
    refine ⟨.quoted content, ?_, ?_⟩
    · rw [Atom.pattern, value]
    · rw [Atom.lexemes]
      exact covers_of_eq quotable trivial whole
  · rw [Option.orElse_eq_or, Option.or_eq_some_iff] at found
    rcases found with bracketed | ⟨-, found⟩
    · rcases Lexeme.finds_token_iff.mp ⟨reading, bracketed, rfl, rfl⟩ with ⟨name, isWord, value, whole⟩
      refine ⟨.bracketed name, ?_, ?_⟩
      · rw [Atom.pattern, value]
      · rw [Atom.lexemes]
        exact covers_of_eq isWord trivial whole
    · rw [Option.orElse_eq_or, Option.or_eq_some_iff] at found
      rcases found with grouped | ⟨-, word⟩
      · exact exists_of_group? grouped
      · rcases Lexeme.finds_nonterminal_iff.mp ⟨reading, word, rfl, rfl⟩ with ⟨name, isWord, ends, value, whole⟩
        refine ⟨.word name, ?_, ?_⟩
        · rw [Atom.pattern, value, Pattern.ofWord]
        · rw [Atom.lexemes]
          exact covers_of_eq isWord ends whole
termination_by 7 * text.length + 1

theorem exists_of_factor? {text : List Char} {reading : Taken Pattern text} (found : factor? text = some reading) :
    ∃ factor : Factor, factor.pattern = reading.value ∧ Covers factor.lexemes reading := by
  rw [factor?] at found
  rcases Option.bind_eq_some_iff.mp found with ⟨inner, foundInner, found⟩
  rcases exists_of_atom? foundInner with ⟨atom, value, covers⟩
  cases marks : symbol? '?' (skipSeparators inner.rest) with
  | none =>
      rw [marks] at found
      cases found
      refine ⟨.plain atom, ?_, ?_⟩
      · rw [Factor.pattern, value]
      · rw [Factor.lexemes]
        exact covers
  | some mark =>
      rw [marks] at found
      cases found
      refine ⟨.marked atom, ?_, ?_⟩
      · rw [Factor.pattern, value]
        rfl
      · rw [Factor.lexemes]
        have markCovers : Covers [.mark] mark := covers_symbol marks rfl trivial trivial
        exact covers.andThen markCovers.skipped
termination_by 7 * text.length + 2

theorem exists_of_factors? {text : List Char} {reading : Taken (List Pattern) text}
    (found : factors? text = some reading) :
    ∃ alternative : Alternative, alternative.patterns = reading.value ∧ Covers alternative.lexemes reading := by
  rw [factors?] at found
  rcases Option.bind_eq_some_iff.mp found with ⟨first, foundFirst, found⟩
  cases found
  rcases exists_of_factor? foundFirst with ⟨factor, value, covers⟩
  cases foundOthers : factors? first.rest with
  | none =>
      refine ⟨.last factor, ?_, ?_⟩
      · rw [Alternative.patterns, value]
        rfl
      · rw [Alternative.lexemes]
        exact covers.skipped
  | some others =>
      rcases exists_of_factors? foundOthers with ⟨rest, values, coversOthers⟩
      refine ⟨.more factor rest, ?_, ?_⟩
      · rw [Alternative.patterns, value, values]
        rfl
      · rw [Alternative.lexemes]
        exact (covers.andThen coversOthers).skipped
termination_by 7 * text.length + 3
decreasing_by
  all_goals
    have skipped := Text.length_skipSeparators_le text
    have shorter : first.rest.length < text.length := first.skipped.shorter
    omega

theorem exists_of_term? {text : List Char} {reading : Taken Pattern text} (found : term? text = some reading) :
    ∃ alternative : Alternative,
      .inOrder alternative.patterns = reading.value ∧ Covers alternative.lexemes reading := by
  rw [term?] at found
  rcases Option.bind_eq_some_iff.mp found with ⟨factors, foundFactors, found⟩
  cases found
  rcases exists_of_factors? foundFactors with ⟨alternative, values, covers⟩
  exact ⟨alternative, congrArg Pattern.inOrder values, covers⟩
termination_by 7 * text.length + 4

theorem exists_of_terms? {text : List Char} {reading : Taken (List Pattern) text}
    (found : terms? text = some reading) :
    ∃ expression : Expression, expression.patterns = reading.value ∧ Covers expression.lexemes reading := by
  rw [terms?] at found
  rcases Option.bind_eq_some_iff.mp found with ⟨first, foundFirst, found⟩
  cases found
  rcases exists_of_term? foundFirst with ⟨alternative, value, covers⟩
  cases foundLater : laterTerms? first.rest with
  | none =>
      refine ⟨.last alternative, ?_, ?_⟩
      · rw [Expression.patterns, value]
        rfl
      · rw [Expression.lexemes]
        exact covers
  | some later =>
      rcases exists_of_laterTerms? foundLater with ⟨rest, values, coversLater⟩
      refine ⟨.more alternative rest, ?_, ?_⟩
      · rw [Expression.patterns, value, values]
        rfl
      · rw [Expression.lexemes]
        exact covers.andThen coversLater
termination_by 7 * text.length + 5
decreasing_by
  all_goals
    have shorter := first.shorter
    omega

theorem exists_of_laterTerms? {text : List Char} {reading : Taken (List Pattern) text}
    (found : laterTerms? text = some reading) :
    ∃ rest : Expression, rest.patterns = reading.value ∧ Covers (.bar :: rest.lexemes) reading := by
  rw [laterTerms?] at found
  rcases Option.bind_eq_some_iff.mp found with ⟨bar, bars, found⟩
  rcases Option.bind_eq_some_iff.mp found with ⟨terms, foundTerms, found⟩
  cases found
  rcases exists_of_terms? foundTerms with ⟨rest, values, covers⟩
  have barCovers : Covers [.bar] bar := covers_symbol bars rfl trivial trivial
  exact ⟨rest, values, (barCovers.andThen covers.skipped).skipped⟩
termination_by 7 * text.length
decreasing_by
  have shorter : bar.rest.length < text.length := bar.skipped.shorter
  have skipped := Text.length_skipSeparators_le bar.rest
  omega

theorem exists_of_expression? {text : List Char} {reading : Taken Pattern text}
    (found : expression? text = some reading) :
    ∃ expression : Expression, expression.pattern = reading.value ∧ Covers expression.lexemes reading := by
  rw [expression?] at found
  rcases Option.bind_eq_some_iff.mp found with ⟨alternatives, foundAlternatives, found⟩
  cases found
  rcases exists_of_terms? foundAlternatives with ⟨expression, values, covers⟩
  exact ⟨expression, congrArg Pattern.oneOf values, covers⟩
termination_by 7 * text.length + 6

end

/-! ## Texts -/

theorem Expression.eq_of_isWrittenAs {first second : Expression} {text : String}
    (firstWritten : first.IsWrittenAs text) (secondWritten : second.IsWrittenAs text) : first = second :=
  Expression.eq_of_lexemes (firstWritten.unique secondWritten)

theorem exists_expression_of_read? {text : String} {pattern : Pattern} (read : Pattern.read? text = some pattern) :
    ∃ expression : Expression, expression.IsWrittenAs text ∧ expression.pattern = pattern := by
  rcases Option.bind_eq_some_iff.mp read with ⟨content, found, whole⟩
  rcases Option.ite_none_right_eq_some.mp whole with ⟨blank, same⟩
  cases same
  rcases exists_of_expression? found with ⟨expression, described, covers⟩
  have ends : Writes [] content.rest := .blank (List.dropWhile_eq_nil_iff.mp (List.isEmpty_iff.mp blank))
  have written := (covers [] ends).of_skipSeparators
  rw [List.append_nil] at written
  exact ⟨expression, written, described⟩

theorem read?_of_isWrittenAs {expression : Expression} {text : String} (written : expression.IsWrittenAs text) :
    Pattern.read? text = some expression.pattern := by
  have ends : EndsExpression [] := fun _ impossible => by cases impossible
  rw [Expression.IsWrittenAs, ← List.append_nil expression.lexemes] at written
  rcases reads_expression (expression.reads ends written.skipSeparators) with ⟨content, found, value, behind⟩
  rw [Pattern.read?, found, Option.bind_eq_bind, Option.bind_some, behind.skipSeparators_eq_nil, value]
  rfl

/-- The texts that can be read are those that have a tree.  No text has two, and what
is read is the pattern of the tree. -/
theorem read_iff_isWrittenAs (text : String) :
    (∀ pattern, Pattern.read? text = some pattern ↔
      ∃ expression : Expression, expression.IsWrittenAs text ∧ expression.pattern = pattern) ∧
    ∀ first second : Expression, first.IsWrittenAs text -> second.IsWrittenAs text -> first = second := by
  refine ⟨fun pattern => ⟨exists_expression_of_read?, ?_⟩, fun first second => Expression.eq_of_isWrittenAs⟩
  rintro ⟨expression, written, rfl⟩
  exact read?_of_isWrittenAs written

/-- A group inside an alternative, with separators in some places only. -/
def callText : String := "<NAME>\"(\"(call|¬) ?\")\""

theorem read_iff_isWrittenAs_callText :
    let call : Pattern := .sequence [.tokenClass "NAME", .literal "(",
      .optional (.choice [.reference "call", .epsilon]), .literal ")"]
    Pattern.read? callText = some call ∧
      ∃ expression : Expression, (expression.IsWrittenAs callText ∧ expression.pattern = call) ∧
        ∀ other : Expression, other.IsWrittenAs callText -> other = expression := by
  intro call
  have read : Pattern.read? callText = some call := by decide +kernel
  rcases ((read_iff_isWrittenAs callText).1 call).mp read with ⟨expression, written, described⟩
  exact ⟨read, expression, ⟨written, described⟩, fun other otherWritten =>
    (read_iff_isWrittenAs callText).2 other expression otherWritten written⟩

end RuleText
end PredictiveParsing
