import PredictiveParsing.Grammar.Reader
import PredictiveParsing.Proofs.ParserContents
import PredictiveParsing.Proofs.Part
import PredictiveParsing.Proofs.PrintedPattern
import PredictiveParsing.Proofs.TextLines

namespace PredictiveParsing

/-!
# Reading printed grammars

A grammar is printed with one production to a line, so its text can be read again if
no line feed stands in a literal.  A line is split at its name, which ends with a
space although words may hold the characters of the sign `::=`, and the right-hand
side has no white space around it that reading would take away.

All grammars that are read from text can be printed in this way.  What is read again
are the same productions, but with the texts that the roots are printed as in place
of the texts that they were first written as.
-/

/-! ## Characters of read patterns -/

namespace Lexeme

/-- The terminal that a quoted or bracketed lexeme stands for. -/
def leaf? : Lexeme -> Option Terminal
  | .quoted text => some (.literal text)
  | .bracketed name => some (.tokenClass name)
  | _ => none

theorem Writes.characters_subset {lexemes : List Lexeme} {text : List Char} (writes : Writes lexemes text) :
    ∀ lexeme ∈ lexemes, lexeme.characters ⊆ text := by
  induction writes with
  | blank _ =>
      intro lexeme member
      cases member
  | @lexeme gap after lexeme rest _ _ _ _ inductionHypothesis =>
      refine List.forall_mem_cons.mpr ⟨?_, ?_⟩
      · exact List.subset_append_of_subset_right gap (List.subset_append_left lexeme.characters after)
      · intro other member
        exact List.subset_append_of_subset_right gap
          (List.subset_append_of_subset_right lexeme.characters (inductionHypothesis other member))

end Lexeme

namespace Pattern

theorem leaves_terminal_subset (leaf : Terminal) : (Pattern.terminal leaf).leaves ⊆ [leaf] := by
  intro other member
  have same := terminal.inj (List.mem_singleton.mp (mem_leaves.mp member).1)
  exact List.mem_singleton.mpr same

theorem leaves_optional_subset (content : Pattern) : (Pattern.optional content).leaves ⊆ content.leaves := by
  intro leaf member
  rcases mem_leaves.mp member with ⟨inside, real⟩
  rcases List.mem_cons.mp inside with same | deeper
  · cases same
  · exact mem_leaves.mpr ⟨deeper, real⟩

/-- The leaves of a sequence or a choice are those of what it is built from. -/
theorem exists_part_of_mem_leaves {whole : Pattern} {parts : List Pattern} (notLeaf : whole.leaf? = none)
    (built : whole.innerParts = partsOfAll parts) {leaf : Terminal} (member : leaf ∈ whole.leaves) :
    ∃ part ∈ parts, leaf ∈ part.leaves := by
  rcases mem_leaves.mp member with ⟨inside, real⟩
  rcases List.mem_cons.mp inside with same | deeper
  · rw [← same, leaf?_eq_some.mpr ⟨rfl, real⟩] at notLeaf
    cases notLeaf
  · rw [built] at deeper
    rcases mem_partsOfAll.mp deeper with ⟨part, inParts, within⟩
    exact ⟨part, inParts, mem_leaves.mpr ⟨within, real⟩⟩

theorem leaves_inOrder_subset {parts : List Pattern} {leaves : List Terminal}
    (all : ∀ part ∈ parts, part.leaves ⊆ leaves) : (inOrder parts).leaves ⊆ leaves := by
  have each : ∀ factor ∈ parts.flatMap factors, factor.leaves ⊆ leaves := by
    intro factor member
    rcases List.mem_flatMap.mp member with ⟨part, inParts, inFactors⟩
    refine List.Subset.trans ?_ (all part inParts)
    cases part with
    | sequence inner => exact leaves_subset_of_mem_innerParts (factor_mem_innerParts inFactors)
    | _ =>
        rcases List.mem_singleton.mp inFactors with rfl
        exact List.Subset.refl _
  rw [inOrder]
  split
  · rename_i factor single
    exact each factor (single ▸ List.mem_singleton_self factor)
  · exact leaves_sequence_subset.mpr each

theorem leaves_oneOf_subset {parts : List Pattern} {leaves : List Terminal}
    (all : ∀ part ∈ parts, part.leaves ⊆ leaves) : (oneOf parts).leaves ⊆ leaves := by
  have each : ∀ alternative ∈ parts.flatMap alternatives, alternative.leaves ⊆ leaves := by
    intro alternative member
    rcases List.mem_flatMap.mp member with ⟨part, inParts, inAlternatives⟩
    refine List.Subset.trans ?_ (all part inParts)
    cases part with
    | choice inner => exact leaves_subset_of_mem_innerParts (alternative_mem_innerParts inAlternatives)
    | _ =>
        rcases List.mem_singleton.mp inAlternatives with rfl
        exact List.Subset.refl _
  rw [oneOf]
  split
  · rename_i alternative single
    exact each alternative (single ▸ List.mem_singleton_self alternative)
  · intro leaf member
    rcases exists_part_of_mem_leaves rfl rfl member with ⟨alternative, inAlternatives, inAlternative⟩
    exact each alternative inAlternatives inAlternative

end Pattern

namespace RuleText

open Lexeme (leaf?)

mutual

theorem Atom.leaves_subset : ∀ atom : Atom, atom.pattern.leaves ⊆ atom.lexemes.filterMap leaf?
  | .quoted text => by
      rw [Atom.pattern, Atom.lexemes]
      exact Pattern.leaves_terminal_subset (.literal text)
  | .bracketed name => by
      rw [Atom.pattern, Atom.lexemes]
      exact Pattern.leaves_terminal_subset (.tokenClass name)
  | .word name => by
      rw [Atom.pattern]
      split
      · exact List.nil_subset _
      · exact List.nil_subset _
  | .group content => by
      rw [Atom.pattern, Atom.lexemes]
      refine Pattern.leaves_oneOf_subset fun pattern member => ?_
      refine List.Subset.trans (Expression.leaves_subset content pattern member) ?_
      rw [List.filterMap_cons_none rfl, List.filterMap_append]
      exact List.subset_append_left _ _

theorem Factor.leaves_subset : ∀ factor : Factor, factor.pattern.leaves ⊆ factor.lexemes.filterMap leaf?
  | .plain atom => by
      rw [Factor.pattern, Factor.lexemes]
      exact Atom.leaves_subset atom
  | .marked atom => by
      rw [Factor.pattern, Factor.lexemes, List.filterMap_append]
      exact List.subset_append_of_subset_left _
        (List.Subset.trans (Pattern.leaves_optional_subset _) (Atom.leaves_subset atom))

theorem Alternative.leaves_subset : ∀ alternative : Alternative, ∀ pattern ∈ alternative.patterns,
    pattern.leaves ⊆ alternative.lexemes.filterMap leaf?
  | .last factor => by
      rw [Alternative.patterns, Alternative.lexemes]
      exact List.forall_mem_singleton.mpr (Factor.leaves_subset factor)
  | .more factor rest => by
      rw [Alternative.patterns, Alternative.lexemes, List.filterMap_append]
      exact List.forall_mem_cons.mpr
        ⟨List.subset_append_of_subset_left _ (Factor.leaves_subset factor),
        fun pattern member => List.subset_append_of_subset_right _ (Alternative.leaves_subset rest pattern member)⟩

theorem Expression.leaves_subset : ∀ expression : Expression, ∀ pattern ∈ expression.patterns,
    pattern.leaves ⊆ expression.lexemes.filterMap leaf?
  | .last alternative => by
      rw [Expression.patterns, Expression.lexemes]
      exact List.forall_mem_singleton.mpr (Pattern.leaves_inOrder_subset (Alternative.leaves_subset alternative))
  | .more alternative rest => by
      rw [Expression.patterns, Expression.lexemes, List.filterMap_append, List.filterMap_cons_none rfl]
      exact List.forall_mem_cons.mpr
        ⟨List.subset_append_of_subset_left _
          (Pattern.leaves_inOrder_subset (Alternative.leaves_subset alternative)),
        fun pattern member => List.subset_append_of_subset_right _ (Expression.leaves_subset rest pattern member)⟩

end

end RuleText

namespace Pattern

/-- A literal is spelled out in the text that it is read from. -/
theorem literal_subset_of_read? {text : String} {pattern : Pattern} (read : read? text = some pattern)
    {spelled : String} (leaf : .literal spelled ∈ pattern.leaves) : spelled.toList ⊆ text.toList := by
  rcases RuleText.exists_expression_of_read? read with ⟨expression, written, rfl⟩
  have told := leaves_oneOf_subset (RuleText.Expression.leaves_subset expression) leaf
  rcases List.mem_filterMap.mp told with ⟨lexeme, member, same⟩
  have subset := written.characters_subset lexeme member
  cases lexeme with
  | quoted other =>
      cases same
      exact fun c inText => subset (List.mem_cons_of_mem _ (List.mem_append_left _ inText))
  | bracketed _ => cases same
  | word _ | opening | closing | bar | mark => cases same

end Pattern

/-! ## Spellings -/

namespace Pattern

theorem WellFormed.spelling_ne_empty {pattern : Pattern} (wellFormed : pattern.WellFormed) :
    ∀ leaf ∈ pattern.leaves, leaf.spelling ≠ "" := by
  induction wellFormed with
  | @literal text quotable =>
      intro leaf member
      rw [List.mem_singleton.mp (leaves_terminal_subset _ member)]
      exact quotable.1
  | @tokenClass name isWord =>
      intro leaf member
      rw [List.mem_singleton.mp (leaves_terminal_subset _ member)]
      exact isWord.1
  | reference _ _ => exact List.forall_mem_nil _
  | sequence _ _ _ inductionHypothesis =>
      intro leaf member
      rcases exists_part_of_mem_leaves rfl rfl member with ⟨factor, inFactors, inFactor⟩
      exact inductionHypothesis factor inFactors leaf inFactor
  | choice _ _ _ inductionHypothesis =>
      intro leaf member
      rcases exists_part_of_mem_leaves rfl rfl member with ⟨alternative, inAlternatives, inAlternative⟩
      exact inductionHypothesis alternative inAlternatives leaf inAlternative
  | optional _ inductionHypothesis =>
      exact fun leaf member => inductionHypothesis leaf (leaves_optional_subset _ member)

end Pattern

/-! ## Printed patterns fill a line -/

theorem Lexeme.isWhiteSpace_eq_false_of_isWordCharacter {c : Char} (inWord : isWordCharacter c = true) :
    Text.isWhiteSpace c = false := by
  rw [isWordCharacter, Bool.and_eq_true, Bool.not_eq_true'] at inWord
  exact inWord.1

theorem Lexeme.IsWord.isInline {name : String} (isWord : IsWord name) : Text.IsInline name.toList := by
  have black : ∀ c ∈ name.toList, Text.isWhiteSpace c = false := fun c member =>
    isWhiteSpace_eq_false_of_isWordCharacter (isWord.2 c member)
  have nonempty : name.toList ≠ [] := fun empty => isWord.1 (String.toList_eq_nil_iff.mp empty)
  constructor
  · rcases List.exists_cons_of_ne_nil nonempty with ⟨c, rest, spelled⟩
    exact ⟨c, rest, spelled, black c (spelled ▸ List.mem_cons_self)⟩
  · have spelled := (List.dropLast_concat_getLast nonempty).symm
    exact ⟨_, _, spelled, black _ (List.getLast_mem nonempty)⟩
  · intro feed
    cases black _ feed

namespace Pattern

open Text (IsInline)

theorem isInline_enclosed {opening closing : Char} {text : List Char} (first : Text.isWhiteSpace opening = false)
    (last : Text.isWhiteSpace closing = false) (oneLine : '\n' ∉ text) :
    IsInline (opening :: (text ++ [closing])) := by
  refine ⟨⟨opening, _, rfl, first⟩, ⟨opening :: text, closing, rfl, last⟩, ?_⟩
  simp only [List.mem_cons, List.mem_append, List.not_mem_nil, or_false, not_or]
  refine ⟨?_, oneLine, ?_⟩
  · rintro rfl
    cases first
  · rintro rfl
    cases last

theorem isInline_grouped {text : String} (needed : Bool) (inside : IsInline text.toList) :
    IsInline (grouped needed text).toList := by
  cases needed with
  | false => exact inside
  | true =>
      have parenthesized : IsInline ('(' :: ((' ' :: (text.toList ++ [' '])) ++ [')'])) := by
        refine isInline_enclosed rfl rfl ?_
        simp only [List.mem_cons, List.mem_append, List.not_mem_nil, or_false, not_or]
        exact ⟨by decide, inside.oneLine, by decide⟩
      rw [grouped, if_pos rfl, String.toList_append, String.toList_append]
      simpa using parenthesized

theorem isInline_intercalate {separator : String} (noFeed : '\n' ∉ separator.toList) {texts : List String}
    (nonempty : texts ≠ []) (each : ∀ text ∈ texts, IsInline text.toList) :
    IsInline (separator.intercalate texts).toList := by
  induction texts with
  | nil => exact absurd rfl nonempty
  | cons text rest inductionHypothesis =>
      have first := each text List.mem_cons_self
      rw [String.toList_intercalate] at inductionHypothesis ⊢
      cases rest with
      | nil => simpa using first
      | cons next others =>
          have later := inductionHypothesis (List.cons_ne_nil _ _)
            fun other member => each other (List.mem_cons_of_mem _ member)
          rw [List.map_cons, List.map_cons, List.intercalate_cons_cons, List.append_assoc]
          exact first.join noFeed later

/-- Whether no literal of the pattern goes over the end of a line. -/
def HasInlineLiterals (pattern : Pattern) : Prop :=
  ∀ text, .literal text ∈ pattern.leaves -> '\n' ∉ text.toList

theorem HasInlineLiterals.of_mem_innerParts {pattern part : Pattern} (inlineLiterals : pattern.HasInlineLiterals)
    (nested : part ∈ pattern.innerParts) : part.HasInlineLiterals :=
  fun text leaf => inlineLiterals text (leaves_subset_of_mem_innerParts nested leaf)

private theorem isInline_renderParts {parts : List Pattern} {separator : String}
    (noFeed : '\n' ∉ separator.toList) (several : 2 ≤ parts.length)
    (each : ∀ part ∈ parts, IsInline part.render.toList) :
    IsInline (separator.intercalate (renderParts parts)).toList := by
  rw [renderParts_eq_map]
  refine isInline_intercalate noFeed ?_ ?_
  · intro empty
    rw [List.map_eq_nil_iff.mp empty, List.length_nil] at several
    omega
  · intro text member
    rcases List.mem_map.mp member with ⟨part, inParts, rfl⟩
    exact isInline_grouped part.isChoice (each part inParts)

theorem WellFormed.isInline_render {pattern : Pattern} (wellFormed : pattern.WellFormed)
    (inlineLiterals : pattern.HasInlineLiterals) : IsInline pattern.render.toList := by
  induction wellFormed with
  | @literal text _ =>
      rw [Pattern.literal, render, String.toList_append, String.toList_append]
      refine isInline_enclosed rfl rfl ?_
      by_cases marker : text = Terminal.epsilonText
      · rw [marker]
        decide
      · refine inlineLiterals text (mem_leaves.mpr ⟨mem_parts_self _, fun same => marker ?_⟩)
        exact Terminal.literal.inj same
  | @tokenClass name isWord =>
      rw [Pattern.tokenClass, render, String.toList_append, String.toList_append]
      exact isInline_enclosed rfl rfl isWord.isInline.oneLine
  | @reference rule isWord _ =>
      rw [render]
      exact isWord.isInline
  | @sequence factors several _ _ inductionHypothesis =>
      rw [render]
      exact isInline_renderParts (by decide) several fun factor member =>
        inductionHypothesis factor member (inlineLiterals.of_mem_innerParts (factor_mem_innerParts member))
  | @choice alternatives several _ _ inductionHypothesis =>
      rw [render]
      exact isInline_renderParts (by decide) several fun alternative member =>
        inductionHypothesis alternative member (inlineLiterals.of_mem_innerParts (alternative_mem_innerParts member))
  | @optional content _ inductionHypothesis =>
      have inside := inductionHypothesis (inlineLiterals.of_mem_innerParts List.mem_cons_self)
      have mark : IsInline ['?'] := ⟨⟨'?', [], rfl, rfl⟩, ⟨[], '?', rfl, rfl⟩, by decide⟩
      have gap : '\n' ∉ [' '] := by decide
      rw [render, String.toList_append]
      exact (isInline_grouped (!content.isAtom) inside).join gap mark

end Pattern

/-! ## Printable grammars -/

/-- Whether the production can be printed on a line. -/
structure Production.IsPrintable (production : Production) : Prop where
  isWord : Lexeme.IsWord production.name
  wellFormed : production.root.WellFormed
  inlineLiterals : production.root.HasInlineLiterals

/-- Whether every production can be printed on a line. -/
def Grammar.IsPrintable (grammar : Grammar) : Prop :=
  ∀ production ∈ grammar.productions, production.IsPrintable

theorem Grammar.IsPrintable.spelling_ne_empty {grammar : Grammar} (printable : grammar.IsPrintable) :
    ∀ leaf ∈ grammar.leaves, leaf.spelling ≠ "" := by
  intro leaf member
  rcases List.mem_flatMap.mp member with ⟨production, declared, inRoot⟩
  exact (printable production declared).wellFormed.spelling_ne_empty leaf inRoot

namespace Production

variable {production : Production}

theorem toList_render (production : Production) :
    production.render.toList =
      production.name.toList ++ ([' ', ':', ':', '=', ' '] ++ production.root.render.toList) := by
  rw [render, String.toList_append, String.toList_append, List.append_assoc]
  rfl

theorem IsPrintable.isInline (printable : production.IsPrintable) : Text.IsInline production.render.toList := by
  have right := printable.wellFormed.isInline_render printable.inlineLiterals
  rw [toList_render]
  exact printable.isWord.isInline.join (by decide) right

/-- The name ends at the space, and the sign can only be the one that follows. -/
theorem IsPrintable.splitLine? (printable : production.IsPrintable) :
    Grammar.splitLine? production.render = some (production.name, production.root.render) := by
  have right := printable.wellFormed.isInline_render printable.inlineLiterals
  have stops : ∀ c, ([' ', ':', ':', '=', ' '] ++ production.root.render.toList).head? = some c ->
      Lexeme.isWordCharacter c = false := by
    intro c first
    cases first
    rfl
  rcases Lexeme.finds_word_iff.mpr ⟨toList_render production, printable.isWord, stops⟩ with
    ⟨name, found, value, behind⟩
  have rest : Text.skipSeparators ([' ', ':', ':', '=', ' '] ++ production.root.render.toList) =
      ':' :: ':' :: '=' :: ' ' :: production.root.render.toList := rfl
  have text : Text.skipSeparators (' ' :: production.root.render.toList) = production.root.render.toList :=
    (List.dropWhile_cons_of_pos rfl).trans right.skipSeparators
  rw [Grammar.splitLine?, printable.isInline.skipSeparators, found, Option.bind_eq_bind, Option.bind_some]
  simp only [behind, rest, value, text, right.trimEnd, String.ofList_toList]

theorem IsPrintable.read (printable : production.IsPrintable) :
    Declaration.read production.name production.root.render = .ok (.ofProduction production) := by
  have right := printable.wellFormed.isInline_render printable.inlineLiterals
  rw [Declaration.read, right.trim, String.ofList_toList, Production.read,
    Pattern.read?_render_of_wellFormed printable.wellFormed]
  rfl

end Production

namespace Grammar

/-! ## Grammars without errors -/

theorem eq_of_declarations {first second : Grammar} (same : first.declarations = second.declarations) :
    first = second := by
  cases first
  cases second
  cases same
  rfl

/-- What a text is read as can be decided by the declarations. -/
theorem read_eq_ok_of_declarations {text : String} {grammar : Grammar}
    (declarations : (read text).toOption.map (·.declarations) = some grammar.declarations) :
    read text = .ok grammar := by
  cases result : read text with
  | error reason =>
      rw [result] at declarations
      cases declarations
  | ok found =>
      rw [result] at declarations
      rw [eq_of_declarations (Option.some.inj declarations)]

theorem firstRepeated?_of_nodup {names seen : List String} (distinct : names.Nodup)
    (apart : ∀ name ∈ names, name ∉ seen) : firstRepeated? seen names = none := by
  induction names generalizing seen with
  | nil => rfl
  | cons name rest inductionHypothesis =>
      rcases List.nodup_cons.mp distinct with ⟨fresh, distinctRest⟩
      rw [firstRepeated?, if_neg (apart name List.mem_cons_self)]
      refine inductionHypothesis distinctRest fun other member known => ?_
      rcases List.mem_cons.mp known with rfl | before
      · exact fresh member
      · exact apart other (List.mem_cons_of_mem _ member) before

theorem firstUndeclared?_of_closed {declarations : List Declaration}
    (closed : ∀ declaration ∈ declarations, ∀ rule ∈ declaration.root.references,
      rule ∈ declarations.map (·.name)) : firstUndeclared? declarations = none := by
  refine List.findSome?_eq_none_iff.mpr fun declaration member => ?_
  rw [Option.map_eq_none_iff, List.find?_eq_none]
  intro rule reference
  simpa using closed declaration member rule reference

/-- No reason is found against the declarations of a grammar. -/
theorem ofDeclarations_declarations (grammar : Grammar) :
    ofDeclarations grammar.declarations = .ok grammar := by
  have distinct : firstRepeated? [] (grammar.declarations.map (·.name)) = none :=
    firstRepeated?_of_nodup grammar.distinct fun _ _ => List.not_mem_nil
  have closed := firstUndeclared?_of_closed grammar.closed
  rw [ofDeclarations, dif_neg grammar.nonempty]
  split
  · rename_i repeated
    rw [distinct] at repeated
    cases repeated
  · split
    · rename_i undeclared
      rw [closed] at undeclared
      cases undeclared
    · rfl

/-- The grammar with the texts that the roots are printed as. -/
def printed (grammar : Grammar) : Grammar where
  declarations := grammar.productions.map .ofProduction
  nonempty := by
    rw [productions, List.map_map]
    exact fun empty => grammar.nonempty (List.map_eq_nil_iff.mp empty)
  distinct := by
    rw [productions, List.map_map, List.map_map]
    exact grammar.distinct
  closed := by
    intro declaration member rule reference
    rw [productions, List.map_map, List.map_map]
    rw [productions, List.map_map] at member
    rcases List.mem_map.mp member with ⟨original, given, rfl⟩
    exact grammar.closed original given rule reference

theorem productions_printed (grammar : Grammar) : grammar.printed.productions = grammar.productions := by
  rw [productions, printed, List.map_map]
  exact List.map_id grammar.productions

theorem written_printed {grammar : Grammar} {declaration : Declaration}
    (member : declaration ∈ grammar.printed.declarations) : declaration.written = declaration.root.render := by
  rcases List.mem_map.mp member with ⟨production, _, rfl⟩
  rfl

theorem start_eq_head (grammar : Grammar) :
    some grammar.start.toProduction = grammar.productions.head? := by
  rw [productions, List.head?_map, start, List.head?_eq_some_head grammar.nonempty]
  rfl

theorem printed_of_ofProductions {productions : List Production} {grammar : Grammar}
    (made : ofProductions productions = .ok grammar) : grammar.printed = grammar := by
  have declared := declarations_of_ofDeclarations made
  have same : grammar.productions = productions := by
    rw [Grammar.productions, declared, List.map_map]
    exact List.map_id productions
  apply eq_of_declarations
  rw [declared, ← same]
  rfl

/-! ## Printed grammars are read -/

variable {productions : List Production}

theorem splitLines_render (printable : ∀ production ∈ productions, production.IsPrintable) (number : Nat) :
    splitLines number (productions.map (·.render)) =
      .ok (productions.map fun production => (production.name, production.root.render)) := by
  induction productions generalizing number with
  | nil => rfl
  | cons production rest inductionHypothesis =>
      have first := printable production List.mem_cons_self
      have others := fun other member => printable other (List.mem_cons_of_mem _ member)
      have later := inductionHypothesis others (number + 1)
      rw [List.map_cons, splitLines, first.isInline.isBlank, if_neg Bool.false_ne_true, first.splitLine?, later]
      rfl

theorem ofRules_render (printable : ∀ production ∈ productions, production.IsPrintable) :
    ofRules (productions.map fun production => (production.name, production.root.render)) =
      ofProductions productions := by
  have read : (productions.map fun production => (production.name, production.root.render)).mapM
      (fun rule => Declaration.read rule.1 rule.2) = .ok (productions.map .ofProduction) := by
    induction productions with
    | nil => rfl
    | cons production rest inductionHypothesis =>
        have first := printable production List.mem_cons_self
        have later := inductionHypothesis fun other member => printable other (List.mem_cons_of_mem _ member)
        rw [List.map_cons, List.mapM_cons, later, first.read]
        rfl
  exact congrArg (· >>= ofDeclarations) read

theorem lines_render {grammar : Grammar} (printable : grammar.IsPrintable) :
    Text.lines grammar.render = grammar.productions.map (·.render) := by
  have text : grammar.render = String.join ((grammar.productions.map (·.render)).map (· ++ "\n")) := by
    rw [render, List.map_map]
    rfl
  rw [text]
  refine Text.lines_join ?_ ?_
  · intro line member
    rcases List.mem_map.mp member with ⟨production, declared, rfl⟩
    exact (printable production declared).isInline.oneLine
  · intro line member
    rcases List.mem_map.mp member with ⟨production, declared, rfl⟩
    exact (printable production declared).isInline.getLast?

theorem read_render {grammar : Grammar} (printable : grammar.IsPrintable) :
    read grammar.render = .ok grammar.printed := by
  rw [read, lines_render printable, splitLines_render printable]
  exact (ofRules_render printable).trans (ofDeclarations_declarations grammar.printed)

/-! ## Grammars that are read are printable -/

theorem splitLine?_eq_some {line name text : String} (split : splitLine? line = some (name, text)) :
    Lexeme.IsWord name ∧ text.toList ⊆ line.toList := by
  rcases Option.bind_eq_some_iff.mp split with ⟨found, named, split⟩
  rcases Lexeme.finds_word_iff.mp ⟨found, named, rfl, rfl⟩ with ⟨whole, isWord, _⟩
  split at split
  · rename_i rest sign
    cases split
    refine ⟨isWord, ?_⟩
    have behind : rest ⊆ line.toList := by
      intro c member
      have kept : c ∈ Text.skipSeparators found.rest :=
        sign ▸ List.mem_cons_of_mem _ (List.mem_cons_of_mem _ (List.mem_cons_of_mem _ member))
      have rest : c ∈ Text.skipSeparators line.toList :=
        whole ▸ List.mem_append_right _ (Text.skipSeparators_subset _ kept)
      exact Text.skipSeparators_subset _ rest
    rw [String.toList_ofList]
    exact List.Subset.trans (Text.trimEnd_subset _) (List.Subset.trans (Text.skipSeparators_subset rest) behind)
  · cases split

theorem exists_line_of_splitLines {lines : List String} {number : Nat} {rules : List (String × String)}
    (split : splitLines number lines = .ok rules) :
    ∀ rule ∈ rules, ∃ line ∈ lines, splitLine? line = some rule := by
  induction lines generalizing number rules with
  | nil =>
      cases split
      exact List.forall_mem_nil _
  | cons line rest inductionHypothesis =>
      have later {others : List (String × String)} (splitRest : splitLines (number + 1) rest = .ok others) :
          ∀ rule ∈ others, ∃ line' ∈ line :: rest, splitLine? line' = some rule := by
        intro rule member
        rcases inductionHypothesis splitRest rule member with ⟨other, inRest, found⟩
        exact ⟨other, List.mem_cons_of_mem _ inRest, found⟩
      rw [splitLines] at split
      split at split
      · exact later split
      · split at split
        · cases split
        · rename_i rule found
          cases splitRest : splitLines (number + 1) rest with
          | error reason =>
              rw [splitRest] at split
              cases split
          | ok others =>
              rw [splitRest] at split
              cases split
              exact List.forall_mem_cons.mpr ⟨⟨line, List.mem_cons_self, found⟩, later splitRest⟩

/-- Every declaration of a grammar text is read from a line of the text. -/
theorem exists_line_of_mem_declarations {text : String} {grammar : Grammar} (made : read text = .ok grammar)
    {declaration : Declaration} (member : declaration ∈ grammar.declarations) :
    ∃ line ∈ Text.lines text, ∃ name written, Declaration.read name written = .ok declaration ∧
      Lexeme.IsWord name ∧ written.toList ⊆ line.toList := by
  rcases exists_of_bind_eq_ok made with ⟨rules, split, made⟩
  rcases exists_of_bind_eq_ok made with ⟨declarations, mapped, made⟩
  rw [declarations_of_ofDeclarations made] at member
  rcases exists_related_right (List.Forall₂.flip (forall₂_of_mapM mapped)) member with
    ⟨⟨name, written⟩, inRules, read⟩
  rcases exists_line_of_splitLines split (name, written) inRules with ⟨line, inText, found⟩
  rcases splitLine?_eq_some found with ⟨isWord, subset⟩
  exact ⟨line, inText, name, written, read, isWord, subset⟩

theorem exists_of_mem_declarations {text : String} {grammar : Grammar} (made : read text = .ok grammar)
    {declaration : Declaration} (member : declaration ∈ grammar.declarations) :
    ∃ name written, Declaration.read name written = .ok declaration ∧ Lexeme.IsWord name ∧ '\n' ∉ written.toList := by
  rcases exists_line_of_mem_declarations made member with ⟨line, inText, name, written, read, isWord, subset⟩
  exact ⟨name, written, read, isWord, fun feed => Text.not_mem_of_mem_lines inText (subset feed)⟩

theorem eq_of_declaration_read {name text : String} {declaration : Declaration}
    (read : Declaration.read name text = .ok declaration) :
    declaration.name = name ∧ declaration.written = String.ofList (Text.trim text.toList) ∧
      Pattern.read? declaration.written = some declaration.root := by
  rw [Declaration.read, Production.read] at read
  split at read
  · rename_i root found
    cases read
    exact ⟨rfl, rfl, found⟩
  · cases read

/-- Whether the names and the texts of the rules hold no line feeds. -/
def KeepsToLines (grammar : Grammar) : Prop :=
  ∀ declaration ∈ grammar.declarations, '\n' ∉ declaration.name.toList ∧ '\n' ∉ declaration.written.toList

/-- Whether the names and the texts of the rules stay on one line, which a carriage return
would end as well. -/
def IsOnLines (grammar : Grammar) : Prop :=
  ∀ declaration ∈ grammar.declarations, Text.IsOneLine declaration.name ∧ Text.IsOneLine declaration.written

theorem keepsToLines_of_read {text : String} {grammar : Grammar} (made : read text = .ok grammar) :
    grammar.KeepsToLines := by
  intro declaration member
  rcases exists_of_mem_declarations made member with ⟨name, written, read, isWord, oneLine⟩
  rcases eq_of_declaration_read read with ⟨sameName, sameText, _⟩
  rw [sameName, sameText, String.toList_ofList]
  exact ⟨isWord.isInline.oneLine, fun feed => oneLine (Text.trim_subset _ feed)⟩

/-- Grammar text gives no line feeds, and no carriage returns but those inside its lines. -/
theorem isOnLines_of_read {text : String} (made : read text = .ok grammar)
    (noReturn : ∀ line ∈ Text.lines text, '\r' ∉ line.toList) : grammar.IsOnLines := by
  intro declaration member
  rcases keepsToLines_of_read made declaration member with ⟨nameFeed, writtenFeed⟩
  rcases exists_line_of_mem_declarations made member with ⟨line, inText, name, written, read, isWord, subset⟩
  rcases eq_of_declaration_read read with ⟨sameName, sameText, _⟩
  refine ⟨⟨nameFeed, fun back => ?_⟩, writtenFeed, fun back => ?_⟩
  · rw [sameName] at back
    have black := Lexeme.isWhiteSpace_eq_false_of_isWordCharacter (isWord.2 '\r' back)
    cases black
  · rw [sameText, String.toList_ofList] at back
    exact noReturn line inText (subset (Text.trim_subset _ back))

theorem isPrintable_of_read {text : String} {grammar : Grammar} (made : read text = .ok grammar) :
    grammar.IsPrintable := by
  intro production declared
  rcases List.mem_map.mp declared with ⟨declaration, member, rfl⟩
  rcases exists_of_mem_declarations made member with ⟨name, written, read, isWord, _⟩
  rcases eq_of_declaration_read read with ⟨sameName, _, found⟩
  refine ⟨sameName ▸ isWord, Pattern.wellFormed_of_read? found, fun spelled leaf feed => ?_⟩
  exact (keepsToLines_of_read made declaration member).2 (Pattern.literal_subset_of_read? found leaf feed)

/-- Every grammar that was read is printable, and reading a printed grammar gives its
productions again, each with the text that its root is printed as. -/
theorem read_render_of_isPrintable :
    (∀ text grammar, read text = .ok grammar -> grammar.IsPrintable) ∧
      ∀ grammar : Grammar, grammar.IsPrintable ->
        ∃ again, read grammar.render = .ok again ∧
          again.productions = grammar.productions ∧
          again.start.toProduction = grammar.start.toProduction ∧
          (∀ declaration ∈ again.declarations, declaration.written = declaration.root.render) ∧
          again.render = grammar.render ∧
          ∀ productions, ofProductions productions = .ok grammar -> again = grammar := by
  refine ⟨fun _ _ => isPrintable_of_read, fun grammar printable => ?_⟩
  have productions := productions_printed grammar
  refine ⟨grammar.printed, read_render printable, productions, ?_, fun _ => written_printed, ?_,
    fun _ => printed_of_ofProductions⟩
  · have start := grammar.printed.start_eq_head
    rw [productions, ← grammar.start_eq_head] at start
    exact Option.some.inj start
  · rw [render, productions]
    rfl

/-- A grammar with delimiters inside its words and its literals. -/
def delimiters : List Production :=
  [⟨"ä::=b", .sequence [.literal "x | \r ::= ", .optional (.reference "::=")]⟩,
    ⟨"::=", .choice [.tokenClass "=", .epsilon, .reference "ä::=b"]⟩]

theorem read_render_of_delimiters :
    ∃ grammar, ofProductions delimiters = .ok grammar ∧
      grammar.render = "ä::=b ::= \"x | \r ::= \" ::= ?\n::= ::= <=> | \"¬\" | ä::=b\n" ∧
      ∃ again, read grammar.render = .ok again ∧ again.productions = delimiters ∧ again = grammar := by
  rcases exists_of_isOk (show (ofProductions delimiters).isOk = true by decide +kernel) with ⟨grammar, made⟩
  have declarations : grammar.declarations = delimiters.map .ofProduction := declarations_of_ofDeclarations made
  have productions : grammar.productions = delimiters := by
    rw [Grammar.productions, declarations]
    rfl
  have text : grammar.render = "ä::=b ::= \"x | \r ::= \" ::= ?\n::= ::= <=> | \"¬\" | ä::=b\n" := by
    rw [render, productions]
    decide +kernel
  have readFound : read grammar.render = .ok grammar := by
    apply read_eq_ok_of_declarations
    rw [text, declarations]
    decide +kernel
  have printable := read_render_of_isPrintable.1 grammar.render grammar readFound
  rcases read_render_of_isPrintable.2 grammar printable with ⟨again, readAgain, sameProductions, _, _, _, whole⟩
  exact ⟨grammar, made, text, again, readAgain, sameProductions.trans productions, whole delimiters made⟩

end Grammar
end PredictiveParsing
