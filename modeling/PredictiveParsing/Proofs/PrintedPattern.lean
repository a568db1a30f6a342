import PredictiveParsing.Pattern.Printer
import PredictiveParsing.Proofs.RuleText

namespace PredictiveParsing

/-!
# Reading printed patterns

A pattern can be printed so that it is read again exactly if it is well formed: its
texts are such as rule text can hold, and no sequence or choice is shorter than two
or directly contains another of its kind.  Rule text never describes anything else,
since the builders put no sequence into a sequence and no choice into a choice.  For
the other direction the printed text of a well-formed pattern gets a syntax tree,
with one group for each pair of parentheses.
-/

/-! ## Well-formed patterns -/

namespace Pattern

def isSequence : Pattern -> Bool
  | .sequence _ => true
  | _ => false

/-- The patterns that rule text can describe. -/
inductive WellFormed : Pattern -> Prop where
  | literal {text : String} (quotable : Lexeme.IsQuotable text) : WellFormed (.literal text)
  | tokenClass {name : String} (isWord : Lexeme.IsWord name) : WellFormed (.tokenClass name)
  | reference {rule : String} (isWord : Lexeme.IsWord rule) (real : rule ≠ Terminal.epsilonText) :
      WellFormed (.reference rule)
  | sequence {factors : List Pattern} (several : 2 ≤ factors.length)
      (flat : ∀ factor ∈ factors, factor.isSequence = false)
      (each : ∀ factor ∈ factors, WellFormed factor) : WellFormed (.sequence factors)
  | choice {alternatives : List Pattern} (several : 2 ≤ alternatives.length)
      (flat : ∀ alternative ∈ alternatives, alternative.isChoice = false)
      (each : ∀ alternative ∈ alternatives, WellFormed alternative) : WellFormed (.choice alternatives)
  | optional {content : Pattern} (inside : WellFormed content) : WellFormed (.optional content)

/-! ## Builders -/

theorem factors_of_not_isSequence {pattern : Pattern} (flat : pattern.isSequence = false) :
    pattern.factors = [pattern] := by
  cases pattern with
  | sequence factors => cases flat
  | _ => rfl

theorem alternatives_of_not_isChoice {pattern : Pattern} (flat : pattern.isChoice = false) :
    pattern.alternatives = [pattern] := by
  cases pattern with
  | choice alternatives => cases flat
  | _ => rfl

/-- Where no part can be taken apart, the parts stay as they are. -/
private theorem flatMap_of_singletons {parts : List Pattern} {split : Pattern -> List Pattern}
    (whole : ∀ part ∈ parts, split part = [part]) : parts.flatMap split = parts := by
  induction parts with
  | nil => rfl
  | cons part rest inductionHypothesis =>
      rw [List.flatMap_cons, whole part List.mem_cons_self,
        inductionHypothesis fun other member => whole other (List.mem_cons_of_mem _ member), List.singleton_append]

theorem inOrder_of_several {parts : List Pattern} (several : 2 ≤ (parts.flatMap factors).length) :
    inOrder parts = .sequence (parts.flatMap factors) := by
  rw [inOrder]
  split
  · rename_i factor single
    rw [single, List.length_singleton] at several
    omega
  · rfl

theorem oneOf_of_several {parts : List Pattern} (several : 2 ≤ (parts.flatMap alternatives).length) :
    oneOf parts = .choice (parts.flatMap alternatives) := by
  rw [oneOf]
  split
  · rename_i alternative single
    rw [single, List.length_singleton] at several
    omega
  · rfl

theorem inOrder_of_flat {parts : List Pattern} (several : 2 ≤ parts.length)
    (flat : ∀ part ∈ parts, part.isSequence = false) : inOrder parts = .sequence parts := by
  have same := flatMap_of_singletons fun part member => factors_of_not_isSequence (flat part member)
  rw [inOrder_of_several (same.symm ▸ several), same]

theorem oneOf_of_flat {parts : List Pattern} (several : 2 ≤ parts.length)
    (flat : ∀ part ∈ parts, part.isChoice = false) : oneOf parts = .choice parts := by
  have same := flatMap_of_singletons fun part member => alternatives_of_not_isChoice (flat part member)
  rw [oneOf_of_several (same.symm ▸ several), same]

theorem inOrder_singleton {pattern : Pattern} (flat : pattern.isSequence = false) :
    inOrder [pattern] = pattern := by
  rw [inOrder, List.flatMap_singleton, factors_of_not_isSequence flat]

theorem oneOf_singleton {pattern : Pattern} (flat : pattern.isChoice = false) : oneOf [pattern] = pattern := by
  rw [oneOf, List.flatMap_singleton, alternatives_of_not_isChoice flat]

/-! ## What rule text describes is well formed -/

theorem WellFormed.factors {pattern : Pattern} (wellFormed : pattern.WellFormed) :
    pattern.factors ≠ [] ∧ ∀ factor ∈ pattern.factors, factor.isSequence = false ∧ factor.WellFormed := by
  cases shape : pattern.isSequence with
  | false =>
      rw [factors_of_not_isSequence shape]
      exact ⟨List.cons_ne_nil _ _, List.forall_mem_singleton.mpr ⟨shape, wellFormed⟩⟩
  | true =>
      cases wellFormed with
      | sequence several flat each =>
          refine ⟨List.ne_nil_of_length_pos (Nat.lt_of_lt_of_le Nat.zero_lt_two several), ?_⟩
          exact fun factor member => ⟨flat factor member, each factor member⟩
      | _ => cases shape

theorem WellFormed.alternatives {pattern : Pattern} (wellFormed : pattern.WellFormed) :
    pattern.alternatives ≠ [] ∧
      ∀ alternative ∈ pattern.alternatives, alternative.isChoice = false ∧ alternative.WellFormed := by
  cases shape : pattern.isChoice with
  | false =>
      rw [alternatives_of_not_isChoice shape]
      exact ⟨List.cons_ne_nil _ _, List.forall_mem_singleton.mpr ⟨shape, wellFormed⟩⟩
  | true =>
      cases wellFormed with
      | choice several flat each =>
          refine ⟨List.ne_nil_of_length_pos (Nat.lt_of_lt_of_le Nat.zero_lt_two several), ?_⟩
          exact fun alternative member => ⟨flat alternative member, each alternative member⟩
      | _ => cases shape

/-- Where each part gives something, and nothing but what is good, all parts together
give a single good pattern or several. -/
private theorem single_or_several {split : Pattern -> List Pattern} {Good : Pattern -> Prop} {parts : List Pattern}
    (nonempty : parts ≠ []) (each : ∀ part ∈ parts, split part ≠ [] ∧ ∀ inner ∈ split part, Good inner) :
    (∃ only, parts.flatMap split = [only] ∧ Good only) ∨
      2 ≤ (parts.flatMap split).length ∧ ∀ inner ∈ parts.flatMap split, Good inner := by
  have good : ∀ inner ∈ parts.flatMap split, Good inner := by
    intro inner member
    rcases List.mem_flatMap.mp member with ⟨part, inParts, inside⟩
    exact (each part inParts).2 inner inside
  have something : parts.flatMap split ≠ [] := by
    rcases List.exists_mem_of_ne_nil parts nonempty with ⟨part, inParts⟩
    intro nothing
    exact (each part inParts).1 (List.flatMap_eq_nil_iff.mp nothing part inParts)
  match shape : parts.flatMap split with
  | [] => exact absurd shape something
  | [only] => exact Or.inl ⟨only, rfl, good only (shape ▸ List.mem_cons_self)⟩
  | first :: second :: rest => exact Or.inr ⟨Nat.le_add_left 2 rest.length, shape ▸ good⟩

theorem wellFormed_inOrder {parts : List Pattern} (nonempty : parts ≠ [])
    (each : ∀ part ∈ parts, part.WellFormed) : (inOrder parts).WellFormed := by
  rcases single_or_several nonempty fun part member => (each part member).factors with
    ⟨factor, single, _, wellFormed⟩ | ⟨several, all⟩
  · rw [inOrder, single]
    exact wellFormed
  · rw [inOrder_of_several several]
    exact .sequence several (fun factor member => (all factor member).1) fun factor member => (all factor member).2

theorem wellFormed_oneOf {parts : List Pattern} (nonempty : parts ≠ [])
    (each : ∀ part ∈ parts, part.WellFormed) : (oneOf parts).WellFormed := by
  rcases single_or_several nonempty fun part member => (each part member).alternatives with
    ⟨alternative, single, _, wellFormed⟩ | ⟨several, all⟩
  · rw [oneOf, single]
    exact wellFormed
  · rw [oneOf_of_several several]
    exact .choice several (fun alternative member => (all alternative member).1)
      fun alternative member => (all alternative member).2

end Pattern

namespace RuleText

theorem Expression.patterns_ne_nil (expression : Expression) : expression.patterns ≠ [] := by
  cases expression <;> rw [Expression.patterns] <;> exact List.cons_ne_nil _ _

mutual

theorem Atom.wellFormed_pattern :
    ∀ atom : Atom, (∀ lexeme ∈ atom.lexemes, lexeme.WellFormed) -> atom.pattern.WellFormed
  | .quoted text, each => by
      rw [Atom.lexemes] at each
      rw [Atom.pattern]
      exact .literal (each _ List.mem_cons_self)
  | .bracketed name, each => by
      rw [Atom.lexemes] at each
      rw [Atom.pattern]
      exact .tokenClass (each _ List.mem_cons_self)
  | .word name, each => by
      rw [Atom.lexemes] at each
      rw [Atom.pattern]
      split
      · exact .literal ⟨by decide, by decide⟩
      · rename_i real
        exact .reference (each _ List.mem_cons_self) real
  | .group content, each => by
      rw [Atom.lexemes, List.forall_mem_cons, List.forall_mem_append] at each
      rw [Atom.pattern]
      exact Pattern.wellFormed_oneOf content.patterns_ne_nil (Expression.wellFormed_patterns content each.2.1)

theorem Factor.wellFormed_pattern :
    ∀ factor : Factor, (∀ lexeme ∈ factor.lexemes, lexeme.WellFormed) -> factor.pattern.WellFormed
  | .plain atom, each => by
      rw [Factor.lexemes] at each
      rw [Factor.pattern]
      exact Atom.wellFormed_pattern atom each
  | .marked atom, each => by
      rw [Factor.lexemes, List.forall_mem_append] at each
      rw [Factor.pattern]
      exact .optional (Atom.wellFormed_pattern atom each.1)

theorem Alternative.wellFormed_patterns :
    ∀ alternative : Alternative, (∀ lexeme ∈ alternative.lexemes, lexeme.WellFormed) ->
      ∀ pattern ∈ alternative.patterns, pattern.WellFormed
  | .last factor, each => by
      rw [Alternative.lexemes] at each
      rw [Alternative.patterns]
      exact List.forall_mem_singleton.mpr (Factor.wellFormed_pattern factor each)
  | .more factor rest, each => by
      rw [Alternative.lexemes, List.forall_mem_append] at each
      rw [Alternative.patterns]
      exact List.forall_mem_cons.mpr
        ⟨Factor.wellFormed_pattern factor each.1, Alternative.wellFormed_patterns rest each.2⟩

theorem Expression.wellFormed_patterns :
    ∀ expression : Expression, (∀ lexeme ∈ expression.lexemes, lexeme.WellFormed) ->
      ∀ pattern ∈ expression.patterns, pattern.WellFormed
  | .last alternative, each => by
      rw [Expression.lexemes] at each
      rw [Expression.patterns]
      exact List.forall_mem_singleton.mpr
        (Pattern.wellFormed_inOrder alternative.patterns_ne_nil (Alternative.wellFormed_patterns alternative each))
  | .more alternative rest, each => by
      rw [Expression.lexemes, List.forall_mem_append, List.forall_mem_cons] at each
      rw [Expression.patterns]
      exact List.forall_mem_cons.mpr
        ⟨Pattern.wellFormed_inOrder alternative.patterns_ne_nil
          (Alternative.wellFormed_patterns alternative each.1),
        Expression.wellFormed_patterns rest each.2.2⟩

end

end RuleText

namespace Pattern

theorem wellFormed_of_read? {text : String} {pattern : Pattern} (read : read? text = some pattern) :
    pattern.WellFormed := by
  rcases RuleText.exists_expression_of_read? read with ⟨expression, written, rfl⟩
  exact wellFormed_oneOf expression.patterns_ne_nil (expression.wellFormed_patterns written.wellFormed)

/-! ## Trees of printed patterns -/

open RuleText (Atom Factor Alternative)
open Lexeme (Writes)

/-- Whether the text of the pattern has a tree that describes the pattern, wherever
the printer puts this text. -/
structure HasTrees (pattern : Pattern) : Prop where
  atom : ∃ atom : Atom, atom.pattern = pattern ∧
    Writes atom.lexemes (grouped (!pattern.isAtom) pattern.render).toList
  factor : pattern.isSequence = false -> ∃ factor : Factor, factor.pattern = pattern ∧
    Writes factor.lexemes (grouped pattern.isChoice pattern.render).toList
  alternative : pattern.isChoice = false -> ∃ alternative : Alternative,
    inOrder alternative.patterns = pattern ∧ Writes alternative.lexemes pattern.render.toList
  expression : ∃ expression : RuleText.Expression, expression.pattern = pattern ∧ expression.IsWrittenAs pattern.render

theorem exists_group {pattern : Pattern} {expression : RuleText.Expression} (described : expression.pattern = pattern)
    (written : expression.IsWrittenAs pattern.render) :
    ∃ atom : Atom, atom.pattern = pattern ∧ Writes atom.lexemes (grouped true pattern.render).toList := by
  refine ⟨.group expression, ?_, ?_⟩
  · rw [Atom.pattern]
    exact described
  · have closing : Writes [.closing] [')'] := .single trivial
    have opening : Writes [.opening] ['('] := .single trivial
    have whole := opening.append (written.append closing)
    have spelled : (grouped true pattern.render).toList = ['('] ++ ' ' :: (pattern.render.toList ++ ' ' :: [')']) := by
      rw [grouped, if_pos rfl, String.toList_append, String.toList_append, List.append_assoc]
      rfl
    rw [Atom.lexemes, spelled]
    exact whole

theorem exists_alternative_of_factor {pattern : Pattern} (notSequence : pattern.isSequence = false) {factor : Factor}
    (described : factor.pattern = pattern) {text : List Char} (written : Writes factor.lexemes text) :
    ∃ alternative : Alternative, inOrder alternative.patterns = pattern ∧ Writes alternative.lexemes text := by
  refine ⟨.last factor, ?_, ?_⟩
  · rw [Alternative.patterns, described, inOrder_singleton notSequence]
  · rw [Alternative.lexemes]
    exact written

theorem exists_expression_of_alternative {pattern : Pattern} (notChoice : pattern.isChoice = false)
    {alternative : Alternative} (described : inOrder alternative.patterns = pattern)
    (written : Writes alternative.lexemes pattern.render.toList) :
    ∃ expression : RuleText.Expression, expression.pattern = pattern ∧ expression.IsWrittenAs pattern.render := by
  refine ⟨.last alternative, ?_, ?_⟩
  · rw [RuleText.Expression.pattern, RuleText.Expression.patterns, described, oneOf_singleton notChoice]
  · rw [RuleText.Expression.IsWrittenAs, RuleText.Expression.lexemes]
    exact written

/-- An atom stands everywhere as it is. -/
theorem hasTrees_of_atom {pattern : Pattern} (isAtom : pattern.isAtom = true) {atom : Atom}
    (described : atom.pattern = pattern) (written : Writes atom.lexemes pattern.render.toList) :
    pattern.HasTrees := by
  have notSequence : pattern.isSequence = false := by
    cases pattern with
    | sequence factors => cases isAtom
    | _ => rfl
  have notChoice : pattern.isChoice = false := by
    cases pattern with
    | choice alternatives => cases isAtom
    | _ => rfl
  have factorDescribed : (Factor.plain atom).pattern = pattern := by
    rw [Factor.pattern]
    exact described
  have factorWritten : Writes (Factor.plain atom).lexemes pattern.render.toList := by
    rw [Factor.lexemes]
    exact written
  rcases exists_alternative_of_factor notSequence factorDescribed factorWritten with
    ⟨alternative, alternativeDescribed, alternativeWritten⟩
  constructor
  · rw [isAtom]
    exact ⟨atom, described, written⟩
  · rw [notChoice]
    exact fun _ => ⟨_, factorDescribed, factorWritten⟩
  · exact fun _ => ⟨alternative, alternativeDescribed, alternativeWritten⟩
  · exact exists_expression_of_alternative notChoice alternativeDescribed alternativeWritten

private theorem toList_intercalate_cons (separator first second : String) (rest : List String) :
    (separator.intercalate (first :: second :: rest)).toList =
      first.toList ++ (separator.toList ++ (separator.intercalate (second :: rest)).toList) := by
  rw [String.toList_intercalate, String.toList_intercalate, List.map_cons, List.map_cons,
    List.intercalate_cons_cons, List.append_assoc]

theorem exists_alternative_of_each {factors : List Pattern} (nonempty : factors ≠ [])
    (each : ∀ part ∈ factors, ∃ factor : Factor, factor.pattern = part ∧
      Writes factor.lexemes (grouped part.isChoice part.render).toList) :
    ∃ alternative : Alternative, alternative.patterns = factors ∧
      Writes alternative.lexemes (" ".intercalate (renderParts factors)).toList := by
  induction factors with
  | nil => exact absurd rfl nonempty
  | cons part rest inductionHypothesis =>
      rcases each part List.mem_cons_self with ⟨factor, rfl, written⟩
      cases rest with
      | nil =>
          refine ⟨.last factor, by rw [Alternative.patterns], ?_⟩
          rw [Alternative.lexemes]
          exact written
      | cons next others =>
          rcases inductionHypothesis (List.cons_ne_nil _ _)
            (fun other member => each other (List.mem_cons_of_mem _ member)) with ⟨later, described, laterWritten⟩
          refine ⟨.more factor later, by rw [Alternative.patterns, described], ?_⟩
          rw [Alternative.lexemes, renderParts, renderParts, toList_intercalate_cons]
          exact written.append laterWritten

theorem exists_expression_of_each {alternatives : List Pattern} (nonempty : alternatives ≠ [])
    (each : ∀ part ∈ alternatives, ∃ alternative : Alternative, inOrder alternative.patterns = part ∧
      Writes alternative.lexemes (grouped part.isChoice part.render).toList) :
    ∃ expression : RuleText.Expression, expression.patterns = alternatives ∧
      Writes expression.lexemes (" | ".intercalate (renderParts alternatives)).toList := by
  induction alternatives with
  | nil => exact absurd rfl nonempty
  | cons part rest inductionHypothesis =>
      rcases each part List.mem_cons_self with ⟨alternative, rfl, written⟩
      cases rest with
      | nil =>
          refine ⟨.last alternative, by rw [RuleText.Expression.patterns], ?_⟩
          rw [RuleText.Expression.lexemes]
          exact written
      | cons next others =>
          rcases inductionHypothesis (List.cons_ne_nil _ _)
            (fun other member => each other (List.mem_cons_of_mem _ member)) with ⟨later, described, laterWritten⟩
          refine ⟨.more alternative later, by rw [RuleText.Expression.patterns, described], ?_⟩
          rw [RuleText.Expression.lexemes, renderParts, renderParts, toList_intercalate_cons]
          have bar : Writes [.bar] ['|'] := .single trivial
          exact written.append (bar.append laterWritten)

theorem hasTrees_of_sequence {factors : List Pattern} (several : 2 ≤ factors.length)
    (flat : ∀ factor ∈ factors, factor.isSequence = false) (each : ∀ factor ∈ factors, factor.HasTrees) :
    (Pattern.sequence factors).HasTrees := by
  have nonempty : factors ≠ [] := List.ne_nil_of_length_pos (Nat.lt_of_lt_of_le Nat.zero_lt_two several)
  rcases exists_alternative_of_each nonempty fun part member => (each part member).factor (flat part member) with
    ⟨alternative, patterns, written⟩
  have described : inOrder alternative.patterns = .sequence factors := by
    rw [patterns, inOrder_of_flat several flat]
  rcases exists_expression_of_alternative rfl described written with
    ⟨expression, expressionDescribed, expressionWritten⟩
  refine ⟨exists_group expressionDescribed expressionWritten, ?_, ?_,
    ⟨expression, expressionDescribed, expressionWritten⟩⟩
  · intro impossible
    cases impossible
  · exact fun _ => ⟨alternative, described, written⟩

theorem hasTrees_of_choice {alternatives : List Pattern} (several : 2 ≤ alternatives.length)
    (flat : ∀ alternative ∈ alternatives, alternative.isChoice = false)
    (each : ∀ alternative ∈ alternatives, alternative.HasTrees) : (Pattern.choice alternatives).HasTrees := by
  have nonempty : alternatives ≠ [] := List.ne_nil_of_length_pos (Nat.lt_of_lt_of_le Nat.zero_lt_two several)
  have trees : ∀ part ∈ alternatives, ∃ alternative : Alternative, inOrder alternative.patterns = part ∧
      Writes alternative.lexemes (grouped part.isChoice part.render).toList := by
    intro part member
    rw [flat part member]
    exact (each part member).alternative (flat part member)
  rcases exists_expression_of_each nonempty trees with ⟨expression, patterns, written⟩
  have described : expression.pattern = .choice alternatives := by
    rw [RuleText.Expression.pattern, patterns, oneOf_of_flat several flat]
  rcases exists_group described written with ⟨atom, atomDescribed, atomWritten⟩
  refine ⟨⟨atom, atomDescribed, atomWritten⟩, ?_, ?_, ⟨expression, described, written⟩⟩
  · refine fun _ => ⟨.plain atom, ?_, ?_⟩
    · rw [Factor.pattern]
      exact atomDescribed
    · rw [Factor.lexemes]
      exact atomWritten
  · intro impossible
    cases impossible

theorem HasTrees.optional {content : Pattern} (inside : content.HasTrees) : (Pattern.optional content).HasTrees := by
  rcases inside.atom with ⟨atom, rfl, atomWritten⟩
  have described : (Factor.marked atom).pattern = .optional atom.pattern := by rw [Factor.pattern]
  have written : Writes (Factor.marked atom).lexemes (Pattern.optional atom.pattern).render.toList := by
    have mark : Writes [.mark] ['?'] := .single trivial
    rw [Factor.lexemes, render, String.toList_append]
    exact atomWritten.append mark
  rcases exists_alternative_of_factor rfl described written with
    ⟨alternative, alternativeDescribed, alternativeWritten⟩
  rcases exists_expression_of_alternative rfl alternativeDescribed alternativeWritten with
    ⟨expression, expressionDescribed, expressionWritten⟩
  exact ⟨exists_group expressionDescribed expressionWritten, fun _ => ⟨_, described, written⟩,
    fun _ => ⟨alternative, alternativeDescribed, alternativeWritten⟩,
    ⟨expression, expressionDescribed, expressionWritten⟩⟩

theorem WellFormed.hasTrees {pattern : Pattern} (wellFormed : pattern.WellFormed) : pattern.HasTrees := by
  induction wellFormed with
  | @literal text quotable =>
      refine hasTrees_of_atom rfl (show (Atom.quoted text).pattern = _ by rw [Atom.pattern]) ?_
      have written : Writes [.quoted text] (Lexeme.quoted text).characters := .single quotable
      rw [Atom.lexemes, Pattern.literal, render, String.toList_append, String.toList_append]
      exact written
  | @tokenClass name isWord =>
      refine hasTrees_of_atom rfl (show (Atom.bracketed name).pattern = _ by rw [Atom.pattern]) ?_
      have written : Writes [.bracketed name] (Lexeme.bracketed name).characters := .single isWord
      rw [Atom.lexemes, Pattern.tokenClass, render, String.toList_append, String.toList_append]
      exact written
  | @reference rule isWord real =>
      refine hasTrees_of_atom rfl (show (Atom.word rule).pattern = _ by rw [Atom.pattern, if_neg real]) ?_
      have written : Writes [.word rule] (Lexeme.word rule).characters := .single isWord
      rw [Atom.lexemes, render]
      exact written
  | sequence several flat _ inductionHypothesis => exact hasTrees_of_sequence several flat inductionHypothesis
  | choice several flat _ inductionHypothesis => exact hasTrees_of_choice several flat inductionHypothesis
  | optional _ inductionHypothesis => exact inductionHypothesis.optional

theorem read?_render_of_wellFormed {pattern : Pattern} (wellFormed : pattern.WellFormed) :
    read? pattern.render = some pattern := by
  rcases wellFormed.hasTrees.expression with ⟨expression, described, written⟩
  rw [RuleText.read?_of_isWrittenAs written, described]

/-- What is read is well formed, and the well-formed patterns are those that are read
as they were before they were printed. -/
theorem read_render_iff_wellFormed :
    (∀ text pattern, read? text = some pattern -> pattern.WellFormed) ∧
      ∀ pattern, read? pattern.render = some pattern ↔ pattern.WellFormed :=
  ⟨fun _ _ => wellFormed_of_read?, fun _ => ⟨wellFormed_of_read?, read?_render_of_wellFormed⟩⟩

theorem read_render_iff_wellFormed_call :
    let call : Pattern := .sequence [.tokenClass "NAME", .literal "(",
      .optional (.choice [.reference "call", .epsilon]), .literal ")"]
    read? RuleText.callText = some call ∧ call.WellFormed ∧ call.render = "<NAME> \"(\" ( call | \"¬\" ) ? \")\"" ∧
      read? call.render = some call := by
  intro call
  have read : read? RuleText.callText = some call := by decide +kernel
  have wellFormed := read_render_iff_wellFormed.1 RuleText.callText call read
  exact ⟨read, wellFormed, by decide +kernel, (read_render_iff_wellFormed.2 call).mpr wellFormed⟩

end Pattern
end PredictiveParsing
