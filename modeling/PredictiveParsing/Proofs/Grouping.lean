import PredictiveParsing.Proofs.PrintedPattern

namespace PredictiveParsing

/-!
# Parentheses that say nothing

Parentheses do not show in a pattern where the text between them could stand without them.
This holds for a whole text, for the texts on either side of a bar, and between other factors
if the text is not a choice.

The builders take apart the choices and the sequences that they are given, but only one level
deep.  One level is enough, because the patterns of parts are well formed already: a choice
among the alternatives of a choice, or a sequence among the factors of a sequence, has been
taken apart before.  Texts are put together along their syntax trees, so that it does not
matter how the reader goes over the joined text.
-/

/-! ## Builders inside of builders -/

namespace Pattern

theorem alternatives_oneOf {parts : List Pattern} (each : ∀ part ∈ parts, part.WellFormed) :
    (oneOf parts).alternatives = parts.flatMap alternatives := by
  rw [oneOf]
  split
  · rename_i alternative single
    have member : alternative ∈ parts.flatMap alternatives := by simp [single]
    rcases List.mem_flatMap.mp member with ⟨part, inParts, inside⟩
    have flat := ((each part inParts).alternatives.2 alternative inside).1
    rw [alternatives_of_not_isChoice flat, single]
  · rfl

theorem factors_inOrder {parts : List Pattern} (each : ∀ part ∈ parts, part.WellFormed) :
    (inOrder parts).factors = parts.flatMap factors := by
  rw [inOrder]
  split
  · rename_i factor single
    have member : factor ∈ parts.flatMap factors := by simp [single]
    rcases List.mem_flatMap.mp member with ⟨part, inParts, inside⟩
    have flat := ((each part inParts).factors.2 factor inside).1
    rw [factors_of_not_isSequence flat, single]
  · rfl

/-- A choice depends on the alternatives of its parts only. -/
theorem oneOf_congr {parts others : List Pattern}
    (same : parts.flatMap alternatives = others.flatMap alternatives) : oneOf parts = oneOf others := by
  rw [oneOf, oneOf, same]

/-- A sequence depends on the factors of its parts only. -/
theorem inOrder_congr {parts others : List Pattern} (same : parts.flatMap factors = others.flatMap factors) :
    inOrder parts = inOrder others := by
  rw [inOrder, inOrder, same]

/-- A choice among the parts of a choice gives its parts to it. -/
theorem oneOf_append_oneOf {inner : List Pattern} (each : ∀ part ∈ inner, part.WellFormed)
    (front back : List Pattern) : oneOf (front ++ oneOf inner :: back) = oneOf (front ++ (inner ++ back)) := by
  apply oneOf_congr
  simp only [List.flatMap_append, List.flatMap_cons, alternatives_oneOf each]

/-- Nothing is put around a single pattern. -/
theorem WellFormed.inOrder_singleton {pattern : Pattern} (wellFormed : pattern.WellFormed) :
    inOrder [pattern] = pattern := by
  cases shape : pattern.isSequence with
  | false => exact Pattern.inOrder_singleton shape
  | true =>
      cases wellFormed with
      | @sequence factors several _ _ =>
          have whole : [Pattern.sequence factors].flatMap Pattern.factors = factors := by simp [Pattern.factors]
          rw [inOrder_of_several (whole.symm ▸ several), whole]
      | _ => cases shape

theorem WellFormed.oneOf_singleton {pattern : Pattern} (wellFormed : pattern.WellFormed) :
    oneOf [pattern] = pattern := by
  cases shape : pattern.isChoice with
  | false => exact Pattern.oneOf_singleton shape
  | true =>
      cases wellFormed with
      | @choice alternatives several _ _ =>
          have whole : [Pattern.choice alternatives].flatMap Pattern.alternatives = alternatives := by
            simp [Pattern.alternatives]
          rw [oneOf_of_several (whole.symm ▸ several), whole]
      | _ => cases shape

end Pattern

namespace RuleText

open Pattern (oneOf inOrder)

/-! ## Joined trees -/

/-- The factors of both, one after the other. -/
def Alternative.append : Alternative -> Alternative -> Alternative
  | .last factor, right => .more factor right
  | .more factor rest, right => .more factor (rest.append right)

/-- The alternatives of both, with a bar between them. -/
def Expression.or : Expression -> Expression -> Expression
  | .last alternative, right => .more alternative right
  | .more alternative rest, right => .more alternative (rest.or right)

/-- The expression with the factors in front of its first alternative. -/
def Expression.behind (alternative : Alternative) : Expression -> Expression
  | .last first => .last (alternative.append first)
  | .more first rest => .more (alternative.append first) rest

/-- The expressions one after the other, which joins the last alternative of the left with the
first alternative of the right. -/
def Expression.beside : Expression -> Expression -> Expression
  | .last alternative, right => right.behind alternative
  | .more alternative rest, right => .more alternative (rest.beside right)

/-- The expression in parentheses, as the only factor of an alternative. -/
def Expression.grouped (content : Expression) : Alternative :=
  .last (.plain (.group content))

theorem Expression.last_beside (alternative : Alternative) (right : Expression) :
    (Expression.last alternative).beside right = right.behind alternative := by rw [beside]

theorem Alternative.append_assoc : ∀ left middle right : Alternative,
    (left.append middle).append right = left.append (middle.append right)
  | .last factor, middle, right => by rw [append, append, append]
  | .more factor rest, middle, right => by rw [append, append, append, append_assoc rest]

theorem Alternative.lexemes_append : ∀ left right : Alternative,
    (left.append right).lexemes = left.lexemes ++ right.lexemes
  | .last factor, right => by rw [append, lexemes, lexemes]
  | .more factor rest, right => by rw [append, lexemes, lexemes, lexemes_append rest, List.append_assoc]

theorem Alternative.patterns_append : ∀ left right : Alternative,
    (left.append right).patterns = left.patterns ++ right.patterns
  | .last factor, right => by rw [append, patterns, patterns, List.singleton_append]
  | .more factor rest, right => by rw [append, patterns, patterns, patterns_append rest, List.cons_append]

theorem Expression.lexemes_or : ∀ left right : Expression,
    (left.or right).lexemes = left.lexemes ++ .bar :: right.lexemes
  | .last alternative, right => by rw [or, lexemes, lexemes]
  | .more alternative rest, right => by
      rw [or, lexemes, lexemes, lexemes_or rest, List.append_assoc, List.cons_append]

theorem Expression.patterns_or : ∀ left right : Expression,
    (left.or right).patterns = left.patterns ++ right.patterns
  | .last alternative, right => by rw [or, patterns, patterns, List.singleton_append]
  | .more alternative rest, right => by rw [or, patterns, patterns, patterns_or rest, List.cons_append]

theorem Expression.lexemes_behind (alternative : Alternative) (right : Expression) :
    (right.behind alternative).lexemes = alternative.lexemes ++ right.lexemes := by
  cases right with
  | last first => rw [behind, lexemes, lexemes, Alternative.lexemes_append]
  | more first rest => rw [behind, lexemes, lexemes, Alternative.lexemes_append, List.append_assoc]

theorem Expression.lexemes_beside : ∀ left right : Expression,
    (left.beside right).lexemes = left.lexemes ++ right.lexemes
  | .last alternative, right => by rw [beside, lexemes_behind, lexemes]
  | .more alternative rest, right => by
      rw [beside, lexemes, lexemes, lexemes_beside rest, List.append_assoc, List.cons_append]

theorem Expression.lexemes_grouped (content : Expression) :
    content.grouped.lexemes = .opening :: (content.lexemes ++ [.closing]) := by
  rw [grouped, Alternative.lexemes, Factor.lexemes, Atom.lexemes]

theorem Expression.patterns_grouped (content : Expression) : content.grouped.patterns = [content.pattern] := by
  rw [grouped, Alternative.patterns, Factor.pattern, Atom.pattern, pattern]

theorem Expression.behind_behind (outer inner : Alternative) (right : Expression) :
    (right.behind inner).behind outer = right.behind (outer.append inner) := by
  cases right <;> rw [behind, behind, behind, Alternative.append_assoc]

/-! ## Texts of joined trees -/

variable {left right : Expression} {front back : String}

theorem Expression.IsWrittenAs.or (first : left.IsWrittenAs front) (later : right.IsWrittenAs back) :
    (left.or right).IsWrittenAs (front ++ " | " ++ back) := by
  have bar : Lexeme.Writes [.bar] ['|'] := .single trivial
  have whole := Lexeme.Writes.append first (bar.append later)
  rw [IsWrittenAs, lexemes_or]
  simpa using whole

theorem Expression.IsWrittenAs.beside (first : left.IsWrittenAs front) (later : right.IsWrittenAs back) :
    (left.beside right).IsWrittenAs (front ++ " " ++ back) := by
  have whole := Lexeme.Writes.append first later
  rw [IsWrittenAs, lexemes_beside]
  simpa using whole

theorem Expression.IsWrittenAs.grouped (inside : left.IsWrittenAs front) :
    (Expression.last left.grouped).IsWrittenAs ("( " ++ front ++ " )") := by
  have opening : Lexeme.Writes [.opening] ['('] := .single trivial
  have closing : Lexeme.Writes [.closing] [')'] := .single trivial
  have whole := opening.append (Lexeme.Writes.append inside closing)
  rw [IsWrittenAs, lexemes, lexemes_grouped]
  simpa using whole

/-! ## Patterns of groups -/

section

variable {expression : Expression} {text : String}

theorem Expression.IsWrittenAs.wellFormed_patterns (written : expression.IsWrittenAs text) :
    ∀ pattern ∈ expression.patterns, pattern.WellFormed :=
  Expression.wellFormed_patterns expression (Lexeme.Writes.wellFormed written)

theorem Expression.IsWrittenAs.wellFormed_pattern (written : expression.IsWrittenAs text) :
    expression.pattern.WellFormed :=
  Pattern.wellFormed_oneOf expression.patterns_ne_nil written.wellFormed_patterns

/-- The only alternative of a group by itself is what the group stands for. -/
theorem Expression.IsWrittenAs.patterns_last_grouped (written : expression.IsWrittenAs text) :
    (Expression.last expression.grouped).patterns = [expression.pattern] := by
  rw [patterns, patterns_grouped, written.wellFormed_pattern.inOrder_singleton]

theorem Expression.IsWrittenAs.pattern_grouped (written : expression.IsWrittenAs text) :
    (Expression.last expression.grouped).pattern = expression.pattern := by
  rw [pattern, written.patterns_last_grouped, written.wellFormed_pattern.oneOf_singleton]

theorem Expression.IsWrittenAs.pattern_grouped_or (written : expression.IsWrittenAs text) (right : Expression) :
    ((Expression.last expression.grouped).or right).pattern = (expression.or right).pattern := by
  have spliced := Pattern.oneOf_append_oneOf written.wellFormed_patterns [] right.patterns
  rw [pattern, patterns_or, written.patterns_last_grouped, pattern, pattern, patterns_or]
  exact spliced

theorem Expression.IsWrittenAs.pattern_or_grouped (written : expression.IsWrittenAs text) (left : Expression) :
    (left.or (Expression.last expression.grouped)).pattern = (left.or expression).pattern := by
  have spliced := Pattern.oneOf_append_oneOf written.wellFormed_patterns left.patterns []
  rw [List.append_nil] at spliced
  rw [pattern, patterns_or, written.patterns_last_grouped, pattern, pattern, patterns_or]
  exact spliced

/-- Several alternatives are a choice. -/
theorem Expression.exists_eq_last (written : expression.IsWrittenAs text)
    (single : expression.pattern.isChoice = false) : ∃ alternative, expression = .last alternative := by
  cases expression with
  | last alternative => exact ⟨alternative, rfl⟩
  | more alternative rest =>
      have each := written.wellFormed_patterns
      rcases List.exists_cons_of_ne_nil rest.patterns_ne_nil with ⟨second, others, split⟩
      rw [patterns, split] at each
      have ofFirst := List.length_pos_iff.mpr (each _ List.mem_cons_self).alternatives.1
      have ofSecond := List.length_pos_iff.mpr (each second (List.mem_cons_of_mem _ List.mem_cons_self)).alternatives.1
      have several : 2 ≤ ((inOrder alternative.patterns :: rest.patterns).flatMap Pattern.alternatives).length := by
        rw [split, List.flatMap_cons, List.flatMap_cons, List.length_append, List.length_append]
        omega
      rw [pattern, patterns, Pattern.oneOf_of_several several] at single
      cases single

/-- A group around a single alternative has the same factors. -/
theorem Alternative.factors_grouped {alternative : Alternative}
    (written : (Expression.last alternative).IsWrittenAs text) :
    (Expression.last alternative).grouped.patterns.flatMap Pattern.factors =
      alternative.patterns.flatMap Pattern.factors := by
  have each : ∀ factor ∈ alternative.patterns, factor.WellFormed := by
    have lexemes := Lexeme.Writes.wellFormed written
    rw [Expression.lexemes] at lexemes
    exact alternative.wellFormed_patterns lexemes
  have whole := Pattern.wellFormed_inOrder alternative.patterns_ne_nil each
  rw [Expression.patterns_grouped, List.flatMap_singleton, Expression.pattern, Expression.patterns,
    whole.oneOf_singleton, Pattern.factors_inOrder each]

end

section

variable {inner other : Alternative}
  (same : inner.patterns.flatMap Pattern.factors = other.patterns.flatMap Pattern.factors)

include same

/-- What stands in front of factors counts by its own factors only. -/
theorem Expression.patterns_behind_congr (right : Expression) :
    (right.behind inner).patterns = (right.behind other).patterns := by
  have joined (first : Alternative) :
      inOrder (inner.append first).patterns = inOrder (other.append first).patterns := by
    apply Pattern.inOrder_congr
    simp only [Alternative.patterns_append, List.flatMap_append, same]
  cases right with
  | last first => rw [behind, behind, patterns, patterns, joined]
  | more first rest => rw [behind, behind, patterns, patterns, joined]

theorem Expression.patterns_beside_congr (right : Expression) : ∀ left : Expression,
    (left.beside (right.behind inner)).patterns = (left.beside (right.behind other)).patterns
  | .last alternative => by
      rw [last_beside, last_beside, behind_behind, behind_behind]
      apply patterns_behind_congr
      simp only [Alternative.patterns_append, List.flatMap_append, same]
  | .more alternative rest => by
      rw [beside, beside, patterns, patterns, patterns_beside_congr right rest]

end

/-- A group that is not a choice can be left out between other texts. -/
theorem Expression.pattern_beside_grouped {inner : Expression} {text : String} (written : inner.IsWrittenAs text)
    (single : inner.pattern.isChoice = false) (left right : Expression) :
    (left.beside ((Expression.last inner.grouped).beside right)).pattern =
      (left.beside (inner.beside right)).pattern := by
  rcases exists_eq_last written single with ⟨alternative, rfl⟩
  have same := patterns_beside_congr (Alternative.factors_grouped written) right left
  rw [pattern, pattern, last_beside, last_beside, same]

end RuleText

namespace Pattern

open RuleText (Expression read?_of_isWrittenAs exists_expression_of_read?)

/-- Parentheses around a text that can be read change nothing where the text is all there is,
where it is on one side of a bar, and, if it does not read as a choice, between other texts. -/
theorem read?_grouped {before text after : String} {left inner right : Pattern}
    (readBefore : read? before = some left) (readText : read? text = some inner)
    (readAfter : read? after = some right) :
    read? ("( " ++ text ++ " )") = some inner ∧
    (∃ whole, read? ("( " ++ text ++ " ) | " ++ after) = some whole ∧
      read? (text ++ " | " ++ after) = some whole) ∧
    (∃ whole, read? (after ++ " | ( " ++ text ++ " )") = some whole ∧
      read? (after ++ " | " ++ text) = some whole) ∧
    (inner.isChoice = false -> ∃ whole,
      read? (before ++ " ( " ++ text ++ " ) " ++ after) = some whole ∧
        read? (before ++ " " ++ text ++ " " ++ after) = some whole) := by
  rcases exists_expression_of_read? readBefore with ⟨first, firstWritten, rfl⟩
  rcases exists_expression_of_read? readText with ⟨content, written, rfl⟩
  rcases exists_expression_of_read? readAfter with ⟨last, lastWritten, rfl⟩
  have group := written.grouped
  refine ⟨?_, ⟨(content.or last).pattern, ?_, read?_of_isWrittenAs (written.or lastWritten)⟩,
    ⟨(last.or content).pattern, ?_, read?_of_isWrittenAs (lastWritten.or written)⟩,
    fun single => ⟨(first.beside (content.beside last)).pattern, ?_, ?_⟩⟩
  · rw [read?_of_isWrittenAs group, written.pattern_grouped]
  · have spelled : "( " ++ text ++ " ) | " ++ after = "( " ++ text ++ " )" ++ " | " ++ after := by
      apply String.toList_inj.mp
      simp
    rw [spelled, read?_of_isWrittenAs (group.or lastWritten), written.pattern_grouped_or]
  · have spelled : after ++ " | ( " ++ text ++ " )" = after ++ " | " ++ ("( " ++ text ++ " )") := by
      apply String.toList_inj.mp
      simp
    rw [spelled, read?_of_isWrittenAs (lastWritten.or group), written.pattern_or_grouped]
  · have spelled : before ++ " ( " ++ text ++ " ) " ++ after =
        before ++ " " ++ ("( " ++ text ++ " )" ++ " " ++ after) := by
      apply String.toList_inj.mp
      simp
    rw [spelled, read?_of_isWrittenAs (firstWritten.beside (group.beside lastWritten)),
      Expression.pattern_beside_grouped written single]
  · have spelled : before ++ " " ++ text ++ " " ++ after = before ++ " " ++ (text ++ " " ++ after) := by
      simp only [String.append_assoc]
    rw [spelled, read?_of_isWrittenAs (firstWritten.beside (written.beside lastWritten))]

/-- An optional group stands between texts with alternatives and groups of their own. -/
theorem read?_grouped_optional :
    read? "a | ( ( b ) \"(\" )" = some (.choice [.reference "a", .sequence [.reference "b", .literal "("]]) ∧
    read? "( x | ( y | z ) ) ? w" =
      some (.sequence [.optional (.choice [.reference "x", .reference "y", .reference "z"]), .reference "w"]) ∧
    read? "( c | d ) e | f" =
      some (.choice [.sequence [.choice [.reference "c", .reference "d"], .reference "e"], .reference "f"]) ∧
    ∃ whole, read? "a | ( ( b ) \"(\" ) ( ( x | ( y | z ) ) ? w ) ( c | d ) e | f" = some whole ∧
      read? "a | ( ( b ) \"(\" ) ( x | ( y | z ) ) ? w ( c | d ) e | f" = some whole := by
  have first : read? "a | ( ( b ) \"(\" )" =
      some (.choice [.reference "a", .sequence [.reference "b", .literal "("]]) := by
    decide +kernel
  have middle : read? "( x | ( y | z ) ) ? w" =
      some (.sequence [.optional (.choice [.reference "x", .reference "y", .reference "z"]), .reference "w"]) := by
    decide +kernel
  have last : read? "( c | d ) e | f" =
      some (.choice [.sequence [.choice [.reference "c", .reference "d"], .reference "e"], .reference "f"]) := by
    decide +kernel
  exact ⟨first, middle, last, (read?_grouped first middle last).2.2.2 rfl⟩

end Pattern
end PredictiveParsing
