import PredictiveParsing.Proofs.CommentLines
import PredictiveParsing.Proofs.GrammarOutcome

namespace PredictiveParsing

/-!
# Rules on lines of their own

Rules can be given one by one, or as a text with a line for each.  Right-hand sides are not
treated alike on the two ways.  Given one by one, they lose the white space around them at
once.  In a text, reading the lines takes away a carriage return at the end of each that a
line feed ends, splitting a line skips the separators behind the sign and takes away the
white space at the end, and only then is the white space around the rest taken away.

The lines of the text are again lines of rules, in which the right-hand sides can only have
lost a carriage return at their ends.  So what the two ways leave of a right-hand side is the
same, whatever it is.

Main statement: rules with words for names and right-hand sides without line feeds make the
same grammar on both ways, or fail for the same reason.
-/

namespace Text

theorem lines_append {line : String} (oneLine : '\n' ∉ line.toList) (rest : String) :
    lines (line ++ "\n" ++ rest) = dropCarriageReturn line :: lines rest := by
  rw [lines_append_feed, segments_of_not_mem oneLine]
  rfl

theorem lines_of_not_mem {line : String} (oneLine : '\n' ∉ line.toList) (nonempty : line ≠ "") :
    lines line = [line] := by
  have settled : line.isEmpty = false := Bool.eq_false_iff.mpr fun empty => nonempty (String.isEmpty_iff.mp empty)
  rw [lines, segments_of_not_mem oneLine, settle, settled, if_neg Bool.false_ne_true]

end Text

namespace Grammar

/-- The line on which a rule is written. -/
def ruleLine (rule : String × String) : String :=
  rule.1 ++ " ::= " ++ rule.2

/-- Whether the rule can be given on a line: its name is a word, and its right-hand side has
no line feed. -/
def FitsLine (rule : String × String) : Prop :=
  Lexeme.IsWord rule.1 ∧ '\n' ∉ rule.2.toList

instance (rule : String × String) : Decidable (FitsLine rule) :=
  decidable_of_iff ((rule.1 ≠ "" ∧ rule.1.toList.all Lexeme.isWordCharacter = true) ∧ '\n' ∉ rule.2.toList)
    (by rw [List.all_eq_true]; rfl)

/-- Whether the lines of the text are those of the rules, except that white space around the
right-hand sides can be missing. -/
def HasRuleLines (text : String) (rules : List (String × String)) : Prop :=
  ∃ others : List (String × String), (∀ rule ∈ others, FitsLine rule) ∧ Text.lines text = others.map ruleLine ∧
    others.map (fun rule => (rule.1, trimmed rule.2)) = rules.map fun rule => (rule.1, trimmed rule.2)

variable {rule : String × String} {rules : List (String × String)}

theorem toList_ruleLine (rule : String × String) :
    (ruleLine rule).toList = rule.1.toList ++ ([' '] ++ ([':', ':', '='] ++ (' ' :: rule.2.toList))) := by
  rw [ruleLine, String.toList_append, String.toList_append, List.append_assoc]
  rfl

theorem ruleLine_ne_empty (rule : String × String) : ruleLine rule ≠ "" := by
  intro empty
  have characters := congrArg String.toList empty
  rw [toList_ruleLine] at characters
  simp at characters

theorem FitsLine.not_mem (fits : FitsLine rule) : '\n' ∉ (ruleLine rule).toList := by
  have inName := fits.1.isInline.oneLine
  have inText := fits.2
  rw [toList_ruleLine]
  simp [inName, inText]

theorem trimmed_append_space (text : String) : trimmed (" " ++ text) = trimmed text := by
  have spelled : (" " ++ text).toList = ' ' :: text.toList := String.toList_append
  have skipped : Text.skipSeparators (' ' :: text.toList) = Text.skipSeparators text.toList := rfl
  rw [trimmed, trimmed, spelled, ← Text.trim_skipSeparators, skipped, Text.trim_skipSeparators]

theorem FitsLine.isRuleLine (fits : FitsLine rule) : IsRuleLine (ruleLine rule) rule.1 (" " ++ rule.2) := by
  refine ⟨fits.1, [], [' '], List.forall_mem_singleton.mpr rfl, List.cons_ne_nil _ _, ?_⟩
  rw [toList_ruleLine, String.toList_append]
  rfl

/-- Only a right-hand side can lose a carriage return at the end of a line. -/
theorem FitsLine.exists_dropCarriageReturn (fits : FitsLine rule) :
    ∃ text, Text.dropCarriageReturn (ruleLine rule) = ruleLine (rule.1, text) ∧ FitsLine (rule.1, text) ∧
      trimmed text = trimmed rule.2 := by
  by_cases ends : (ruleLine rule).toList.getLast? = some '\r'
  · rcases List.eq_nil_or_concat' rule.2.toList with empty | ⟨front, last, spelled⟩
    -- The space behind the sign is last if nothing follows it.
    · rw [toList_ruleLine, empty] at ends
      simp at ends
    · have split : (ruleLine rule).toList = (ruleLine (rule.1, String.ofList front)).toList ++ [last] := by
        rw [toList_ruleLine, toList_ruleLine, spelled, String.toList_ofList]
        simp only [List.append_assoc, List.cons_append]
      rw [split, List.getLast?_concat] at ends
      cases ends
      have white : ∀ c ∈ ['\r'], Text.isWhiteSpace c = true := List.forall_mem_singleton.mpr rfl
      refine ⟨String.ofList front, ?_, ⟨fits.1, ?_⟩, ?_⟩
      · rw [Text.dropCarriageReturn, split, List.getLast?_concat, if_pos rfl, List.dropLast_concat,
          String.ofList_toList]
      · rw [String.toList_ofList]
        exact fun feed => fits.2 (spelled ▸ List.mem_append_left _ feed)
      · rw [trimmed, trimmed, String.toList_ofList, spelled, Text.trim_append white]
  · exact ⟨rule.2, if_neg ends, fits, rfl⟩

theorem rulesOn_ruleLines (fit : ∀ rule ∈ rules, FitsLine rule) :
    RulesOn (rules.map ruleLine) (rules.map fun rule => (rule.1, " " ++ rule.2)) := by
  induction rules with
  | nil => exact .none
  | cons rule rest inductionHypothesis =>
      rcases List.forall_mem_cons.mp fit with ⟨first, others⟩
      exact .rule first.isRuleLine (inductionHypothesis others)

/-- A text with the lines of the rules is read as the rules are. -/
theorem HasRuleLines.read {text : String} (hasRuleLines : HasRuleLines text rules) : read text = ofRules rules := by
  rcases hasRuleLines with ⟨others, fit, lines, same⟩
  have rulesOn := rulesOn_ruleLines fit
  rw [← lines] at rulesOn
  rw [read_of_rulesOn rulesOn]
  apply ofRules_congr
  rw [← same, List.map_map]
  exact List.map_congr_left fun rule _ => congrArg (Prod.mk rule.1) (trimmed_append_space rule.2)

theorem FitsLine.hasRuleLines_append {text : String} (first : FitsLine rule) (later : HasRuleLines text rules) :
    HasRuleLines (ruleLine rule ++ "\n" ++ text) (rule :: rules) := by
  rcases later with ⟨others, fit, lines, same⟩
  rcases first.exists_dropCarriageReturn with ⟨written, dropped, fits, sameText⟩
  refine ⟨(rule.1, written) :: others, List.forall_mem_cons.mpr ⟨fits, fit⟩, ?_, ?_⟩
  · rw [Text.lines_append first.not_mem, lines, dropped, List.map_cons]
  · exact congrArg₂ List.cons (congrArg (Prod.mk rule.1) sameText) same

theorem hasRuleLines_empty : HasRuleLines "" [] :=
  ⟨[], List.forall_mem_nil _, rfl, rfl⟩

theorem hasRuleLines_join (fit : ∀ rule ∈ rules, FitsLine rule) :
    HasRuleLines (String.join (rules.map fun rule => ruleLine rule ++ "\n")) rules := by
  induction rules with
  | nil => exact hasRuleLines_empty
  | cons rule rest inductionHypothesis =>
      rcases List.forall_mem_cons.mp fit with ⟨first, others⟩
      rw [List.map_cons, String.join_cons]
      exact first.hasRuleLines_append (inductionHypothesis others)

/-- The last line keeps a carriage return that it ends with. -/
theorem hasRuleLines_intercalate (fit : ∀ rule ∈ rules, FitsLine rule) :
    HasRuleLines ("\n".intercalate (rules.map ruleLine)) rules := by
  induction rules with
  | nil => exact hasRuleLines_empty
  | cons rule rest inductionHypothesis =>
      rcases List.forall_mem_cons.mp fit with ⟨first, others⟩
      cases rest with
      | nil =>
          refine ⟨[rule], List.forall_mem_singleton.mpr first, ?_, rfl⟩
          rw [List.map_singleton, String.intercalate_singleton]
          exact Text.lines_of_not_mem first.not_mem (ruleLine_ne_empty rule)
      | cons next rules =>
          rw [List.map_cons, List.map_cons, String.intercalate_cons_cons]
          exact first.hasRuleLines_append (inductionHypothesis others)

/-- Rules that fit on lines make the same grammar, or fail for the same reason, whether they
are given one by one or as the text of their lines, and whether or not a line feed ends the
last of these. -/
theorem read_ruleLines (fit : ∀ rule ∈ rules, FitsLine rule) :
    read ("\n".intercalate (rules.map ruleLine)) = ofRules rules ∧
      read (String.join (rules.map fun rule => ruleLine rule ++ "\n")) = ofRules rules :=
  ⟨(hasRuleLines_intercalate fit).read, (hasRuleLines_join fit).read⟩

/-- Rules with the sign in a name, a carriage return at the end and white space that is no
separator. -/
def padded : List (String × String) :=
  [("a::=", "::= ?\r"), ("::=", "\u00a0\"x\"\u2003")]

theorem read_ruleLines_padded :
    (∀ rule ∈ padded, FitsLine rule) ∧
      read "a::= ::= ::= ?\r\n::= ::= \u00a0\"x\"\u2003" = ofRules padded ∧
      (ofRules padded).toOption.map (·.declarations.map (·.written)) = some ["::= ?", "\"x\""] := by
  have fit : ∀ rule ∈ padded, FitsLine rule := by decide +kernel
  have text : "\n".intercalate (padded.map ruleLine) = "a::= ::= ::= ?\r\n::= ::= \u00a0\"x\"\u2003" := by
    decide +kernel
  exact ⟨fit, text ▸ (read_ruleLines fit).1, by decide +kernel⟩

end Grammar
end PredictiveParsing
