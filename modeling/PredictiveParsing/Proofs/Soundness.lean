import PredictiveParsing.Proofs.ParserRun

namespace PredictiveParsing

/-!
# Soundness of parsers

What a routine takes off the token buffer is described by its rule, whether or not
one token of lookahead is enough for the grammar.  Each shortcut of a plan is sound
by itself: a selected alternative is followed in full, and a pattern may be passed
over only where its table holds the epsilon marker, which means that it is
nullable.  So the proof follows the pattern, given that the called rules are sound,
and the depth of calls.
-/

namespace Grammar

/-- Whether going from the first buffer to the second removes a prefix that the
pattern describes. -/
def Consumes (grammar : Grammar) (pattern : Pattern) (buffer rest : List TokenRecord) : Prop :=
  ∃ consumed, buffer = consumed ++ rest ∧ grammar.Describes pattern consumed

variable {grammar : Grammar}

theorem consumes_nothing {pattern : Pattern} (nullable : grammar.Derives pattern [])
    (buffer : List TokenRecord) : grammar.Consumes pattern buffer buffer :=
  ⟨[], rfl, describes_nil nullable⟩

theorem consumes_leaf {leaf : Terminal} (real : leaf ≠ .epsilon) (spelled : leaf.spelling ≠ "")
    {buffer : List TokenRecord} (accepted : leaf.accepts (frontToken buffer) = true) :
    grammar.Consumes (.terminal leaf) buffer buffer.tail := by
  cases buffer with
  | nil => exact absurd (Terminal.spelling_eq_empty_of_accepts_blank accepted) spelled
  | cons token rest => exact ⟨[token], rfl, describes_leaf real accepted⟩

theorem Consumes.mono {part whole : Pattern} {buffer rest : List TokenRecord}
    (consumes : grammar.Consumes part buffer rest)
    (widens : ∀ sentence, grammar.Derives part sentence -> grammar.Derives whole sentence) :
    grammar.Consumes whole buffer rest := by
  rcases consumes with ⟨consumed, split, described⟩
  exact ⟨consumed, split, described.mono widens⟩

theorem Consumes.factor {factor : Pattern} {others : List Pattern} {buffer middle rest : List TokenRecord}
    (first : grammar.Consumes factor buffer middle) (later : grammar.Consumes (.sequence others) middle rest) :
    grammar.Consumes (.sequence (factor :: others)) buffer rest := by
  rcases first with ⟨front, rfl, frontDescribed⟩
  rcases later with ⟨back, rfl, backDescribed⟩
  exact ⟨front ++ back, (List.append_assoc front back rest).symm, frontDescribed.factor backDescribed⟩

end Grammar

namespace Analysis

/-- Whatever calling a rule removes from the buffer is described by the rule. -/
def SoundCall (analysis : Analysis) (call : RuleCall) : Prop :=
  ∀ rule buffer rest, call rule buffer = .ok rest -> analysis.grammar.Consumes (.reference rule) buffer rest

variable {analysis : Analysis} {call : RuleCall} {owner : String}

private theorem consumes_of_parse_sequence {factors : List Pattern}
    (sound : ∀ factor ∈ factors, ∀ buffer rest,
      analysis.parse call owner factor buffer = .ok rest -> analysis.grammar.Consumes factor buffer rest) :
    ∀ buffer rest, analysis.parse call owner (.sequence factors) buffer = .ok rest ->
      analysis.grammar.Consumes (.sequence factors) buffer rest := by
  induction factors with
  | nil =>
      intro buffer rest parsed
      rw [parse_sequence_nil] at parsed
      cases parsed
      exact Grammar.consumes_nothing .noFactors buffer
  | cons factor others inductionHypothesis =>
      intro buffer rest parsed
      rw [parse_sequence_cons] at parsed
      rcases exists_of_bind_eq_ok parsed with ⟨middle, first, later⟩
      have ofFirst := sound factor List.mem_cons_self buffer middle first
      have ofOthers := inductionHypothesis (fun other member => sound other (List.mem_cons_of_mem _ member))
        middle rest later
      exact ofFirst.factor ofOthers

private theorem consumes_of_dispatch (plain : Terminal.tokenClass Terminal.epsilonText ∉ analysis.grammar.leaves)
    {pattern : Pattern} (selects : pattern.selects = true) (subset : pattern.leaves ⊆ analysis.grammar.leaves)
    {take : Pattern -> Except Halt (List TokenRecord)} {buffer rest : List TokenRecord}
    (sound : ∀ branch ∈ pattern.selectable, take branch = .ok rest ->
      analysis.grammar.Consumes branch buffer rest)
    (dispatched : (analysis.lookaheadOf owner pattern).dispatch take buffer = .ok rest) :
    analysis.grammar.Consumes pattern buffer rest := by
  unfold Lookahead.dispatch at dispatched
  split at dispatched
  · rename_i entry search
    have member := List.mem_of_find?_eq_some search
    have taken := (analysis.branch_of_mem_tokenEntries selects member).1
    exact (sound entry.branch taken dispatched).mono fun _ => Grammar.derives_of_mem_selectable taken
  · split at dispatched
    · rename_i admits
      cases dispatched
      have marked := List.contains_iff_mem.mp admits
      exact Grammar.consumes_nothing (analysis.derives_nil_of_admitsNothing plain subset marked) buffer
    · cases dispatched

/-- Where the called rules are sound, so is following a pattern. -/
theorem consumes_of_parse (spelled : ∀ leaf ∈ analysis.grammar.leaves, leaf.spelling ≠ "")
    (plain : Terminal.tokenClass Terminal.epsilonText ∉ analysis.grammar.leaves)
    (callSound : analysis.SoundCall call) (owner : String) {pattern : Pattern}
    (subset : pattern.leaves ⊆ analysis.grammar.leaves) :
    ∀ buffer rest, analysis.parse call owner pattern buffer = .ok rest ->
      analysis.grammar.Consumes pattern buffer rest := by
  induction pattern using Pattern.inductionOnParts with
  | terminal leaf =>
      intro buffer rest parsed
      by_cases marker : leaf = .epsilon
      · rw [marker, parse_marker] at parsed
        cases parsed
        rw [marker]
        exact Grammar.consumes_nothing .marker buffer
      · rw [parse_leaf analysis call owner marker] at parsed
        split at parsed
        · rename_i accepted
          cases parsed
          have member := subset (Pattern.mem_leaves.mpr ⟨Pattern.mem_parts_self _, marker⟩)
          exact Grammar.consumes_leaf marker (spelled leaf member) accepted
        · cases parsed
  | reference rule =>
      intro buffer rest parsed
      rw [parse_reference] at parsed
      exact callSound rule buffer rest parsed
  | sequence factors inductionHypothesis =>
      apply consumes_of_parse_sequence
      intro factor member
      exact inductionHypothesis factor member (Pattern.leaves_sequence_subset.mp subset factor member)
  | choice alternatives inductionHypothesis =>
      intro buffer rest parsed
      rw [parse_of_selects analysis call owner rfl] at parsed
      refine consumes_of_dispatch plain rfl subset ?_ parsed
      intro branch member taken
      have branchSubset := List.Subset.trans (Pattern.leaves_subset_of_mem_selectable member) subset
      exact inductionHypothesis branch member branchSubset buffer rest taken
  | optional content inductionHypothesis =>
      intro buffer rest parsed
      rw [parse_of_selects analysis call owner rfl] at parsed
      refine consumes_of_dispatch plain rfl subset ?_ parsed
      intro branch member taken
      have contentSubset := List.Subset.trans (Pattern.leaves_subset_of_mem_selectable member) subset
      rw [List.mem_singleton.mp member] at taken contentSubset ⊢
      exact inductionHypothesis contentSubset buffer rest taken

theorem soundCall_parseRule (analysis : Analysis)
    (spelled : ∀ leaf ∈ analysis.grammar.leaves, leaf.spelling ≠ "")
    (plain : Terminal.tokenClass Terminal.epsilonText ∉ analysis.grammar.leaves) (depth : Nat) :
    analysis.SoundCall (analysis.parseRule depth) := by
  induction depth with
  | zero =>
      intro rule buffer rest parsed
      cases parsed
  | succ depth inductionHypothesis =>
      intro rule buffer rest parsed
      rw [parseRule] at parsed
      cases search : analysis.grammar.find? rule with
      | none =>
          rw [search] at parsed
          cases parsed
      | some declaration =>
          rw [search] at parsed
          have declared := Grammar.mem_productions_of_find? search
          have ofRoot := consumes_of_parse spelled plain inductionHypothesis rule
            (Grammar.leaves_subset declared) buffer rest parsed
          rw [← Grammar.name_of_find? search]
          exact ofRoot.mono fun _ root => .rule declared root

end Analysis

namespace Grammar

/-- A completed run of a rule's routine has removed a prefix of the buffer that the
rule describes. -/
theorem consumes_of_completes (grammar : Grammar) (spelled : ∀ leaf ∈ grammar.leaves, leaf.spelling ≠ "")
    (plain : Terminal.tokenClass Terminal.epsilonText ∉ grammar.leaves) {settings : Settings}
    {program : Program} (made : grammar.parser settings = .ok program) {rule : String}
    (isRule : rule ∈ grammar.names) {buffer rest : List TokenRecord}
    (completed : program.Completes rule buffer rest) :
    grammar.Consumes (.reference rule) buffer rest := by
  rcases (completes_iff made isRule).mp completed with ⟨depth, parsed⟩
  exact grammar.analysis.soundCall_parseRule spelled plain depth rule buffer rest parsed

/-- What comes after the first number of a sum. -/
def sumTail : Pattern := .optional (.sequence [.literal "+", .reference "sum"])

def sumProduction : Production := ⟨"sum", .sequence [.tokenClass "number", sumTail]⟩

def sums : Grammar where
  declarations := [⟨sumProduction, "<number> ( \"+\" sum )?"⟩]
  nonempty := by decide
  distinct := by decide
  closed := by decide

def sumTokens : List TokenRecord :=
  [⟨"number", "1", "1:1"⟩, ⟨"operator", "+", "1:2"⟩, ⟨"number", "2", "1:3"⟩]

def sumEnd : TokenRecord := ⟨"EOF", "", "1:4"⟩

theorem sums_hasParser : ∃ program, sums.parser .standard = .ok program :=
  exists_of_isOk (by decide +kernel)

theorem consumes_of_sum :
    (∀ leaf ∈ sums.leaves, leaf.spelling ≠ "") ∧ Terminal.tokenClass Terminal.epsilonText ∉ sums.leaves ∧
      "sum" ∈ sums.names ∧
      ∃ program, sums.parser .standard = .ok program ∧
        program.Completes "sum" (sumTokens ++ [sumEnd]) [sumEnd] ∧
        sums.Consumes (.reference "sum") (sumTokens ++ [sumEnd]) [sumEnd] := by
  have spelled : ∀ leaf ∈ sums.leaves, leaf.spelling ≠ "" := by decide
  have plain : Terminal.tokenClass Terminal.epsilonText ∉ sums.leaves := by decide
  have isRule : "sum" ∈ sums.names := by decide
  rcases sums_hasParser with ⟨program, made⟩
  have parsed : sums.analysis.parseRule 2 "sum" (sumTokens ++ [sumEnd]) = .ok [sumEnd] := by decide +kernel
  have completed := (completes_iff made isRule).mpr ⟨2, parsed⟩
  exact ⟨spelled, plain, isRule, program, made, completed,
    consumes_of_completes sums spelled plain made isRule completed⟩

end Grammar
end PredictiveParsing
