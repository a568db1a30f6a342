import PredictiveParsing.Proofs.FirstToken
import PredictiveParsing.Proofs.GrammarText

namespace PredictiveParsing

/-!
# Parsers that always end

Only left recursion can make a parser go on for ever.  Between two tokens that are
taken, a run only goes on to rules that the current one can begin with, and without
left recursion there is an end to these.  A factor that is not nullable takes a token
before the factors behind it are reached, because what a routine completes with has
been described by its rule.  So the induction is on the tokens that are left, and for
the same tokens along the order of leading references.
-/

namespace Analysis

variable {analysis : Analysis} {owner : String}

/-- A selection follows one of its parts, is passed over or reports what it expects. -/
theorem dispatch_cases (analysis : Analysis) (owner : String) {pattern : Pattern} (selects : pattern.selects = true)
    (buffer : List TokenRecord) :
    let table := analysis.lookaheadOf owner pattern
    (∃ branch ∈ pattern.selectable, ∀ take, table.dispatch take buffer = take branch) ∨
      (∀ take, table.dispatch take buffer = .ok buffer) ∨
      ∃ expected, ∀ take, table.dispatch take buffer = .error (.mismatch (frontToken buffer).position expected) := by
  intro table
  unfold Lookahead.dispatch
  cases search : table.tokenEntries.find? (·.terminal.accepts (frontToken buffer)) with
  | some entry =>
      have member := (analysis.branch_of_mem_tokenEntries selects (List.mem_of_find?_eq_some search)).1
      exact .inl ⟨entry.branch, member, fun _ => rfl⟩
  | none =>
      cases table.admitsNothing with
      | true => exact .inr (.inl fun _ => rfl)
      | false => exact .inr (.inr ⟨_, fun _ => rfl⟩)

/-- Whether following the pattern comes to an end: it leaves tokens or reports a
mismatch. -/
def Halts (analysis : Analysis) (owner : String) (pattern : Pattern) (buffer : List TokenRecord) : Prop :=
  (∃ rest, analysis.Reads owner pattern buffer rest) ∨
    ∃ position expected, analysis.Yields owner pattern buffer (.error (.mismatch position expected))

namespace Halts

variable {buffer : List TokenRecord}

theorem terminal (analysis : Analysis) (owner : String) (leaf : Terminal) (buffer : List TokenRecord) :
    analysis.Halts owner (.terminal leaf) buffer := by
  by_cases marker : leaf = .epsilon
  · refine .inl ⟨buffer, yields_of_parse fun call => ?_⟩
    rw [marker, parse_marker]
  · cases accepted : leaf.accepts (frontToken buffer) with
    | true =>
        refine .inl ⟨buffer.tail, yields_of_parse fun call => ?_⟩
        rw [parse_leaf analysis call owner marker, accepted]
        rfl
    | false =>
        refine .inr ⟨(frontToken buffer).position, leaf.spelling, yields_of_parse fun call => ?_⟩
        rw [parse_leaf analysis call owner marker, accepted]
        rfl

theorem reference {production : Production} (declared : production ∈ analysis.grammar.productions)
    (root : analysis.Halts production.name production.root buffer) :
    analysis.Halts owner (.reference production.name) buffer := by
  rcases root with ⟨rest, read⟩ | ⟨position, expected, stopped⟩
  · exact .inl ⟨rest, Yields.reference declared read⟩
  · exact .inr ⟨position, expected, stopped.reference declared⟩

theorem noFactors (analysis : Analysis) (owner : String) (buffer : List TokenRecord) :
    analysis.Halts owner (.sequence []) buffer :=
  .inl ⟨buffer, yields_of_parse fun call => parse_sequence_nil analysis call owner buffer⟩

theorem factor {factor : Pattern} {others : List Pattern} (first : analysis.Halts owner factor buffer)
    (later : ∀ middle, analysis.Reads owner factor buffer middle -> analysis.Halts owner (.sequence others) middle) :
    analysis.Halts owner (.sequence (factor :: others)) buffer := by
  rcases first with ⟨middle, read⟩ | ⟨position, expected, stopped⟩
  · rcases later middle read with ⟨rest, readRest⟩ | ⟨position, expected, stopped⟩
    · exact .inl ⟨rest, read.factor readRest⟩
    · exact .inr ⟨position, expected, read.factor stopped⟩
  · exact .inr ⟨position, expected, stopped.head⟩

theorem of_selects {pattern : Pattern} (selects : pattern.selects = true)
    (branches : ∀ branch ∈ pattern.selectable, analysis.Halts owner branch buffer) :
    analysis.Halts owner pattern buffer := by
  have parsed (call : RuleCall) := parse_of_selects analysis call owner selects buffer
  rcases analysis.dispatch_cases owner selects buffer with
    ⟨branch, member, follows⟩ | passes | ⟨expected, reports⟩
  · rcases branches branch member with ⟨rest, read⟩ | ⟨position, expected, stopped⟩
    · exact .inl ⟨rest, Yields.branch selects follows read⟩
    · exact .inr ⟨position, expected, stopped.branch selects follows⟩
  · exact .inl ⟨buffer, yields_of_parse fun call => (parsed call).trans (passes _)⟩
  · exact .inr ⟨_, expected, yields_of_parse fun call => (parsed call).trans (reports _)⟩

end Halts

/-- What is read has been described, so a pattern that is not nullable takes a token. -/
theorem Reads.eq_or_length_lt (spelled : ∀ leaf ∈ analysis.grammar.leaves, leaf.spelling ≠ "")
    (plain : Terminal.tokenClass Terminal.epsilonText ∉ analysis.grammar.leaves) {pattern : Pattern}
    (subset : pattern.leaves ⊆ analysis.grammar.leaves) {buffer rest : List TokenRecord}
    (reads : analysis.Reads owner pattern buffer rest) :
    (analysis.grammar.Derives pattern [] ∧ rest = buffer) ∨ rest.length < buffer.length := by
  rcases reads with ⟨depth, parsed⟩
  have sound := analysis.soundCall_parseRule spelled plain depth
  rcases consumes_of_parse spelled plain sound owner subset buffer rest (parsed depth (Nat.le_refl depth)) with
    ⟨consumed, rfl, sentence, derives, accepted⟩
  cases accepted with
  | nil => exact .inl ⟨derives, rfl⟩
  | cons _ _ =>
      refine .inr ?_
      rw [List.length_append, List.length_cons]
      omega

end Analysis

namespace Grammar

variable {grammar : Grammar}

/-- Whether following any pattern of the grammar's leaves and rules ends for the tokens. -/
def HaltsFor (grammar : Grammar) (buffer : List TokenRecord) : Prop :=
  ∀ owner pattern, pattern.leaves ⊆ grammar.leaves -> pattern.references ⊆ grammar.names ->
    grammar.analysis.Halts owner pattern buffer

section

variable (spelled : ∀ leaf ∈ grammar.leaves, leaf.spelling ≠ "")
  (plain : Terminal.tokenClass Terminal.epsilonText ∉ grammar.leaves)
  (notLeftRecursive : grammar.NotLeftRecursive) {buffer : List TokenRecord}
  (shorter : ∀ other : List TokenRecord, other.length < buffer.length -> grammar.HaltsFor other)

include spelled plain notLeftRecursive shorter

theorem halts_of_isLeading {owner : String} {pattern : Pattern} (leading : grammar.IsLeading owner pattern) :
    grammar.analysis.Halts owner pattern buffer := by
  induction leading using inductionOnLeading with
  | notLeftRecursive => exact notLeftRecursive
  | terminal owner leaf _ => exact .terminal _ owner leaf buffer
  | reference owner production declared _ _ inductionHypothesis => exact inductionHypothesis.reference declared
  | noFactors owner _ => exact .noFactors _ owner buffer
  | factors owner factor rest leading firstHypothesis laterHypothesis =>
      refine firstHypothesis.factor fun middle read => ?_
      rcases read.eq_or_length_lt spelled plain leading.head.leaves with ⟨nullable, rfl⟩ | taken
      · exact laterHypothesis nullable
      · refine shorter middle taken owner (.sequence rest) ?_ ?_
        · exact Pattern.leaves_sequence_subset.mpr fun other member =>
            Pattern.leaves_sequence_subset.mp leading.leaves other (List.mem_cons_of_mem _ member)
        · exact Pattern.references_sequence_subset.mpr fun other member =>
            Pattern.references_sequence_subset.mp leading.references other (List.mem_cons_of_mem _ member)
  | selection owner pattern selects _ inductionHypothesis => exact .of_selects selects inductionHypothesis

theorem haltsFor_of_shorter : grammar.HaltsFor buffer := by
  intro owner pattern leaves references
  induction pattern using Pattern.inductionOnParts with
  | terminal leaf => exact .terminal _ owner leaf buffer
  | reference rule =>
      have isRule := references (List.mem_singleton.mpr rfl)
      rcases exists_production_of_mem_names isRule with ⟨production, declared, rfl⟩
      have root := IsLeading.root notLeftRecursive declared
      exact (halts_of_isLeading spelled plain notLeftRecursive shorter root).reference declared
  | sequence factors inductionHypothesis =>
      rw [Pattern.leaves_sequence_subset] at leaves
      rw [Pattern.references_sequence_subset] at references
      induction factors with
      | nil => exact .noFactors _ owner buffer
      | cons factor rest restHypothesis =>
          rcases List.forall_mem_cons.mp leaves with ⟨factorLeaves, restLeaves⟩
          rcases List.forall_mem_cons.mp references with ⟨factorReferences, restReferences⟩
          have first := inductionHypothesis factor List.mem_cons_self factorLeaves factorReferences
          refine first.factor fun middle read => ?_
          rcases read.eq_or_length_lt spelled plain factorLeaves with ⟨_, rfl⟩ | taken
          · exact restHypothesis (fun other member => inductionHypothesis other (List.mem_cons_of_mem _ member))
              restLeaves restReferences
          · exact shorter middle taken owner (.sequence rest) (Pattern.leaves_sequence_subset.mpr restLeaves)
              (Pattern.references_sequence_subset.mpr restReferences)
  | choice alternatives inductionHypothesis =>
      refine .of_selects rfl fun branch member => ?_
      exact inductionHypothesis branch member
        (List.Subset.trans (Pattern.leaves_subset_of_mem_selectable member) leaves)
        (List.Subset.trans (Pattern.references_subset_of_mem_selectable member) references)
  | optional content inductionHypothesis =>
      refine .of_selects rfl fun branch member => ?_
      cases List.mem_singleton.mp member
      exact inductionHypothesis
        (List.Subset.trans (Pattern.leaves_subset_of_mem_innerParts List.mem_cons_self) leaves) references

end

theorem haltsFor (spelled : ∀ leaf ∈ grammar.leaves, leaf.spelling ≠ "")
    (plain : Terminal.tokenClass Terminal.epsilonText ∉ grammar.leaves)
    (notLeftRecursive : grammar.NotLeftRecursive) (buffer : List TokenRecord) : grammar.HaltsFor buffer := by
  induction length : buffer.length using Nat.strongRecOn generalizing buffer with
  | ind length inductionHypothesis =>
      subst length
      exact haltsFor_of_shorter spelled plain notLeftRecursive fun other taken =>
        inductionHypothesis other.length taken other rfl

/-- Where no rule of a grammar text is left-recursive, every run of a rule's routine
ends: it completes, or it reports what it expected at a position. -/
theorem completes_or_mismatches {text : String} {grammar : Grammar} (readFrom : read text = .ok grammar)
    (plain : Terminal.tokenClass Terminal.epsilonText ∉ grammar.leaves)
    (notLeftRecursive : grammar.NotLeftRecursive) {settings : Settings} {program : Program}
    (made : grammar.parser settings = .ok program) {rule : String} (isRule : rule ∈ grammar.names)
    (buffer : List TokenRecord) :
    (∃ rest, program.Completes rule buffer rest) ∨
      ∃ position expected, program.Ends rule buffer (.error (.mismatch position expected)) := by
  have parsed := isParsedBy_of_parser_eq_ok made
  have spelled := (isPrintable_of_read readFrom).spelling_ne_empty
  have references : (Pattern.reference rule).references ⊆ grammar.names := fun other member =>
    List.mem_singleton.mp member ▸ isRule
  rcases haltsFor spelled plain notLeftRecursive buffer rule (.reference rule) (List.nil_subset _) references with
    ⟨rest, read⟩ | ⟨position, expected, stopped⟩
  · exact .inl ⟨rest, Program.completes_iff_ends.mpr (parsed.ends_of_yields isRule read (ok_ne_unfinished _))⟩
  · exact .inr ⟨position, expected, parsed.ends_of_yields isRule stopped (mismatch_ne_unfinished _ _)⟩

/-- The text of a grammar that is recursive everywhere but in front. -/
def conditionalsText : String :=
  "statement ::= \"if\" statement otherwise | \"skip\"\n\notherwise ::= ( \"else\" statement ) ?"

theorem completes_or_mismatches_conditionals :
    read conditionalsText = .ok conditionals ∧ Terminal.tokenClass Terminal.epsilonText ∉ conditionals.leaves ∧
      conditionals.NotLeftRecursive ∧
      ∃ program, conditionals.parser .standard = .ok program ∧ "statement" ∈ conditionals.names ∧
        ∀ buffer, (∃ rest, program.Completes "statement" buffer rest) ∨
          ∃ position expected, program.Ends "statement" buffer (.error (.mismatch position expected)) := by
  have readFrom : read conditionalsText = .ok conditionals := read_eq_ok_of_declarations (by decide +kernel)
  have plain : Terminal.tokenClass Terminal.epsilonText ∉ conditionals.leaves := by decide
  have isRule : "statement" ∈ conditionals.names := by decide
  rcases exists_of_isOk (show (conditionals.parser .standard).isOk = true by decide +kernel) with ⟨program, made⟩
  exact ⟨readFrom, plain, conditionals_notLeftRecursive, program, made, isRule,
    completes_or_mismatches readFrom plain conditionals_notLeftRecursive made isRule⟩

end Grammar
end PredictiveParsing
