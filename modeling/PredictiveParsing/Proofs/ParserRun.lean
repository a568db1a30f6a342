import PredictiveParsing.Proofs.ParserContents
import PredictiveParsing.Proofs.PlanExecution

namespace PredictiveParsing

/-!
# Runs of parsers

The routine of a rule does what following the right-hand side of the rule does,
where calling a rule is following its right-hand side in turn.  The depth of calls
is counted a little differently on both sides, since reading the buffer is a call
as well.  So each side extends the other: a run of one that finishes is a run of
the other that goes at most one call deeper.
-/

/-! ## Calls that go deeper -/

namespace Analysis

variable {analysis : Analysis} {call deeper : RuleCall} {owner : String}

private theorem dispatch_extends {pattern : Pattern} (selects : pattern.selects = true)
    {take takeDeeper : Pattern -> Except Halt (List TokenRecord)} {buffer : List TokenRecord}
    (deepens : ∀ branch ∈ pattern.selectable, Extends (take branch) (takeDeeper branch)) :
    Extends ((analysis.lookaheadOf owner pattern).dispatch take buffer)
      ((analysis.lookaheadOf owner pattern).dispatch takeDeeper buffer) := by
  unfold Lookahead.dispatch
  split
  · rename_i entry search
    exact deepens _ (analysis.branch_of_mem_tokenEntries selects (List.mem_of_find?_eq_some search)).1
  · exact .refl _

private theorem parse_sequence_extends {factors : List Pattern}
    (deepens : ∀ factor ∈ factors, ∀ buffer,
      Extends (analysis.parse call owner factor buffer) (analysis.parse deeper owner factor buffer)) :
    ∀ buffer, Extends (analysis.parse call owner (.sequence factors) buffer)
      (analysis.parse deeper owner (.sequence factors) buffer) := by
  induction factors with
  | nil =>
      intro buffer
      rw [parse_sequence_nil, parse_sequence_nil]
      exact .refl _
  | cons factor rest inductionHypothesis =>
      intro buffer
      rw [parse_sequence_cons, parse_sequence_cons]
      exact (deepens factor List.mem_cons_self buffer).bind
        (inductionHypothesis fun other member => deepens other (List.mem_cons_of_mem _ member))

/-- What following a pattern does changes only where calling its rules does. -/
theorem parse_extends {pattern : Pattern}
    (deepens : ∀ rule ∈ pattern.references, ∀ buffer, Extends (call rule buffer) (deeper rule buffer)) :
    ∀ buffer, Extends (analysis.parse call owner pattern buffer) (analysis.parse deeper owner pattern buffer) := by
  induction pattern using Pattern.inductionOnParts with
  | terminal leaf =>
      intro buffer
      by_cases marker : leaf = .epsilon
      · rw [marker, parse_marker, parse_marker]
        exact .refl _
      · rw [parse_leaf analysis call owner marker, parse_leaf analysis deeper owner marker]
        exact .refl _
  | reference rule =>
      intro buffer
      rw [parse_reference, parse_reference]
      exact deepens rule (List.mem_singleton.mpr rfl) buffer
  | sequence factors inductionHypothesis =>
      apply parse_sequence_extends
      intro factor member
      have subset := Pattern.references_sequence_subset.mp (List.Subset.refl _) factor member
      exact inductionHypothesis factor member fun rule reference => deepens rule (subset reference)
  | choice alternatives inductionHypothesis =>
      intro buffer
      rw [parse_of_selects analysis call owner rfl, parse_of_selects analysis deeper owner rfl]
      apply dispatch_extends rfl
      intro branch member
      have subset := Pattern.references_subset_of_mem_selectable member
      exact inductionHypothesis branch member (fun rule reference => deepens rule (subset reference)) buffer
  | optional content inductionHypothesis =>
      intro buffer
      rw [parse_of_selects analysis call owner rfl, parse_of_selects analysis deeper owner rfl]
      apply dispatch_extends rfl
      intro branch member
      rw [List.mem_singleton.mp member]
      exact inductionHypothesis deepens buffer

end Analysis

/-! ## Rules by their right-hand sides -/

namespace Analysis

/-- Following the right-hand side of a rule, with calls nested up to the given
depth. -/
def parseRule (analysis : Analysis) : Nat -> RuleCall
  | 0, _, _ => .error .unfinished
  | depth + 1, rule, buffer =>
      match analysis.grammar.find? rule with
      | none => .error .stuck
      | some declaration => analysis.parse (analysis.parseRule depth) rule declaration.root buffer

theorem parseRule_of_mem (analysis : Analysis) {production : Production}
    (declared : production ∈ analysis.grammar.productions) (depth : Nat) (buffer : List TokenRecord) :
    analysis.parseRule (depth + 1) production.name buffer =
      analysis.parse (analysis.parseRule depth) production.name production.root buffer := by
  rcases Grammar.exists_find?_of_mem declared with ⟨declaration, found, rfl⟩
  rw [parseRule, found]

end Analysis

/-! ## Programs that parse by a grammar -/

/-- An invocation that reads and takes tokens however deep it may still go. -/
def Invocation.serving (invoke : Invocation) : Invocation :=
  fun name arguments buffer =>
    if name = Support.peek ∧ arguments = [] then .ok (some (.record (frontToken buffer)), buffer)
    else if name = Support.take ∧ arguments = [] then
      .ok (some (.record (frontToken buffer)), buffer.tail)
    else invoke name arguments buffer

namespace Invocation

theorem serving_servesTokens (invoke : Invocation) : invoke.serving.ServesTokens where
  peek := by
    intro buffer
    rw [serving, if_pos ⟨rfl, rfl⟩]
  take := by
    intro buffer
    have different : ¬ (Support.take = Support.peek ∧ ([] : List Value) = []) := by decide
    rw [serving, if_neg different, if_pos ⟨rfl, rfl⟩]

theorem serving_of_not_reserved (invoke : Invocation) {name : String} (free : name ∉ Support.reservedNames)
    (arguments : List Value) (buffer : List TokenRecord) :
    invoke.serving name arguments buffer = invoke name arguments buffer := by
  have notPeek : name ≠ Support.peek := by
    rintro rfl
    exact free (by decide)
  have notTake : name ≠ Support.take := by
    rintro rfl
    exact free (by decide)
  rw [serving, if_neg (fun both => notPeek both.1), if_neg (fun both => notTake both.1)]

end Invocation

/-- Whether the program reads tokens as every parser does and has for each production
a routine that follows its right-hand side. -/
structure Grammar.IsParsedBy (grammar : Grammar) (program : Program) : Prop where
  peek : program.routine? Support.peek =
    some ⟨Support.peek, .support, [], some .token, [.primitive .peek]⟩
  take : program.routine? Support.take =
    some ⟨Support.take, .support, [], some .token, [.primitive .take]⟩
  free : ∀ rule ∈ grammar.names, rule ∉ Support.reservedNames
  follows : ∀ production ∈ grammar.productions, ∃ routine, program.routine? production.name = some routine ∧
    ∀ invoke : Invocation, invoke.ServesTokens -> ∀ buffer,
      (routine.execute invoke [] buffer).map Prod.snd =
        grammar.analysis.parse invoke.ruleCall production.name production.root buffer

namespace Grammar

variable {grammar : Grammar} {settings : Settings} {program : Program}

namespace IsParsedBy

theorem run_succ_peek (parsed : grammar.IsParsedBy program) (depth : Nat) (buffer : List TokenRecord) :
    program.run (depth + 1) Support.peek [] buffer = .ok (some (.record (frontToken buffer)), buffer) := by
  rw [Program.run, parsed.peek]
  rfl

theorem run_succ_take (parsed : grammar.IsParsedBy program) (depth : Nat) (buffer : List TokenRecord) :
    program.run (depth + 1) Support.take [] buffer = .ok (some (.record (frontToken buffer)), buffer.tail) := by
  rw [Program.run, parsed.take]
  rfl

theorem run_succ_servesTokens (parsed : grammar.IsParsedBy program) (depth : Nat) :
    (program.run (depth + 1)).ServesTokens where
  peek := parsed.run_succ_peek depth
  take := parsed.run_succ_take depth

theorem run_extends_serving (parsed : grammar.IsParsedBy program) (depth : Nat) :
    Invocation.Extends (program.run depth) (program.run depth).serving := by
  intro name arguments buffer finished
  cases depth with
  | zero => exact absurd rfl finished
  | succ depth =>
      unfold Invocation.serving
      split
      · rename_i reads
        rw [reads.1, reads.2, parsed.run_succ_peek]
      · split
        · rename_i takes
          rw [takes.1, takes.2, parsed.run_succ_take]
        · rfl

/-- A finished run of a rule's routine follows the right-hand side of the rule. -/
theorem run_extends_parseRule (parsed : grammar.IsParsedBy program) (depth : Nat) :
    ∀ rule ∈ grammar.names, ∀ buffer,
      Extends ((program.run depth).ruleCall rule buffer) (grammar.analysis.parseRule depth rule buffer) := by
  induction depth with
  | zero =>
      intro rule _ buffer finished
      exact absurd rfl finished
  | succ depth inductionHypothesis =>
      intro rule isRule buffer
      rcases exists_production_of_mem_names isRule with ⟨production, declared, rfl⟩
      rcases parsed.follows production declared with ⟨routine, found, follows⟩
      -- Without depth left even the buffer cannot be read, so tokens are served first.
      have served := (routine.execute_extends (parsed.run_extends_serving depth) [] buffer).map Prod.snd
      rw [follows (program.run depth).serving (Invocation.serving_servesTokens _)] at served
      rw [Invocation.ruleCall, Program.run, found, grammar.analysis.parseRule_of_mem declared]
      refine served.trans (Analysis.parse_extends ?_ buffer)
      intro called reference remaining
      have calledRule := references_subset_names declared reference
      rw [Invocation.ruleCall, Invocation.serving_of_not_reserved _ (parsed.free called calledRule)]
      exact inductionHypothesis called calledRule remaining

/-- Following the right-hand side of a rule to the end is a run of its routine. -/
theorem parseRule_extends_run (parsed : grammar.IsParsedBy program) (depth : Nat) :
    ∀ rule ∈ grammar.names, ∀ buffer,
      Extends (grammar.analysis.parseRule depth rule buffer)
        ((program.run (depth + 1)).ruleCall rule buffer) := by
  induction depth with
  | zero =>
      intro rule _ buffer finished
      exact absurd rfl finished
  | succ depth inductionHypothesis =>
      intro rule isRule buffer
      rcases exists_production_of_mem_names isRule with ⟨production, declared, rfl⟩
      rcases parsed.follows production declared with ⟨routine, found, follows⟩
      rw [Invocation.ruleCall, Program.run, found, grammar.analysis.parseRule_of_mem declared]
      change Extends _ ((routine.execute (program.run (depth + 1)) [] buffer).map Prod.snd)
      rw [follows _ (parsed.run_succ_servesTokens depth)]
      apply Analysis.parse_extends
      intro called reference
      exact inductionHypothesis called (references_subset_names declared reference)

/-- A rule's routine ends as following the rule's right-hand side does. -/
theorem ends_iff (parsed : grammar.IsParsedBy program) {rule : String} (isRule : rule ∈ grammar.names)
    {buffer : List TokenRecord} {result : Except Halt (List TokenRecord)} :
    program.Ends rule buffer result ↔
      result ≠ .error .unfinished ∧ ∃ depth, grammar.analysis.parseRule depth rule buffer = result := by
  refine and_congr_right fun finished => ⟨?_, ?_⟩
  · rintro ⟨depth, rfl⟩
    exact ⟨depth, parsed.run_extends_parseRule depth rule isRule buffer finished⟩
  · rintro ⟨depth, rfl⟩
    exact ⟨depth + 1, parsed.parseRule_extends_run depth rule isRule buffer finished⟩

end IsParsedBy

end Grammar

/-! ## The routines of parsers -/

/-- The statements of a routine come after a comment and a declaration, which change
nothing. -/
theorem Analysis.exists_preamble (analysis : Analysis) (settings : Settings) (production : Production)
    (steps : List Step) :
    ∃ preamble, analysis.routineBody settings production steps = preamble ++ Step.code settings steps ∧
      ∀ invoke locals buffer, ∃ after,
        Statement.executeBlock invoke preamble locals buffer = .ok (.next after, buffer) := by
  refine ⟨_, rfl, ?_⟩
  intro invoke locals buffer
  rw [Statement.executeBlock, Statement.execute]
  split
  · refine ⟨locals.introduce settings.tokenVariable, ?_⟩
    change Statement.executeBlock invoke [.declare settings.tokenVariable .token] locals buffer = _
    rw [Statement.executeBlock, Statement.execute]
    rfl
  · exact ⟨locals, rfl⟩

theorem Analysis.goesOn_routineBody {invoke : Invocation} (serves : invoke.ServesTokens) (analysis : Analysis)
    (settings : Settings) (production : Production) (steps : List Step) (locals : Locals)
    (buffer : List TokenRecord) :
    GoesOn (Statement.executeBlock invoke (analysis.routineBody settings production steps) locals buffer)
      (Step.followAll invoke.ruleCall steps buffer) := by
  rcases analysis.exists_preamble settings production steps with ⟨preamble, written, runs⟩
  have preambleGoes : GoesOn (Statement.executeBlock invoke preamble locals buffer) (.ok buffer) :=
    runs invoke locals buffer
  rw [written]
  exact Step.goesOn_append preambleGoes (Step.code_goesOn serves settings steps)

/-- A routine of a production does to the buffer what its plan does. -/
theorem Analysis.RoutineFor.execute {invoke : Invocation} (serves : invoke.ServesTokens) {analysis : Analysis}
    {settings : Settings} {production : Production} {routine : Routine} {steps : List Step}
    (routineFor : analysis.RoutineFor settings production routine steps) (buffer : List TokenRecord) :
    (routine.execute invoke [] buffer).map Prod.snd = Step.followAll invoke.ruleCall steps buffer := by
  rw [routineFor.written, Routine.map_snd_execute rfl]
  exact (analysis.goesOn_routineBody serves settings production steps .none buffer).map_snd

namespace Grammar

variable {grammar : Grammar} {settings : Settings} {program : Program}

theorem isParsedBy_of_parser_eq_ok (made : grammar.parser settings = .ok program) : grammar.IsParsedBy program where
  peek := routine?_peek made
  take := routine?_take made
  free _ isRule := not_mem_reservedNames made isRule
  follows := by
    intro production declared
    rcases routine?_of_mem made declared with ⟨routine, steps, found, routineFor⟩
    refine ⟨routine, found, ?_⟩
    intro invoke serves buffer
    rw [routineFor.execute serves]
    exact Analysis.followAll_routinePlan _ declared routineFor.planned buffer

/-- A rule's routine completes exactly where following the rule's right-hand side
does. -/
theorem completes_iff (made : grammar.parser settings = .ok program) {rule : String}
    (isRule : rule ∈ grammar.names) {buffer rest : List TokenRecord} :
    program.Completes rule buffer rest ↔ ∃ depth, grammar.analysis.parseRule depth rule buffer = .ok rest := by
  rw [Program.completes_iff_ends, (isParsedBy_of_parser_eq_ok made).ends_iff isRule]
  exact and_iff_right (ok_ne_unfinished rest)

end Grammar
end PredictiveParsing
