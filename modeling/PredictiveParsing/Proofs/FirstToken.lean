import PredictiveParsing.Proofs.Completeness
import PredictiveParsing.Proofs.LeadingOrder
import PredictiveParsing.Proofs.RunPoint

namespace PredictiveParsing

/-!
# What the first token decides

A routine does with the first token what its rule calls for, even if the grammar is
ambiguous, as long as no rule is left-recursive and the token can be read as one leaf
only.  If the rule can begin with this leaf, the token is taken as this leaf before
anything can go wrong.  If it cannot, a nullable rule is passed over, and any other
rule stops with a mismatch at the token.

Several tables are consulted on the way to the token, one in each pattern that can
stand first.  They all agree, since none of these patterns can begin with the rule
that it stands in, and so each table holds all that its pattern can begin with.
-/

namespace Grammar

/-- Whether no leaf that the pattern can begin with accepts the token. -/
def CannotBegin (grammar : Grammar) (pattern : Pattern) (token : TokenRecord) : Prop :=
  ∀ leaf, grammar.First pattern leaf -> leaf.accepts token = false

variable {grammar : Grammar} {token : TokenRecord}

theorem CannotBegin.of_first {whole part : Pattern} (cannot : grammar.CannotBegin whole token)
    (widens : ∀ leaf, grammar.First part leaf -> grammar.First whole leaf) : grammar.CannotBegin part token :=
  fun leaf first => cannot leaf (widens leaf first)

theorem CannotBegin.refused {pattern : Pattern} (cannot : grammar.CannotBegin pattern token) :
    ∀ leaf ∈ grammar.leaves, leaf.accepts token = true -> ¬ grammar.First pattern leaf := by
  intro leaf _ accepted first
  rw [cannot leaf first] at accepted
  cases accepted

/-! ## Tokens that the pattern cannot begin with -/

private theorem reads_nothing_of_selects {pattern : Pattern} (selects : pattern.selects = true)
    (nullable : grammar.Derives pattern []) {owner : String} (subset : pattern.leaves ⊆ grammar.leaves)
    {buffer : List TokenRecord} (cannot : grammar.CannotBegin pattern (frontToken buffer)) :
    grammar.analysis.Reads owner pattern buffer buffer := by
  apply Analysis.yields_of_parse
  intro call
  rw [Analysis.parse_of_selects _ call owner selects]
  exact grammar.analysis.dispatch_of_absent subset selects nullable cannot.refused _

/-- A nullable pattern is passed over where the next token is none that it can begin
with. -/
theorem reads_nothing {pattern : Pattern} {sentence : List Terminal} (derives : grammar.Derives pattern sentence)
    (empty : sentence = []) {buffer : List TokenRecord} :
    ∀ owner, pattern.leaves ⊆ grammar.leaves -> grammar.CannotBegin pattern (frontToken buffer) ->
      grammar.analysis.Reads owner pattern buffer buffer := by
  induction derives with
  | marker =>
      intro owner _ _
      exact Analysis.yields_of_parse fun call => Analysis.parse_marker _ call owner buffer
  | leaf _ => cases empty
  | @rule production sentence declared _ inductionHypothesis =>
      intro owner _ cannot
      have ofRoot := inductionHypothesis empty production.name (leaves_subset declared)
        (cannot.of_first fun _ => .rule declared)
      exact ofRoot.reference declared
  | noFactors =>
      intro owner _ _
      exact Analysis.yields_of_parse fun call => Analysis.parse_sequence_nil _ call owner buffer
  | @factor factor rest front back first later firstHypothesis laterHypothesis =>
      intro owner subset cannot
      rcases List.append_eq_nil_iff.mp empty with ⟨rfl, rfl⟩
      have factorSubset := Pattern.leaves_sequence_subset.mp subset
      have restSubset : (Pattern.sequence rest).leaves ⊆ grammar.leaves :=
        Pattern.leaves_sequence_subset.mpr fun other member => factorSubset other (List.mem_cons_of_mem _ member)
      have ofFactor := firstHypothesis rfl owner (factorSubset _ List.mem_cons_self) (cannot.of_first fun _ => .head)
      have ofRest := laterHypothesis rfl owner restSubset (cannot.of_first fun _ => .later first)
      exact ofFactor.factor ofRest
  | alternative member taken _ =>
      intro owner subset cannot
      rw [empty] at taken
      exact reads_nothing_of_selects rfl (.alternative member taken) subset cannot
  | absent =>
      intro owner subset cannot
      exact reads_nothing_of_selects rfl .absent subset cannot
  | present _ _ =>
      intro owner subset cannot
      exact reads_nothing_of_selects rfl .absent subset cannot

/-- A pattern that is not nullable stops at a token that it cannot begin with. -/
theorem yields_mismatch (apart : grammar.SpellsApart) (notLeftRecursive : grammar.NotLeftRecursive) {owner : String}
    {pattern : Pattern} (leading : grammar.IsLeading owner pattern) {buffer : List TokenRecord}
    (cannot : grammar.CannotBegin pattern (frontToken buffer)) (required : ¬ grammar.Derives pattern []) :
    ∃ expected, grammar.analysis.Yields owner pattern buffer
      (.error (.mismatch (frontToken buffer).position expected)) := by
  induction leading using inductionOnLeading with
  | notLeftRecursive => exact notLeftRecursive
  | terminal owner leaf leading =>
      have real : leaf ≠ .epsilon := by
        rintro rfl
        exact required .marker
      refine ⟨leaf.spelling, Analysis.yields_of_parse fun call => ?_⟩
      rw [Analysis.parse_leaf _ call owner real, cannot leaf (.leaf real)]
      rfl
  | reference owner production declared leading root inductionHypothesis =>
      rcases inductionHypothesis (cannot.of_first fun _ => .rule declared)
        (fun nullable => required (.rule declared nullable)) with ⟨expected, ofRoot⟩
      exact ⟨expected, ofRoot.reference declared⟩
  | noFactors owner leading => exact absurd .noFactors required
  | factors owner factor rest leading firstHypothesis laterHypothesis =>
      have atFactor : grammar.CannotBegin factor (frontToken buffer) := cannot.of_first fun _ => .head
      by_cases nullable : grammar.Derives factor []
      · have passed := reads_nothing nullable rfl owner leading.head.leaves atFactor
        rcases laterHypothesis nullable (cannot.of_first fun _ => .later nullable)
          (fun later => required (.factor nullable later)) with ⟨expected, ofRest⟩
        exact ⟨expected, passed.factor ofRest⟩
      · rcases firstHypothesis atFactor nullable with ⟨expected, ofFactor⟩
        exact ⟨expected, ofFactor.head⟩
  | selection owner pattern selects leading _ =>
      have plain : Terminal.tokenClass Terminal.epsilonText ∉ grammar.leaves :=
        fun member => (apart _ member).1 rfl
      have required : (grammar.analysis.lookaheadOf owner pattern).admitsNothing = false := by
        apply Bool.eq_false_iff.mpr
        intro admits
        have marked := List.contains_iff_mem.mp admits
        exact required (grammar.analysis.derives_nil_of_admitsNothing plain leading.leaves marked)
      refine ⟨",".intercalate ((grammar.analysis.lookaheadOf owner pattern).tokenEntries.map (·.spelling)),
        Analysis.yields_of_parse fun call => ?_⟩
      rw [Analysis.parse_of_selects _ call owner selects, Lookahead.dispatch,
        grammar.analysis.find?_tokenEntries_of_absent leading.leaves selects cannot.refused, required]
      rfl

end Grammar

/-! ## Tokens that the pattern can begin with -/

namespace Grammar

/-- Whether the statements written for the pattern take the token as the leaf, wherever
they stand. -/
def TakesFirst (grammar : Grammar) (program : Program) (settings : Settings) (leaf : Terminal) (token : TokenRecord)
    (owner : String) (pattern : Pattern) : Prop :=
  ∀ more behind locals callers rest, ∃ target, program.Takes settings leaf
    ⟨⟨Step.code settings (grammar.analysis.plan owner pattern :: more) ++ behind, locals⟩ :: callers, token :: rest⟩
    target

variable {grammar : Grammar} {settings : Settings} {program : Program} {leaf : Terminal} {token : TokenRecord}
  {owner : String}

/-- Only the plan of a leaf looks at the steps behind it. -/
theorem code_plan_cons (settings : Settings) (owner : String) {pattern : Pattern}
    (notLeaf : ∀ leaf, pattern = .terminal leaf -> leaf = .epsilon) (more : List Step) :
    Step.code settings (grammar.analysis.plan owner pattern :: more) =
      Step.code settings [grammar.analysis.plan owner pattern] ++ Step.code settings more := by
  apply Step.code_cons
  intro leaf
  cases pattern with
  | terminal own =>
      rw [Analysis.plan, if_pos (notLeaf own rfl)]
      exact Step.noConfusion
  | reference rule =>
      rw [Analysis.plan]
      exact Step.noConfusion
  | sequence factors =>
      rw [Analysis.plan_sequence]
      exact Step.noConfusion
  | _ =>
      rw [Analysis.plan_of_selects _ _ _ rfl, Analysis.selection_eq]
      exact Step.noConfusion

/-- A routine has the statements written for the right-hand side of its production. -/
theorem code_routinePlan (settings : Settings) {production : Production} (declared : production ∈ grammar.productions)
    {steps : List Step} (planned : grammar.analysis.routinePlan? production = some steps) :
    Step.code settings steps = Step.code settings [grammar.analysis.plan production.name production.root] := by
  unfold Analysis.routinePlan? at planned
  split at planned
  · rename_i selects
    rw [Analysis.lookahead?_of_mem _ declared, Option.map_some, Option.some.injEq] at planned
    rw [← planned, Analysis.plan_of_selects _ _ _ selects]
  · cases planned
    cases production.root with
    | sequence factors => rw [Pattern.factors, Analysis.plan_sequence, Step.code, Step.code, List.append_nil]
    | _ => rfl

/-- The statements written for a pattern that is read run to their end. -/
theorem exists_run_of_reads (parsed : grammar.IsParsedBy program) (settings : Settings) {pattern : Pattern}
    (references : pattern.references ⊆ grammar.names) {buffer rest : List TokenRecord}
    (reads : grammar.analysis.Reads owner pattern buffer rest) (locals : Locals) :
    ∃ depth after, Statement.executeBlock (program.run depth)
      (Step.code settings [grammar.analysis.plan owner pattern]) locals buffer = .ok (.next after, rest) := by
  rcases reads with ⟨depth, read⟩
  have deepens : ∀ rule ∈ pattern.references, ∀ buffer,
      Extends (grammar.analysis.parseRule depth rule buffer) ((program.run (depth + 1)).ruleCall rule buffer) :=
    fun rule reference => parsed.parseRule_extends_run depth rule (references reference)
  have goes := Step.code_goesOn (parsed.run_succ_servesTokens depth) settings [grammar.analysis.plan owner pattern]
    locals buffer
  rw [Step.followAll_singleton] at goes
  have followed : (grammar.analysis.plan owner pattern).follow (program.run (depth + 1)).ruleCall buffer = .ok rest :=
    (Analysis.parse_extends deepens buffer).ok (read depth (Nat.le_refl depth))
  rw [followed] at goes
  exact ⟨depth + 1, goes⟩

/-- A token that is taken at once is looked at in the arm for its leaf. -/
private theorem takes_of_taken (parsed : grammar.IsParsedBy program) {statement : Statement} {body : List Statement}
    (chooses : statement.Chooses settings token leaf body) (behind : List Statement) (locals : Locals)
    (callers : List Frame) (rest : List TokenRecord) :
    ∃ target, program.Takes settings leaf
      ⟨⟨Step.acquireCode settings .take :: statement :: behind, locals⟩ :: callers, token :: rest⟩ target := by
  have current := locals.set_self settings.tokenVariable (.record token)
  have taken := Step.execute_acquireCode settings (parsed.run_succ_servesTokens 0) .take locals (token :: rest)
  exact ⟨_, _, _, callers, token, .onward (.taking rfl taken) (.onward (.chosen current chooses _ _ _) (.here _)),
    rfl, rfl, current, List.cons_ne_nil _ _, fun test member => List.mem_singleton.mp member⟩

/-- A token that has been seen is taken in the arm for its leaf, at once where the
alternative begins with this leaf and by the alternative in full otherwise. -/
private theorem takes_of_seen (parsed : grammar.IsParsedBy program) {locals : Locals}
    (current : locals settings.tokenVariable = some (.record token)) {branch : Pattern} {statement : Statement}
    (chooses : statement.Chooses settings token leaf
      (Step.code settings ((grammar.analysis.plan owner branch).afterSelection .peek leaf)))
    (ofBranch : grammar.TakesFirst program settings leaf token owner branch) (behind : List Statement)
    (callers : List Frame) (rest : List TokenRecord) :
    ∃ target, program.Takes settings leaf ⟨⟨statement :: behind, locals⟩ :: callers, token :: rest⟩ target := by
  have intoArm : program.Moves _ _ _ := .chosen current chooses behind callers (token :: rest)
  rcases ofBranch [] behind locals callers rest with ⟨target, inFull⟩
  rw [← Step.code_body] at inFull
  rw [Step.afterSelection] at intoArm
  split at intoArm
  · rename_i required steps begins
    split at intoArm
    · -- The token being looked at is removed as the first thing in the arm.
      have removed : (Statement.call Support.take []).execute (program.run 1) locals (token :: rest) =
          .ok (.next locals, rest) := by
        rw [Step.execute_call, parsed.run_succ_take]
        rfl
      rw [Step.code] at intoArm
      exact ⟨_, _, _, callers, token, .onward intoArm (.onward (.taking rfl removed) (.here _)), rfl, rfl, current,
        List.cons_ne_nil _ _, fun test member => List.mem_singleton.mp member⟩
    · rw [begins] at inFull
      exact ⟨target, inFull.of_tested intoArm rfl⟩
  · exact ⟨target, inFull.of_tested intoArm rfl⟩

/-- A selection that answers a token is written as a branch that chooses the arm of the
answer. -/
theorem exists_chooses_of_find? (settings : Settings) (owner : String) {pattern : Pattern}
    (selects : pattern.selects = true) {entry : LookaheadEntry}
    (search : (grammar.analysis.lookaheadOf owner pattern).tokenEntries.find? (·.terminal.accepts token) =
      some entry) :
    ∃ acquisition statement,
      Step.code settings [grammar.analysis.plan owner pattern] = [Step.acquireCode settings acquisition, statement] ∧
        statement.Chooses settings token entry.terminal (Step.code settings
          ((grammar.analysis.plan owner entry.branch).afterSelection acquisition entry.terminal)) := by
  rcases List.find?_eq_some_iff_append.mp search with ⟨accepted, early, late, split, unanswered⟩
  refine ⟨Analysis.acquisitionFor pattern (grammar.analysis.lookaheadOf owner pattern), ?_⟩
  rw [Analysis.plan_of_selects _ _ _ selects, Analysis.selection_eq, Step.code, Step.code, List.append_nil,
    Step.armsCode_eq_map, split, List.map_map, List.map_append, List.map_cons, Step.selectCode, if_neg (by simp)]
  refine ⟨_, rfl, accepted, _, _, _, rfl, ?_⟩
  intro arm member
  rcases List.mem_map.mp member with ⟨other, inEarly, rfl⟩
  exact ⟨other.terminal, rfl, by simpa using unanswered other inEarly⟩

/-! ### Each shape of pattern -/

theorem takesFirst_terminal (parsed : grammar.IsParsedBy program) (real : leaf ≠ .epsilon)
    (accepted : leaf.accepts token = true) :
    grammar.TakesFirst program settings leaf token owner (.terminal leaf) := by
  intro more behind locals callers rest
  rw [Analysis.plan, if_neg real, Step.code]
  exact takes_of_taken parsed ⟨accepted, [], [], _, rfl, List.forall_mem_nil _⟩ _ locals callers rest

theorem takesFirst_head {factor : Pattern} {others : List Pattern}
    (ofFactor : grammar.TakesFirst program settings leaf token owner factor) :
    grammar.TakesFirst program settings leaf token owner (.sequence (factor :: others)) := by
  intro more behind locals callers rest
  rw [Analysis.plan_sequence, Step.code, List.map_cons, List.append_assoc]
  exact ofFactor _ _ locals callers rest

theorem takesFirst_later (parsed : grammar.IsParsedBy program) {factor : Pattern} {others : List Pattern}
    (leading : grammar.IsLeading owner (.sequence (factor :: others))) (nullable : grammar.Derives factor [])
    (cannot : grammar.CannotBegin factor token)
    (ofRest : grammar.TakesFirst program settings leaf token owner (.sequence others)) :
    grammar.TakesFirst program settings leaf token owner (.sequence (factor :: others)) := by
  intro more behind locals callers rest
  have notLeaf : ∀ leaf, factor = .terminal leaf -> leaf = .epsilon := by
    rintro leaf rfl
    cases nullable
    rfl
  have passed : grammar.analysis.Reads owner factor (token :: rest) (token :: rest) :=
    reads_nothing nullable rfl owner leading.head.leaves cannot
  rcases exists_run_of_reads parsed settings leading.head.references passed locals with ⟨depth, after, run⟩
  rcases ofRest more behind after callers rest with ⟨target, later⟩
  rw [Analysis.plan_sequence, Step.code, List.append_assoc] at later
  rw [Analysis.plan_sequence, Step.code, List.map_cons, code_plan_cons settings owner notLeaf,
    List.append_assoc, List.append_assoc]
  exact ⟨target, later.of_untested (.past run) rfl⟩

theorem takesFirst_reference (made : grammar.parser settings = .ok program) {production : Production}
    (declared : production ∈ grammar.productions)
    (ofRoot : grammar.TakesFirst program settings leaf token production.name production.root) :
    grammar.TakesFirst program settings leaf token owner (.reference production.name) := by
  intro more behind locals callers rest
  rcases routine?_of_mem made declared with ⟨routine, steps, found, routineFor⟩
  have noParameters : routine.parameters = [] := by rw [routineFor.written]
  rcases grammar.analysis.exists_preamble settings production steps with ⟨preamble, written, runs⟩
  rcases runs (program.run 0) .none (token :: rest) with ⟨after, run⟩
  have body : routine.body =
      preamble ++ Step.code settings [grammar.analysis.plan production.name production.root] := by
    rw [routineFor.written, written, code_routinePlan settings declared routineFor.planned]
  rcases ofRoot [] [] after (⟨Step.code settings more ++ behind, locals⟩ :: callers) rest with ⟨target, inRoutine⟩
  rw [List.append_nil] at inRoutine
  rw [Analysis.plan, Step.code, List.cons_append]
  refine ⟨target, .of_untested (.entering found noParameters) rfl ?_⟩
  rw [body]
  exact inRoutine.of_untested (.past run) rfl

theorem takesFirst_of_selects (parsed : grammar.IsParsedBy program) (apart : grammar.SpellsApart)
    {pattern : Pattern} (selects : pattern.selects = true) (leading : grammar.IsLeading owner pattern)
    (first : grammar.First pattern leaf) (accepted : leaf.accepts token = true)
    (own : ∀ other ∈ grammar.leaves, other.accepts token = true -> other = leaf)
    (ofBranch : ∀ branch ∈ pattern.selectable, grammar.First branch leaf ->
      grammar.TakesFirst program settings leaf token owner branch) :
    grammar.TakesFirst program settings leaf token owner pattern := by
  intro more behind locals callers rest
  have avoiding := firstAvoiding_of_not_beginsWith first leading.apart
  rcases grammar.analysis.find?_tokenEntries_of_first apart leading.leaves selects avoiding accepted own with
    ⟨entry, search, rfl, branchFirst⟩
  have isPart := (grammar.analysis.branch_of_mem_tokenEntries selects (List.mem_of_find?_eq_some search)).1
  rcases exists_chooses_of_find? settings owner selects search with ⟨acquisition, statement, written, chooses⟩
  have notLeaf : ∀ leaf, pattern = .terminal leaf -> leaf = .epsilon := by
    rintro leaf rfl
    cases selects
  rw [code_plan_cons settings owner notLeaf, written, List.append_assoc]
  cases acquisition with
  | take => exact takes_of_taken parsed chooses _ locals callers rest
  | peek =>
      have seen : Statement.executeBlock (program.run 1) [Step.acquireCode settings .peek] locals (token :: rest) =
          .ok (.next (locals.set settings.tokenVariable (.record token)), token :: rest) := by
        rw [Statement.executeBlock, Step.execute_acquireCode settings (parsed.run_succ_servesTokens 0)]
        rfl
      have current := locals.set_self settings.tokenVariable (.record token)
      rcases takes_of_seen parsed current chooses (ofBranch _ isPart branchFirst)
        (Step.code settings more ++ behind) callers rest with ⟨target, inArm⟩
      have looked : program.Moves
          ⟨⟨[Step.acquireCode settings .peek] ++ statement :: (Step.code settings more ++ behind), locals⟩ :: callers,
            token :: rest⟩ none _ := .past seen
      exact ⟨target, inArm.of_untested looked rfl⟩

/-- The statements written for a pattern that stands first take a token that the pattern
can begin with. -/
theorem takesFirst_of_first (made : grammar.parser settings = .ok program) (apart : grammar.SpellsApart)
    (notLeftRecursive : grammar.NotLeftRecursive) {pattern : Pattern} (leading : grammar.IsLeading owner pattern)
    (first : grammar.First pattern leaf) (accepted : leaf.accepts token = true)
    (own : ∀ other ∈ grammar.leaves, other.accepts token = true -> other = leaf) :
    grammar.TakesFirst program settings leaf token owner pattern := by
  have parsed := isParsedBy_of_parser_eq_ok made
  induction leading using inductionOnLeading with
  | notLeftRecursive => exact notLeftRecursive
  | terminal owner found leading =>
      cases first with
      | leaf real => exact takesFirst_terminal parsed real accepted
  | reference owner production declared leading root inductionHypothesis =>
      rcases first.exists_production with ⟨entered, enteredDeclared, sameName, ofRoot⟩
      cases production_eq_of_name enteredDeclared declared sameName
      exact takesFirst_reference made declared (inductionHypothesis ofRoot)
  | noFactors owner leading => cases first
  | factors owner factor rest leading firstHypothesis laterHypothesis =>
      by_cases atFactor : grammar.First factor leaf
      · exact takesFirst_head (firstHypothesis atFactor)
      · cases first with
        | head found => exact absurd found atFactor
        | later nullable found =>
            -- No other leaf of the factor accepts the token, so the factor lets it pass.
            have cannot : grammar.CannotBegin factor token := by
              intro other otherFirst
              apply Bool.eq_false_iff.mpr
              intro otherAccepted
              have isLeaf := otherFirst.mem_leaves (List.Subset.refl _) leading.head.leaves
              exact atFactor (own other isLeaf otherAccepted ▸ otherFirst)
            exact takesFirst_later parsed leading nullable cannot (laterHypothesis nullable found)
  | selection owner pattern selects leading inductionHypothesis =>
      exact takesFirst_of_selects parsed apart selects leading first accepted own inductionHypothesis

/-! ## The law -/

theorem IsParsedBy.ends_of_yields (parsed : grammar.IsParsedBy program) {rule : String}
    (isRule : rule ∈ grammar.names) {owner : String} {buffer : List TokenRecord} {result : Except Halt (List TokenRecord)}
    (yields : grammar.analysis.Yields owner (.reference rule) buffer result)
    (finished : result ≠ .error .unfinished) : program.Ends rule buffer result := by
  rcases yields with ⟨depth, ends⟩
  have followed := ends depth (Nat.le_refl depth)
  rw [Analysis.parse_reference] at followed
  exact (parsed.ends_iff isRule).mpr ⟨finished, depth, followed⟩

/-- What a rule's routine does with the first token: it takes the token as a leaf that
the rule can begin with, or else ends with nothing taken where the rule is nullable and
with a mismatch at the token where it is not. -/
theorem decides_by_first_token (grammar : Grammar) (apart : grammar.SpellsApart)
    (notLeftRecursive : grammar.NotLeftRecursive) {settings : Settings} {program : Program}
    (made : grammar.parser settings = .ok program) {rule : String} (isRule : rule ∈ grammar.names)
    {token : TokenRecord}
    (single : ∀ left ∈ grammar.leaves, ∀ right ∈ grammar.leaves,
      left.accepts token = true -> right.accepts token = true -> left = right)
    (rest : List TokenRecord) :
    (∀ leaf, grammar.First (.reference rule) leaf -> leaf.accepts token = true ->
      ∃ target, program.Takes settings leaf (Program.entryPoint rule (token :: rest)) target ∧
        ∀ result, program.Ends rule (token :: rest) result ↔ program.EndsFrom target result) ∧
    ((∀ leaf, grammar.First (.reference rule) leaf -> leaf.accepts token = false) ->
      (grammar.Derives (.reference rule) [] -> program.Ends rule (token :: rest) (.ok (token :: rest))) ∧
      (¬ grammar.Derives (.reference rule) [] ->
        ∃ expected, program.Ends rule (token :: rest) (.error (.mismatch token.position expected)))) := by
  have parsed := isParsedBy_of_parser_eq_ok made
  rcases exists_production_of_mem_names isRule with ⟨production, declared, rfl⟩
  have root := IsLeading.root notLeftRecursive declared
  refine ⟨?_, fun cannot => ⟨fun nullable => ?_, fun required => ?_⟩⟩
  · intro leaf first accepted
    rcases first.exists_production with ⟨entered, enteredDeclared, sameName, ofRoot⟩
    cases production_eq_of_name enteredDeclared declared sameName
    have isLeaf := ofRoot.mem_leaves (List.Subset.refl _) root.leaves
    have rootTakes := takesFirst_of_first made apart notLeftRecursive root ofRoot accepted
      fun other otherLeaf otherAccepted => single other otherLeaf leaf isLeaf otherAccepted accepted
    have takes : grammar.TakesFirst program settings leaf token production.name (.reference production.name) :=
      takesFirst_reference made declared rootTakes
    rcases takes [] [] .none [] rest with ⟨target, called⟩
    rw [List.append_nil, Analysis.plan, Step.code, Step.code] at called
    exact ⟨target, called, fun result => called.ends_iff⟩
  · have subset : (Pattern.reference production.name).leaves ⊆ grammar.leaves := List.nil_subset _
    have passed : grammar.analysis.Reads production.name (.reference production.name) (token :: rest) _ :=
      reads_nothing nullable rfl production.name subset cannot
    exact parsed.ends_of_yields isRule passed (ok_ne_unfinished _)
  · have cannotRoot : grammar.CannotBegin production.root (frontToken (token :: rest)) :=
      fun leaf first => cannot leaf (.rule declared first)
    have rootRequired : ¬ grammar.Derives production.root [] := fun nullable => required (.rule declared nullable)
    rcases yields_mismatch apart notLeftRecursive root cannotRoot rootRequired with ⟨expected, stopped⟩
    have atRule : grammar.analysis.Yields production.name (.reference production.name) (token :: rest) _ :=
      stopped.reference declared
    exact ⟨expected, parsed.ends_of_yields isRule atRule (mismatch_ne_unfinished _ _)⟩

def conditionalProduction : Production :=
  ⟨"statement", .choice [.sequence [.literal "if", .reference "statement", .reference "otherwise"], .literal "skip"]⟩

def otherwiseProduction : Production :=
  ⟨"otherwise", .optional (.sequence [.literal "else", .reference "statement"])⟩

/-- Statements in which it is left open what an alternative belongs to. -/
def conditionals : Grammar where
  declarations :=
    [⟨conditionalProduction, "\"if\" statement otherwise | \"skip\""⟩,
      ⟨otherwiseProduction, "( \"else\" statement ) ?"⟩]
  nonempty := by decide
  distinct := by decide
  closed := by decide

/-- A keyword at the beginning of the input. -/
def keyword (text : String) : TokenRecord := ⟨"keyword", text, "1:1"⟩

private theorem first_statement {leaf : Terminal} (first : conditionals.First (.reference "statement") leaf) :
    leaf = .literal "if" ∨ leaf = .literal "skip" := by
  rcases first.exists_production with ⟨production, declared, sameName, root⟩
  cases production_eq_of_name declared (show conditionalProduction ∈ conditionals.productions by decide) sameName
  cases root with
  | alternative member taken =>
      rcases List.mem_cons.mp member with rfl | member
      · exact Or.inl (Pattern.eq_firstLeaf_of_first rfl taken)
      · rw [List.mem_singleton.mp member] at taken
        exact Or.inr (Pattern.eq_firstLeaf_of_first rfl taken)

private theorem first_otherwise {leaf : Terminal} (first : conditionals.First (.reference "otherwise") leaf) :
    leaf = .literal "else" := by
  rcases first.exists_production with ⟨production, declared, sameName, root⟩
  cases production_eq_of_name declared (show otherwiseProduction ∈ conditionals.productions by decide) sameName
  cases root with
  | content taken => exact Pattern.eq_firstLeaf_of_first rfl taken

theorem conditionals_spellsApart : conditionals.SpellsApart := by
  intro name member
  have known : Terminal.tokenClass name ∈ [Terminal.literal "if", .literal "skip", .literal "else"] := member
  simp at known

/-- What follows a keyword cannot stand first. -/
private theorem not_beginsWith_keyword {text rule : String} {rest : List Pattern}
    (real : text ≠ Terminal.epsilonText) :
    ¬ conditionals.BeginsWith rule (.sequence (.literal text :: rest)) := by
  intro begins
  cases begins with
  | head inLeaf => cases inLeaf
  | later nullable _ =>
      have marker : Terminal.literal text = .epsilon := beq_iff_eq.mp (isNullable_iff_derives_nil.mpr nullable)
      exact real (Terminal.literal.inj marker)

theorem conditionals_notLeftRecursive : conditionals.NotLeftRecursive := by
  intro production declared begins
  have known : production ∈ [conditionalProduction, otherwiseProduction] := declared
  simp only [List.mem_cons, List.not_mem_nil, or_false] at known
  rcases known with rfl | rfl
  · cases begins with
    | alternative member taken =>
        rcases List.mem_cons.mp member with rfl | member
        · exact not_beginsWith_keyword (by decide) taken
        · rw [List.mem_singleton.mp member] at taken
          cases taken
  · cases begins with
    | content taken => exact not_beginsWith_keyword (by decide) taken

theorem decides_by_first_token_conditional :
    conditionals.SpellsApart ∧ conditionals.NotLeftRecursive ∧
      "statement" ∈ conditionals.names ∧ "otherwise" ∈ conditionals.names ∧
      (∀ text ∈ ["if", "else", "skip"], ∀ left ∈ conditionals.leaves, ∀ right ∈ conditionals.leaves,
        left.accepts (keyword text) = true -> right.accepts (keyword text) = true -> left = right) ∧
      ∃ program, conditionals.parser .standard = .ok program ∧
        (∃ target, program.Takes .standard (.literal "if") (Program.entryPoint "statement" [keyword "if"]) target ∧
          ∀ result, program.Ends "statement" [keyword "if"] result ↔ program.EndsFrom target result) ∧
        program.Ends "otherwise" [keyword "skip"] (.ok [keyword "skip"]) ∧
        ∃ expected, program.Ends "statement" [keyword "else"] (.error (.mismatch "1:1" expected)) := by
  have isStatement : "statement" ∈ conditionals.names := by decide
  have isOtherwise : "otherwise" ∈ conditionals.names := by decide
  have single : ∀ text ∈ ["if", "else", "skip"], ∀ left ∈ conditionals.leaves, ∀ right ∈ conditionals.leaves,
      left.accepts (keyword text) = true -> right.accepts (keyword text) = true -> left = right := by decide
  rcases exists_of_isOk (show (conditionals.parser .standard).isOk = true by decide +kernel) with ⟨program, made⟩
  have law {rule : String} (isRule : rule ∈ conditionals.names) {text : String}
      (known : text ∈ ["if", "else", "skip"]) :=
    decides_by_first_token conditionals conditionals_spellsApart conditionals_notLeftRecursive made isRule
      (single text known) []
  have declared : conditionalProduction ∈ conditionals.productions := by decide
  have begins : conditionals.First (.reference "statement") (.literal "if") :=
    .rule declared (.alternative List.mem_cons_self (.head (.leaf (by decide))))
  have nullable : conditionals.Derives (.reference "otherwise") [] :=
    isNullable_iff_derives_nil.mp (by decide +kernel)
  have required : ¬ conditionals.Derives (.reference "statement") [] :=
    fun derives => absurd (isNullable_iff_derives_nil.mpr derives) (by decide +kernel)
  refine ⟨conditionals_spellsApart, conditionals_notLeftRecursive, isStatement, isOtherwise, single, program, made,
    ?_, ?_, ?_⟩
  · exact (law isStatement (by decide)).1 _ begins (by decide)
  · refine ((law isOtherwise (by decide)).2 ?_).1 nullable
    intro leaf first
    rw [first_otherwise first]
    decide
  · refine ((law isStatement (by decide)).2 ?_).2 required
    intro leaf first
    rcases first_statement first with rfl | rfl <;> decide

end Grammar
end PredictiveParsing
