import PredictiveParsing.Proofs.Soundness

namespace PredictiveParsing

/-!
# Parsers without short cuts

A plain routine goes by the same lookahead tables, but it always looks at the next
token before it selects, then follows the selected alternative in full from its first
factor, and it matches factors one by one, where each call of a rule is a statement by
itself.  The routines of a parser take a token away at once, pass over a leaf that has
been seen, leave out markers and move calls into the branch of a match.  All the same
they end as the plain routines do, whatever the grammar and the tokens, and also where
neither ends.
-/

/-! ## Plain statements -/

/-- Looks at the next token and selects among the entries of a table. -/
def Lookahead.plainSelection (settings : Settings) (table : Lookahead)
    (coded : { entry // entry ∈ table.tokenEntries } -> List Statement) : List Statement :=
  [Step.acquireCode settings .peek,
    .branch
      (table.tokenEntries.attach.map fun entry => (Step.matchCode settings entry.val.terminal, coded entry))
      (if table.admitsNothing then none
      else some [Step.mismatchCode settings (",".intercalate (table.tokenEntries.map (·.spelling)))])]

namespace Analysis

/-- The statements that follow a pattern in the right-hand side of its owner. -/
def plainCode (analysis : Analysis) (settings : Settings) (owner : String) : Pattern -> List Statement
  | .terminal leaf =>
      if leaf = .epsilon then []
      else
        [Step.acquireCode settings .take,
          .branch [(Step.matchCode settings leaf, [])] (some [Step.mismatchCode settings leaf.spelling])]
  | .reference rule => [.call rule []]
  | .sequence factors => factors.attach.flatMap fun factor => analysis.plainCode settings owner factor.val
  | .choice alternatives =>
      (analysis.lookaheadOf owner (.choice alternatives)).plainSelection settings
        fun entry => analysis.plainCode settings owner entry.val.branch
  | .optional content =>
      (analysis.lookaheadOf owner (.optional content)).plainSelection settings
        fun entry => analysis.plainCode settings owner entry.val.branch
termination_by pattern => pattern.size
decreasing_by
  · have smaller := Pattern.size_lt_of_mem factor.property
    rw [Pattern.size]
    omega
  · exact size_branch_lt analysis owner _ rfl entry.val entry.property
  · exact size_branch_lt analysis owner _ rfl entry.val entry.property

def plainRoutine (analysis : Analysis) (settings : Settings) (production : Production) : Routine :=
  ⟨production.name, .rule, [], none,
    .declare settings.tokenVariable .token :: analysis.plainCode settings production.name production.root⟩

end Analysis

def Grammar.plainParser (grammar : Grammar) (settings : Settings) : Program :=
  ⟨Support.bufferDefinitions settings ++
    (grammar.productions.map (grammar.analysis.plainRoutine settings)).map .routine ++
    [Support.parseRoutine grammar.start.name, Support.mainRoutine settings]⟩

/-! ## What plain statements do -/

namespace Analysis

variable (analysis : Analysis) (settings : Settings) (owner : String) {invoke : Invocation}

theorem plainCode_sequence_cons (factor : Pattern) (rest : List Pattern) :
    analysis.plainCode settings owner (.sequence (factor :: rest)) =
      analysis.plainCode settings owner factor ++ analysis.plainCode settings owner (.sequence rest) := by
  have flat (factors : List Pattern) : analysis.plainCode settings owner (.sequence factors) =
      factors.flatMap (analysis.plainCode settings owner) := by
    rw [plainCode, List.flatMap_subtype fun _ _ => rfl, List.unattach_attach]
  rw [flat, flat, List.flatMap_cons]

theorem plainCode_of_selects {pattern : Pattern} (selects : pattern.selects = true) :
    analysis.plainCode settings owner pattern =
      [Step.acquireCode settings .peek,
        .branch
          ((analysis.lookaheadOf owner pattern).tokenEntries.map fun entry =>
            (Step.matchCode settings entry.terminal, analysis.plainCode settings owner entry.branch))
          (if (analysis.lookaheadOf owner pattern).admitsNothing then none
          else some [Step.mismatchCode settings
            (",".intercalate ((analysis.lookaheadOf owner pattern).tokenEntries.map (·.spelling)))])] := by
  have arms (table : Lookahead) :
      (table.tokenEntries.attach.map fun entry =>
        (Step.matchCode settings entry.val.terminal, analysis.plainCode settings owner entry.val.branch)) =
        table.tokenEntries.map fun entry =>
          (Step.matchCode settings entry.terminal, analysis.plainCode settings owner entry.branch) :=
    List.attach_map_val (f := fun entry : LookaheadEntry =>
      (Step.matchCode settings entry.terminal, analysis.plainCode settings owner entry.branch))
  cases pattern with
  | choice alternatives => rw [plainCode, Lookahead.plainSelection, arms]
  | optional content => rw [plainCode, Lookahead.plainSelection, arms]
  | _ => cases selects

/-- The first arm that accepts the token does what its entry says. -/
private theorem goesOn_entries (coded : LookaheadEntry -> List Statement)
    (take : Pattern -> Except Halt (List TokenRecord)) {locals : Locals} {token : TokenRecord}
    (current : locals settings.tokenVariable = some (.record token)) {buffer : List TokenRecord}
    {otherwise : List TokenRecord -> Except Halt (Flow × List TokenRecord)}
    {result : Except Halt (List TokenRecord)} (fallback : GoesOn (otherwise buffer) result)
    {entries : List LookaheadEntry}
    (goes : ∀ entry ∈ entries,
      GoesOn (Statement.executeBlock invoke (coded entry) locals buffer) (take entry.branch)) :
    GoesOn
      (Statement.executeArms invoke
        (entries.map fun entry => (Step.matchCode settings entry.terminal, coded entry)) locals otherwise buffer)
      (match entries.find? (·.terminal.accepts token) with
      | some entry => take entry.branch
      | none => result) := by
  induction entries with
  | nil => exact fallback
  | cons entry rest inductionHypothesis =>
      rw [List.map_cons, Statement.executeArms, Step.evaluate_matchCode current, List.find?_cons]
      cases entry.terminal.accepts token with
      | true => exact goes entry List.mem_cons_self
      | false => exact inductionHypothesis fun other member => goes other (List.mem_cons_of_mem _ member)

private theorem goesOn_selection (serves : invoke.ServesTokens) {pattern : Pattern} (selects : pattern.selects = true)
    (goes : ∀ branch ∈ pattern.selectable, ∀ locals buffer,
      GoesOn (Statement.executeBlock invoke (analysis.plainCode settings owner branch) locals buffer)
        (analysis.parse invoke.ruleCall owner branch buffer)) (locals : Locals) (buffer : List TokenRecord) :
    GoesOn (Statement.executeBlock invoke (analysis.plainCode settings owner pattern) locals buffer)
      (analysis.parse invoke.ruleCall owner pattern buffer) := by
  have current := locals.set_self settings.tokenVariable (.record (frontToken buffer))
  rw [plainCode_of_selects analysis settings owner selects, parse_of_selects analysis _ owner selects]
  refine Step.goesOn_cons (Step.execute_acquireCode settings serves .peek locals buffer) (Step.goesOn_single ?_)
  rw [Statement.execute]
  refine goesOn_entries settings (fun entry => analysis.plainCode settings owner entry.branch)
    (fun branch => analysis.parse invoke.ruleCall owner branch buffer) current ?_ fun entry member =>
      goes _ (analysis.branch_of_mem_tokenEntries selects member).1 _ _
  cases (analysis.lookaheadOf owner pattern).admitsNothing with
  | true => exact ⟨_, rfl⟩
  | false => exact Step.executeBlock_mismatchCode invoke current _ _

/-- Plain statements follow their pattern. -/
theorem plainCode_goesOn (serves : invoke.ServesTokens) (pattern : Pattern) (locals : Locals)
    (buffer : List TokenRecord) :
    GoesOn (Statement.executeBlock invoke (analysis.plainCode settings owner pattern) locals buffer)
      (analysis.parse invoke.ruleCall owner pattern buffer) := by
  induction pattern using Pattern.inductionOnParts generalizing locals buffer with
  | terminal leaf =>
      by_cases marker : leaf = .epsilon
      · rw [plainCode, if_pos marker, marker, parse_marker]
        exact ⟨locals, rfl⟩
      · rw [plainCode, if_neg marker, parse_leaf analysis _ owner marker]
        have current := locals.set_self settings.tokenVariable (.record (frontToken buffer))
        refine Step.goesOn_cons (Step.execute_acquireCode settings serves .take locals buffer) (Step.goesOn_single ?_)
        rw [Statement.execute, Statement.executeArms, Step.evaluate_matchCode current]
        cases leaf.accepts (frontToken buffer) with
        | true => exact ⟨_, rfl⟩
        | false => exact Step.executeBlock_mismatchCode invoke current _ _
  | reference rule =>
      rw [plainCode, parse_reference, Invocation.ruleCall]
      apply Step.goesOn_single
      rw [Step.execute_call]
      cases invoke rule [] buffer with
      | ok result => exact ⟨locals, rfl⟩
      | error halt => rfl
  | sequence factors inductionHypothesis =>
      induction factors generalizing locals buffer with
      | nil =>
          rw [plainCode, parse_sequence_nil]
          exact ⟨locals, rfl⟩
      | cons factor rest restHypothesis =>
          rw [plainCode_sequence_cons, parse_sequence_cons]
          exact Step.goesOn_append (inductionHypothesis factor List.mem_cons_self locals buffer)
            (restHypothesis fun other member => inductionHypothesis other (List.mem_cons_of_mem _ member))
  | choice alternatives inductionHypothesis =>
      have selects : (Pattern.choice alternatives).selects = true := rfl
      exact analysis.goesOn_selection settings owner serves selects inductionHypothesis locals buffer
  | optional content inductionHypothesis =>
      refine analysis.goesOn_selection settings owner serves rfl (fun branch member => ?_) locals buffer
      rw [List.mem_singleton.mp member]
      exact inductionHypothesis

end Analysis

namespace Grammar

variable {grammar : Grammar} {settings : Settings} {program : Program}

/-- Plain routines parse by a grammar in which no rule has a reserved name. -/
theorem isParsedBy_plainParser (free : ∀ rule ∈ grammar.names, rule ∉ Support.reservedNames) (settings : Settings) :
    grammar.IsParsedBy (grammar.plainParser settings) where
  peek := rfl
  take := rfl
  free := free
  follows := by
    intro production declared
    have found : (grammar.productions.map (grammar.analysis.plainRoutine settings)).find?
        (·.name == production.name) = some (grammar.analysis.plainRoutine settings production) := by
      rw [List.find?_map]
      exact congrArg (Option.map _) (find?_productions declared)
    refine ⟨_, routine?_of_find? (free _ (name_mem_names declared)) found _, ?_⟩
    intro invoke serves buffer
    refine (Routine.map_snd_execute rfl invoke buffer).trans (GoesOn.map_snd ?_)
    have declares : (Statement.declare settings.tokenVariable .token).execute invoke .none buffer =
        .ok (.next (Locals.none.introduce settings.tokenVariable), buffer) := by
      rw [Statement.execute]
    exact Step.goesOn_cons declares
      (grammar.analysis.plainCode_goesOn settings production.name serves production.root _ buffer)

/-- The routines of a parser end as the plain routines do. -/
theorem ends_iff_ends_plainParser (made : grammar.parser settings = .ok program) {rule : String}
    (isRule : rule ∈ grammar.names) (buffer : List TokenRecord) (result : Except Halt (List TokenRecord)) :
    program.Ends rule buffer result ↔ (grammar.plainParser settings).Ends rule buffer result := by
  have parsed := isParsedBy_of_parser_eq_ok made
  rw [parsed.ends_iff isRule, (isParsedBy_plainParser parsed.free settings).ends_iff isRule]

/-- Bindings of names to numbers.  The routine of a binding takes the keyword away at
once and calls the rule of the value from the branch where the name matched, and the
routine of the value leaves out the marker and passes over the sign it has seen. -/
def bindings : Grammar where
  declarations :=
    [⟨⟨"binding", .sequence [.choice [.literal "let", .literal "var"], .tokenClass "name", .reference "value"]⟩,
        "( \"let\" | \"var\" ) <name> value"⟩,
      ⟨⟨"value", .optional (.sequence [.epsilon, .literal "=", .tokenClass "number"])⟩,
        "( ¬ \"=\" <number> )?"⟩]
  nonempty := by decide
  distinct := by decide
  closed := by decide

def bindingTokens : List TokenRecord :=
  [⟨"keyword", "var", "1:1"⟩, ⟨"name", "x", "1:5"⟩, ⟨"operator", "=", "1:7"⟩, ⟨"number", "1", "1:9"⟩]

def bindingEnd : TokenRecord := ⟨"EOF", "", "1:10"⟩

theorem ends_iff_ends_plainParser_binding :
    "binding" ∈ bindings.names ∧
      ∃ program, bindings.parser .standard = .ok program ∧
        program.Ends "binding" (bindingTokens ++ [bindingEnd]) (.ok [bindingEnd]) ∧
        (bindings.plainParser .standard).Ends "binding" (bindingTokens ++ [bindingEnd]) (.ok [bindingEnd]) := by
  have isRule : "binding" ∈ bindings.names := by decide
  rcases exists_of_isOk (show (bindings.parser .standard).isOk = true by decide +kernel) with ⟨program, made⟩
  have parsed : bindings.analysis.parseRule 2 "binding" (bindingTokens ++ [bindingEnd]) = .ok [bindingEnd] := by
    decide +kernel
  have ends : program.Ends "binding" (bindingTokens ++ [bindingEnd]) (.ok [bindingEnd]) :=
    ((isParsedBy_of_parser_eq_ok made).ends_iff isRule).mpr ⟨ok_ne_unfinished _, 2, parsed⟩
  exact ⟨isRule, program, made, ends, (ends_iff_ends_plainParser made isRule _ _).mp ends⟩

end Grammar
end PredictiveParsing
