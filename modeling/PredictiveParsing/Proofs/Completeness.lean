import PredictiveParsing.Proofs.FollowSet
import PredictiveParsing.Proofs.Soundness

namespace PredictiveParsing

/-!
# Completeness of parsers

Where one token of lookahead is enough, a routine takes every sentence of its rule
off the buffer.  The proof follows the derivation of the sentence from left to
right, and what it has to know at each place is that the token after the sentence
can come there.  Then a part is passed over exactly where its sentence is empty,
and otherwise its table names the alternative of the derivation: the table of a
part is complete because no part that selects begins with its own rule.
-/

namespace Grammar

/-! ## Sentences as tokens -/

/-- Whether the tokens spell the sentence, and no token could be read as another
leaf of the grammar. -/
def Spells (grammar : Grammar) : List Terminal -> List TokenRecord -> Prop :=
  List.Forall₂ fun leaf token =>
    leaf.accepts token = true ∧ ∀ other ∈ grammar.leaves, other.accepts token = true -> other = leaf

variable {grammar : Grammar}

theorem Spells.split {front back : List Terminal} {tokens : List TokenRecord}
    (spelled : grammar.Spells (front ++ back) tokens) :
    ∃ frontTokens backTokens, tokens = frontTokens ++ backTokens ∧
      grammar.Spells front frontTokens ∧ grammar.Spells back backTokens := by
  have ofFront := List.forall₂_take front.length spelled
  have ofBack := List.forall₂_drop front.length spelled
  rw [List.take_left] at ofFront
  rw [List.drop_left] at ofBack
  exact ⟨_, _, (List.take_append_drop front.length tokens).symm, ofFront, ofBack⟩

/-! ## Places before a token -/

/-- Whether only leaves that can come after the pattern accept the token. -/
def CanFollow (grammar : Grammar) (pattern : Pattern) (token : TokenRecord) : Prop :=
  ∀ leaf ∈ grammar.leaves, leaf.accepts token = true -> grammar.Follows pattern leaf

/-- Whether the pattern stands in the production at a place after which the token can
come.  What is left of a sequence stands where the sequence does. -/
inductive Precedes (grammar : Grammar) (production : Production) (token : TokenRecord) : Pattern -> Prop where
  | part {pattern : Pattern} (inside : pattern ∈ production.root.parts)
      (follows : grammar.CanFollow pattern token) : Precedes grammar production token pattern
  | remaining {before rest : List Pattern} (inside : .sequence (before ++ rest) ∈ production.root.parts)
      (follows : grammar.CanFollow (.sequence (before ++ rest)) token) :
      Precedes grammar production token (.sequence rest)

namespace Precedes

variable {production : Production} {token : TokenRecord}

theorem of_sequence {factors : List Pattern} (precedes : grammar.Precedes production token (.sequence factors)) :
    ∃ before, .sequence (before ++ factors) ∈ production.root.parts ∧
      grammar.CanFollow (.sequence (before ++ factors)) token := by
  cases precedes with
  | part inside follows => exact ⟨[], inside, follows⟩
  | remaining inside follows => exact ⟨_, inside, follows⟩

theorem of_selects {pattern : Pattern} (selects : pattern.selects = true)
    (precedes : grammar.Precedes production token pattern) :
    pattern ∈ production.root.parts ∧ grammar.CanFollow pattern token := by
  cases precedes with
  | part inside follows => exact ⟨inside, follows⟩
  | remaining => cases selects

theorem of_reference {entered : Production} (declared : entered ∈ grammar.productions)
    (precedes : grammar.Precedes production token (.reference entered.name)) :
    grammar.Precedes entered token entered.root := by
  cases precedes with
  | part _ follows =>
      refine .part (Pattern.mem_parts_self _) ?_
      intro leaf member accepted
      exact .root declared (follows leaf member accepted)

theorem of_selectable {pattern branch : Pattern} (member : branch ∈ pattern.selectable)
    (inside : pattern ∈ production.root.parts) (follows : grammar.CanFollow pattern token) :
    grammar.Precedes production token branch := by
  have nested := Pattern.innerParts_subset_parts _ (Pattern.selectable_subset_innerParts _ member)
  refine .part (Pattern.mem_parts_trans inside nested) ?_
  intro leaf isLeaf accepted
  have behind := follows leaf isLeaf accepted
  cases pattern with
  | choice alternatives => exact .alternative member behind
  | optional content =>
      rw [List.mem_singleton.mp member]
      exact .content behind
  | _ => cases member

theorem later {factor : Pattern} {rest : List Pattern}
    (precedes : grammar.Precedes production token (.sequence (factor :: rest))) :
    grammar.Precedes production token (.sequence rest) := by
  rcases precedes.of_sequence with ⟨before, inside, follows⟩
  have same : before ++ factor :: rest = (before ++ [factor]) ++ rest := by
    rw [List.append_assoc, List.singleton_append]
  rw [same] at inside follows
  exact .remaining inside follows

/-- After a factor comes what the factors behind it begin with, or what comes after
the sequence where they derive nothing. -/
theorem first (declared : production ∈ grammar.productions) {factor : Pattern} {rest : List Pattern}
    {buffer : List TokenRecord}
    (precedes : grammar.Precedes production (frontToken buffer) (.sequence (factor :: rest)))
    {sentence : List Terminal} {tokens : List TokenRecord} (derives : grammar.Derives (.sequence rest) sentence)
    (spelled : grammar.Spells sentence tokens) :
    grammar.Precedes production (frontToken (tokens ++ buffer)) factor := by
  rcases precedes.of_sequence with ⟨before, inside, follows⟩
  have nested : factor ∈ (Pattern.sequence (before ++ factor :: rest)).parts :=
    Pattern.innerParts_subset_parts _ (Pattern.factor_mem_innerParts (List.mem_append_right _ List.mem_cons_self))
  refine .part (Pattern.mem_parts_trans inside nested) ?_
  intro leaf isLeaf accepted
  cases spelled with
  | nil => exact .last derives (follows leaf isLeaf accepted)
  | cons own _ =>
      -- The first token behind the factor is read as its own leaf only.
      rw [own.2 leaf isLeaf accepted]
      exact .next declared inside (first_of_derives derives rfl)

end Precedes

end Grammar

/-! ## Tables at work -/

namespace Analysis

variable {analysis : Analysis} {owner : String} {pattern : Pattern}

/-- The terminal of an entry is a leaf that the entry's part can begin with. -/
theorem terminal_of_mem_tokenEntries (subset : pattern.leaves ⊆ analysis.grammar.leaves)
    (selects : pattern.selects = true) {entry : LookaheadEntry}
    (member : entry ∈ (analysis.lookaheadOf owner pattern).tokenEntries) :
    analysis.grammar.First entry.branch entry.terminal ∧ entry.terminal ∈ analysis.grammar.leaves := by
  rcases analysis.branch_of_mem_tokenEntries selects member with ⟨taken, avoiding⟩
  have branchSubset := List.Subset.trans (Pattern.leaves_subset_of_mem_selectable taken) subset
  have first := Grammar.first_of_firstAvoiding avoiding
  exact ⟨first, first.mem_leaves (List.Subset.refl _) branchSubset⟩

/-- A token whose leaf the pattern can begin with is answered by an entry for this
leaf. -/
theorem find?_tokenEntries_of_first (analysis : Analysis) (apart : analysis.grammar.SpellsApart)
    (subset : pattern.leaves ⊆ analysis.grammar.leaves) (selects : pattern.selects = true) {leaf : Terminal}
    (first : analysis.grammar.FirstAvoiding owner pattern leaf) {token : TokenRecord}
    (accepted : leaf.accepts token = true)
    (own : ∀ other ∈ analysis.grammar.leaves, other.accepts token = true -> other = leaf) :
    ∃ entry, (analysis.lookaheadOf owner pattern).tokenEntries.find? (·.terminal.accepts token) = some entry ∧
      entry.terminal = leaf ∧ analysis.grammar.First entry.branch leaf := by
  have isLeaf := first.mem_leaves (List.filter_subset_self _) subset
  have spelling := (analysis.mem_spellings_lookaheadOf owner pattern (apart.spelling_ne_epsilon isLeaf)).mpr
    ⟨leaf, first, rfl⟩
  rcases List.mem_map.mp spelling with ⟨entry, found, sameSpelling⟩
  have isToken : entry.isEpsilon = false :=
    beq_eq_false_iff_ne.mpr (sameSpelling ▸ apart.spelling_ne_epsilon isLeaf)
  have member : entry ∈ (analysis.lookaheadOf owner pattern).tokenEntries :=
    Lookahead.mem_withoutEpsilon.mpr ⟨found, isToken⟩
  have same : entry.terminal = leaf :=
    apart.eq_of_spelling (terminal_of_mem_tokenEntries subset selects member).2 isLeaf sameSpelling
  cases search : (analysis.lookaheadOf owner pattern).tokenEntries.find? (·.terminal.accepts token) with
  | none => exact absurd (same ▸ accepted) (List.find?_eq_none.mp search entry member)
  | some selected =>
      rcases terminal_of_mem_tokenEntries subset selects (List.mem_of_find?_eq_some search) with
        ⟨branchFirst, isSelectedLeaf⟩
      have selectedSame := own selected.terminal isSelectedLeaf (by simpa using List.find?_some search)
      exact ⟨selected, rfl, selectedSame, selectedSame ▸ branchFirst⟩

/-- A token that is none of those that the pattern can begin with is not answered. -/
theorem find?_tokenEntries_of_absent (analysis : Analysis) (subset : pattern.leaves ⊆ analysis.grammar.leaves)
    (selects : pattern.selects = true) {token : TokenRecord}
    (refused : ∀ leaf ∈ analysis.grammar.leaves, leaf.accepts token = true -> ¬ analysis.grammar.First pattern leaf) :
    (analysis.lookaheadOf owner pattern).tokenEntries.find? (·.terminal.accepts token) = none := by
  apply List.find?_eq_none.mpr
  intro entry member accepted
  rcases terminal_of_mem_tokenEntries subset selects member with ⟨branchFirst, isLeaf⟩
  have taken := (analysis.branch_of_mem_tokenEntries selects member).1
  exact refused entry.terminal isLeaf accepted (Grammar.first_of_mem_selectable taken branchFirst)

/-- A token whose leaf the pattern can begin with leads to a part that can begin with
this leaf. -/
theorem dispatch_of_first (analysis : Analysis) (apart : analysis.grammar.SpellsApart)
    (subset : pattern.leaves ⊆ analysis.grammar.leaves) (selects : pattern.selects = true) {leaf : Terminal}
    (first : analysis.grammar.FirstAvoiding owner pattern leaf) {token : TokenRecord}
    (accepted : leaf.accepts token = true)
    (own : ∀ other ∈ analysis.grammar.leaves, other.accepts token = true -> other = leaf)
    (rest : List TokenRecord) :
    ∃ branch ∈ pattern.selectable, analysis.grammar.First branch leaf ∧
      ∀ take, (analysis.lookaheadOf owner pattern).dispatch take (token :: rest) = take branch := by
  rcases analysis.find?_tokenEntries_of_first apart subset selects first accepted own with
    ⟨entry, search, _, branchFirst⟩
  refine ⟨entry.branch, (analysis.branch_of_mem_tokenEntries selects (List.mem_of_find?_eq_some search)).1,
    branchFirst, ?_⟩
  intro take
  rw [Lookahead.dispatch, frontToken, List.headD_cons, search]

/-- A nullable pattern is passed over where the token is none that it can begin
with. -/
theorem dispatch_of_absent (analysis : Analysis) (subset : pattern.leaves ⊆ analysis.grammar.leaves)
    (selects : pattern.selects = true) (nullable : analysis.grammar.Derives pattern []) {rest : List TokenRecord}
    (refused : ∀ leaf ∈ analysis.grammar.leaves, leaf.accepts (frontToken rest) = true ->
      ¬ analysis.grammar.First pattern leaf) (take : Pattern -> Except Halt (List TokenRecord)) :
    (analysis.lookaheadOf owner pattern).dispatch take rest = .ok rest := by
  rw [Lookahead.dispatch, analysis.find?_tokenEntries_of_absent subset selects refused]
  exact if_pos (analysis.admitsNothing_of_selects owner selects nullable)

/-! ## Reading sentences -/

/-- Whether following a pattern has the given result, if calls may go deep enough. -/
def Yields (analysis : Analysis) (owner : String) (pattern : Pattern) (buffer : List TokenRecord)
    (result : Except Halt (List TokenRecord)) : Prop :=
  ∃ depth, ∀ deeper, depth ≤ deeper -> analysis.parse (analysis.parseRule deeper) owner pattern buffer = result

/-- Whether following a pattern leads from one buffer to another, if calls may go deep
enough. -/
def Reads (analysis : Analysis) (owner : String) (pattern : Pattern) (buffer rest : List TokenRecord) : Prop :=
  analysis.Yields owner pattern buffer (.ok rest)

theorem yields_of_parse {buffer : List TokenRecord} {result : Except Halt (List TokenRecord)}
    (parsed : ∀ call, analysis.parse call owner pattern buffer = result) :
    analysis.Yields owner pattern buffer result :=
  ⟨0, fun _ _ => parsed _⟩

namespace Yields

variable {buffer : List TokenRecord} {result : Except Halt (List TokenRecord)}

theorem reference {production : Production} (declared : production ∈ analysis.grammar.productions)
    (yields : analysis.Yields production.name production.root buffer result) :
    analysis.Yields owner (.reference production.name) buffer result := by
  rcases yields with ⟨depth, parsed⟩
  refine ⟨depth + 1, ?_⟩
  intro deeper enough
  cases deeper with
  | zero => omega
  | succ deeper =>
      rw [parse_reference, analysis.parseRule_of_mem declared]
      exact parsed deeper (by omega)

theorem branch {branch : Pattern} (selects : pattern.selects = true)
    (dispatched : ∀ take, (analysis.lookaheadOf owner pattern).dispatch take buffer = take branch)
    (yields : analysis.Yields owner branch buffer result) : analysis.Yields owner pattern buffer result := by
  rcases yields with ⟨depth, parsed⟩
  refine ⟨depth, ?_⟩
  intro deeper enough
  rw [parse_of_selects analysis _ owner selects, dispatched]
  exact parsed deeper enough

theorem head {factor : Pattern} {others : List Pattern} {halt : Halt}
    (first : analysis.Yields owner factor buffer (.error halt)) :
    analysis.Yields owner (.sequence (factor :: others)) buffer (.error halt) := by
  rcases first with ⟨depth, parsed⟩
  refine ⟨depth, ?_⟩
  intro deeper enough
  rw [parse_sequence_cons, parsed deeper enough]
  rfl

end Yields

theorem Reads.factor {factor : Pattern} {others : List Pattern} {buffer middle : List TokenRecord}
    {result : Except Halt (List TokenRecord)}
    (first : analysis.Reads owner factor buffer middle)
    (later : analysis.Yields owner (.sequence others) middle result) :
    analysis.Yields owner (.sequence (factor :: others)) buffer result := by
  rcases first with ⟨firstDepth, firstParsed⟩
  rcases later with ⟨laterDepth, laterParsed⟩
  refine ⟨max firstDepth laterDepth, ?_⟩
  intro deeper enough
  rw [parse_sequence_cons, firstParsed deeper (by omega)]
  exact laterParsed deeper (by omega)

end Analysis

namespace Grammar

/-! ## Sentences of placed patterns -/

/-- Whether no part of a right-hand side that selects by the next token can begin with
the rule that it belongs to. -/
def PartsAvoidOwners (grammar : Grammar) : Prop :=
  ∀ production ∈ grammar.productions, ∀ part ∈ production.root.innerParts,
    part.selects = true -> ¬ grammar.BeginsWith production.name part

variable {grammar : Grammar}

theorem PartsAvoidOwners.firstAvoiding (avoids : grammar.PartsAvoidOwners) {production : Production}
    (declared : production ∈ grammar.productions) {part : Pattern} (inside : part ∈ production.root.parts)
    (selects : part.selects = true) {leaf : Terminal} (first : grammar.First part leaf) :
    grammar.FirstAvoiding production.name part leaf := by
  rcases List.mem_cons.mp inside with rfl | nested
  · exact (firstAvoiding_root_iff declared).mpr first
  · exact firstAvoiding_of_not_beginsWith first (avoids production declared part nested selects)

/-- A part that selects reads a sentence if the parts that can begin like the
sentence do. -/
private theorem reads_of_selects (apart : grammar.SpellsApart) (ll1 : grammar.IsLL1)
    (avoids : grammar.PartsAvoidOwners) {production : Production} (declared : production ∈ grammar.productions)
    {part : Pattern} (selects : part.selects = true) {sentence : List Terminal}
    (derives : grammar.Derives part sentence) {tokens rest : List TokenRecord}
    (precedes : grammar.Precedes production (frontToken rest) part) (spelled : grammar.Spells sentence tokens)
    (ofBranch : ∀ leaf remaining, sentence = leaf :: remaining -> ∀ branch ∈ part.selectable,
      grammar.First branch leaf -> grammar.analysis.Reads production.name branch (tokens ++ rest) rest) :
    grammar.analysis.Reads production.name part (tokens ++ rest) rest := by
  rcases precedes.of_selects selects with ⟨inside, follows⟩
  have subset : part.leaves ⊆ grammar.leaves :=
    List.Subset.trans (Pattern.leaves_subset_of_mem_parts inside) (leaves_subset declared)
  cases spelled with
  | nil =>
      -- Any arm for the next token would put its leaf into both FIRST and FOLLOW.
      apply Analysis.yields_of_parse
      intro call
      rw [List.nil_append, Analysis.parse_of_selects _ call _ selects]
      refine grammar.analysis.dispatch_of_absent subset selects derives ?_ _
      intro leaf isLeaf accepted first
      exact ll1.followDisjoint production declared part inside selects derives leaf
        ⟨first, follows leaf isLeaf accepted⟩
  | @cons leaf token remaining others own later =>
      have first := avoids.firstAvoiding declared inside selects (first_of_derives derives rfl)
      rcases grammar.analysis.dispatch_of_first apart subset selects first own.1 own.2 (others ++ rest) with
        ⟨branch, member, branchFirst, dispatched⟩
      exact Analysis.Yields.branch selects dispatched (ofBranch leaf remaining rfl branch member branchFirst)

/-- Wherever a pattern stands before a token that can come after it, it reads the
sentences that it derives. -/
theorem reads_of_derives (apart : grammar.SpellsApart) (ll1 : grammar.IsLL1) (avoids : grammar.PartsAvoidOwners)
    {pattern : Pattern} {sentence : List Terminal} (derives : grammar.Derives pattern sentence) :
    ∀ production ∈ grammar.productions, ∀ tokens rest,
      grammar.Precedes production (frontToken rest) pattern -> grammar.Spells sentence tokens ->
      grammar.analysis.Reads production.name pattern (tokens ++ rest) rest := by
  induction derives with
  | marker =>
      intro production _ tokens rest _ spelled
      cases spelled
      exact Analysis.yields_of_parse fun call => Analysis.parse_marker _ call _ rest
  | leaf real =>
      intro production _ tokens rest _ spelled
      cases spelled with
      | cons own later =>
          cases later
          apply Analysis.yields_of_parse
          intro call
          rw [Analysis.parse_leaf _ call _ real]
          exact if_pos own.1
  | rule entered _ inductionHypothesis =>
      intro production _ tokens rest precedes spelled
      have ofRoot := inductionHypothesis _ entered tokens rest (precedes.of_reference entered) spelled
      exact ofRoot.reference entered
  | noFactors =>
      intro production _ tokens rest _ spelled
      cases spelled
      exact Analysis.yields_of_parse fun call => Analysis.parse_sequence_nil _ call _ rest
  | factor _ laterDerives firstReads laterReads =>
      intro production declared tokens rest precedes spelled
      rcases spelled.split with ⟨frontTokens, backTokens, rfl, frontSpelled, backSpelled⟩
      have atFactor := precedes.first declared laterDerives backSpelled
      have ofFactor := firstReads production declared frontTokens (backTokens ++ rest) atFactor frontSpelled
      have ofRest := laterReads production declared backTokens rest precedes.later backSpelled
      rw [List.append_assoc]
      exact ofFactor.factor ofRest
  | @alternative alternative alternatives sentence member taken inductionHypothesis =>
      intro production declared tokens rest precedes spelled
      refine reads_of_selects apart ll1 avoids declared rfl (.alternative member taken) precedes spelled ?_
      rintro leaf remaining rfl branch branchMember branchFirst
      rcases precedes.of_selects rfl with ⟨inside, follows⟩
      have same := ll1.eq_of_first declared inside branchMember member branchFirst (first_of_derives taken rfl)
      rw [same]
      have isPart : alternative ∈ (Pattern.choice alternatives).selectable := member
      exact inductionHypothesis production declared tokens rest (.of_selectable isPart inside follows) spelled
  | absent =>
      intro production declared tokens rest precedes spelled
      refine reads_of_selects apart ll1 avoids declared rfl .absent precedes spelled ?_
      rintro leaf remaining impossible
      cases impossible
  | @present content sentence taken inductionHypothesis =>
      intro production declared tokens rest precedes spelled
      refine reads_of_selects apart ll1 avoids declared rfl (.present taken) precedes spelled ?_
      intro leaf remaining _ branch branchMember _
      rcases precedes.of_selects rfl with ⟨inside, follows⟩
      rw [List.mem_singleton.mp branchMember]
      have atContent := Precedes.of_selectable (List.mem_singleton.mpr rfl) inside follows
      exact inductionHypothesis production declared tokens rest atContent spelled

/-! ## Sums -/

private theorem sums_part {production : Production} (declared : production ∈ sums.productions) {part : Pattern}
    (inside : part ∈ production.root.parts) :
    part = sumTail ∨ part = .reference "sum" ∨
      (∃ leaf, part = .terminal leaf) ∨ ∃ leaf last, part = .sequence [.terminal leaf, last] := by
  rw [List.mem_singleton.mp declared] at inside
  have known : part ∈ [sumProduction.root, .tokenClass "number", sumTail,
      .sequence [.literal "+", .reference "sum"], .literal "+", .reference "sum"] := inside
  simp only [List.mem_cons, List.not_mem_nil, or_false] at known
  rcases known with rfl | rfl | rfl | rfl | rfl | rfl
  · exact .inr (.inr (.inr ⟨_, _, rfl⟩))
  · exact .inr (.inr (.inl ⟨_, rfl⟩))
  · exact .inl rfl
  · exact .inr (.inr (.inr ⟨_, _, rfl⟩))
  · exact .inr (.inr (.inl ⟨_, rfl⟩))
  · exact .inr (.inl rfl)

/-- Nothing but terminals stands in front of anything. -/
private theorem exists_terminal_of_follows_sums {pattern : Pattern} {leaf : Terminal}
    (follows : sums.Follows pattern leaf) : ∃ terminal, pattern = .terminal terminal := by
  induction follows with
  | @next production before after factor leaf declared inside first =>
      rcases sums_part declared inside with same | same | ⟨_, same⟩ | ⟨terminal, last, same⟩
      · cases same
      · cases same
      · cases same
      · have pair := Pattern.sequence.inj same
        cases before with
        | nil => exact ⟨terminal, (List.cons.inj pair).1⟩
        | cons head before =>
            have remaining := (List.cons.inj pair).2
            cases before with
            | nil =>
                rw [(List.cons.inj remaining).2] at first
                cases first
            | cons _ before => cases before <;> cases (List.cons.inj remaining).2
  | last _ _ inductionHypothesis =>
      rcases inductionHypothesis with ⟨_, impossible⟩
      cases impossible
  | alternative _ _ inductionHypothesis =>
      rcases inductionHypothesis with ⟨_, impossible⟩
      cases impossible
  | content _ inductionHypothesis =>
      rcases inductionHypothesis with ⟨_, impossible⟩
      cases impossible
  | root _ _ inductionHypothesis =>
      rcases inductionHypothesis with ⟨_, impossible⟩
      cases impossible

theorem sums_spellsApart : sums.SpellsApart := by
  intro name member
  have known : Terminal.tokenClass name ∈ [Terminal.tokenClass "number", .literal "+"] := member
  have same : name = "number" := by simpa using known
  subst same
  decide

theorem sums_isLL1 : sums.IsLL1 where
  alternativesDisjoint := by
    intro production declared alternatives inside
    rcases sums_part declared inside with same | same | ⟨_, same⟩ | ⟨_, _, same⟩ <;> cases same
  followDisjoint := by
    rintro production declared part inside selects _ leaf ⟨_, follows⟩
    rcases exists_terminal_of_follows_sums follows with ⟨_, rfl⟩
    cases selects

theorem sums_partsAvoidOwners : sums.PartsAvoidOwners := by
  intro production declared part nested selects begins
  rcases sums_part declared (Pattern.innerParts_subset_parts _ nested) with rfl | rfl | ⟨_, rfl⟩ | ⟨_, _, rfl⟩
  · cases begins with
    | content inSequence =>
        cases inSequence with
        | head inLeaf => cases inLeaf
        | later nullable _ => exact absurd (isNullable_iff_derives_nil.mpr nullable) (by decide +kernel)
  all_goals cases selects

/-! ## The start rule -/

/-- In a grammar for which one token of lookahead is enough, the routine of the start
rule takes each of the rule's sentences off the buffer and leaves the end token. -/
theorem completes_of_derives (grammar : Grammar) (apart : grammar.SpellsApart) (ll1 : grammar.IsLL1)
    (avoids : grammar.PartsAvoidOwners) {settings : Settings} {program : Program}
    (made : grammar.parser settings = .ok program) {sentence : List Terminal}
    (derives : grammar.Derives (.reference grammar.start.name) sentence) {tokens : List TokenRecord}
    (spelled : grammar.Spells sentence tokens) {endToken : TokenRecord}
    (ends : ∀ leaf ∈ grammar.leaves, leaf.accepts endToken = false) :
    program.Completes grammar.start.name (tokens ++ [endToken]) [endToken] := by
  rcases exists_production_of_derives derives with ⟨production, declared, isStart, root⟩
  have isRule : grammar.start.name ∈ grammar.names :=
    List.mem_map.mpr ⟨grammar.start, List.head_mem grammar.nonempty, rfl⟩
  have precedes : grammar.Precedes production (frontToken [endToken]) production.root := by
    refine .part (Pattern.mem_parts_self _) ?_
    intro leaf isLeaf accepted
    rw [frontToken, List.headD_cons, ends leaf isLeaf] at accepted
    cases accepted
  rcases reads_of_derives apart ll1 avoids root production declared tokens [endToken] precedes spelled with
    ⟨depth, parsed⟩
  apply (completes_iff made isRule).mpr
  refine ⟨depth + 1, ?_⟩
  rw [← isStart, grammar.analysis.parseRule_of_mem declared]
  exact parsed depth (Nat.le_refl depth)

theorem completes_of_sum :
    sums.SpellsApart ∧ sums.IsLL1 ∧ sums.PartsAvoidOwners ∧
      ∃ program, sums.parser .standard = .ok program ∧
        ∃ sentence, sums.Derives (.reference sums.start.name) sentence ∧ sums.Spells sentence sumTokens ∧
          (∀ leaf ∈ sums.leaves, leaf.accepts sumEnd = false) ∧
          program.Completes sums.start.name (sumTokens ++ [sumEnd]) [sumEnd] := by
  rcases sums_hasParser with ⟨program, made⟩
  have declared : sumProduction ∈ sums.productions := List.mem_singleton.mpr rfl
  have number : sums.Derives (.tokenClass "number") [.tokenClass "number"] := .leaf (by decide)
  have plus : sums.Derives (.literal "+") [.literal "+"] := .leaf (by decide)
  have single : sums.Derives (.reference "sum") [.tokenClass "number"] :=
    .rule declared (.factor number (.factor .absent .noFactors))
  have derives : sums.Derives (.reference "sum") [.tokenClass "number", .literal "+", .tokenClass "number"] :=
    .rule declared (.factor number (.factor (.present (.factor plus (.factor single .noFactors))) .noFactors))
  have spelled : sums.Spells [.tokenClass "number", .literal "+", .tokenClass "number"] sumTokens :=
    .cons (by decide) (.cons (by decide) (.cons (by decide) .nil))
  have ends : ∀ leaf ∈ sums.leaves, leaf.accepts sumEnd = false := by decide
  exact ⟨sums_spellsApart, sums_isLL1, sums_partsAvoidOwners, program, made, _, derives, spelled, ends,
    completes_of_derives sums sums_spellsApart sums_isLL1 sums_partsAvoidOwners made derives spelled ends⟩

end Grammar
end PredictiveParsing
