import PredictiveParsing.Proofs.Lookahead

namespace PredictiveParsing

/-!
# The first match wins

The alternatives of a choice are walked in order, and a rule that was entered for one
of them is not entered for the next.  So a later alternative can lose leaves, but only
leaves whose spellings are in the table by then, under an earlier alternative that can
begin with them too: whatever lies behind a rule entered before was found on the way.
Hence the entry of a spelling takes the first alternative, in the order of the grammar,
that can begin with a leaf so spelled.  This needs that the choice does not lead back
to the rule that it stands in, which a walk never enters.

Every entry also says where its leaf stands, also when the choice does lead back to
its rule: in the right-hand side of its producer, before any reference, and the part
that the entry takes leads to the producer through leading references only.
-/

namespace Grammar

variable {grammar : Grammar}

/-! ## Leaves before all references -/

/-- The leaves that a pattern can begin with where no reference is followed. -/
def StandsFirst (grammar : Grammar) : Pattern -> Terminal -> Prop :=
  grammar.FirstWithin []

theorem StandsFirst.mem_leaves {pattern : Pattern} {leaf : Terminal}
    (stands : grammar.StandsFirst pattern leaf) : leaf ∈ pattern.leaves := by
  induction stands with
  | leaf real => exact Pattern.mem_leaves.mpr ⟨Pattern.mem_parts_self _, real⟩
  | rule enters _ _ => cases enters
  | head _ inductionHypothesis =>
      exact Pattern.leaves_sequence_subset.mp (List.Subset.refl _) _ List.mem_cons_self inductionHypothesis
  | later _ _ inductionHypothesis =>
      refine Pattern.leaves_sequence_subset.mpr (fun factor member => ?_) inductionHypothesis
      exact Pattern.leaves_sequence_subset.mp (List.Subset.refl _) factor (List.mem_cons_of_mem _ member)
  | alternative member _ inductionHypothesis =>
      exact Pattern.leaves_subset_of_mem_innerParts (Pattern.alternative_mem_innerParts member) inductionHypothesis
  | content _ inductionHypothesis =>
      exact Pattern.leaves_subset_of_mem_innerParts List.mem_cons_self inductionHypothesis

/-- Whether an entry says where its leaf stands: before all references in the pattern
itself, which belongs to the owner, or in the right-hand side of a rule that the
pattern can begin with. -/
def LeadsToProducer (grammar : Grammar) (owner : String) (pattern : Pattern) (entry : LookaheadEntry) : Prop :=
  entry.producer = owner ∧ grammar.StandsFirst pattern entry.terminal ∨
    ∃ production ∈ grammar.productions, production.name = entry.producer ∧
      grammar.BeginsWith production.name pattern ∧ grammar.StandsFirst production.root entry.terminal

namespace LeadsToProducer

variable {owner : String} {entry : LookaheadEntry}

/-- A pattern leads where a part leads that it can begin with. -/
theorem lift {part whole : Pattern} (leads : grammar.LeadsToProducer owner part entry)
    (first : grammar.StandsFirst part entry.terminal -> grammar.StandsFirst whole entry.terminal)
    (begins : ∀ rule, grammar.BeginsWith rule part -> grammar.BeginsWith rule whole) :
    grammar.LeadsToProducer owner whole entry := by
  rcases leads with ⟨sameOwner, stands⟩ | ⟨production, declared, same, leadsTo, stands⟩
  · exact Or.inl ⟨sameOwner, first stands⟩
  · exact Or.inr ⟨production, declared, same, begins _ leadsTo, stands⟩

/-- A reference leads to its rule and wherever the right-hand side leads. -/
theorem reference {production : Production} (declared : production ∈ grammar.productions)
    (leads : grammar.LeadsToProducer production.name production.root entry) :
    grammar.LeadsToProducer owner (.reference production.name) entry := by
  rcases leads with ⟨sameOwner, stands⟩ | ⟨other, otherDeclared, same, leadsTo, stands⟩
  · exact Or.inr ⟨production, declared, sameOwner.symm, .here, stands⟩
  · exact Or.inr ⟨other, otherDeclared, same, .through declared leadsTo, stands⟩

end LeadsToProducer
end Grammar

namespace Analysis

open Exploration

/-! ## Producers -/

/-- A token that is found in a pattern leads to its producer. -/
theorem Finds.leadsToProducer {analysis : Analysis} {unentered : List Production}
    (declared : unentered ⊆ analysis.grammar.productions) {owner : String} {pattern : Pattern}
    {entry : LookaheadEntry} (finds : analysis.Finds unentered owner pattern entry) (isToken : entry.isEpsilon = false) :
    analysis.grammar.LeadsToProducer owner pattern entry := by
  induction finds with
  | leaf => exact Or.inl ⟨rfl, .leaf (terminal_ne_epsilon_of_isEpsilon isToken)⟩
  | rule enters _ inductionHypothesis =>
      exact Grammar.LeadsToProducer.reference (declared enters) (inductionHypothesis isToken)
  | head _ _ inductionHypothesis => exact (inductionHypothesis isToken).lift .head fun _ => .head
  | later nullable _ _ inductionHypothesis =>
      have derives := (analysis.isNullable_iff _).mp nullable
      exact (inductionHypothesis isToken).lift (.later derives) fun _ => .later derives
  | alternative member _ inductionHypothesis =>
      have leads := inductionHypothesis isToken
      exact Grammar.LeadsToProducer.lift leads (.alternative member) fun _ => .alternative member
  | content _ inductionHypothesis =>
      have leads := inductionHypothesis isToken
      exact Grammar.LeadsToProducer.lift leads .content fun _ => .content
  | noFactor _ => cases isToken
  | noAlternative _ _ => cases isToken
  | noContent => cases isToken

/-! ## Earlier alternatives -/

/-- The entry of a spelling takes the first alternative that can begin with a leaf so
spelled, as far as the walk can enter rules at its start. -/
theorem exists_earlier_of_exploreAlternatives (analysis : Analysis) (owner : String) {unentered : List Production}
    (declared : unentered ⊆ analysis.grammar.productions) {alternatives : List Pattern} {entry : LookaheadEntry}
    (member : entry ∈ (analysis.exploreAlternatives owner unentered alternatives).found.entries)
    (isToken : entry.isEpsilon = false) :
    ∃ earlier later, alternatives = earlier ++ entry.branch :: later ∧
      ∀ alternative ∈ earlier, ∀ leaf, analysis.grammar.FirstWithin unentered alternative leaf ->
        leaf.spelling ≠ entry.spelling := by
  induction alternatives generalizing unentered with
  | nil =>
      rw [exploreAlternatives] at member
      cases member
  | cons alternative rest inductionHypothesis =>
      rw [exploreAlternatives] at member
      rcases Lookahead.mem_merge.mp member with early | ⟨late, fresh⟩
      · have taken : entry.branch = alternative := by
          rcases Lookahead.mem_of_mem_marked early with inside | ⟨_, rfl⟩
          · exact Lookahead.branch_of_mem_towards inside
          · rfl
        exact ⟨[], rest, congrArg (· :: rest) taken.symm, List.forall_mem_nil _⟩
      · let first := (analysis.explore owner unentered alternative).mapFound fun table =>
          if analysis.isNullable alternative then
            (table.towards alternative).merge (.single ⟨.epsilon, owner, alternative⟩)
          else table.towards alternative
        have walked := analysis.complete_of_walks.1 owner unentered alternative declared
        have complete : Complete analysis.grammar first alternative := walked.towards_marked
        have fewer : first.remaining ⊆ unentered := first.shrinks.subset
        rcases inductionHypothesis (List.Subset.trans fewer declared) late with ⟨earlier, later, split, none⟩
        refine ⟨alternative :: earlier, later, congrArg (alternative :: ·) split, ?_⟩
        intro other inFront leaf begins same
        have real : leaf.spelling ≠ Terminal.epsilonText := same ▸ beq_eq_false_iff_ne.mp isToken
        -- Whatever this alternative left out of the walks after it, it has found itself.
        apply fresh
        rw [← same]
        rcases List.mem_cons.mp inFront with rfl | between
        · exact complete.pattern leaf real begins
        · rcases begins.within_or_afresh first.remaining with within | ⟨production, enterable, gone, afresh⟩
          · exact absurd same (none other between leaf within)
          · exact complete.entered production enterable gone leaf real (afresh.mono fewer)

end Analysis

namespace Grammar

variable {grammar : Grammar}

/-! ## Tables that are asked for -/

/-- Whether a choice in the right-hand side of a production has the table: as a part
of it, or as the right-hand side of the rule. -/
def HasTable (grammar : Grammar) (production : Production) (alternatives : List Pattern) (table : Lookahead) : Prop :=
  .choice alternatives ∈ production.root.parts ∧
    (table = grammar.analysis.lookaheadOf production.name (.choice alternatives) ∨
      production.root = .choice alternatives ∧ grammar.analysis.lookahead? production.name = some table)

theorem HasTable.eq_lookaheadOf {production : Production} (declared : production ∈ grammar.productions)
    {alternatives : List Pattern} {table : Lookahead} (hasTable : grammar.HasTable production alternatives table) :
    table = grammar.analysis.lookaheadOf production.name (.choice alternatives) := by
  rcases hasTable.2 with same | ⟨sameRoot, found⟩
  · exact same
  · have ofRule := grammar.analysis.lookahead?_of_mem declared
    rw [found, sameRoot] at ofRule
    exact Option.some.inj ofRule

/-- Whether the entry takes the first alternative that can begin with a leaf of its
spelling. -/
def TakesFirstMatch (grammar : Grammar) (alternatives : List Pattern) (entry : LookaheadEntry) : Prop :=
  ∃ earlier later, alternatives = earlier ++ entry.branch :: later ∧
    ∀ alternative ∈ earlier, ∀ leaf, grammar.First alternative leaf -> leaf.spelling ≠ entry.spelling

/-- Whether the right-hand side of the entry's producer holds its leaf, where the part
that the entry takes can begin with it: before all references in that part, or in the
right-hand side before all references where the part can begin with the producer. -/
def NamesProducer (grammar : Grammar) (owner : Production) (entry : LookaheadEntry) : Prop :=
  ∃ producer ∈ grammar.productions, producer.name = entry.producer ∧
    entry.terminal ∈ producer.root.leaves ∧
    (producer = owner ∧ grammar.StandsFirst entry.branch entry.terminal ∨
      grammar.BeginsWith producer.name entry.branch ∧ grammar.StandsFirst producer.root entry.terminal)

/-- Each token entry of a choice takes an alternative that can begin with its leaf and
names the producer of the leaf.  If the choice does not lead back to its rule, the
alternative is the first, in the order of the grammar, that can begin with a leaf of
this spelling. -/
theorem firstMatch_of_hasTable {production : Production} (declared : production ∈ grammar.productions)
    {alternatives : List Pattern} {table : Lookahead} (hasTable : grammar.HasTable production alternatives table)
    {entry : LookaheadEntry} (member : entry ∈ table.tokenEntries) :
    entry.branch ∈ alternatives ∧ grammar.First entry.branch entry.terminal ∧
      grammar.NamesProducer production entry ∧
      (¬ grammar.BeginsWith production.name (.choice alternatives) ->
        grammar.TakesFirstMatch alternatives entry) := by
  rw [hasTable.eq_lookaheadOf declared] at member
  rcases grammar.analysis.branch_of_mem_tokenEntries rfl member with ⟨taken, begins⟩
  rcases Lookahead.mem_withoutEpsilon.mp member with ⟨found, isToken⟩
  have others := List.filter_subset_self (p := fun other : Production => other.name != production.name)
    grammar.productions
  refine ⟨taken, first_of_firstAvoiding begins, ?_, fun apart => ?_⟩
  · rcases (grammar.analysis.finds_of_mem_lookaheadOf _ _ found).of_selects rfl isToken with ⟨_, _, inBranch⟩
    rcases inBranch.leadsToProducer others isToken with
      ⟨same, stands⟩ | ⟨producer, producerDeclared, same, leads, stands⟩
    · have inside := Pattern.leaves_subset_of_mem_innerParts (Pattern.alternative_mem_innerParts taken)
      have leaf := Pattern.leaves_subset_of_mem_parts hasTable.1 (inside stands.mem_leaves)
      exact ⟨production, declared, same.symm, leaf, Or.inl ⟨rfl, stands⟩⟩
    · exact ⟨producer, producerDeclared, same, stands.mem_leaves, Or.inr ⟨leads, stands⟩⟩
  · rw [Analysis.lookaheadOf, eraseP_productions, Analysis.explore] at found
    rcases grammar.analysis.exists_earlier_of_exploreAlternatives _ others found isToken with
      ⟨earlier, later, split, none⟩
    refine ⟨earlier, later, split, fun alternative inFront leaf first => ?_⟩
    have among : alternative ∈ alternatives := split ▸ List.mem_append_left _ inFront
    exact none alternative inFront leaf (firstAvoiding_of_not_beginsWith first fun leads => apart (.alternative among leads))

/-- A pattern begins with no rule that is not referred to. -/
theorem BeginsWith.mem_references {rule : String} {pattern : Pattern} (begins : grammar.BeginsWith rule pattern) :
    rule ∈ pattern.references ∨ ∃ production ∈ grammar.productions, rule ∈ production.root.references := by
  induction begins with
  | here => exact Or.inl List.mem_cons_self
  | @through production declared _ inductionHypothesis =>
      rcases inductionHypothesis with inRoot | elsewhere
      · exact Or.inr ⟨production, declared, inRoot⟩
      · exact Or.inr elsewhere
  | head _ inductionHypothesis => exact inductionHypothesis.imp_left (List.mem_append_left _)
  | later _ _ inductionHypothesis => exact inductionHypothesis.imp_left (List.mem_append_right _)
  | alternative member _ inductionHypothesis =>
      refine inductionHypothesis.imp_left fun inAlternative => ?_
      rw [Pattern.references, Pattern.referencesOfAll_eq_flatMap]
      exact List.mem_flatMap.mpr ⟨_, member, inAlternative⟩
  | content _ inductionHypothesis => exact inductionHypothesis

/-- Two alternatives that can begin with the same optional sign. -/
def signedNumbers : Grammar where
  declarations :=
    [⟨⟨"number", .choice [.reference "decimal", .reference "hexadecimal"]⟩, "decimal | hexadecimal"⟩,
      ⟨⟨"decimal", .sequence [.reference "sign", .tokenClass "DIGITS"]⟩, "sign <DIGITS>"⟩,
      ⟨⟨"hexadecimal", .sequence [.reference "sign", .literal "0x", .tokenClass "DIGITS"]⟩, "sign \"0x\" <DIGITS>"⟩,
      ⟨⟨"sign", .optional (.literal "-")⟩, "\"-\" ?"⟩]
  nonempty := by decide
  distinct := by decide
  closed := by decide

theorem firstMatch_of_hasTable_signedNumbers :
    let production : Production := ⟨"number", .choice [.reference "decimal", .reference "hexadecimal"]⟩
    let entry : LookaheadEntry := ⟨.literal "-", "sign", .reference "decimal"⟩
    ∃ table, production ∈ signedNumbers.productions ∧
      signedNumbers.HasTable production [.reference "decimal", .reference "hexadecimal"] table ∧
      entry ∈ table.tokenEntries ∧
      entry.branch ∈ [Pattern.reference "decimal", .reference "hexadecimal"] ∧
      signedNumbers.First entry.branch entry.terminal ∧ signedNumbers.NamesProducer production entry ∧
      ¬ signedNumbers.BeginsWith production.name production.root ∧
      signedNumbers.TakesFirstMatch [.reference "decimal", .reference "hexadecimal"] entry := by
  intro production entry
  have declared : production ∈ signedNumbers.productions := by decide
  have hasTable : signedNumbers.HasTable production [.reference "decimal", .reference "hexadecimal"]
      (signedNumbers.analysis.lookaheadOf production.name production.root) :=
    ⟨by decide, Or.inr ⟨rfl, signedNumbers.analysis.lookahead?_of_mem declared⟩⟩
  have member : entry ∈ (signedNumbers.analysis.lookaheadOf production.name production.root).tokenEntries := by
    decide +kernel
  have apart : ¬ signedNumbers.BeginsWith production.name production.root := by
    intro begins
    have referred := begins.mem_references
    exact absurd referred (by decide)
  rcases firstMatch_of_hasTable declared hasTable member with ⟨taken, begins, names, first⟩
  exact ⟨_, declared, hasTable, member, taken, begins, names, apart, first apart⟩

end Grammar
end PredictiveParsing
