import PredictiveParsing.Proofs.Derivation

namespace PredictiveParsing
namespace Grammar

/-!
# FIRST sets

The leaves that a pattern can begin with are the least solution of one equation
for each shape of pattern.  A sequence contributes its factors up to and
including the first that does not derive the empty sentence, so the equation of a
sequence speaks about its first factor and about what is left after it.

The relation is stated for a list of productions that references may lead into.
With all productions it is the FIRST relation.  With fewer it says what a search
can find that has entered some rules before; such a search misses nothing as long
as it starts afresh from each rule that it may not enter.
-/

/-- The leaves that a pattern can begin with, where references lead only into the
given productions. -/
inductive FirstWithin (grammar : Grammar) (enterable : List Production) : Pattern -> Terminal -> Prop where
  | leaf {leaf : Terminal} (real : leaf ≠ .epsilon) : FirstWithin grammar enterable (.terminal leaf) leaf
  | rule {production : Production} {leaf : Terminal} (enters : production ∈ enterable)
      (root : FirstWithin grammar enterable production.root leaf) :
      FirstWithin grammar enterable (.reference production.name) leaf
  | head {factor : Pattern} {rest : List Pattern} {leaf : Terminal}
      (first : FirstWithin grammar enterable factor leaf) :
      FirstWithin grammar enterable (.sequence (factor :: rest)) leaf
  | later {factor : Pattern} {rest : List Pattern} {leaf : Terminal}
      (nullable : grammar.Derives factor [])
      (remaining : FirstWithin grammar enterable (.sequence rest) leaf) :
      FirstWithin grammar enterable (.sequence (factor :: rest)) leaf
  | alternative {alternative : Pattern} {alternatives : List Pattern} {leaf : Terminal}
      (member : alternative ∈ alternatives) (taken : FirstWithin grammar enterable alternative leaf) :
      FirstWithin grammar enterable (.choice alternatives) leaf
  | content {content : Pattern} {leaf : Terminal} (taken : FirstWithin grammar enterable content leaf) :
      FirstWithin grammar enterable (.optional content) leaf

/-- The leaves that a pattern can begin with. -/
def First (grammar : Grammar) : Pattern -> Terminal -> Prop :=
  grammar.FirstWithin grammar.productions

/-- The leaves that a pattern can begin with where no reference leads into the
rule of the given name. -/
def FirstAvoiding (grammar : Grammar) (owner : String) : Pattern -> Terminal -> Prop :=
  grammar.FirstWithin (grammar.productions.filter fun production => production.name != owner)

variable {grammar : Grammar}

/-! ## The equations -/

/-- The right-hand sides of the FIRST equations. -/
def firstEquation (grammar : Grammar) (first : Pattern -> Terminal -> Prop) : Pattern -> Terminal -> Prop
  | .terminal leaf, found => leaf ≠ .epsilon ∧ found = leaf
  | .reference rule, found =>
      ∃ production ∈ grammar.productions, production.name = rule ∧ first production.root found
  | .sequence [], _ => False
  | .sequence (factor :: rest), found =>
      first factor found ∨ grammar.Derives factor [] ∧ first (.sequence rest) found
  | .choice alternatives, found => ∃ alternative ∈ alternatives, first alternative found
  | .optional content, found => first content found

/-- The FIRST relation solves the equations. -/
theorem first_iff_firstEquation {pattern : Pattern} {leaf : Terminal} :
    grammar.First pattern leaf ↔ grammar.firstEquation grammar.First pattern leaf := by
  constructor
  · intro first
    cases first with
    | leaf real => exact ⟨real, rfl⟩
    | rule enters root => exact ⟨_, enters, rfl, root⟩
    | head first => exact Or.inl first
    | later nullable remaining => exact Or.inr ⟨nullable, remaining⟩
    | alternative member taken => exact ⟨_, member, taken⟩
    | content taken => exact taken
  · intro equation
    cases pattern with
    | terminal found =>
        rcases equation with ⟨real, rfl⟩
        exact .leaf real
    | reference rule =>
        rcases equation with ⟨production, declared, rfl, root⟩
        exact .rule declared root
    | sequence factors =>
        cases factors with
        | nil => cases equation
        | cons factor rest =>
            rcases equation with first | ⟨nullable, remaining⟩
            · exact .head first
            · exact .later nullable remaining
    | choice alternatives =>
        rcases equation with ⟨alternative, member, taken⟩
        exact .alternative member taken
    | optional content => exact .content equation

/-- The FIRST relation is contained in whatever solves the equations. -/
theorem first_least {solution : Pattern -> Terminal -> Prop}
    (solves : ∀ pattern leaf, grammar.firstEquation solution pattern leaf -> solution pattern leaf)
    {pattern : Pattern} {leaf : Terminal} (first : grammar.First pattern leaf) : solution pattern leaf := by
  induction first with
  | leaf real => exact solves _ _ ⟨real, rfl⟩
  | rule enters _ inductionHypothesis => exact solves _ _ ⟨_, enters, rfl, inductionHypothesis⟩
  | head _ inductionHypothesis => exact solves _ _ (Or.inl inductionHypothesis)
  | later nullable _ inductionHypothesis => exact solves _ _ (Or.inr ⟨nullable, inductionHypothesis⟩)
  | alternative member _ inductionHypothesis => exact solves _ _ ⟨_, member, inductionHypothesis⟩
  | content _ inductionHypothesis => exact solves _ _ inductionHypothesis

/-- A sentence begins with a leaf from FIRST. -/
theorem first_of_derives {pattern : Pattern} {sentence : List Terminal}
    (derives : grammar.Derives pattern sentence) {leaf : Terminal} {rest : List Terminal}
    (begins : sentence = leaf :: rest) : grammar.First pattern leaf := by
  induction derives generalizing rest with
  | marker => cases begins
  | leaf real =>
      cases begins
      exact .leaf real
  | rule declared _ inductionHypothesis => exact .rule declared (inductionHypothesis begins)
  | noFactors => cases begins
  | @factor factor others front back first _ firstHypothesis laterHypothesis =>
      cases front with
      | nil => exact .later first (laterHypothesis begins)
      | cons head tail =>
          cases begins
          exact .head (firstHypothesis rfl)
  | alternative member _ inductionHypothesis => exact .alternative member (inductionHypothesis begins)
  | absent => cases begins
  | present _ inductionHypothesis => exact .content (inductionHypothesis begins)

/-! ## Fewer productions to enter -/

theorem FirstWithin.exists_production {enterable : List Production} {rule : String} {leaf : Terminal}
    (first : grammar.FirstWithin enterable (.reference rule) leaf) :
    ∃ production ∈ enterable, production.name = rule ∧ grammar.FirstWithin enterable production.root leaf := by
  cases first with
  | rule enters root => exact ⟨_, enters, rfl, root⟩

theorem FirstWithin.mono {fewer more : List Production} (subset : fewer ⊆ more) {pattern : Pattern}
    {leaf : Terminal} (first : grammar.FirstWithin fewer pattern leaf) :
    grammar.FirstWithin more pattern leaf := by
  induction first with
  | leaf real => exact .leaf real
  | rule enters _ inductionHypothesis => exact .rule (subset enters) inductionHypothesis
  | head _ inductionHypothesis => exact .head inductionHypothesis
  | later nullable _ inductionHypothesis => exact .later nullable inductionHypothesis
  | alternative member _ inductionHypothesis => exact .alternative member inductionHypothesis
  | content _ inductionHypothesis => exact .content inductionHypothesis

/-- What is found by entering more productions is found by entering fewer, from
the pattern itself or afresh from a production that may not be entered.  The
production is the last such on the way to the leaf. -/
theorem FirstWithin.within_or_afresh {more : List Production} (fewer : List Production) {pattern : Pattern}
    {leaf : Terminal} (first : grammar.FirstWithin more pattern leaf) :
    grammar.FirstWithin fewer pattern leaf ∨
      ∃ production ∈ more, production ∉ fewer ∧ grammar.FirstWithin fewer production.root leaf := by
  induction first with
  | leaf real => exact Or.inl (.leaf real)
  | @rule production _ enters _ inductionHypothesis =>
      rcases inductionHypothesis with within | afresh
      · by_cases allowed : production ∈ fewer
        · exact Or.inl (.rule allowed within)
        · exact Or.inr ⟨production, enters, allowed, within⟩
      · exact Or.inr afresh
  | head _ inductionHypothesis => exact inductionHypothesis.imp_left .head
  | later nullable _ inductionHypothesis => exact inductionHypothesis.imp_left (.later nullable)
  | alternative member _ inductionHypothesis => exact inductionHypothesis.imp_left (.alternative member)
  | content _ inductionHypothesis => exact inductionHypothesis.imp_left .content

/-! ## FIRST consists of leaves -/

theorem FirstWithin.mem_leaves {enterable : List Production} {pattern : Pattern} {leaf : Terminal}
    (first : grammar.FirstWithin enterable pattern leaf) (declared : enterable ⊆ grammar.productions)
    (subset : pattern.leaves ⊆ grammar.leaves) : leaf ∈ grammar.leaves := by
  induction first with
  | leaf real => exact subset (Pattern.mem_leaves.mpr ⟨Pattern.mem_parts_self _, real⟩)
  | rule enters _ inductionHypothesis => exact inductionHypothesis (leaves_subset (declared enters))
  | head _ inductionHypothesis =>
      exact inductionHypothesis (Pattern.leaves_sequence_subset.mp subset _ List.mem_cons_self)
  | later _ _ inductionHypothesis =>
      apply inductionHypothesis
      apply Pattern.leaves_sequence_subset.mpr
      intro factor member
      exact Pattern.leaves_sequence_subset.mp subset factor (List.mem_cons_of_mem _ member)
  | alternative member _ inductionHypothesis =>
      have nested := Pattern.alternative_mem_innerParts member
      exact inductionHypothesis (List.Subset.trans (Pattern.leaves_subset_of_mem_innerParts nested) subset)
  | @content content _ _ inductionHypothesis =>
      have nested : content ∈ (Pattern.optional content).innerParts := List.mem_cons_self
      exact inductionHypothesis (List.Subset.trans (Pattern.leaves_subset_of_mem_innerParts nested) subset)

/-! ## Leading references -/

/-- Whether a pattern can begin with a reference to the rule, where references
before it have been followed and only nullable factors stand before it. -/
inductive BeginsWith (grammar : Grammar) (rule : String) : Pattern -> Prop where
  | here : BeginsWith grammar rule (.reference rule)
  | through {production : Production} (declared : production ∈ grammar.productions)
      (root : BeginsWith grammar rule production.root) : BeginsWith grammar rule (.reference production.name)
  | head {factor : Pattern} {rest : List Pattern} (first : BeginsWith grammar rule factor) :
      BeginsWith grammar rule (.sequence (factor :: rest))
  | later {factor : Pattern} {rest : List Pattern} (nullable : grammar.Derives factor [])
      (remaining : BeginsWith grammar rule (.sequence rest)) :
      BeginsWith grammar rule (.sequence (factor :: rest))
  | alternative {alternative : Pattern} {alternatives : List Pattern}
      (member : alternative ∈ alternatives) (taken : BeginsWith grammar rule alternative) :
      BeginsWith grammar rule (.choice alternatives)
  | content {content : Pattern} (taken : BeginsWith grammar rule content) :
      BeginsWith grammar rule (.optional content)

theorem first_of_beginsWith {production : Production} (declared : production ∈ grammar.productions)
    {pattern : Pattern} (begins : grammar.BeginsWith production.name pattern) {leaf : Terminal}
    (first : grammar.First production.root leaf) : grammar.First pattern leaf := by
  induction begins with
  | here => exact .rule declared first
  | through entered _ inductionHypothesis => exact .rule entered inductionHypothesis
  | head _ inductionHypothesis => exact .head inductionHypothesis
  | later nullable _ inductionHypothesis => exact .later nullable inductionHypothesis
  | alternative member _ inductionHypothesis => exact .alternative member inductionHypothesis
  | content _ inductionHypothesis => exact .content inductionHypothesis

theorem firstAvoiding_of_not_beginsWith {owner : String} {pattern : Pattern} {leaf : Terminal}
    (first : grammar.First pattern leaf) (apart : ¬ grammar.BeginsWith owner pattern) :
    grammar.FirstAvoiding owner pattern leaf := by
  induction first with
  | leaf real => exact .leaf real
  | @rule production _ enters _ inductionHypothesis =>
      have different : production.name ≠ owner := by
        intro same
        subst same
        exact apart .here
      have within := inductionHypothesis fun begins => apart (.through enters begins)
      exact .rule (List.mem_filter.mpr ⟨enters, bne_iff_ne.mpr different⟩) within
  | head _ inductionHypothesis => exact .head (inductionHypothesis fun begins => apart (.head begins))
  | later nullable _ inductionHypothesis =>
      exact .later nullable (inductionHypothesis fun begins => apart (.later nullable begins))
  | alternative member _ inductionHypothesis =>
      exact .alternative member (inductionHypothesis fun begins => apart (.alternative member begins))
  | content _ inductionHypothesis => exact .content (inductionHypothesis fun begins => apart (.content begins))

theorem first_of_firstAvoiding {owner : String} {pattern : Pattern} {leaf : Terminal}
    (first : grammar.FirstAvoiding owner pattern leaf) : grammar.First pattern leaf :=
  FirstWithin.mono (List.filter_subset_self _) first

end Grammar
end PredictiveParsing
