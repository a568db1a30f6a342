import Mathlib.Data.List.Pairwise
import PredictiveParsing.Plan.Construction
import PredictiveParsing.Proofs.FirstSet

namespace PredictiveParsing

/-!
# What comes after patterns

FOLLOW of a pattern holds the leaves that can come directly after it in any of the
places where it stands: the leaves that the next factors begin with and, where
these can be absent, those that come after the whole.  FIRST is the same in all
these places, so it is disjoint from FOLLOW exactly where it is disjoint from what
comes after each of them.  The end of the input is not a leaf, and so it is in no
FOLLOW.

One token of lookahead is enough for a grammar if it decides between the
alternatives of every choice, and between each part that may be absent and what
comes after it.
-/

namespace Grammar

/-- Whether the leaf is in FOLLOW of the pattern. -/
inductive Follows (grammar : Grammar) : Pattern -> Terminal -> Prop where
  | next {production : Production} {before after : List Pattern} {factor : Pattern} {leaf : Terminal}
      (declared : production ∈ grammar.productions)
      (inside : .sequence (before ++ factor :: after) ∈ production.root.parts)
      (first : grammar.First (.sequence after) leaf) : Follows grammar factor leaf
  | last {before after : List Pattern} {factor : Pattern} {leaf : Terminal}
      (nullable : grammar.Derives (.sequence after) [])
      (behind : Follows grammar (.sequence (before ++ factor :: after)) leaf) : Follows grammar factor leaf
  | alternative {alternative : Pattern} {alternatives : List Pattern} {leaf : Terminal}
      (member : alternative ∈ alternatives) (behind : Follows grammar (.choice alternatives) leaf) :
      Follows grammar alternative leaf
  | content {content : Pattern} {leaf : Terminal} (behind : Follows grammar (.optional content) leaf) :
      Follows grammar content leaf
  | root {production : Production} {leaf : Terminal} (declared : production ∈ grammar.productions)
      (behind : Follows grammar (.reference production.name) leaf) : Follows grammar production.root leaf

/-- Whether no leaf is in FIRST of both patterns. -/
def FirstsDisjoint (grammar : Grammar) (left right : Pattern) : Prop :=
  ∀ leaf, ¬ (grammar.First left leaf ∧ grammar.First right leaf)

/-- Whether the next token decides at every choice and every optional part. -/
structure IsLL1 (grammar : Grammar) : Prop where
  alternativesDisjoint : ∀ production ∈ grammar.productions, ∀ alternatives,
    Pattern.choice alternatives ∈ production.root.parts ->
    alternatives.Pairwise grammar.FirstsDisjoint
  followDisjoint : ∀ production ∈ grammar.productions, ∀ part ∈ production.root.parts,
    part.selects = true -> grammar.Derives part [] ->
    ∀ leaf, ¬ (grammar.First part leaf ∧ grammar.Follows part leaf)

/-- Whether no class is spelled like the epsilon marker or like a literal. -/
def SpellsApart (grammar : Grammar) : Prop :=
  ∀ name, Terminal.tokenClass name ∈ grammar.leaves ->
    name ≠ Terminal.epsilonText ∧ Terminal.literal name ∉ grammar.leaves

variable {grammar : Grammar}

theorem IsLL1.eq_of_first (ll1 : grammar.IsLL1) {production : Production}
    (declared : production ∈ grammar.productions) {alternatives : List Pattern}
    (inside : Pattern.choice alternatives ∈ production.root.parts) {left right : Pattern}
    (leftMember : left ∈ alternatives) (rightMember : right ∈ alternatives) {leaf : Terminal}
    (leftFirst : grammar.First left leaf) (rightFirst : grammar.First right leaf) : left = right := by
  by_contra different
  have symmetric : Std.Symm grammar.FirstsDisjoint := ⟨fun _ _ disjoint leaf both => disjoint leaf both.symm⟩
  have allDisjoint := ll1.alternativesDisjoint production declared alternatives inside
  exact allDisjoint.forall leftMember rightMember different leaf ⟨leftFirst, rightFirst⟩

theorem SpellsApart.spelling_ne_epsilon (apart : grammar.SpellsApart) {leaf : Terminal}
    (member : leaf ∈ grammar.leaves) : leaf.spelling ≠ Terminal.epsilonText := by
  cases leaf with
  | literal text =>
      rintro rfl
      rcases List.mem_flatMap.mp member with ⟨production, _, inRoot⟩
      exact (Pattern.mem_leaves.mp inRoot).2 rfl
  | tokenClass name => exact (apart name member).1

theorem SpellsApart.eq_of_spelling (apart : grammar.SpellsApart) {left right : Terminal}
    (leftMember : left ∈ grammar.leaves) (rightMember : right ∈ grammar.leaves)
    (same : left.spelling = right.spelling) : left = right := by
  cases left with
  | literal text =>
      cases right with
      | literal other => exact congrArg Terminal.literal same
      | tokenClass name =>
          cases same
          exact absurd leftMember (apart text rightMember).2
  | tokenClass name =>
      cases right with
      | literal text =>
          cases same
          exact absurd rightMember (apart name leftMember).2
      | tokenClass other => exact congrArg Terminal.tokenClass same

end Grammar
end PredictiveParsing
