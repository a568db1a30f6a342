import PredictiveParsing.Analysis.Basic
import PredictiveParsing.Analysis.Lookahead

namespace PredictiveParsing

/-!
# Exploring the beginnings of a pattern

The lookahead table of a pattern is found by a walk that goes on from a reference
into the right-hand side of its rule, but into each rule only once.  What a rule
entered before would contribute has been found on the way already, apart from the
epsilon marker, which is therefore decided by the nullable rules alone.

The walk ends because it uses up the right-hand side of each rule that it enters
and otherwise goes on in a smaller pattern.  The rules entered by one part of a
pattern stay entered for the parts after it.
-/

/-- What a walk found when it could enter the given rules. -/
structure Exploration (unentered : List Production) where
  /-- The terminals that were found. -/
  found : Lookahead
  /-- The rules that the walk did not enter. -/
  remaining : List Production
  /-- No rule can be entered again. -/
  shrinks : remaining.Sublist unentered

namespace Exploration

/-- A walk that entered no rule. -/
def still {unentered : List Production} (found : Lookahead) : Exploration unentered :=
  ⟨found, unentered, List.Sublist.refl _⟩

def mapFound {unentered : List Production} (change : Lookahead -> Lookahead)
    (walk : Exploration unentered) : Exploration unentered :=
  ⟨change walk.found, walk.remaining, walk.shrinks⟩

end Exploration

/-! ## Why walks end -/

/-- The sizes of all right-hand sides that can still be entered. -/
def unenteredSize : List Production -> Nat
  | [] => 0
  | production :: rest => production.root.size + unenteredSize rest

private theorem unenteredSize_le_of_sublist {remaining unentered : List Production}
    (shrinks : remaining.Sublist unentered) : unenteredSize remaining ≤ unenteredSize unentered := by
  induction shrinks with
  | slnil => exact Nat.le_refl _
  | cons production _ inductionHypothesis =>
      rw [unenteredSize]
      omega
  | cons_cons production _ inductionHypothesis =>
      rw [unenteredSize, unenteredSize]
      omega

private theorem size_of_rest_lt {remaining unentered : List Production} {pattern : Pattern}
    {rest : List Pattern} (shrinks : remaining.Sublist unentered) :
    unenteredSize remaining + Pattern.sizeOfAll rest <
      unenteredSize unentered + Pattern.sizeOfAll (pattern :: rest) := by
  have fewer := unenteredSize_le_of_sublist shrinks
  have list := Pattern.sizeOfAll_cons pattern rest
  omega

/-- Entering a rule trades its right-hand side for what is walked next. -/
private theorem unenteredSize_eraseP {unentered : List Production} {isRule : Production -> Bool}
    {production : Production} (found : unentered.find? isRule = some production) :
    unenteredSize (unentered.eraseP isRule) + production.root.size = unenteredSize unentered := by
  induction unentered with
  | nil => cases found
  | cons first rest inductionHypothesis =>
      by_cases matching : isRule first = true
      · rw [List.find?_cons_of_pos matching] at found
        cases found
        rw [List.eraseP_cons_of_pos matching, unenteredSize]
        omega
      · rw [List.find?_cons_of_neg matching] at found
        have smaller := inductionHypothesis found
        rw [List.eraseP_cons_of_neg matching, unenteredSize, unenteredSize]
        omega

/-! ## Walks -/

namespace Analysis

mutual

/-- Walks into the beginnings of a pattern in the right-hand side of its owner. -/
def explore (analysis : Analysis) (owner : String) (unentered : List Production) :
    Pattern -> Exploration unentered
  | .terminal leaf => .still (.single ⟨leaf, owner, .terminal leaf⟩)
  | .reference rule =>
      match found : unentered.find? (·.name == rule) with
      | none => .still .empty
      | some production =>
          have _traded := unenteredSize_eraseP found
          let inside := analysis.explore production.name (unentered.eraseP (·.name == rule)) production.root
          ⟨inside.found.towards (.reference rule), inside.remaining,
            inside.shrinks.trans List.eraseP_sublist⟩
  | .sequence factors =>
      (analysis.exploreLeading owner unentered factors).mapFound fun table =>
        if factors.all analysis.isNullable then
          table.merge (.single ⟨.epsilon, owner, .sequence factors⟩)
        else table
  | .choice alternatives => analysis.exploreAlternatives owner unentered alternatives
  | .optional content =>
      (analysis.explore owner unentered content).mapFound fun table =>
        (table.towards content).merge (.single ⟨.epsilon, owner, .optional content⟩)
termination_by pattern => unenteredSize unentered + pattern.size
decreasing_by
  · rw [Pattern.size]
    omega
  · rw [Pattern.size]
    omega
  · rw [Pattern.size]
    omega
  · rw [Pattern.size]
    omega

/-- Walks into the factors of a sequence up to the first that matches something. -/
def exploreLeading (analysis : Analysis) (owner : String) (unentered : List Production) :
    List Pattern -> Exploration unentered
  | [] => .still .empty
  | factor :: rest =>
      let first := (analysis.explore owner unentered factor).mapFound (·.withoutEpsilon)
      if analysis.isNullable factor then
        let later := analysis.exploreLeading owner first.remaining rest
        ⟨first.found.merge later.found, later.remaining, later.shrinks.trans first.shrinks⟩
      else first
termination_by factors => unenteredSize unentered + Pattern.sizeOfAll factors
decreasing_by
  · have list := Pattern.sizeOfAll_cons factor rest
    omega
  · exact size_of_rest_lt first.shrinks

/-- Walks into the alternatives of a choice, each of which takes itself. -/
def exploreAlternatives (analysis : Analysis) (owner : String) (unentered : List Production) :
    List Pattern -> Exploration unentered
  | [] => .still .empty
  | alternative :: rest =>
      let first := (analysis.explore owner unentered alternative).mapFound fun table =>
        if analysis.isNullable alternative then
          (table.towards alternative).merge (.single ⟨.epsilon, owner, alternative⟩)
        else table.towards alternative
      let later := analysis.exploreAlternatives owner first.remaining rest
      ⟨first.found.merge later.found, later.remaining, later.shrinks.trans first.shrinks⟩
termination_by alternatives => unenteredSize unentered + Pattern.sizeOfAll alternatives
decreasing_by
  · have list := Pattern.sizeOfAll_cons alternative rest
    omega
  · exact size_of_rest_lt first.shrinks

end

/-- The lookahead table of a pattern in the right-hand side of its owner, which
counts as entered already. -/
def lookaheadOf (analysis : Analysis) (owner : String) (pattern : Pattern) : Lookahead :=
  (analysis.explore owner (analysis.grammar.productions.eraseP (·.name == owner)) pattern).found

def lookahead? (analysis : Analysis) (rule : String) : Option Lookahead :=
  (analysis.grammar.find? rule).map fun declaration => analysis.lookaheadOf rule declaration.root

end Analysis
end PredictiveParsing
