import PredictiveParsing.Grammar.Basic
import PredictiveParsing.Pattern.Reader
import PredictiveParsing.Text.Lines

namespace PredictiveParsing

/-!
# Making and reading grammars

Productions make a grammar unless there are none, a rule is declared again, or a
reference has no declaration; the first of these reasons is reported, at the
first declaration that it concerns.  A right-hand side that is given as text is
read first, and one that cannot be read comes before all other reasons.

Grammar text has one rule to a line, the name and the right-hand side on either
side of the sign `::=`, and blank lines count but say nothing.  All lines are
split before any right-hand side is read, so the first malformed line is reported
even where an earlier right-hand side is malformed too.

Main statement: where no reason is found the declarations do make a grammar, and
it is the list of them in the given order.
-/

/-! ## What can be wrong with a grammar -/

inductive GrammarError where
  /-- The right-hand side of a rule cannot be read. -/
  | malformedRule (rule text : String)
  /-- A line, counted from one, is not a rule's name and its right-hand side. -/
  | malformedLine (number : Nat) (text : String)
  /-- The owner of a right-hand side refers to a rule that is not declared. -/
  | undefinedReference (owner rule : String)
  | duplicateRule (rule : String)
  | noRules
deriving DecidableEq

def GrammarError.message : GrammarError -> String
  | .malformedRule rule text => "malformed rule '" ++ rule ++ "': " ++ text
  | .malformedLine number text =>
      "line " ++ toString number ++ ": expected 'name ::= rhs', got: " ++ text
  | .undefinedReference owner rule =>
      "rule '" ++ owner ++ "' references undefined rule '" ++ rule ++ "'"
  | .duplicateRule rule => "rule '" ++ rule ++ "' declared twice"
  | .noRules => "grammar has no rules"

/-! ## Grammars of productions -/

def Production.read (name text : String) : Except GrammarError Production :=
  match Pattern.read? text with
  | some root => .ok ⟨name, root⟩
  | none => .error (.malformedRule name text)

/-- Reads the right-hand side of a rule, leaving out the white space around it. -/
def Declaration.read (name text : String) : Except GrammarError Declaration :=
  let written := String.ofList (Text.trim text.toList)
  (Production.read name written).map fun production => ⟨production, written⟩

/-- Declares a production with the text that its root is printed as. -/
def Declaration.ofProduction (production : Production) : Declaration :=
  ⟨production, production.root.render⟩

namespace Grammar

/-- The first name that the list repeats, or that is among those seen before. -/
def firstRepeated? (seen : List String) : List String -> Option String
  | [] => none
  | name :: rest => if name ∈ seen then some name else firstRepeated? (name :: seen) rest

theorem nodup_of_firstRepeated? (names : List String) (seen : List String)
    (absent : firstRepeated? seen names = none) :
    names.Nodup ∧ ∀ name ∈ names, name ∉ seen := by
  induction names generalizing seen with
  | nil => simp
  | cons name rest inductionHypothesis =>
      rw [firstRepeated?] at absent
      split at absent
      · simp at absent
      · rename_i fresh
        obtain ⟨distinct, apart⟩ := inductionHypothesis (name :: seen) absent
        refine ⟨List.nodup_cons.mpr ⟨?_, distinct⟩, ?_⟩
        · intro repeated
          exact apart name repeated List.mem_cons_self
        · intro other member
          rcases List.mem_cons.mp member with rfl | later
          · exact fresh
          · exact fun known => apart other later (List.mem_cons_of_mem _ known)

/-- The first declaration with an undeclared reference, and the leftmost one. -/
def firstUndeclared? (declarations : List Declaration) : Option (String × String) :=
  let names := declarations.map (·.name)
  declarations.findSome? fun declaration =>
    (declaration.root.references.find? fun rule => !names.contains rule).map (declaration.name, ·)

private theorem closed_of_firstUndeclared? (declarations : List Declaration)
    (absent : firstUndeclared? declarations = none) :
    ∀ declaration ∈ declarations, ∀ rule ∈ declaration.root.references,
      rule ∈ declarations.map (·.name) := by
  intro declaration member rule reference
  have none := List.findSome?_eq_none_iff.mp absent declaration member
  rw [Option.map_eq_none_iff, List.find?_eq_none] at none
  simpa using none rule reference

/-- The grammar of the declarations, if they make one. -/
def ofDeclarations (declarations : List Declaration) : Except GrammarError Grammar :=
  if empty : declarations = [] then .error .noRules
  else
    match repeated : firstRepeated? [] (declarations.map (·.name)) with
    | some rule => .error (.duplicateRule rule)
    | none =>
        match undeclared : firstUndeclared? declarations with
        | some (owner, rule) => .error (.undefinedReference owner rule)
        | none =>
            .ok {
              declarations
              nonempty := empty
              distinct := (nodup_of_firstRepeated? _ _ repeated).1
              closed := closed_of_firstUndeclared? _ undeclared }

/-- The grammar of productions that are known already. -/
def ofProductions (productions : List Production) : Except GrammarError Grammar :=
  ofDeclarations (productions.map .ofProduction)

/-- The grammar of rules given by their names and the texts of their right-hand
sides. -/
def ofRules (rules : List (String × String)) : Except GrammarError Grammar := do
  ofDeclarations (← rules.mapM fun (name, text) => Declaration.read name text)

theorem declarations_of_ofDeclarations {declarations : List Declaration} {grammar : Grammar}
    (made : ofDeclarations declarations = .ok grammar) : grammar.declarations = declarations := by
  unfold ofDeclarations at made
  split at made
  · simp at made
  · split at made
    · simp at made
    · split at made
      · simp at made
      · cases made
        rfl

/-! ## Grammars on lines -/

/-- The name and the right-hand side of the rule on a line. -/
def splitLine? (line : String) : Option (String × String) := do
  let name ← Lexeme.word? (Text.skipSeparators line.toList)
  match Text.skipSeparators name.rest with
  | ':' :: ':' :: '=' :: rest =>
      some (name.value, String.ofList (Text.trimEnd (Text.skipSeparators rest)))
  | _ => none

/-- The rules on the lines, the first of which has the given number. -/
def splitLines (number : Nat) : List String -> Except GrammarError (List (String × String))
  | [] => .ok []
  | line :: rest =>
      if Text.isBlank line.toList then splitLines (number + 1) rest
      else
        match splitLine? line with
        | none => .error (.malformedLine number line)
        | some rule => (splitLines (number + 1) rest).map (rule :: ·)

/-- The grammar that a text describes. -/
def read (text : String) : Except GrammarError Grammar := do
  ofRules (← splitLines 1 (Text.lines text))

end Grammar
end PredictiveParsing
