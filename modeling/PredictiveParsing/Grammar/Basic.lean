import PredictiveParsing.Pattern.Printer

namespace PredictiveParsing

/-!
# Grammars

A grammar declares productions in a fixed order, the first of which belongs to
the start rule.  It keeps the text that each right-hand side was written as.  The
type admits no other grammars than those with at least one rule, with one
production for each rule, and with a declaration for every rule referred to.

Main statements: a rule is found exactly when it is declared, and then under its
own name.
-/

/-- A rule and what it describes. -/
structure Production where
  name : String
  /-- The right-hand side. -/
  root : Pattern
deriving DecidableEq

def Production.render (production : Production) : String :=
  production.name ++ " ::= " ++ production.root.render

/-- A production together with its right-hand side as it was written. -/
structure Declaration extends Production where
  /-- The text of the right-hand side. -/
  written : String
deriving DecidableEq

/-- A set of productions in declaration order. -/
structure Grammar where
  /-- The productions with their texts. -/
  declarations : List Declaration
  /-- There is a start rule. -/
  nonempty : declarations ≠ []
  /-- No rule is declared twice. -/
  distinct : (declarations.map (·.name)).Nodup
  /-- Every rule referred to is declared. -/
  closed : ∀ declaration ∈ declarations, ∀ rule ∈ declaration.root.references,
    rule ∈ declarations.map (·.name)

namespace Grammar

def names (grammar : Grammar) : List String :=
  grammar.declarations.map (·.name)

def productions (grammar : Grammar) : List Production :=
  grammar.declarations.map (·.toProduction)

def size (grammar : Grammar) : Nat :=
  grammar.declarations.length

/-- The production that is declared first. -/
def start (grammar : Grammar) : Declaration :=
  grammar.declarations.head grammar.nonempty

def find? (grammar : Grammar) (rule : String) : Option Declaration :=
  grammar.declarations.find? (·.name == rule)

/-- The position of a rule in declaration order, counted from zero. -/
def position? (grammar : Grammar) (rule : String) : Option Nat :=
  grammar.declarations.findIdx? (·.name == rule)

def at? (grammar : Grammar) (position : Nat) : Option Declaration :=
  grammar.declarations[position]?

def declares (grammar : Grammar) (rule : String) : Bool :=
  (grammar.find? rule).isSome

/-- One production to a line, in declaration order. -/
def render (grammar : Grammar) : String :=
  String.join (grammar.productions.map fun production => production.render ++ "\n")

/-- Whether two grammars declare the same productions with the same texts, in
whatever order. -/
def sameRules (left right : Grammar) : Bool :=
  left.declarations.isPerm right.declarations

theorem name_of_find? {grammar : Grammar} {rule : String} {declaration : Declaration}
    (found : grammar.find? rule = some declaration) : declaration.name = rule := by
  simpa using List.find?_some found

theorem mem_of_find? {grammar : Grammar} {rule : String} {declaration : Declaration}
    (found : grammar.find? rule = some declaration) : declaration ∈ grammar.declarations :=
  List.mem_of_find?_eq_some found

theorem declares_iff {grammar : Grammar} {rule : String} :
    grammar.declares rule = true ↔ rule ∈ grammar.names := by
  simp [declares, find?, names, List.find?_isSome]

theorem length_names (grammar : Grammar) : grammar.names.length = grammar.size :=
  List.length_map _

end Grammar
end PredictiveParsing
