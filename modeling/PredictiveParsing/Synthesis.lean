import PredictiveParsing.Code.Support
import PredictiveParsing.Naming.Identifier
import PredictiveParsing.Plan.Construction
import PredictiveParsing.Plan.Writing

namespace PredictiveParsing

/-!
# The parser of a grammar

Each rule gets a routine of the same name, and the routines stand between those
that every parser contains.  There is no parser for a grammar in which some
routines could not be told apart once their names are identifiers.
-/

inductive SynthesisError where
  /-- The grammar does not declare a rule that is asked for. -/
  | unknownRule (rule : String)
  /-- A rule has the name of something that every parser contains. -/
  | reservedName (rule : String)
  /-- Two rules have names that are the same identifier. -/
  | nameCollision (first second : String)
deriving DecidableEq

def SynthesisError.message : SynthesisError -> String
  | .unknownRule rule => "unknown rule '" ++ rule ++ "'"
  | .reservedName rule => "rule '" ++ rule ++ "' collides with a generated routine of the same name"
  | .nameCollision first second =>
      "rules '" ++ first ++ "' and '" ++ second ++ "' collide as generated routines"

/-! ## Names -/

/-- Refuses a name that every parser has a use for. -/
def refuseReserved (settings : Settings) (rule : String) : Except SynthesisError Unit :=
  let name := Naming.universal rule
  if Support.reservedNames.contains name || name == Naming.universal settings.tokenVariable then
    .error (.reservedName rule)
  else .ok ()

/-- Refuses the first name that every parser has a use for or that is the same
identifier as an earlier one. -/
def refuseClashes (settings : Settings) (earlier : List String) :
    List String -> Except SynthesisError Unit
  | [] => .ok ()
  | rule :: rest => do
      refuseReserved settings rule
      match earlier.find? fun first => Naming.universal first == Naming.universal rule with
      | some first => .error (.nameCollision first rule)
      | none => refuseClashes settings (rule :: earlier) rest

/-! ## Routines -/

namespace Analysis

/-- The text that the right-hand side of a production was written as, where the
grammar has a rule of that name. -/
def sourceOf (analysis : Analysis) (production : Production) : String :=
  match analysis.grammar.find? production.name with
  | some declaration => declaration.written
  | none => production.root.render

/-- The statements of a rule's routine, after a comment that shows the rule and,
where a token is looked at, the declaration of its variable. -/
def routineBody (analysis : Analysis) (settings : Settings) (production : Production)
    (steps : List Step) : List Statement :=
  let statements := Step.code settings steps
  let declarations :=
    if Statement.blockAssigns settings.tokenVariable statements then
      [Statement.declare settings.tokenVariable .token]
    else []
  .comment (production.name ++ " ::= " ++ analysis.sourceOf production) :: declarations ++ statements

/-- The routine of a production, which the grammar need not contain. -/
def routine (analysis : Analysis) (settings : Settings) (production : Production) :
    Except SynthesisError Routine := do
  refuseReserved settings production.name
  match analysis.routinePlan? production with
  | none => .error (.unknownRule production.name)
  | some steps =>
      match (Step.callsOfAll steps).find? fun rule => !analysis.grammar.declares rule with
      | some rule => .error (.unknownRule rule)
      | none =>
          .ok ⟨production.name, .rule, [], none, analysis.routineBody settings production steps⟩

end Analysis

namespace Grammar

def parser (grammar : Grammar) (settings : Settings) : Except SynthesisError Program := do
  refuseClashes settings [] grammar.names
  let analysis := grammar.analysis
  let routines ← grammar.productions.mapM (analysis.routine settings)
  .ok ⟨Support.bufferDefinitions settings ++ routines.map .routine ++
    [Support.parseRoutine grammar.start.name, Support.mainRoutine settings]⟩

end Grammar
end PredictiveParsing
