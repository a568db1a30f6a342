import PredictiveParsing.Pattern.Basic

namespace PredictiveParsing

/-!
# Plans

A plan says how a routine follows a pattern token by token: each factor becomes
one step, and a choice becomes a selection among plans by the next token.  Plans
leave open how their steps are written as statements.
-/

/-- How the token that a selection looks at is obtained. -/
inductive Acquisition where
  /-- The token stays in the buffer. -/
  | peek
  /-- The token is removed from the buffer. -/
  | take
deriving DecidableEq

/-- What a routine does for one factor of a pattern. -/
inductive Step where
  | nothing
  /-- The next token has to match and is removed. -/
  | require (leaf : Terminal)
  /-- The routine of a rule goes on. -/
  | call (rule : String)
  /-- The next token, which has been looked at already, is removed. -/
  | advance
  /-- All the steps are done in order. -/
  | group (steps : List Step)
  /-- The first arm whose terminal matches the next token is taken.  Where none
  does, that is a mismatch, unless the pattern may be absent. -/
  | select (acquisition : Acquisition) (arms : List (Terminal × List Step)) (mayBeAbsent : Bool)

namespace Step

def isNothing : Step -> Bool
  | .nothing => true
  | _ => false

/-- The steps of an alternative, from the first that does anything. -/
def body : Step -> List Step
  | .nothing => []
  | .group steps => steps.dropWhile isNothing
  | step => [step]

/-- The steps of an alternative that was selected by a terminal.  If the first step
would only require this terminal again, what is left of that is to remove the
token, where the selection has not done so. -/
def afterSelection (acquisition : Acquisition) (seen : Terminal) (alternative : Step) : List Step :=
  match alternative.body with
  | .require leaf :: rest =>
      if leaf = seen then
        match acquisition with
        | .peek => .advance :: rest
        | .take => rest
      else .require leaf :: rest
  | steps => steps

mutual

/-- The rules called, from left to right and with repetitions. -/
def calls : Step -> List String
  | .call rule => [rule]
  | .group steps => callsOfAll steps
  | .select _ arms _ => callsOfArms arms
  | _ => []

def callsOfAll : List Step -> List String
  | [] => []
  | step :: rest => calls step ++ callsOfAll rest

def callsOfArms : List (Terminal × List Step) -> List String
  | [] => []
  | (_, steps) :: rest => callsOfAll steps ++ callsOfArms rest

end

/-- The rules that the steps begin with calling. -/
def leadingCalls : List Step -> List String
  | .call rule :: rest => rule :: leadingCalls rest
  | _ => []

end Step
end PredictiveParsing
