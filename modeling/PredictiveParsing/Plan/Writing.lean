import PredictiveParsing.Code.Support
import PredictiveParsing.Plan.Step

namespace PredictiveParsing

/-!
# Writing plans as statements

The token being looked at is kept in one variable.  A required token is taken,
and rules called directly after it are called from the branch in which it
matched.  A selection without arms does nothing where its pattern may be absent
and is a mismatch otherwise.
-/

namespace Step

def currentToken (settings : Settings) : Expression :=
  .var settings.tokenVariable

/-- Makes the next token the one being looked at. -/
def acquireCode (settings : Settings) : Acquisition -> Statement
  | .peek => .assign settings.tokenVariable (.call Support.peek [])
  | .take => .assign settings.tokenVariable (.call Support.take [])

/-- Whether the token being looked at matches a leaf. -/
def matchCode (settings : Settings) (leaf : Terminal) : Expression :=
  match leaf with
  | .literal text => .equal (.field (currentToken settings) .literal) (.text text)
  | .tokenClass name => .equal (.field (currentToken settings) .className) (.text name)

/-- Reports that the token being looked at is not what was expected. -/
def mismatchCode (settings : Settings) (expected : String) : Statement :=
  .mismatch (.field (currentToken settings) .position) expected

def callCode (rules : List String) : List Statement :=
  rules.map (.call · [])

/-- The selection with the statements of its arms, where the expected spellings
are those of all arms. -/
def selectCode (settings : Settings) (acquisition : Acquisition) (arms : List (Expression × List Statement))
    (spellings : List String) (mayBeAbsent : Bool) : List Statement :=
  let expected := mismatchCode settings (",".intercalate spellings)
  if arms.isEmpty then
    if mayBeAbsent then [] else [acquireCode settings acquisition, expected]
  else [acquireCode settings acquisition, .branch arms (if mayBeAbsent then none else some [expected])]

mutual

/-- The statements that do the steps in order. -/
def code (settings : Settings) : List Step -> List Statement
  | [] => []
  | .nothing :: rest => code settings rest
  | .require leaf :: rest =>
      acquireCode settings .take ::
        .branch [(matchCode settings leaf, callCode (leadingCalls rest))]
          (some [mismatchCode settings leaf.spelling]) ::
        (code settings rest).drop (leadingCalls rest).length
  | .call rule :: rest => .call rule [] :: code settings rest
  | .advance :: rest => .call Support.take [] :: code settings rest
  | .group steps :: rest => code settings steps ++ code settings rest
  | .select acquisition arms mayBeAbsent :: rest =>
      selectCode settings acquisition (armsCode settings arms) (arms.map (·.1.spelling)) mayBeAbsent ++
        code settings rest

def armsCode (settings : Settings) :
    List (Terminal × List Step) -> List (Expression × List Statement)
  | [] => []
  | (leaf, steps) :: rest => (matchCode settings leaf, code settings steps) :: armsCode settings rest

end

end Step
end PredictiveParsing
