import PredictiveParsing.Proofs.LinkedParser

namespace PredictiveParsing

/-!
# Variables have values where they are read

A variable of a routine has to be introduced and given a value before it is read, on every
path through the routine, unless it is a parameter.  The languages that programs are written
in check this without knowing what the program will do, so neither a mismatch nor a primitive
counts as the end of a path here: only leaving the routine does.

The routine of a rule introduces the variable for the current token if something is assigned
to it somewhere, which a search through the finished code decides.  This would not be enough
if a token could be looked at on a path where none has been acquired.  It is, because
whatever the code of steps does with the variable stands behind an acquisition: code
for steps either does not use the variable at all, or gives it a value first.
-/

/-! ## What is done to variables -/

/-- What is done to a variable of a routine. -/
inductive Access where
  /-- The variable is introduced. -/
  | introduce (name : String)
  /-- The variable is given a value. -/
  | give (name : String)
  /-- The value of the variable is read. -/
  | read (name : String)
deriving DecidableEq

namespace Expression

mutual

/-- What an expression does to variables. -/
def accesses : Expression -> List Access
  | .text _ | .argument _ => []
  | .var name => [.read name]
  | .call _ arguments => accessesOfAll arguments
  | .field record _ => accesses record
  | .equal left right | .different left right => accesses left ++ accesses right

def accessesOfAll : List Expression -> List Access
  | [] => []
  | expression :: rest => accesses expression ++ accessesOfAll rest

end

mutual

theorem give_not_mem_accesses (name : String) : ∀ expression : Expression, .give name ∉ accesses expression
  | .text _ | .argument _ => by
      rw [accesses]
      exact List.not_mem_nil
  | .var _ => by simp [accesses]
  | .call _ arguments => by
      rw [accesses]
      exact give_not_mem_accessesOfAll name arguments
  | .field record _ => by
      rw [accesses]
      exact give_not_mem_accesses name record
  | .equal left right | .different left right => by
      rw [accesses]
      exact List.not_mem_append (give_not_mem_accesses name left) (give_not_mem_accesses name right)

theorem give_not_mem_accessesOfAll (name : String) :
    ∀ expressions : List Expression, .give name ∉ accessesOfAll expressions
  | [] => by
      rw [accessesOfAll]
      exact List.not_mem_nil
  | expression :: rest => by
      rw [accessesOfAll]
      exact List.not_mem_append (give_not_mem_accesses name expression) (give_not_mem_accessesOfAll name rest)

end

end Expression

/-- What a primitive does to variables of its routine, to which the token buffer does not belong. -/
def Primitive.accesses : Primitive -> List Access
  | .runLexer _ parameter => [.read parameter]
  | .report position expected => [.read position, .read expected]
  | .loadTokens _ _ | .peek | .take | .requireArguments _ => []

namespace Statement

mutual

/-- What a statement does to variables at any depth. -/
def accesses : Statement -> List Access
  | .comment _ | .leave none => []
  | .declare name _ => [.introduce name]
  | .assign name value => value.accesses ++ [.give name]
  | .call _ arguments => Expression.accessesOfAll arguments
  | .branch arms fallback => armsAccesses arms ++ fallbackAccesses fallback
  | .mismatch position _ => position.accesses
  | .leave (some value) => value.accesses
  | .primitive operation => operation.accesses

def blockAccesses : List Statement -> List Access
  | [] => []
  | statement :: rest => accesses statement ++ blockAccesses rest

def armsAccesses : List (Expression × List Statement) -> List Access
  | [] => []
  | (condition, body) :: rest => condition.accesses ++ blockAccesses body ++ armsAccesses rest

def fallbackAccesses : Option (List Statement) -> List Access
  | none => []
  | some body => blockAccesses body

end

theorem blockAccesses_append (front back : List Statement) :
    blockAccesses (front ++ back) = blockAccesses front ++ blockAccesses back := by
  induction front with
  | nil => rfl
  | cons statement rest inductionHypothesis =>
      rw [List.cons_append, blockAccesses, inductionHypothesis, blockAccesses, List.append_assoc]

theorem forall_mem_blockAccesses_drop {holds : Access -> Prop} {statements : List Statement}
    (each : ∀ access ∈ blockAccesses statements, holds access) (count : Nat) :
    ∀ access ∈ blockAccesses (statements.drop count), holds access := by
  rw [← List.take_append_drop count statements, blockAccesses_append, List.forall_mem_append] at each
  exact each.2

mutual

theorem assigns_iff (name : String) : ∀ statement : Statement,
    statement.assigns name = true ↔ .give name ∈ accesses statement
  | .comment _ | .declare _ _ | .leave none => by simp [assigns, accesses]
  | .assign other value => by
      rw [assigns, accesses, List.mem_append, or_iff_right (Expression.give_not_mem_accesses name value),
        List.mem_singleton, beq_iff_eq, Access.give.injEq, eq_comm]
  | .call _ arguments => by
      rw [accesses]
      exact iff_of_false Bool.false_ne_true (Expression.give_not_mem_accessesOfAll name arguments)
  | .branch arms fallback => by
      rw [assigns, accesses, Bool.or_eq_true, armsAssign_iff, fallbackAssigns_iff, List.mem_append]
  | .mismatch position _ => by
      rw [accesses]
      exact iff_of_false Bool.false_ne_true (Expression.give_not_mem_accesses name position)
  | .leave (some value) => by
      rw [accesses]
      exact iff_of_false Bool.false_ne_true (Expression.give_not_mem_accesses name value)
  | .primitive operation => by
      cases operation <;> simp [assigns, accesses, Primitive.accesses]

theorem blockAssigns_iff (name : String) : ∀ statements : List Statement,
    blockAssigns name statements = true ↔ .give name ∈ blockAccesses statements
  | [] => by simp [blockAssigns, blockAccesses]
  | statement :: rest => by
      rw [blockAssigns, blockAccesses, Bool.or_eq_true, assigns_iff, blockAssigns_iff, List.mem_append]

theorem armsAssign_iff (name : String) : ∀ arms : List (Expression × List Statement),
    armsAssign name arms = true ↔ .give name ∈ armsAccesses arms
  | [] => by simp [armsAssign, armsAccesses]
  | (condition, body) :: rest => by
      rw [armsAssign, armsAccesses, Bool.or_eq_true, blockAssigns_iff, armsAssign_iff, List.mem_append,
        List.mem_append, or_iff_right (Expression.give_not_mem_accesses name condition)]

theorem fallbackAssigns_iff (name : String) : ∀ fallback : Option (List Statement),
    fallbackAssigns name fallback = true ↔ .give name ∈ fallbackAccesses fallback
  | none => by simp [fallbackAssigns, fallbackAccesses]
  | some body => by rw [fallbackAssigns, fallbackAccesses, blockAssigns_iff]

end

/-! ## Paths -/

mutual

/-- What is done to variables on each path through a statement and on, where the paths that
may follow are given.  Nothing follows when the routine is left. -/
def paths : Statement -> List (List Access) -> List (List Access)
  | .branch arms fallback, next => armsPaths arms next (fallbackPaths fallback next)
  | .leave value, _ => [accesses (.leave value)]
  | statement, next => next.map (accesses statement ++ ·)

def blockPaths : List Statement -> List (List Access) -> List (List Access)
  | [], next => next
  | statement :: rest, next => paths statement (blockPaths rest next)

/-- The paths through one of the arms and on, or past all of their conditions. -/
def armsPaths : List (Expression × List Statement) -> List (List Access) -> List (List Access) ->
    List (List Access)
  | [], _, past => past
  | (condition, body) :: rest, next, past =>
      (blockPaths body next ++ armsPaths rest next past).map (condition.accesses ++ ·)

def fallbackPaths : Option (List Statement) -> List (List Access) -> List (List Access)
  | none, next => next
  | some body, next => blockPaths body next

end

theorem blockPaths_append (front back : List Statement) (next : List (List Access)) :
    blockPaths (front ++ back) next = blockPaths front (blockPaths back next) := by
  induction front with
  | nil => rfl
  | cons statement rest inductionHypothesis => rw [List.cons_append, blockPaths, inductionHypothesis, blockPaths]

theorem blockPaths_call (routine : String) (statements : List Statement) (next : List (List Access)) :
    blockPaths (.call routine [] :: statements) next = blockPaths statements next :=
  List.map_id _

/-- Whether all that is done on the paths has the property. -/
def OnPaths (holds : Access -> Prop) (ways : List (List Access)) : Prop :=
  ∀ path ∈ ways, ∀ access ∈ path, holds access

theorem OnPaths.behind {holds : Access -> Prop} {ways : List (List Access)} {first : List Access}
    (each : ∀ access ∈ first, holds access) (later : OnPaths holds ways) :
    OnPaths holds (ways.map (first ++ ·)) := by
  intro path member
  rcases List.mem_map.mp member with ⟨rest, inWays, rfl⟩
  exact List.forall_mem_append.mpr ⟨each, later rest inWays⟩

section

variable {holds : Access -> Prop}

mutual

/-- On a path nothing is done but what is done at some depth. -/
theorem onPaths_paths {next : List (List Access)} (later : OnPaths holds next) : ∀ statement : Statement,
    (∀ access ∈ accesses statement, holds access) -> OnPaths holds (paths statement next)
  | .branch arms fallback, each => by
      rw [accesses, List.forall_mem_append] at each
      rw [paths]
      exact onPaths_armsPaths later (onPaths_fallbackPaths later fallback each.2) arms each.1
  | .leave value, each => by
      rw [paths]
      exact List.forall_mem_singleton.mpr each
  | .comment _, each | .declare _ _, each | .assign _ _, each | .call _ _, each | .mismatch _ _, each
  | .primitive _, each => OnPaths.behind each later

theorem onPaths_blockPaths {next : List (List Access)} (later : OnPaths holds next) : ∀ statements : List Statement,
    (∀ access ∈ blockAccesses statements, holds access) -> OnPaths holds (blockPaths statements next)
  | [], _ => by
      rw [blockPaths]
      exact later
  | statement :: rest, each => by
      rw [blockAccesses, List.forall_mem_append] at each
      rw [blockPaths]
      exact onPaths_paths (onPaths_blockPaths later rest each.2) statement each.1

theorem onPaths_armsPaths {next past : List (List Access)} (later : OnPaths holds next)
    (otherwise : OnPaths holds past) : ∀ arms : List (Expression × List Statement),
      (∀ access ∈ armsAccesses arms, holds access) -> OnPaths holds (armsPaths arms next past)
  | [], _ => by
      rw [armsPaths]
      exact otherwise
  | (condition, body) :: rest, each => by
      rw [armsAccesses, List.forall_mem_append, List.forall_mem_append] at each
      rw [armsPaths]
      refine OnPaths.behind each.1.1 (List.forall_mem_append.mpr ⟨?_, ?_⟩)
      · exact onPaths_blockPaths later body each.1.2
      · exact onPaths_armsPaths later otherwise rest each.2

theorem onPaths_fallbackPaths {next : List (List Access)} (later : OnPaths holds next) :
    ∀ fallback : Option (List Statement), (∀ access ∈ fallbackAccesses fallback, holds access) ->
      OnPaths holds (fallbackPaths fallback next)
  | none, _ => by
      rw [fallbackPaths]
      exact later
  | some body, each => by
      rw [fallbackAccesses] at each
      rw [fallbackPaths]
      exact onPaths_blockPaths later body each

end

end

end Statement

/-- What is done to variables on each path through a routine. -/
def Routine.paths (routine : Routine) : List (List Access) :=
  Statement.blockPaths routine.body [[]]

/-! ## Variables with values -/

/-- Whether the variable was introduced, and has been given a value since. -/
def HasValue (name : String) (before : List Access) : Prop :=
  ∃ earlier between since, before = earlier ++ .introduce name :: (between ++ .give name :: since) ∧
    .introduce name ∉ between ++ since

theorem HasValue.behind {name : String} {before : List Access} (hasValue : HasValue name before)
    (first : List Access) : HasValue name (first ++ before) := by
  rcases hasValue with ⟨earlier, between, since, rfl, once⟩
  exact ⟨first ++ earlier, between, since, (List.append_assoc _ _ _).symm, once⟩

/-- Whether nothing is read on the path but known variables and those with values. -/
def ReadsValues (known : List String) (path : List Access) : Prop :=
  ∀ before name after, path = before ++ .read name :: after -> name ∈ known ∨ HasValue name before

theorem ReadsValues.append {known : List String} {front back : List Access} (first : ReadsValues known front)
    (later : ReadsValues known back) : ReadsValues known (front ++ back) := by
  intro before name after split
  rcases List.append_eq_append_iff.mp split with ⟨inBack, rfl, rest⟩ | ⟨inFront, rfl, rest⟩
  · exact (later inBack name after rest).imp_right fun hasValue => hasValue.behind front
  · cases inFront with
    | nil =>
        have atOnce := (later [] name after rest.symm).imp_right fun hasValue => hasValue.behind before
        rw [List.append_nil] at atOnce
        exact atOnce
    | cons access others =>
        cases (List.cons.inj rest).1
        exact first before name others rfl

theorem readsValues_of_known {known : List String} {path : List Access}
    (each : ∀ access ∈ path, ∃ name ∈ known, access = .read name) : ReadsValues known path := by
  rintro before name after rfl
  rcases each _ (List.mem_append_right _ List.mem_cons_self) with ⟨other, isKnown, same⟩
  cases same
  exact Or.inl isKnown

/-! ## Using one variable -/

/-- Whether a value is given to the variable or read from it. -/
def Access.Uses (name : String) (access : Access) : Prop :=
  access = .give name ∨ access = .read name

/-- Accesses to one variable, which is given a value first. -/
inductive GivesFirst (name : String) : List Access -> Prop
  | unused : GivesFirst name []
  | given {later : List Access} (only : ∀ access ∈ later, access.Uses name) : GivesFirst name (.give name :: later)

theorem GivesFirst.uses {name : String} {path : List Access} (givesFirst : GivesFirst name path) :
    ∀ access ∈ path, access.Uses name := by
  cases givesFirst with
  | unused => exact List.forall_mem_nil _
  | given only => exact List.forall_mem_cons.mpr ⟨Or.inl rfl, only⟩

theorem GivesFirst.readsValues {name : String} {path : List Access} (givesFirst : GivesFirst name path)
    (known : List String) : ReadsValues known (.introduce name :: path) := by
  intro before other after split
  cases before with
  | nil => cases split
  | cons introduced others =>
      rcases List.cons.inj split with ⟨rfl, inPath⟩
      cases givesFirst with
      | unused => exact absurd inPath.symm (List.append_ne_nil_of_right_ne_nil _ (List.cons_ne_nil _ _))
      | given only =>
          cases others with
          | nil => cases inPath
          | cons given since =>
              rcases List.cons.inj inPath with ⟨rfl, rfl⟩
              rcases List.forall_mem_append.mp only with ⟨between, behind⟩
              rcases behind _ List.mem_cons_self with same | same
              · cases same
              cases same
              refine Or.inr ⟨[], [], since, rfl, fun introducedAgain => ?_⟩
              rcases between _ introducedAgain with same | same <;> cases same

/-! ## Code for steps -/

namespace Step

open Statement (accesses blockAccesses armsAccesses blockPaths OnPaths onPaths_blockPaths)

variable {settings : Settings}

theorem accesses_acquireCode (acquisition : Acquisition) :
    accesses (acquireCode settings acquisition) = [.give settings.tokenVariable] := by
  cases acquisition <;> rfl

theorem accesses_matchCode (leaf : Terminal) :
    (matchCode settings leaf).accesses = [.read settings.tokenVariable] := by
  cases leaf <;> rfl

theorem blockAccesses_callCode (rules : List String) : blockAccesses (callCode rules) = [] := by
  induction rules with
  | nil => rfl
  | cons rule rest inductionHypothesis => exact inductionHypothesis

/-- Whether the statements begin with calls, and acquire a token before all else. -/
inductive AcquiresFirst (settings : Settings) : List Statement -> Prop
  | done : AcquiresFirst settings []
  | acquire (acquisition : Acquisition) (later : List Statement) :
      AcquiresFirst settings (acquireCode settings acquisition :: later)
  | call (routine : String) {rest : List Statement} (first : AcquiresFirst settings rest) :
      AcquiresFirst settings (.call routine [] :: rest)

namespace AcquiresFirst

variable {statements front back : List Statement}

theorem append (first : AcquiresFirst settings front) (later : AcquiresFirst settings back) :
    AcquiresFirst settings (front ++ back) := by
  induction first with
  | done => exact later
  | acquire acquisition rest => exact .acquire acquisition (rest ++ back)
  | call routine _ inductionHypothesis => exact .call routine inductionHypothesis

/-- Such statements give the token's variable a value unless they do nothing to variables. -/
theorem unused_or_given (first : AcquiresFirst settings statements) :
    blockAccesses statements = [] ∨ .give settings.tokenVariable ∈ blockAccesses statements := by
  induction first with
  | done => exact Or.inl rfl
  | acquire acquisition later =>
      rw [blockAccesses, accesses_acquireCode]
      exact Or.inr List.mem_cons_self
  | call routine _ inductionHypothesis => exact inductionHypothesis

/-- Behind an acquisition the token's variable has a value, whatever path is taken. -/
theorem givesFirst (first : AcquiresFirst settings statements) {next : List (List Access)}
    (uses : ∀ access ∈ blockAccesses statements, access.Uses settings.tokenVariable)
    (later : ∀ path ∈ next, GivesFirst settings.tokenVariable path) :
    ∀ path ∈ blockPaths statements next, GivesFirst settings.tokenVariable path := by
  induction first with
  | done => exact later
  | acquire acquisition rest =>
      have acquired : blockPaths (acquireCode settings acquisition :: rest) next =
          (blockPaths rest next).map ([.give settings.tokenVariable] ++ ·) := by
        cases acquisition <;> rfl
      have onward : OnPaths (Access.Uses settings.tokenVariable) next := fun path member => (later path member).uses
      rw [blockAccesses, List.forall_mem_append] at uses
      intro path member
      rw [acquired] at member
      rcases List.mem_map.mp member with ⟨behind, inWays, rfl⟩
      exact .given (onPaths_blockPaths onward rest uses.2 behind inWays)
  | call routine _ inductionHypothesis =>
      rw [Statement.blockPaths_call]
      exact inductionHypothesis uses

end AcquiresFirst

/-- What is known of code that looks at tokens. -/
structure LooksAtTokens (settings : Settings) (statements : List Statement) : Prop where
  acquiresFirst : AcquiresFirst settings statements
  uses : ∀ access ∈ blockAccesses statements, access.Uses settings.tokenVariable

namespace LooksAtTokens

variable {statements front back : List Statement}

theorem nil : LooksAtTokens settings [] :=
  ⟨.done, List.forall_mem_nil _⟩

theorem call (routine : String) (looks : LooksAtTokens settings statements) :
    LooksAtTokens settings (.call routine [] :: statements) :=
  ⟨.call routine looks.acquiresFirst, looks.uses⟩

theorem acquire (acquisition : Acquisition)
    (uses : ∀ access ∈ blockAccesses statements, access.Uses settings.tokenVariable) :
    LooksAtTokens settings (acquireCode settings acquisition :: statements) := by
  refine ⟨.acquire acquisition statements, ?_⟩
  rw [blockAccesses, accesses_acquireCode]
  exact List.forall_mem_cons.mpr ⟨Or.inl rfl, uses⟩

theorem append (first : LooksAtTokens settings front) (later : LooksAtTokens settings back) :
    LooksAtTokens settings (front ++ back) := by
  refine ⟨first.acquiresFirst.append later.acquiresFirst, ?_⟩
  rw [Statement.blockAccesses_append]
  exact List.forall_mem_append.mpr ⟨first.uses, later.uses⟩

end LooksAtTokens

theorem looksAtTokens_selectCode (acquisition : Acquisition) {arms : List (Expression × List Statement)}
    (ofArms : ∀ access ∈ armsAccesses arms, access.Uses settings.tokenVariable) (spellings : List String)
    (mayBeAbsent : Bool) :
    LooksAtTokens settings (selectCode settings acquisition arms spellings mayBeAbsent) := by
  have reads : ∀ access ∈ [Access.read settings.tokenVariable], access.Uses settings.tokenVariable :=
    List.forall_mem_singleton.mpr (Or.inr rfl)
  unfold selectCode
  split
  · split
    · exact .nil
    · exact .acquire acquisition reads
  · refine .acquire acquisition ?_
    rw [blockAccesses, accesses, blockAccesses, List.append_nil]
    refine List.forall_mem_append.mpr ⟨ofArms, ?_⟩
    split
    · exact List.forall_mem_nil _
    · exact reads

mutual

/-- Code for steps calls rules until it acquires a token, and has no variable but the one for
this token. -/
theorem looksAtTokens_code (settings : Settings) : ∀ steps : List Step, LooksAtTokens settings (code settings steps)
  | [] => by
      rw [code]
      exact .nil
  | .nothing :: rest => by
      rw [code]
      exact looksAtTokens_code settings rest
  | .require leaf :: rest => by
      have branch : accesses (.branch [(matchCode settings leaf, callCode (leadingCalls rest))]
          (some [mismatchCode settings leaf.spelling])) =
          [.read settings.tokenVariable, .read settings.tokenVariable] := by
        rw [accesses, armsAccesses, armsAccesses, accesses_matchCode, blockAccesses_callCode]
        rfl
      have later := Statement.forall_mem_blockAccesses_drop (looksAtTokens_code settings rest).uses
        (leadingCalls rest).length
      rw [code]
      refine .acquire .take ?_
      rw [blockAccesses, branch]
      exact List.forall_mem_cons.mpr ⟨Or.inr rfl, List.forall_mem_cons.mpr ⟨Or.inr rfl, later⟩⟩
  | .call rule :: rest => by
      rw [code]
      exact (looksAtTokens_code settings rest).call rule
  | .advance :: rest => by
      rw [code]
      exact (looksAtTokens_code settings rest).call Support.take
  | .group steps :: rest => by
      rw [code]
      exact (looksAtTokens_code settings steps).append (looksAtTokens_code settings rest)
  | .select acquisition arms mayBeAbsent :: rest => by
      rw [code]
      exact (looksAtTokens_selectCode acquisition (uses_armsCode settings arms) _ mayBeAbsent).append
        (looksAtTokens_code settings rest)

theorem uses_armsCode (settings : Settings) : ∀ arms : List (Terminal × List Step),
    ∀ access ∈ armsAccesses (armsCode settings arms), access.Uses settings.tokenVariable
  | [] => by
      rw [armsCode]
      exact List.forall_mem_nil _
  | (leaf, steps) :: rest => by
      have body := (looksAtTokens_code settings steps).uses
      rw [armsCode, armsAccesses, accesses_matchCode, List.append_assoc, List.singleton_append]
      exact List.forall_mem_cons.mpr ⟨Or.inr rfl, List.forall_mem_append.mpr ⟨body, uses_armsCode settings rest⟩⟩

end

end Step

/-! ## Routines -/

open Statement (accesses blockAccesses blockPaths)

/-- Whether each path through the routine reads its parameters only and variables with values. -/
def Routine.IsDefinite (routine : Routine) : Prop :=
  ∀ path ∈ routine.paths, ReadsValues (routine.parameters.map (·.name)) path

/-- Whether the routine introduces no variable but this one, once, and right behind the comment
that it begins with, and does so if and only if it uses the variable somewhere. -/
def Routine.IntroducesOnDemand (routine : Routine) (name : String) : Prop :=
  ∃ text declarations statements,
    routine.body = .comment text :: (declarations ++ statements) ∧
    (declarations = [.declare name .token] ∨ declarations = []) ∧
    (∀ other, .introduce other ∉ blockAccesses statements) ∧
    (declarations ≠ [] ↔ .read name ∈ blockAccesses routine.body ∨ .give name ∈ blockAccesses routine.body)

namespace Analysis

variable {analysis : Analysis} {settings : Settings} {production : Production} {steps : List Step}

theorem RoutineFor.isDefinite {routine : Routine}
    (routineFor : analysis.RoutineFor settings production routine steps) : routine.IsDefinite := by
  have ends : ∀ path ∈ [[]], GivesFirst settings.tokenVariable path := List.forall_mem_singleton.mpr .unused
  have looks := Step.looksAtTokens_code settings steps
  have givesFirst := looks.acquiresFirst.givesFirst looks.uses ends
  rw [routineFor.written]
  intro path member
  change path ∈ (blockPaths (_ ++ Step.code settings steps) [[]]).map ([] ++ ·) at member
  rw [List.map_id'' List.nil_append, Statement.blockPaths_append] at member
  split at member
  · rcases List.mem_map.mp member with ⟨rest, inCode, rfl⟩
    exact (givesFirst rest inCode).readsValues _
  · rename_i notAssigned
    rw [Statement.blockAssigns_iff] at notAssigned
    have somewhere := Statement.onPaths_blockPaths (List.forall_mem_singleton.mpr (List.forall_mem_nil _))
      (Step.code settings steps) (fun _ => id) path member
    cases givesFirst path member with
    | unused => exact readsValues_of_known (List.forall_mem_nil _)
    | given only => exact absurd (somewhere _ List.mem_cons_self) notAssigned

theorem RoutineFor.introducesOnDemand {routine : Routine}
    (routineFor : analysis.RoutineFor settings production routine steps) :
    routine.IntroducesOnDemand settings.tokenVariable := by
  have looks := Step.looksAtTokens_code settings steps
  have noIntroduction (other : String) : .introduce other ∉ blockAccesses (Step.code settings steps) := by
    intro introduced
    rcases looks.uses _ introduced with same | same <;> cases same
  rw [routineFor.written]
  refine ⟨_, _, _, rfl, ?_, noIntroduction, ?_⟩
  · split
    · exact Or.inl rfl
    · exact Or.inr rfl
  · rw [routineBody, List.cons_append, blockAccesses, Statement.blockAccesses_append]
    split
    · rename_i assigned
      rw [Statement.blockAssigns_iff] at assigned
      exact iff_of_true (List.cons_ne_nil _ _) (Or.inr (List.mem_append_right _ (List.mem_append_right _ assigned)))
    · rename_i notAssigned
      rw [Statement.blockAssigns_iff] at notAssigned
      rw [looks.acquiresFirst.unused_or_given.resolve_right notAssigned]
      exact iff_of_false (not_not_intro rfl) (not_or_intro List.not_mem_nil List.not_mem_nil)

end Analysis

namespace Support

variable {settings : Settings} {start : String}

/-- The routines on the token buffer read their parameters only. -/
theorem isDefinite_of_mem_bufferRoutines {routine : Routine} (member : routine ∈ bufferRoutines settings) :
    routine.IsDefinite := by
  simp only [bufferRoutines, bufferDefinitions, primitiveRoutine, List.filterMap_cons, Definition.routine?,
    List.filterMap_nil, List.mem_cons, List.not_mem_nil, or_false] at member
  rcases member with rfl | rfl | rfl | rfl | rfl <;>
    exact List.forall_mem_singleton.mpr (readsValues_of_known (by simp [accesses, Primitive.accesses]))

/-- The main routine introduces its two variables one after the other, and they may have the
same name. -/
theorem isDefinite_of_mem_lastRoutines {routine : Routine} (member : routine ∈ lastRoutines settings start) :
    routine.IsDefinite := by
  simp only [lastRoutines, parseRoutine, mainRoutine, List.filterMap_cons, Definition.routine?,
    List.filterMap_nil, List.mem_cons, List.not_mem_nil, or_false] at member
  rcases member with rfl | rfl
  · exact List.forall_mem_singleton.mpr (readsValues_of_known (List.forall_mem_singleton.mpr ⟨file, by simp⟩))
  · let token := settings.tokenVariable
    have named : GivesFirst fileName [.give fileName, .read fileName] :=
      .given (List.forall_mem_singleton.mpr (Or.inr rfl))
    have goesOn (path : List Access) (givesFirst : GivesFirst token path) :
        ReadsValues [] ([.introduce fileName, .give fileName, .read fileName] ++ .introduce token :: path) :=
      (named.readsValues []).append (givesFirst.readsValues [])
    have atEnd : ∀ access ∈ [Access.read token], access.Uses token := List.forall_mem_singleton.mpr (Or.inr rfl)
    refine List.forall_mem_cons.mpr ⟨?_, List.forall_mem_singleton.mpr (goesOn _ (.given atEnd))⟩
    exact goesOn _ (.given (List.forall_mem_cons.mpr ⟨Or.inr rfl, atEnd⟩))

end Support

namespace Grammar

variable {grammar : Grammar} {settings : Settings} {program : Program}

/-- In a parser every read of a variable is one of a parameter, or on each path to it the
variable has been introduced and then given a value.  The routine of a rule introduces
the variable for the current token at most once, before all but its comment, and just if it
uses it. -/
theorem isDefinite_of_parser_eq_ok (made : grammar.parser settings = .ok program) :
    (∀ routine ∈ program.routines, routine.IsDefinite) ∧
    ∀ routine ∈ program.routines, routine.role = .rule -> routine.IntroducesOnDemand settings.tokenVariable := by
  refine ⟨fun routine member => ?_, fun routine member ofRule => ?_⟩
  · rcases exists_routines_eq made with ⟨routines, allMade, _, ordered⟩
    rw [ordered, List.mem_append, List.mem_append] at member
    rcases member with (ofBuffer | ofProduction) | last
    · exact Support.isDefinite_of_mem_bufferRoutines ofBuffer
    · rcases exists_related_right allMade.flip ofProduction with ⟨production, _, ownMade⟩
      rcases Analysis.routineFor_of_ok ownMade with ⟨steps, routineFor⟩
      exact routineFor.isDefinite
    · exact Support.isDefinite_of_mem_lastRoutines last
  · rcases exists_production_of_role made member ofRule with ⟨production, _, steps, routineFor⟩
    exact routineFor.introducesOnDemand

theorem isDefinite_of_groups :
    ∃ program, groups.parser .standard = .ok program ∧ (∀ routine ∈ program.routines, routine.IsDefinite) ∧
      ∀ routine ∈ program.routines, routine.role = .rule ->
        routine.IntroducesOnDemand Settings.standard.tokenVariable := by
  rcases groups_hasParser with ⟨program, made⟩
  exact ⟨program, made, isDefinite_of_parser_eq_ok made⟩

example : (Support.mainRoutine .standard).routine?.map Routine.paths =
    some
      [[.introduce "filename", .give "filename", .read "filename", .introduce "next_token", .give "next_token",
          .read "next_token", .read "next_token"],
        [.introduce "filename", .give "filename", .read "filename", .introduce "next_token", .give "next_token",
          .read "next_token"]] := rfl

end Grammar
end PredictiveParsing
