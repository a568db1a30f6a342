import PredictiveParsing.Proofs.DistinctIdentifiers

namespace PredictiveParsing

/-!
# Names in the code of Python modules

Code speaks of three kinds of things by name.  A routine has variables of its own; it calls
routines of the module; and it relies on words that are written as they are, which are
built in, imported, or the token buffer.  Names of the first two kinds become identifiers,
and nothing but the identifier tells a reader of the module which kind is meant.

Main statement: the routine of a rule has no variable but the one for the current token,
and where it looks at the next token it has that variable.
-/

/-- What a piece of Python code means by a name. -/
inductive NameUse where
  /-- A variable of the routine that the code stands in. -/
  | own (name : String)
  /-- A routine of the module. -/
  | routine (name : String)
  /-- A word that is written as it is. -/
  | word (text : String)
deriving DecidableEq

namespace NameUse

def identifier : NameUse -> String
  | .own name | .routine name => PythonModule.identifier name
  | .word text => text

/-- Whether a variable of the routine is meant. -/
def isOwn : NameUse -> Bool
  | .own _ => true
  | .routine _ | .word _ => false

end NameUse

namespace PythonModule

/-! ## What code speaks of -/

/-- The names in the type of a variable. -/
def typeUses : ValueType -> List NameUse
  | .text => [.word "str"]
  | .token | .tokenList => [.word "List", .word "str"]

mutual

def expressionUses : Expression -> List NameUse
  | .text _ => []
  | .var name => [.own name]
  | .argument _ => [.word "sys"]
  | .call routine arguments => .routine routine :: expressionUsesOfAll arguments
  | .field record _ => expressionUses record
  | .equal left right | .different left right => expressionUses left ++ expressionUses right

def expressionUsesOfAll : List Expression -> List NameUse
  | [] => []
  | expression :: rest => expressionUses expression ++ expressionUsesOfAll rest

end

/-- The names in what is written for a primitive, among them the variables that only
these lines have. -/
def primitiveUses : Primitive -> List NameUse
  | .runLexer _ parameter => [.own "response", .word "subprocess", .own parameter, .word "sys"]
  | .loadTokens _ _ => [.word Support.tokens, .word "open", .own "f", .own "line"]
  | .peek | .take => [.word "len", .word Support.tokens]
  | .report position expected => [.word "print", .own position, .own expected, .word "sys"]
  | .requireArguments _ => [.word "len", .word "sys", .word "print"]

mutual

/-- The names in a statement, comments apart. -/
def statementUses : Statement -> List NameUse
  | .comment _ | .leave none => []
  | .declare name type => .own name :: typeUses type
  | .assign name value => .own name :: expressionUses value
  | .call routine arguments => .routine routine :: expressionUsesOfAll arguments
  | .branch arms fallback => armsUses arms ++ fallbackUses fallback
  | .mismatch position _ => .routine Support.expect :: expressionUses position
  | .leave (some value) => expressionUses value
  | .primitive operation => primitiveUses operation

def blockUses : List Statement -> List NameUse
  | [] => []
  | statement :: rest => statementUses statement ++ blockUses rest

def armsUses : List (Expression × List Statement) -> List NameUse
  | [] => []
  | (condition, body) :: rest => expressionUses condition ++ blockUses body ++ armsUses rest

def fallbackUses : Option (List Statement) -> List NameUse
  | none => []
  | some body => blockUses body

end

/-- The names in a routine, those of its header before those of its statements. -/
def routineUses (routine : Routine) : List NameUse :=
  routine.parameters.flatMap (fun parameter => .own parameter.name :: typeUses parameter.type) ++
    routine.returns.toList.flatMap typeUses ++ blockUses routine.body

theorem blockUses_eq_flatMap (statements : List Statement) :
    blockUses statements = statements.flatMap statementUses := by
  induction statements with
  | nil => rfl
  | cons statement rest inductionHypothesis => rw [blockUses, inductionHypothesis, List.flatMap_cons]

/-! ## What rules speak of -/

/-- The names that rules use besides those of other rules. -/
def ruleUses (settings : Settings) : List NameUse :=
  [.own settings.tokenVariable, .routine Support.peek, .routine Support.take, .routine Support.expect,
    .word "List", .word "str"]

/-- What is known of the names that the code of rules uses. -/
structure SpeaksOfRules (settings : Settings) (rules : List String) (uses : List NameUse) : Prop where
  known : ∀ use ∈ uses, use ∈ ruleUses settings ∨ ∃ rule ∈ rules, use = .routine rule
  looks : .routine Support.peek ∈ uses -> .own settings.tokenVariable ∈ uses ∨ Support.peek ∈ rules

namespace SpeaksOfRules

variable {settings : Settings} {rules more : List String} {uses others : List NameUse}

theorem nil : SpeaksOfRules settings rules [] :=
  ⟨List.forall_mem_nil _, nofun⟩

theorem mono (speaks : SpeaksOfRules settings rules uses) (subset : rules ⊆ more) :
    SpeaksOfRules settings more uses where
  known use member := by
    refine (speaks.known use member).imp_right ?_
    rintro ⟨rule, inRules, same⟩
    exact ⟨rule, subset inRules, same⟩
  looks called := (speaks.looks called).imp_right fun inRules => subset inRules

theorem append (first : SpeaksOfRules settings rules uses) (later : SpeaksOfRules settings rules others) :
    SpeaksOfRules settings rules (uses ++ others) where
  known := List.forall_mem_append.mpr ⟨first.known, later.known⟩
  looks called := by
    rcases List.mem_append.mp called with inFirst | inLater
    · exact (first.looks inFirst).imp_left (List.mem_append_left _)
    · exact (later.looks inLater).imp_left (List.mem_append_right _)

theorem flatMap {α : Type} {ofEach : α -> List NameUse} {items : List α}
    (each : ∀ item ∈ items, SpeaksOfRules settings rules (ofEach item)) :
    SpeaksOfRules settings rules (items.flatMap ofEach) := by
  induction items with
  | nil => exact nil
  | cons item rest inductionHypothesis =>
      rcases List.forall_mem_cons.mp each with ⟨first, later⟩
      exact first.append (inductionHypothesis later)

/-- Code that does not look ahead only has to use known names. -/
theorem of_known (known : ∀ use ∈ uses, use ∈ ruleUses settings) (noLooks : .routine Support.peek ∉ uses) :
    SpeaksOfRules settings rules uses :=
  ⟨fun use member => Or.inl (known use member), fun called => absurd called noLooks⟩

end SpeaksOfRules

end PythonModule

namespace Step

open PythonModule

variable {settings : Settings} {rules : List String}

/-- Whether every statement speaks of rules. -/
def AllSpeak (settings : Settings) (rules : List String) (statements : List Statement) : Prop :=
  ∀ statement ∈ statements, SpeaksOfRules settings rules (statementUses statement)

theorem AllSpeak.block {statements : List Statement} (all : AllSpeak settings rules statements) :
    SpeaksOfRules settings rules (blockUses statements) := by
  rw [blockUses_eq_flatMap]
  exact .flatMap all

theorem AllSpeak.mono {more : List String} {statements : List Statement} (all : AllSpeak settings rules statements)
    (subset : rules ⊆ more) : AllSpeak settings more statements :=
  fun statement member => (all statement member).mono subset

theorem speaks_acquireCode (acquisition : Acquisition) :
    SpeaksOfRules settings rules (statementUses (acquireCode settings acquisition)) := by
  have variableUsed : NameUse.own settings.tokenVariable ∈ statementUses (acquireCode settings acquisition) := by
    cases acquisition <;> exact List.mem_cons_self
  refine ⟨fun use member => Or.inl ?_, fun _ => Or.inl variableUsed⟩
  cases acquisition <;>
    simp only [acquireCode, statementUses, expressionUses, expressionUsesOfAll, List.mem_cons, List.not_mem_nil,
      or_false] at member <;>
    rcases member with rfl | rfl <;> simp [ruleUses]

theorem speaks_mismatchCode (expected : String) :
    SpeaksOfRules settings rules (statementUses (mismatchCode settings expected)) := by
  refine .of_known (fun use member => ?_) ?_
  · simp only [mismatchCode, currentToken, statementUses, expressionUses, List.mem_cons, List.not_mem_nil,
      or_false] at member
    rcases member with rfl | rfl <;> simp [ruleUses]
  · simp [mismatchCode, currentToken, statementUses, expressionUses, Support.peek, Support.expect]

theorem speaks_matchCode (leaf : Terminal) :
    SpeaksOfRules settings rules (expressionUses (matchCode settings leaf)) := by
  have single : expressionUses (matchCode settings leaf) = [.own settings.tokenVariable] := by
    cases leaf <;> rfl
  rw [single]
  exact .of_known (by simp [ruleUses]) (by simp)

theorem speaks_call {rule : String} (member : rule ∈ rules) :
    SpeaksOfRules settings rules (statementUses (.call rule [])) where
  known := List.forall_mem_singleton.mpr (Or.inr ⟨rule, member, rfl⟩)
  looks called := by
    cases List.mem_singleton.mp called
    exact Or.inr member

theorem allSpeak_callCode {called : List String} (subset : called ⊆ rules) :
    AllSpeak settings rules (callCode called) := by
  intro statement member
  rcases List.mem_map.mp member with ⟨rule, isCalled, rfl⟩
  exact speaks_call (subset isCalled)

theorem allSpeak_selectCode (acquisition : Acquisition) {arms : List (Expression × List Statement)}
    (ofArms : SpeaksOfRules settings rules (armsUses arms)) (spellings : List String) (mayBeAbsent : Bool) :
    AllSpeak settings rules (selectCode settings acquisition arms spellings mayBeAbsent) := by
  have acquires : SpeaksOfRules settings rules (statementUses (acquireCode settings acquisition)) :=
    speaks_acquireCode acquisition
  have reports : SpeaksOfRules settings rules (statementUses (mismatchCode settings (",".intercalate spellings))) :=
    speaks_mismatchCode _
  unfold selectCode
  split
  · split
    · exact List.forall_mem_nil _
    · exact List.forall_mem_cons.mpr ⟨acquires, List.forall_mem_singleton.mpr reports⟩
  · refine List.forall_mem_cons.mpr ⟨acquires, List.forall_mem_singleton.mpr (ofArms.append ?_)⟩
    split
    · exact .nil
    · exact reports.append .nil

mutual

/-- The statements written for steps speak of the rules that the steps call. -/
theorem allSpeak_code (settings : Settings) :
    ∀ steps : List Step, AllSpeak settings (callsOfAll steps) (code settings steps)
  | [] => by
      rw [code]
      exact List.forall_mem_nil _
  | .nothing :: rest => by
      rw [code]
      exact allSpeak_code settings rest
  | .require leaf :: rest => by
      have later : AllSpeak settings (callsOfAll rest) (code settings rest) := allSpeak_code settings rest
      have folded : AllSpeak settings (callsOfAll rest) (callCode (leadingCalls rest)) :=
        allSpeak_callCode (leadingCalls_subset rest)
      have arm := ((speaks_matchCode leaf).append folded.block).append .nil
      have reports : SpeaksOfRules settings (callsOfAll rest) (blockUses [mismatchCode settings leaf.spelling]) :=
        (speaks_mismatchCode _).append .nil
      rw [code]
      exact List.forall_mem_cons.mpr ⟨speaks_acquireCode .take, List.forall_mem_cons.mpr
        ⟨arm.append reports, fun statement member => later statement (List.mem_of_mem_drop member)⟩⟩
  | .call rule :: rest => by
      have later := (allSpeak_code settings rest).mono (List.subset_cons_self rule _)
      rw [code]
      exact List.forall_mem_cons.mpr ⟨speaks_call List.mem_cons_self, later⟩
  | .advance :: rest => by
      rw [code]
      refine List.forall_mem_cons.mpr ⟨.of_known ?_ ?_, allSpeak_code settings rest⟩
      · simp [statementUses, expressionUsesOfAll, ruleUses]
      · simp [statementUses, expressionUsesOfAll, Support.peek, Support.take]
  | .group steps :: rest => by
      have first := (allSpeak_code settings steps).mono (List.subset_append_left _ (callsOfAll rest))
      have later := (allSpeak_code settings rest).mono (List.subset_append_right (callsOfAll steps) _)
      rw [code]
      exact List.forall_mem_append.mpr ⟨first, later⟩
  | .select acquisition arms mayBeAbsent :: rest => by
      have ofArms := (speaks_armsCode settings arms).mono (List.subset_append_left _ (callsOfAll rest))
      have later := (allSpeak_code settings rest).mono (List.subset_append_right (callsOfArms arms) _)
      rw [code]
      exact List.forall_mem_append.mpr ⟨allSpeak_selectCode acquisition ofArms _ mayBeAbsent, later⟩

theorem speaks_armsCode (settings : Settings) :
    ∀ arms : List (Terminal × List Step),
      SpeaksOfRules settings (callsOfArms arms) (armsUses (armsCode settings arms))
  | [] => by
      rw [armsCode]
      exact .nil
  | (leaf, steps) :: rest => by
      have first := (allSpeak_code settings steps).block.mono (List.subset_append_left _ (callsOfArms rest))
      have later := (speaks_armsCode settings rest).mono (List.subset_append_right (callsOfAll steps) _)
      rw [armsCode]
      exact ((speaks_matchCode leaf).append first).append later

end

end Step

/-- The routine of a rule speaks of the rules that its plan calls. -/
theorem Analysis.RoutineFor.speaks {analysis : Analysis} {settings : Settings} {production : Production}
    {routine : Routine} {steps : List Step} (routineFor : analysis.RoutineFor settings production routine steps) :
    PythonModule.SpeaksOfRules settings (Step.callsOfAll steps) (PythonModule.routineUses routine) := by
  have ofSteps := Step.allSpeak_code settings steps
  rw [routineFor.written]
  change PythonModule.SpeaksOfRules _ _ (PythonModule.blockUses (_ ++ Step.code settings steps))
  rw [PythonModule.blockUses_eq_flatMap]
  refine .flatMap (List.forall_mem_append.mpr ⟨List.forall_mem_cons.mpr ⟨.nil, ?_⟩, ofSteps⟩)
  split
  · refine List.forall_mem_singleton.mpr (.of_known ?_ ?_)
    · simp [PythonModule.statementUses, PythonModule.typeUses, PythonModule.ruleUses]
    · simp [PythonModule.statementUses, PythonModule.typeUses]
  · exact List.forall_mem_nil _

end PredictiveParsing
