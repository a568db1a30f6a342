import Mathlib.Logic.Equiv.Basic
import PredictiveParsing.Proofs.Correspondence
import PredictiveParsing.Proofs.GrammarText
import PredictiveParsing.Proofs.ParserContents

namespace PredictiveParsing

/-!
# Routines under renamed token classes

A routine tells tokens apart by the field of the record that it compares, so its
statements never confuse a class with a literal.  What decides about its statements
is the plan, and with the tables the plan follows a renaming of the token classes
that neither joins nor parts spellings.  The routine then keeps its outline: it has
the same statements in the same order, with the new names in its tests.

Where a renaming gives a class the spelling of a literal, an arm can be lost: the
tables hold one entry for both.  It makes no difference that the renaming gives
different classes different names.
-/

/-! ## Plans -/

theorem Pattern.mem_parts_of_mem_factors {pattern factor : Pattern} (member : factor ∈ pattern.factors) :
    factor ∈ pattern.parts := by
  cases pattern with
  | sequence factors => exact innerParts_subset_parts _ (factor_mem_innerParts member)
  | _ =>
      cases List.mem_singleton.mp member
      exact mem_parts_self _

namespace Grammar.RenamesTo

variable {rename : String -> String} {grammar renamed : Grammar}

/-- A grammar corresponds to a renamed one on all rules. -/
def correspondence (renames : RenamesTo rename grammar renamed)
    (keeps : Terminal.KeepsSpellings rename grammar.terminals) : Correspondence where
  first := grammar
  second := renamed
  rules _ := True
  rename := rename
  leaves := grammar.leaves
  contained := List.Subset.refl _
  keeps := keeps
  isNullable_eq pattern _ := renames.isNullable_eq pattern
  find?_eq rule _ := by
    rw [renames, List.find?_map]
    rfl
  closed _ _ _ _ _ := trivial

section

variable (renames : RenamesTo rename grammar renamed) (keeps : Terminal.KeepsSpellings rename grammar.terminals)

include renames keeps

/-- The plan of a renamed pattern is the renamed plan. -/
theorem plan_eq (owner : String) {pattern : Pattern} (leaves : pattern.leaves ⊆ grammar.leaves) :
    renamed.analysis.plan owner (pattern.renameClasses rename) =
      (grammar.analysis.plan owner pattern).renameClasses rename :=
  (renames.correspondence keeps).plan_eq owner ⟨leaves, fun _ _ => trivial⟩

/-- The plan for the routine of a renamed production is the renamed plan. -/
theorem routinePlan?_eq {production : Production} (declared : production ∈ grammar.productions) :
    renamed.analysis.routinePlan? (production.renameClasses rename) =
      (grammar.analysis.routinePlan? production).map (Step.renameClassesOfAll rename) := by
  have leaves := leaves_subset declared
  have selects : (production.renameClasses rename).root.selects = production.root.selects :=
    Pattern.selects_renameClasses rename production.root
  rw [Analysis.routinePlan?, Analysis.routinePlan?, selects]
  split
  · rename_i isSelection
    have planned : renamed.analysis.plan production.name (production.renameClasses rename).root =
        (grammar.analysis.plan production.name production.root).renameClasses rename :=
      renames.plan_eq keeps production.name leaves
    rw [Analysis.plan_of_selects _ _ _ isSelection,
      Analysis.plan_of_selects _ _ _ (selects.trans isSelection)] at planned
    rw [Analysis.lookahead?_of_mem renamed.analysis (renames.mem declared),
      Analysis.lookahead?_of_mem grammar.analysis declared]
    exact congrArg (fun step => some [step]) planned
  · have factors : (production.renameClasses rename).root.factors =
        production.root.factors.map (Pattern.renameClasses rename) :=
      Pattern.factors_renameClasses rename production.root
    rw [factors, Option.map_some, Step.renameClassesOfAll_eq_map, List.map_map, List.map_map]
    refine congrArg some (List.map_congr_left fun factor member => renames.plan_eq keeps _ ?_)
    exact List.Subset.trans (Pattern.leaves_subset_of_mem_parts (Pattern.mem_parts_of_mem_factors member)) leaves

end
end Grammar.RenamesTo

/-! ## Outlines -/

/-- The test of a class with another name for the class.  Other expressions stay. -/
def Expression.renameClass (rename : String -> String) : Expression -> Expression
  | .equal (.field record .className) (.text name) => .equal (.field record .className) (.text (rename name))
  | expression => expression

namespace Statement

mutual

/-- The statement without the texts of its comments and without what it expects at a
mismatch, and with other names for the classes that it tests. -/
def outline (rename : String -> String) : Statement -> Statement
  | .comment _ => .comment ""
  | .branch arms fallback => .branch (armsOutline rename arms) (fallbackOutline rename fallback)
  | .mismatch position _ => .mismatch position ""
  | statement => statement

def blockOutline (rename : String -> String) : List Statement -> List Statement
  | [] => []
  | statement :: rest => outline rename statement :: blockOutline rename rest

/-- The arms with other names for the classes in their conditions and with the outlines of
their statements. -/
def armsOutline (rename : String -> String) :
    List (Expression × List Statement) -> List (Expression × List Statement)
  | [] => []
  | (condition, body) :: rest =>
      (condition.renameClass rename, blockOutline rename body) :: armsOutline rename rest

def fallbackOutline (rename : String -> String) : Option (List Statement) -> Option (List Statement)
  | none => none
  | some body => some (blockOutline rename body)

end

variable {rename : String -> String}

theorem blockOutline_eq_map (statements : List Statement) :
    blockOutline rename statements = statements.map (outline rename) := by
  induction statements with
  | nil => rfl
  | cons statement rest inductionHypothesis => rw [blockOutline, inductionHypothesis, List.map_cons]

theorem blockOutline_append (first second : List Statement) :
    blockOutline rename (first ++ second) = blockOutline rename first ++ blockOutline rename second := by
  rw [blockOutline_eq_map, blockOutline_eq_map, blockOutline_eq_map, List.map_append]

theorem blockOutline_drop (statements : List Statement) (count : Nat) :
    blockOutline rename (statements.drop count) = (blockOutline rename statements).drop count := by
  rw [blockOutline_eq_map, blockOutline_eq_map, List.map_drop]

mutual

theorem assigns_outline (variableName : String) :
    ∀ statement : Statement, assigns variableName (outline rename statement) = assigns variableName statement
  | .comment _ => rfl
  | .declare _ _ => rfl
  | .assign _ _ => rfl
  | .call _ _ => rfl
  | .branch arms fallback => by
      rw [outline, assigns, armsAssign_outline variableName arms, fallbackAssigns_outline variableName fallback,
        assigns]
  | .mismatch _ _ => rfl
  | .leave _ => rfl
  | .primitive _ => rfl

theorem blockAssigns_outline (variableName : String) : ∀ statements : List Statement,
    blockAssigns variableName (blockOutline rename statements) = blockAssigns variableName statements
  | [] => rfl
  | statement :: rest => by
      rw [blockOutline, blockAssigns, assigns_outline variableName statement,
        blockAssigns_outline variableName rest, blockAssigns]

theorem armsAssign_outline (variableName : String) : ∀ arms : List (Expression × List Statement),
    armsAssign variableName (armsOutline rename arms) = armsAssign variableName arms
  | [] => rfl
  | (condition, body) :: rest => by
      rw [armsOutline, armsAssign, blockAssigns_outline variableName body, armsAssign_outline variableName rest,
        armsAssign]

theorem fallbackAssigns_outline (variableName : String) : ∀ fallback : Option (List Statement),
    fallbackAssigns variableName (fallbackOutline rename fallback) = fallbackAssigns variableName fallback
  | none => rfl
  | some body => blockAssigns_outline variableName body

end

/-- The number of arms that a statement chooses from. -/
def armCount : Statement -> Nat
  | .branch arms _ => arms.length
  | _ => 0

end Statement

namespace Step

open Statement (blockOutline armsOutline fallbackOutline blockOutline_append blockOutline_drop)

variable {rename : String -> String} {settings : Settings}

theorem renameClass_matchCode (leaf : Terminal) :
    (matchCode settings (leaf.renameClass rename)).renameClass id = (matchCode settings leaf).renameClass rename := by
  cases leaf <;> rfl

theorem blockOutline_callCode (rules : List String) : blockOutline rename (callCode rules) = callCode rules := by
  induction rules with
  | nil => rfl
  | cons rule rest inductionHypothesis => exact congrArg (Statement.call rule [] :: ·) inductionHypothesis

theorem blockOutline_selectCode (acquisition : Acquisition) {arms others : List (Expression × List Statement)}
    (same : armsOutline id others = armsOutline rename arms) (spellings otherSpellings : List String)
    (mayBeAbsent : Bool) :
    blockOutline id (selectCode settings acquisition others otherSpellings mayBeAbsent) =
      blockOutline rename (selectCode settings acquisition arms spellings mayBeAbsent) := by
  cases arms with
  | nil =>
      cases others with
      | nil => cases mayBeAbsent <;> cases acquisition <;> rfl
      | cons _ _ => cases same
  | cons arm rest =>
      cases others with
      | nil => cases same
      | cons _ _ =>
          cases mayBeAbsent <;> cases acquisition <;>
            exact congrArg (fun outlines => [_, Statement.branch outlines _]) same

mutual

/-- What is written for a renamed plan has the outline of what is written for the plan,
with the new names in its tests. -/
theorem blockOutline_code : ∀ steps : List Step,
    blockOutline id (code settings (renameClassesOfAll rename steps)) = blockOutline rename (code settings steps)
  | [] => by
      rw [renameClassesOfAll, code]
      rfl
  | .nothing :: rest => by
      rw [renameClassesOfAll, renameClasses, code, code]
      exact blockOutline_code rest
  | .require leaf :: rest => by
      rw [renameClassesOfAll, renameClasses, code, code, leadingCalls_renameClasses]
      simp only [blockOutline, Statement.outline, armsOutline, fallbackOutline, acquireCode, mismatchCode,
        renameClass_matchCode, blockOutline_callCode, blockOutline_drop, blockOutline_code rest]
  | .call rule :: rest => by
      rw [renameClassesOfAll, renameClasses, code, code, blockOutline, blockOutline_code rest, blockOutline]
      rfl
  | .advance :: rest => by
      rw [renameClassesOfAll, renameClasses, code, code, blockOutline, blockOutline_code rest, blockOutline]
      rfl
  | .group steps :: rest => by
      rw [renameClassesOfAll, renameClasses, code, code, blockOutline_append, blockOutline_append,
        blockOutline_code steps, blockOutline_code rest]
  | .select acquisition arms mayBeAbsent :: rest => by
      rw [renameClassesOfAll, renameClasses, code, code, blockOutline_append, blockOutline_append,
        blockOutline_selectCode acquisition (armsOutline_armsCode arms), blockOutline_code rest]

theorem armsOutline_armsCode : ∀ arms : List (Terminal × List Step),
    armsOutline id (armsCode settings (renameClassesOfArms rename arms)) = armsOutline rename (armsCode settings arms)
  | [] => by
      rw [renameClassesOfArms, armsCode]
      rfl
  | (leaf, steps) :: rest => by
      rw [renameClassesOfArms, armsCode, armsCode, armsOutline, armsOutline, renameClass_matchCode,
        blockOutline_code steps, armsOutline_armsCode rest]

end

end Step

/-! ## Routines -/

def Routine.outline (rename : String -> String) (routine : Routine) : Routine :=
  { routine with body := Statement.blockOutline rename routine.body }

namespace Grammar

variable {rename : String -> String} {grammar renamed : Grammar}

theorem RenamesTo.declares_eq (renames : RenamesTo rename grammar renamed) (rule : String) :
    renamed.declares rule = grammar.declares rule := by
  rw [Bool.eq_iff_iff, declares_iff, declares_iff, renames.names_eq]

/-- The body of a routine is outlined like the statements of its plan. -/
theorem blockOutline_routineBody (settings : Settings) (production : Production) (steps : List Step) :
    Statement.blockOutline id (renamed.analysis.routineBody settings (production.renameClasses rename)
        (Step.renameClassesOfAll rename steps)) =
      Statement.blockOutline rename (grammar.analysis.routineBody settings production steps) := by
  have statements : Statement.blockOutline id (Step.code settings (Step.renameClassesOfAll rename steps)) =
      Statement.blockOutline rename (Step.code settings steps) := Step.blockOutline_code steps
  have assigned := congrArg (Statement.blockAssigns settings.tokenVariable) statements
  rw [Statement.blockAssigns_outline, Statement.blockAssigns_outline] at assigned
  rw [Analysis.routineBody, Analysis.routineBody, Statement.blockOutline_append, Statement.blockOutline_append,
    statements, assigned]
  split <;> rfl

/-- Under a renaming that keeps apart what was apart, routines keep their outlines. -/
theorem RenamesTo.routine_eq (renames : RenamesTo rename grammar renamed)
    (keeps : Terminal.KeepsSpellings rename grammar.terminals) (settings : Settings) {production : Production}
    (declared : production ∈ grammar.productions) :
    (renamed.analysis.routine settings (production.renameClasses rename)).map (Routine.outline id) =
      (grammar.analysis.routine settings production).map (Routine.outline rename) := by
  have undeclared : (fun rule => !renamed.analysis.grammar.declares rule) =
      fun rule => !grammar.analysis.grammar.declares rule :=
    funext fun rule => congrArg (!·) (renames.declares_eq rule)
  have planned := renames.routinePlan?_eq keeps declared
  rw [Analysis.routine, Analysis.routine, planned, undeclared]
  change ((refuseReserved settings production.name) >>= _ : Except SynthesisError Routine).map _ = _
  cases refuseReserved settings production.name with
  | error reason => rfl
  | ok _ =>
      cases grammar.analysis.routinePlan? production with
      | none => rfl
      | some steps =>
          rw [Option.map_some]
          simp only [Step.callsOfAll_renameClasses]
          cases (Step.callsOfAll steps).find? fun rule => !grammar.analysis.grammar.declares rule with
          | some rule => rfl
          | none =>
              exact congrArg (fun outlines => Except.ok (Routine.mk production.name .rule [] none outlines))
                (blockOutline_routineBody settings production steps)

/-- Different names for different classes keep spellings as they are, unless a class
becomes or ceases to be a namesake of a literal or of the epsilon marker. -/
theorem keepsSpellings_of_injective
    (injective : ∀ first second, Terminal.tokenClass first ∈ grammar.leaves ->
      Terminal.tokenClass second ∈ grammar.leaves -> rename first = rename second -> first = second)
    (namesakes : ∀ name, Terminal.tokenClass name ∈ grammar.leaves ->
      ∀ text, Terminal.literal text ∈ grammar.terminals -> (rename name = text ↔ name = text)) :
    Terminal.KeepsSpellings rename grammar.terminals := by
  have isLeaf {name : String} (known : Terminal.tokenClass name ∈ grammar.terminals) :
      Terminal.tokenClass name ∈ grammar.leaves :=
    (mem_terminals.mp known).resolve_left nofun
  intro first firstKnown second secondKnown
  cases first with
  | literal text =>
      cases second with
      | literal other => rfl
      | tokenClass name => exact eq_comm.trans ((namesakes name (isLeaf secondKnown) text firstKnown).trans eq_comm)
  | tokenClass name =>
      cases second with
      | literal text => exact namesakes name (isLeaf firstKnown) text secondKnown
      | tokenClass other => exact ⟨injective name other (isLeaf firstKnown) (isLeaf secondKnown), congrArg rename⟩

/-- Under every injective renaming of a grammar's token classes that makes none of them a
namesake of a literal or of the epsilon marker, and takes no namesake away, the routine of
every rule keeps its outline. -/
theorem outline_routine_of_renaming (renames : RenamesTo rename grammar renamed)
    (injective : ∀ first second, Terminal.tokenClass first ∈ grammar.leaves ->
      Terminal.tokenClass second ∈ grammar.leaves -> rename first = rename second -> first = second)
    (namesakes : ∀ name, Terminal.tokenClass name ∈ grammar.leaves ->
      ∀ text, Terminal.literal text ∈ grammar.terminals -> (rename name = text ↔ name = text))
    (settings : Settings) {production : Production} (declared : production ∈ grammar.productions) :
    (renamed.analysis.routine settings (production.renameClasses rename)).map (Routine.outline id) =
      (grammar.analysis.routine settings production).map (Routine.outline rename) :=
  renames.routine_eq (keepsSpellings_of_injective injective namesakes) settings declared

/-- The text of a grammar for either the letter itself or a token of a class. -/
def lettersText (className : String) : String :=
  "s ::= \"a\" | <" ++ className ++ ">"

/-- Either the letter itself or a token of the class. -/
def letters (className : String) : Grammar where
  declarations :=
    [⟨⟨"s", .choice [.literal "a", .tokenClass className]⟩, "\"a\" | <" ++ className ++ ">"⟩]
  nonempty := List.cons_ne_nil _ _
  distinct := List.nodup_singleton _
  closed := List.forall_mem_singleton.mpr nofun

theorem outline_routine_of_renaming_letters :
    let rename : String -> String := fun _ => "c"
    let production : Production := ⟨"s", .choice [.literal "a", .tokenClass "b"]⟩
    RenamesTo rename (letters "b") (letters "c") ∧
      (∀ first second, Terminal.tokenClass first ∈ (letters "b").leaves ->
        Terminal.tokenClass second ∈ (letters "b").leaves -> rename first = rename second -> first = second) ∧
      (∀ name, Terminal.tokenClass name ∈ (letters "b").leaves ->
        ∀ text, Terminal.literal text ∈ (letters "b").terminals -> (rename name = text ↔ name = text)) ∧
      production ∈ (letters "b").productions ∧
      ((letters "c").analysis.routine .standard (production.renameClasses rename)).map (Routine.outline id) =
        ((letters "b").analysis.routine .standard production).map (Routine.outline rename) := by
  intro rename production
  have renames : RenamesTo rename (letters "b") (letters "c") := by decide
  have leaves : (letters "b").leaves = [.literal "a", .tokenClass "b"] := by decide
  have isClass {name : String} (member : Terminal.tokenClass name ∈ (letters "b").leaves) : name = "b" := by
    rw [leaves] at member
    simpa using member
  have injective (first second : String) (firstMember : Terminal.tokenClass first ∈ (letters "b").leaves)
      (secondMember : Terminal.tokenClass second ∈ (letters "b").leaves) (_ : rename first = rename second) :
      first = second :=
    (isClass firstMember).trans (isClass secondMember).symm
  have namesakes (name : String) (member : Terminal.tokenClass name ∈ (letters "b").leaves) (text : String)
      (known : Terminal.literal text ∈ (letters "b").terminals) : rename name = text ↔ name = text := by
    rw [isClass member]
    rw [terminals, leaves] at known
    have spelled : text = Terminal.epsilonText ∨ text = "a" := by simpa [Terminal.epsilon] using known
    rcases spelled with rfl | rfl <;> decide
  have declared : production ∈ (letters "b").productions := by decide
  exact ⟨renames, injective, namesakes, declared,
    outline_routine_of_renaming renames injective namesakes .standard declared⟩

/-- A class that gets the spelling of a literal loses its arm to it, although no other
class has its new name. -/
theorem not_outline_routine_of_injective :
    ¬ ∀ (text : String) (grammar renamed : Grammar) (rename : String -> String), read text = .ok grammar ->
      Function.Injective rename -> RenamesTo rename grammar renamed ->
      ∀ settings, ∀ production ∈ grammar.productions,
        (renamed.analysis.routine settings (production.renameClasses rename)).map (Routine.outline id) =
          (grammar.analysis.routine settings production).map (Routine.outline rename) := by
  intro always
  have readFrom : read (lettersText "b") = .ok (letters "b") := read_eq_ok_of_declarations (by decide +kernel)
  have swapped : RenamesTo (Equiv.swap "a" "b") (letters "b") (letters "a") := by decide
  have same := always _ _ _ _ readFrom (Equiv.swap "a" "b").injective swapped .standard
    ⟨"s", .choice [.literal "a", .tokenClass "b"]⟩ (by decide)
  have arms := congrArg (fun result => result.toOption.map fun routine => routine.body.map Statement.armCount) same
  revert arms
  decide +kernel

end Grammar
end PredictiveParsing
