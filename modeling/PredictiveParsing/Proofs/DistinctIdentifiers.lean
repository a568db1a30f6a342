import PredictiveParsing.Generator
import PredictiveParsing.Proofs.LinkedParser

namespace PredictiveParsing

/-!
# Routines stay apart as identifiers

A language changes only names that it reserves itself, while names with different
universal forms are compared with the words of all languages changed.  That this
suffices rests on one fact about the words: none of them is another one of them with
an underscore behind it.  A name that ends so has been changed in no language.

Main statements: names with different universal forms are different identifiers
in every language, and so are the routines of a parser, none of which has the
identifier of the token variable.
-/

namespace Naming

/-- The words of all languages, and the lone underscore, which is changed like them. -/
def changedWords : List String :=
  "_" :: (pythonWords ++ rustWords)

/-- Only two of the words end in an underscore, and neither does so behind another word. -/
theorem eq_of_getLast?_changedWords :
    ∀ word ∈ changedWords, word.toList.getLast? = some '_' -> word = "" ++ "_" ∨ word = "__name_" ++ "_" := by
  decide

/-- What a word is changed to is never a word. -/
theorem not_mem_changedWords_of_mem {word : String} (member : word ∈ changedWords) :
    word ++ "_" ∉ changedWords := by
  intro changed
  have underscore : (word ++ "_").toList.getLast? = some '_' := by
    rw [String.toList_append]
    exact List.getLast?_concat
  rcases eq_of_getLast?_changedWords _ changed underscore with same | same
  · rw [(String.append_left_inj _).mp same] at member
    exact absurd member (by decide)
  · rw [(String.append_left_inj _).mp same] at member
    exact absurd member (by decide)

theorem avoiding_of_mem {reserved : List String} {name : String} (changed : plain name ∈ "_" :: reserved) :
    avoiding reserved name = plain name ++ "_" := by
  have test : (plain name == "_" || reserved.contains (plain name)) = true := by
    simpa using changed
  rw [avoiding]
  exact if_pos test

theorem avoiding_of_not_mem {reserved : List String} {name : String} (kept : plain name ∉ "_" :: reserved) :
    avoiding reserved name = plain name := by
  have test : ¬(plain name == "_" || reserved.contains (plain name)) = true := by
    simpa using kept
  rw [avoiding]
  exact if_neg test

theorem universal_congr {first second : String} (same : plain first = plain second) :
    universal first = universal second := by
  rw [universal, universal, avoiding, avoiding, same]

/-- A name that another one is changed to is not changed itself. -/
theorem universal_eq_of_changed {reserved : List String} (among : "_" :: reserved ⊆ changedWords)
    {first second : String} (changed : plain first ∈ "_" :: reserved)
    (same : plain first ++ "_" = plain second) : universal first = universal second := by
  have inWords := among changed
  have notWord : plain second ∉ changedWords := same ▸ not_mem_changedWords_of_mem inWords
  rw [universal, universal, avoiding_of_mem inWords, avoiding_of_not_mem notWord, same]

/-- Names that a language cannot tell apart have the same universal form. -/
theorem universal_eq_of_avoiding_eq {reserved : List String} (among : "_" :: reserved ⊆ changedWords)
    {first second : String} (same : avoiding reserved first = avoiding reserved second) :
    universal first = universal second := by
  by_cases firstChanged : plain first ∈ "_" :: reserved
  · rw [avoiding_of_mem firstChanged] at same
    by_cases secondChanged : plain second ∈ "_" :: reserved
    · rw [avoiding_of_mem secondChanged] at same
      exact universal_congr ((String.append_left_inj _).mp same)
    · rw [avoiding_of_not_mem secondChanged] at same
      exact universal_eq_of_changed among firstChanged same
  · rw [avoiding_of_not_mem firstChanged] at same
    by_cases secondChanged : plain second ∈ "_" :: reserved
    · rw [avoiding_of_mem secondChanged] at same
      exact (universal_eq_of_changed among secondChanged same.symm).symm
    · rw [avoiding_of_not_mem secondChanged] at same
      exact universal_congr same

end Naming

/-- A name as it is written in the language. -/
def Target.identifier : Target -> String -> String
  | .python, name => PythonModule.identifier name
  | .rust, name => (RustProgram.identifier name).text

theorem Target.universal_eq_of_identifier_eq (target : Target) {first second : String}
    (same : target.identifier first = target.identifier second) :
    Naming.universal first = Naming.universal second := by
  cases target with
  | python =>
      have among : "_" :: Naming.pythonWords ⊆ Naming.changedWords :=
        List.cons_subset_cons _ (List.subset_append_left _ _)
      exact Naming.universal_eq_of_avoiding_eq among same
  | rust =>
      have among : "_" :: Naming.rustWords ⊆ Naming.changedWords :=
        List.cons_subset_cons _ (List.subset_append_right _ _)
      rw [identifier, identifier, RustProgram.identifier, RustProgram.identifier, SourceToken.text,
        SourceToken.text] at same
      exact Naming.universal_eq_of_avoiding_eq among same

/-! ## Names that were admitted -/

theorem refuseReserved_eq_ok_iff {settings : Settings} {rule : String} :
    refuseReserved settings rule = .ok () ↔
      Naming.universal rule ∉ Support.reservedNames ∧
        Naming.universal rule ≠ Naming.universal settings.tokenVariable := by
  have refused : (Support.reservedNames.contains (Naming.universal rule) ||
        Naming.universal rule == Naming.universal settings.tokenVariable) = true ↔
      Naming.universal rule ∈ Support.reservedNames ∨
        Naming.universal rule = Naming.universal settings.tokenVariable := by
    rw [Bool.or_eq_true, List.contains_iff_mem, beq_iff_eq]
  rw [refuseReserved, ne_eq, ← not_or, ← refused]
  constructor
  · intro admitted clash
    rw [if_pos clash] at admitted
    cases admitted
  · exact fun clear => if_neg clear

/-- Rules that have been admitted together differ in their universal forms, and each was admitted by itself. -/
theorem distinct_of_refuseClashes {settings : Settings} {earlier rules : List String}
    (admitted : refuseClashes settings earlier rules = .ok ()) :
    (rules.map Naming.universal).Nodup ∧
      ∀ rule ∈ rules, refuseReserved settings rule = .ok () ∧
        ∀ first ∈ earlier, Naming.universal first ≠ Naming.universal rule := by
  induction rules generalizing earlier with
  | nil => exact ⟨List.nodup_nil, List.forall_mem_nil _⟩
  | cons rule rest inductionHypothesis =>
      rw [refuseClashes] at admitted
      rcases exists_of_bind_eq_ok admitted with ⟨_, ruleAdmitted, admitted⟩
      split at admitted
      · cases admitted
      · rename_i noneFound
        rcases inductionHypothesis admitted with ⟨distinctRest, each⟩
        have fresh : ∀ first ∈ earlier, Naming.universal first ≠ Naming.universal rule := by
          intro first member same
          exact List.find?_eq_none.mp noneFound first member (beq_iff_eq.mpr same)
        have differs : Naming.universal rule ∉ rest.map Naming.universal := by
          intro member
          rcases List.mem_map.mp member with ⟨other, inRest, same⟩
          exact (each other inRest).2 rule List.mem_cons_self same.symm
        refine ⟨List.nodup_cons.mpr ⟨differs, distinctRest⟩, List.forall_mem_cons.mpr ⟨⟨ruleAdmitted, fresh⟩, ?_⟩⟩
        intro other inRest
        rcases each other inRest with ⟨otherAdmitted, apart⟩
        exact ⟨otherAdmitted, fun first member => apart first (List.mem_cons_of_mem _ member)⟩

namespace Grammar

variable {grammar : Grammar} {settings : Settings} {program : Program}

/-- No two routines of a parser have the same universal form of their names. -/
theorem distinct_universal_names_routines (made : grammar.parser settings = .ok program) :
    (program.routines.map fun routine => Naming.universal routine.name).Nodup := by
  rcases exists_of_bind_eq_ok made with ⟨_, admitted, _⟩
  rcases distinct_of_refuseClashes admitted with ⟨distinctRules, each⟩
  have ofSupport : Support.routineNames.map Naming.universal = Support.routineNames := by decide
  have regrouped := (perm_names_routines made).map Naming.universal
  rw [List.map_map, List.map_append, ofSupport] at regrouped
  refine regrouped.nodup_iff.mpr (List.nodup_append.mpr ⟨distinctRules, Support.nodup_routineNames, ?_⟩)
  rintro name ofRule _ ofRoutine rfl
  rcases List.mem_map.mp ofRule with ⟨rule, isRule, rfl⟩
  exact (refuseReserved_eq_ok_iff.mp (each rule isRule).1).1 (Support.routineNames_subset_reservedNames ofRoutine)

/-- The routine of a rule is not named like the token variable. -/
theorem universal_ne_tokenVariable (made : grammar.parser settings = .ok program) {routine : Routine}
    (member : routine ∈ program.routines) (ofRule : routine.role = .rule) :
    Naming.universal routine.name ≠ Naming.universal settings.tokenVariable := by
  rcases exists_production_of_role made member ofRule with ⟨production, _, steps, routineFor⟩
  rw [routineFor.written]
  exact (refuseReserved_eq_ok_iff.mp routineFor.admitted).2

end Grammar

/-- Names with different universal forms are different identifiers in every language.  So no two routines of a
parser have the same identifier, and the token variable has none of the identifiers of rules. -/
theorem Target.keepsApart (target : Target) :
    (∀ first second, Naming.universal first ≠ Naming.universal second ->
      target.identifier first ≠ target.identifier second) ∧
    ∀ (grammar : Grammar) (settings : Settings) (program : Program), grammar.parser settings = .ok program ->
      (program.routines.map fun routine => target.identifier routine.name).Nodup ∧
      ∀ routine ∈ program.routines, routine.role = .rule ->
        target.identifier routine.name ≠ target.identifier settings.tokenVariable := by
  have apart (first second : String) (different : Naming.universal first ≠ Naming.universal second) :
      target.identifier first ≠ target.identifier second :=
    mt target.universal_eq_of_identifier_eq different
  refine ⟨apart, fun grammar settings program made => ⟨?_, fun routine member ofRule => ?_⟩⟩
  · have distinct := List.pairwise_map.mp (Grammar.distinct_universal_names_routines made)
    exact List.pairwise_map.mpr (distinct.imp fun different => apart _ _ different)
  · exact apart _ _ (Grammar.universal_ne_tokenVariable made member ofRule)

theorem Target.keepsApart_groups :
    Naming.universal "if" ≠ Naming.universal "type" ∧
      Target.python.identifier "if" ≠ Target.python.identifier "type" ∧
      ∃ program, Grammar.groups.parser .standard = .ok program ∧
        (program.routines.map fun routine => Target.python.identifier routine.name).Nodup ∧
        (∀ routine ∈ program.routines, routine.role = .rule ->
          Target.python.identifier routine.name ≠ Target.python.identifier Settings.standard.tokenVariable) := by
  have different : Naming.universal "if" ≠ Naming.universal "type" := by decide
  rcases Grammar.groups_hasParser with ⟨program, made⟩
  rcases Target.keepsApart .python with ⟨apart, ofParsers⟩
  exact ⟨different, apart _ _ different, program, made, ofParsers _ _ _ made⟩

end PredictiveParsing
