import PredictiveParsing.Proofs.NameUses

namespace PredictiveParsing

/-!
# Names that are taken for others

A name in a program must not be taken for another thing that goes by the same identifier.
In a module the routines of the rules share a scope with everything that the module defines,
imports or finds built in, and inside a routine its variables come first.  In a program of
Rust the routines are methods, which are called on `self`, so that no variable can be taken
for one; but the type that they belong to has one more function, which makes the parser
before the first method is called.

What is built in or imported is never taken for something else, because no name becomes a
reserved word.  Rules are compared with the routines and the variables of every parser.
What nothing is compared with are two names: that of the function that makes the parser,
which a rule may have, and that of the token variable, which may be the name of a routine
that is called where the variable is in force.
-/

namespace Naming

/-- No name becomes a word that is changed itself. -/
theorem avoiding_not_mem_cons {reserved : List String} (among : "_" :: reserved ⊆ changedWords) (name : String) :
    avoiding reserved name ∉ "_" :: reserved := by
  by_cases changed : plain name ∈ "_" :: reserved
  · rw [avoiding_of_mem changed]
    exact fun member => not_mem_changedWords_of_mem (among changed) (among member)
  · rw [avoiding_of_not_mem changed]
    exact changed

/-- No name becomes a reserved word. -/
theorem avoiding_not_mem {reserved : List String} (among : "_" :: reserved ⊆ changedWords) (name : String) :
    avoiding reserved name ∉ reserved :=
  List.not_mem_of_not_mem_cons (avoiding_not_mem_cons among name)

end Naming

/-! ## Hygiene -/

/-- Whether the name stands for something that is there, given the names of all routines. -/
def NameUse.IsFound (routines : List String) : NameUse -> Prop
  | .own _ => True
  | .routine name => name ∈ routines
  | .word text => text ∈ Support.tokens :: Naming.pythonWords

instance (routines : List String) : ∀ use : NameUse, Decidable (use.IsFound routines)
  | .own _ => isTrue trivial
  | .routine name => inferInstanceAs (Decidable (name ∈ routines))
  | .word text => inferInstanceAs (Decidable (text ∈ Support.tokens :: Naming.pythonWords))

theorem NameUse.IsFound.mono {fewer more : List String} {use : NameUse} (found : use.IsFound fewer)
    (subset : fewer ⊆ more) : use.IsFound more := by
  cases use with
  | routine name => exact subset found
  | _ => exact found

namespace PythonModule

/-- Whether no variable is taken for anything else that the code speaks of. -/
def HidesNothing (uses : List NameUse) : Prop :=
  ∀ own ∈ uses, own.isOwn = true -> ∀ other ∈ uses, other.identifier = own.identifier -> other.isOwn = true

instance (uses : List NameUse) : Decidable (HidesNothing uses) :=
  inferInstanceAs (Decidable (∀ own ∈ uses, _ -> ∀ other ∈ uses, _ -> _))

/-- The names in a definition, after the one that it defines. -/
def definitionUses : Definition -> List NameUse
  | .global variableDefinition => .word (identifier variableDefinition.name) :: typeUses variableDefinition.type
  | .routine routineDefinition => .routine routineDefinition.name :: routineUses routineDefinition

/-- The names in a module, the last of which stands in the lines that start it.  That its
lines hold no others is `PythonModule.mentions_writeDefinitions`. -/
def moduleUses (program : Program) : List NameUse :=
  program.definitions.flatMap definitionUses ++ [.word "__name__"]

/-- Whether no routine of a rule is taken for anything else in the module, and no variable
for anything but itself.  What this says about the written lines is
`Grammar.means_one_of_isHygienic`. -/
structure IsHygienic (program : Program) : Prop where
  /-- The routine of a rule has its identifier for itself, variables apart. -/
  rules : ∀ routine ∈ program.routines, routine.role = .rule -> ∀ use ∈ moduleUses program, use.isOwn = false ->
    use.identifier = identifier routine.name -> use = .routine routine.name
  /-- The variables of a routine hide nothing that the routine speaks of. -/
  locals : ∀ routine ∈ program.routines, HidesNothing (routineUses routine)

end PythonModule

namespace RustProgram

/-- The function that makes the parser. -/
def makerName : String := "default"

/-- Whether no method of a rule is taken for another method, or for the function that makes
the parser.  Variables are left out: methods are called on `self`, where no variable is
looked for, and whether an identifier can be a variable at all is not asked.  What this says
about the written tokens is `Grammar.isHygienic_iff_nodup`. -/
structure IsHygienic (program : Program) : Prop where
  /-- No method of a rule comes before the function that makes the parser. -/
  maker : ∀ routine ∈ program.routines, routine.role = .rule ->
    Target.rust.identifier routine.name ≠ makerName
  /-- The method of a rule has its identifier for itself. -/
  rules : ∀ routine ∈ program.routines, routine.role = .rule -> ∀ other ∈ program.routines,
    Target.rust.identifier other.name = Target.rust.identifier routine.name -> other.name = routine.name

end RustProgram

/-- Whether no routine of a rule is taken for something else in the written program. -/
def Target.IsHygienic : Target -> Program -> Prop
  | .python, program => PythonModule.IsHygienic program
  | .rust, program => RustProgram.IsHygienic program

/-! ## Names of parsers -/

namespace Grammar

variable {grammar : Grammar} {settings : Settings} {program : Program}

/-- Routines with the same identifier have the same name. -/
theorem name_eq_of_identifier_eq (made : grammar.parser settings = .ok program) (target : Target)
    {first second : Routine} (firstIn : first ∈ program.routines) (secondIn : second ∈ program.routines)
    (same : target.identifier first.name = target.identifier second.name) : first.name = second.name := by
  have universal := target.universal_eq_of_identifier_eq same
  rw [List.inj_on_of_nodup_map (distinct_universal_names_routines made) firstIn secondIn universal]

theorem refuseReserved_of_mem (made : grammar.parser settings = .ok program) {rule : String}
    (declared : rule ∈ grammar.names) : refuseReserved settings rule = .ok () := by
  rcases exists_of_bind_eq_ok made with ⟨_, admitted, _⟩
  exact ((distinct_of_refuseClashes admitted).2 rule declared).1

/-- No rule has the identifier of a reserved name. -/
theorem identifier_ne_of_mem_reservedNames (made : grammar.parser settings = .ok program) (target : Target)
    {rule : String} (declared : rule ∈ grammar.names) {name : String} (reserved : name ∈ Support.reservedNames) :
    target.identifier rule ≠ target.identifier name := by
  intro same
  apply (refuseReserved_eq_ok_iff.mp (refuseReserved_of_mem made declared)).1
  rw [target.universal_eq_of_identifier_eq same, Support.universal_of_mem_reservedNames name reserved]
  exact reserved

/-- No rule has the identifier of the token variable. -/
theorem identifier_ne_tokenVariable (made : grammar.parser settings = .ok program) (target : Target)
    {rule : String} (declared : rule ∈ grammar.names) :
    target.identifier rule ≠ target.identifier settings.tokenVariable :=
  mt target.universal_eq_of_identifier_eq (refuseReserved_eq_ok_iff.mp (refuseReserved_of_mem made declared)).2

theorem name_mem_names_of_role (made : grammar.parser settings = .ok program) {routine : Routine}
    (member : routine ∈ program.routines) (ofRule : routine.role = .rule) : routine.name ∈ grammar.names := by
  rcases exists_production_of_role made member ofRule with ⟨production, declared, steps, routineFor⟩
  rw [routineFor.written]
  exact name_mem_names declared

theorem exists_routine_of_mem_names (made : grammar.parser settings = .ok program) {rule : String}
    (declared : rule ∈ grammar.names) :
    ∃ routine ∈ program.routines, routine.role = .rule ∧ routine.name = rule := by
  rcases exists_production_of_mem_names declared with ⟨production, inGrammar, rfl⟩
  rcases routine?_of_mem made inGrammar with ⟨routine, steps, found, routineFor⟩
  exact ⟨routine, List.mem_of_find?_eq_some found, by rw [routineFor.written], by rw [routineFor.written]⟩

end Grammar

/-! ## What routines hide -/

namespace PythonModule

theorem not_mem_pythonWords (name : String) : identifier name ∉ Naming.pythonWords :=
  Naming.avoiding_not_mem (List.cons_subset_cons _ (List.subset_append_left _ _)) name

/-- Where all words are reserved, variables can hide nothing but routines. -/
theorem hidesNothing_iff {uses : List NameUse} (reserved : ∀ text, .word text ∈ uses -> text ∈ Naming.pythonWords) :
    HidesNothing uses ↔ ∀ name, .own name ∈ uses -> ∀ routine, .routine routine ∈ uses ->
      identifier routine ≠ identifier name := by
  constructor
  · intro hides name isOwn routine isRoutine same
    cases hides _ isOwn rfl _ isRoutine same
  · rintro apart (name | name | text) member own other otherMember same
    · cases other with
      | own _ => rfl
      | routine routine => exact absurd same (apart name member routine otherMember)
      | word text =>
          change text = identifier name at same
          exact absurd (same ▸ reserved text otherMember) (not_mem_pythonWords name)
    · cases own
    · cases own

end PythonModule

namespace Support

open PythonModule (routineUses HidesNothing)

/-- The names in the routines that work on the token buffer. -/
def bufferUses : List (List NameUse) :=
  [[.own file, .word "str", .own "response", .word "subprocess", .own file, .word "sys"],
    [.word tokens, .word "open", .own "f", .own "line"],
    [.word "List", .word "str", .word "len", .word tokens],
    [.word "List", .word "str", .word "len", .word tokens],
    [.own position, .word "str", .own expected, .word "str", .word "print", .own position, .own expected,
      .word "sys"]]

/-- The names in the routine that parses a file. -/
def parseUses (start : String) : List NameUse :=
  [.own file, .word "str", .routine generateTokens, .own file, .routine loadTokens, .routine start]

/-- The names in the routine that the program starts with. -/
def mainUses (settings : Settings) : List NameUse :=
  [.word "len", .word "sys", .word "print", .own fileName, .word "str", .own fileName, .word "sys",
    .routine parse, .own fileName, .own settings.tokenVariable, .word "List", .word "str",
    .own settings.tokenVariable, .routine take, .own settings.tokenVariable, .routine expect,
    .own settings.tokenVariable]

theorem map_routineUses_bufferRoutines (settings : Settings) :
    (bufferRoutines settings).map routineUses = bufferUses := rfl

theorem map_routineUses_lastRoutines (settings : Settings) (start : String) :
    (lastRoutines settings start).map routineUses = [parseUses start, mainUses settings] := rfl

theorem hidesNothing_of_mem_bufferUses : ∀ uses ∈ bufferUses, HidesNothing uses := by
  decide

theorem own_mem_parseUses {start name : String} : .own name ∈ parseUses start ↔ name = file := by
  simp [parseUses]

theorem routine_mem_parseUses {start name : String} :
    .routine name ∈ parseUses start ↔ name = generateTokens ∨ name = loadTokens ∨ name = start := by
  simp [parseUses]

theorem own_mem_mainUses {settings : Settings} {name : String} :
    .own name ∈ mainUses settings ↔ name = fileName ∨ name = settings.tokenVariable := by
  simp [mainUses]

theorem routine_mem_mainUses {settings : Settings} {name : String} :
    .routine name ∈ mainUses settings ↔ name ∈ [parse, take, expect] := by
  simp [mainUses]

/-- The reserved names are identifiers already. -/
theorem identifier_of_mem_reservedNames : ∀ name ∈ reservedNames, PythonModule.identifier name = name := by
  decide

/-- The parameter for the file hides no routine, if it is not the start rule's. -/
theorem hidesNothing_parseUses {start : String}
    (apart : PythonModule.identifier start ≠ PythonModule.identifier file) : HidesNothing (parseUses start) := by
  refine (PythonModule.hidesNothing_iff (by simp +decide [parseUses])).mpr fun name own routine called => ?_
  rw [own_mem_parseUses.mp own]
  rcases routine_mem_parseUses.mp called with rfl | rfl | rfl
  · decide
  · decide
  · exact apart

/-- The routine that the program starts with assigns to the token variable, and so it must
not go by the identifier of a routine that is called there. -/
theorem hidesNothing_mainUses_iff {settings : Settings} :
    HidesNothing (mainUses settings) ↔ PythonModule.identifier settings.tokenVariable ∉ [parse, take, expect] := by
  have amongReserved : [parse, take, expect] ⊆ reservedNames := by decide
  rw [PythonModule.hidesNothing_iff (by simp +decide [mainUses])]
  constructor
  · intro apart among
    exact apart settings.tokenVariable (own_mem_mainUses.mpr (Or.inr rfl)) _ (routine_mem_mainUses.mpr among)
      (identifier_of_mem_reservedNames _ (amongReserved among))
  · intro free name own routine called same
    have among := routine_mem_mainUses.mp called
    rw [identifier_of_mem_reservedNames routine (amongReserved among)] at same
    rcases own_mem_mainUses.mp own with rfl | rfl
    · rw [same] at among
      exact absurd among (by decide)
    · exact free (same ▸ among)

end Support

namespace Grammar

open PythonModule (routineUses HidesNothing SpeaksOfRules)

variable {grammar : Grammar} {settings : Settings} {program : Program}

/-- The names in a routine are those of a rule's routine, or of one that every parser contains. -/
theorem speaksOfRules_or_mem (made : grammar.parser settings = .ok program) {routine : Routine}
    (member : routine ∈ program.routines) :
    (routine.name ∈ grammar.names ∧ SpeaksOfRules settings grammar.names (routineUses routine)) ∨
      routineUses routine ∈
        Support.bufferUses ++ [Support.parseUses grammar.start.name, Support.mainUses settings] := by
  rcases exists_routines_eq made with ⟨routines, allMade, _, ordered⟩
  rw [ordered, List.append_assoc, List.mem_append, List.mem_append] at member
  rcases member with ofBuffer | ofRules | last
  · have uses : routineUses routine ∈ (Support.bufferRoutines settings).map routineUses :=
      List.mem_map_of_mem ofBuffer
    rw [Support.map_routineUses_bufferRoutines] at uses
    exact Or.inr (List.mem_append_left _ uses)
  · rcases exists_related_right allMade.flip ofRules with ⟨production, declared, ownMade⟩
    rcases Analysis.routineFor_of_ok ownMade with ⟨steps, routineFor⟩
    have named : routine.name = production.name := by rw [routineFor.written]
    refine Or.inl ⟨named ▸ name_mem_names declared, routineFor.speaks.mono routineFor.callsDeclared⟩
  · have uses : routineUses routine ∈ (Support.lastRoutines settings grammar.start.name).map routineUses :=
      List.mem_map_of_mem last
    rw [Support.map_routineUses_lastRoutines] at uses
    exact Or.inr (List.mem_append_right _ uses)

/-! ## The scope of the module -/

theorem isFound_of_mem_routineUses (made : grammar.parser settings = .ok program) {routine : Routine}
    (member : routine ∈ program.routines) :
    ∀ use ∈ routineUses routine, use.IsFound (grammar.names ++ Support.routineNames) := by
  rcases speaksOfRules_or_mem made member with ⟨_, speaks⟩ | ofSupport
  · intro use used
    rcases speaks.known use used with own | ⟨rule, declared, rfl⟩
    · have found : ∀ use ∈ PythonModule.ruleUses settings, use.IsFound Support.routineNames := by
        simp +decide [PythonModule.ruleUses, NameUse.IsFound]
      exact (found use own).mono (List.subset_append_right _ _)
    · exact List.mem_append_left _ declared
  · rw [List.mem_append, List.mem_cons, List.mem_singleton] at ofSupport
    rcases ofSupport with ofBuffer | ofParse | ofMain
    · have found : ∀ uses ∈ Support.bufferUses, ∀ use ∈ uses, use.IsFound Support.routineNames := by decide
      exact fun use used => (found _ ofBuffer use used).mono (List.subset_append_right _ _)
    · have start : grammar.start.name ∈ grammar.names := List.mem_map_of_mem (List.head_mem _)
      rw [ofParse]
      simp +decide [Support.parseUses, NameUse.IsFound, start]
    · rw [ofMain]
      simp +decide [Support.mainUses, NameUse.IsFound]

/-- The only global variable of a parser is the token buffer. -/
theorem eq_of_global_mem (made : grammar.parser settings = .ok program) {variableDefinition : GlobalVariable}
    (member : .global variableDefinition ∈ program.definitions) : variableDefinition = ⟨Support.tokens, .tokenList⟩ := by
  rcases exists_routines_eq made with ⟨routines, _, ordered, _⟩
  rw [ordered, List.append_assoc, List.mem_append, List.mem_append, List.mem_map] at member
  rcases member with ofBuffer | ⟨_, _, same⟩ | last
  · simp only [Support.bufferDefinitions, Support.primitiveRoutine, List.mem_cons, List.not_mem_nil, or_false,
      reduceCtorEq, Definition.global.injEq] at ofBuffer
    exact ofBuffer
  · cases same
  · simp [Support.parseRoutine, Support.mainRoutine] at last

/-- Every name in a module stands for something that is there. -/
theorem isFound_of_mem_moduleUses (made : grammar.parser settings = .ok program) :
    ∀ use ∈ PythonModule.moduleUses program, use.IsFound (grammar.names ++ Support.routineNames) := by
  have guard : "__name__" ∈ Support.tokens :: Naming.pythonWords := by decide
  refine List.forall_mem_append.mpr ⟨List.forall_mem_flatMap.mpr fun definition member => ?_,
    List.forall_mem_singleton.mpr guard⟩
  cases definition with
  | global variableDefinition =>
      have found : ∀ use ∈ PythonModule.definitionUses (.global ⟨Support.tokens, .tokenList⟩), use.IsFound [] := by
        decide
      rw [eq_of_global_mem made member]
      exact fun use used => (found use used).mono (List.nil_subset _)
  | routine routineDefinition =>
      have inProgram : routineDefinition ∈ program.routines := List.mem_filterMap.mpr ⟨_, member, rfl⟩
      have known := (perm_names_routines made).mem_iff.mp (List.mem_map_of_mem inProgram)
      exact List.forall_mem_cons.mpr ⟨known, isFound_of_mem_routineUses made inProgram⟩

/-- Nothing but the routine of a rule goes by the identifier of that routine in a module. -/
theorem eq_routine_of_identifier_eq (made : grammar.parser settings = .ok program) {routine : Routine}
    (member : routine ∈ program.routines) (ofRule : routine.role = .rule) {use : NameUse}
    (used : use ∈ PythonModule.moduleUses program) (foreign : use.isOwn = false)
    (same : use.identifier = PythonModule.identifier routine.name) : use = .routine routine.name := by
  have found := isFound_of_mem_moduleUses made use used
  cases use with
  | own name => cases foreign
  | routine name =>
      rcases List.mem_map.mp ((perm_names_routines made).mem_iff.mpr found) with ⟨other, otherMember, rfl⟩
      rw [name_eq_of_identifier_eq made .python otherMember member same]
  | word text =>
      change text = PythonModule.identifier routine.name at same
      rw [same] at found
      rcases List.mem_cons.mp found with buffer | reserved
      · have declared := name_mem_names_of_role made member ofRule
        have reserved : Support.tokens ∈ Support.reservedNames := List.mem_cons_self
        have apart := identifier_ne_of_mem_reservedNames made .python declared reserved
        exact absurd (buffer.trans (Support.identifier_of_mem_reservedNames _ reserved).symm) apart
      · exact absurd reserved (PythonModule.not_mem_pythonWords routine.name)

/-! ## The scopes of the routines -/

/-- The token variable of a rule's routine hides nothing unless it goes by the identifier of
a routine on the token buffer. -/
theorem hidesNothing_of_speaksOfRules (made : grammar.parser settings = .ok program) {uses : List NameUse}
    (speaks : SpeaksOfRules settings grammar.names uses)
    (free : PythonModule.identifier settings.tokenVariable ∉ [Support.take, Support.expect])
    (quiet : PythonModule.identifier settings.tokenVariable = Support.peek -> .routine Support.peek ∉ uses) :
    HidesNothing uses := by
  have spelled := Support.identifier_of_mem_reservedNames
  refine (PythonModule.hidesNothing_iff fun text used => ?_).mpr fun name own routine called same => ?_
  · rcases speaks.known _ used with word | ⟨_, _, isRoutine⟩
    · simp only [PythonModule.ruleUses, List.mem_cons, NameUse.word.injEq, reduceCtorEq, List.not_mem_nil, or_false,
        false_or] at word
      rcases word with rfl | rfl <;> decide
    · cases isRoutine
  · have isToken : name = settings.tokenVariable := by
      rcases speaks.known _ own with variableUse | ⟨_, _, isRoutine⟩
      · simpa [PythonModule.ruleUses] using variableUse
      · cases isRoutine
    rw [isToken] at same
    rcases speaks.known _ called with ofBuffer | ⟨rule, declared, isRoutine⟩
    · simp only [PythonModule.ruleUses, List.mem_cons, NameUse.routine.injEq, reduceCtorEq, List.not_mem_nil, or_false,
        false_or] at ofBuffer
      rcases ofBuffer with rfl | rfl | rfl
      · exact quiet (same.symm.trans (spelled _ (by decide))) called
      · exact free (same ▸ spelled Support.take (by decide) ▸ List.mem_cons_self)
      · exact free (same ▸ spelled Support.expect (by decide) ▸ List.mem_cons_of_mem _ List.mem_cons_self)
    · cases isRoutine
      exact identifier_ne_tokenVariable made .python declared same

/-- Where a routine looks at the next token, it has the token variable. -/
theorem own_mem_of_looks (made : grammar.parser settings = .ok program) {routine : Routine}
    (member : routine ∈ program.routines) (looks : .routine Support.peek ∈ routineUses routine) :
    .own settings.tokenVariable ∈ routineUses routine := by
  rcases speaksOfRules_or_mem made member with ⟨_, speaks⟩ | ofSupport
  · rcases speaks.looks looks with own | declared
    · exact own
    · exact absurd declared fun isRule => not_mem_reservedNames made isRule (by decide)
  · rw [List.mem_append, List.mem_cons, List.mem_singleton] at ofSupport
    rcases ofSupport with ofBuffer | ofParse | ofMain
    · have silent : ∀ uses ∈ Support.bufferUses, NameUse.routine Support.peek ∉ uses := by decide
      exact absurd looks (silent _ ofBuffer)
    · rw [ofParse] at looks
      have start : grammar.start.name ∈ grammar.names := List.mem_map_of_mem (List.head_mem _)
      rcases Support.routine_mem_parseUses.mp looks with same | same | same
      · exact absurd same (by decide)
      · exact absurd same (by decide)
      · exact absurd (same ▸ start) fun isRule => not_mem_reservedNames made isRule (by decide)
    · rw [ofMain]
      exact Support.own_mem_mainUses.mpr (Or.inr rfl)

theorem hidesNothing_of_mem_routines (made : grammar.parser settings = .ok program)
    (free : PythonModule.identifier settings.tokenVariable ∉ [Support.parse, Support.take, Support.expect])
    {routine : Routine} (member : routine ∈ program.routines)
    (quiet : PythonModule.identifier settings.tokenVariable = Support.peek ->
      .routine Support.peek ∉ routineUses routine) : HidesNothing (routineUses routine) := by
  rcases speaksOfRules_or_mem made member with ⟨_, speaks⟩ | ofSupport
  · exact hidesNothing_of_speaksOfRules made speaks (List.not_mem_of_not_mem_cons free) quiet
  · rw [List.mem_append, List.mem_cons, List.mem_singleton] at ofSupport
    rcases ofSupport with ofBuffer | ofParse | ofMain
    · exact Support.hidesNothing_of_mem_bufferUses _ ofBuffer
    · have start : grammar.start.name ∈ grammar.names := List.mem_map_of_mem (List.head_mem _)
      rw [ofParse]
      exact Support.hidesNothing_parseUses (identifier_ne_of_mem_reservedNames made .python start (by decide))
    · rw [ofMain]
      exact Support.hidesNothing_mainUses_iff.mpr free

theorem python_isHygienic_iff (made : grammar.parser settings = .ok program) :
    Target.python.IsHygienic program ↔
      PythonModule.identifier settings.tokenVariable ∉ [Support.parse, Support.take, Support.expect] ∧
        (PythonModule.identifier settings.tokenVariable = Support.peek ->
          ∀ routine ∈ program.routines, .routine Support.peek ∉ routineUses routine) := by
  constructor
  · intro hygienic
    refine ⟨?_, fun same routine member looks => ?_⟩
    · have written : Support.mainUses settings ∈
          (Support.lastRoutines settings grammar.start.name).map routineUses := by
        rw [Support.map_routineUses_lastRoutines]
        exact List.mem_cons_of_mem _ List.mem_cons_self
      rcases List.mem_map.mp written with ⟨entry, last, uses⟩
      have member := mem_routines_of_mem_support made (List.mem_append_right _ last)
      exact Support.hidesNothing_mainUses_iff.mp (uses ▸ hygienic.locals entry member)
    · have own := own_mem_of_looks made member looks
      have spelled := Support.identifier_of_mem_reservedNames Support.peek (by decide)
      cases hygienic.locals routine member _ own rfl _ looks (spelled.trans same.symm)
  · rintro ⟨free, quiet⟩
    exact ⟨fun routine member ofRule use used => eq_routine_of_identifier_eq made member ofRule used,
      fun routine member => hidesNothing_of_mem_routines made free member fun same => quiet same routine member⟩

theorem rust_isHygienic_iff (made : grammar.parser settings = .ok program) :
    Target.rust.IsHygienic program ↔
      ∀ rule ∈ grammar.names, Target.rust.identifier rule ≠ RustProgram.makerName := by
  constructor
  · intro hygienic rule declared
    rcases exists_routine_of_mem_names made declared with ⟨routine, member, ofRule, rfl⟩
    exact hygienic.maker routine member ofRule
  · intro apart
    exact ⟨fun routine member ofRule => apart _ (name_mem_names_of_role made member ofRule),
      fun routine member _ other otherMember same => name_eq_of_identifier_eq made .rust otherMember member same⟩

end Grammar

/-- In a module of a parser a name is taken for another if and only if the token variable goes
by the identifier of a routine on the token buffer that is called where the variable is in
force, or of the routine that parses a file.  In a program of Rust it is if and only if a
rule goes by the identifier of the function that makes the parser. -/
theorem Target.isHygienic_iff {grammar : Grammar} {settings : Settings} {program : Program}
    (made : grammar.parser settings = .ok program) :
    (Target.python.IsHygienic program ↔
      Target.python.identifier settings.tokenVariable ∉ [Support.parse, Support.take, Support.expect] ∧
        (Target.python.identifier settings.tokenVariable = Support.peek ->
          ∀ routine ∈ program.routines, .routine Support.peek ∉ PythonModule.routineUses routine)) ∧
    (Target.rust.IsHygienic program ↔
      ∀ rule ∈ grammar.names, Target.rust.identifier rule ≠ RustProgram.makerName) :=
  ⟨Grammar.python_isHygienic_iff made, Grammar.rust_isHygienic_iff made⟩

theorem Target.isHygienic_groups :
    ∃ program, Grammar.groups.parser .standard = .ok program ∧ Target.python.IsHygienic program ∧
      Target.rust.IsHygienic program := by
  rcases Grammar.groups_hasParser with ⟨program, made⟩
  rcases Target.isHygienic_iff made with ⟨inPython, inRust⟩
  have free : Target.python.identifier Settings.standard.tokenVariable ∉
      [Support.parse, Support.take, Support.expect] := by decide
  have apart : Target.python.identifier Settings.standard.tokenVariable ≠ Support.peek := by decide
  have noMaker : ∀ rule ∈ Grammar.groups.names, Target.rust.identifier rule ≠ RustProgram.makerName := by
    decide
  exact ⟨program, made, inPython.mpr ⟨free, fun same => absurd same apart⟩, inRust.mpr noMaker⟩

/-- A rule that goes by the identifier of the function that makes the parser. -/
def Grammar.makerText : String := "default ::= \"a\""

/-- Settings whose token variable goes by the identifier of the routine that takes a token. -/
def Settings.hiding : Settings := { Settings.standard with tokenVariable := Support.take }

/-- Neither of the two names is refused. -/
theorem Target.not_isHygienic :
    (∃ grammar program, Grammar.read Grammar.makerText = .ok grammar ∧ grammar.parser .standard = .ok program ∧
      ¬Target.rust.IsHygienic program) ∧
    ∃ program, Grammar.groups.parser .hiding = .ok program ∧ ¬Target.python.IsHygienic program := by
  constructor
  · have test : (Grammar.read Grammar.makerText).toOption.any
        (fun grammar => (grammar.parser .standard).isOk && grammar.names == [RustProgram.makerName]) = true := by
      decide +kernel
    rcases exists_of_toOption_any test with ⟨grammar, accepted, passes⟩
    rw [Bool.and_eq_true, beq_iff_eq] at passes
    rcases exists_of_isOk passes.1 with ⟨program, made⟩
    have declared : RustProgram.makerName ∈ grammar.names := passes.2 ▸ List.mem_singleton_self _
    refine ⟨grammar, program, accepted, made, fun hygienic => ?_⟩
    exact (Grammar.rust_isHygienic_iff made).mp hygienic _ declared (by decide)
  · have test : (Grammar.groups.parser .hiding).isOk = true := by decide +kernel
    rcases exists_of_isOk test with ⟨program, made⟩
    refine ⟨program, made, fun hygienic => ?_⟩
    exact ((Grammar.python_isHygienic_iff made).mp hygienic).1 (by decide)

end PredictiveParsing
