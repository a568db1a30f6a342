import PredictiveParsing.Proofs.GrammarText

namespace PredictiveParsing

/-!
# What becomes of a grammar text

A grammar text is gone over several times: its lines are split, the right-hand sides are
read, the names are compared, and the references are looked up.  Each pass begins only when
the passes before it have found no fault.  So a fault that stands late in the text can be
the one that is reported, and within a pass the first fault is.

Faults are described here without the passes, by what is right with everything before
them.  The rules of a text and the declarations of rules are described in the same way, as
lists that agree place by place with the lines and with the rules.

Main statement: a text has a grammar if and only if no fault is found in it, the grammar
has the declarations that the lines describe, and otherwise the reason is the first fault.
-/

/-! ## Computations that can fail -/

section

variable {ε α β : Type}

theorem bind_eq_ok_iff {result : Except ε α} {next : α -> Except ε β} {value : β} :
    result >>= next = .ok value ↔ ∃ first, result = .ok first ∧ next first = .ok value := by
  refine ⟨exists_of_bind_eq_ok, ?_⟩
  rintro ⟨first, rfl, made⟩
  exact made

theorem bind_eq_error_iff {result : Except ε α} {next : α -> Except ε β} {reason : ε} :
    result >>= next = .error reason ↔
      result = .error reason ∨ ∃ first, result = .ok first ∧ next first = .error reason := by
  cases result with
  | error other =>
      constructor
      · intro failed
        cases failed
        exact Or.inl rfl
      · rintro (failed | ⟨first, made, _⟩)
        · cases failed
          rfl
        · cases made
  | ok first =>
      constructor
      · exact fun failed => Or.inr ⟨first, rfl, failed⟩
      · rintro (failed | ⟨other, made, failed⟩)
        · cases failed
        · cases made
          exact failed

variable {f : α -> Except ε β} {inputs : List α}

theorem mapM_eq_ok_iff {outputs : List β} :
    inputs.mapM f = .ok outputs ↔ List.Forall₂ (fun input output => f input = .ok output) inputs outputs := by
  refine ⟨forall₂_of_mapM, fun related => ?_⟩
  induction related with
  | nil => rfl
  | cons first _ inductionHypothesis =>
      rw [List.mapM_cons, first, inductionHypothesis]
      rfl

/-- A map fails at the first element where it does. -/
theorem mapM_eq_error_iff {reason : ε} :
    inputs.mapM f = .error reason ↔ ∃ front input back, inputs = front ++ input :: back ∧
      (∀ other ∈ front, ∃ output, f other = .ok output) ∧ f input = .error reason := by
  induction inputs with
  | nil =>
      constructor
      · intro failed
        cases failed
      · rintro ⟨front, input, back, split, _⟩
        simp at split
  | cons first rest inductionHypothesis =>
      constructor
      · intro failed
        rw [List.mapM_cons] at failed
        rcases bind_eq_error_iff.mp failed with failed | ⟨output, made, failed⟩
        · exact ⟨[], first, rest, rfl, List.forall_mem_nil _, failed⟩
        · rcases bind_eq_error_iff.mp failed with failed | ⟨_, _, impossible⟩
          · rcases inductionHypothesis.mp failed with ⟨front, input, back, rfl, earlier, failed⟩
            exact ⟨first :: front, input, back, rfl, List.forall_mem_cons.mpr ⟨⟨output, made⟩, earlier⟩, failed⟩
          · cases impossible
      · rintro ⟨front, input, back, split, earlier, failed⟩
        rcases List.cons_eq_append_iff.mp split with ⟨rfl, same⟩ | ⟨others, rfl, rfl⟩
        · cases same
          rw [List.mapM_cons, failed]
          rfl
        · rcases List.forall_mem_cons.mp earlier with ⟨⟨output, made⟩, later⟩
          have fails := inductionHypothesis.mpr ⟨others, input, back, rfl, later, failed⟩
          rw [List.mapM_cons, made, fails]
          rfl

end

namespace Grammar

/-! ## Lines -/

/-- Whether the line is a rule: a name, the sign `::=` and a text behind it.  A separator
ends the name, which could have the characters of the sign in it. -/
def IsRuleLine (line name text : String) : Prop :=
  Lexeme.IsWord name ∧ ∃ margin gap : List Char,
    (∀ c ∈ margin ++ gap, Text.isSeparator c = true) ∧ gap ≠ [] ∧
      line.toList = margin ++ (name.toList ++ (gap ++ ([':', ':', '='] ++ text.toList)))

def trimmed (text : String) : String :=
  String.ofList (Text.trim text.toList)

/-- What the reader of lines leaves of the text behind the sign. -/
def shortened (text : String) : String :=
  String.ofList (Text.trimEnd (Text.skipSeparators text.toList))

theorem trimmed_shortened (text : String) : trimmed (shortened text) = trimmed text := by
  rw [trimmed, trimmed, shortened, String.toList_ofList, Text.trim_trimEnd, Text.trim_skipSeparators]

section

variable {line name text : String}

theorem IsRuleLine.splitLine? (isRuleLine : IsRuleLine line name text) :
    splitLine? line = some (name, shortened text) := by
  rcases isRuleLine with ⟨isWord, margin, gap, separators, nonempty, spelled⟩
  rcases List.forall_mem_append.mp separators with ⟨ofMargin, ofGap⟩
  rcases List.exists_cons_of_ne_nil nonempty with ⟨first, others, rfl⟩
  have wordFirst : Text.skipSeparators line.toList =
      name.toList ++ (first :: others ++ ([':', ':', '='] ++ text.toList)) := by
    have isLexeme : Lexeme.WellFormed (.word name) := isWord
    rw [spelled]
    exact isLexeme.skipSeparators ofMargin _
  have stops : ∀ c, (first :: others ++ ([':', ':', '='] ++ text.toList)).head? = some c ->
      Lexeme.isWordCharacter c = false := by
    intro c head
    cases head
    exact Lexeme.isWordCharacter_eq_false_of_isSeparator (ofGap first List.mem_cons_self)
  rcases Lexeme.finds_word_iff.mpr ⟨wordFirst, isWord, stops⟩ with ⟨found, named, value, behind⟩
  have signFirst : Text.skipSeparators (first :: others ++ ([':', ':', '='] ++ text.toList)) =
      ':' :: ':' :: '=' :: text.toList := List.dropWhile_append_of_pos ofGap
  rw [Grammar.splitLine?, named, Option.bind_eq_bind, Option.bind_some]
  simp only [behind, signFirst, value, shortened]

theorem exists_isRuleLine_of_splitLine? {rest : String} (split : splitLine? line = some (name, rest)) :
    ∃ text, IsRuleLine line name text ∧ rest = shortened text := by
  rcases Option.bind_eq_some_iff.mp split with ⟨found, named, split⟩
  rcases Lexeme.finds_word_iff.mp ⟨found, named, rfl, rfl⟩ with ⟨wordFirst, isWord, stops⟩
  split at split
  · rename_i behind sign
    cases split
    rcases Text.exists_eq_append_skipSeparators line.toList with ⟨margin, marginFirst, ofMargin⟩
    rcases Text.exists_eq_append_skipSeparators found.rest with ⟨gap, gapFirst, ofGap⟩
    rw [sign] at gapFirst
    rw [gapFirst] at wordFirst stops
    have separators := List.forall_mem_append.mpr ⟨ofMargin, ofGap⟩
    refine ⟨String.ofList behind, ⟨isWord, margin, gap, separators, ?_, ?_⟩, ?_⟩
    -- Without a separator the first character of the sign would still be in the name.
    · rintro rfl
      cases stops ':' rfl
    · rw [String.toList_ofList]
      exact marginFirst.trans (congrArg (margin ++ ·) wordFirst)
    · rw [shortened, String.toList_ofList]
  · cases split

theorem splitLine?_eq_some_iff {rest : String} :
    splitLine? line = some (name, rest) ↔ ∃ text, IsRuleLine line name text ∧ rest = shortened text := by
  refine ⟨exists_isRuleLine_of_splitLine?, ?_⟩
  rintro ⟨text, isRuleLine, rfl⟩
  exact isRuleLine.splitLine?

end


theorem IsRuleLine.isBlank_eq_false {line name text : String} (isRuleLine : IsRuleLine line name text) :
    Text.isBlank line.toList = false := by
  rcases isRuleLine with ⟨_, margin, gap, _, _, spelled⟩
  rw [Text.isBlank, spelled, List.all_eq_false]
  exact ⟨':', by simp, by decide⟩

/-- The rules on the lines, in their order.  Blank lines have none. -/
inductive RulesOn : List String -> List (String × String) -> Prop
  | none : RulesOn [] []
  | blank {line : String} {rest : List String} {rules : List (String × String)} :
      Text.isBlank line.toList = true -> RulesOn rest rules -> RulesOn (line :: rest) rules
  | rule {line name text : String} {rest : List String} {rules : List (String × String)} :
      IsRuleLine line name text -> RulesOn rest rules -> RulesOn (line :: rest) ((name, text) :: rules)

theorem RulesOn.splitLines {lines : List String} {rules : List (String × String)} (rulesOn : RulesOn lines rules)
    (number : Nat) :
    splitLines number lines = .ok (rules.map fun rule => (rule.1, shortened rule.2)) := by
  induction rulesOn generalizing number with
  | none => rfl
  | blank isBlank _ inductionHypothesis =>
      rw [Grammar.splitLines, if_pos isBlank]
      exact inductionHypothesis (number + 1)
  | rule isRuleLine _ inductionHypothesis =>
      rw [Grammar.splitLines, isRuleLine.isBlank_eq_false, if_neg Bool.false_ne_true, isRuleLine.splitLine?,
        inductionHypothesis (number + 1)]
      rfl

/-- Whether the line, behind those in front, is the first that is neither blank nor a rule. -/
structure IsFirstStray (front : List String) (line : String) (lines : List String) : Prop where
  split : ∃ back, lines = front ++ line :: back
  earlier : ∃ rules, RulesOn front rules
  visible : Text.isBlank line.toList = false
  noRule : ∀ name text, ¬ IsRuleLine line name text

theorem exists_rulesOn_or_isFirstStray (lines : List String) :
    (∃ rules, RulesOn lines rules) ∨ ∃ front line, IsFirstStray front line lines := by
  induction lines with
  | nil => exact Or.inl ⟨[], .none⟩
  | cons line rest inductionHypothesis =>
      by_cases isBlank : Text.isBlank line.toList = true
      · rcases inductionHypothesis with
          ⟨rules, later⟩ | ⟨front, other, ⟨back, rfl⟩, ⟨rules, earlier⟩, visible, noRule⟩
        · exact Or.inl ⟨rules, .blank isBlank later⟩
        · exact Or.inr ⟨line :: front, other, ⟨back, rfl⟩, ⟨rules, .blank isBlank earlier⟩, visible, noRule⟩
      · by_cases isRuleLine : ∃ name text, IsRuleLine line name text
        · rcases isRuleLine with ⟨name, text, isRuleLine⟩
          rcases inductionHypothesis with
            ⟨rules, later⟩ | ⟨front, other, ⟨back, rfl⟩, ⟨rules, earlier⟩, visible, noRule⟩
          · exact Or.inl ⟨(name, text) :: rules, .rule isRuleLine later⟩
          · exact Or.inr ⟨line :: front, other, ⟨back, rfl⟩, ⟨_, .rule isRuleLine earlier⟩, visible, noRule⟩
        · refine Or.inr ⟨[], line, ⟨rest, rfl⟩, ⟨[], .none⟩, Bool.eq_false_iff.mpr isBlank, fun name text found => ?_⟩
          exact isRuleLine ⟨name, text, found⟩

theorem IsFirstStray.splitLines {front lines : List String} {line : String}
    (isFirstStray : IsFirstStray front line lines) (number : Nat) :
    splitLines number lines = .error (.malformedLine (number + front.length) line) := by
  rcases isFirstStray with ⟨⟨back, rfl⟩, ⟨rules, earlier⟩, visible, noRule⟩
  -- Each line in front counts, blank or not, so the number grows with the lines passed over.
  induction earlier generalizing number with
  | none =>
      have unsplit : splitLine? line = none := by
        apply Option.eq_none_iff_forall_not_mem.mpr
        rintro ⟨name, rest⟩ split
        rcases splitLine?_eq_some_iff.mp split with ⟨text, isRuleLine, _⟩
        exact noRule name text isRuleLine
      rw [List.nil_append, Grammar.splitLines, visible, if_neg Bool.false_ne_true, unsplit]
      rfl
  | blank blank _ inductionHypothesis =>
      rw [List.cons_append, Grammar.splitLines, if_pos blank, inductionHypothesis, List.length_cons, Nat.add_assoc,
        Nat.add_comm 1]
  | rule isRuleLine _ inductionHypothesis =>
      rw [List.cons_append, Grammar.splitLines, isRuleLine.isBlank_eq_false, if_neg Bool.false_ne_true,
        isRuleLine.splitLine?, inductionHypothesis, List.length_cons, Nat.add_assoc, Nat.add_comm 1]
      rfl

/-! ## Rules -/

/-- Rules with the same names and with texts that differ in the white space around them
make the same grammar, or fail for the same reason. -/
theorem ofRules_congr {rules others : List (String × String)}
    (same : rules.map (fun rule => (rule.1, trimmed rule.2)) = others.map fun rule => (rule.1, trimmed rule.2)) :
    ofRules rules = ofRules others := by
  have throughTrimmed (rules : List (String × String)) :
      ofRules rules = ((rules.map fun rule => (rule.1, trimmed rule.2)).mapM fun rule =>
        (Production.read rule.1 rule.2).map fun production => (⟨production, rule.2⟩ : Declaration)) >>=
          ofDeclarations := by
    rw [List.mapM_map]
    rfl
  rw [throughTrimmed, throughTrimmed, same]

/-- The reading of a text whose lines have rules is left to these rules. -/
theorem read_of_rulesOn {text : String} {rules : List (String × String)} (rulesOn : RulesOn (Text.lines text) rules) :
    read text = ofRules rules := by
  have split : read text = ofRules (rules.map fun rule => (rule.1, shortened rule.2)) := by
    rw [read, rulesOn.splitLines]
    rfl
  rw [split]
  apply ofRules_congr
  simp only [List.map_map, Function.comp_def, trimmed_shortened]

section

variable {name text : String}

/-- A right-hand side without the white space around it decides about the declaration. -/
theorem declarationRead_eq_match :
    Declaration.read name text = match Pattern.read? (trimmed text) with
      | some root => .ok ⟨⟨name, root⟩, trimmed text⟩
      | none => .error (.malformedRule name (trimmed text)) := by
  rw [Declaration.read, Production.read]
  cases found : Pattern.read? (trimmed text) with
  | none =>
      rw [trimmed] at found
      simp only [found]
      rfl
  | some root =>
      rw [trimmed] at found
      simp only [found]
      rfl

theorem declarationRead_eq_ok_iff {declaration : Declaration} :
    Declaration.read name text = .ok declaration ↔ declaration.name = name ∧
      declaration.written = trimmed text ∧ Pattern.read? declaration.written = some declaration.root := by
  refine ⟨eq_of_declaration_read, ?_⟩
  rintro ⟨rfl, written, found⟩
  rw [declarationRead_eq_match, ← written, found]

theorem declarationRead_eq_error_iff {reason : GrammarError} :
    Declaration.read name text = .error reason ↔
      Pattern.read? (trimmed text) = none ∧ reason = .malformedRule name (trimmed text) := by
  rw [declarationRead_eq_match]
  cases Pattern.read? (trimmed text) with
  | none =>
      constructor
      · intro failed
        cases failed
        exact ⟨rfl, rfl⟩
      · rintro ⟨_, rfl⟩
        rfl
  | some root =>
      constructor
      · nofun
      · rintro ⟨impossible, _⟩
        cases impossible

end

/-- Whether the declarations are those of the rules, in the same order: each keeps the name
and the text without the white space around it, and its root is what this text is read as. -/
def Declares (rules : List (String × String)) (declarations : List Declaration) : Prop :=
  List.Forall₂ (fun rule declaration => declaration.name = rule.1 ∧ declaration.written = trimmed rule.2 ∧
    Pattern.read? declaration.written = some declaration.root) rules declarations

variable {rules : List (String × String)} {declarations : List Declaration} {reason : GrammarError}

theorem Declares.names (declares : Declares rules declarations) : declarations.map (·.name) = rules.map (·.1) := by
  induction declares with
  | nil => rfl
  | cons first _ inductionHypothesis => rw [List.map_cons, List.map_cons, first.1, inductionHypothesis]

theorem mapM_read_eq_ok_iff :
    (rules.mapM fun rule => Declaration.read rule.1 rule.2) = .ok declarations ↔ Declares rules declarations := by
  simp only [mapM_eq_ok_iff, declarationRead_eq_ok_iff, Declares]

theorem mapM_read_eq_error_iff :
    (rules.mapM fun rule => Declaration.read rule.1 rule.2) = .error reason ↔
      ∃ front name text back, rules = front ++ (name, text) :: back ∧
        (∀ rule ∈ front, ∃ root, Pattern.read? (trimmed rule.2) = some root) ∧
        Pattern.read? (trimmed text) = none ∧ reason = .malformedRule name (trimmed text) := by
  have readable (rule : String × String) : (∃ declaration, Declaration.read rule.1 rule.2 = .ok declaration) ↔
      ∃ root, Pattern.read? (trimmed rule.2) = some root := by
    constructor
    · rintro ⟨declaration, read⟩
      rcases declarationRead_eq_ok_iff.mp read with ⟨_, written, found⟩
      exact ⟨declaration.root, written ▸ found⟩
    · rintro ⟨root, found⟩
      exact ⟨⟨⟨rule.1, root⟩, trimmed rule.2⟩, declarationRead_eq_ok_iff.mpr ⟨rfl, rfl, found⟩⟩
  simp only [mapM_eq_error_iff, declarationRead_eq_error_iff, readable, Prod.exists]

/-! ## Declarations -/

theorem exists_split_of_firstRepeated? {names seen : List String} {name : String}
    (repeated : firstRepeated? seen names = some name) : ∃ front back, names = front ++ name :: back ∧
      front.Nodup ∧ (∀ other ∈ front, other ∉ seen) ∧ (name ∈ seen ∨ name ∈ front) := by
  induction names generalizing seen with
  | nil => cases repeated
  | cons first rest inductionHypothesis =>
      rw [firstRepeated?] at repeated
      split at repeated
      · rename_i known
        cases repeated
        exact ⟨[], rest, rfl, List.nodup_nil, List.forall_mem_nil _, Or.inl known⟩
      · rename_i fresh
        rcases inductionHypothesis repeated with ⟨front, back, rfl, distinct, apart, again⟩
        have newInFront : first ∉ front := fun member => apart first member List.mem_cons_self
        refine ⟨first :: front, back, rfl, List.nodup_cons.mpr ⟨newInFront, distinct⟩, ?_, ?_⟩
        · exact List.forall_mem_cons.mpr
            ⟨fresh, fun other member known => apart other member (List.mem_cons_of_mem _ known)⟩
        · rcases again with known | inFront
          · rcases List.mem_cons.mp known with rfl | before
            · exact Or.inr List.mem_cons_self
            · exact Or.inl before
          · exact Or.inr (List.mem_cons_of_mem _ inFront)

/-- Names that are new and differ from each other are passed over. -/
theorem firstRepeated?_append {front seen : List String} (distinct : front.Nodup)
    (apart : ∀ name ∈ front, name ∉ seen) (names : List String) :
    firstRepeated? seen (front ++ names) = firstRepeated? (front.reverse ++ seen) names := by
  induction front generalizing seen with
  | nil => rfl
  | cons first rest inductionHypothesis =>
      rcases List.nodup_cons.mp distinct with ⟨fresh, distinctRest⟩
      rcases List.forall_mem_cons.mp apart with ⟨unknown, apartRest⟩
      have stillApart : ∀ name ∈ rest, name ∉ first :: seen := by
        intro name member known
        rcases List.mem_cons.mp known with rfl | before
        · exact fresh member
        · exact apartRest name member before
      rw [List.cons_append, firstRepeated?, if_neg unknown, inductionHypothesis distinctRest stillApart,
        List.reverse_cons, List.append_assoc]
      rfl

theorem firstRepeated?_nil_eq_some_iff {names : List String} {name : String} :
    firstRepeated? [] names = some name ↔
      ∃ front back, names = front ++ name :: back ∧ front.Nodup ∧ name ∈ front := by
  constructor
  · intro repeated
    rcases exists_split_of_firstRepeated? repeated with ⟨front, back, split, distinct, _, known | again⟩
    · cases known
    · exact ⟨front, back, split, distinct, again⟩
  · rintro ⟨front, back, rfl, distinct, again⟩
    have known : name ∈ front.reverse ++ [] := List.mem_append_left _ (List.mem_reverse.mpr again)
    rw [firstRepeated?_append distinct fun _ _ => List.not_mem_nil, firstRepeated?, if_pos known]

theorem firstUndeclared?_eq_some_iff {owner rule : String} :
    firstUndeclared? declarations = some (owner, rule) ↔
      ∃ front declaration back before after, declarations = front ++ declaration :: back ∧
        declaration.name = owner ∧ declaration.root.references = before ++ rule :: after ∧
        rule ∉ declarations.map (·.name) ∧ before ⊆ declarations.map (·.name) ∧
        ∀ earlier ∈ front, earlier.root.references ⊆ declarations.map (·.name) := by
  have declared (rule : String) : (!!(declarations.map (·.name)).contains rule) = true ↔
      rule ∈ declarations.map (·.name) := by
    rw [Bool.not_not, List.contains_iff_mem]
  have undeclared (rule : String) : (!(declarations.map (·.name)).contains rule) = true ↔
      rule ∉ declarations.map (·.name) := by
    rw [Bool.not_eq_true', ← Bool.not_eq_true, List.contains_iff_mem]
  simp only [firstUndeclared?, List.findSome?_eq_some_iff, Option.map_eq_some_iff, Option.map_eq_none_iff,
    List.find?_eq_some_iff_append, List.find?_eq_none, Prod.mk.injEq, declared, undeclared, not_not]
  constructor
  · rintro ⟨front, declaration, back, split, ⟨_, ⟨missing, before, after, references, known⟩, same, rfl⟩, earlier⟩
    exact ⟨front, declaration, back, before, after, split, same, references, missing, known, earlier⟩
  · rintro ⟨front, declaration, back, before, after, split, same, references, missing, known, earlier⟩
    exact ⟨front, declaration, back, split, ⟨rule, ⟨missing, before, after, references, known⟩, same, rfl⟩, earlier⟩

/-- What can be wrong with declarations, and where the first fault is. -/
inductive FaultOfDeclarations (declarations : List Declaration) : GrammarError -> Prop
  | noRules : declarations = [] -> FaultOfDeclarations declarations .noRules
  | duplicateRule {front back : List String} {name : String} :
      declarations.map (·.name) = front ++ name :: back -> front.Nodup -> name ∈ front ->
      FaultOfDeclarations declarations (.duplicateRule name)
  | undefinedReference {front back : List Declaration} {owner : Declaration} {before after : List String}
      {rule : String} :
      (declarations.map (·.name)).Nodup -> declarations = front ++ owner :: back ->
      (∀ earlier ∈ front, earlier.root.references ⊆ declarations.map (·.name)) ->
      owner.root.references = before ++ rule :: after -> before ⊆ declarations.map (·.name) ->
      rule ∉ declarations.map (·.name) ->
      FaultOfDeclarations declarations (.undefinedReference owner.name rule)

theorem ofDeclarations_eq_ok_iff {grammar : Grammar} :
    ofDeclarations declarations = .ok grammar ↔ grammar.declarations = declarations := by
  refine ⟨declarations_of_ofDeclarations, ?_⟩
  rintro rfl
  exact ofDeclarations_declarations grammar

theorem FaultOfDeclarations.ofDeclarations (fault : FaultOfDeclarations declarations reason) :
    ofDeclarations declarations = .error reason := by
  cases fault with
  | noRules empty => rw [Grammar.ofDeclarations, dif_pos empty]
  | @duplicateRule front back name split distinct again =>
      have repeated := firstRepeated?_nil_eq_some_iff.mpr ⟨front, back, split, distinct, again⟩
      have nonempty : declarations ≠ [] := by
        rintro rfl
        simp at split
      rw [Grammar.ofDeclarations, dif_neg nonempty]
      split
      · rename_i other found
        rw [repeated] at found
        cases found
        rfl
      · rename_i found
        rw [repeated] at found
        cases found
  | @undefinedReference front back owner before after rule distinct split earlier references known missing =>
      have unrepeated := firstRepeated?_of_nodup distinct fun _ _ => List.not_mem_nil
      have undeclared := firstUndeclared?_eq_some_iff.mpr
        ⟨front, owner, back, before, after, split, rfl, references, missing, known, earlier⟩
      have nonempty : declarations ≠ [] :=
        split ▸ List.append_ne_nil_of_right_ne_nil front (List.cons_ne_nil owner back)
      rw [Grammar.ofDeclarations, dif_neg nonempty]
      split
      · rename_i found
        rw [unrepeated] at found
        cases found
      · split
        · rename_i found
          rw [undeclared] at found
          cases found
          rfl
        · rename_i found
          rw [undeclared] at found
          cases found

theorem ofDeclarations_eq_error_iff :
    ofDeclarations declarations = .error reason ↔ FaultOfDeclarations declarations reason := by
  refine ⟨fun failed => ?_, FaultOfDeclarations.ofDeclarations⟩
  unfold ofDeclarations at failed
  split at failed
  · rename_i empty
    cases failed
    exact .noRules empty
  · split at failed
    · rename_i name repeated
      cases failed
      rcases firstRepeated?_nil_eq_some_iff.mp repeated with ⟨front, back, split, distinct, again⟩
      exact .duplicateRule split distinct again
    · rename_i unrepeated
      have distinct := (nodup_of_firstRepeated? _ _ unrepeated).1
      split at failed
      · rename_i owner rule undeclared
        cases failed
        rcases firstUndeclared?_eq_some_iff.mp undeclared with
          ⟨front, declaration, back, before, after, split, rfl, references, missing, known, earlier⟩
        exact .undefinedReference distinct split earlier references known missing
      · cases failed

/-! ## Texts -/

/-- What can be wrong with rules, and where the first fault is.  All texts are read before
the declarations are compared. -/
inductive FaultOfRules (rules : List (String × String)) : GrammarError -> Prop
  | malformedRule {front back : List (String × String)} {name text : String} :
      rules = front ++ (name, text) :: back ->
      (∀ rule ∈ front, ∃ root, Pattern.read? (trimmed rule.2) = some root) ->
      Pattern.read? (trimmed text) = none ->
      FaultOfRules rules (.malformedRule name (trimmed text))
  | declaration {declarations : List Declaration} {reason : GrammarError} :
      Declares rules declarations -> FaultOfDeclarations declarations reason -> FaultOfRules rules reason

/-- What can be wrong with a grammar text, and where the first fault is.  All lines are split
before a right-hand side is read. -/
inductive FaultOfText (text : String) : GrammarError -> Prop
  | malformedLine {front : List String} {line : String} :
      IsFirstStray front line (Text.lines text) -> FaultOfText text (.malformedLine (front.length + 1) line)
  | rule {rules : List (String × String)} {reason : GrammarError} :
      RulesOn (Text.lines text) rules -> FaultOfRules rules reason -> FaultOfText text reason

theorem ofRules_eq_ok_iff {grammar : Grammar} :
    ofRules rules = .ok grammar ↔ Declares rules grammar.declarations := by
  rw [ofRules, bind_eq_ok_iff]
  simp only [mapM_read_eq_ok_iff, ofDeclarations_eq_ok_iff]
  constructor
  · rintro ⟨_, declares, rfl⟩
    exact declares
  · exact fun declares => ⟨_, declares, rfl⟩

theorem ofRules_eq_error_iff : ofRules rules = .error reason ↔ FaultOfRules rules reason := by
  rw [ofRules, bind_eq_error_iff]
  simp only [mapM_read_eq_ok_iff, mapM_read_eq_error_iff, ofDeclarations_eq_error_iff]
  constructor
  · rintro (⟨front, name, text, back, split, earlier, unreadable, rfl⟩ | ⟨declarations, declares, fault⟩)
    · exact .malformedRule split earlier unreadable
    · exact .declaration declares fault
  · intro fault
    cases fault with
    | @malformedRule front back name text split earlier unreadable =>
        exact Or.inl ⟨front, name, text, back, split, earlier, unreadable, rfl⟩
    | @declaration declarations _ declares fault => exact Or.inr ⟨declarations, declares, fault⟩

variable {text : String}

theorem IsFirstStray.read {front : List String} {line : String}
    (isFirstStray : IsFirstStray front line (Text.lines text)) :
    read text = .error (.malformedLine (front.length + 1) line) := by
  rw [Grammar.read, isFirstStray.splitLines, Nat.add_comm 1]
  rfl

theorem read_eq_ok_iff {grammar : Grammar} :
    read text = .ok grammar ↔ ∃ rules, RulesOn (Text.lines text) rules ∧ Declares rules grammar.declarations := by
  constructor
  · intro made
    rcases exists_rulesOn_or_isFirstStray (Text.lines text) with ⟨rules, rulesOn⟩ | ⟨front, line, isFirstStray⟩
    · rw [read_of_rulesOn rulesOn] at made
      exact ⟨rules, rulesOn, ofRules_eq_ok_iff.mp made⟩
    · rw [isFirstStray.read] at made
      cases made
  · rintro ⟨rules, rulesOn, declares⟩
    rw [read_of_rulesOn rulesOn]
    exact ofRules_eq_ok_iff.mpr declares

theorem read_eq_error_iff : read text = .error reason ↔ FaultOfText text reason := by
  constructor
  · intro failed
    rcases exists_rulesOn_or_isFirstStray (Text.lines text) with ⟨rules, rulesOn⟩ | ⟨front, line, isFirstStray⟩
    · rw [read_of_rulesOn rulesOn] at failed
      exact .rule rulesOn (ofRules_eq_error_iff.mp failed)
    · rw [isFirstStray.read] at failed
      cases failed
      exact .malformedLine isFirstStray
  · intro fault
    cases fault with
    | malformedLine isFirstStray => exact isFirstStray.read
    | rule rulesOn fault =>
        rw [read_of_rulesOn rulesOn]
        exact ofRules_eq_error_iff.mpr fault

/-- The rule at a position is the rule whose position it is. -/
theorem position?_eq_some_iff {grammar : Grammar} {rule : String} {position : Nat} :
    grammar.position? rule = some position ↔
      ∃ declaration, grammar.at? position = some declaration ∧ declaration.name = rule := by
  have same (declaration : Declaration) (found : grammar.at? position = some declaration) :
      grammar.productions[position]? = some declaration.toProduction := by
    rw [productions, List.getElem?_map]
    exact congrArg (Option.map _) found
  constructor
  · intro stands
    rcases exists_getElem?_of_position? stands with ⟨production, found, sameName⟩
    rw [productions, List.getElem?_map, Option.map_eq_some_iff] at found
    rcases found with ⟨declaration, found, rfl⟩
    exact ⟨declaration, found, sameName⟩
  · rintro ⟨declaration, found, rfl⟩
    exact position?_of_getElem? (same declaration found)

/-- A text has a grammar if and only if every line that is not blank is a rule, every
right-hand side can be read, there is a rule, no rule is declared twice, and all rules that
are referred to are declared.  The grammar has these rules in their order, and finds them by
their positions and by their names.  Otherwise the reason is the first fault. -/
theorem read_outcome (text : String) :
    ((∃ grammar, read text = .ok grammar) ↔ ∃ rules declarations, RulesOn (Text.lines text) rules ∧
      Declares rules declarations ∧ rules ≠ [] ∧ (rules.map (·.1)).Nodup ∧
      ∀ declaration ∈ declarations, declaration.root.references ⊆ rules.map (·.1)) ∧
    (∀ grammar, read text = .ok grammar ->
      (∃ rules, RulesOn (Text.lines text) rules ∧ Declares rules grammar.declarations) ∧
      (∀ rule position, grammar.position? rule = some position ↔
        ∃ declaration, grammar.at? position = some declaration ∧ declaration.name = rule) ∧
      ∀ declaration ∈ grammar.declarations, grammar.find? declaration.name = some declaration) ∧
    ∀ reason, read text = .error reason ↔ FaultOfText text reason := by
  refine ⟨?_, fun grammar made => ⟨read_eq_ok_iff.mp made, ?_, ?_⟩, fun reason => read_eq_error_iff⟩
  · constructor
    · rintro ⟨grammar, made⟩
      rcases read_eq_ok_iff.mp made with ⟨rules, rulesOn, declares⟩
      have names := declares.names
      refine ⟨rules, grammar.declarations, rulesOn, declares, ?_, names ▸ grammar.distinct, names ▸ grammar.closed⟩
      rintro rfl
      exact grammar.nonempty (List.map_eq_nil_iff.mp names)
    · rintro ⟨rules, declarations, rulesOn, declares, nonempty, distinct, closed⟩
      have names := declares.names
      have declared : declarations ≠ [] := by
        rintro rfl
        exact nonempty (List.map_eq_nil_iff.mp names.symm)
      rw [← names] at distinct closed
      exact ⟨⟨declarations, declared, distinct, closed⟩, read_eq_ok_iff.mpr ⟨rules, rulesOn, declares⟩⟩
  · exact fun rule position => position?_eq_some_iff
  · exact fun declaration declared => find?_of_mem_declarations declared

/-- A rule and a later one that it refers to, with a blank line between them. -/
def spaced : String :=
  " b ::= a ?\r\n\na ::=\t\"x\" "

/-- The declarations that the lines of the text describe. -/
def spacedDeclarations : List Declaration :=
  [⟨⟨"b", .optional (.reference "a")⟩, "a ?"⟩, ⟨⟨"a", .literal "x"⟩, "\"x\""⟩]

/-- A line that is no rule is reported although a right-hand side before it cannot be read.
The rules of another text are found by their names and their positions. -/
theorem read_outcome_spaced :
    FaultOfText "a ::= |\n\nb = c\n" (.malformedLine 3 "b = c") ∧
      ∃ grammar, read spaced = .ok grammar ∧ grammar.position? "a" = some 1 ∧
        grammar.find? "a" = some ⟨⟨"a", .literal "x"⟩, "\"x\""⟩ := by
  constructor
  · have split : splitLines 1 (Text.lines "a ::= |\n\nb = c\n") = .error (.malformedLine 3 "b = c") := by
      decide +kernel
    apply ((read_outcome "a ::= |\n\nb = c\n").2.2 _).mp
    rw [read, split]
    rfl
  · rcases exists_of_isOk (show (read spaced).isOk = true by decide +kernel) with ⟨grammar, made⟩
    have described : (read spaced).toOption.map (·.declarations) = some spacedDeclarations := by decide +kernel
    rw [made] at described
    have declarations : grammar.declarations = spacedDeclarations := Option.some.inj described
    rcases (read_outcome spaced).2.1 grammar made with ⟨_, positions, found⟩
    have second : grammar.at? 1 = some ⟨⟨"a", .literal "x"⟩, "\"x\""⟩ := by
      rw [at?, declarations]
      rfl
    exact ⟨grammar, made, (positions "a" 1).mpr ⟨_, second, rfl⟩, found _ (List.mem_of_getElem? second)⟩

end Grammar
end PredictiveParsing
