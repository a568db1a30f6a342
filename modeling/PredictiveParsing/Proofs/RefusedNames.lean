import Mathlib.Data.List.Induction
import PredictiveParsing.Proofs.DistinctIdentifiers

namespace PredictiveParsing

/-!
# Rules that are refused for their names

A grammar has a parser unless the names of its rules do not make identifiers that can stand
beside each other and beside what every parser contains.  Rules are looked at in declaration
order.  A rule is refused if every parser has a use for its identifier, and otherwise if a
rule before it has the same one, and the first rule that is refused decides what is reported.

After that nothing can go wrong.  The type of grammars has a declaration for every reference,
so each production has a lookahead table and its plan calls declared rules only, whatever its
right-hand side looks like.

Main statement: a parser is refused for the first rule that is refused, and for no other reason.
-/

/-- Whether every parser with these settings has a use for the identifier of the rule. -/
def IsReserved (settings : Settings) (rule : String) : Prop :=
  Naming.universal rule ∈ Support.reservedNames ∨
    Naming.universal rule = Naming.universal settings.tokenVariable

/-- Whether a rule is refused for the reason, given the rules before it. -/
inductive Refuses (settings : Settings) (earlier : List String) (rule : String) : SynthesisError -> Prop where
  /-- Every parser has a use for the identifier. -/
  | reserved (isReserved : IsReserved settings rule) : Refuses settings earlier rule (.reservedName rule)
  /-- A rule before it has the same identifier, and no parser has another use for it. -/
  | collides (free : ¬IsReserved settings rule) {first : String} (isEarlier : first ∈ earlier)
      (same : Naming.universal first = Naming.universal rule) :
      Refuses settings earlier rule (.nameCollision first rule)

/-- Whether none of the rules is refused. -/
structure AreAdmitted (settings : Settings) (rules : List String) : Prop where
  /-- No parser has a use for the identifiers. -/
  free : ∀ rule ∈ rules, ¬IsReserved settings rule
  /-- The identifiers differ. -/
  distinct : (rules.map Naming.universal).Nodup

variable {settings : Settings}

theorem refuseReserved_of_free {rule : String} (free : ¬IsReserved settings rule) :
    refuseReserved settings rule = .ok () :=
  refuseReserved_eq_ok_iff.mpr (not_or.mp free)

theorem refuseReserved_of_isReserved {rule : String} (isReserved : IsReserved settings rule) :
    refuseReserved settings rule = .error (.reservedName rule) := by
  have test : (Support.reservedNames.contains (Naming.universal rule) ||
      Naming.universal rule == Naming.universal settings.tokenVariable) = true := by
    rw [Bool.or_eq_true, List.contains_iff_mem, beq_iff_eq]
    exact isReserved
  exact if_pos test

/-! ## The first rule that is refused -/

/-- Where some of the rules are refused, one of them is the first. -/
theorem areAdmitted_or_exists_refused (settings : Settings) (rules : List String) :
    AreAdmitted settings rules ∨ ∃ front rule back reason, rules = front ++ rule :: back ∧
      AreAdmitted settings front ∧ Refuses settings front rule reason := by
  induction rules using List.reverseRecOn with
  | nil => exact Or.inl ⟨List.forall_mem_nil _, List.nodup_nil⟩
  | append_singleton front rule inductionHypothesis =>
      rcases inductionHypothesis with admitted | ⟨before, refused, back, reason, rfl, admitted, refuses⟩
      · by_cases isReserved : IsReserved settings rule
        · exact Or.inr ⟨front, rule, [], _, rfl, admitted, .reserved isReserved⟩
        · by_cases shared : ∃ first ∈ front, Naming.universal first = Naming.universal rule
          · rcases shared with ⟨first, isEarlier, same⟩
            exact Or.inr ⟨front, rule, [], _, rfl, admitted, .collides isReserved isEarlier same⟩
          · refine Or.inl ⟨List.forall_mem_append.mpr ⟨admitted.free, List.forall_mem_singleton.mpr isReserved⟩, ?_⟩
            rw [List.map_append, List.map_singleton, List.nodup_append]
            refine ⟨admitted.distinct, List.nodup_singleton _, ?_⟩
            rintro form ofFront other ofRule rfl
            rcases List.mem_map.mp ofFront with ⟨first, isEarlier, same⟩
            exact shared ⟨first, isEarlier, same.trans (List.mem_singleton.mp ofRule)⟩
      · refine Or.inr ⟨before, refused, back ++ [rule], reason, ?_, admitted, refuses⟩
        rw [List.append_assoc, List.cons_append]

theorem AreAdmitted.ne_of_mem {front back : List String} {rule : String}
    (admitted : AreAdmitted settings (front ++ rule :: back)) {first : String} (isEarlier : first ∈ front) :
    Naming.universal first ≠ Naming.universal rule := by
  have distinct := admitted.distinct
  rw [List.map_append, List.nodup_append] at distinct
  exact distinct.2.2 _ (List.mem_map_of_mem isEarlier) _ (List.mem_map_of_mem List.mem_cons_self)

/-- Admitted rules are passed over, and remembered for the rules after them. -/
theorem refuseClashes_append {earlier front : List String} (admitted : AreAdmitted settings (earlier.reverse ++ front))
    (rest : List String) :
    refuseClashes settings earlier (front ++ rest) = refuseClashes settings (front.reverse ++ earlier) rest := by
  induction front generalizing earlier with
  | nil => rfl
  | cons rule others inductionHypothesis =>
      have free : ¬IsReserved settings rule :=
        admitted.free rule (List.mem_append_right _ List.mem_cons_self)
      have fresh : (earlier.find? fun first => Naming.universal first == Naming.universal rule) = none := by
        refine List.find?_eq_none.mpr fun first isEarlier same => ?_
        exact admitted.ne_of_mem (List.mem_reverse.mpr isEarlier) (beq_iff_eq.mp same)
      have regrouped : (rule :: earlier).reverse ++ others = earlier.reverse ++ rule :: others := by
        rw [List.reverse_cons, List.append_assoc, List.singleton_append]
      rw [List.cons_append, refuseClashes, refuseReserved_of_free free, fresh, List.reverse_cons, List.append_assoc,
        List.singleton_append]
      exact inductionHypothesis (regrouped ▸ admitted)

theorem refuseClashes_of_areAdmitted {rules : List String} (admitted : AreAdmitted settings rules) :
    refuseClashes settings [] rules = .ok () := by
  have passed : refuseClashes settings [] (rules ++ []) = refuseClashes settings (rules.reverse ++ []) [] :=
    refuseClashes_append admitted []
  rw [List.append_nil] at passed
  exact passed

/-- Two rules that are admitted together do not have the same identifier. -/
theorem AreAdmitted.eq_of_universal_eq {rules : List String} (admitted : AreAdmitted settings rules)
    {first second : String} (inRules : first ∈ rules) (alsoInRules : second ∈ rules)
    (same : Naming.universal first = Naming.universal second) : first = second :=
  List.inj_on_of_nodup_map admitted.distinct inRules alsoInRules same

/-- A rule that is refused behind admitted ones is reported. -/
theorem refuseClashes_of_refuses {front : List String} {rule : String} {reason : SynthesisError}
    (admitted : AreAdmitted settings front) (refuses : Refuses settings front rule reason) (back : List String) :
    refuseClashes settings [] (front ++ rule :: back) = .error reason := by
  rw [refuseClashes_append admitted, List.append_nil, refuseClashes]
  cases refuses with
  | reserved isReserved =>
      rw [refuseReserved_of_isReserved isReserved]
      rfl
  | @collides free first isEarlier same =>
      rw [refuseReserved_of_free free]
      cases search : front.reverse.find? fun other => Naming.universal other == Naming.universal rule with
      | none =>
          exact absurd (beq_iff_eq.mpr same)
            (List.find?_eq_none.mp search first (List.mem_reverse.mpr isEarlier))
      | some other =>
          have isOther := List.mem_reverse.mp (List.mem_of_find?_eq_some search)
          have sameAsOther : Naming.universal other = Naming.universal rule := by simpa using List.find?_some search
          rw [admitted.eq_of_universal_eq isEarlier isOther (same.trans sameAsOther.symm)]
          rfl

/-! ## Parsers -/

/-- A map succeeds on a list where it does so on each of its elements. -/
theorem exists_mapM_eq_ok {α β ε : Type} {f : α -> Except ε β} {inputs : List α}
    (each : ∀ input ∈ inputs, ∃ output, f input = .ok output) : ∃ outputs, inputs.mapM f = .ok outputs := by
  induction inputs with
  | nil => exact ⟨[], rfl⟩
  | cons input rest inductionHypothesis =>
      rcases List.forall_mem_cons.mp each with ⟨⟨output, first⟩, later⟩
      rcases inductionHypothesis later with ⟨outputs, mapped⟩
      refine ⟨output :: outputs, ?_⟩
      rw [List.mapM_cons, first, mapped]
      rfl

namespace Grammar

variable {grammar : Grammar}

theorem exists_parser_of_areAdmitted (admitted : AreAdmitted settings grammar.names) :
    ∃ program, grammar.parser settings = .ok program := by
  have each : ∀ production ∈ grammar.productions, ∃ routine,
      grammar.analysis.routine settings production = .ok routine := by
    intro production declared
    have free := admitted.free production.name (name_mem_names declared)
    rw [grammar.analysis.routine_of_mem settings declared, refuseReserved_of_free free]
    exact ⟨_, rfl⟩
  rcases exists_mapM_eq_ok each with ⟨routines, mapped⟩
  rw [parser, refuseClashes_of_areAdmitted admitted]
  dsimp only [Bind.bind, Except.bind]
  rw [mapped]
  exact ⟨_, rfl⟩

theorem parser_eq_error_of_refuses {front back : List String} {rule : String} {reason : SynthesisError}
    (names : grammar.names = front ++ rule :: back) (admitted : AreAdmitted settings front)
    (refuses : Refuses settings front rule reason) : grammar.parser settings = .error reason := by
  rw [parser, names, refuseClashes_of_refuses admitted refuses back]
  rfl

/-- A grammar has a parser if and only if all its rules are admitted.  Otherwise the first rule
that is refused is reported with its reason, so there is only one for it, and no rule is ever
reported as unknown. -/
theorem parser_fails_only_over_names (grammar : Grammar) (settings : Settings) :
    ((∃ program, grammar.parser settings = .ok program) ↔ AreAdmitted settings grammar.names) ∧
    (∀ reason, grammar.parser settings = .error reason ↔
      ∃ front rule back, grammar.names = front ++ rule :: back ∧ AreAdmitted settings front ∧
        Refuses settings front rule reason) ∧
    ∀ rule, grammar.parser settings ≠ .error (.unknownRule rule) := by
  have fails (reason : SynthesisError) : grammar.parser settings = .error reason ↔
      ∃ front rule back, grammar.names = front ++ rule :: back ∧ AreAdmitted settings front ∧
        Refuses settings front rule reason := by
    constructor
    · intro failed
      rcases areAdmitted_or_exists_refused settings grammar.names with
        admitted | ⟨front, rule, back, first, split, admitted, refuses⟩
      · rcases exists_parser_of_areAdmitted admitted with ⟨program, made⟩
        rw [made] at failed
        cases failed
      · rw [parser_eq_error_of_refuses split admitted refuses] at failed
        cases failed
        exact ⟨front, rule, back, split, admitted, refuses⟩
    · rintro ⟨front, rule, back, split, admitted, refuses⟩
      exact parser_eq_error_of_refuses split admitted refuses
  refine ⟨⟨?_, exists_parser_of_areAdmitted⟩, fails, ?_⟩
  · rintro ⟨program, made⟩
    rcases areAdmitted_or_exists_refused settings grammar.names with
      admitted | ⟨front, rule, back, reason, split, admitted, refuses⟩
    · exact admitted
    · rw [parser_eq_error_of_refuses split admitted refuses] at made
      cases made
  · intro unknown failed
    rcases (fails _).mp failed with ⟨front, rule, back, _, _, refuses⟩
    cases refuses

-- The reserved name is met before the second of the rules that collide.
example : (ofRules [("a-b", "\"x\""), ("peek", "\"y\""), ("a_b", "\"z\"")]).toOption.any (fun grammar =>
    match grammar.parser .standard with
    | .ok _ => false
    | .error reason => reason == .reservedName "peek") = true := by
  decide +kernel

end Grammar
end PredictiveParsing
