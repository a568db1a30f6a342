import PredictiveParsing.Dialect.PythonModule
import PredictiveParsing.Proofs.Indentation

namespace PredictiveParsing

/-!
# The text of Python code

Whatever names and texts a program holds, what is written for them stays on one line:
identifiers hold letters, digits and underscores only, and quoted texts have their
control characters spelled out.  No expression ends in a colon, so that none can be
taken for the header of a block.
-/

/-! ## Identifiers -/

namespace Naming

theorem toNat_of_isIdentifierCharacter {c : Char} (inIdentifier : isIdentifierCharacter c = true) :
    48 ≤ c.toNat ∧ c.toNat ≤ 122 := by
  have ranges : (decide ('A'.val ≤ c.val ∧ c.val ≤ 'Z'.val) || ('a'.val ≤ c.val && c.val ≤ 'z'.val) ||
      ('0'.val ≤ c.val && c.val ≤ '9'.val) || c == '_') = true := inIdentifier
  simp only [Bool.or_eq_true, Bool.and_eq_true, decide_eq_true_eq, beq_iff_eq, UInt32.le_iff_toNat_le] at ranges
  rcases ranges with ((⟨low, high⟩ | ⟨low, high⟩) | ⟨low, high⟩) | rfl
  · exact ⟨Nat.le_trans (by decide) low, Nat.le_trans high (by decide)⟩
  · exact ⟨Nat.le_trans (by decide) low, Nat.le_trans high (by decide)⟩
  · exact ⟨Nat.le_trans (by decide) low, Nat.le_trans high (by decide)⟩
  · decide

theorem isWhiteSpace_of_isIdentifierCharacter {c : Char} (inIdentifier : isIdentifierCharacter c = true) :
    Text.isWhiteSpace c = false := by
  have bounds := toNat_of_isIdentifierCharacter inIdentifier
  simp only [Text.isWhiteSpace, Bool.or_eq_false_iff, Bool.and_eq_false_iff, decide_eq_false_iff_not,
    beq_eq_false_iff_ne]
  omega

/-- A sign is no character of an identifier. -/
theorem ne_of_isIdentifierCharacter {c sign : Char} (inIdentifier : isIdentifierCharacter c = true)
    (isSign : isIdentifierCharacter sign = false) : c ≠ sign := by
  rintro rfl
  rw [inIdentifier] at isSign
  cases isSign

theorem mem_folded {name : List Char} {c : Char} (member : c ∈ folded name) : isIdentifierCharacter c = true := by
  rcases List.mem_map.mp member with ⟨original, _, rfl⟩
  split
  · assumption
  · rfl

/-- Whether the text consists of characters of identifiers. -/
structure IsIdentifier (text : String) : Prop where
  nonempty : text.toList ≠ []
  characters : ∀ c ∈ text.toList, isIdentifierCharacter c = true

theorem isIdentifier_plain (name : String) : IsIdentifier (plain name) := by
  have inFolded : ∀ c ∈ folded name.toList, isIdentifierCharacter c = true := fun _ => mem_folded
  constructor
  all_goals rw [plain, String.toList_ofList]
  · cases folded name.toList with
    | nil => exact List.cons_ne_nil _ _
    | cons c rest =>
        rw [guardStart]
        split <;> exact List.cons_ne_nil _ _
  · cases spelled : folded name.toList with
    | nil => exact List.forall_mem_singleton.mpr rfl
    | cons c rest =>
        rw [spelled] at inFolded
        rw [guardStart]
        split
        · exact List.forall_mem_cons.mpr ⟨rfl, inFolded⟩
        · exact inFolded

theorem isIdentifier_avoiding (reserved : List String) (name : String) : IsIdentifier (avoiding reserved name) := by
  have plain := isIdentifier_plain name
  rw [avoiding]
  split
  · refine ⟨?_, ?_⟩
    · rw [String.toList_append]
      exact List.append_ne_nil_of_left_ne_nil plain.nonempty _
    · rw [String.toList_append]
      exact List.forall_mem_append.mpr ⟨plain.characters, List.forall_mem_singleton.mpr rfl⟩
  · exact plain

theorem isDigit_of_mem_number (value : Nat) : ∀ c ∈ (toString value).toList, c.isDigit = true := by
  have digits : (toString value).toList = Nat.toDigits 10 value := Nat.toList_repr
  rw [digits]
  exact fun c member => Nat.isDigit_of_mem_toDigits (by decide) (by decide) member

theorem isIdentifier_number (value : Nat) : IsIdentifier (toString value) := by
  have digits : (toString value).toList = Nat.toDigits 10 value := Nat.toList_repr
  refine ⟨digits ▸ Nat.toDigits_ne_nil, fun c member => ?_⟩
  rw [isIdentifierCharacter, Char.isAlphanum, isDigit_of_mem_number value c member, Bool.or_true, Bool.true_or]

end Naming

/-! ## Quoted texts -/

namespace Text

theorem isIdentifierCharacter_hexDigit : ∀ value < 16, Naming.isIdentifierCharacter (hexDigit value) = true := by
  decide

theorem lt_of_isControl {c : Char} (control : isControl c = true) : c.toNat < 160 := by
  simp only [isControl, Bool.or_eq_true, Bool.and_eq_true, decide_eq_true_eq] at control
  omega

theorem isControl_of_isIdentifierCharacter {c : Char} (inIdentifier : Naming.isIdentifierCharacter c = true) :
    isControl c = false := by
  have bounds := Naming.toNat_of_isIdentifierCharacter inIdentifier
  simp only [isControl, Bool.or_eq_false_iff, Bool.and_eq_false_iff, decide_eq_false_iff_not]
  omega

theorem isControl_of_mem_escape {c : Char} (printed : isControl c = false) :
    ∀ spelled ∈ ['\\', c], isControl spelled = false :=
  List.forall_mem_cons.mpr ⟨by decide, List.forall_mem_singleton.mpr printed⟩

/-- No character is written with a control character. -/
theorem isControl_of_mem_quotedCharacter (c : Char) : ∀ spelled ∈ quotedCharacter c, isControl spelled = false := by
  cases control : isControl c with
  | false =>
      have itself : ∀ spelled ∈ [c], isControl spelled = false := List.forall_mem_singleton.mpr control
      rw [quotedCharacter, control, if_neg Bool.false_ne_true]
      repeat' split
      all_goals first | exact itself | exact isControl_of_mem_escape (by decide)
  | true =>
      have bound := lt_of_isControl control
      have high := isIdentifierCharacter_hexDigit (c.toNat / 16) (by omega)
      have low := isIdentifierCharacter_hexDigit (c.toNat % 16) (by omega)
      have spelledOut : ∀ spelled ∈ ['\\', 'x', hexDigit (c.toNat / 16), hexDigit (c.toNat % 16)],
          isControl spelled = false := by
        refine List.forall_mem_cons.mpr ⟨by decide, List.forall_mem_cons.mpr ⟨by decide, ?_⟩⟩
        exact List.forall_mem_cons.mpr ⟨isControl_of_isIdentifierCharacter high,
          List.forall_mem_singleton.mpr (isControl_of_isIdentifierCharacter low)⟩
      rw [quotedCharacter, control, if_pos rfl]
      repeat' split
      all_goals first | exact spelledOut | exact isControl_of_mem_escape (by decide)

theorem isControl_of_mem_quoted (text : String) : ∀ spelled ∈ (quoted text).toList, isControl spelled = false := by
  rw [quoted, String.toList_ofList, List.forall_mem_append]
  refine ⟨List.forall_mem_cons.mpr ⟨by decide, ?_⟩, List.forall_mem_singleton.mpr (by decide)⟩
  intro spelled member
  rcases List.mem_flatMap.mp member with ⟨c, _, inside⟩
  exact isControl_of_mem_quotedCharacter c spelled inside

end Text

/-! ## Expressions -/

namespace PythonModule

/-- Whether the text can stand on a line, and does not make it a header at its end. -/
structure IsCode (text : String) : Prop where
  noFeed : '\n' ∉ text.toList
  noReturn : '\r' ∉ text.toList
  last : text.toList.getLast? ≠ some ':'

instance (text : String) : Decidable (IsCode text) :=
  decidable_of_iff ('\n' ∉ text.toList ∧ '\r' ∉ text.toList ∧ text.toList.getLast? ≠ some ':')
    ⟨fun parts => ⟨parts.1, parts.2.1, parts.2.2⟩, fun code => ⟨code.noFeed, code.noReturn, code.last⟩⟩

namespace IsCode

variable {front back : String}

theorem append (first : IsCode front) (later : IsCode back) : IsCode (front ++ back) := by
  constructor
  all_goals rw [String.toList_append]
  · exact List.not_mem_append first.noFeed later.noFeed
  · exact List.not_mem_append first.noReturn later.noReturn
  · rw [List.getLast?_append]
    cases ends : back.toList.getLast? with
    | none => exact first.last
    | some c =>
        rw [Option.some_or, ← ends]
        exact later.last

theorem intercalate {separator : String} (between : IsCode separator) {texts : List String}
    (each : ∀ text ∈ texts, IsCode text) : IsCode (separator.intercalate texts) := by
  induction texts with
  | nil =>
      rw [String.intercalate_nil]
      decide
  | cons text rest inductionHypothesis =>
      rcases List.forall_mem_cons.mp each with ⟨first, later⟩
      cases rest with
      | nil =>
          rw [String.intercalate_singleton]
          exact first
      | cons next others =>
          rw [String.intercalate_cons_cons]
          exact (first.append between).append (inductionHypothesis later)

theorem of_isIdentifier {text : String} (isIdentifier : Naming.IsIdentifier text) : IsCode text where
  noFeed member := by cases isIdentifier.characters _ member
  noReturn member := by cases isIdentifier.characters _ member
  last ends := by cases isIdentifier.characters _ (List.mem_of_getLast? ends)

theorem identifier (name : String) : IsCode (identifier name) :=
  of_isIdentifier (Naming.isIdentifier_avoiding _ name)

theorem quoted (text : String) : IsCode (Text.quoted text) where
  noFeed member := by cases Text.isControl_of_mem_quoted text _ member
  noReturn member := by cases Text.isControl_of_mem_quoted text _ member
  last := by
    rw [Text.quoted, String.toList_ofList, List.getLast?_concat]
    decide

theorem number (value : Nat) : IsCode (toString value) :=
  of_isIdentifier (Naming.isIdentifier_number value)

theorem arguments {texts : List String} (each : ∀ text ∈ texts, IsCode text) :
    IsCode ("(" ++ (", ".intercalate texts ++ ")")) := by
  have comma : IsCode ", " := by decide
  have opening : IsCode "(" := by decide
  have closing : IsCode ")" := by decide
  exact opening.append ((comma.intercalate each).append closing)

theorem application (routine : String) {arguments : List String} (each : ∀ text ∈ arguments, IsCode text) :
    IsCode (application routine arguments) := by
  rw [PythonModule.application, String.append_assoc, String.append_assoc]
  exact (identifier routine).append (.arguments each)

end IsCode

mutual

theorem isCode_expressionText : ∀ expression : Expression, IsCode (expressionText expression)
  | .text value => by
      rw [expressionText]
      exact .quoted value
  | .var name => by
      rw [expressionText]
      exact .identifier name
  | .argument number => by
      have opening : IsCode "sys.argv[" := by decide
      have closing : IsCode "]" := by decide
      rw [expressionText]
      exact (opening.append (.number number)).append closing
  | .call routine arguments => by
      rw [expressionText]
      exact .application routine (isCode_expressionTexts arguments)
  | .field record field => by
      have opening : IsCode "[" := by decide
      have closing : IsCode "]" := by decide
      rw [expressionText]
      exact (((isCode_expressionText record).append opening).append (.number field.index)).append closing
  | .equal left right => by
      have sign : IsCode " == " := by decide
      rw [expressionText]
      exact ((isCode_expressionText left).append sign).append (isCode_expressionText right)
  | .different left right => by
      have sign : IsCode " != " := by decide
      rw [expressionText]
      exact ((isCode_expressionText left).append sign).append (isCode_expressionText right)

theorem isCode_expressionTexts : ∀ expressions : List Expression,
    ∀ text ∈ expressionTexts expressions, IsCode text
  | [] => List.forall_mem_nil _
  | expression :: rest => by
      rw [expressionTexts]
      exact List.forall_mem_cons.mpr ⟨isCode_expressionText expression, isCode_expressionTexts rest⟩

end

end PythonModule
end PredictiveParsing
