import PredictiveParsing.Proofs.Hygiene
import PredictiveParsing.Proofs.PythonText

namespace PredictiveParsing

/-!
# Identifiers that stay as they are

Whatever a name is, what a language writes for it can stand as an identifier there: it is
made of ASCII letters, digits and underscores, does not begin with a digit, and is neither
reserved nor the lone underscore.  So an identifier needs no change when it is taken for a
name again.  The universal form of a name is an identifier in every language at once, and
no language writes anything else for it.

The order of the changes matters.  Folding comes first, so that the digit in front is seen
where it stands in the end; and the underscore at the end comes last, so that it meets the
reserved words as they are.  It makes no new reserved word, because none of the words is
another one of them with an underscore behind it.
-/

namespace Naming

/-- Whether the text can stand as an identifier where the given words are reserved. -/
structure IsUsable (reserved : List String) (text : String) : Prop where
  nonempty : text ≠ ""
  characters : ∀ c ∈ text.toList,
    ('A' ≤ c ∧ c ≤ 'Z') ∨ ('a' ≤ c ∧ c ≤ 'z') ∨ ('0' ≤ c ∧ c ≤ '9') ∨ c = '_'
  noDigitFirst : ∀ c ∈ text.toList.head?, ¬('0' ≤ c ∧ c ≤ '9')
  notLone : text ≠ "_"
  free : text ∉ reserved

theorem isIdentifierCharacter_iff {c : Char} :
    isIdentifierCharacter c = true ↔
      ('A' ≤ c ∧ c ≤ 'Z') ∨ ('a' ≤ c ∧ c ≤ 'z') ∨ ('0' ≤ c ∧ c ≤ '9') ∨ c = '_' := by
  have ranges : isIdentifierCharacter c =
      (decide ('A' ≤ c ∧ c ≤ 'Z') || (decide ('a' ≤ c) && decide (c ≤ 'z')) ||
        (decide ('0' ≤ c) && decide (c ≤ '9')) || c == '_') := rfl
  rw [ranges]
  simp only [Bool.or_eq_true, Bool.and_eq_true, decide_eq_true_eq, beq_iff_eq, or_assoc]

theorem isDigit_iff {c : Char} : c.isDigit = true ↔ '0' ≤ c ∧ c ≤ '9' := by
  have range : c.isDigit = (decide ('0' ≤ c) && decide (c ≤ '9')) := rfl
  rw [range, Bool.and_eq_true, decide_eq_true_eq, decide_eq_true_eq]

/-! ## Identifiers as names -/

/-- No name is folded to a text with a digit in front. -/
theorem head?_guardStart (name : List Char) : ∀ c ∈ (guardStart name).head?, c.isDigit = false := by
  intro c first
  cases name with
  | nil =>
      cases first
      rfl
  | cons own rest =>
      rw [guardStart] at first
      split at first
      · cases first
        rfl
      · rename_i notDigit
        cases first
        exact Bool.eq_false_iff.mpr notDigit

theorem head?_avoiding (reserved : List String) (name : String) :
    ∀ c ∈ (avoiding reserved name).toList.head?, c.isDigit = false := by
  have ofPlain : ∀ c ∈ (plain name).toList.head?, c.isDigit = false := by
    rw [plain, String.toList_ofList]
    exact head?_guardStart _
  rw [avoiding]
  split
  · rw [String.toList_append, List.head?_append_of_ne_nil _ (isIdentifier_plain name).nonempty]
    exact ofPlain
  · exact ofPlain

/-- A text is kept as it is if all its characters can stand in identifiers and the first is no digit. -/
theorem plain_eq_self {text : String} (isIdentifier : IsIdentifier text)
    (noDigitFirst : ∀ c ∈ text.toList.head?, c.isDigit = false) : plain text = text := by
  have unfolded : folded text.toList = text.toList :=
    (List.map_congr_left fun c member => if_pos (isIdentifier.characters c member)).trans (List.map_id _)
  have unguarded : guardStart text.toList = text.toList := by
    cases spelled : text.toList with
    | nil => exact absurd spelled isIdentifier.nonempty
    | cons c rest =>
        rw [spelled] at noDigitFirst
        rw [guardStart, noDigitFirst c rfl, if_neg Bool.false_ne_true]
  rw [plain, unfolded, unguarded, String.ofList_toList]

/-- The only changes left for an identifier are those of reserved words. -/
theorem plain_avoiding (reserved : List String) (name : String) :
    plain (avoiding reserved name) = avoiding reserved name :=
  plain_eq_self (isIdentifier_avoiding reserved name) (head?_avoiding reserved name)

variable {reserved : List String}

theorem avoiding_eq_self {text : String} (isPlain : plain text = text) (kept : text ∉ "_" :: reserved) :
    avoiding reserved text = text := by
  rw [avoiding_of_not_mem (isPlain.symm ▸ kept), isPlain]

theorem avoiding_avoiding (among : "_" :: reserved ⊆ changedWords) (name : String) :
    avoiding reserved (avoiding reserved name) = avoiding reserved name :=
  avoiding_eq_self (plain_avoiding reserved name) (avoiding_not_mem_cons among name)

theorem isUsable_avoiding (among : "_" :: reserved ⊆ changedWords) (name : String) :
    IsUsable reserved (avoiding reserved name) where
  nonempty empty := (isIdentifier_avoiding reserved name).nonempty (String.toList_eq_nil_iff.mpr empty)
  characters c member := isIdentifierCharacter_iff.mp ((isIdentifier_avoiding reserved name).characters c member)
  noDigitFirst c first digit := by
    have noDigit := head?_avoiding reserved name c first
    rw [isDigit_iff.mpr digit] at noDigit
    cases noDigit
  notLone lone := avoiding_not_mem_cons among name (lone ▸ List.mem_cons_self)
  free := avoiding_not_mem among name

end Naming

/-! ## Languages -/

def Target.words : Target -> List String
  | .python => Naming.pythonWords
  | .rust => Naming.rustWords

theorem Target.identifier_eq_avoiding (target : Target) (name : String) :
    target.identifier name = Naming.avoiding target.words name := by
  cases target <;> rfl

theorem Target.cons_words_subset (target : Target) : "_" :: target.words ⊆ Naming.changedWords := by
  cases target with
  | python => exact List.cons_subset_cons _ (List.subset_append_left _ _)
  | rust => exact List.cons_subset_cons _ (List.subset_append_right _ _)

/-- What a language writes for a name is usable there, is written for itself, and has the
universal form of the name.  The universal form is usable in all languages at once, and it
is its own universal form and what every language writes for it. -/
theorem Target.identifiers_settle (name : String) :
    (∀ target : Target,
      Naming.IsUsable target.words (target.identifier name) ∧
      target.identifier (target.identifier name) = target.identifier name ∧
      Naming.universal (target.identifier name) = Naming.universal name ∧
      target.identifier (Naming.universal name) = Naming.universal name) ∧
    Naming.IsUsable (Naming.pythonWords ++ Naming.rustWords) (Naming.universal name) ∧
    Naming.universal (Naming.universal name) = Naming.universal name := by
  have all : "_" :: (Naming.pythonWords ++ Naming.rustWords) ⊆ Naming.changedWords := List.Subset.refl _
  refine ⟨fun target => ?_, Naming.isUsable_avoiding all name, Naming.avoiding_avoiding all name⟩
  have among := target.cons_words_subset
  have written := target.identifier_eq_avoiding
  have again : target.identifier (target.identifier name) = target.identifier name := by
    rw [written, written]
    exact Naming.avoiding_avoiding among name
  have kept : Naming.universal name ∉ "_" :: target.words :=
    fun member => Naming.avoiding_not_mem_cons all name (among member)
  refine ⟨?_, again, target.universal_eq_of_identifier_eq again, ?_⟩
  · rw [written]
    exact Naming.isUsable_avoiding among name
  · rw [written]
    exact Naming.avoiding_eq_self (Naming.plain_avoiding _ name) kept

end PredictiveParsing
