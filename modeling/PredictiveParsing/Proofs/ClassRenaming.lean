import PredictiveParsing.Proofs.Lookahead

namespace PredictiveParsing

/-!
# Renaming token classes

Token classes are given other names and nothing else about a grammar changes.  The
nullable rules stay the same whatever the new names are.  Lookahead tables find
their entries by spellings, which a class may share with a literal or with the
epsilon marker, so the operations on tables follow a renaming only where it neither
joins nor parts the spellings of the terminals that the tables speak about.
-/

/-! ## Terminals and patterns -/

namespace Terminal

/-- The terminal, under another name if it is a class. -/
def renameClass (rename : String -> String) : Terminal -> Terminal
  | .literal text => .literal text
  | .tokenClass name => .tokenClass (rename name)

theorem renameClass_eq_epsilon {rename : String -> String} {leaf : Terminal} :
    leaf.renameClass rename = .epsilon ↔ leaf = .epsilon := by
  cases leaf with
  | literal text => rfl
  | tokenClass name => exact ⟨nofun, nofun⟩

/-- Whether the renaming neither joins nor parts spellings of the terminals. -/
def KeepsSpellings (rename : String -> String) (terminals : List Terminal) : Prop :=
  ∀ first ∈ terminals, ∀ second ∈ terminals,
    (first.renameClass rename).spelling = (second.renameClass rename).spelling ↔ first.spelling = second.spelling

theorem renameClass_id (leaf : Terminal) : leaf.renameClass id = leaf := by
  cases leaf <;> rfl

theorem keepsSpellings_id (terminals : List Terminal) : KeepsSpellings id terminals := by
  intro first _ second _
  rw [renameClass_id, renameClass_id]

/-- Terminals that had different spellings or kinds remain different. -/
theorem KeepsSpellings.renameClass_inj {rename : String -> String} {terminals : List Terminal}
    (keeps : KeepsSpellings rename terminals) {first second : Terminal} (firstKnown : first ∈ terminals)
    (secondKnown : second ∈ terminals) : first.renameClass rename = second.renameClass rename ↔ first = second := by
  refine ⟨fun same => ?_, congrArg _⟩
  have spelling := (keeps first firstKnown second secondKnown).mp (congrArg Terminal.spelling same)
  cases first with
  | literal text =>
      cases second with
      | literal other => exact congrArg Terminal.literal spelling
      | tokenClass name => cases same
  | tokenClass name =>
      cases second with
      | literal text => cases same
      | tokenClass other => exact congrArg Terminal.tokenClass spelling

end Terminal

namespace Pattern

mutual

/-- The pattern with other names for its classes. -/
def renameClasses (rename : String -> String) : Pattern -> Pattern
  | .terminal leaf => .terminal (leaf.renameClass rename)
  | .reference rule => .reference rule
  | .sequence factors => .sequence (renameClassesOfAll rename factors)
  | .choice alternatives => .choice (renameClassesOfAll rename alternatives)
  | .optional content => .optional (renameClasses rename content)

def renameClassesOfAll (rename : String -> String) : List Pattern -> List Pattern
  | [] => []
  | pattern :: rest => renameClasses rename pattern :: renameClassesOfAll rename rest

end

variable (rename : String -> String)

theorem renameClassesOfAll_eq_map (patterns : List Pattern) :
    renameClassesOfAll rename patterns = patterns.map (renameClasses rename) := by
  induction patterns with
  | nil => rfl
  | cons pattern rest inductionHypothesis => rw [renameClassesOfAll, inductionHypothesis, List.map_cons]

theorem renameClasses_sequence (factors : List Pattern) :
    (Pattern.sequence factors).renameClasses rename = .sequence (factors.map (renameClasses rename)) := by
  rw [renameClasses, renameClassesOfAll_eq_map]

theorem renameClasses_choice (alternatives : List Pattern) :
    (Pattern.choice alternatives).renameClasses rename = .choice (alternatives.map (renameClasses rename)) := by
  rw [renameClasses, renameClassesOfAll_eq_map]

mutual

/-- Classes that keep their names change nothing. -/
theorem renameClasses_id : ∀ pattern : Pattern, pattern.renameClasses id = pattern
  | .terminal leaf => congrArg Pattern.terminal leaf.renameClass_id
  | .reference _ => rfl
  | .sequence factors => congrArg Pattern.sequence (renameClassesOfAll_id factors)
  | .choice alternatives => congrArg Pattern.choice (renameClassesOfAll_id alternatives)
  | .optional content => congrArg Pattern.optional (renameClasses_id content)

theorem renameClassesOfAll_id : ∀ patterns : List Pattern, renameClassesOfAll id patterns = patterns
  | [] => rfl
  | pattern :: rest => congrArg₂ List.cons (renameClasses_id pattern) (renameClassesOfAll_id rest)

end

mutual

theorem references_renameClasses : ∀ pattern : Pattern, (pattern.renameClasses rename).references = pattern.references
  | .terminal _ => rfl
  | .reference _ => rfl
  | .sequence factors => referencesOfAll_renameClassesOfAll factors
  | .choice alternatives => referencesOfAll_renameClassesOfAll alternatives
  | .optional content => references_renameClasses content

theorem referencesOfAll_renameClassesOfAll :
    ∀ patterns : List Pattern, referencesOfAll (renameClassesOfAll rename patterns) = referencesOfAll patterns
  | [] => rfl
  | pattern :: rest => by
      rw [renameClassesOfAll, referencesOfAll, references_renameClasses pattern,
        referencesOfAll_renameClassesOfAll rest, referencesOfAll]

end

theorem hasReference_renameClasses (pattern : Pattern) :
    (pattern.renameClasses rename).hasReference = pattern.hasReference := by
  rw [hasReference, references_renameClasses, hasReference]

mutual

/-- What can match nothing does not depend on the names of classes, since no class is
the epsilon marker. -/
theorem isNullable_renameClasses (nullable : List String) :
    ∀ pattern : Pattern, (pattern.renameClasses rename).isNullable nullable = pattern.isNullable nullable
  | .terminal leaf => by
      rw [renameClasses, isNullable, isNullable, Bool.eq_iff_iff, beq_iff_eq, beq_iff_eq]
      exact Terminal.renameClass_eq_epsilon
  | .reference rule => rfl
  | .sequence factors => (isNullable_renameClassesOfAll nullable factors).1
  | .choice alternatives => (isNullable_renameClassesOfAll nullable alternatives).2
  | .optional content => rfl

theorem isNullable_renameClassesOfAll (nullable : List String) : ∀ patterns : List Pattern,
    areAllNullable nullable (renameClassesOfAll rename patterns) = areAllNullable nullable patterns ∧
      isAnyNullable nullable (renameClassesOfAll rename patterns) = isAnyNullable nullable patterns
  | [] => ⟨rfl, rfl⟩
  | pattern :: rest => by
      rcases isNullable_renameClassesOfAll nullable rest with ⟨all, any⟩
      rw [renameClassesOfAll, areAllNullable, isAnyNullable, isNullable_renameClasses nullable pattern, all, any]
      exact ⟨rfl, rfl⟩

end

theorem factors_renameClasses (pattern : Pattern) :
    (pattern.renameClasses rename).factors = pattern.factors.map (renameClasses rename) := by
  cases pattern with
  | sequence factors => exact renameClassesOfAll_eq_map rename factors
  | _ => rfl

theorem alternatives_renameClasses (pattern : Pattern) :
    (pattern.renameClasses rename).alternatives = pattern.alternatives.map (renameClasses rename) := by
  cases pattern with
  | choice alternatives => exact renameClassesOfAll_eq_map rename alternatives
  | _ => rfl

theorem selects_renameClasses (pattern : Pattern) : (pattern.renameClasses rename).selects = pattern.selects := by
  cases pattern <;> rfl

theorem renameClasses_eq_epsilon {pattern : Pattern} : pattern.renameClasses rename = epsilon ↔ pattern = epsilon := by
  cases pattern with
  | terminal leaf =>
      rw [renameClasses, epsilon, terminal.injEq, terminal.injEq]
      exact Terminal.renameClass_eq_epsilon
  | _ => exact ⟨nofun, nofun⟩

theorem isSome_firstLeaf?_renameClasses (pattern : Pattern) :
    (pattern.renameClasses rename).firstLeaf?.isSome = pattern.firstLeaf?.isSome := by
  have marker : (fun factor : Pattern => factor.renameClasses rename == epsilon) = (· == epsilon) := by
    funext factor
    rw [Bool.eq_iff_iff, beq_iff_eq, beq_iff_eq]
    exact renameClasses_eq_epsilon rename
  have factors : (pattern.renameClasses rename).factorsPastMarkers =
      pattern.factorsPastMarkers.map (renameClasses rename) := by
    rw [factorsPastMarkers, factors_renameClasses, List.dropWhile_map]
    exact congrArg (fun isMarker => (pattern.factors.dropWhile isMarker).map (renameClasses rename)) marker
  rw [firstLeaf?, firstLeaf?, factors]
  cases pattern.factorsPastMarkers with
  | nil => rfl
  | cons factor rest => cases factor <;> rfl

end Pattern

/-! ## Grammars -/

def Production.renameClasses (rename : String -> String) (production : Production) : Production :=
  ⟨production.name, production.root.renameClasses rename⟩

namespace Grammar

/-- The terminals that tables of the grammar speak about. -/
def terminals (grammar : Grammar) : List Terminal :=
  .epsilon :: grammar.leaves

theorem mem_terminals {grammar : Grammar} {leaf : Terminal} :
    leaf ∈ grammar.terminals ↔ leaf = .epsilon ∨ leaf ∈ grammar.leaves :=
  List.mem_cons

/-- Whether the productions of a grammar are those of another with other names for
the classes. -/
def RenamesTo (rename : String -> String) (grammar renamed : Grammar) : Prop :=
  renamed.productions = grammar.productions.map (Production.renameClasses rename)

instance (rename : String -> String) (grammar renamed : Grammar) : Decidable (RenamesTo rename grammar renamed) :=
  inferInstanceAs (Decidable (renamed.productions = grammar.productions.map (Production.renameClasses rename)))

variable {rename : String -> String} {grammar renamed : Grammar}

theorem names_eq_map_productions (grammar : Grammar) : grammar.names = grammar.productions.map (·.name) := by
  rw [productions, List.map_map]
  rfl

theorem RenamesTo.names_eq (renames : RenamesTo rename grammar renamed) : renamed.names = grammar.names := by
  rw [names_eq_map_productions, names_eq_map_productions, renames, List.map_map]
  rfl

theorem RenamesTo.mem (renames : RenamesTo rename grammar renamed) {production : Production}
    (declared : production ∈ grammar.productions) : production.renameClasses rename ∈ renamed.productions := by
  rw [renames]
  exact List.mem_map.mpr ⟨production, declared, rfl⟩

theorem RenamesTo.nullableAfter_eq (renames : RenamesTo rename grammar renamed) (rounds : Nat) :
    renamed.nullableAfter rounds = grammar.nullableAfter rounds := by
  induction rounds with
  | zero => rfl
  | succ rounds inductionHypothesis =>
      have roots : (fun production : Production =>
            (production.renameClasses rename).root.isNullable (grammar.nullableAfter rounds)) =
          fun production => production.root.isNullable (grammar.nullableAfter rounds) :=
        funext fun production => Pattern.isNullable_renameClasses rename _ production.root
      rw [nullableAfter, nullableAfter, nullableGiven, nullableGiven, inductionHypothesis, renames, List.filter_map,
        List.map_map]
      exact congrArg (fun isNullable => (grammar.productions.filter isNullable).map (·.name)) roots

/-- The rules that can match nothing stay the same whatever the new names are. -/
theorem RenamesTo.nullableRules_eq (renames : RenamesTo rename grammar renamed) :
    renamed.nullableRules = grammar.nullableRules := by
  have size : renamed.size = grammar.size := by
    rw [← length_names, ← length_names, renames.names_eq]
  rw [nullableRules, nullableRules, size, renames.nullableAfter_eq]

theorem RenamesTo.isNullable_eq (renames : RenamesTo rename grammar renamed) (pattern : Pattern) :
    renamed.analysis.isNullable (pattern.renameClasses rename) = grammar.analysis.isNullable pattern := by
  have rules : renamed.analysis.nullable = grammar.analysis.nullable := renames.nullableRules_eq
  rw [Analysis.isNullable, rules, Pattern.isNullable_renameClasses, Analysis.isNullable]

end Grammar

/-! ## Lookahead tables -/

def LookaheadEntry.renameClasses (rename : String -> String) (entry : LookaheadEntry) : LookaheadEntry :=
  ⟨entry.terminal.renameClass rename, entry.producer, entry.branch.renameClasses rename⟩

theorem LookaheadEntry.renameClasses_id (entry : LookaheadEntry) : entry.renameClasses id = entry := by
  rw [renameClasses, Terminal.renameClass_id, Pattern.renameClasses_id]

namespace Lookahead

/-- Whether a table is another one with other names for the classes, where that one
speaks about the given leaves only. -/
structure RenamesTo (leaves : List Terminal) (rename : String -> String) (table renamed : Lookahead) : Prop where
  /-- The entries are renamed one by one. -/
  entries : renamed.entries = table.entries.map (LookaheadEntry.renameClasses rename)
  /-- The terminals are known. -/
  known : ∀ entry ∈ table.entries, entry.terminal ∈ Terminal.epsilon :: leaves

namespace RenamesTo

variable {leaves : List Terminal} {rename : String -> String} {table renamed later laterRenamed : Lookahead}

theorem empty : RenamesTo leaves rename .empty .empty where
  entries := rfl
  known := nofun

theorem eq_of_id (renames : RenamesTo leaves id table renamed) : renamed = table := by
  have same : renamed.entries = table.entries := by
    rw [renames.entries]
    exact List.map_id'' LookaheadEntry.renameClasses_id _
  cases renamed
  cases table
  cases same
  rfl

theorem single {entry : LookaheadEntry} (known : entry.terminal ∈ Terminal.epsilon :: leaves) :
    RenamesTo leaves rename (.single entry) (.single (entry.renameClasses rename)) where
  entries := rfl
  known := List.forall_mem_singleton.mpr known

theorem marker (owner : String) (branch : Pattern) :
    RenamesTo leaves rename (.single ⟨.epsilon, owner, branch⟩)
      (.single ⟨.epsilon, owner, branch.renameClasses rename⟩) :=
  single List.mem_cons_self

theorem towards (renames : RenamesTo leaves rename table renamed) (branch : Pattern) :
    RenamesTo leaves rename (table.towards branch) (renamed.towards (branch.renameClasses rename)) where
  entries := by
    change renamed.entries.map _ = (table.entries.map _).map _
    rw [renames.entries, List.map_map, List.map_map]
    rfl
  known := by
    intro entry member
    rcases List.mem_map.mp member with ⟨inner, inside, rfl⟩
    exact renames.known inner inside

section

variable (keeps : Terminal.KeepsSpellings rename (.epsilon :: leaves))

include keeps

theorem spelling_mem_spellings (renames : RenamesTo leaves rename table renamed) {leaf : Terminal}
    (known : leaf ∈ Terminal.epsilon :: leaves) :
    (leaf.renameClass rename).spelling ∈ renamed.spellings ↔ leaf.spelling ∈ table.spellings := by
  rw [spellings, spellings, renames.entries, List.map_map, List.mem_map, List.mem_map]
  exact exists_congr fun entry => and_congr_right fun member => keeps _ (renames.known entry member) _ known

theorem admitsNothing_eq (renames : RenamesTo leaves rename table renamed) :
    renamed.admitsNothing = table.admitsNothing := by
  rw [admitsNothing, admitsNothing, Bool.eq_iff_iff, List.contains_iff_mem, List.contains_iff_mem]
  exact renames.spelling_mem_spellings keeps (show Terminal.epsilon ∈ _ from List.mem_cons_self)

theorem isEpsilon_renameClasses {entry : LookaheadEntry} (known : entry.terminal ∈ Terminal.epsilon :: leaves) :
    (entry.renameClasses rename).isEpsilon = entry.isEpsilon := by
  rw [LookaheadEntry.isEpsilon, LookaheadEntry.isEpsilon, Bool.eq_iff_iff, beq_iff_eq, beq_iff_eq]
  exact keeps _ known .epsilon List.mem_cons_self

theorem tokenEntries_eq (renames : RenamesTo leaves rename table renamed) :
    renamed.tokenEntries = table.tokenEntries.map (LookaheadEntry.renameClasses rename) := by
  rw [tokenEntries, tokenEntries, renames.entries, List.filter_map]
  refine congrArg _ (List.filter_congr fun entry member => ?_)
  exact congrArg _ (isEpsilon_renameClasses keeps (renames.known entry member))

theorem withoutEpsilon (renames : RenamesTo leaves rename table renamed) :
    RenamesTo leaves rename table.withoutEpsilon renamed.withoutEpsilon where
  entries := renames.tokenEntries_eq keeps
  known entry member := renames.known entry (mem_withoutEpsilon.mp member).1

theorem merge (renames : RenamesTo leaves rename table renamed)
    (laterRenames : RenamesTo leaves rename later laterRenamed) :
    RenamesTo leaves rename (table.merge later) (renamed.merge laterRenamed) where
  entries := by
    have fresh : ∀ entry ∈ later.entries, (!renamed.spellings.contains (entry.renameClasses rename).spelling) =
        !table.spellings.contains entry.spelling := by
      intro entry member
      apply congrArg
      rw [Bool.eq_iff_iff, List.contains_iff_mem, List.contains_iff_mem]
      exact renames.spelling_mem_spellings keeps (laterRenames.known entry member)
    change renamed.entries ++ laterRenamed.entries.filter _ = (table.entries ++ later.entries.filter _).map _
    rw [renames.entries, laterRenames.entries, List.filter_map, List.map_append]
    exact congrArg (fun kept => _ ++ List.map _ kept) (List.filter_congr fresh)
  known := by
    intro entry member
    rcases mem_merge.mp member with early | late
    · exact renames.known entry early
    · exact laterRenames.known entry late.1

theorem marked (renames : RenamesTo leaves rename table renamed) {marks otherMarks : Bool} (same : otherMarks = marks)
    (owner : String) (branch : Pattern) :
    RenamesTo leaves rename (if marks then table.merge (.single ⟨.epsilon, owner, branch⟩) else table)
      (if otherMarks then renamed.merge (.single ⟨.epsilon, owner, branch.renameClasses rename⟩) else renamed) := by
  rw [same]
  split
  · exact renames.merge keeps (marker owner branch)
  · exact renames

end

end RenamesTo
end Lookahead

end PredictiveParsing
