import PredictiveParsing.Pattern.Basic

namespace PredictiveParsing

/-!
# Lookahead tables

A lookahead table lists the terminals that a pattern can begin with.  Each entry
says whose right-hand side the terminal stands in and which part of the pattern
to take on seeing it.  No spelling has two entries: an entry that comes later
gives way, even where a class comes after a literal of the same spelling.  The
entry of the epsilon marker says that the pattern can match nothing.

Main statements: merging keeps every spelling of both tables and, for a spelling
that both have, the entry of the first; choosing a part changes no spelling.
-/

/-- One terminal that a pattern can begin with. -/
structure LookaheadEntry where
  /-- What the next token has to be. -/
  terminal : Terminal
  /-- The rule in whose right-hand side the terminal stands. -/
  producer : String
  /-- The part of the pattern to take. -/
  branch : Pattern
deriving DecidableEq

namespace LookaheadEntry

/-- The text that the entry is found under. -/
def spelling (entry : LookaheadEntry) : String :=
  entry.terminal.spelling

/-- Whether the entry stands for matching nothing. -/
def isEpsilon (entry : LookaheadEntry) : Bool :=
  entry.spelling == Terminal.epsilonText

end LookaheadEntry

/-- The terminals that a pattern can begin with, in the order of their discovery. -/
structure Lookahead where
  /-- One entry for each terminal. -/
  entries : List LookaheadEntry
  /-- No spelling has two entries. -/
  distinct : (entries.map (·.spelling)).Nodup

namespace Lookahead

def empty : Lookahead := ⟨[], List.nodup_nil⟩

def single (entry : LookaheadEntry) : Lookahead :=
  ⟨[entry], List.nodup_cons.mpr ⟨List.not_mem_nil, List.nodup_nil⟩⟩

def spellings (table : Lookahead) : List String :=
  table.entries.map (·.spelling)

/-- Whether the pattern can match nothing. -/
def admitsNothing (table : Lookahead) : Bool :=
  table.spellings.contains Terminal.epsilonText

def tokenEntries (table : Lookahead) : List LookaheadEntry :=
  table.entries.filter (!·.isEpsilon)

/-- The same entries, all of them taking the same part. -/
def towards (branch : Pattern) (table : Lookahead) : Lookahead where
  entries := table.entries.map fun entry => { entry with branch }
  distinct := by
    rw [List.map_map]
    exact table.distinct

/-- The table without the entry of the epsilon marker. -/
def withoutEpsilon (table : Lookahead) : Lookahead where
  entries := table.tokenEntries
  distinct := table.distinct.sublist (List.filter_sublist.map _)

/-- The entries of both tables, of which the first table's come first and win. -/
def merge (first second : Lookahead) : Lookahead where
  entries := first.entries ++
    second.entries.filter fun entry => !first.spellings.contains entry.spelling
  distinct := by
    rw [List.map_append]
    refine List.nodup_append.mpr
      ⟨first.distinct, second.distinct.sublist (List.filter_sublist.map _), ?_⟩
    intro left leftMember right rightMember equal
    obtain ⟨entry, kept, rfl⟩ := List.mem_map.mp rightMember
    have fresh := (List.mem_filter.mp kept).2
    subst equal
    simp [spellings] at fresh leftMember
    obtain ⟨known, member, same⟩ := leftMember
    exact fresh known member same

/-! ## What the operations keep -/

theorem spellings_towards (branch : Pattern) (table : Lookahead) :
    (table.towards branch).spellings = table.spellings :=
  List.map_map

theorem branch_of_mem_towards {table : Lookahead} {branch : Pattern} {entry : LookaheadEntry}
    (member : entry ∈ (table.towards branch).entries) : entry.branch = branch := by
  obtain ⟨_, _, rfl⟩ := List.mem_map.mp member
  rfl

theorem mem_withoutEpsilon {table : Lookahead} {entry : LookaheadEntry} :
    entry ∈ table.withoutEpsilon.entries ↔ entry ∈ table.entries ∧ entry.isEpsilon = false := by
  simp only [withoutEpsilon, tokenEntries, List.mem_filter, Bool.not_eq_true']

theorem mem_merge {first second : Lookahead} {entry : LookaheadEntry} :
    entry ∈ (first.merge second).entries ↔
      entry ∈ first.entries ∨ entry ∈ second.entries ∧ entry.spelling ∉ first.spellings := by
  simp only [merge, List.mem_append, List.mem_filter, Bool.not_eq_true', List.contains_eq_mem,
    decide_eq_false_iff_not]

/-- What is in a table to which a marker may have been added. -/
theorem mem_of_mem_marked {table : Lookahead} {marks : Bool} {marker entry : LookaheadEntry}
    (member : entry ∈ (if marks then table.merge (.single marker) else table).entries) :
    entry ∈ table.entries ∨ marks = true ∧ entry = marker := by
  split at member
  · rename_i added
    rcases mem_merge.mp member with early | late
    · exact Or.inl early
    · exact Or.inr ⟨added, List.mem_singleton.mp late.1⟩
  · exact Or.inl member

theorem mem_spellings_merge {first second : Lookahead} {spelling : String} :
    spelling ∈ (first.merge second).spellings ↔
      spelling ∈ first.spellings ∨ spelling ∈ second.spellings := by
  constructor
  · intro member
    obtain ⟨entry, found, rfl⟩ := List.mem_map.mp member
    rcases mem_merge.mp found with early | late
    · exact Or.inl (List.mem_map.mpr ⟨entry, early, rfl⟩)
    · exact Or.inr (List.mem_map.mpr ⟨entry, late.1, rfl⟩)
  · intro member
    by_cases early : spelling ∈ first.spellings
    · obtain ⟨entry, found, rfl⟩ := List.mem_map.mp early
      exact List.mem_map.mpr ⟨entry, mem_merge.mpr (Or.inl found), rfl⟩
    · obtain ⟨entry, found, rfl⟩ := List.mem_map.mp (member.resolve_left early)
      exact List.mem_map.mpr ⟨entry, mem_merge.mpr (Or.inr ⟨found, early⟩), rfl⟩

theorem spellings_subset_marked (table : Lookahead) (marks : Bool) (marker : LookaheadEntry) :
    table.spellings ⊆ (if marks then table.merge (.single marker) else table).spellings := by
  intro spelling member
  split
  · exact mem_spellings_merge.mpr (Or.inl member)
  · exact member

end Lookahead
end PredictiveParsing
