import Mathlib.Data.List.Perm.Basic
import Mathlib.Data.List.Range
import PredictiveParsing.Dialect.Journal

namespace PredictiveParsing

/-!
# Journals read back

A journal carries all of a program but the types of its globals and the
signatures of its routines.  It is read from its first note to its last, each
note in the light of what the notes before it were read as, and what its last
note says is the program again, with mismatches as the calls that report them.

Writing keeps one invariant, `Journal.Segment`: in what has been written, each
note is a part of one later note or is still to become one, and the numbers that
are still to become parts are exactly those in the writer's hands.  The
invariant holds of single notes and is closed under writing one thing after
another, so each function of the walk has one lemma that puts these together.

The main statement is `Journal.tells_ofProgram`.
-/

/-! ## What a journal says -/

namespace Statement

mutual

/-- The statement with its mismatches as calls of the routine that reports them. -/
def asCalls : Statement -> Statement
  | .mismatch position expected => .call Support.expect [position, .text expected]
  | .branch arms fallback => .branch (armsAsCalls arms) (fallbackAsCalls fallback)
  | statement => statement

def blockAsCalls : List Statement -> List Statement
  | [] => []
  | statement :: rest => asCalls statement :: blockAsCalls rest

def armsAsCalls : List (Expression × List Statement) -> List (Expression × List Statement)
  | [] => []
  | (condition, body) :: rest => (condition, blockAsCalls body) :: armsAsCalls rest

def fallbackAsCalls : Option (List Statement) -> Option (List Statement)
  | none => none
  | some body => some (blockAsCalls body)

end

end Statement

/-- A definition without the types in it. -/
inductive Item where
  | global (name : String)
  /-- A routine and what it does. -/
  | routine (name : String) (body : List Statement)

def Definition.item : Definition -> Item
  | .global variableDefinition => .global variableDefinition.name
  | .routine routineDefinition =>
      .routine routineDefinition.name (Statement.blockAsCalls routineDefinition.body)

/-- What a note says together with its parts. -/
inductive Reading where
  | expression (written : Expression)
  | statement (read : Statement)
  | item (read : Item)
  /-- The definitions of a program in order. -/
  | program (items : List Item)

namespace Reading

def expression? : Reading -> Option Expression
  | .expression written => some written
  | _ => none

def statement? : Reading -> Option Statement
  | .statement read => some read
  | _ => none

def item? : Reading -> Option Item
  | .item read => some read
  | _ => none

def program? : Reading -> Option (List Item)
  | .program items => some items
  | _ => none

end Reading

/-! ## Reading a journal -/

namespace Journal

/-- The expression that the numbered note says, if it says one. -/
def expressionAt? (known : List Reading) (number : Nat) : Option Expression :=
  known[number]?.bind Reading.expression?

def statementAt? (known : List Reading) (number : Nat) : Option Statement :=
  known[number]?.bind Reading.statement?

def itemAt? (known : List Reading) (number : Nat) : Option Item :=
  known[number]?.bind Reading.item?

/-- The statements that the numbered notes say, if each says one. -/
def blockAt? (known : List Reading) (numbers : List Nat) : Option (List Statement) :=
  numbers.mapM (statementAt? known)

def armsAt? (known : List Reading) (arms : List (Nat × List Nat)) :
    Option (List (Expression × List Statement)) :=
  arms.mapM fun arm => do
    let condition ← expressionAt? known arm.1
    return (condition, ← blockAt? known arm.2)

def fallbackAt? (known : List Reading) : Option (List Nat) -> Option (Option (List Statement))
  | none => some none
  | some numbers => (blockAt? known numbers).map some

end Journal

namespace Note

open Journal

/-- The numbers in a note, in the order in which they stand there. -/
def parts : Note -> List Nat
  | .routine _ body => body
  | .assign _ value => [value]
  | .call _ arguments => arguments
  | .branch arms fallback => arms.flatMap (fun arm => arm.1 :: arm.2) ++ fallback.getD []
  | .leave value => value.toList
  | .finish definitions => definitions
  | _ => []

/-- Whether the note puts a program together. -/
def isFinish : Note -> Bool
  | .finish _ => true
  | _ => false

/-- What a note says, given what the notes before it say. -/
def reading? (known : List Reading) : Note -> Option Reading
  | .expression written => some (.expression written)
  | .global name => some (.item (.global name))
  | .routine name body => do return .item (.routine name (← blockAt? known body))
  | .comment text => some (.statement (.comment text))
  | .declare name type => some (.statement (.declare name type))
  | .assign name value => do return .statement (.assign name (← expressionAt? known value))
  | .call name arguments => do
      return .statement (.call name (← arguments.mapM (expressionAt? known)))
  | .branch arms fallback => do
      let arms ← armsAt? known arms
      return .statement (.branch arms (← fallbackAt? known fallback))
  | .leave none => some (.statement (.leave none))
  | .leave (some value) => do return .statement (.leave (some (← expressionAt? known value)))
  | .primitive operation => some (.statement (.primitive operation))
  | .finish definitions => do return .program (← definitions.mapM (itemAt? known))

end Note

namespace Journal

def readNext (known : List Reading) (note : Note) : Option (List Reading) := do
  return known ++ [← note.reading? known]

/-- What each of the notes says, if all of them can be read. -/
def readings? (notes : List Note) : Option (List Reading) :=
  notes.foldlM readNext []

/-- The definitions of the program that the last note says. -/
def rebuild? (notes : List Note) : Option (List Item) := do
  let readings ← readings? notes
  (← readings.getLast?).program?

/-- Notes that say the definitions and hold nothing twice and nothing beside them. -/
structure Tells (notes : List Note) (items : List Item) : Prop where
  /-- Reading the notes gives the definitions back. -/
  rebuilds : rebuild? notes = some items
  /-- Every note but the last is a part of exactly one note, and the last is part of none. -/
  onceEach : (notes.flatMap Note.parts).Perm (List.range (notes.length - 1))
  /-- What is a part of a note stands before it. -/
  earlier : ∀ (number : Nat) (note : Note), notes[number]? = some note -> ∀ part ∈ note.parts, part < number
  /-- The parts of a note stand in the order in which they were written. -/
  inOrder : ∀ note ∈ notes, note.parts.Pairwise (· < ·)
  /-- One note puts the program together: the last, whose parts say the definitions in order. -/
  finishes : ∃ front definitions known, notes = front ++ [.finish definitions] ∧
    (∀ note ∈ front, note.isFinish = false) ∧ readings? front = some known ∧
    definitions.mapM (itemAt? known) = some items

/-! ## Segments -/

/-- Notes written from a number on, the numbers among them that are not parts yet, and what can be said
once the notes have been read, whatever is read after them. -/
structure Segment (start : Nat) (notes : List Note) (roots : List Nat) (said : List Reading -> Prop) :
    Prop where
  /-- Each note is a part of exactly one of the notes or one of the roots. -/
  onceEach : (notes.flatMap Note.parts ++ roots).Perm (List.range' start notes.length)
  /-- What is a part of a note stands before it. -/
  earlier : ∀ (number : Nat) (note : Note), notes[number]? = some note ->
    ∀ part ∈ note.parts, part < start + number
  /-- The parts of a note stand in the order in which they were written. -/
  inOrder : ∀ note ∈ notes, note.parts.Pairwise (· < ·)
  /-- So do the roots. -/
  rootsInOrder : roots.Pairwise (· < ·)
  /-- All of the notes can be read. -/
  reads : ∀ known, known.length = start -> ∃ more, more.length = notes.length ∧
    notes.foldlM readNext known = some (known ++ more) ∧ ∀ later, said (known ++ more ++ later)

namespace Segment

variable {start : Nat} {notes others : List Note} {roots otherRoots : List Nat}
variable {said otherSaid : List Reading -> Prop}

theorem nil (holds : ∀ known, said known) : Segment start [] [] said where
  onceEach := List.Perm.refl _
  earlier number note found := by simp at found
  inOrder note member := absurd member List.not_mem_nil
  rootsInOrder := List.Pairwise.nil
  reads known _ := ⟨[], rfl, by simp, fun _ => holds _⟩

theorem mono (segment : Segment start notes roots said) (gives : ∀ known, said known -> otherSaid known) :
    Segment start notes roots otherSaid where
  onceEach := segment.onceEach
  earlier := segment.earlier
  inOrder := segment.inOrder
  rootsInOrder := segment.rootsInOrder
  reads known length := by
    rcases segment.reads known length with ⟨more, sameLength, reads, holds⟩
    exact ⟨more, sameLength, reads, fun later => gives _ (holds later)⟩

theorem bounds_of_mem_roots (segment : Segment start notes roots said) {root : Nat} (member : root ∈ roots) :
    start ≤ root ∧ root < start + notes.length :=
  List.mem_range'_1.mp (segment.onceEach.mem_iff.mp (List.mem_append_right _ member))

/-- Segments one after the other.  Each keeps its roots, since no note refers to another segment's notes. -/
theorem append (first : Segment start notes roots said)
    (second : Segment (start + notes.length) others otherRoots otherSaid) :
    Segment start (notes ++ others) (roots ++ otherRoots) fun known => said known ∧ otherSaid known where
  onceEach := by
    have regrouped : ((notes ++ others).flatMap Note.parts ++ (roots ++ otherRoots)).Perm
        ((notes.flatMap Note.parts ++ roots) ++ (others.flatMap Note.parts ++ otherRoots)) := by
      rw [List.flatMap_append, List.append_assoc, List.append_assoc]
      refine List.Perm.append_left _ ?_
      rw [← List.append_assoc, ← List.append_assoc]
      exact List.Perm.append_right _ List.perm_append_comm
    rw [List.length_append, ← List.range'_append_1]
    exact regrouped.trans (first.onceEach.append second.onceEach)
  earlier number note found part member := by
    rcases Nat.lt_or_ge number notes.length with inFirst | inSecond
    · rw [List.getElem?_append_left inFirst] at found
      exact first.earlier number note found part member
    · rw [List.getElem?_append_right inSecond] at found
      have := second.earlier _ note found part member
      omega
  inOrder note member := by
    rcases List.mem_append.mp member with inFirst | inSecond
    · exact first.inOrder note inFirst
    · exact second.inOrder note inSecond
  rootsInOrder := by
    refine List.pairwise_append.mpr ⟨first.rootsInOrder, second.rootsInOrder, ?_⟩
    intro root member later laterMember
    exact Nat.lt_of_lt_of_le (first.bounds_of_mem_roots member).2 (second.bounds_of_mem_roots laterMember).1
  reads known length := by
    rcases first.reads known length with ⟨more, sameLength, reads, holds⟩
    have fullLength : (known ++ more).length = start + notes.length := by simp [length, sameLength]
    rcases second.reads (known ++ more) fullLength with ⟨further, furtherLength, readsOn, holdsOn⟩
    refine ⟨more ++ further, by simp [sameLength, furtherLength], ?_, fun later => ⟨?_, ?_⟩⟩
    · rw [List.foldlM_append, reads]
      simpa using readsOn
    · simpa using holds (further ++ later)
    · simpa using holdsOn later

/-- A note whose parts are the roots becomes the only root. -/
theorem note (segment : Segment start notes roots said) {note : Note} (parts : note.parts = roots)
    {reading : Reading} (reads : ∀ known, said known -> note.reading? known = some reading) :
    Segment start (notes ++ [note]) [start + notes.length]
      fun known => known[start + notes.length]? = some reading where
  onceEach := by
    rw [List.flatMap_append, List.length_append, ← List.range'_append_1]
    have joined := segment.onceEach.append_right [start + notes.length]
    simpa [parts] using joined
  earlier number later found part member := by
    rcases Nat.lt_or_ge number notes.length with inFront | atEnd
    · rw [List.getElem?_append_left inFront] at found
      exact segment.earlier number later found part member
    · rw [List.getElem?_append_right atEnd, List.getElem?_singleton] at found
      split at found
      · cases found
        have := (segment.bounds_of_mem_roots (parts ▸ member)).2
        omega
      · cases found
  inOrder later member := by
    rcases List.mem_append.mp member with inFront | atEnd
    · exact segment.inOrder later inFront
    · rw [List.mem_singleton.mp atEnd, parts]
      exact segment.rootsInOrder
  rootsInOrder := List.pairwise_singleton _ _
  reads known length := by
    rcases segment.reads known length with ⟨more, sameLength, readsFront, holds⟩
    have last : note.reading? (known ++ more) = some reading := reads _ (by simpa using holds [])
    refine ⟨more ++ [reading], by simp [sameLength], ?_, fun later => ?_⟩
    · rw [List.foldlM_append, readsFront]
      simp [readNext, last]
    · simp [← length, ← sameLength]

end Segment

/-! ## Writers -/

/-- The writer adds a segment whose roots are in its result, and what can be said is about that result.
Putting a program together is not its task. -/
def Writes {Result : Type} (writer : StateM (List Note) Result) (roots : Result -> List Nat)
    (said : List Reading -> Result -> Prop) : Prop :=
  ∀ before, ∃ result notes, writer before = (result, before ++ notes) ∧
    (∀ note ∈ notes, note.isFinish = false) ∧
    Segment before.length notes (roots result) fun known => said known result

namespace Writes

variable {First Second Result : Type} {firstWriter : StateM (List Note) First}
variable {secondWriter : StateM (List Note) Second} {firstRoots : First -> List Nat}
variable {secondRoots : Second -> List Nat} {firstSaid : List Reading -> First -> Prop}
variable {secondSaid : List Reading -> Second -> Prop} {roots : Result -> List Nat}
variable {said : List Reading -> Result -> Prop}

theorem pure (result : Result) (rootless : roots result = []) (holds : ∀ known, said known result) :
    Writes (Pure.pure result) roots said := by
  intro before
  refine ⟨result, [], ?_, List.forall_mem_nil _, ?_⟩
  · rw [List.append_nil]
    rfl
  · rw [rootless]
    exact .nil holds

theorem mono (writes : Writes firstWriter firstRoots firstSaid) {otherSaid : List Reading -> First -> Prop}
    (gives : ∀ known value, firstSaid known value -> otherSaid known value) :
    Writes firstWriter firstRoots otherSaid := by
  intro before
  rcases writes before with ⟨value, notes, written, unfinished, segment⟩
  exact ⟨value, notes, written, unfinished, segment.mono fun known => gives known value⟩

/-- What two writers write one after the other. -/
theorem both (first : Writes firstWriter firstRoots firstSaid)
    (second : Writes secondWriter secondRoots secondSaid) (combine : First -> Second -> Result)
    (rootsOfBoth : ∀ value other, roots (combine value other) = firstRoots value ++ secondRoots other)
    (saidOfBoth : ∀ known value other, firstSaid known value -> secondSaid known other ->
      said known (combine value other)) :
    Writes (do let value ← firstWriter; return combine value (← secondWriter)) roots said := by
  intro before
  rcases first before with ⟨value, notes, written, unfinished, segment⟩
  rcases second (before ++ notes) with ⟨other, further, writtenNext, unfinishedNext, next⟩
  refine ⟨combine value other, notes ++ further, ?_, List.forall_mem_append.mpr ⟨unfinished, unfinishedNext⟩, ?_⟩
  · -- The second writer goes on with the notes that the first one leaves.
    change (secondWriter (firstWriter before).2).map (combine (firstWriter before).1) id = _
    rw [written, writtenNext, List.append_assoc]
    rfl
  · rw [rootsOfBoth]
    rw [List.length_append] at next
    exact (segment.append next).mono fun known holds => saidOfBoth known value other holds.1 holds.2

theorem pair (first : Writes firstWriter firstRoots firstSaid)
    (second : Writes secondWriter secondRoots secondSaid) :
    Writes (do let value ← firstWriter; return (value, ← secondWriter))
      (fun both => firstRoots both.1 ++ secondRoots both.2)
      fun known both => firstSaid known both.1 ∧ secondSaid known both.2 :=
  first.both second Prod.mk (fun _ _ => rfl) fun _ _ _ => And.intro

/-- A note whose parts a writer has just written. -/
theorem noted (first : Writes firstWriter firstRoots firstSaid) (note : First -> Note)
    (unfinished : ∀ value, (note value).isFinish = false) (parts : ∀ value, (note value).parts = firstRoots value)
    {reading : Reading}
    (reads : ∀ known value, firstSaid known value -> (note value).reading? known = some reading) :
    Writes (do add (note (← firstWriter))) ([·]) fun known number => known[number]? = some reading := by
  intro before
  rcases first before with ⟨value, notes, written, others, segment⟩
  refine ⟨(before ++ notes).length, notes ++ [note value], ?_, ?_, ?_⟩
  · change add (note (firstWriter before).1) (firstWriter before).2 = _
    rw [written, ← List.append_assoc]
    rfl
  · exact List.forall_mem_append.mpr ⟨others, List.forall_mem_singleton.mpr (unfinished value)⟩
  · rw [List.length_append]
    exact segment.note (parts value) fun known => reads known value

theorem nothing : Writes (Pure.pure ()) (fun _ => []) fun _ _ => True :=
  .pure () rfl fun _ => trivial

/-- A note without parts. -/
theorem alone (note : Note) (unfinished : note.isFinish = false) (partless : note.parts = []) {reading : Reading}
    (reads : ∀ known, note.reading? known = some reading) :
    Writes (add note) ([·]) fun known number => known[number]? = some reading :=
  nothing.noted (fun _ => note) (fun _ => unfinished) (fun _ => partless) fun known _ _ => reads known

end Writes

/-! ## What the writers of a program write -/

open Statement (blockAsCalls armsAsCalls fallbackAsCalls)

theorem mapM_cons_of_eq_some {α β : Type} {read : α -> Option β} {first : α} {rest : List α} {value : β}
    {values : List β} (readFirst : read first = some value) (readRest : rest.mapM read = some values) :
    (first :: rest).mapM read = some (value :: values) := by
  rw [List.mapM_cons, readFirst, readRest]
  rfl

theorem expressionAt?_eq_some {known : List Reading} {number : Nat} {expression : Expression}
    (found : known[number]? = some (.expression expression)) : expressionAt? known number = some expression := by
  rw [expressionAt?, found]
  rfl

theorem statementAt?_eq_some {known : List Reading} {number : Nat} {statement : Statement}
    (found : known[number]? = some (.statement statement)) : statementAt? known number = some statement := by
  rw [statementAt?, found]
  rfl

theorem itemAt?_eq_some {known : List Reading} {number : Nat} {item : Item}
    (found : known[number]? = some (.item item)) : itemAt? known number = some item := by
  rw [itemAt?, found]
  rfl

/-- The writer writes what is read as the statement. -/
def WritesStatement (writer : StateM (List Note) Nat) (statement : Statement) : Prop :=
  Writes writer ([·]) fun known number => known[number]? = some (.statement statement)

theorem writes_expression (expression : Expression) :
    Writes (dialect.expression expression) ([·]) fun known number => expressionAt? known number = some expression :=
  (Writes.alone (.expression expression) rfl rfl fun _ => rfl).mono fun _ _ => expressionAt?_eq_some

theorem writes_writeExpressions (expressions : List Expression) :
    Writes (dialect.writeExpressions expressions) id
      fun known numbers => numbers.mapM (expressionAt? known) = some expressions := by
  induction expressions with
  | nil => exact .pure [] rfl fun _ => rfl
  | cons expression rest inductionHypothesis =>
      exact (writes_expression expression).both inductionHypothesis List.cons (fun _ _ => rfl)
        fun _ _ _ => mapM_cons_of_eq_some

theorem writes_call (routine : String) {arguments : List Expression} {writer : StateM (List Note) (List Nat)}
    (writes : Writes writer id fun known numbers => numbers.mapM (expressionAt? known) = some arguments) :
    WritesStatement (do dialect.call routine (← writer)) (.call routine arguments) :=
  writes.noted (.call routine) (fun _ => rfl) (fun _ => rfl) fun known numbers read => by
    rw [Note.reading?, read]
    rfl

theorem writes_writeMismatch (position : Expression) (expected : String) :
    WritesStatement (dialect.writeMismatch position expected) (.call Support.expect [position, .text expected]) :=
  writes_call Support.expect ((writes_expression position).both (writes_writeExpressions [.text expected]) List.cons
    (fun _ _ => rfl) fun _ _ _ => mapM_cons_of_eq_some)

mutual

theorem writes_writeStatement : ∀ statement : Statement,
    WritesStatement (dialect.writeStatement statement) statement.asCalls
  | .comment text => .alone (.comment text) rfl rfl fun _ => rfl
  | .declare name type => .alone (.declare name type) rfl rfl fun _ => rfl
  | .assign name value =>
      (writes_expression value).noted (.assign name) (fun _ => rfl) (fun _ => rfl) fun known number read => by
        rw [Note.reading?, read]
        rfl
  | .call routine arguments => writes_call routine (writes_writeExpressions arguments)
  | .branch arms fallback => by
      refine ((writes_writeArms arms).pair (writes_writeFallback fallback)).noted
        (fun parts => .branch parts.1 parts.2) (fun _ => rfl) (fun _ => rfl) ?_
      intro known parts read
      rw [Note.reading?, read.1, read.2]
      rfl
  | .mismatch position expected => writes_writeMismatch position expected
  | .leave none => .alone (.leave none) rfl rfl fun _ => rfl
  | .leave (some value) =>
      (writes_expression value).noted (fun number => .leave (some number)) (fun _ => rfl) (fun _ => rfl)
        fun known number read => by
          rw [Note.reading?, read]
          rfl
  | .primitive operation => .alone (.primitive operation) rfl rfl fun _ => rfl

theorem writes_writeBlock : ∀ statements : List Statement,
    Writes (dialect.writeBlock statements) id
      fun known numbers => blockAt? known numbers = some (blockAsCalls statements)
  | [] => .pure [] rfl fun _ => rfl
  | statement :: rest =>
      (writes_writeStatement statement).both (writes_writeBlock rest) List.cons (fun _ _ => rfl)
        fun _ _ _ found => mapM_cons_of_eq_some (statementAt?_eq_some found)

theorem writes_writeArms : ∀ arms : List (Expression × List Statement),
    Writes (dialect.writeArms arms) (fun arms => arms.flatMap fun arm => arm.1 :: arm.2)
      fun known written => armsAt? known written = some (armsAsCalls arms)
  | [] => .pure [] rfl fun _ => rfl
  | (condition, body) :: rest => by
      refine ((writes_expression condition).pair (writes_writeBlock body)).both (writes_writeArms rest) List.cons
        (fun _ _ => rfl) ?_
      intro known arm others read readOthers
      refine mapM_cons_of_eq_some ?_ readOthers
      rw [read.1, read.2]
      rfl

theorem writes_writeFallback : ∀ fallback : Option (List Statement),
    Writes (dialect.writeFallback fallback) (·.getD [])
      fun known written => fallbackAt? known written = some (fallbackAsCalls fallback)
  | none => .pure none rfl fun _ => rfl
  | some body => by
      refine (writes_writeBlock body).both .nothing (fun numbers _ => some numbers)
        (fun _ _ => (List.append_nil _).symm) ?_
      intro known numbers _ read _
      rw [fallbackAt?, read]
      rfl

end

theorem writes_global (variableDefinition : GlobalVariable) :
    Writes (dialect.global variableDefinition) ([·])
      fun known number => itemAt? known number = some (Definition.global variableDefinition).item :=
  (Writes.alone (.global variableDefinition.name) rfl rfl fun _ => rfl).mono fun _ _ => itemAt?_eq_some

theorem writes_writeRoutine (routine : Routine) :
    Writes (dialect.writeRoutine routine) ([·])
      fun known number => itemAt? known number = some (Definition.routine routine).item := by
  refine Writes.mono ((writes_writeBlock routine.body).noted (.routine routine.name) (fun _ => rfl)
    (fun _ => rfl) ?_) fun _ _ => itemAt?_eq_some
  intro known numbers read
  rw [Note.reading?, read]
  rfl

theorem writes_writeDefinitions (definitions : List Definition) :
    Writes (dialect.writeDefinitions definitions) id
      fun known numbers => numbers.mapM (itemAt? known) = some (definitions.map Definition.item) := by
  induction definitions with
  | nil => exact .pure [] rfl fun _ => rfl
  | cons definition rest inductionHypothesis =>
      cases definition with
      | global variableDefinition =>
          exact (writes_global variableDefinition).both inductionHypothesis List.cons (fun _ _ => rfl)
            fun _ _ _ => mapM_cons_of_eq_some
      | routine routine =>
          exact (writes_writeRoutine routine).both inductionHypothesis List.cons (fun _ _ => rfl)
            fun _ _ _ => mapM_cons_of_eq_some

/-! ## Whole journals -/

/-- The journal of a program says the program's definitions, mismatches being said as calls. -/
theorem tells_ofProgram (program : Program) :
    Tells (ofProgram program) (program.definitions.map Definition.item) := by
  rcases writes_writeDefinitions program.definitions [] with ⟨numbers, front, written, unfinished, segment⟩
  have journal : ofProgram program = front ++ [.finish numbers] := by
    change ((dialect.writeDefinitions program.definitions []).2 ++
      [Note.finish (dialect.writeDefinitions program.definitions []).1]) = _
    rw [written]
    rfl
  have whole : Segment 0 (front ++ [.finish numbers]) [0 + front.length]
      fun known => known[0 + front.length]? = some (.program (program.definitions.map Definition.item)) := by
    refine segment.note rfl fun known read => ?_
    rw [Note.reading?, read]
    rfl
  -- The notes in front are read on their own for the definitions, and all notes for the program.
  rcases segment.reads [] rfl with ⟨known, _, readsFront, holds⟩
  rcases whole.reads [] rfl with ⟨readings, length, readsAll, last⟩
  rw [journal]
  exact {
    rebuilds := by
      have lastReading : readings.getLast? = some (.program (program.definitions.map Definition.item)) := by
        rw [List.getLast?_eq_getElem?, length]
        simpa using last []
      rw [rebuild?, readings?, readsAll]
      simp [lastReading, Reading.program?]
    onceEach := by
      have counted := whole.onceEach
      rw [List.length_append, List.length_singleton, ← List.range'_append_1] at counted
      rw [List.length_append, List.length_singleton, Nat.add_sub_cancel, List.range_eq_range']
      exact (List.perm_append_right_iff _).mp counted
    earlier := by simpa using whole.earlier
    inOrder := whole.inOrder
    finishes :=
      ⟨front, numbers, known, rfl, unfinished, by simpa [readings?] using readsFront, by simpa using holds []⟩ }

example : rebuild? (ofProgram ⟨[.routine ⟨"stop", .rule, [], none, [.mismatch (.text "1") "end"]⟩]⟩) =
    some [.routine "stop" [.call "expect" [.text "1", .text "end"]]] := rfl

end Journal
end PredictiveParsing
