import PredictiveParsing.Proofs.Hygiene
import PredictiveParsing.Proofs.PythonBlocks

namespace PredictiveParsing

/-!
# Names on the lines of modules

A reader of Python finds names wherever letters stand together, except behind a dot, right
before `=`, where they are the keyword of an argument, between quotes, in a comment and in
numbers.  Reading the lines of a definition gives no other names than those that the
definition is said to use and the words of the language.  So nothing else in it can be taken
for something.

Main statement: where no name of a module is taken for another, the identifier of a rule's
routine stands in a definition either for that routine or for a variable, never for both.
-/

namespace PythonModule

/-! ## Reading names -/

/-- Where a reader of a line stands. -/
inductive Mode where
  /-- Between words. -/
  | between
  /-- In a name, of which these letters have been read. -/
  | name (letters : List Char)
  /-- In a number, or in a word behind a dot. -/
  | passing
  /-- Between quotes. -/
  | quoted
  /-- Between quotes and behind a backslash. -/
  | escaped
  /-- In a comment. -/
  | comment
deriving DecidableEq

/-- Whether neither a quoted text nor a comment goes on. -/
def Mode.isPlain : Mode -> Bool
  | .between | .name _ | .passing => true
  | .quoted | .escaped | .comment => false

/-- Where a character leads from between words. -/
def Mode.begin (c : Char) : Mode :=
  if c = '"' then .quoted
  else if c = '#' then .comment
  else if c = '.' then .passing
  else if Naming.isIdentifierCharacter c then (if c.isDigit then .passing else .name [c])
  else .between

/-- What a reader of a line has found, and where it stands. -/
structure Reader where
  /-- The names that are complete. -/
  names : List String
  /-- Where the reader stands. -/
  mode : Mode
deriving DecidableEq

namespace Reader

def step (reader : Reader) (c : Char) : Reader :=
  match reader.mode with
  | .between => ⟨reader.names, .begin c⟩
  | .name letters =>
      if Naming.isIdentifierCharacter c then ⟨reader.names, .name (letters ++ [c])⟩
      else if c = '=' then ⟨reader.names, .between⟩
      else ⟨reader.names ++ [String.ofList letters], .begin c⟩
  | .passing => if Naming.isIdentifierCharacter c then reader else ⟨reader.names, .begin c⟩
  | .quoted =>
      if c = '"' then ⟨reader.names, .between⟩
      else if c = '\\' then ⟨reader.names, .escaped⟩
      else reader
  | .escaped => ⟨reader.names, .quoted⟩
  | .comment => reader

/-- The names when nothing follows. -/
def done (reader : Reader) : List String :=
  match reader.mode with
  | .name letters => reader.names ++ [String.ofList letters]
  | _ => reader.names

/-- The names before come first. -/
def after (before : List String) (reader : Reader) : Reader :=
  ⟨before ++ reader.names, reader.mode⟩

theorem step_after (before : List String) (reader : Reader) (c : Char) :
    (reader.after before).step c = (reader.step c).after before := by
  rcases reader with ⟨names, mode⟩
  cases mode with
  | name letters =>
      simp only [after, step]
      split
      · rfl
      · split
        · rfl
        · rw [List.append_assoc]
  | quoted =>
      simp only [after, step]
      split
      · rfl
      · split <;> rfl
  | passing =>
      simp only [after, step]
      split <;> rfl
  | _ => rfl

theorem foldl_step_after (before : List String) (text : List Char) (reader : Reader) :
    text.foldl step (reader.after before) = (text.foldl step reader).after before := by
  induction text generalizing reader with
  | nil => rfl
  | cons c rest inductionHypothesis => rw [List.foldl_cons, List.foldl_cons, step_after, inductionHypothesis]

theorem done_after (before : List String) (reader : Reader) : (reader.after before).done = before ++ reader.done := by
  rcases reader with ⟨names, mode⟩
  cases mode with
  | name letters => exact List.append_assoc _ _ _
  | _ => rfl

end Reader

def readLine (text : String) : Reader :=
  text.toList.foldl Reader.step ⟨[], .between⟩

def namesOn (line : String) : List String :=
  (readLine line).done

/-- Whether the text neither continues a name nor makes it a keyword. -/
def startsApart (text : String) : Bool :=
  match text.toList with
  | [] => true
  | c :: _ => !Naming.isIdentifierCharacter c && c != '='

/-- Whether a name can begin behind the text. -/
def endsApart (text : String) : Bool :=
  (readLine text).mode == .between

theorem readLine_append_of_endsApart {front : String} (ends : endsApart front = true) (back : String) :
    readLine (front ++ back) = (readLine back).after (readLine front).names := by
  have mode : (readLine front).mode = .between := beq_iff_eq.mp ends
  have here : Reader.after (readLine front).names ⟨[], .between⟩ = readLine front := by
    rw [Reader.after, List.append_nil, ← mode]
  have behind := Reader.foldl_step_after (readLine front).names back.toList ⟨[], .between⟩
  rw [here] at behind
  rw [readLine, String.toList_append, List.foldl_append]
  exact behind

theorem readLine_append_of_startsApart {front back : String} (plain : (readLine front).mode.isPlain = true)
    (starts : startsApart back = true) (nonempty : back.toList ≠ []) :
    readLine (front ++ back) = (readLine back).after (readLine front).done := by
  rcases List.exists_cons_of_ne_nil nonempty with ⟨c, rest, spelled⟩
  rw [startsApart, spelled, Bool.and_eq_true, Bool.not_eq_true', bne_iff_ne] at starts
  have first : (readLine front).step c = Reader.after (readLine front).done ⟨[], .begin c⟩ := by
    cases mode : (readLine front).mode with
    | between => simp [Reader.step, Reader.after, Reader.done, mode]
    | name letters => simp [Reader.step, Reader.after, Reader.done, mode, starts.1, starts.2]
    | passing => simp [Reader.step, Reader.after, Reader.done, mode, starts.1]
    | _ =>
        rw [mode] at plain
        cases plain
  have behind : readLine back = rest.foldl Reader.step ⟨[], .begin c⟩ := by
    rw [readLine, spelled, List.foldl_cons]
    rfl
  rw [readLine, String.toList_append, List.foldl_append, spelled, List.foldl_cons]
  change rest.foldl Reader.step ((readLine front).step c) = _
  rw [first, Reader.foldl_step_after, behind]

/-- Whether the text is made of signs that may stand between pieces of code. -/
def isGap (text : String) : Bool :=
  startsApart text && endsApart text && namesOn text == [] && text != ""

/-! ## Code with allowed names -/

/-- Whether the text is code in which every name is allowed. -/
structure Speaks (allowed : String -> Prop) (text : String) : Prop where
  plain : (readLine text).mode.isPlain = true
  names : ∀ name ∈ namesOn text, allowed name

namespace Speaks

variable {allowed : String -> Prop} {front back : String}

theorem mono {wider : String -> Prop} (speaks : Speaks allowed front) (widens : ∀ name, allowed name -> wider name) :
    Speaks wider front :=
  ⟨speaks.plain, fun name found => widens name (speaks.names name found)⟩

theorem append (first : Speaks allowed front) (later : Speaks allowed back)
    (apart : endsApart front = true ∨ startsApart back = true) : Speaks allowed (front ++ back) := by
  by_cases empty : back.toList = []
  · rw [String.toList_eq_nil_iff.mp empty, String.append_empty]
    exact first
  · have read : readLine (front ++ back) = (readLine back).after (readLine front).done := by
      rcases apart with ends | starts
      · have mode : (readLine front).mode = .between := beq_iff_eq.mp ends
        have complete : (readLine front).done = (readLine front).names := by rw [Reader.done, mode]
        rw [complete, readLine_append_of_endsApart ends]
      · exact readLine_append_of_startsApart first.plain starts empty
    constructor
    · rw [read]
      exact later.plain
    · rw [namesOn, read, Reader.done_after]
      exact List.forall_mem_append.mpr ⟨first.names, later.names⟩

theorem of_readLine_eq {text : String} {reader : Reader} (read : readLine text = reader)
    (plain : reader.mode.isPlain = true) (names : ∀ name ∈ reader.done, allowed name) : Speaks allowed text :=
  ⟨read ▸ plain, by rw [namesOn, read]; exact names⟩

end Speaks

/-! ## Pieces of code -/

theorem startsApart_append {front : String} (nonempty : front.toList ≠ []) (back : String) :
    startsApart (front ++ back) = startsApart front := by
  rcases List.exists_cons_of_ne_nil nonempty with ⟨c, rest, spelled⟩
  rw [startsApart, startsApart, String.toList_append, spelled]
  rfl

theorem Reader.foldl_step_name {text : List Char} (inName : ∀ c ∈ text, Naming.isIdentifierCharacter c = true)
    (names : List String) (letters : List Char) :
    text.foldl step ⟨names, .name letters⟩ = ⟨names, .name (letters ++ text)⟩ := by
  induction text generalizing letters with
  | nil => rw [List.foldl_nil, List.append_nil]
  | cons c rest inductionHypothesis =>
      rcases List.forall_mem_cons.mp inName with ⟨first, later⟩
      have next : step ⟨names, .name letters⟩ c = ⟨names, .name (letters ++ [c])⟩ := if_pos first
      rw [List.foldl_cons, next, inductionHypothesis later, List.append_assoc, List.singleton_append]

theorem Reader.foldl_step_passing {text : List Char} (inWord : ∀ c ∈ text, Naming.isIdentifierCharacter c = true)
    (names : List String) : text.foldl step ⟨names, .passing⟩ = ⟨names, .passing⟩ := by
  induction text with
  | nil => rfl
  | cons c rest inductionHypothesis =>
      rcases List.forall_mem_cons.mp inWord with ⟨first, later⟩
      have next : step ⟨names, .passing⟩ c = ⟨names, .passing⟩ := if_pos first
      rw [List.foldl_cons, next, inductionHypothesis later]

theorem Reader.step_quoted {c : Char} (noQuote : c ≠ '"') (noBackslash : c ≠ '\\') (names : List String) :
    step ⟨names, .quoted⟩ c = ⟨names, .quoted⟩ := by
  change (if c = '"' then _ else if c = '\\' then _ else _) = _
  rw [if_neg noQuote, if_neg noBackslash]

theorem Reader.step_quoted_of_isIdentifierCharacter {c : Char} (inIdentifier : Naming.isIdentifierCharacter c = true)
    (names : List String) : step ⟨names, .quoted⟩ c = ⟨names, .quoted⟩ :=
  step_quoted (Naming.ne_of_isIdentifierCharacter inIdentifier rfl)
    (Naming.ne_of_isIdentifierCharacter inIdentifier rfl) names

/-- No character between quotes ends the quoted text. -/
theorem Reader.foldl_step_quotedCharacter (names : List String) (c : Char) :
    (Text.quotedCharacter c).foldl step ⟨names, .quoted⟩ = ⟨names, .quoted⟩ := by
  by_cases backslash : c = '\\'
  · rw [backslash]
    rfl
  by_cases quote : c = '"'
  · rw [quote]
    rfl
  rw [Text.quotedCharacter, if_neg backslash, if_neg quote]
  cases control : Text.isControl c with
  | false =>
      have itself : [c].foldl step ⟨names, .quoted⟩ = ⟨names, .quoted⟩ := step_quoted quote backslash names
      rw [if_neg Bool.false_ne_true]
      repeat' split
      all_goals first | exact itself | rfl
  | true =>
      have bound := Text.lt_of_isControl control
      have high := Text.isIdentifierCharacter_hexDigit (c.toNat / 16) (by omega)
      have low := Text.isIdentifierCharacter_hexDigit (c.toNat % 16) (by omega)
      have spelledOut : ['\\', 'x', Text.hexDigit (c.toNat / 16), Text.hexDigit (c.toNat % 16)].foldl step
          ⟨names, .quoted⟩ = ⟨names, .quoted⟩ := by
        change step (step ⟨names, .quoted⟩ _) _ = _
        rw [step_quoted_of_isIdentifierCharacter high, step_quoted_of_isIdentifierCharacter low]
      rw [if_pos rfl]
      repeat' split
      all_goals first | exact spelledOut | rfl

theorem Reader.foldl_step_flatMap_quotedCharacter (names : List String) (text : List Char) :
    (text.flatMap Text.quotedCharacter).foldl step ⟨names, .quoted⟩ = ⟨names, .quoted⟩ := by
  induction text with
  | nil => rfl
  | cons c rest inductionHypothesis =>
      rw [List.flatMap_cons, List.foldl_append, foldl_step_quotedCharacter, inductionHypothesis]

theorem Mode.begin_of_isIdentifierCharacter {c : Char} (inName : Naming.isIdentifierCharacter c = true) :
    begin c = if c.isDigit then .passing else .name [c] := by
  have noQuote : c ≠ '"' := Naming.ne_of_isIdentifierCharacter inName rfl
  have noHash : c ≠ '#' := Naming.ne_of_isIdentifierCharacter inName rfl
  have noDot : c ≠ '.' := Naming.ne_of_isIdentifierCharacter inName rfl
  rw [begin, if_neg noQuote, if_neg noHash, if_neg noDot, if_pos inName]

theorem readLine_of_isIdentifier {text : String} (isIdentifier : Naming.IsIdentifier text) :
    readLine text = if text.toList.head?.any (·.isDigit) then ⟨[], .passing⟩ else ⟨[], .name text.toList⟩ := by
  rcases List.exists_cons_of_ne_nil isIdentifier.nonempty with ⟨c, rest, spelled⟩
  have characters := isIdentifier.characters
  rw [spelled] at characters
  rcases List.forall_mem_cons.mp characters with ⟨first, later⟩
  have read : readLine text = rest.foldl Reader.step ⟨[], if c.isDigit then .passing else .name [c]⟩ := by
    rw [readLine, spelled, List.foldl_cons, ← Mode.begin_of_isIdentifierCharacter first]
    rfl
  rw [read, spelled, List.head?_cons, Option.any_some]
  split
  · exact Reader.foldl_step_passing later []
  · exact Reader.foldl_step_name later [] [c]

namespace Speaks

variable {allowed : String -> Prop} {front back : String}

theorem of_isIdentifier {text : String} (isIdentifier : Naming.IsIdentifier text) (known : allowed text) :
    Speaks allowed text := by
  have read := readLine_of_isIdentifier isIdentifier
  split at read
  · exact of_readLine_eq read rfl (List.forall_mem_nil _)
  · refine of_readLine_eq read rfl (List.forall_mem_singleton.mpr ?_)
    rw [String.ofList_toList]
    exact known

theorem identifier {name : String} (known : allowed (identifier name)) : Speaks allowed (identifier name) :=
  of_isIdentifier (Naming.isIdentifier_avoiding _ name) known

theorem quoted (text : String) : Speaks allowed (Text.quoted text) := by
  have read : readLine (Text.quoted text) = ⟨[], .between⟩ := by
    rw [readLine, Text.quoted, String.toList_ofList, List.foldl_append, List.foldl_cons]
    change [_].foldl Reader.step ((text.toList.flatMap Text.quotedCharacter).foldl Reader.step ⟨[], .quoted⟩) = _
    rw [Reader.foldl_step_flatMap_quotedCharacter]
    rfl
  exact of_readLine_eq read rfl (List.forall_mem_nil _)

theorem number (value : Nat) : Speaks allowed (toString value) := by
  have isIdentifier := Naming.isIdentifier_number value
  have read := readLine_of_isIdentifier isIdentifier
  have first : (toString value).toList.head?.any (·.isDigit) = true := by
    rcases List.exists_cons_of_ne_nil isIdentifier.nonempty with ⟨c, rest, spelled⟩
    rw [spelled]
    exact Naming.isDigit_of_mem_number value c (spelled ▸ List.mem_cons_self)
  rw [if_pos first] at read
  exact of_readLine_eq read rfl (List.forall_mem_nil _)

/-- Code behind other code, with signs in between. -/
theorem gap {separator : String} (signs : isGap separator = true) (first : Speaks allowed front)
    (later : Speaks allowed back) : Speaks allowed (front ++ (separator ++ back)) := by
  simp only [isGap, Bool.and_eq_true, bne_iff_ne, beq_iff_eq] at signs
  rcases signs with ⟨⟨⟨starts, ends⟩, silent⟩, some⟩
  have nonempty : separator.toList ≠ [] := fun empty => some (String.toList_eq_nil_iff.mp empty)
  have mode : (readLine separator).mode = .between := beq_iff_eq.mp ends
  have alone : Speaks allowed separator := ⟨by rw [mode]; rfl, by rw [silent]; exact List.forall_mem_nil _⟩
  exact first.append (alone.append later (Or.inl ends)) (Or.inr ((startsApart_append nonempty back).trans starts))

theorem nothing : Speaks allowed "" :=
  ⟨rfl, List.forall_mem_nil _⟩

/-- Code with signs at its end. -/
theorem close {closing : String} (signs : isGap closing = true) (first : Speaks allowed front) :
    Speaks allowed (front ++ closing) := by
  simpa only [String.append_empty] using gap signs first nothing

theorem intercalate {texts : List String} (each : ∀ text ∈ texts, Speaks allowed text) :
    Speaks allowed (", ".intercalate texts) := by
  induction texts with
  | nil => exact nothing
  | cons text rest inductionHypothesis =>
      rcases List.forall_mem_cons.mp each with ⟨first, later⟩
      cases rest with
      | nil =>
          rw [String.intercalate_singleton]
          exact first
      | cons next others =>
          rw [String.intercalate_cons_cons, String.append_assoc]
          exact gap (by decide) first (inductionHypothesis later)

theorem application {routine : String} (known : allowed (PythonModule.identifier routine)) {arguments : List String}
    (each : ∀ text ∈ arguments, Speaks allowed text) : Speaks allowed (application routine arguments) := by
  rw [PythonModule.application, String.append_assoc, String.append_assoc]
  exact gap (by decide) (identifier known) (close (by decide) (intercalate each))

end Speaks

/-! ## Expressions -/

/-- The words of the language on the lines of routines. -/
def languageWords : List String :=
  ["def", "pass", "if", "elif", "else", "return", "global", "with", "as", "for", "in", "True"]

/-- Whether the name is a word of the language or stands for one of the uses. -/
def Known (uses : List NameUse) (name : String) : Prop :=
  name ∈ languageWords ∨ ∃ use ∈ uses, use.identifier = name

theorem Known.mono {fewer more : List NameUse} (subset : fewer ⊆ more) (name : String) (known : Known fewer name) :
    Known more name := by
  refine known.imp_right ?_
  rintro ⟨use, member, same⟩
  exact ⟨use, subset member, same⟩

theorem Known.own {uses : List NameUse} {name : String} (member : .own name ∈ uses) : Known uses (identifier name) :=
  Or.inr ⟨_, member, rfl⟩

theorem Known.routine {uses : List NameUse} {name : String} (member : .routine name ∈ uses) :
    Known uses (identifier name) :=
  Or.inr ⟨_, member, rfl⟩

/-- Whether all that the text speaks of is known, which can be computed. -/
def knowsAll (uses : List NameUse) (text : String) : Bool :=
  (readLine text).mode.isPlain &&
    (namesOn text).all fun name => languageWords.contains name || uses.any fun use => use.identifier == name

/-- Code that is written as it is. -/
theorem Speaks.fixed {text : String} (fewer : List NameUse) (checked : knowsAll fewer text = true)
    {uses : List NameUse} (subset : fewer ⊆ uses) : Speaks (Known uses) text := by
  rw [knowsAll, Bool.and_eq_true, List.all_eq_true] at checked
  refine ⟨checked.1, fun name found => Known.mono subset name ?_⟩
  rcases Bool.or_eq_true_iff.mp (checked.2 name found) with word | used
  · exact Or.inl (List.contains_iff_mem.mp word)
  · rcases List.any_eq_true.mp used with ⟨use, member, same⟩
    exact Or.inr ⟨use, member, beq_iff_eq.mp same⟩

mutual

theorem speaks_expressionText : ∀ expression : Expression,
    Speaks (Known (expressionUses expression)) (expressionText expression)
  | .text value => by
      rw [expressionText]
      exact .quoted value
  | .var name => by
      rw [expressionText]
      exact .identifier (Known.own (List.mem_singleton_self _))
  | .argument number => by
      have opening : Speaks (Known (expressionUses (.argument number))) "sys.argv[" :=
        .fixed [.word "sys"] (by decide) (List.Subset.refl _)
      rw [expressionText, String.append_assoc]
      exact opening.append (.close (by decide) (.number number)) (Or.inl (by decide))
  | .call routine arguments => by
      have called : NameUse.routine routine ∈ expressionUses (.call routine arguments) := List.mem_cons_self
      rw [expressionText]
      exact .application (Known.routine called) fun text member =>
        (speaks_expressionTexts arguments text member).mono (Known.mono (List.subset_cons_self _ _))
  | .field record field => by
      rw [expressionText, String.append_assoc, String.append_assoc]
      exact .gap (by decide) (speaks_expressionText record) (.close (by decide) (.number field.index))
  | .equal left right => by
      rw [expressionText, String.append_assoc]
      exact .gap (by decide) ((speaks_expressionText left).mono (Known.mono (List.subset_append_left _ _)))
        ((speaks_expressionText right).mono (Known.mono (List.subset_append_right _ _)))
  | .different left right => by
      rw [expressionText, String.append_assoc]
      exact .gap (by decide) ((speaks_expressionText left).mono (Known.mono (List.subset_append_left _ _)))
        ((speaks_expressionText right).mono (Known.mono (List.subset_append_right _ _)))

theorem speaks_expressionTexts : ∀ expressions : List Expression,
    ∀ text ∈ expressionTexts expressions, Speaks (Known (expressionUsesOfAll expressions)) text
  | [] => List.forall_mem_nil _
  | expression :: rest => by
      rw [expressionTexts]
      exact List.forall_mem_cons.mpr
        ⟨(speaks_expressionText expression).mono (Known.mono (List.subset_append_left _ _)), fun text member =>
          (speaks_expressionTexts rest text member).mono (Known.mono (List.subset_append_right _ _))⟩

end

/-! ## Lines -/

/-- Whether every name on the lines is allowed. -/
def Mentions (allowed : String -> Prop) (lines : List String) : Prop :=
  ∀ line ∈ lines, ∀ name ∈ namesOn line, allowed name

namespace Mentions

variable {allowed : String -> Prop} {front back : List String}

theorem mono {wider : String -> Prop} (mentions : Mentions allowed front)
    (widens : ∀ name, allowed name -> wider name) : Mentions wider front :=
  fun line member name found => widens name (mentions line member name found)

theorem nil : Mentions allowed [] :=
  List.forall_mem_nil _

theorem cons {line : String} (first : Speaks allowed line) (later : Mentions allowed back) :
    Mentions allowed (line :: back) :=
  List.forall_mem_cons.mpr ⟨first.names, later⟩

theorem single {line : String} (speaks : Speaks allowed line) : Mentions allowed [line] :=
  cons speaks nil

theorem append (first : Mentions allowed front) (later : Mentions allowed back) : Mentions allowed (front ++ back) :=
  List.forall_mem_append.mpr ⟨first, later⟩

end Mentions

theorem namesOn_tab (line : String) : namesOn ("\t" ++ line) = namesOn line := by
  rw [namesOn, readLine, Layout.toList_tab]
  rfl

theorem Reader.foldl_step_comment (names : List String) (text : List Char) :
    text.foldl step ⟨names, .comment⟩ = ⟨names, .comment⟩ := by
  induction text with
  | nil => rfl
  | cons c rest inductionHypothesis => exact inductionHypothesis

/-- A comment has no names. -/
theorem namesOn_comment (text : String) : namesOn ("# " ++ text) = [] := by
  have read : readLine ("# " ++ text) = text.toList.foldl Reader.step ⟨[], .comment⟩ := by
    rw [readLine, String.toList_append, List.foldl_append]
    rfl
  rw [namesOn, read, Reader.foldl_step_comment]
  rfl

theorem mentions_flatMap_indent {allowed : String -> Prop} {fragments : List (List String)}
    (tidy : Layout.AreTidy fragments) (each : ∀ fragment ∈ fragments, Mentions allowed fragment) :
    Mentions allowed (fragments.flatMap Layout.indent) := by
  rw [Layout.flatMap_indent_of_isLine fun other member => (tidy other member).2.isLine]
  intro line member
  rcases List.mem_map.mp member with ⟨inner, inside, rfl⟩
  rcases List.mem_flatten.mp inside with ⟨fragment, inFragments, inFragment⟩
  rw [namesOn_tab]
  exact each fragment inFragments inner inFragment

theorem mentions_block {uses : List NameUse} {fragments : List (List String)} (tidy : Layout.AreTidy fragments)
    (each : ∀ fragment ∈ fragments, Mentions (Known uses) fragment) :
    Mentions (Known uses) (Layout.block fragments) := by
  cases fragments with
  | nil => exact .single (.fixed [] (by decide) (List.nil_subset _))
  | cons fragment rest =>
      rw [Layout.block_of_ne_empty (List.cons_ne_nil _ _) fun other member => (tidy other member).2.ne_empty]
      exact mentions_flatMap_indent tidy each

theorem speaks_typeName (type : ValueType) : Speaks (Known (typeUses type)) (typeName type) := by
  cases type with
  | text => exact .fixed [.word "str"] (by decide) (List.Subset.refl _)
  | token | tokenList => exact .fixed [.word "List", .word "str"] (by decide) (List.Subset.refl _)

theorem speaks_typed {uses : List NameUse} {name : String} (known : Known uses (identifier name)) {type : ValueType}
    (subset : typeUses type ⊆ uses) : Speaks (Known uses) (typed name type) := by
  rw [typed, String.append_assoc]
  exact .gap (by decide) (.identifier known) ((speaks_typeName type).mono (Known.mono subset))

theorem speaks_initialValue (uses : List NameUse) (type : ValueType) : Speaks (Known uses) (initialValue type) := by
  cases type <;> exact .fixed [] (by decide) (List.nil_subset _)

theorem mentions_primitiveLines (operation : Primitive) :
    Mentions (Known (primitiveUses operation)) (primitiveLines operation) := by
  cases operation with
  | runLexer command parameter =>
      have runs : Speaks (Known (primitiveUses (.runLexer command parameter))) "response = subprocess.run(" :=
        .fixed [.own "response", .word "subprocess"] (by decide) (by simp [primitiveUses])
      have closes : Speaks (Known (primitiveUses (.runLexer command parameter))) ", shell=True)" :=
        .fixed [] (by decide) (List.nil_subset _)
      have passed : Known (primitiveUses (.runLexer command parameter)) (identifier parameter) :=
        Known.own (List.mem_cons_of_mem _ (List.mem_cons_of_mem _ List.mem_cons_self))
      rw [primitiveLines, String.append_assoc, String.append_assoc, String.append_assoc]
      exact .cons (runs.append (.gap (by decide) (.quoted command) (.append (.identifier passed) closes
          (Or.inr (by decide)))) (Or.inl (by decide)))
        (.cons (.fixed [.own "response"] (by decide) (by simp [primitiveUses]))
          (.single (.fixed [.word "sys"] (by decide) (by simp [primitiveUses]))))
  | loadTokens path delimiter =>
      have declares : Speaks (Known (primitiveUses (.loadTokens path delimiter))) ("global " ++ Support.tokens) :=
        .fixed [.word Support.tokens] (by decide) (by simp [primitiveUses])
      have opens : Speaks (Known (primitiveUses (.loadTokens path delimiter))) "with open(" :=
        .fixed [.word "open"] (by decide) (by simp [primitiveUses])
      have binds : Speaks (Known (primitiveUses (.loadTokens path delimiter))) ") as f:" :=
        .fixed [.own "f"] (by decide) (by simp [primitiveUses])
      have splits : Speaks (Known (primitiveUses (.loadTokens path delimiter)))
          ("\t" ++ Support.tokens ++ " = [line.split(") :=
        .fixed [.word Support.tokens, .own "line"] (by decide) (by simp [primitiveUses])
      have reads : Speaks (Known (primitiveUses (.loadTokens path delimiter)))
          ") for line in f.read().splitlines()]" :=
        .fixed [.own "line", .own "f"] (by decide) (by simp [primitiveUses])
      rw [primitiveLines]
      refine .cons declares (.cons ?_ (.single ?_))
      · exact (opens.append (.quoted path) (Or.inl (by decide))).append binds (Or.inr (by decide))
      · exact (splits.append (.quoted _) (Or.inl (by decide))).append reads (Or.inr (by decide))
  | peek | take =>
      exact .cons (.fixed [.word "len", .word Support.tokens] (by decide) (List.Subset.refl _))
        (.cons (.fixed [.word Support.tokens] (by decide) (by simp [primitiveUses]))
          (.single (.fixed [] (by decide) (List.nil_subset _))))
  | report position expected =>
      have prints : Speaks (Known (primitiveUses (.report position expected))) "print(\"Error: line\", " :=
        .fixed [.word "print"] (by decide) (by simp [primitiveUses])
      have place : Known (primitiveUses (.report position expected)) (identifier position) :=
        Known.own (List.mem_cons_of_mem _ List.mem_cons_self)
      have wanted : Known (primitiveUses (.report position expected)) (identifier expected) :=
        Known.own (List.mem_cons_of_mem _ (List.mem_cons_of_mem _ List.mem_cons_self))
      rw [primitiveLines, String.append_assoc, String.append_assoc, String.append_assoc]
      exact .cons (prints.append (.gap (by decide) (.identifier place) (.close (by decide) (.identifier wanted)))
          (Or.inl (by decide)))
        (.single (.fixed [.word "sys"] (by decide) (by simp [primitiveUses])))
  | requireArguments count =>
      have compares : Speaks (Known (primitiveUses (.requireArguments count))) "if len(sys.argv) < " :=
        .fixed [.word "len", .word "sys"] (by decide) (by simp [primitiveUses])
      rw [primitiveLines, String.append_assoc]
      exact .cons (compares.append (.close (by decide) (.number _)) (Or.inl (by decide)))
        (.cons (.fixed [.word "print"] (by decide) (by simp [primitiveUses]))
          (.single (.fixed [.word "sys"] (by decide) (by simp [primitiveUses]))))

/-! ## Statements -/

theorem gives_speaks (expression : Expression) :
    Gives (dialect.expression expression) (Speaks (Known (expressionUses expression))) :=
  (gives_expression expression).mono fun _ same => same ▸ speaks_expressionText expression

theorem speaks_writeExpressions (expressions : List Expression) :
    Gives (dialect.writeExpressions expressions) fun texts =>
      ∀ text ∈ texts, Speaks (Known (expressionUsesOfAll expressions)) text := by
  induction expressions with
  | nil => exact .pure (List.forall_mem_nil _)
  | cons expression rest inductionHypothesis =>
      refine (gives_speaks expression).bind fun text speaks => inductionHypothesis.bind fun texts each =>
        .pure (List.forall_mem_cons.mpr ⟨speaks.mono (Known.mono (List.subset_append_left _ _)), ?_⟩)
      exact fun other member => (each other member).mono (Known.mono (List.subset_append_right _ _))

/-- A header and the lines of its block. -/
theorem mentions_header {uses : List NameUse} {word condition : String} (fixed : knowsAll [] word = true)
    (apart : endsApart word = true) (speaks : Speaks (Known uses) condition) {lines : List String}
    (body : Mentions (Known uses) lines) : Mentions (Known uses) ((word ++ condition ++ ":") :: lines) := by
  have begins : Speaks (Known uses) word := .fixed [] fixed (List.nil_subset _)
  exact .cons (.close (by decide) (begins.append speaks (Or.inl apart))) body

/-- What is known of the names in an arm that has been written. -/
def ArmMentions (uses : List NameUse) (arm : String × List (List String)) : Prop :=
  Speaks (Known uses) arm.1 ∧ Mentions (Known uses) (Layout.block arm.2)

theorem ArmMentions.mono {fewer more : List NameUse} {arm : String × List (List String)}
    (mentions : ArmMentions fewer arm) (subset : fewer ⊆ more) : ArmMentions more arm :=
  ⟨mentions.1.mono (Known.mono subset), mentions.2.mono (Known.mono subset)⟩

theorem mentions_laterArms {uses : List NameUse} {arms : List (String × List (List String))}
    (each : ∀ arm ∈ arms, ArmMentions uses arm) : Mentions (Known uses) (laterArms arms) := by
  induction arms with
  | nil => exact .nil
  | cons arm rest inductionHypothesis =>
      rcases List.forall_mem_cons.mp each with ⟨⟨speaks, body⟩, later⟩
      exact (mentions_header (by decide) (by decide) speaks body).append (inductionHypothesis later)

theorem mentions_fallbackLines {uses : List NameUse} {fallback : Option (List (List String))}
    (each : ∀ body ∈ fallback, Mentions (Known uses) (Layout.block body)) :
    Mentions (Known uses) (fallbackLines fallback) := by
  cases fallback with
  | none => exact .nil
  | some body => exact .cons (.fixed [] (by decide) (List.nil_subset _)) (each body rfl)

theorem mentions_branchLines {uses : List NameUse} {arms : List (String × List (List String))} (nonempty : arms ≠ [])
    (each : ∀ arm ∈ arms, ArmMentions uses arm) {fallback : Option (List (List String))}
    (otherwise : ∀ body ∈ fallback, Mentions (Known uses) (Layout.block body)) :
    Mentions (Known uses) (branchLines arms fallback) := by
  rcases List.exists_cons_of_ne_nil nonempty with ⟨⟨condition, body⟩, rest, rfl⟩
  rcases List.forall_mem_cons.mp each with ⟨⟨speaks, first⟩, later⟩
  have header := mentions_header (by decide : knowsAll [] "if " = true) (by decide) speaks first
  exact (header.append (mentions_laterArms later)).append (mentions_fallbackLines otherwise)

open Statement (blockRegular armsRegular fallbackRegular)

mutual

theorem mentions_writeStatement : ∀ statement : Statement, statement.isRegular = true ->
    Gives (dialect.writeStatement statement) (Mentions (Known (statementUses statement)))
  | .comment _, regular => by cases regular
  | .declare name type, _ => by
      have declared : Known (.own name :: typeUses type) (identifier name) :=
        Known.own List.mem_cons_self
      rw [Dialect.writeStatement]
      exact (Gives.need _).bind fun _ _ => .pure (.single (speaks_typed declared (List.subset_cons_self _ _)))
  | .assign name value, _ => by
      have assigned : Known (.own name :: expressionUses value) (identifier name) :=
        Known.own List.mem_cons_self
      rw [Dialect.writeStatement]
      refine (gives_speaks value).bind fun text speaks => .pure (.single ?_)
      rw [String.append_assoc]
      exact .gap (by decide) (.identifier assigned) (speaks.mono (Known.mono (List.subset_cons_self _ _)))
  | .call routine arguments, _ => by
      have called : Known (.routine routine :: expressionUsesOfAll arguments) (identifier routine) :=
        Known.routine List.mem_cons_self
      rw [Dialect.writeStatement]
      exact (speaks_writeExpressions arguments).bind fun texts each => .pure (.single (.application called
        fun text member => (each text member).mono (Known.mono (List.subset_cons_self _ _))))
  | .branch arms fallback, regular => by
      rw [Statement.isRegular, Bool.and_eq_true, Bool.and_eq_true, Bool.not_eq_true'] at regular
      rcases regular with ⟨⟨nonempty, ofArms⟩, ofFallback⟩
      rw [Dialect.writeStatement]
      refine ((gives_writeArms arms ofArms).both (mentions_writeArms arms ofArms)).bind
        fun written ⟨⟨length, _⟩, each⟩ => (mentions_writeFallback fallback ofFallback).bind
          fun otherwise ofOtherwise => .pure (mentions_branchLines ?_ ?_ ?_)
      · rintro rfl
        cases arms with
        | nil => cases nonempty
        | cons _ _ => cases length
      · exact fun arm member => (each arm member).mono (List.subset_append_left _ _)
      · exact fun body member => (ofOtherwise body member).mono (Known.mono (List.subset_append_right _ _))
  | .mismatch position expected, _ => by
      have called : Known (.routine Support.expect :: expressionUses position) (identifier Support.expect) :=
        Known.routine List.mem_cons_self
      rw [Dialect.writeStatement, Dialect.writeMismatch]
      refine (gives_speaks position).bind fun place speaks => (gives_speaks (.text expected)).bind
        fun text quoted => .pure (.single (.application called ?_))
      exact List.forall_mem_cons.mpr ⟨speaks.mono (Known.mono (List.subset_cons_self _ _)),
        List.forall_mem_singleton.mpr (quoted.mono (Known.mono (List.nil_subset _)))⟩
  | .leave none, _ => by
      rw [Dialect.writeStatement]
      exact .pure (.single (.fixed [] (by decide) (List.nil_subset _)))
  | .leave (some value), _ => by
      have returns : Speaks (Known (expressionUses value)) "return " := .fixed [] (by decide) (List.nil_subset _)
      rw [Dialect.writeStatement]
      exact (gives_speaks value).bind fun _ speaks => .pure (.single (returns.append speaks (Or.inl (by decide))))
  | .primitive operation, _ => by
      rw [Dialect.writeStatement]
      exact (Gives.need _).bind fun _ _ => .pure (mentions_primitiveLines operation)

theorem mentions_writeBlock : ∀ statements : List Statement, blockRegular statements = true ->
    Gives (dialect.writeBlock statements) fun fragments =>
      ∀ fragment ∈ fragments, Mentions (Known (blockUses statements)) fragment
  | [], _ => by
      rw [Dialect.writeBlock]
      exact .pure (List.forall_mem_nil _)
  | statement :: rest, regular => by
      rw [blockRegular, Bool.and_eq_true] at regular
      rw [Dialect.writeBlock]
      refine (mentions_writeStatement statement regular.1).bind fun fragment first =>
        (mentions_writeBlock rest regular.2).bind fun fragments later => .pure (List.forall_mem_cons.mpr
          ⟨first.mono (Known.mono (List.subset_append_left _ _)), ?_⟩)
      exact fun other member => (later other member).mono (Known.mono (List.subset_append_right _ _))

theorem mentions_writeArms : ∀ arms : List (Expression × List Statement), armsRegular arms = true ->
    Gives (dialect.writeArms arms) fun written => ∀ arm ∈ written, ArmMentions (armsUses arms) arm
  | [], _ => by
      rw [Dialect.writeArms]
      exact .pure (List.forall_mem_nil _)
  | (condition, body) :: rest, regular => by
      have first : expressionUses condition ++ blockUses body ⊆ armsUses ((condition, body) :: rest) :=
        List.subset_append_left _ _
      rw [armsRegular, Bool.and_eq_true] at regular
      rw [Dialect.writeArms]
      refine (gives_speaks condition).bind fun text speaks =>
        ((gives_writeBlock body regular.1).both (mentions_writeBlock body regular.1)).bind
          fun fragments ⟨⟨_, tidy⟩, mentions⟩ => (mentions_writeArms rest regular.2).bind
            fun written later => .pure (List.forall_mem_cons.mpr ⟨⟨?_, ?_⟩, ?_⟩)
      · exact speaks.mono (Known.mono (List.Subset.trans (List.subset_append_left _ _) first))
      · exact (mentions_block tidy mentions).mono (Known.mono (List.Subset.trans (List.subset_append_right _ _) first))
      · exact fun arm member => (later arm member).mono (List.subset_append_right _ _)

theorem mentions_writeFallback : ∀ fallback : Option (List Statement), fallbackRegular fallback = true ->
    Gives (dialect.writeFallback fallback) fun written =>
      ∀ body ∈ written, Mentions (Known (fallbackUses fallback)) (Layout.block body)
  | none, _ => by
      rw [Dialect.writeFallback]
      exact .pure nofun
  | some body, regular => by
      rw [Dialect.writeFallback]
      refine ((gives_writeBlock body regular).both (mentions_writeBlock body regular)).bind
        fun fragments ⟨⟨_, tidy⟩, mentions⟩ => .pure fun other same => ?_
      cases Option.mem_some_iff.mp same
      exact mentions_block tidy mentions

end

/-! ## Definitions -/

/-- What stands before the colon of a routine's first line. -/
theorem header_eq (routine : Routine) :
    header routine = "def " ++ application routine.name (routine.parameters.map fun parameter =>
      typed parameter.name parameter.type) ++ (routine.returns.elim "" fun type => " -> " ++ typeName type) ++
      ":" := by
  rw [header, application]
  cases routine.returns <;> simp only [String.append_assoc, Option.elim]

theorem speaks_header {routine : Routine} {uses : List NameUse} (named : Known uses (identifier routine.name))
    (subset : routineUses routine ⊆ uses) : Speaks (Known uses) (header routine) := by
  have begins : Speaks (Known uses) "def " := .fixed [] (by decide) (List.nil_subset _)
  have each : ∀ text ∈ routine.parameters.map fun parameter => typed parameter.name parameter.type,
      Speaks (Known uses) text := by
    intro text member
    rcases List.mem_map.mp member with ⟨parameter, inParameters, rfl⟩
    have used : NameUse.own parameter.name :: typeUses parameter.type ⊆ uses := fun use inUses =>
      subset (List.mem_append_left _ (List.mem_append_left _ (List.mem_flatMap_of_mem inParameters inUses)))
    exact speaks_typed (Known.own (used List.mem_cons_self)) (List.subset_of_cons_subset used)
  have signature := begins.append (.application named each) (Or.inl (by decide))
  rw [header_eq]
  refine .close (by decide) ?_
  cases returned : routine.returns with
  | none =>
      rw [Option.elim_none, String.append_empty]
      exact signature
  | some type =>
      have used : typeUses type ⊆ uses := by
        refine fun use inUses => subset (List.mem_append_left _ (List.mem_append_right _ ?_))
        rw [returned]
        exact List.mem_flatMap_of_mem (List.mem_singleton_self type) inUses
      exact .gap (by decide) signature ((speaks_typeName type).mono (Known.mono used))

/-- Every name on a line of a routine is the routine's own or one that the routine uses. -/
theorem mentions_writeRoutine {routine : Routine} (regular : routine.IsRegular) :
    Gives (dialect.writeRoutine routine) (Mentions (Known (.routine routine.name :: routineUses routine))) := by
  have named : Known (.routine routine.name :: routineUses routine) (identifier routine.name) :=
    Known.routine List.mem_cons_self
  have first := speaks_header named (List.subset_cons_self _ _)
  have ofBody : blockUses routine.body ⊆ .routine routine.name :: routineUses routine :=
    List.Subset.trans (List.subset_append_right _ _) (List.subset_cons_self _ _)
  have ofBlock : Gives (dialect.writeBlock routine.body) fun fragments =>
      Mentions (Known (.routine routine.name :: routineUses routine)) (Layout.block fragments) := by
    cases regular with
    | plain _ regular =>
        refine ((gives_writeBlock routine.body regular).both (mentions_writeBlock routine.body regular)).mono ?_
        rintro fragments ⟨⟨_, tidy⟩, mentions⟩
        exact (mentions_block tidy mentions).mono (Known.mono ofBody)
    | @commented text others body oneLine regular =>
        have tail : blockUses others ⊆ .routine routine.name :: routineUses routine := by
          rw [body] at ofBody
          exact ofBody
        rw [body]
        refine (gives_writeBlock_comment oneLine
          ((gives_writeBlock others regular).both (mentions_writeBlock others regular))).mono ?_
        rintro fragments ⟨rest, rfl, ⟨_, tidy⟩, mentions⟩
        rw [Layout.block_comment (comment_ne_empty text) tidy]
        refine List.forall_mem_cons.mpr ⟨?_, ?_⟩
        · rw [namesOn_tab, namesOn_comment]
          exact List.forall_mem_nil _
        · exact (mentions_flatMap_indent tidy mentions).mono (Known.mono tail)
  rw [Dialect.writeRoutine]
  exact ofBlock.bind fun fragments mentions => (Gives.remember routine).bind fun _ _ => (Gives.need _).bind
    fun _ _ => .pure (.cons first mentions)

theorem mentions_global (variableDefinition : GlobalVariable) :
    Gives (dialect.global variableDefinition) (Mentions (Known (definitionUses (.global variableDefinition)))) := by
  have named : Known (definitionUses (.global variableDefinition)) (identifier variableDefinition.name) :=
    Or.inr ⟨_, List.mem_cons_self, rfl⟩
  refine (Gives.need _).bind fun _ _ => .pure (.single ?_)
  rw [String.append_assoc]
  exact .gap (by decide) (speaks_typed named (List.subset_cons_self _ _)) (speaks_initialValue _ _)

/-- Every name on a line of a definition is one that the definition uses. -/
theorem mentions_writeDefinitions {definitions : List Definition}
    (regular : ∀ definition ∈ definitions, definition.IsRegular) :
    Gives (dialect.writeDefinitions definitions) (List.Forall₂
      (fun definition lines => Mentions (Known (definitionUses definition)) lines) definitions) := by
  induction definitions with
  | nil => exact .pure .nil
  | cons definition rest inductionHypothesis =>
      rcases List.forall_mem_cons.mp regular with ⟨first, later⟩
      cases definition with
      | global variableDefinition =>
          rw [Dialect.writeDefinitions]
          exact (mentions_global variableDefinition).bind fun _ mentions =>
            (inductionHypothesis later).bind fun _ others => .pure (.cons mentions others)
      | routine routineDefinition =>
          rw [Dialect.writeDefinitions]
          exact (mentions_writeRoutine first).bind fun _ mentions =>
            (inductionHypothesis later).bind fun _ others => .pure (.cons mentions others)

theorem languageWords_subset : languageWords ⊆ Naming.pythonWords := by
  decide

end PythonModule

namespace Grammar

variable {grammar : Grammar} {settings : Settings} {program : Program}

/-- Where the identifier of a rule's routine stands in a definition of a parser, the routine is
meant, unless the definition has a variable that goes by that identifier. -/
theorem routine_mem_of_identifier_mem (keeps : grammar.KeepsToLines) (made : grammar.parser settings = .ok program)
    {routine : Routine} (member : routine ∈ program.routines) (ofRule : routine.role = .rule) :
    List.Forall₂ (fun definition lines => ∀ line ∈ lines,
        PythonModule.identifier routine.name ∈ PythonModule.namesOn line ->
          .routine routine.name ∈ PythonModule.definitionUses definition ∨
            ∃ name, .own name ∈ PythonModule.definitionUses definition ∧
              PythonModule.identifier name = PythonModule.identifier routine.name)
      program.definitions ((PythonModule.dialect.writeDefinitions program.definitions).run .fresh).1 := by
  have gives := PythonModule.mentions_writeDefinitions fun definition member =>
    (isRegular_of_parser_eq_ok keeps made definition member).1
  rcases List.forall₂_iff_zip.mp (gives .fresh nofun).1 with ⟨length, each⟩
  refine List.forall₂_iff_zip.mpr ⟨length, fun {definition lines} paired line inLines found => ?_⟩
  rcases each paired line inLines _ found with ofLanguage | ⟨use, used, same⟩
  · exact absurd (PythonModule.languageWords_subset ofLanguage) (PythonModule.not_mem_pythonWords routine.name)
  have inModule : use ∈ PythonModule.moduleUses program :=
    List.mem_append_left _ (List.mem_flatMap_of_mem (List.of_mem_zip paired).1 used)
  cases own : use.isOwn with
  | false =>
      cases eq_routine_of_identifier_eq made member ofRule inModule own same
      exact Or.inl used
  | true =>
      cases use with
      | own name => exact Or.inr ⟨name, used, same⟩
      | routine _ | word _ => cases own

/-- A variable of a definition does not go by the identifier of a rule's routine that the
definition speaks of, or that it is, where no variable hides a routine. -/
theorem identifier_ne_of_own_mem (made : grammar.parser settings = .ok program)
    (hygienic : Target.python.IsHygienic program) {routine : Routine} (member : routine ∈ program.routines)
    (ofRule : routine.role = .rule) {definition : Definition} (defined : definition ∈ program.definitions)
    (spoken : .routine routine.name ∈ PythonModule.definitionUses definition) {name : String}
    (own : .own name ∈ PythonModule.definitionUses definition) :
    PythonModule.identifier name ≠ PythonModule.identifier routine.name := by
  cases definition with
  | global variableDefinition =>
      cases type : variableDefinition.type <;>
        simp [PythonModule.definitionUses, PythonModule.typeUses, type] at own
  | routine other =>
      have otherMember : other ∈ program.routines := List.mem_filterMap.mpr ⟨_, defined, rfl⟩
      have ownHere : .own name ∈ PythonModule.routineUses other := by
        rcases List.mem_cons.mp own with same | inRoutine
        · cases same
        · exact inRoutine
      rcases List.mem_cons.mp spoken with named | called
      -- The only variable of a rule's own routine is the token variable.
      · have universal := congrArg Naming.universal (NameUse.routine.inj named).symm
        cases List.inj_on_of_nodup_map (distinct_universal_names_routines made) otherMember member universal
        rcases exists_production_of_role made member ofRule with ⟨production, declared, steps, routineFor⟩
        rcases routineFor.speaks.known _ ownHere with variableUse | ⟨_, _, isRoutine⟩
        · have isToken : name = settings.tokenVariable := by simpa [PythonModule.ruleUses] using variableUse
          rw [isToken]
          exact (identifier_ne_tokenVariable made .python (name_mem_names_of_role made member ofRule)).symm
        · cases isRoutine
      · intro same
        cases hygienic.locals other otherMember _ ownHere rfl _ called same.symm

/-- In a module in which no name is taken for another, the identifier of a rule's routine on
the lines of a definition stands either for that routine or for a variable of the definition,
and never for both. -/
theorem means_one_of_isHygienic (keeps : grammar.KeepsToLines) (made : grammar.parser settings = .ok program)
    (hygienic : Target.python.IsHygienic program) {routine : Routine} (member : routine ∈ program.routines)
    (ofRule : routine.role = .rule) :
    List.Forall₂ (fun definition lines => ∀ line ∈ lines,
        PythonModule.identifier routine.name ∈ PythonModule.namesOn line ->
          (.routine routine.name ∈ PythonModule.definitionUses definition ↔
            ∀ name, .own name ∈ PythonModule.definitionUses definition ->
              PythonModule.identifier name ≠ PythonModule.identifier routine.name))
      program.definitions ((PythonModule.dialect.writeDefinitions program.definitions).run .fresh).1 := by
  rcases List.forall₂_iff_zip.mp (routine_mem_of_identifier_mem keeps made member ofRule) with ⟨length, each⟩
  refine List.forall₂_iff_zip.mpr ⟨length, fun {definition lines} paired line inLines found => ?_⟩
  have defined := (List.of_mem_zip paired).1
  constructor
  · exact fun spoken name own => identifier_ne_of_own_mem made hygienic member ofRule defined spoken own
  · intro apart
    rcases each paired line inLines found with spoken | ⟨name, own, same⟩
    · exact spoken
    · exact absurd same (apart name own)

end Grammar
end PredictiveParsing
