import PredictiveParsing.Proofs.NestingDepth
import PredictiveParsing.Proofs.SteadyWriting

namespace PredictiveParsing

/-!
# Branches as decision lists

A branch is a list of bodies under conditions, which are tested in order.  The languages write
it in opposite directions: a program of Rust has its chain of arms put together from the last
one on, each time with what has been put together behind an `else`, while a module goes through
the arms in order and chooses the keyword of each by its place.  That nothing is lost, doubled
or attached to another arm is seen by reading the branch again.  A reader that goes over the
tokens, or the lines, once from the start finds the same list in both.

Without arms there is nothing to test, and only the statements of the fallback are written.
-/

/-! ## Decision lists -/

/-- Bodies under conditions that are tested in order, and one for when no condition holds. -/
structure DecisionList (Condition Body : Type) where
  /-- The bodies with their conditions. -/
  arms : List (Condition × Body)
  /-- What is done when no condition holds, if anything. -/
  fallback : Option Body

def DecisionList.map {Condition Body OtherCondition OtherBody : Type} (condition : Condition -> OtherCondition)
    (body : Body -> OtherBody) (list : DecisionList Condition Body) : DecisionList OtherCondition OtherBody :=
  ⟨list.arms.map fun arm => (condition arm.1, body arm.2), list.fallback.map body⟩

/-! ## Chains of tokens -/

namespace RustProgram

open SourceToken

/-- What follows an arm: the arms after it, each behind an `else`, and the fallback. -/
def elseTokens (arms : List (List SourceToken × List (List SourceToken)))
    (fallback : Option (List (List SourceToken))) : List SourceToken :=
  (arms.flatMap fun arm => .atom "else" :: armTokens arm.1 arm.2) ++ fallbackTokens fallback

/-- Arms that are put together from the last one on stand in their order behind the first. -/
theorem tail_foldl_prepend (arms : List (List SourceToken × List (List SourceToken)))
    (fallback : Option (List (List SourceToken))) :
    (arms.reverse.foldl Chain.prepend ⟨[], fallbackTokens fallback⟩).tail = elseTokens arms fallback := by
  rw [List.foldl_reverse]
  induction arms with
  | nil => rfl
  | cons arm rest inductionHypothesis =>
      rw [List.foldr_cons, Chain.prepend, inductionHypothesis, elseTokens, elseTokens, List.flatMap_cons,
        List.cons_append, List.cons_append, List.append_assoc]

theorem branchTokens_cons (arm : List SourceToken × List (List SourceToken))
    (rest : List (List SourceToken × List (List SourceToken))) (fallback : Option (List (List SourceToken))) :
    branchTokens (arm :: rest) fallback = armTokens arm.1 arm.2 ++ elseTokens rest fallback := by
  rw [branchTokens, List.reverse_cons, List.foldl_append, List.foldl_cons, List.foldl_nil, Chain.prepend,
    tail_foldl_prepend]

/-- Where a reader of a chain stands. -/
inductive ChainPlace where
  /-- Before the first arm. -/
  | start
  /-- In a condition of which the tokens have been read. -/
  | condition (read : List SourceToken)
  /-- Behind the body of an arm. -/
  | behindBody
  /-- Behind an `else`. -/
  | behindElse
  /-- Behind the body of the fallback. -/
  | finished (otherwise : List SourceToken)
  /-- At tokens that are not part of a chain. -/
  | lost

/-- A reader of a chain with the arms that it has read. -/
structure ChainReader where
  /-- The conditions and the bodies so far. -/
  arms : List (List SourceToken × List SourceToken)
  /-- Where the reader stands. -/
  place : ChainPlace

def ChainReader.step : ChainReader -> SourceToken -> ChainReader
  | ⟨arms, .start⟩, .atom text | ⟨arms, .behindElse⟩, .atom text =>
      ⟨arms, if text = "if" then .condition [] else .lost⟩
  | ⟨arms, .condition read⟩, .group .brace body => ⟨arms ++ [(read, body)], .behindBody⟩
  | ⟨arms, .condition read⟩, token => ⟨arms, .condition (read ++ [token])⟩
  | ⟨arms, .behindBody⟩, .atom text => ⟨arms, if text = "else" then .behindElse else .lost⟩
  | ⟨arms, .behindElse⟩, .group .brace body => ⟨arms, .finished body⟩
  | ⟨arms, _⟩, _ => ⟨arms, .lost⟩

/-- The decision list that has been read, if the chain can end here. -/
def ChainReader.result : ChainReader -> Option (DecisionList (List SourceToken) (List SourceToken))
  | ⟨arms, .behindBody⟩ => some ⟨arms, none⟩
  | ⟨arms, .finished otherwise⟩ => some ⟨arms, some otherwise⟩
  | _ => none

/-- Reads the decision list of a branch. -/
def readBranch (tokens : List SourceToken) : Option (DecisionList (List SourceToken) (List SourceToken)) :=
  (tokens.foldl ChainReader.step ⟨[], .start⟩).result

def isBody : SourceToken -> Bool
  | .group .brace _ => true
  | _ => false

/-- A condition is read to its end if it holds no statements. -/
theorem foldl_step_condition {condition : List SourceToken} (noBody : ∀ token ∈ condition, isBody token = false)
    (arms : List (List SourceToken × List SourceToken)) (read : List SourceToken) :
    condition.foldl ChainReader.step ⟨arms, .condition read⟩ = ⟨arms, .condition (read ++ condition)⟩ := by
  induction condition generalizing read with
  | nil => rw [List.foldl_nil, List.append_nil]
  | cons token rest inductionHypothesis =>
      rcases List.forall_mem_cons.mp noBody with ⟨first, later⟩
      have steps : ChainReader.step ⟨arms, .condition read⟩ token = ⟨arms, .condition (read ++ [token])⟩ := by
        cases token with
        | atom text => rfl
        | group delimiter content =>
            cases delimiter with
            | parenthesis => rfl
            | bracket => rfl
            | brace => cases first
      rw [List.foldl_cons, steps, inductionHypothesis later, List.append_assoc, List.singleton_append]

/-- The reader goes over one arm from where it expects one. -/
theorem foldl_step_armTokens {condition : List SourceToken} (noBody : ∀ token ∈ condition, isBody token = false)
    (body : List (List SourceToken)) (arms : List (List SourceToken × List SourceToken)) {place : ChainPlace}
    (expects : place = .start ∨ place = .behindElse) :
    (armTokens condition body).foldl ChainReader.step ⟨arms, place⟩ =
      ⟨arms ++ [(condition, body.flatten)], .behindBody⟩ := by
  have begins : ChainReader.step ⟨arms, place⟩ (.atom "if") = ⟨arms, .condition []⟩ := by
    rcases expects with rfl | rfl <;> rfl
  rw [armTokens, List.cons_append, List.foldl_cons, begins, List.foldl_append, foldl_step_condition noBody,
    List.nil_append]
  rfl

/-- The reader goes over all arms behind the first. -/
theorem foldl_step_later {arms : List (List SourceToken × List (List SourceToken))}
    (noBody : ∀ arm ∈ arms, ∀ token ∈ arm.1, isBody token = false)
    (read : List (List SourceToken × List SourceToken)) :
    (arms.flatMap fun arm => .atom "else" :: armTokens arm.1 arm.2).foldl ChainReader.step ⟨read, .behindBody⟩ =
      ⟨read ++ arms.map fun arm => (arm.1, arm.2.flatten), .behindBody⟩ := by
  induction arms generalizing read with
  | nil => rw [List.flatMap_nil, List.foldl_nil, List.map_nil, List.append_nil]
  | cons arm rest inductionHypothesis =>
      rcases List.forall_mem_cons.mp noBody with ⟨first, later⟩
      have behind : ChainReader.step ⟨read, .behindBody⟩ (.atom "else") = ⟨read, .behindElse⟩ := rfl
      rw [List.flatMap_cons, List.foldl_append, List.foldl_cons, behind,
        foldl_step_armTokens first arm.2 read (Or.inr rfl), inductionHypothesis later, List.append_assoc,
        List.singleton_append, List.map_cons]

/-- A chain is read as its arms in their order, with its fallback behind the last of them. -/
theorem readBranch_branchTokens {arm : List SourceToken × List (List SourceToken)}
    {rest : List (List SourceToken × List (List SourceToken))}
    (noBody : ∀ one ∈ arm :: rest, ∀ token ∈ one.1, isBody token = false)
    (fallback : Option (List (List SourceToken))) :
    readBranch (branchTokens (arm :: rest) fallback) =
      some ⟨(arm :: rest).map fun one => (one.1, one.2.flatten), fallback.map List.flatten⟩ := by
  rcases List.forall_mem_cons.mp noBody with ⟨first, later⟩
  rw [readBranch, branchTokens_cons, List.foldl_append, foldl_step_armTokens first arm.2 [] (Or.inl rfl), elseTokens,
    List.foldl_append, foldl_step_later later, List.nil_append, List.singleton_append, List.map_cons]
  cases fallback with
  | none => rfl
  | some body => rfl

theorem isBody_of_mem_words (text : String) : ∀ token ∈ words text, isBody token = false := by
  intro token member
  rcases List.mem_map.mp member with ⟨word, _, rfl⟩
  rfl

theorem isBody_of_mem_parenthesized (content : List SourceToken) :
    ∀ token ∈ parenthesized content, isBody token = false :=
  List.forall_mem_singleton.mpr rfl

/-- No expression holds statements, since whatever groups it has are in parentheses. -/
theorem isBody_of_mem_expressionTokens (expression : Expression) :
    ∀ token ∈ expressionTokens expression, isBody token = false := by
  cases expression with
  | text value =>
      rw [expressionTokens]
      exact List.forall_mem_singleton.mpr rfl
  | var name =>
      rw [expressionTokens]
      exact List.forall_mem_singleton.mpr rfl
  | argument number =>
      rw [expressionTokens]
      simp only [List.forall_mem_append]
      exact ⟨⟨⟨⟨⟨isBody_of_mem_words _, isBody_of_mem_parenthesized _⟩, isBody_of_mem_words _⟩,
        isBody_of_mem_parenthesized _⟩, isBody_of_mem_words _⟩, isBody_of_mem_parenthesized _⟩
  | call routine arguments =>
      rw [expressionTokens, application]
      exact List.forall_mem_append.mpr ⟨isBody_of_mem_words _,
        List.forall_mem_cons.mpr ⟨rfl, isBody_of_mem_parenthesized _⟩⟩
  | field record field =>
      rw [expressionTokens]
      exact List.forall_mem_append.mpr ⟨isBody_of_mem_expressionTokens record,
        List.forall_mem_cons.mpr ⟨rfl, List.forall_mem_singleton.mpr rfl⟩⟩
  | equal left right =>
      rw [expressionTokens]
      exact List.forall_mem_append.mpr ⟨isBody_of_mem_expressionTokens left,
        List.forall_mem_cons.mpr ⟨rfl, isBody_of_mem_expressionTokens right⟩⟩
  | different left right =>
      rw [expressionTokens]
      exact List.forall_mem_append.mpr ⟨isBody_of_mem_expressionTokens left,
        List.forall_mem_cons.mpr ⟨rfl, isBody_of_mem_expressionTokens right⟩⟩

def bodyTokens (statements : List Statement) : List SourceToken :=
  ((dialect.writeBlock statements).run .fresh).1.flatten

end RustProgram

/-! ## Fragments of modules -/

namespace Layout

/-- Whether the lines are what their text falls into. -/
structure IsFragment (lines : List String) : Prop where
  nonempty : lines ≠ []
  noFeed : ∀ line ∈ lines, '\n' ∉ line.toList

theorem isFragment_singleton {line : String} (noFeed : '\n' ∉ line.toList) : IsFragment [line] :=
  ⟨List.cons_ne_nil _ _, List.forall_mem_singleton.mpr noFeed⟩

theorem isFragment_ofText (text : String) : IsFragment (ofText text) where
  nonempty := by
    rw [ofText, Text.segments, Text.pieces]
    exact List.cons_ne_nil _ _
  noFeed _ member := Text.not_mem_of_mem_segments member

/-- A line of a block is the placeholder, or it stands in a fragment without the step inwards. -/
theorem exists_of_mem_block {fragments : List (List String)} {line : String} (member : line ∈ block fragments) :
    line = "\tpass" ∨ ∃ fragment ∈ fragments, ∃ settled ∈ Text.settle fragment, line = indentLine settled := by
  rw [block] at member
  split at member
  · exact Or.inl (List.mem_singleton.mp member)
  · rcases List.mem_flatMap.mp member with ⟨fragment, kept, inFragment⟩
    rcases List.mem_map.mp inFragment with ⟨settled, found, rfl⟩
    exact Or.inr ⟨fragment, List.mem_of_mem_filter kept, settled, found, rfl⟩

theorem noFeed_block {fragments : List (List String)} (each : ∀ fragment ∈ fragments, IsFragment fragment) :
    ∀ line ∈ block fragments, '\n' ∉ line.toList := by
  intro line member
  rcases exists_of_mem_block member with rfl | ⟨fragment, inFragments, settled, found, rfl⟩
  · decide
  · rcases Text.exists_segment_of_mem_settle found with ⟨segment, inFragment, subset⟩
    have noFeed : '\n' ∉ settled.toList := fun feed =>
      (each fragment inFragments).noFeed segment inFragment (subset feed)
    rw [indentLine]
    split
    · exact noFeed
    · rw [toList_tab]
      exact List.not_mem_cons_of_ne_of_not_mem (by decide) noFeed

theorem isFragment_flatten {fragments : List (List String)} (nonempty : fragments ≠ [])
    (each : ∀ fragment ∈ fragments, IsFragment fragment) : IsFragment fragments.flatten where
  nonempty := by
    rcases List.exists_cons_of_ne_nil nonempty with ⟨first, rest, rfl⟩
    rw [List.flatten_cons]
    exact List.append_ne_nil_of_left_ne_nil (each first List.mem_cons_self).nonempty _
  noFeed line member := by
    rcases List.mem_flatten.mp member with ⟨fragment, inFragments, inFragment⟩
    exact (each fragment inFragments).noFeed line inFragment

theorem isFragment_stack {fragments : List (List String)} (each : ∀ fragment ∈ fragments, IsFragment fragment) :
    IsFragment (stack fragments) := by
  cases fragments with
  | nil => exact isFragment_singleton (by decide)
  | cons fragment rest => exact isFragment_flatten (List.cons_ne_nil _ _) each

/-- The text of fragments below each other is made of their texts. -/
theorem text_stack {fragments : List (List String)} (each : ∀ fragment ∈ fragments, IsFragment fragment) :
    text (stack fragments) = "\n".intercalate (fragments.map text) := by
  cases fragments with
  | nil => rfl
  | cons fragment rest =>
      rw [stack]
      · induction rest generalizing fragment with
        | nil => rw [List.flatten_cons, List.flatten_nil, List.append_nil, List.map_singleton, String.intercalate_singleton]
        | cons next others inductionHypothesis =>
            rcases List.forall_mem_cons.mp each with ⟨first, later⟩
            have behind := isFragment_flatten (List.cons_ne_nil next others) later
            rw [List.flatten_cons, text_append first.nonempty behind.nonempty, inductionHypothesis next later,
              List.map_cons, List.map_cons, List.map_cons, String.intercalate_cons_cons]
      · exact List.cons_ne_nil _ _

end Layout

namespace PythonModule

open Layout (IsFragment isFragment_singleton)

theorem isFragment_code {line : String} (code : IsCode line) : IsFragment [line] :=
  isFragment_singleton code.noFeed

/-- A header with the block below it, before more lines. -/
theorem isFragment_header {line : String} (code : IsCode line) {body : List (List String)}
    (each : ∀ fragment ∈ body, IsFragment fragment) {rest : List String} (noFeed : ∀ other ∈ rest, '\n' ∉ other.toList) :
    IsFragment ((line ++ ":") :: Layout.block body ++ rest) where
  nonempty := List.cons_ne_nil _ _
  noFeed := by
    refine List.forall_mem_append.mpr ⟨List.forall_mem_cons.mpr ⟨?_, Layout.noFeed_block each⟩, noFeed⟩
    rw [String.toList_append]
    exact List.not_mem_append code.noFeed (by decide)

theorem noFeed_fallbackLines {fallback : Option (List (List String))}
    (each : ∀ body ∈ fallback, ∀ fragment ∈ body, IsFragment fragment) :
    ∀ line ∈ fallbackLines fallback, '\n' ∉ line.toList := by
  cases fallback with
  | none => exact List.forall_mem_nil _
  | some body => exact List.forall_mem_cons.mpr ⟨by decide, Layout.noFeed_block (each body rfl)⟩

theorem noFeed_laterArms {arms : List (String × List (List String))}
    (each : ∀ arm ∈ arms, IsCode arm.1 ∧ ∀ fragment ∈ arm.2, IsFragment fragment) :
    ∀ line ∈ laterArms arms, '\n' ∉ line.toList := by
  induction arms with
  | nil => exact List.forall_mem_nil _
  | cons arm rest inductionHypothesis =>
      rcases List.forall_mem_cons.mp each with ⟨⟨code, fragments⟩, later⟩
      have keyword : IsCode "elif " := by decide
      exact (isFragment_header (keyword.append code) fragments (inductionHypothesis later)).noFeed

theorem isFragment_branchLines {arms : List (String × List (List String))} {fallback : Option (List (List String))}
    (each : ∀ arm ∈ arms, IsCode arm.1 ∧ ∀ fragment ∈ arm.2, IsFragment fragment)
    (otherwise : ∀ body ∈ fallback, ∀ fragment ∈ body, IsFragment fragment) :
    IsFragment (branchLines arms fallback) := by
  cases arms with
  | nil =>
      cases fallback with
      | none => exact isFragment_singleton (by decide)
      | some body => exact Layout.isFragment_stack (otherwise body rfl)
  | cons arm rest =>
      rcases List.forall_mem_cons.mp each with ⟨⟨code, fragments⟩, later⟩
      have keyword : IsCode "if " := by decide
      rw [branchLines, List.append_assoc]
      exact isFragment_header (keyword.append code) fragments
        (List.forall_mem_append.mpr ⟨noFeed_laterArms later, noFeed_fallbackLines otherwise⟩)

mutual

/-- Every statement becomes a fragment. -/
theorem gives_isFragment : ∀ statement : Statement, Gives (dialect.writeStatement statement) IsFragment
  | .comment text => by
      rw [Dialect.writeStatement]
      exact .pure (Layout.isFragment_ofText _)
  | .declare name type => by
      rw [Dialect.writeStatement]
      exact (Gives.need _).bind fun _ _ => .pure (isFragment_code (isCode_typed name type))
  | .assign name value => by
      have sign : IsCode " = " := by decide
      rw [Dialect.writeStatement]
      exact (gives_isCode value).bind fun _ code =>
        .pure (isFragment_code (((IsCode.identifier name).append sign).append code))
  | .call routine arguments => by
      rw [Dialect.writeStatement]
      exact (gives_writeExpressions arguments).bind fun _ each => .pure (isFragment_code (.application routine each))
  | .branch arms fallback => by
      rw [Dialect.writeStatement]
      exact (gives_fragmentsOfArms arms).bind fun _ each =>
        (gives_fragmentsOfFallback fallback).bind fun _ otherwise => .pure (isFragment_branchLines each otherwise)
  | .mismatch position expected => by
      rw [Dialect.writeStatement, Dialect.writeMismatch]
      refine (gives_isCode position).bind fun _ placeCode => (gives_isCode _).bind fun _ textCode =>
        .pure (isFragment_code (.application _ ?_))
      exact List.forall_mem_cons.mpr ⟨placeCode, List.forall_mem_singleton.mpr textCode⟩
  | .leave none => by
      rw [Dialect.writeStatement]
      exact .pure (isFragment_singleton (by decide))
  | .leave (some value) => by
      have word : IsCode "return " := by decide
      rw [Dialect.writeStatement]
      exact (gives_isCode value).bind fun _ code => .pure (isFragment_code (word.append code))
  | .primitive operation => by
      rw [Dialect.writeStatement]
      exact (Gives.need _).bind fun _ _ => .pure ⟨primitiveLines_ne_nil operation,
        fun line member => ((isTidy_primitiveLines operation).isLine line member).noFeed⟩

theorem gives_fragments : ∀ statements : List Statement,
    Gives (dialect.writeBlock statements) fun fragments => ∀ fragment ∈ fragments, IsFragment fragment
  | [] => by
      rw [Dialect.writeBlock]
      exact .pure (List.forall_mem_nil _)
  | statement :: rest => by
      rw [Dialect.writeBlock]
      exact (gives_isFragment statement).bind fun _ first => (gives_fragments rest).bind fun _ later =>
        .pure (List.forall_mem_cons.mpr ⟨first, later⟩)

theorem gives_fragmentsOfArms : ∀ arms : List (Expression × List Statement),
    Gives (dialect.writeArms arms) fun written =>
      ∀ arm ∈ written, IsCode arm.1 ∧ ∀ fragment ∈ arm.2, IsFragment fragment
  | [] => by
      rw [Dialect.writeArms]
      exact .pure (List.forall_mem_nil _)
  | (condition, body) :: rest => by
      rw [Dialect.writeArms]
      exact (gives_isCode condition).bind fun _ code => (gives_fragments body).bind fun _ fragments =>
        (gives_fragmentsOfArms rest).bind fun _ later => .pure (List.forall_mem_cons.mpr ⟨⟨code, fragments⟩, later⟩)

theorem gives_fragmentsOfFallback : ∀ fallback : Option (List Statement),
    Gives (dialect.writeFallback fallback) fun written =>
      ∀ body ∈ written, ∀ fragment ∈ body, IsFragment fragment
  | none => by
      rw [Dialect.writeFallback]
      exact .pure nofun
  | some body => by
      rw [Dialect.writeFallback]
      refine (gives_fragments body).bind fun fragments each => .pure fun written same => ?_
      cases Option.mem_some_iff.mp same
      exact each

end

/-! ## Branches of lines -/

/-- Whether the line stands below a header, which begins at the margin. -/
def isInner (line : String) : Bool :=
  line.toList.head?.all (· == '\t')

theorem isInner_of_mem_block {fragments : List (List String)} :
    ∀ line ∈ Layout.block fragments, isInner line = true := by
  intro line member
  rcases Layout.exists_of_mem_block member with rfl | ⟨_, _, settled, _, rfl⟩
  · rfl
  · rw [Layout.indentLine]
    split
    · rename_i empty
      rw [String.isEmpty_iff.mp empty]
      rfl
    · rw [isInner, Layout.toList_tab]
      rfl

/-- What stands between the keyword at the start of a line and the colon at its end. -/
def underKeyword? (keyword line : String) : Option String :=
  if keyword.toList.isPrefixOf line.toList && line.toList.getLast? == some ':' then
    some (String.ofList (line.toList.drop keyword.toList.length).dropLast)
  else none

theorem underKeyword?_header (keyword condition : String) :
    underKeyword? keyword (keyword ++ condition ++ ":") = some condition := by
  have spelled : (keyword ++ condition ++ ":").toList = keyword.toList ++ (condition.toList ++ [':']) := by
    rw [String.toList_append, String.toList_append, List.append_assoc]
    rfl
  have begins : keyword.toList.isPrefixOf (keyword.toList ++ (condition.toList ++ [':'])) = true :=
    List.isPrefixOf_iff_prefix.mpr (List.prefix_append _ _)
  have ends : ((keyword.toList ++ (condition.toList ++ [':'])).getLast? == some ':') = true := by
    rw [← List.append_assoc, List.getLast?_concat, beq_self_eq_true]
  rw [underKeyword?, spelled, begins, ends, Bool.and_self, if_pos rfl, List.drop_left, List.dropLast_concat,
    String.ofList_toList]

/-- Where a reader of a branch stands. -/
inductive BranchPlace where
  /-- Before the first header. -/
  | start
  /-- Below the header of an arm. -/
  | arm (condition : String) (body : List String)
  /-- Below the header of the fallback. -/
  | fallback (body : List String)
  /-- At lines that are not part of a branch. -/
  | lost

structure BranchReader where
  /-- The conditions and the bodies so far. -/
  arms : List (String × List String)
  /-- Where the reader stands. -/
  place : BranchPlace

def BranchReader.step : BranchReader -> String -> BranchReader
  | ⟨arms, .start⟩, line => ⟨arms, ((underKeyword? "if " line).map fun condition => .arm condition []).getD .lost⟩
  | ⟨arms, .arm condition body⟩, line =>
      if isInner line then ⟨arms, .arm condition (body ++ [line])⟩
      else
        match underKeyword? "elif " line with
        | some next => ⟨arms ++ [(condition, body)], .arm next []⟩
        | none => ⟨arms ++ [(condition, body)], if line = "else:" then .fallback [] else .lost⟩
  | ⟨arms, .fallback body⟩, line => ⟨arms, if isInner line then .fallback (body ++ [line]) else .lost⟩
  | ⟨arms, .lost⟩, _ => ⟨arms, .lost⟩

def BranchReader.result : BranchReader -> Option (DecisionList String (List String))
  | ⟨arms, .arm condition body⟩ => some ⟨arms ++ [(condition, body)], none⟩
  | ⟨arms, .fallback body⟩ => some ⟨arms, some body⟩
  | _ => none

def readBranch (text : String) : Option (DecisionList String (List String)) :=
  ((Text.segments text).foldl BranchReader.step ⟨[], .start⟩).result

variable {arms : List (String × List String)}

theorem foldl_step_body {lines : List String} (inner : ∀ line ∈ lines, isInner line = true) (condition : String)
    (body : List String) :
    lines.foldl BranchReader.step ⟨arms, .arm condition body⟩ = ⟨arms, .arm condition (body ++ lines)⟩ := by
  induction lines generalizing body with
  | nil => rw [List.foldl_nil, List.append_nil]
  | cons line rest inductionHypothesis =>
      rcases List.forall_mem_cons.mp inner with ⟨first, later⟩
      have steps : BranchReader.step ⟨arms, .arm condition body⟩ line = ⟨arms, .arm condition (body ++ [line])⟩ :=
        if_pos first
      rw [List.foldl_cons, steps, inductionHypothesis later, List.append_assoc, List.singleton_append]

theorem foldl_step_fallback {lines : List String} (inner : ∀ line ∈ lines, isInner line = true)
    (body : List String) :
    lines.foldl BranchReader.step ⟨arms, .fallback body⟩ = ⟨arms, .fallback (body ++ lines)⟩ := by
  induction lines generalizing body with
  | nil => rw [List.foldl_nil, List.append_nil]
  | cons line rest inductionHypothesis =>
      rcases List.forall_mem_cons.mp inner with ⟨first, later⟩
      have steps : BranchReader.step ⟨arms, .fallback body⟩ line = ⟨arms, .fallback (body ++ [line])⟩ := by
        rw [BranchReader.step, first, if_pos rfl]
      rw [List.foldl_cons, steps, inductionHypothesis later, List.append_assoc, List.singleton_append]

/-- The header of a later arm ends the arm above it. -/
theorem step_elif (condition next : String) (body : List String) :
    BranchReader.step ⟨arms, .arm condition body⟩ ("elif " ++ next ++ ":") =
      ⟨arms ++ [(condition, body)], .arm next []⟩ := by
  have margin : isInner ("elif " ++ next ++ ":") = false := by
    rw [isInner, String.toList_append, String.toList_append]
    rfl
  rw [BranchReader.step, margin, if_neg Bool.false_ne_true, underKeyword?_header]

/-- What follows the header of an arm is read as the body of this arm, the arms after it in their
order, and the fallback behind the last of them. -/
theorem result_foldl_step (later : List (String × List (List String))) (fallback : Option (List (List String)))
    (condition : String) (body : List String) :
    ((laterArms later ++ fallbackLines fallback).foldl BranchReader.step ⟨arms, .arm condition body⟩).result =
      some ⟨arms ++ (condition, body) :: later.map fun arm => (arm.1, Layout.block arm.2),
        fallback.map Layout.block⟩ := by
  induction later generalizing arms condition body with
  | nil =>
      cases fallback with
      | none => rfl
      | some otherwise =>
          have ends : BranchReader.step ⟨arms, .arm condition body⟩ "else:" =
              ⟨arms ++ [(condition, body)], .fallback []⟩ := rfl
          rw [laterArms, List.nil_append, fallbackLines, List.foldl_cons, ends,
            foldl_step_fallback isInner_of_mem_block]
          rfl
  | cons arm rest inductionHypothesis =>
      rcases arm with ⟨next, fragments⟩
      rw [laterArms, List.cons_append, List.cons_append, List.foldl_cons, step_elif, List.append_assoc,
        List.foldl_append, foldl_step_body isInner_of_mem_block, inductionHypothesis, List.append_assoc,
        List.singleton_append, List.map_cons, List.nil_append]

/-- A branch is read as its arms in their order, with its fallback behind the last of them. -/
theorem readBranch_text_branchLines {arm : String × List (List String)} {rest : List (String × List (List String))}
    {fallback : Option (List (List String))} (isFragment : IsFragment (branchLines (arm :: rest) fallback)) :
    readBranch (Layout.text (branchLines (arm :: rest) fallback)) =
      some ⟨(arm :: rest).map fun one => (one.1, Layout.block one.2), fallback.map Layout.block⟩ := by
  have begins : BranchReader.step ⟨[], .start⟩ ("if " ++ arm.1 ++ ":") = ⟨[], .arm arm.1 []⟩ := by
    rw [BranchReader.step, underKeyword?_header]
    rfl
  rw [readBranch, Layout.segments_text isFragment.nonempty isFragment.noFeed, branchLines, List.append_assoc,
    List.cons_append, List.foldl_cons, begins, List.foldl_append, foldl_step_body isInner_of_mem_block,
    List.nil_append, result_foldl_step, List.nil_append, List.map_cons]

/-- The fragments that statements become. -/
def fragmentsOf (statements : List Statement) : List (List String) :=
  ((dialect.writeBlock statements).run .fresh).1

/-- The lines of statements below a header. -/
def suiteLines (statements : List Statement) : List String :=
  Layout.block (fragmentsOf statements)

theorem isFragment_of_mem_fragmentsOf (statements : List Statement) :
    ∀ fragment ∈ fragmentsOf statements, IsFragment fragment :=
  (gives_fragments statements .fresh nofun).1

end PythonModule

/-! ## Branches in both languages -/

def RustProgram.conditionalTokens (arm : Expression × List Statement) : List SourceToken :=
  .atom "if" :: RustProgram.expressionTokens arm.1 ++ SourceToken.braced (RustProgram.bodyTokens arm.2)

/-- What a branch becomes among the tokens, in terms of its arms by themselves. -/
theorem RustProgram.run_branch (arms : List (Expression × List Statement)) (fallback : Option (List Statement))
    (memory : RustProgram.Memory) :
    ((RustProgram.dialect.writeStatement (.branch arms fallback)).run memory).1 =
      RustProgram.branchTokens
        (arms.map fun arm =>
          (RustProgram.expressionTokens arm.1, ((RustProgram.dialect.writeBlock arm.2).run .fresh).1))
        (fallback.map fun body => ((RustProgram.dialect.writeBlock body).run .fresh).1) :=
  RustProgram.isSteady.run_writeStatement_branch .fresh memory arms fallback

/-- What a branch becomes among the lines, in terms of its arms by themselves. -/
theorem PythonModule.run_branch (arms : List (Expression × List Statement)) (fallback : Option (List Statement))
    (memory : PythonModule.Memory) :
    ((PythonModule.dialect.writeStatement (.branch arms fallback)).run memory).1 =
      PythonModule.branchLines
        (arms.map fun arm => (PythonModule.expressionText arm.1, PythonModule.fragmentsOf arm.2))
        (fallback.map PythonModule.fragmentsOf) :=
  PythonModule.isSteady.run_writeStatement_branch .fresh memory arms fallback

/-- A branch with arms is written in Rust as its arms in order, each after the first behind an `else`,
with that of the fallback behind the last, if there is one.  Read again, it is the decision list of the
branch, and so is what is written in Python.  Without arms both write the statements of the fallback, or
nothing. -/
theorem DecisionList.read_branch (first : Expression × List Statement) (rest : List (Expression × List Statement))
    (fallback : Option (List Statement)) (rustMemory : RustProgram.Memory) (pythonMemory : PythonModule.Memory) :
    let list : DecisionList Expression (List Statement) := ⟨first :: rest, fallback⟩
    let tokens := ((RustProgram.dialect.writeStatement (.branch (first :: rest) fallback)).run rustMemory).1
    let lines := ((PythonModule.dialect.writeStatement (.branch (first :: rest) fallback)).run pythonMemory).1
    (tokens = RustProgram.conditionalTokens first ++
        (rest.flatMap fun arm => .atom "else" :: RustProgram.conditionalTokens arm) ++
        fallback.elim [] fun body => .atom "else" :: SourceToken.braced (RustProgram.bodyTokens body)) ∧
    RustProgram.readBranch tokens = some (list.map RustProgram.expressionTokens RustProgram.bodyTokens) ∧
    PythonModule.readBranch (Layout.text lines) = some (list.map PythonModule.expressionText PythonModule.suiteLines) ∧
    ((RustProgram.dialect.writeStatement (.branch [] fallback)).run rustMemory).1 =
      fallback.elim [] RustProgram.bodyTokens ∧
    Layout.text ((PythonModule.dialect.writeStatement (.branch [] fallback)).run pythonMemory).1 =
      fallback.elim "" fun body => "\n".intercalate ((PythonModule.fragmentsOf body).map Layout.text) := by
  intro list tokens lines
  have written : tokens = _ := RustProgram.run_branch (first :: rest) fallback rustMemory
  have linesWritten : lines = _ := PythonModule.run_branch (first :: rest) fallback pythonMemory
  refine ⟨?_, ?_, ?_, ?_, ?_⟩
  · rw [written, List.map_cons, RustProgram.branchTokens_cons, RustProgram.elseTokens, List.flatMap_map,
      List.append_assoc]
    cases fallback <;> rfl
  · have noBody : ∀ one ∈ (first :: rest).map fun arm =>
        (RustProgram.expressionTokens arm.1, ((RustProgram.dialect.writeBlock arm.2).run .fresh).1),
        ∀ token ∈ one.1, RustProgram.isBody token = false := by
      intro one member
      rcases List.mem_map.mp member with ⟨arm, _, rfl⟩
      exact RustProgram.isBody_of_mem_expressionTokens arm.1
    rw [written, List.map_cons, RustProgram.readBranch_branchTokens noBody]
    simp only [list, DecisionList.map, List.map_cons, List.map_map, Option.map_map]
    rfl
  · have gives := (PythonModule.gives_isFragment (.branch (first :: rest) fallback) .fresh nofun).1
    rw [PythonModule.run_branch, List.map_cons] at gives
    rw [linesWritten, List.map_cons, PythonModule.readBranch_text_branchLines gives]
    simp only [list, DecisionList.map, List.map_cons, List.map_map, Option.map_map]
    rfl
  · rw [RustProgram.run_branch]
    cases fallback <;> rfl
  · rw [PythonModule.run_branch]
    cases fallback with
    | none => rfl
    | some body => exact Layout.text_stack (PythonModule.isFragment_of_mem_fragmentsOf body)

end PredictiveParsing
