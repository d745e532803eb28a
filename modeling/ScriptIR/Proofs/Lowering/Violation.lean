import ScriptIR.Proofs.Lowering.Errands

namespace ScriptIR

open Instruction

-- What can be wrong with a node: the trees that are entered before it is found out, the kind of
-- node that is reported, and the error.
inductive Violation : Tree → List Tree → String → LoweringError → Prop
  | pair {children : List Tree} {place : Location} : children.length < 2 →
      Violation (.node .pair children place) [] "key_value_pair"
        ⟨.incomplete .keyAndValue children.length, place⟩
  | arrayAccess {children : List Tree} {place : Location} : children.length < 2 →
      Violation (.node .arrayAccess children place) [] "array_access"
        ⟨.incomplete .arrayAndIndex children.length, place⟩
  | assignment {children : List Tree} {place : Location} : children.length < 2 →
      Violation (.node .assignment children place) [] "assignment"
        ⟨.incomplete .targetAndValue children.length, place⟩
  | ifStatement {children : List Tree} {place : Location} : children.length < 2 →
      Violation (.node .ifStatement children place) [] "if" ⟨.noBranch, place⟩
  | call {place : Location} :
      Violation (.node .call [] place) [] "function_call" ⟨.noCallee, place⟩
  | target {target value : Tree} {more : List Tree} {place : Location} :
      target.kindName ≠ "identifier" → target.kindName ≠ "array_access" →
      Violation (.node .assignment (target :: value :: more) place) [] "assignment"
        ⟨.badTarget target.kindName, target.place⟩
  | element {elements more : List Tree} {value : Tree} {inner place : Location} :
      elements.length < 2 →
      Violation (.node .assignment (.node .arrayAccess elements inner :: value :: more) place) []
        "array_access" ⟨.incomplete .arrayAndIndex elements.length, inner⟩
  | array {array index value : Tree} {others more : List Tree} {inner place : Location} :
      array.kindName ≠ "identifier" →
      Violation
        (.node .assignment (.node .arrayAccess (array :: index :: others) inner :: value :: more)
          place) [] "array_access" ⟨.namelessArray, array.place⟩
  | emptyElse {condition branch : Tree} {more : List Tree} {inner place : Location} :
      Violation
        (.node .ifStatement (condition :: branch :: .node .elseStatement [] inner :: more) place)
        [condition, branch] "else" ⟨.emptyElse, inner⟩

theorem Tree.identifierName?_eq_none {tree : Tree} :
    tree.identifierName? = none ↔ tree.kindName ≠ "identifier" := by
  cases tree with
  | node kind children place => cases kind <;> simp [identifierName?, kindName, Kind.name]
  | _ => simp [identifierName?, kindName]

namespace Errand

-- The first blame among errands, with the trees that are entered before it.
def blamed : List Errand → Option (List Tree × LoweringError)
  | [] => none
  | .write _ :: rest => blamed rest
  | .enter tree :: rest => (blamed rest).map fun (before, error) => (tree :: before, error)
  | .blame error :: _ => some ([], error)

theorem blamed_append_right {more : List Errand} (h : blamed more = none)
    (errands : List Errand) : blamed (errands ++ more) = blamed errands := by
  induction errands with
  | nil => exact h
  | cons errand rest ih => cases errand <;> simp only [List.cons_append, blamed, ih]

theorem blamed_enterAll (trees : List Tree) : blamed (Tree.enterAll trees) = none := by
  induction trees with
  | nil => rfl
  | cons tree rest ih =>
    have hcons : Tree.enterAll (tree :: rest) = .enter tree :: Tree.enterAll rest := rfl
    rw [hcons, blamed, ih]
    rfl

end Errand

namespace Tree

open Errand

section blamed

variable {mode : Mode} {before : List Tree} {error : LoweringError}

theorem blamed_errands (mode : Mode) (tree : Tree) :
    blamed (tree.errands mode) = blamed (tree.ownErrands mode) := by
  apply blamed_append_right
  cases mode with
  | single => rfl
  | revisit =>
    rw [againErrands]
    split
    · exact blamed_enterAll _
    · rfl

theorem blamed_argumentErrands (values : List Tree) : blamed (argumentErrands values) = none := by
  induction values with
  | nil => rfl
  | cons value rest ih =>
    have hcons : argumentErrands (value :: rest) =
        .enter value :: .write arg :: argumentErrands rest := rfl
    rw [hcons, blamed, blamed, ih]
    rfl

end blamed

end Tree

-- What is wrong with a node is the first thing that is blamed at it.
theorem Violation.blamed {tree : Tree} {before : List Tree} {kindName : String}
    {error : LoweringError} (h : Violation tree before kindName error) (mode : Mode) :
    Errand.blamed (tree.errands mode) = some (before, error) := by
  rw [Tree.blamed_errands]
  cases h with
  | @pair children place hc =>
    match children, hc with
    | [], _ => rfl
    | [_], _ => rfl
  | @arrayAccess children place hc =>
    match children, hc with
    | [], _ => rfl
    | [_], _ => rfl
  | @assignment children place hc =>
    match children, hc with
    | [], _ => rfl
    | [_], _ => rfl
  | @ifStatement children place hc =>
    match children, hc with
    | [], _ => rfl
    | [_], _ => rfl
  | call => rfl
  | @target target value more place hi ha =>
    cases target with
    | node kind children inner =>
      cases kind with
      | identifier name => exact absurd rfl hi
      | arrayAccess => exact absurd rfl ha
      | _ => rfl
    | _ => rfl
  | @element elements more value inner place he =>
    match elements, he with
    | [], _ => rfl
    | [_], _ => rfl
  | @array array index value others more inner place ha =>
    have hn := Tree.identifierName?_eq_none.mpr ha
    simp only [Tree.ownErrands, Tree.assignmentErrands, Tree.targetErrands, hn, Errand.blamed]
  | emptyElse => rfl

theorem Violation.kindName_eq {tree : Tree} {before : List Tree} {kindName : String}
    {error : LoweringError} (h : Violation tree before kindName error) :
    error.flaw.kindName = kindName := by
  cases h <;> rfl

namespace Tree

open Errand

theorem couple_or (needed : Couple) (place : Location) (children : List Tree) :
    children.length < 2 ∨ blamed (coupleErrands needed place children) = none := by
  rcases children with _ | ⟨first, _ | ⟨second, more⟩⟩
  · exact .inl (by decide)
  · exact .inl (Nat.lt_succ_self 1)
  · exact .inr rfl

theorem assignment_or (place : Location) (children : List Tree) :
    (∃ before kindName error,
      Violation (.node .assignment children place) before kindName error) ∨
    blamed (assignmentErrands place children) = none := by
  rcases children with _ | ⟨target, _ | ⟨value, more⟩⟩
  · exact .inl ⟨_, _, _, .assignment (by decide)⟩
  · exact .inl ⟨_, _, _, .assignment (Nat.lt_succ_self 1)⟩
  cases target with
  | node kind elements inner =>
    cases kind with
    | identifier name => exact .inr rfl
    | arrayAccess =>
      rcases elements with _ | ⟨array, _ | ⟨index, others⟩⟩
      · exact .inl ⟨_, _, _, .element (by decide)⟩
      · exact .inl ⟨_, _, _, .element (Nat.lt_succ_self 1)⟩
      cases hn : array.identifierName? with
      | none => exact .inl ⟨_, _, _, .array (identifierName?_eq_none.mp hn)⟩
      | some name =>
        right
        simp only [assignmentErrands, targetErrands, hn]
        rfl
    | _ => exact .inl ⟨_, _, _, .target (by simp [kindName, Kind.name])
      (by simp [kindName, Kind.name])⟩
  | _ => exact .inl ⟨_, _, _, .target (by simp [kindName]) (by simp [kindName])⟩

theorem if_or (place : Location) (children : List Tree) :
    (∃ before kindName error,
      Violation (.node .ifStatement children place) before kindName error) ∨
    blamed (ifErrands place children) = none := by
  match children with
  | [] => exact .inl ⟨_, _, _, .ifStatement (by decide)⟩
  | [_] => exact .inl ⟨_, _, _, .ifStatement (Nat.lt_succ_self 1)⟩
  | [_, _] => exact .inr rfl
  | _ :: _ :: .node kind (_ :: _) _ :: _ => cases kind <;> exact .inr rfl
  | _ :: _ :: .node kind [] _ :: _ =>
    cases kind with
    | elseStatement => exact .inl ⟨_, _, _, .emptyElse⟩
    | _ => exact .inr rfl
  | _ :: _ :: .function .. :: _ => exact .inr rfl
  | _ :: _ :: .loop .. :: _ => exact .inr rfl
  | _ :: _ :: .giving .. :: _ => exact .inr rfl

theorem call_or (mode : Mode) (place : Location) (children : List Tree) :
    (∃ before kindName error, Violation (.node .call children place) before kindName error) ∨
    blamed (callErrands mode place children) = none := by
  rcases children with _ | ⟨callee, _ | ⟨arguments, more⟩⟩
  · exact .inl ⟨_, _, _, .call⟩
  · exact .inr rfl
  · right
    rw [callErrands, blamed, blamed_append_right rfl]
    cases mode with
    | single => rfl
    | revisit =>
      rw [passErrands, blamed_enterAll]
      rfl

-- Nothing else is blamed at a node.
theorem violation_or (mode : Mode) (tree : Tree) :
    (∃ before kindName error, Violation tree before kindName error) ∨
      blamed (tree.errands mode) = none := by
  rw [blamed_errands]
  cases tree with
  | function name params children place => exact .inr (blamed_enterAll children)
  | loop counter first last children place =>
    right
    have hbody : blamed (enterAll children ++ [.write (add counter), .write (goto .loopStart),
        .write (label .loopEnd)]) = none :=
      (blamed_append_right rfl _).trans (blamed_enterAll children)
    simp only [ownErrands, blamed, hbody, Option.map_none]
  | giving value children place => exact .inr rfl
  | node kind children place =>
    have hall := blamed_enterAll children
    cases kind with
    | main =>
      right
      rw [ownErrands, blamed, blamed_append_right rfl, hall]
    | varDecl name =>
      right
      cases children <;> rfl
    | assignment => exact assignment_or place children
    | ifStatement => exact if_or place children
    | call => exact call_or mode place children
    | argumentList => exact .inr (blamed_argumentErrands children)
    | pair =>
      obtain h | h := couple_or .keyAndValue place children
      · exact .inl ⟨_, _, _, .pair h⟩
      · right
        rw [ownErrands, blamed_append_right rfl, h]
    | arrayAccess =>
      obtain h | h := couple_or .arrayAndIndex place children
      · exact .inl ⟨_, _, _, .arrayAccess h⟩
      · right
        rw [ownErrands, blamed_append_right rfl, h]
    | bareReturn | literal _ | identifier _ | operator _ => exact .inr rfl
    | array name | keyValue name => cases name <;> exact .inr hall
    | _ => exact .inr hall

theorem blamed_eq_some_iff {mode : Mode} {tree : Tree} {before : List Tree}
    {error : LoweringError} : blamed (tree.errands mode) = some (before, error) ↔
      Violation tree before error.flaw.kindName error := by
  constructor
  · intro h
    obtain ⟨entered, kindName, found, hv⟩ | hn := violation_or mode tree
    · have he := hv.blamed mode
      rw [h] at he
      cases he
      rw [hv.kindName_eq]
      exact hv
    · rw [h] at hn
      cases hn
  · intro h
    exact h.blamed mode

end Tree

end ScriptIR
