import ScriptIR.Lowering.Basic

namespace ScriptIR

open Instruction

-- What is still to be done on a walk through a tree.
inductive Errand where
  | write (instruction : Instruction)
  | enter (tree : Tree)
  | blame (error : LoweringError)

namespace Tree

def enterAll (trees : List Tree) : List Errand := trees.map .enter

-- The value of a declaration.
def valueErrands (name : String) : List Tree → List Errand
  | [] => []
  | value :: _ => [.enter value, .write (store name)]

def coupleErrands (needed : Couple) (place : Location) : List Tree → List Errand
  | first :: second :: _ => [.enter first, .enter second]
  | children => [.blame ⟨.incomplete needed children.length, place⟩]

-- An assignment around its right side. The left side itself is not entered.
def targetErrands (value : Tree) : Tree → List Errand
  | .node (.identifier name) _ _ => [.write (alloc name), .enter value, .write (store name)]
  | .node .arrayAccess (array :: index :: _) _ =>
    match array.identifierName? with
    | some name => [.enter index, .enter value, .write (storeElement name)]
    | none => [.blame ⟨.namelessArray, array.place⟩]
  | .node .arrayAccess elements place =>
    [.blame ⟨.incomplete .arrayAndIndex elements.length, place⟩]
  | target => [.blame ⟨.badTarget target.kindName, target.place⟩]

def assignmentErrands (place : Location) : List Tree → List Errand
  | target :: value :: _ => targetErrands value target
  | children => [.blame ⟨.incomplete .targetAndValue children.length, place⟩]

def elseErrands : List Tree → List Errand
  | .node .elseStatement (branch :: _) _ :: _ =>
    [.write (goto .endIf), .write (label .otherwise), .enter branch]
  | .node .elseStatement [] place :: _ => [.blame ⟨.emptyElse, place⟩]
  | _ => [.write (label .otherwise)]

def ifErrands (place : Location) : List Tree → List Errand
  | condition :: branch :: rest =>
    .enter condition :: .write (ifFalse .otherwise) :: .enter branch ::
      (elseErrands rest ++ [.write (label .endIf)])
  | _ => [.blame ⟨.noBranch, place⟩]

-- The arguments of a call. Where there is a second walk, the node around them is left to it.
def passErrands (mode : Mode) (arguments : Tree) : List Errand :=
  match mode with
  | .single => [.enter arguments]
  | .revisit => enterAll arguments.children

def callErrands (mode : Mode) (place : Location) : List Tree → List Errand
  | callee :: arguments :: _ =>
    .enter callee :: (passErrands mode arguments ++ [.write (call arguments.children.length)])
  | [callee] => [.enter callee, .write (call 0)]
  | [] => [.blame ⟨.noCallee, place⟩]

def argumentErrands (values : List Tree) : List Errand :=
  values.flatMap fun value => [.enter value, .write arg]

def ownErrands (mode : Mode) : Tree → List Errand
  | .function name _ children _ => .write (functionHeader name) :: enterAll children
  | .loop counter first last children _ =>
    .enter first :: .write (label .loopStart) :: .enter last :: .write (ifFalse .loopEnd) ::
      (enterAll children ++
        [.write (add counter), .write (goto .loopStart), .write (label .loopEnd)])
  | .giving value _ _ => [.enter value, .write giveBack]
  | .node kind children place =>
    match kind with
    | .main => .write (functionHeader "main") :: (enterAll children ++ [.write endMain])
    | .varDecl name => .write (alloc name) :: valueErrands name children
    | .assignment => assignmentErrands place children
    | .ifStatement => ifErrands place children
    | .bareReturn => [.write giveBack]
    | .call => callErrands mode place children
    | .argumentList => argumentErrands children
    | .pair => coupleErrands .keyAndValue place children ++ [.write keyValuePair]
    | .arrayAccess => coupleErrands .arrayAndIndex place children ++ [.write arrayAccess]
    | .literal value => [.write (loadConst value)]
    | .identifier name => [.write (load name)]
    | .operator sign => [.write (operator sign)]
    | .array (some name) | .keyValue (some name) => .write (load name) :: enterAll children
    | _ => enterAll children

-- Whether the second walk comes to the children of a node.
def isRevisited : Tree → Bool
  | .node kind _ _ =>
    match kind with
    | .program | .paramList | .block | .elseStatement | .array _ | .keyValue _
    | .expressionList | .expression => false
    | _ => true
  | _ => true

def againErrands (mode : Mode) (tree : Tree) : List Errand :=
  match mode with
  | .single => []
  | .revisit => if tree.isRevisited then enterAll tree.children else []

-- All that is to be done at a node, in this order.
def errands (mode : Mode) (tree : Tree) : List Errand :=
  tree.ownErrands mode ++ tree.againErrands mode

end Tree

open Lowered

namespace Errand

variable {mode : Mode}

def lowered (mode : Mode) : Errand → Lowered
  | .write instruction => emit [instruction]
  | .enter tree => tree.lower mode
  | .blame error => .error error

-- What comes of errands that are done one after the other.
def loweredAll (mode : Mode) : List Errand → Lowered
  | [] => emit []
  | errand :: rest => errand.lowered mode >> loweredAll mode rest

theorem loweredAll_append (errands more : List Errand) :
    loweredAll mode (errands ++ more) = (loweredAll mode errands >> loweredAll mode more) := by
  induction errands with
  | nil => rw [List.nil_append, loweredAll, nothing_andThen]
  | cons errand rest ih => rw [List.cons_append, loweredAll, loweredAll, ih, andThen_assoc]

theorem loweredAll_enterAll (trees : List Tree) :
    loweredAll mode (Tree.enterAll trees) = Tree.lowerAll mode trees := by
  induction trees with
  | nil => rfl
  | cons tree rest ih =>
    rw [Tree.lowerAll, ← ih]
    rfl

end Errand

theorem Lowered.emit_cons_cons (first second : Instruction) (rest : List Instruction) :
    emit (first :: second :: rest) = (emit [first] >> emit (second :: rest)) := rfl

namespace Tree

open Errand

variable {mode : Mode}

theorem lowerValue_eq_errands (name : String) (children : List Tree) :
    lowerValue mode name children = loweredAll mode (valueErrands name children) := by
  cases children with
  | nil => rfl
  | cons value _ => simp only [lowerValue, valueErrands, loweredAll, lowered, andThen_nothing]

theorem lowerCouple_eq_errands (needed : Couple) (place : Location) (children : List Tree) :
    lowerCouple mode needed place children =
      loweredAll mode (coupleErrands needed place children) := by
  match children with
  | [] => rfl
  | [_] => rfl
  | _ :: _ :: _ => simp only [lowerCouple, coupleErrands, loweredAll, lowered, andThen_nothing]

theorem lowerElement_eq_errands (value : Tree) (place : Location) (elements : List Tree) :
    lowerElement mode (value.lower mode) place elements =
      loweredAll mode (targetErrands value (.node .arrayAccess elements place)) := by
  match elements with
  | [] => rfl
  | [_] => rfl
  | array :: index :: _ =>
    rw [lowerElement, targetErrands]
    cases array.identifierName? with
    | none => rfl
    | some name => simp only [loweredAll, lowered, andThen_nothing]

theorem lowerTarget_eq_errands (value target : Tree) :
    lowerTarget mode (value.lower mode) target = loweredAll mode (targetErrands value target) := by
  cases target with
  | node kind children place =>
    cases kind with
    | identifier name =>
      simp only [lowerTarget, targetErrands, loweredAll, lowered, andThen_nothing]
    | arrayAccess => exact lowerElement_eq_errands value place children
    | _ => rfl
  | _ => rfl

theorem lowerAssignment_eq_errands (place : Location) (children : List Tree) :
    lowerAssignment mode place children = loweredAll mode (assignmentErrands place children) := by
  match children with
  | [] => rfl
  | [_] => rfl
  | target :: value :: _ => exact lowerTarget_eq_errands value target

theorem lowerElse_eq_errands (rest : List Tree) :
    lowerElse mode rest = loweredAll mode (elseErrands rest) := by
  match rest with
  | [] => rfl
  | .function .. :: _ => rfl
  | .loop .. :: _ => rfl
  | .giving .. :: _ => rfl
  | .node kind [] _ :: _ => cases kind <;> rfl
  | .node kind (branch :: _) _ :: _ =>
    cases kind with
    | elseStatement =>
      simp only [lowerElse, elseErrands, loweredAll, lowered, andThen_nothing, emit_cons_cons,
        andThen_assoc]
    | _ => rfl

theorem lowerIf_eq_errands (place : Location) (children : List Tree) :
    lowerIf mode place children = loweredAll mode (ifErrands place children) := by
  match children with
  | [] => rfl
  | [_] => rfl
  | condition :: branch :: rest =>
    simp only [lowerIf, ifErrands, loweredAll, loweredAll_append, lowered, andThen_nothing,
      lowerElse_eq_errands]

theorem lowerBelow_eq (tree : Tree) : lowerBelow mode tree = lowerAll mode tree.children := by
  cases tree <;> rfl

theorem lowerCall_eq_errands (place : Location) (children : List Tree) :
    lowerCall mode place children = loweredAll mode (callErrands mode place children) := by
  match children with
  | [] => rfl
  | [callee] => simp only [lowerCall, callErrands, loweredAll, lowered, andThen_nothing]
  | callee :: arguments :: _ =>
    cases mode <;>
      simp only [lowerCall, callErrands, passErrands, loweredAll, loweredAll_append,
        loweredAll_enterAll, lowered, andThen_nothing, lowerBelow_eq]

theorem lowerArguments_eq_errands (values : List Tree) :
    lowerArguments mode values = loweredAll mode (argumentErrands values) := by
  induction values with
  | nil => rfl
  | cons value rest ih =>
    rw [lowerArguments, argumentErrands, List.flatMap_cons, loweredAll_append, ← argumentErrands,
      ih]
    simp only [loweredAll, lowered, andThen_nothing, andThen_assoc]

theorem again_eq_errands (mode : Mode) {tree : Tree} (h : tree.isRevisited = true) :
    again mode (fun _ => lowerAll mode tree.children) =
      loweredAll mode (tree.againErrands mode) := by
  cases mode with
  | single => rfl
  | revisit => rw [again, againErrands, if_pos h, loweredAll_enterAll]

theorem againErrands_eq_nil (mode : Mode) {tree : Tree} (h : tree.isRevisited = false) :
    tree.againErrands mode = [] := by
  cases mode with
  | single => rfl
  | revisit => exact if_neg (by rw [h]; exact Bool.false_ne_true)

-- The lowering of a tree is what comes of its errands.
theorem lower_eq_errands (mode : Mode) (tree : Tree) :
    tree.lower mode = loweredAll mode (tree.errands mode) := by
  rw [errands, loweredAll_append]
  cases tree with
  | function name params children place =>
    rw [← again_eq_errands mode rfl]
    simp only [lower, ownErrands, loweredAll, lowered, loweredAll_enterAll, andThen_assoc]
    rfl
  | loop counter first last children place =>
    rw [← again_eq_errands mode rfl]
    simp only [lower, ownErrands, loweredAll, loweredAll_append, lowered, loweredAll_enterAll,
      andThen_assoc, andThen_nothing, emit_cons_cons]
    rfl
  | giving value children place =>
    rw [← again_eq_errands mode rfl]
    simp only [lower, ownErrands, loweredAll, lowered, andThen_assoc, andThen_nothing]
    rfl
  | node kind children place =>
    have hagain := @again_eq_errands mode (.node kind children place)
    have hplain := @againErrands_eq_nil mode (.node kind children place)
    cases kind with
    | program | paramList | block | elseStatement | expressionList =>
      rw [hplain rfl, loweredAll, andThen_nothing]
      exact (loweredAll_enterAll children).symm
    | expression =>
      rw [hplain rfl, loweredAll, andThen_nothing, lower_expression]
      exact (loweredAll_enterAll children).symm
    | array name | keyValue name =>
      rw [hplain rfl, loweredAll, andThen_nothing]
      cases name <;> simp only [lower, ownErrands, loweredAll, lowered, loweredAll_enterAll]
    | _ =>
      rw [← hagain rfl]
      simp only [lower, ownErrands, loweredAll, loweredAll_append, loweredAll_enterAll, lowered,
        andThen_assoc, nothing_andThen, lowerValue_eq_errands, lowerCouple_eq_errands,
        lowerAssignment_eq_errands, lowerIf_eq_errands, lowerCall_eq_errands,
        lowerArguments_eq_errands]
      rfl

end Tree

namespace Errand

-- Every tree that is entered is smaller than a bound.
def Below (bound : Nat) (errands : List Errand) : Prop :=
  ∀ tree, .enter tree ∈ errands → tree.size < bound

variable {bound : Nat} {rest : List Errand}

@[simp] theorem below_nil : Below bound [] := nofun

@[simp] theorem below_write {instruction : Instruction} :
    Below bound (.write instruction :: rest) ↔ Below bound rest := by
  simp [Below]

@[simp] theorem below_blame {error : LoweringError} :
    Below bound (.blame error :: rest) ↔ Below bound rest := by
  simp [Below]

@[simp] theorem below_enter {tree : Tree} :
    Below bound (.enter tree :: rest) ↔ tree.size < bound ∧ Below bound rest := by
  simp [Below]

@[simp] theorem below_append {errands : List Errand} :
    Below bound (errands ++ rest) ↔ Below bound errands ∧ Below bound rest := by
  simp only [Below, List.mem_append, or_imp, forall_and]

theorem below_enterAll {trees : List Tree} (h : Tree.sizeAll trees < bound) :
    Below bound (Tree.enterAll trees) := by
  intro tree hm
  have ht : tree ∈ trees := by simpa [Tree.enterAll] using hm
  exact Nat.lt_of_le_of_lt (Tree.size_le_sizeAll ht) h

end Errand

namespace Tree

open Errand

section below

variable {mode : Mode} {children : List Tree} {bound : Nat}

theorem below_valueErrands (name : String) (h : sizeAll children < bound) :
    Below bound (valueErrands name children) := by
  cases children with
  | nil => exact below_nil
  | cons value rest =>
    rw [sizeAll] at h
    simp only [valueErrands, below_enter, below_write, below_nil, and_true]
    omega

theorem below_coupleErrands (needed : Couple) (place : Location) (h : sizeAll children < bound) :
    Below bound (coupleErrands needed place children) := by
  unfold coupleErrands
  split
  · simp only [sizeAll] at h
    simp only [below_enter, below_nil, and_true]
    omega
  · exact below_blame.mpr below_nil

theorem below_targetErrands {value target : Tree} (h : target.size + value.size < bound) :
    Below bound (targetErrands value target) := by
  unfold targetErrands
  split
  · simp only [below_enter, below_write, below_nil, and_true]
    omega
  · simp only [size, sizeAll] at h
    split
    · simp only [below_enter, below_write, below_nil, and_true]
      omega
    · exact below_blame.mpr below_nil
  · exact below_blame.mpr below_nil
  · exact below_blame.mpr below_nil

theorem below_assignmentErrands (place : Location) (h : sizeAll children < bound) :
    Below bound (assignmentErrands place children) := by
  unfold assignmentErrands
  split
  · simp only [sizeAll] at h
    exact below_targetErrands (by omega)
  · exact below_blame.mpr below_nil

theorem below_elseErrands (h : sizeAll children < bound) : Below bound (elseErrands children) := by
  unfold elseErrands
  split
  · simp only [sizeAll, size] at h
    simp only [below_enter, below_write, below_nil, and_true]
    omega
  · exact below_blame.mpr below_nil
  · exact below_write.mpr below_nil

theorem below_ifErrands (place : Location) (h : sizeAll children < bound) :
    Below bound (ifErrands place children) := by
  unfold ifErrands
  split
  next condition branch rest =>
    simp only [sizeAll] at h
    have helse : Below bound (elseErrands rest) := below_elseErrands (by omega)
    simp only [below_enter, below_write, below_append, below_nil, helse, and_true]
    omega
  · exact below_blame.mpr below_nil

theorem below_callErrands (mode : Mode) (place : Location) (h : sizeAll children < bound) :
    Below bound (callErrands mode place children) := by
  unfold callErrands
  split
  next callee arguments rest =>
    simp only [sizeAll] at h
    have hsize := sizeAll_children_lt arguments
    have hall : Below bound (enterAll arguments.children) := below_enterAll (by omega)
    have hpass : Below bound (passErrands mode arguments) := by
      cases mode with
      | single => exact below_enter.mpr ⟨by omega, below_nil⟩
      | revisit => exact hall
    simp only [below_enter, below_append, below_write, below_nil, hpass, and_true]
    omega
  next callee =>
    simp only [sizeAll] at h
    simp only [below_enter, below_write, below_nil, and_true]
    omega
  · exact below_blame.mpr below_nil

theorem below_argumentErrands (h : sizeAll children < bound) :
    Below bound (argumentErrands children) := by
  induction children with
  | nil => exact below_nil
  | cons value rest ih =>
    simp only [sizeAll] at h
    have hrest := ih (by omega)
    rw [argumentErrands, List.flatMap_cons, below_append, ← argumentErrands]
    exact ⟨below_enter.mpr ⟨by omega, below_write.mpr below_nil⟩, hrest⟩

-- No errand goes anywhere but further down.
theorem below_errands (mode : Mode) (tree : Tree) : Below tree.size (tree.errands mode) := by
  have hc := sizeAll_children_lt tree
  have hall : Below tree.size (enterAll tree.children) := below_enterAll hc
  have hagain : Below tree.size (tree.againErrands mode) := by
    cases mode with
    | single => exact below_nil
    | revisit =>
      rw [againErrands]
      split
      · exact hall
      · exact below_nil
  refine below_append.mpr ⟨?_, hagain⟩
  cases tree with
  | function name params children place => exact below_write.mpr hall
  | loop counter first last children place =>
    rw [size] at hall ⊢
    have hbody : Below (1 + (first.size + (last.size + sizeAll children))) (enterAll children) :=
      hall
    simp only [ownErrands, below_enter, below_write, below_append, below_nil, hbody, and_true]
    omega
  | giving value children place =>
    simp only [ownErrands, size, below_enter, below_write, below_nil, and_true]
    omega
  | node kind children place =>
    cases kind with
    | main => exact below_write.mpr (below_append.mpr ⟨hall, below_write.mpr below_nil⟩)
    | varDecl name => exact below_write.mpr (below_valueErrands name hc)
    | assignment => exact below_assignmentErrands place hc
    | ifStatement => exact below_ifErrands place hc
    | call => exact below_callErrands mode place hc
    | argumentList => exact below_argumentErrands hc
    | pair =>
      exact below_append.mpr ⟨below_coupleErrands _ place hc, below_write.mpr below_nil⟩
    | arrayAccess =>
      exact below_append.mpr ⟨below_coupleErrands _ place hc, below_write.mpr below_nil⟩
    | bareReturn | literal _ | identifier _ | operator _ => exact below_write.mpr below_nil
    | array name | keyValue name =>
      cases name with
      | none => exact hall
      | some name => exact below_write.mpr hall
    | _ => exact hall

end below

end Tree

-- A left side with no more than is made use of.
def Tree.trimmedTarget : Tree → Tree
  | .node (.identifier name) _ place => .node (.identifier name) [] place
  | .node .arrayAccess elements place => .node .arrayAccess (elements.take 2) place
  | target => target

-- The children that a kind has a use for where it has errands of its own.
def Kind.named : Kind → List Tree → List Tree
  | .bareReturn, _ | .literal _, _ | .operator _, _ | .identifier _, _ => []
  | .varDecl _, children => children.take 1
  | .pair, children | .arrayAccess, children | .call, children => children.take 2
  | .assignment, target :: value :: _ => [target.trimmedTarget, value]
  | .ifStatement, condition :: branch :: .node .elseStatement others place :: _ =>
    [condition, branch, .node .elseStatement (others.take 1) place]
  | .ifStatement, condition :: branch :: _ => [condition, branch]
  | _, children => children

namespace Tree

-- The tree without the children that its kind has no use for.
def trimmed : Tree → Tree
  | .giving value _ place => .giving value [] place
  | .node kind children place => .node kind (kind.named children) place
  | tree => tree

theorem targetErrands_trimmed (value target : Tree) :
    targetErrands value target.trimmedTarget = targetErrands value target := by
  cases target with
  | node kind elements place =>
    cases kind with
    | arrayAccess =>
      match elements with
      | [] => rfl
      | [_] => rfl
      | _ :: _ :: _ => rfl
    | _ => rfl
  | _ => rfl

-- Without the second walk they are never entered.
theorem errands_trimmed (tree : Tree) : tree.trimmed.errands .single = tree.errands .single := by
  cases tree with
  | node kind children place =>
    cases kind with
    | varDecl name => cases children <;> rfl
    | pair | arrayAccess | call =>
      match children with
      | [] => rfl
      | [_] => rfl
      | _ :: _ :: _ => rfl
    | assignment =>
      match children with
      | [] => rfl
      | [_] => rfl
      | target :: value :: _ => exact congrArg (· ++ []) (targetErrands_trimmed value target)
    | ifStatement =>
      match children with
      | [] => rfl
      | [_] => rfl
      | [_, _] => rfl
      | _ :: _ :: .node kind [] _ :: _ => cases kind <;> rfl
      | _ :: _ :: .node kind (_ :: _) _ :: _ => cases kind <;> rfl
      | _ :: _ :: .function .. :: _ => rfl
      | _ :: _ :: .loop .. :: _ => rfl
      | _ :: _ :: .giving .. :: _ => rfl
    | _ => rfl
  | _ => rfl

end Tree

end ScriptIR
