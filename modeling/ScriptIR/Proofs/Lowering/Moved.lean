import ScriptIR.Lowering.Basic
import ScriptIR.Proofs.Grammar.Renaming

namespace ScriptIR

-- New places and nothing else.
def Renaming.moving (move : Location → Location) : Renaming :=
  ⟨Token.kind, id, move, fun _ => rfl⟩

@[simp] theorem Kind.rename_id (kind : Kind) : kind.rename id = kind := by
  cases kind <;> simp [Kind.rename]

namespace Lowered

-- The same outcome for a tree with other places. Only errors have places.
def moved (move : Location → Location) (lowered : Lowered) : Lowered :=
  lowered.mapError fun error => ⟨error.flaw, move error.place⟩

variable (move : Location → Location)

@[simp] theorem moved_emit (instructions : List Instruction) :
    (emit instructions).moved move = emit instructions := rfl

@[simp] theorem moved_flawed (flaw : Flaw) (place : Location) :
    (flawed flaw place).moved move = flawed flaw (move place) := rfl

@[simp] theorem moved_andThen (first second : Lowered) :
    (first >> second).moved move = (first.moved move >> second.moved move) := by
  simp only [andThen_eq_append]
  cases first with
  | error error => rfl
  | ok front => cases second <;> rfl

end Lowered

@[simp] theorem moved_again (move : Location → Location) (mode : Mode)
    (children : Unit → Lowered) :
    (Tree.again mode children).moved move = Tree.again mode fun _ => (children ()).moved move := by
  cases mode <;> rfl

namespace Tree

variable (move : Location → Location) (mode : Mode)

-- Every node is moved, owned sub-trees included.
def moved (tree : Tree) : Tree := tree.rename (.moving move)

def movedAll (trees : List Tree) : List Tree := renameAll (.moving move) trees

theorem movedAll_eq_map (trees : List Tree) : movedAll move trees = trees.map (moved move) :=
  renameAll_eq_map _ trees

@[simp] theorem moved_node (kind : Kind) (children : List Tree) (place : Location) :
    moved move (.node kind children place) = .node kind (movedAll move children) (move place) := by
  simp [moved, movedAll, rename, Renaming.moving]

@[simp] theorem moved_function (name : String) (params : Tree) (children : List Tree)
    (place : Location) : moved move (.function name params children place) =
      .function name (moved move params) (movedAll move children) (move place) := rfl

@[simp] theorem moved_loop (counter : String) (first last : Tree) (children : List Tree)
    (place : Location) : moved move (.loop counter first last children place) =
      .loop counter (moved move first) (moved move last) (movedAll move children)
        (move place) := rfl

@[simp] theorem moved_giving (value : Tree) (children : List Tree) (place : Location) :
    moved move (.giving value children place) =
      .giving (moved move value) (movedAll move children) (move place) := rfl

@[simp] theorem movedAll_nil : movedAll move [] = [] := rfl

@[simp] theorem movedAll_cons (tree : Tree) (rest : List Tree) :
    movedAll move (tree :: rest) = moved move tree :: movedAll move rest := rfl

@[simp] theorem place_moved (tree : Tree) : (moved move tree).place = move tree.place :=
  place_rename _ tree

@[simp] theorem children_moved (tree : Tree) :
    (moved move tree).children = movedAll move tree.children := by
  cases tree <;> rfl

@[simp] theorem length_movedAll (trees : List Tree) :
    (movedAll move trees).length = trees.length := by
  rw [movedAll_eq_map, List.length_map]

@[simp] theorem identifierName?_moved (tree : Tree) :
    (moved move tree).identifierName? = tree.identifierName? := by
  cases tree with
  | node kind children place =>
    rw [moved_node]
    cases kind <;> rfl
  | _ => rfl

-- Instructions have no places.
mutual

theorem lower_moved : ∀ tree : Tree, (moved move tree).lower mode = (tree.lower mode).moved move
  | .function name params children place => by
    simp [lower, lowerAll_moved children]
  | .loop counter first last children place => by
    simp [lower, lower_moved first, lower_moved last, lowerAll_moved children]
  | .giving value children place => by
    simp [lower, lower_moved value, lowerAll_moved children]
  | .node kind children place => by
    have hall := lowerAll_moved children
    have hvalue (name : String) := lowerValue_moved name children
    have hcouple (needed : Couple) := lowerCouple_moved needed place children
    have hassign := lowerAssignment_moved place children
    have hif := lowerIf_moved place children
    have hcall := lowerCall_moved place children
    have harguments := lowerArguments_moved children
    rw [moved_node]
    cases kind with
    | array name => cases name <;> simp [lower, hall]
    | keyValue name => cases name <;> simp [lower, hall]
    | _ => simp [lower, *]

theorem lowerAll_moved : ∀ trees : List Tree,
    lowerAll mode (movedAll move trees) = (lowerAll mode trees).moved move
  | [] => rfl
  | tree :: rest => by simp [lowerAll, lower_moved tree, lowerAll_moved rest]

theorem lowerValue_moved (name : String) : ∀ trees : List Tree,
    lowerValue mode name (movedAll move trees) = (lowerValue mode name trees).moved move
  | [] => rfl
  | value :: _ => by simp [lowerValue, lower_moved value]

theorem lowerCouple_moved (needed : Couple) (place : Location) : ∀ trees : List Tree,
    lowerCouple mode needed (move place) (movedAll move trees) =
      (lowerCouple mode needed place trees).moved move
  | [] => rfl
  | [_] => rfl
  | first :: second :: _ => by simp [lowerCouple, lower_moved first, lower_moved second]

theorem lowerAssignment_moved (place : Location) : ∀ trees : List Tree,
    lowerAssignment mode (move place) (movedAll move trees) =
      (lowerAssignment mode place trees).moved move
  | [] => rfl
  | [_] => rfl
  | target :: value :: _ => by
    simp [lowerAssignment, lower_moved value, lowerTarget_moved _ target]

theorem lowerTarget_moved (value : Lowered) : ∀ target : Tree,
    lowerTarget mode (value.moved move) (moved move target) =
      (lowerTarget mode value target).moved move
  | .function .. => rfl
  | .loop .. => rfl
  | .giving .. => rfl
  | .node kind children place => by
    have helement := lowerElement_moved value place children
    rw [moved_node]
    cases kind <;> simp [lowerTarget, helement, kindName, Tree.place]

theorem lowerElement_moved (value : Lowered) (place : Location) : ∀ trees : List Tree,
    lowerElement mode (value.moved move) (move place) (movedAll move trees) =
      (lowerElement mode value place trees).moved move
  | [] => rfl
  | [_] => rfl
  | array :: index :: _ => by
    simp only [movedAll_cons, lowerElement, identifierName?_moved, lower_moved index, place_moved]
    cases array.identifierName? <;> simp

theorem lowerIf_moved (place : Location) : ∀ trees : List Tree,
    lowerIf mode (move place) (movedAll move trees) = (lowerIf mode place trees).moved move
  | [] => rfl
  | [_] => rfl
  | condition :: branch :: rest => by
    simp [lowerIf, lower_moved condition, lower_moved branch, lowerElse_moved rest]

theorem lowerElse_moved : ∀ trees : List Tree,
    lowerElse mode (movedAll move trees) = (lowerElse mode trees).moved move
  | .node kind (branch :: more) place :: rest => by
    have hbranch := lower_moved branch
    rw [movedAll_cons, moved_node, movedAll_cons]
    cases kind <;> simp [lowerElse, hbranch]
  | .node kind [] place :: rest => by
    rw [movedAll_cons, moved_node, movedAll_nil]
    cases kind <;> simp [lowerElse]
  | .function .. :: _ => rfl
  | .loop .. :: _ => rfl
  | .giving .. :: _ => rfl
  | [] => rfl

theorem lowerCall_moved (place : Location) : ∀ trees : List Tree,
    lowerCall mode (move place) (movedAll move trees) = (lowerCall mode place trees).moved move
  | [] => rfl
  | [callee] => by simp [lowerCall, lower_moved callee]
  | callee :: arguments :: _ => by
    have hcallee := lower_moved callee
    have harguments := lower_moved arguments
    have hbelow := lowerBelow_moved arguments
    cases mode <;> simp [lowerCall, hcallee, harguments, hbelow]

theorem lowerBelow_moved : ∀ tree : Tree,
    lowerBelow mode (moved move tree) = (lowerBelow mode tree).moved move
  | .node _ children _ => lowerAll_moved children
  | .function _ _ children _ => lowerAll_moved children
  | .loop _ _ _ children _ => lowerAll_moved children
  | .giving _ children _ => lowerAll_moved children

theorem lowerArguments_moved : ∀ trees : List Tree,
    lowerArguments mode (movedAll move trees) = (lowerArguments mode trees).moved move
  | [] => rfl
  | argument :: rest => by
    simp [lowerArguments, lower_moved argument, lowerArguments_moved rest]

end

end Tree

end ScriptIR
