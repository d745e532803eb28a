import Mathlib
import ScriptIR.Proofs.Lowering.Total

namespace ScriptIR

open Grammar

-- What a node is there for. A name that says where a value goes is not loaded.
inductive Standing where
  | value
  | parameter
  -- the left side of an assignment
  | target
  -- the array of a left side that is an element
  | targetArray
deriving DecidableEq

-- A node with all that is below it.
structure Node where
  standing : Standing
  tree : Tree

-- What the first child of a node is there for, and what the other children are.
def Kind.standings (standing : Standing) : Kind → Standing × Standing
  | .paramList => (.parameter, .parameter)
  | .assignment => (.target, .value)
  | .arrayAccess => (if standing = .target then .targetArray else .value, .value)
  | _ => (.value, .value)

namespace Tree

mutual

-- All nodes of a tree, owned sub-trees included.
def nodes (standing : Standing) : Tree → List Node
  | .node kind children place =>
    ⟨standing, .node kind children place⟩ ::
      nodesFrom (kind.standings standing).1 (kind.standings standing).2 children
  | .function name params children place =>
    ⟨standing, .function name params children place⟩ ::
      (nodes .value params ++ nodesFrom .value .value children)
  | .loop counter first last children place =>
    ⟨standing, .loop counter first last children place⟩ ::
      (nodes .value first ++ (nodes .value last ++ nodesFrom .value .value children))
  | .giving value children place =>
    ⟨standing, .giving value children place⟩ ::
      (nodes .value value ++ nodesFrom .value .value children)

def nodesFrom (first others : Standing) : List Tree → List Node
  | [] => []
  | tree :: rest => nodes first tree ++ nodesFrom others others rest

end

-- Every node is there once.
mutual

theorem length_nodes : ∀ (standing : Standing) (tree : Tree),
    (tree.nodes standing).length = tree.size
  | standing, .node kind children place => by
    simp [nodes, size, length_nodesFrom, Nat.add_comm]
  | standing, .function name params children place => by
    simp [nodes, size, length_nodes, length_nodesFrom, Nat.add_comm]
  | standing, .loop counter first last children place => by
    simp [nodes, size, length_nodes, length_nodesFrom, Nat.add_comm]
  | standing, .giving value children place => by
    simp [nodes, size, length_nodes, length_nodesFrom, Nat.add_comm]

theorem length_nodesFrom : ∀ (first others : Standing) (trees : List Tree),
    (nodesFrom first others trees).length = sizeAll trees
  | _, _, [] => rfl
  | first, others, tree :: rest => by
    simp [nodesFrom, sizeAll, length_nodes, length_nodesFrom]

end

-- Whether an assignment gives its value to a name.
def assignsName : Tree → Bool
  | .node .assignment (.node (.identifier _) _ _ :: _) _ => true
  | _ => false

def hasElse : Tree → Bool
  | .node .ifStatement (_ :: _ :: .node .elseStatement _ _ :: _) _ => true
  | _ => false

-- Whether a node is an array or a block of pairs that is declared.
def isNamedAggregate : Tree → Bool
  | .node (.array (some _)) _ _ => true
  | .node (.keyValue (some _)) _ _ => true
  | _ => false

end Tree

namespace Node

def is (kindName : String) (node : Node) : Bool := node.tree.kindName = kindName

-- The instructions that a node has for itself, apart from those of the nodes below it.
def opcodes (node : Node) : List Opcode :=
  match node.tree with
  | .function _ _ _ _ => [.function]
  | .loop _ _ _ _ _ => [.label, .ifFalse, .add, .goto, .label]
  | .giving _ _ _ => [.giveBack]
  | .node .main _ _ => [.function, .endMain]
  | .node (.varDecl _) _ _ => [.alloc, .store]
  | .node .assignment _ _ => if node.tree.assignsName then [.alloc, .store] else [.store]
  | .node .ifStatement _ _ =>
    if node.tree.hasElse then [.ifFalse, .goto, .label, .label] else [.ifFalse, .label, .label]
  | .node .bareReturn _ _ => [.giveBack]
  | .node .call _ _ => [.callFunction]
  | .node .argumentList arguments _ => List.replicate arguments.length .arg
  | .node .pair _ _ => [.keyValuePair]
  | .node .arrayAccess _ _ => if node.standing = .target then [] else [.arrayAccess]
  | .node (.literal _) _ _ => [.loadConst]
  | .node (.operator _) _ _ => [.operator]
  | .node (.identifier _) _ _ => if node.standing = .value then [.load] else []
  | .node (.array (some _)) _ _ => [.load]
  | .node (.keyValue (some _)) _ _ => [.load]
  | _ => []

-- The same, opcode by opcode.
def share (node : Node) : Opcode → Nat
  | .function => (node.is "function").toNat + (node.is "main").toNat
  | .endMain => (node.is "main").toNat
  | .alloc => (node.is "var_decl").toNat + node.tree.assignsName.toNat
  | .store => (node.is "var_decl").toNat + (node.is "assignment").toNat
  | .load =>
    (node.is "identifier" && node.standing = .value).toNat + node.tree.isNamedAggregate.toNat
  | .loadConst => (node.is "literal").toNat
  | .callFunction => (node.is "function_call").toNat
  | .arg => if node.is "arg_list" then node.tree.children.length else 0
  | .ifFalse => (node.is "if").toNat + (node.is "for_loop").toNat
  | .goto => node.tree.hasElse.toNat + (node.is "for_loop").toNat
  | .label => 2 * ((node.is "if").toNat + (node.is "for_loop").toNat)
  | .giveBack => (node.is "return").toNat
  | .add => (node.is "for_loop").toNat
  | .operator => (node.is "operator").toNat
  | .arrayAccess => (node.is "array_access" && node.standing ≠ .target).toNat
  | .keyValuePair => (node.is "key_value_pair").toNat

theorem count_opcodes (node : Node) (op : Opcode) : node.opcodes.count op = node.share op := by
  obtain ⟨standing, tree⟩ := node
  cases tree with
  | function name params children place => cases op <;> rfl
  | loop counter first last children place => cases op <;> rfl
  | giving value children place => cases op <;> rfl
  | node kind children place =>
    cases kind with
    | assignment =>
      have ho : opcodes ⟨standing, .node .assignment children place⟩ =
        if (Tree.node .assignment children place).assignsName then [.alloc, .store] else [.store] :=
          rfl
      rw [ho]
      cases h : (Tree.node .assignment children place).assignsName <;> cases op <;>
        simp [share, is, h, Tree.kindName, Kind.name, Tree.hasElse, Tree.isNamedAggregate]
    | ifStatement =>
      have ho : opcodes ⟨standing, .node .ifStatement children place⟩ =
        if (Tree.node .ifStatement children place).hasElse then [.ifFalse, .goto, .label, .label]
          else [.ifFalse, .label, .label] := rfl
      rw [ho]
      cases h : (Tree.node .ifStatement children place).hasElse <;> cases op <;>
        simp [share, is, h, Tree.kindName, Kind.name, Tree.assignsName, Tree.isNamedAggregate]
    | argumentList =>
      have ho : opcodes ⟨standing, .node .argumentList children place⟩ =
        List.replicate children.length .arg := rfl
      rw [ho, List.count_replicate]
      cases op <;> rfl
    | arrayAccess => cases standing <;> cases op <;> rfl
    | identifier name => cases standing <;> cases op <;> rfl
    | array name => cases name <;> cases op <;> rfl
    | keyValue name => cases name <;> cases op <;> rfl
    | _ => cases op <;> rfl

end Node

def Instruction.number (op : Opcode) (instructions : List Instruction) : Nat :=
  instructions.countP (·.op = op)

section number

variable {op : Opcode} {standing first others : Standing}

namespace Tree

-- How many instructions of an opcode the nodes of a tree come to.
def work (op : Opcode) (standing : Standing) (tree : Tree) : Nat :=
  ((tree.nodes standing).map fun node => node.opcodes.count op).sum

def workFrom (op : Opcode) (first others : Standing) (trees : List Tree) : Nat :=
  ((nodesFrom first others trees).map fun node => node.opcodes.count op).sum

@[simp] theorem work_node (kind : Kind) (children : List Tree) (place : Location) :
    (Tree.node kind children place).work op standing =
      (Node.opcodes ⟨standing, .node kind children place⟩).count op +
        workFrom op (kind.standings standing).1 (kind.standings standing).2 children := by
  rw [work, nodes, List.map_cons, List.sum_cons, workFrom]

@[simp] theorem work_function (name : String) (params : Tree) (children : List Tree)
    (place : Location) : (Tree.function name params children place).work op standing =
      [.function].count op + (params.work op .value + workFrom op .value .value children) := by
  rw [work, nodes, List.map_cons, List.sum_cons, List.map_append, List.sum_append]
  rfl

@[simp] theorem work_loop (counter : String) (first last : Tree) (children : List Tree)
    (place : Location) : (Tree.loop counter first last children place).work op standing =
      [.label, .ifFalse, .add, .goto, .label].count op +
        (first.work op .value + (last.work op .value + workFrom op .value .value children)) := by
  rw [work, nodes, List.map_cons, List.sum_cons, List.map_append, List.sum_append,
    List.map_append, List.sum_append]
  rfl

@[simp] theorem work_giving (value : Tree) (children : List Tree) (place : Location) :
    (Tree.giving value children place).work op standing =
      [.giveBack].count op + (value.work op .value + workFrom op .value .value children) := by
  rw [work, nodes, List.map_cons, List.sum_cons, List.map_append, List.sum_append]
  rfl

@[simp] theorem workFrom_nil : workFrom op first others [] = 0 := rfl

@[simp] theorem workFrom_cons (tree : Tree) (rest : List Tree) :
    workFrom op first others (tree :: rest) =
      tree.work op first + workFrom op others others rest := by
  rw [workFrom, nodesFrom, List.map_append, List.sum_append, work, workFrom]

-- Children that are all there for the same.
@[simp] theorem workFrom_eq_sum (trees : List Tree) :
    workFrom op standing standing trees = (trees.map (work op standing)).sum := by
  induction trees with
  | nil => rfl
  | cons tree rest ih => rw [workFrom_cons, ih, List.map_cons, List.sum_cons]

end Tree

namespace Lowered

-- How many instructions of an opcode there are, where there is no flaw.
def number (op : Opcode) (lowered : Lowered) : Option Nat :=
  lowered.toOption.map (Instruction.number op)

@[simp] theorem number_emit (instructions : List Instruction) :
    (emit instructions).number op = some ((instructions.map Instruction.op).count op) := by
  rw [List.count, List.countP_map]
  rfl

@[simp] theorem number_andThen (first second : Lowered) : (first >> second).number op =
    (first.number op).bind fun front => (second.number op).map (front + ·) := by
  rw [andThen_eq_append]
  cases first with
  | error error => rfl
  | ok front =>
    cases second with
    | error error => rfl
    | ok back => simp [append, number, Except.toOption, Instruction.number]

-- Without the second walk nothing is counted twice.
@[simp] theorem number_again (children : Unit → Lowered) :
    (Tree.again .single children).number op = some 0 := rfl

end Lowered

-- Trees that are lowered one after the other. What is known of one of them is known of all.
theorem number_lowerAll {mode : Mode} {trees : List Tree} {count : Tree → Nat}
    (h : ∀ tree ∈ trees, (tree.lower mode).number op = some (count tree)) :
    (Tree.lowerAll mode trees).number op = some (trees.map count).sum := by
  induction trees with
  | nil => rfl
  | cons tree rest ih =>
    obtain ⟨ht, hr⟩ := List.forall_mem_cons.mp h
    simp [Tree.lowerAll, ht, ih hr]

-- Each argument has one more instruction behind it.
theorem number_lowerArguments {mode : Mode} {trees : List Tree} {count : Tree → Nat}
    (h : ∀ tree ∈ trees, (tree.lower mode).number op = some (count tree)) :
    (Tree.lowerArguments mode trees).number op =
      some ((List.replicate trees.length .arg).count op + (trees.map count).sum) := by
  induction trees with
  | nil => rfl
  | cons tree rest ih =>
    obtain ⟨ht, hr⟩ := List.forall_mem_cons.mp h
    simp [Tree.lowerArguments, ht, ih hr, Instruction.arg, List.replicate_succ, List.count_cons]
    omega

@[simp] theorem work_identifier (name : String) (place : Location) :
    (identifierNode name place).work op standing =
      if standing = .value then [Opcode.load].count op else 0 := by
  cases standing <;> rfl

@[simp] theorem number_identifier (name : String) (place : Location) :
    ((identifierNode name place).lower .single).number op = some ([Opcode.load].count op) := rfl

-- By the shapes that trees have. The instructions of a node stand next to those of its
-- children, which have theirs by induction.
theorem IsExpression.number_lower (op : Opcode) {tree : Tree} (h : IsExpression tree) :
    (tree.lower .single).number op = some (tree.work op .value) := by
  induction h with
  | literal => simp [Tree.lower, Node.opcodes, Instruction.loadConst]
  | identifier => simp
  | emptyCall =>
    simp [Tree.lower, Tree.lowerCall, Node.opcodes, Kind.standings, Instruction.call]
    omega
  | call _ _ ih =>
    have ha := number_lowerArguments ih
    simp [Tree.lower, Tree.lowerCall, Node.opcodes, Kind.standings, Instruction.call, ha]
    omega
  | arrayAccess _ ih =>
    simp [Tree.lower, Tree.lowerCouple, Node.opcodes, Kind.standings, Instruction.arrayAccess, ih]
    omega
  | operation _ _ ihl ihr =>
    simp [Tree.lower, Tree.lowerAll, Node.opcodes, Kind.standings, Instruction.operator, ihl, ihr]

mutual

theorem IsItem.number_lower (op : Opcode) : ∀ {tree : Tree}, IsItem tree →
    (tree.lower .single).number op = some (tree.work op .value)
  | _, .expression he => he.number_lower op
  | _, .array _ hi => by
    have hb := number_lowerAll fun value hv => (hi value hv).number_lower op
    simp [Tree.lower, Tree.lowerAll, Node.opcodes, Kind.standings, hb]
  | _, .keyValue hp => by
    have hb := number_lowerAll fun entry he => (hp entry he).number_lower op
    simp [Tree.lower, Node.opcodes, Kind.standings, hb]

theorem IsPair.number_lower (op : Opcode) : ∀ {tree : Tree}, IsPair tree →
    (tree.lower .single).number op = some (tree.work op .value)
  | _, .pair he hi => by
    have hk := he.number_lower op
    have hv := hi.number_lower op
    simp [Tree.lower, Tree.lowerCouple, Node.opcodes, Kind.standings,
      Instruction.keyValuePair, hk, hv]
    omega

end

theorem IsStatement.number_lower (op : Opcode) {tree : Tree} (h : IsStatement tree) :
    (tree.lower .single).number op = some (tree.work op .value) := by
  induction h with
  | assignment ht he =>
    have hv := he.number_lower op
    cases ht with
    | identifier =>
      simp [Tree.lower, Tree.lowerAssignment, identifierNode, Tree.lowerTarget, Node.opcodes,
        Kind.standings, Tree.assignsName, Instruction.alloc, Instruction.store, List.count_cons, hv]
      omega
    | arrayAccess hi =>
      -- only the index of an element is lowered, its array is a name in the store
      have hx := hi.number_lower op
      simp [Tree.lower, Tree.lowerAssignment, identifierNode, Tree.lowerTarget, Tree.lowerElement,
        Tree.identifierName?, Node.opcodes, Kind.standings, Tree.assignsName,
        Instruction.storeElement, List.count_cons, hv, hx]
      omega
  | call he => exact he.number_lower op
  | ifStatement he _ ih =>
    have hc := he.number_lower op
    simp [Tree.lower, Tree.lowerIf, Tree.lowerElse, Node.opcodes, Kind.standings, Tree.hasElse,
      Instruction.ifFalse, Instruction.label, List.count_cons, hc, ih]
    omega
  | ifElse he _ _ _ ihb iho =>
    have hc := he.number_lower op
    simp [Tree.lower, Tree.lowerIf, Tree.lowerElse, Node.opcodes, Kind.standings, Tree.hasElse,
      Instruction.ifFalse, Instruction.goto, Instruction.label, List.count_cons, hc, ihb, iho]
    omega
  | loop hf hl _ ih =>
    have hf := hf.number_lower op
    have hl := hl.number_lower op
    have hb := number_lowerAll ih
    simp [Tree.lower, Instruction.label, Instruction.ifFalse, Instruction.add, Instruction.goto,
      List.count_cons, hf, hl, hb]
    omega
  | bareReturn => simp [Tree.lower, Node.opcodes, Kind.standings, Instruction.giveBack]
  | giving he =>
    have hv := he.number_lower op
    simp [Tree.lower, hv, Instruction.giveBack]
    omega
  | block _ ih =>
    have hb := number_lowerAll ih
    simp [Tree.lower, Node.opcodes, Kind.standings, hb]

-- Parameters have no instructions.
theorem workFrom_parameters (op : Opcode) {params : List Tree}
    (h : ∀ param ∈ params, IsParameter param) :
    (params.map (Tree.work op .parameter)).sum = 0 := by
  induction params with
  | nil => rfl
  | cons param rest ih =>
    obtain ⟨⟨⟩, hr⟩ := List.forall_mem_cons.mp h
    simp [ih hr]

theorem IsDeclaration.number_lower (op : Opcode) {tree : Tree} (h : IsDeclaration tree) :
    (tree.lower .single).number op = some (tree.work op .value) := by
  cases h with
  | main hs =>
    have hb := number_lowerAll fun statement hm => (hs statement hm).number_lower op
    simp [Tree.lower, Node.opcodes, Kind.standings, Instruction.functionHeader,
      Instruction.endMain, List.count_cons, hb]
    omega
  | function hp hs =>
    have hw := workFrom_parameters op hp
    have hb := number_lowerAll fun statement hm => (hs statement hm).number_lower op
    simp [Tree.lower, Node.opcodes, Kind.standings, Instruction.functionHeader, hw, hb]
  | array _ hi =>
    have hb := number_lowerAll fun value hv => (hi value hv).number_lower op
    simp [Tree.lower, Tree.lowerAll, Node.opcodes, Kind.standings, Instruction.load, hb]
  | keyValue hp =>
    have hb := number_lowerAll fun entry he => (hp entry he).number_lower op
    simp [Tree.lower, Node.opcodes, Kind.standings, Instruction.load, hb]
  | value he =>
    have hv := he.number_lower op
    simp [Tree.lower, Tree.lowerValue, Node.opcodes, Kind.standings, Instruction.alloc,
      Instruction.store, List.count_cons, hv]
    omega

theorem IsProgram.number_lower (op : Opcode) {tree : Tree} (h : IsProgram tree) :
    (tree.lower .single).number op = some (tree.work op .value) := by
  obtain ⟨hd⟩ := h
  have hb := number_lowerAll fun tree ht => (hd tree ht).number_lower op
  simp [Tree.lower, Node.opcodes, Kind.standings, hb]

end number

-- How many nodes of a tree pass a test.
def Tree.number (tree : Tree) (test : Node → Bool) : Nat := (tree.nodes .value).countP test

-- Every node has its instructions once. The names that a value is put under are not
-- loaded, parameters and the bounds of a loop are nodes like all others.
structure Census (tree : Tree) (instructions : List Instruction) : Prop where
  function : Instruction.number .function instructions =
    tree.number (·.is "function") + tree.number (·.is "main")
  endMain : Instruction.number .endMain instructions = tree.number (·.is "main")
  alloc : Instruction.number .alloc instructions =
    tree.number (·.is "var_decl") + tree.number (·.tree.assignsName)
  store : Instruction.number .store instructions =
    tree.number (·.is "var_decl") + tree.number (·.is "assignment")
  load : Instruction.number .load instructions =
    tree.number (fun node => node.is "identifier" && node.standing = .value) +
      tree.number (·.tree.isNamedAggregate)
  loadConst : Instruction.number .loadConst instructions = tree.number (·.is "literal")
  callFunction : Instruction.number .callFunction instructions =
    tree.number (·.is "function_call")
  arg : Instruction.number .arg instructions =
    (((tree.nodes .value).filter (·.is "arg_list")).map (·.tree.children.length)).sum
  ifFalse : Instruction.number .ifFalse instructions =
    tree.number (·.is "if") + tree.number (·.is "for_loop")
  goto : Instruction.number .goto instructions =
    tree.number (·.tree.hasElse) + tree.number (·.is "for_loop")
  label : Instruction.number .label instructions =
    2 * (tree.number (·.is "if") + tree.number (·.is "for_loop"))
  giveBack : Instruction.number .giveBack instructions = tree.number (·.is "return")
  add : Instruction.number .add instructions = tree.number (·.is "for_loop")
  operator : Instruction.number .operator instructions = tree.number (·.is "operator")
  arrayAccess : Instruction.number .arrayAccess instructions =
    tree.number fun node => node.is "array_access" && node.standing ≠ .target
  keyValuePair : Instruction.number .keyValuePair instructions =
    tree.number (·.is "key_value_pair")

theorem sum_toNat (test : Node → Bool) (nodes : List Node) :
    (nodes.map fun node => (test node).toNat).sum = nodes.countP test := by
  induction nodes with
  | nil => rfl
  | cons node rest ih =>
    rw [List.map_cons, List.sum_cons, ih, List.countP_cons]
    cases test node <;> simp [Nat.add_comm]

theorem sum_ite {α : Type} (test : α → Bool) (weight : α → Nat) (entries : List α) :
    (entries.map fun entry => if test entry then weight entry else 0).sum =
      ((entries.filter test).map weight).sum := by
  induction entries with
  | nil => rfl
  | cons entry rest ih =>
    rw [List.map_cons, List.sum_cons, ih, List.filter_cons]
    cases test entry <;> simp

theorem census_of_shares {tree : Tree} {instructions : List Instruction}
    (h : ∀ op, Instruction.number op instructions =
      ((tree.nodes .value).map fun node => node.share op).sum) : Census tree instructions where
  function := by simp [h, Node.share, List.sum_map_add, sum_toNat, Tree.number]
  endMain := by simp [h, Node.share, sum_toNat, Tree.number]
  alloc := by simp [h, Node.share, List.sum_map_add, sum_toNat, Tree.number]
  store := by simp [h, Node.share, List.sum_map_add, sum_toNat, Tree.number]
  load := by simp [h, Node.share, List.sum_map_add, sum_toNat, Tree.number]
  loadConst := by simp [h, Node.share, sum_toNat, Tree.number]
  callFunction := by simp [h, Node.share, sum_toNat, Tree.number]
  arg := by simp [h, Node.share, sum_ite]
  ifFalse := by simp [h, Node.share, List.sum_map_add, sum_toNat, Tree.number]
  goto := by simp [h, Node.share, List.sum_map_add, sum_toNat, Tree.number]
  label := by simp [h, Node.share, List.sum_map_mul_left, List.sum_map_add, sum_toNat, Tree.number]
  giveBack := by simp [h, Node.share, sum_toNat, Tree.number]
  add := by simp [h, Node.share, sum_toNat, Tree.number]
  operator := by simp [h, Node.share, sum_toNat, Tree.number]
  arrayAccess := by simp [h, Node.share, sum_toNat, Tree.number]
  keyValuePair := by simp [h, Node.share, sum_toNat, Tree.number]

-- A program has one lowering of every node that has one, and no other instructions.
theorem census_of_parse {tokens : List Token} {tree : Tree} (h : parse tokens = .ok tree) :
    ∃ instructions, tree.lower .single = .ok instructions ∧ Census tree instructions := by
  have hp := isProgram_of_parse h
  obtain ⟨instructions, hl⟩ := hp.lowers .single
  refine ⟨instructions, hl, census_of_shares fun op => ?_⟩
  have hn := hp.number_lower op
  rw [hl] at hn
  have hw : Instruction.number op instructions = tree.work op .value := Option.some.inj hn
  rw [hw, Tree.work]
  simp only [Node.count_opcodes]

-- The index and the callee are loaded. The function, its parameter and the array are not.
theorem census_of_element :
    ∃ tree instructions,
      parse (Lexed.ofSource "function f(x) \x7b a[x] = f(1); \x7d").tokens = .ok tree ∧
      tree.lower .single = .ok instructions ∧ Census tree instructions ∧
      Instruction.number .load instructions = 2 := by
  have h : parse (Lexed.ofSource "function f(x) \x7b a[x] = f(1); \x7d").tokens =
      .ok (.node .program [.function "f" (.node .paramList [identifierNode "x" ⟨1, 12⟩] ⟨1, 12⟩)
        [.node .assignment
          [.node .arrayAccess [identifierNode "a" ⟨1, 17⟩, identifierNode "x" ⟨1, 19⟩] ⟨1, 17⟩,
            .node .call [identifierNode "f" ⟨1, 24⟩,
              .node .argumentList [.node (.literal "1") [] ⟨1, 26⟩] ⟨1, 26⟩] ⟨1, 24⟩] ⟨1, 17⟩]
        ⟨1, 1⟩] .start) := by
    cbv
  obtain ⟨instructions, hl, hc⟩ := census_of_parse h
  refine ⟨_, instructions, h, hl, hc, ?_⟩
  rw [hc.load]
  rfl

end ScriptIR
