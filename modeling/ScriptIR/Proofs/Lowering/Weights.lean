import Mathlib
import ScriptIR.Proofs.Lowering.Census

namespace ScriptIR

open Grammar

-- How often the first child of a node is lowered by a walk that comes back, for each time that
-- the node is, and how often the other children are. A left side is passed over at first, with
-- its index lowered all the same, and so is the argument list of a call. An else has its
-- branch lowered once from the if and once from the second walk.
def Kind.weights (standing : Standing) : Kind → Nat × Nat
  | .main => (2, 2)
  | .varDecl _ => (2, 2)
  | .assignment => (1, 2)
  | .ifStatement => (2, 2)
  | .call => (2, 1)
  | .argumentList => (3, 3)
  | .pair => (2, 2)
  | .arrayAccess => (2, if standing = .target then 3 else 2)
  | _ => (1, 1)

namespace Tree

mutual

-- All nodes of a tree, each with the weights of the edges from the node up to the root.
def trails (trail : List Nat) (standing : Standing) : Tree → List (List Nat × Node)
  | .node kind children place =>
    (trail, ⟨standing, .node kind children place⟩) ::
      trailsFrom trail (kind.weights standing).1 (kind.weights standing).2
        (kind.standings standing).1 (kind.standings standing).2 children
  | .function name params children place =>
    (trail, ⟨standing, .function name params children place⟩) ::
      (trails (0 :: trail) .value params ++ trailsFrom trail 2 2 .value .value children)
  | .loop counter first last children place =>
    (trail, ⟨standing, .loop counter first last children place⟩) ::
      (trails (1 :: trail) .value first ++ (trails (1 :: trail) .value last ++
        trailsFrom trail 2 2 .value .value children))
  | .giving value children place =>
    (trail, ⟨standing, .giving value children place⟩) ::
      (trails (1 :: trail) .value value ++ trailsFrom trail 2 2 .value .value children)

def trailsFrom (trail : List Nat) (weight others : Nat) (standing rest : Standing) :
    List Tree → List (List Nat × Node)
  | [] => []
  | tree :: more =>
    trails (weight :: trail) standing tree ++ trailsFrom trail others others rest rest more

end

mutual

theorem map_snd_trails : ∀ (trail : List Nat) (standing : Standing) (tree : Tree),
    (tree.trails trail standing).map Prod.snd = tree.nodes standing
  | trail, standing, .node kind children place => by
    simp [trails, nodes, map_snd_trailsFrom]
  | trail, standing, .function name params children place => by
    simp [trails, nodes, map_snd_trails, map_snd_trailsFrom]
  | trail, standing, .loop counter first last children place => by
    simp [trails, nodes, map_snd_trails, map_snd_trailsFrom]
  | trail, standing, .giving value children place => by
    simp [trails, nodes, map_snd_trails, map_snd_trailsFrom]

theorem map_snd_trailsFrom : ∀ (trail : List Nat) (weight others : Nat)
    (standing rest : Standing) (trees : List Tree),
    (trailsFrom trail weight others standing rest trees).map Prod.snd =
      nodesFrom standing rest trees
  | _, _, _, _, _, [] => rfl
  | trail, weight, others, standing, rest, tree :: more => by
    simp [trailsFrom, nodesFrom, map_snd_trails, map_snd_trailsFrom]

end

end Tree

-- How often a node is lowered.
def weight (step : List Nat × Node) : Nat := step.1.prod

-- The instructions of a node in the second walk, which loads what is only stored to as well.
def Node.again (node : Node) : Node := ⟨.value, node.tree⟩

section burden

variable {op : Opcode} {standing rest : Standing} {factor others : Nat}

namespace Tree

-- How many instructions of an opcode a tree comes to, each node taken as often as it is lowered.
def burdenAlong (op : Opcode) (steps : List (List Nat × Node)) : Nat :=
  (steps.map fun step => weight step * step.2.again.opcodes.count op).sum

def burden (op : Opcode) (standing : Standing) (tree : Tree) : Nat :=
  burdenAlong op (tree.trails [] standing)

def burdenFrom (op : Opcode) (factor others : Nat) (standing rest : Standing)
    (trees : List Tree) : Nat :=
  burdenAlong op (trailsFrom [] factor others standing rest trees)

@[simp] theorem burdenAlong_append (steps more : List (List Nat × Node)) :
    burdenAlong op (steps ++ more) = burdenAlong op steps + burdenAlong op more := by
  rw [burdenAlong, List.map_append, List.sum_append, burdenAlong, burdenAlong]

@[simp] theorem burdenAlong_cons (step : List Nat × Node) (steps : List (List Nat × Node)) :
    burdenAlong op (step :: steps) =
      weight step * step.2.again.opcodes.count op + burdenAlong op steps := rfl

-- What leads to a tree counts for every node of it.
mutual

theorem burdenAlong_trails : ∀ (trail : List Nat) (standing : Standing) (tree : Tree),
    burdenAlong op (tree.trails trail standing) = trail.prod * tree.burden op standing
  | trail, standing, .node kind children place => by
    rw [burden, trails, trails, burdenAlong_cons, burdenAlong_cons, burdenAlong_trailsFrom,
      burdenFrom]
    simp [weight, Nat.mul_add]
  | trail, standing, .function name params children place => by
    rw [burden, trails, trails]
    simp only [burdenAlong_cons, burdenAlong_append, burdenAlong_trails _ _ params,
      burdenAlong_trailsFrom trail, burdenFrom]
    simp [weight, Nat.mul_add]
  | trail, standing, .loop counter first last children place => by
    rw [burden, trails, trails]
    simp only [burdenAlong_cons, burdenAlong_append, burdenAlong_trails _ _ first,
      burdenAlong_trails _ _ last, burdenAlong_trailsFrom trail, burdenFrom]
    simp [weight, Nat.mul_add]
  | trail, standing, .giving value children place => by
    rw [burden, trails, trails]
    simp only [burdenAlong_cons, burdenAlong_append, burdenAlong_trails _ _ value,
      burdenAlong_trailsFrom trail, burdenFrom]
    simp [weight, Nat.mul_add]

theorem burdenAlong_trailsFrom : ∀ (trail : List Nat) (factor others : Nat)
    (standing rest : Standing) (trees : List Tree),
    burdenAlong op (trailsFrom trail factor others standing rest trees) =
      trail.prod * burdenFrom op factor others standing rest trees
  | _, _, _, _, _, [] => rfl
  | trail, factor, others, standing, rest, tree :: more => by
    rw [burdenFrom, trailsFrom, trailsFrom]
    simp only [burdenAlong_append, burdenAlong_trails _ _ tree, burdenAlong_trailsFrom trail,
      burdenFrom]
    simp only [List.prod_cons, List.prod_nil, Nat.mul_one, Nat.mul_add]
    ring

end

@[simp] theorem burden_node (kind : Kind) (children : List Tree) (place : Location) :
    (Tree.node kind children place).burden op standing =
      (Node.opcodes ⟨.value, .node kind children place⟩).count op +
        burdenFrom op (kind.weights standing).1 (kind.weights standing).2
          (kind.standings standing).1 (kind.standings standing).2 children := by
  rw [burden, trails, burdenAlong_cons, burdenFrom]
  simp [weight, Node.again]

@[simp] theorem burden_function (name : String) (params : Tree) (children : List Tree)
    (place : Location) : (Tree.function name params children place).burden op standing =
      [.function].count op + burdenFrom op 2 2 .value .value children := by
  rw [burden, trails, burdenAlong_cons, burdenAlong_append, burdenAlong_trails, burdenFrom]
  simp [weight, Node.again, Node.opcodes]

@[simp] theorem burden_loop (counter : String) (first last : Tree) (children : List Tree)
    (place : Location) : (Tree.loop counter first last children place).burden op standing =
      [.label, .ifFalse, .add, .goto, .label].count op + (first.burden op .value +
        (last.burden op .value + burdenFrom op 2 2 .value .value children)) := by
  rw [burden, trails, burdenAlong_cons, burdenAlong_append, burdenAlong_append,
    burdenAlong_trails, burdenAlong_trails, burdenFrom]
  simp [weight, Node.again, Node.opcodes]

@[simp] theorem burden_giving (value : Tree) (children : List Tree) (place : Location) :
    (Tree.giving value children place).burden op standing =
      [.giveBack].count op +
        (value.burden op .value + burdenFrom op 2 2 .value .value children) := by
  rw [burden, trails, burdenAlong_cons, burdenAlong_append, burdenAlong_trails, burdenFrom]
  simp [weight, Node.again, Node.opcodes]

@[simp] theorem burdenFrom_nil : burdenFrom op factor others standing rest [] = 0 := rfl

@[simp] theorem burdenFrom_cons (tree : Tree) (more : List Tree) :
    burdenFrom op factor others standing rest (tree :: more) =
      factor * tree.burden op standing + burdenFrom op others others rest rest more := by
  rw [burdenFrom, trailsFrom, burdenAlong_append, burdenAlong_trails, burdenFrom]
  simp

-- Children that are all lowered equally often.
@[simp] theorem burdenFrom_eq_mul (trees : List Tree) :
    burdenFrom op factor factor standing standing trees =
      factor * (trees.map (burden op standing)).sum := by
  induction trees with
  | nil => rfl
  | cons tree rest ih => rw [burdenFrom_cons, ih, List.map_cons, List.sum_cons, Nat.mul_add]

end Tree

@[simp] theorem Lowered.number_again_revisit (children : Unit → Lowered) :
    (Tree.again .revisit children).number op = (children ()).number op := rfl

@[simp] theorem burden_identifier (name : String) (place : Location) :
    (identifierNode name place).burden op standing = [Opcode.load].count op := by
  simp [identifierNode, Node.opcodes]

@[simp] theorem number_identifier_revisit (name : String) (place : Location) :
    ((identifierNode name place).lower .revisit).number op = some ([Opcode.load].count op) := rfl

-- By the shapes that trees have, as for the walk that does not come back. Here a child is met
-- as often as its weight says.
theorem IsExpression.number_lower_revisit (op : Opcode) {tree : Tree} (h : IsExpression tree) :
    (tree.lower .revisit).number op = some (tree.burden op .value) := by
  induction h with
  | literal =>
    simp [Tree.lower, Tree.lowerAll, Node.opcodes, Instruction.loadConst]
  | identifier => simp
  | emptyCall =>
    simp [Tree.lower, Tree.lowerAll, Tree.lowerCall, Node.opcodes, Kind.standings, Kind.weights,
      Instruction.call]
    omega
  | call _ _ ih =>
    have ha := number_lowerArguments ih
    have hb := number_lowerAll ih
    simp [Tree.lower, Tree.lowerAll, Tree.lowerCall, Tree.lowerBelow, Node.opcodes,
      Kind.standings, Kind.weights, Instruction.call, ha, hb]
    omega
  | arrayAccess _ ih =>
    simp [Tree.lower, Tree.lowerAll, Tree.lowerCouple, Node.opcodes, Kind.standings,
      Kind.weights, Instruction.arrayAccess, ih]
    omega
  | operation _ _ ihl ihr =>
    simp [Tree.lower, Tree.lowerAll, Node.opcodes, Kind.standings, Kind.weights,
      Instruction.operator, ihl, ihr]

mutual

theorem IsItem.number_lower_revisit (op : Opcode) : ∀ {tree : Tree}, IsItem tree →
    (tree.lower .revisit).number op = some (tree.burden op .value)
  | _, .expression he => he.number_lower_revisit op
  | _, .array _ hi => by
    have hb := number_lowerAll fun value hv => (hi value hv).number_lower_revisit op
    simp [Tree.lower, Tree.lowerAll, Node.opcodes, Kind.standings, Kind.weights, hb]
  | _, .keyValue hp => by
    have hb := number_lowerAll fun entry he => (hp entry he).number_lower_revisit op
    simp [Tree.lower, Node.opcodes, Kind.standings, Kind.weights, hb]

theorem IsPair.number_lower_revisit (op : Opcode) : ∀ {tree : Tree}, IsPair tree →
    (tree.lower .revisit).number op = some (tree.burden op .value)
  | _, .pair he hi => by
    have hk := he.number_lower_revisit op
    have hv := hi.number_lower_revisit op
    simp [Tree.lower, Tree.lowerAll, Tree.lowerCouple, Node.opcodes, Kind.standings,
      Kind.weights, Instruction.keyValuePair, hk, hv]
    omega

end

theorem IsStatement.number_lower_revisit (op : Opcode) {tree : Tree} (h : IsStatement tree) :
    (tree.lower .revisit).number op = some (tree.burden op .value) := by
  induction h with
  | assignment ht he =>
    have hv := he.number_lower_revisit op
    cases ht with
    | identifier =>
      simp [Tree.lower, Tree.lowerAll, Tree.lowerAssignment, identifierNode, Tree.lowerTarget,
        Node.opcodes, Kind.standings, Kind.weights, Tree.assignsName, Instruction.alloc,
        Instruction.store, Instruction.load, List.count_cons, hv]
      omega
    | arrayAccess hi =>
      -- the index is lowered for the store, and twice by the walk over the left side
      have hx := hi.number_lower_revisit op
      simp [Tree.lower, Tree.lowerAll, Tree.lowerAssignment, Tree.lowerCouple, identifierNode,
        Tree.lowerTarget, Tree.lowerElement, Tree.identifierName?, Node.opcodes, Kind.standings,
        Kind.weights, Tree.assignsName, Instruction.storeElement, Instruction.load,
        Instruction.arrayAccess, List.count_cons, hv, hx]
      split_ifs <;> omega
  | call he => exact he.number_lower_revisit op
  | ifStatement he _ ih =>
    have hc := he.number_lower_revisit op
    simp [Tree.lower, Tree.lowerAll, Tree.lowerIf, Tree.lowerElse, Node.opcodes, Kind.standings,
      Kind.weights, Tree.hasElse, Instruction.ifFalse, Instruction.label, List.count_cons, hc, ih]
    omega
  | ifElse he _ _ _ ihb iho =>
    have hc := he.number_lower_revisit op
    simp [Tree.lower, Tree.lowerAll, Tree.lowerIf, Tree.lowerElse, Node.opcodes, Kind.standings,
      Kind.weights, Tree.hasElse, Instruction.ifFalse, Instruction.goto, Instruction.label,
      List.count_cons, hc, ihb, iho]
    omega
  | loop hf hl _ ih =>
    have hf := hf.number_lower_revisit op
    have hl := hl.number_lower_revisit op
    have hb := number_lowerAll ih
    simp [Tree.lower, Instruction.label, Instruction.ifFalse, Instruction.add, Instruction.goto,
      List.count_cons, hf, hl, hb]
    omega
  | bareReturn =>
    simp [Tree.lower, Tree.lowerAll, Node.opcodes, Instruction.giveBack]
  | giving he =>
    have hv := he.number_lower_revisit op
    simp [Tree.lower, Tree.lowerAll, hv, Instruction.giveBack]
    omega
  | block _ ih =>
    have hb := number_lowerAll ih
    simp [Tree.lower, Node.opcodes, Kind.standings, Kind.weights, hb]

theorem IsDeclaration.number_lower_revisit (op : Opcode) {tree : Tree} (h : IsDeclaration tree) :
    (tree.lower .revisit).number op = some (tree.burden op .value) := by
  cases h with
  | main hs =>
    have hb := number_lowerAll fun statement hm => (hs statement hm).number_lower_revisit op
    simp [Tree.lower, Node.opcodes, Kind.standings, Kind.weights, Instruction.functionHeader,
      Instruction.endMain, List.count_cons, hb]
    omega
  | function _ hs =>
    have hb := number_lowerAll fun statement hm => (hs statement hm).number_lower_revisit op
    simp [Tree.lower, Instruction.functionHeader, hb]
    omega
  | array _ hi =>
    have hb := number_lowerAll fun value hv => (hi value hv).number_lower_revisit op
    simp [Tree.lower, Tree.lowerAll, Node.opcodes, Kind.standings, Kind.weights,
      Instruction.load, hb]
  | keyValue hp =>
    have hb := number_lowerAll fun entry he => (hp entry he).number_lower_revisit op
    simp [Tree.lower, Node.opcodes, Kind.standings, Kind.weights, Instruction.load, hb]
  | value he =>
    have hv := he.number_lower_revisit op
    simp [Tree.lower, Tree.lowerAll, Tree.lowerValue, Node.opcodes, Kind.standings, Kind.weights,
      Instruction.alloc, Instruction.store, List.count_cons, hv]
    omega

theorem IsProgram.number_lower_revisit (op : Opcode) {tree : Tree} (h : IsProgram tree) :
    (tree.lower .revisit).number op = some (tree.burden op .value) := by
  obtain ⟨hd⟩ := h
  have hb := number_lowerAll fun tree ht => (hd tree ht).number_lower_revisit op
  simp [Tree.lower, Node.opcodes, Kind.standings, Kind.weights, hb]

end burden

-- The nodes of a kind, each counted as often as it is lowered.
def Tree.weighted (tree : Tree) (kindName : String) : Nat :=
  (((tree.trails [] .value).filter (·.2.is kindName)).map weight).sum

-- The second walk doubles on every level, so that what is deep down comes up many times.
-- How many times is settled by the edges above it.
theorem weighted_of_parse {tokens : List Token} {tree : Tree} (h : parse tokens = .ok tree) :
    ∃ instructions, tree.lower .revisit = .ok instructions ∧
      Instruction.number .loadConst instructions = tree.weighted "literal" ∧
      Instruction.number .operator instructions = tree.weighted "operator" ∧
      (∀ op, Instruction.number op instructions =
        ((tree.trails [] .value).map fun step => weight step * step.2.again.share op).sum) ∧
      (tree.trails [] .value).map Prod.snd = tree.nodes .value := by
  have hp := isProgram_of_parse h
  obtain ⟨instructions, hl⟩ := hp.lowers .revisit
  have hall (op : Opcode) : Instruction.number op instructions =
      ((tree.trails [] .value).map fun step => weight step * step.2.again.share op).sum := by
    have hn := hp.number_lower_revisit op
    rw [hl] at hn
    have hb : Instruction.number op instructions = tree.burden op .value := Option.some.inj hn
    simp only [hb, Tree.burden, Tree.burdenAlong, Node.count_opcodes]
  have hkind (kindName : String) : ((tree.trails [] .value).map fun step =>
      weight step * (step.2.again.is kindName).toNat).sum = tree.weighted kindName := by
    rw [Tree.weighted, ← sum_ite]
    refine congrArg List.sum (List.map_congr_left fun step _ => ?_)
    have hsame : step.2.again.is kindName = step.2.is kindName := rfl
    cases hk : step.2.is kindName <;> simp [hsame, hk]
  exact ⟨instructions, hl, (hall .loadConst).trans (hkind "literal"),
    (hall .operator).trans (hkind "operator"), hall, tree.map_snd_trails [] .value⟩

-- The index has 2 * 1 * 3 of the constants, the operands of the argument 2 * 2 * 3 each.
theorem weighted_of_element :
    ∃ tree instructions,
      parse (Lexed.ofSource "main() \x7b a[1] = f(2 + 3); \x7d").tokens = .ok tree ∧
      tree.lower .revisit = .ok instructions ∧
      Instruction.number .loadConst instructions = 30 ∧
      Instruction.number .operator instructions = 12 := by
  have h : parse (Lexed.ofSource "main() \x7b a[1] = f(2 + 3); \x7d").tokens =
      .ok (.node .program [.node .main
        [.node .assignment
          [.node .arrayAccess [identifierNode "a" ⟨1, 10⟩, .node (.literal "1") [] ⟨1, 12⟩] ⟨1, 10⟩,
            .node .call [identifierNode "f" ⟨1, 17⟩,
              .node .argumentList [.node .expression
                [.node (.literal "2") [] ⟨1, 19⟩, .node (.operator "+") [] ⟨1, 21⟩,
                  .node (.literal "3") [] ⟨1, 23⟩] ⟨1, 19⟩] ⟨1, 19⟩] ⟨1, 17⟩] ⟨1, 10⟩]
        ⟨1, 1⟩] .start) := by
    cbv
  obtain ⟨instructions, hl, hc, ho, -⟩ := weighted_of_parse h
  refine ⟨_, instructions, h, hl, ?_, ?_⟩
  · rw [hc]
    rfl
  · rw [ho]
    rfl

end ScriptIR
