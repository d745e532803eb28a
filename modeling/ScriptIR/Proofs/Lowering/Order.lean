import ScriptIR.Compile
import ScriptIR.Proofs.Compile.Joined
import ScriptIR.Proofs.Grammar.Reading
import ScriptIR.Proofs.Lowering.Census
import ScriptIR.Proofs.Lowering.Code

namespace ScriptIR

open Grammar

-- What a name, a literal or an operator of a program is there for. All but the first
-- are names that something is put under.
inductive Role where
  | used
  | functionName
  | parameter
  | variable
  | counter
  -- the left side of an assignment, or its array
  | target
deriving DecidableEq

structure Part where
  role : Role
  mention : Mention

namespace Node

-- The texts that a node keeps itself.
def mentions (node : Node) : List Mention :=
  match node.tree with
  | .node kind _ place => kind.mention place
  | .function name _ _ _ => [⟨.name name, none⟩]
  | .loop counter _ _ _ _ => [⟨.name counter, none⟩]
  | .giving _ _ _ => []

def role (node : Node) : Role :=
  match node.tree with
  | .function _ _ _ _ => .functionName
  | .loop _ _ _ _ _ => .counter
  | .node (.varDecl _) _ _ => .variable
  | .node (.identifier _) _ _ =>
    match node.standing with
    | .value => .used
    | .parameter => .parameter
    | .target | .targetArray => .target
  | _ => .used

def parts (node : Node) : List Part := node.mentions.map (Part.mk node.role)

end Node

-- All texts of a tree in the order of its reading, each with its role.
def Tree.parts (tree : Tree) : List Part := (tree.nodes .value).flatMap Node.parts

namespace Tree

mutual

theorem reading_eq_flatMap : ∀ (standing : Standing) (tree : Tree),
    tree.reading = (tree.nodes standing).flatMap Node.mentions
  | standing, .node kind children place => by
    rw [reading, nodes, List.flatMap_cons, readingAll_eq_flatMap]
    rfl
  | standing, .function name params children place => by
    rw [reading, nodes, List.flatMap_cons, List.flatMap_append, reading_eq_flatMap,
      readingAll_eq_flatMap]
    rfl
  | standing, .loop counter first last children place => by
    rw [reading, nodes, List.flatMap_cons, List.flatMap_append, List.flatMap_append,
      reading_eq_flatMap .value first, reading_eq_flatMap .value last, readingAll_eq_flatMap]
    rfl
  | standing, .giving value children place => by
    rw [reading, nodes, List.flatMap_cons, List.flatMap_append, reading_eq_flatMap,
      readingAll_eq_flatMap]
    rfl

theorem readingAll_eq_flatMap : ∀ (first others : Standing) (trees : List Tree),
    readingAll trees = (nodesFrom first others trees).flatMap Node.mentions
  | _, _, [] => rfl
  | first, others, tree :: rest => by
    rw [readingAll, nodesFrom, List.flatMap_append, ← reading_eq_flatMap,
      ← readingAll_eq_flatMap]

end

theorem map_mention_parts (tree : Tree) : tree.parts.map Part.mention = tree.reading := by
  rw [reading_eq_flatMap .value, parts, List.map_flatMap]
  congr 1
  funext node
  rw [Node.parts, List.map_map]
  exact List.map_id _

end Tree

-- The instructions that take a value from a name, from a literal or from two values.
@[simp] def Instruction.evaluates (instruction : Instruction) : Bool :=
  instruction.op = .load || instruction.op = .loadConst || instruction.op = .operator

-- The instruction of a node for its own text.
@[simp] def Node.evaluated (node : Node) : List Instruction :=
  match node.tree with
  | .node (.literal value) _ _ => [.loadConst value]
  | .node (.operator sign) _ _ => [.operator sign]
  | .node (.identifier name) _ _ => if node.standing = .value then [.load name] else []
  | .node (.array (some name)) _ _ => [.load name]
  | .node (.keyValue (some name)) _ _ => [.load name]
  | _ => []

section evaluated

variable {standing first others : Standing}

namespace Tree

def evaluated (standing : Standing) (tree : Tree) : List Instruction :=
  (tree.nodes standing).flatMap Node.evaluated

def evaluatedFrom (first others : Standing) (trees : List Tree) : List Instruction :=
  (nodesFrom first others trees).flatMap Node.evaluated

@[simp] theorem evaluated_node (kind : Kind) (children : List Tree) (place : Location) :
    (Tree.node kind children place).evaluated standing =
      Node.evaluated ⟨standing, .node kind children place⟩ ++
        evaluatedFrom (kind.standings standing).1 (kind.standings standing).2 children := by
  rw [evaluated, nodes, List.flatMap_cons, evaluatedFrom]

@[simp] theorem evaluated_function (name : String) (params : Tree) (children : List Tree)
    (place : Location) : (Tree.function name params children place).evaluated standing =
      params.evaluated .value ++ evaluatedFrom .value .value children := by
  rw [evaluated, nodes, List.flatMap_cons, List.flatMap_append]
  rfl

@[simp] theorem evaluated_loop (counter : String) (first last : Tree) (children : List Tree)
    (place : Location) : (Tree.loop counter first last children place).evaluated standing =
      first.evaluated .value ++ (last.evaluated .value ++
        evaluatedFrom .value .value children) := by
  rw [evaluated, nodes, List.flatMap_cons, List.flatMap_append, List.flatMap_append]
  rfl

@[simp] theorem evaluated_giving (value : Tree) (children : List Tree) (place : Location) :
    (Tree.giving value children place).evaluated standing =
      value.evaluated .value ++ evaluatedFrom .value .value children := by
  rw [evaluated, nodes, List.flatMap_cons, List.flatMap_append]
  rfl

@[simp] theorem evaluatedFrom_nil : evaluatedFrom first others [] = [] := rfl

@[simp] theorem evaluatedFrom_cons (tree : Tree) (rest : List Tree) :
    evaluatedFrom first others (tree :: rest) =
      tree.evaluated first ++ evaluatedFrom others others rest := by
  rw [evaluatedFrom, nodesFrom, List.flatMap_append, evaluated, evaluatedFrom]

theorem evaluatedFrom_eq_flatMap (trees : List Tree) :
    evaluatedFrom standing standing trees = trees.flatMap (evaluated standing) := by
  induction trees with
  | nil => rfl
  | cons tree rest ih => rw [evaluatedFrom_cons, ih, List.flatMap_cons]

end Tree

@[simp] theorem evaluated_identifier (name : String) (place : Location) :
    (identifierNode name place).evaluated standing =
      if standing = .value then [.load name] else [] := by
  cases standing <;> rfl

theorem filter_flatMap_code {trees : List Tree}
    (h : ∀ tree ∈ trees, tree.code.filter Instruction.evaluates = tree.evaluated .value) :
    (trees.flatMap Tree.code).filter Instruction.evaluates =
      Tree.evaluatedFrom .value .value trees := by
  rw [List.filter_flatMap, Tree.evaluatedFrom_eq_flatMap]
  exact List.flatMap_congr h

-- The instruction behind each argument is left out.
theorem filter_argumentCode {values : List Tree}
    (h : ∀ value ∈ values, value.code.filter Instruction.evaluates = value.evaluated .value) :
    (Tree.argumentCode values).filter Instruction.evaluates =
      Tree.evaluatedFrom .value .value values := by
  rw [Tree.argumentCode, List.filter_flatMap, Tree.evaluatedFrom_eq_flatMap]
  refine List.flatMap_congr fun value hv => ?_
  rw [List.filter_append, h value hv]
  exact List.append_nil _

-- By the shapes that trees have. What is evaluated below a node comes in the order of the
-- source, and the other instructions of the node are left out.
theorem IsExpression.filter_code {tree : Tree} (h : IsExpression tree) :
    tree.code.filter Instruction.evaluates = tree.evaluated .value := by
  induction h with
  | literal =>
    rw [code_literal]
    rfl
  | identifier => simp [code_identifier]
  | emptyCall =>
    rw [code_emptyCall]
    rfl
  | call _ hv ih =>
    have ha := filter_argumentCode ih
    simp [code_call hv, Kind.standings, ha]
  | arrayAccess hi ih =>
    simp [code_arrayAccess hi, Kind.standings, ih]
  | operation hl hr ihl ihr =>
    simp [code_operation hl hr, Kind.standings, ihl, ihr]

mutual

theorem IsItem.filter_code : ∀ {tree : Tree}, IsItem tree →
    tree.code.filter Instruction.evaluates = tree.evaluated .value
  | _, .expression he => he.filter_code
  | _, .array _ hi => by
    have hb := filter_flatMap_code fun value hv => (hi value hv).filter_code
    simp [code_array hi, Kind.standings, hb]
  | _, .keyValue hp => by
    have hb := filter_flatMap_code fun entry he => (hp entry he).filter_code
    simp [code_keyValue hp, Kind.standings, hb]

theorem IsPair.filter_code : ∀ {tree : Tree}, IsPair tree →
    tree.code.filter Instruction.evaluates = tree.evaluated .value
  | _, .pair he hi => by
    have hk := he.filter_code
    have hv := hi.filter_code
    simp [code_pair he hi, Kind.standings, hk, hv]

end

theorem IsStatement.filter_code {tree : Tree} (h : IsStatement tree) :
    tree.code.filter Instruction.evaluates = tree.evaluated .value := by
  induction h with
  | assignment ht he =>
    have hv := he.filter_code
    cases ht with
    | identifier =>
      simp [code_assignName he, Kind.standings, hv]
    | arrayAccess hi =>
      -- the array of an element is a name in the store and is not loaded
      have hx := hi.filter_code
      simp [code_assignElement hi he, Kind.standings, hv, hx]
  | call he => exact he.filter_code
  | ifStatement he hb ih =>
    have hc := he.filter_code
    simp [code_if he hb, Kind.standings, hc, ih]
  | ifElse he hb _ ho ihb iho =>
    have hc := he.filter_code
    simp [code_ifElse he hb ho, Kind.standings, hc, ihb, iho]
  | loop hf hl hs ih =>
    have hfirst := hf.filter_code
    have hlast := hl.filter_code
    have hb := filter_flatMap_code ih
    simp [code_loop hf hl hs, hfirst, hlast, hb]
  | bareReturn =>
    rw [code_bareReturn]
    rfl
  | giving he =>
    have hv := he.filter_code
    simp [code_giving he, hv]
  | block hs ih =>
    have hb := filter_flatMap_code ih
    simp [code_block hs, Kind.standings, hb]

-- Parameters are not evaluated.
theorem evaluatedFrom_parameters {params : List Tree} (h : ∀ param ∈ params, IsParameter param) :
    Tree.evaluatedFrom .parameter .parameter params = [] := by
  induction params with
  | nil => rfl
  | cons param rest ih =>
    obtain ⟨⟨⟩, hr⟩ := List.forall_mem_cons.mp h
    simp [ih hr]

theorem IsDeclaration.filter_code {tree : Tree} (h : IsDeclaration tree) :
    tree.code.filter Instruction.evaluates = tree.evaluated .value := by
  cases h with
  | main hs =>
    have hb := filter_flatMap_code fun statement hm => (hs statement hm).filter_code
    simp [code_main hs, Kind.standings, hb]
  | function hp hs =>
    have hw := evaluatedFrom_parameters hp
    have hb := filter_flatMap_code fun statement hm => (hs statement hm).filter_code
    simp [code_function hs, Kind.standings, hw, hb]
  | array _ hi =>
    have hb := filter_flatMap_code fun value hv => (hi value hv).filter_code
    simp [code_namedArray hi, Kind.standings, hb]
  | keyValue hp =>
    have hb := filter_flatMap_code fun entry he => (hp entry he).filter_code
    simp [code_namedKeyValue hp, Kind.standings, hb]
  | value he =>
    have hv := he.filter_code
    simp [code_variable he, Kind.standings, hv]

theorem IsProgram.filter_code {tree : Tree} (h : IsProgram tree) :
    tree.code.filter Instruction.evaluates = tree.evaluated .value := by
  obtain ⟨hd⟩ := h
  have hb := filter_flatMap_code fun tree ht => (hd tree ht).filter_code
  simp [code_program hd, Kind.standings, hb]

end evaluated

-- What a token is evaluated by.
def TokenKind.opcode? : TokenKind → Option Opcode
  | .identifier => some .load
  | .literal _ => some .loadConst
  | .operator _ => some .operator
  | _ => none

def Instruction.operand (instruction : Instruction) : Option Opcode × Option String :=
  (some instruction.op, instruction.arg1)

def Token.operand (token : Token) : Option Opcode × Option String :=
  (token.kind.opcode?, some token.text)

def Word.operand : Word → Option Opcode × Option String
  | .name text => (some .load, some text)
  | .literal text => (some .loadConst, some text)
  | .operator text => (some .operator, some text)
  | .keyword _ | .mark _ => (none, none)

theorem Token.operand_word {token : Token} (h : token.kind.keepsText = true) :
    token.word.operand = token.operand := by
  obtain ⟨kind, text, place⟩ := token
  cases kind with
  | keyword word => cases h
  | mark sign => cases h
  | _ => rfl

-- What a node evaluates are its texts that are used.
theorem Node.map_operand_evaluated (node : Node) : node.evaluated.map Instruction.operand =
    (node.parts.filter (·.role = .used)).map (·.mention.word.operand) := by
  obtain ⟨standing, tree⟩ := node
  cases tree with
  | node kind children place =>
    cases kind with
    | identifier name => cases standing <;> rfl
    | array name => cases name <;> rfl
    | keyValue name => cases name <;> rfl
    | _ => rfl
  | _ => rfl

theorem Tree.map_operand_evaluated (tree : Tree) :
    (tree.evaluated .value).map Instruction.operand =
      (tree.parts.filter (·.role = .used)).map (·.mention.word.operand) := by
  rw [evaluated, parts, List.map_flatMap, List.filter_flatMap, List.map_flatMap]
  congr 1
  funext node
  exact node.map_operand_evaluated

-- Parts and tokens that go together can be chosen by either.
theorem map_operand_zip {parts : List Part} {words : List Token}
    (h : List.Forall₂ (fun part token => part.mention.Of token) parts words)
    (hk : ∀ token ∈ words, token.kind.keepsText = true) :
    (parts.filter (·.role = .used)).map (·.mention.word.operand) =
      ((parts.zip words).filter (·.1.role = .used)).map (·.2.operand) := by
  induction h with
  | nil => rfl
  | @cons part token parts words hp _ ih =>
    obtain ⟨ht, hr⟩ := List.forall_mem_cons.mp hk
    have hw : part.mention.word.operand = token.operand := by
      rw [← hp.word, Token.operand_word ht]
    by_cases hu : part.role = .used
    · simp [hu, hw, ih hr]
    · simp [hu, ih hr]

-- Values are computed in the order of the source: what is loaded and what is operated on
-- are the texts of its tokens from left to right, but for the names of functions,
-- parameters, variables and counters and for the names on the left side of assignments.
theorem operands_of_compile {source : String} {instructions : List Instruction}
    (h : compile .single source = .ok instructions) :
    let words := (Lexed.ofSource source).tokens.filter (·.kind.keepsText)
    ∃ tree, parse (Lexed.ofSource source).tokens = .ok tree ∧
      List.Forall₂ (fun part token => part.mention.Of token) tree.parts words ∧
      (instructions.filter (·.evaluates)).map Instruction.operand =
        ((tree.parts.zip words).filter (·.1.role = .used)).map (·.2.operand) := by
  intro words
  obtain ⟨trees, hp, hl⟩ := exists_parse_of_compile h
  obtain ⟨_, he, hs⟩ := parse_eq_ok_iff.mp hp
  cases he
  have hr : List.Forall₂ (fun part token => part.mention.Of token)
      (Tree.node .program trees .start).parts words := by
    rw [← List.forall₂_map_left_iff (f := Part.mention) (R := Mention.Of), Tree.map_mention_parts]
    exact hs.reads
  refine ⟨_, hp, hr, ?_⟩
  have hf := (isProgram_of_parse hp).filter_code
  rw [Tree.code_of_lower hl] at hf
  rw [hf, Tree.map_operand_evaluated]
  exact map_operand_zip hr fun token ht => (List.mem_filter.mp ht).2

-- The function, its parameter and the array of the target are not loaded.
theorem operands_of_element :
    ∃ instructions,
      compile .single "function f(x) \x7b a[x] = f(1 - b); \x7d" = .ok instructions ∧
      (instructions.filter (·.evaluates)).map Instruction.operand =
        [(some .load, some "x"), (some .load, some "f"), (some .loadConst, some "1"),
          (some .operator, some "-"), (some .load, some "b")] := by
  have hp : parse (Lexed.ofSource "function f(x) \x7b a[x] = f(1 - b); \x7d").tokens =
      .ok (.node .program [.function "f" (.node .paramList [identifierNode "x" ⟨1, 12⟩] ⟨1, 12⟩)
        [.node .assignment
          [.node .arrayAccess [identifierNode "a" ⟨1, 17⟩, identifierNode "x" ⟨1, 19⟩] ⟨1, 17⟩,
            .node .call [identifierNode "f" ⟨1, 24⟩,
              .node .argumentList [.node .expression [.node (.literal "1") [] ⟨1, 26⟩,
                .node (.operator "-") [] ⟨1, 28⟩, identifierNode "b" ⟨1, 30⟩] ⟨1, 26⟩]
                ⟨1, 26⟩] ⟨1, 24⟩] ⟨1, 17⟩] ⟨1, 1⟩] .start) := by
    cbv
  have hw : (Lexed.ofSource "function f(x) \x7b a[x] = f(1 - b); \x7d").tokens.filter
      (·.kind.keepsText) =
      [⟨.identifier, "f", ⟨1, 10⟩⟩, ⟨.identifier, "x", ⟨1, 12⟩⟩, ⟨.identifier, "a", ⟨1, 17⟩⟩,
        ⟨.identifier, "x", ⟨1, 19⟩⟩, ⟨.identifier, "f", ⟨1, 24⟩⟩, ⟨.literal .int, "1", ⟨1, 26⟩⟩,
        ⟨.operator .minus, "-", ⟨1, 28⟩⟩, ⟨.identifier, "b", ⟨1, 30⟩⟩] := by
    cbv
  obtain ⟨instructions, h⟩ : ∃ instructions,
      compile .single "function f(x) \x7b a[x] = f(1 - b); \x7d" = .ok instructions :=
    ⟨_, compile_of_parse hp⟩
  obtain ⟨tree, ht, -, ho⟩ := operands_of_compile h
  refine ⟨instructions, h, ?_⟩
  cases hp.symm.trans ht
  rw [ho, hw]
  rfl

end ScriptIR
