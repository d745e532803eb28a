import ScriptIR.Proofs.Lowering.Total

namespace ScriptIR

open Grammar Instruction

namespace Instruction

variable (name : String) (target : Label)

@[simp] theorem op_functionHeader : (functionHeader name).op = .function := rfl

@[simp] theorem op_endMain : endMain.op = .endMain := rfl

@[simp] theorem op_alloc : (alloc name).op = .alloc := rfl

@[simp] theorem op_store : (store name).op = .store := rfl

@[simp] theorem op_storeElement : (storeElement name).op = .store := rfl

@[simp] theorem op_load : (load name).op = .load := rfl

@[simp] theorem op_loadConst : (loadConst name).op = .loadConst := rfl

@[simp] theorem op_arg : arg.op = .arg := rfl

@[simp] theorem op_call (count : Nat) : (call count).op = .callFunction := rfl

@[simp] theorem op_ifFalse : (ifFalse target).op = .ifFalse := rfl

@[simp] theorem op_goto : (goto target).op = .goto := rfl

@[simp] theorem op_label : (label target).op = .label := rfl

@[simp] theorem op_giveBack : giveBack.op = .giveBack := rfl

@[simp] theorem op_add : (add name).op = .add := rfl

@[simp] theorem op_operator : (operator name).op = .operator := rfl

@[simp] theorem op_arrayAccess : arrayAccess.op = .arrayAccess := rfl

@[simp] theorem op_keyValuePair : keyValuePair.op = .keyValuePair := rfl

end Instruction

theorem Lowered.ok_andThen_ok (front back : List Instruction) :
    ((.ok front : Lowered) >> (.ok back : Lowered)) = .ok (front ++ back) := rfl

namespace Tree

-- The instructions of a tree that has no flaw. The children are not walked again.
def code (tree : Tree) : List Instruction := (tree.lower .single).toOption.getD []

theorem code_of_lower {tree : Tree} {code : List Instruction}
    (h : tree.lower .single = .ok code) : tree.code = code := by
  rw [Tree.code, h]
  rfl

theorem lower_eq_code {tree : Tree} (h : (tree.lower .single).Succeeds) :
    tree.lower .single = .ok tree.code := by
  obtain ⟨code, hc⟩ := h
  rw [hc, code_of_lower hc]

theorem lowerAll_eq_code {trees : List Tree}
    (h : ∀ tree ∈ trees, (tree.lower .single).Succeeds) :
    lowerAll .single trees = .ok (trees.flatMap code) := by
  induction trees with
  | nil => rfl
  | cons tree rest ih =>
    obtain ⟨ht, hr⟩ := List.forall_mem_cons.mp h
    rw [lowerAll, lower_eq_code ht, ih hr, Lowered.ok_andThen_ok, List.flatMap_cons]

-- The instructions of some arguments, each with the one that announces it.
def argumentCode (values : List Tree) : List Instruction :=
  values.flatMap fun value => value.code ++ [arg]

theorem lowerArguments_eq_code {values : List Tree}
    (h : ∀ value ∈ values, (value.lower .single).Succeeds) :
    lowerArguments .single values = .ok (argumentCode values) := by
  induction values with
  | nil => rfl
  | cons value rest ih =>
    obtain ⟨ht, hr⟩ := List.forall_mem_cons.mp h
    rw [lowerArguments, lower_eq_code ht, ih hr, Lowered.emit, Lowered.ok_andThen_ok,
      Lowered.ok_andThen_ok, argumentCode, argumentCode, List.flatMap_cons, List.append_assoc]

end Tree

theorem IsExpression.lower_eq {tree : Tree} (h : IsExpression tree) :
    tree.lower .single = .ok tree.code := Tree.lower_eq_code (h.lowers .single)

theorem IsItem.lower_eq {tree : Tree} (h : IsItem tree) : tree.lower .single = .ok tree.code :=
  Tree.lower_eq_code (h.lowers .single)

theorem IsStatement.lower_eq {tree : Tree} (h : IsStatement tree) :
    tree.lower .single = .ok tree.code := Tree.lower_eq_code (h.lowers .single)

theorem IsDeclaration.lower_eq {tree : Tree} (h : IsDeclaration tree) :
    tree.lower .single = .ok tree.code := Tree.lower_eq_code (h.lowers .single)

theorem IsProgram.lower_eq {tree : Tree} (h : IsProgram tree) :
    tree.lower .single = .ok tree.code := Tree.lower_eq_code (h.lowers .single)

-- The instructions of every shape, from those of its parts. Behind these equations nothing
-- needs to know how a tree is lowered.
section shapes

variable {name sign text : String} {inner between place : Location}
variable {left right key value index condition branch other first last params : Tree}
variable {values entries statements trees : List Tree}

theorem code_literal : (Tree.node (.literal text) [] place).code = [loadConst text] :=
  Tree.code_of_lower rfl

theorem code_identifier : (identifierNode name place).code = [load name] :=
  Tree.code_of_lower rfl

theorem code_emptyCall :
    (Tree.node .call [identifierNode name inner] place).code = [load name, call 0] :=
  Tree.code_of_lower rfl

theorem code_call (h : ∀ value ∈ values, IsExpression value) :
    (Tree.node .call [identifierNode name inner, .node .argumentList values between] place).code =
      load name :: (Tree.argumentCode values ++ [call values.length]) := by
  have ha := Tree.lowerArguments_eq_code fun value hv => (h value hv).lowers .single
  apply Tree.code_of_lower
  simp [identifierNode, Tree.lower, Tree.lowerCall, Tree.again, Tree.children, Lowered.emit,
    Lowered.ok_andThen_ok, ha]

theorem code_arrayAccess (h : IsExpression index) :
    (Tree.node .arrayAccess [identifierNode name inner, index] place).code =
      load name :: (index.code ++ [arrayAccess]) := by
  apply Tree.code_of_lower
  simp [identifierNode, Tree.lower, Tree.lowerCouple, Tree.again, Lowered.emit,
    Lowered.ok_andThen_ok, h.lower_eq]

theorem code_operation (hl : IsExpression left) (hr : IsExpression right) :
    (Tree.node .expression [left, .node (.operator sign) [] inner, right] place).code =
      left.code ++ operator sign :: right.code := by
  apply Tree.code_of_lower
  simp [Tree.lower, Tree.lowerAll, Tree.again, Lowered.emit, Lowered.ok_andThen_ok, hl.lower_eq,
    hr.lower_eq]

theorem code_array (h : ∀ value ∈ values, IsItem value) :
    (Tree.node (.array none) [.node .expressionList values inner] place).code =
      values.flatMap Tree.code := by
  have ha := Tree.lowerAll_eq_code fun value hv => (h value hv).lowers .single
  apply Tree.code_of_lower
  simp [Tree.lower, Tree.lowerAll, Lowered.emit, Lowered.ok_andThen_ok, ha]

theorem code_namedArray (h : ∀ value ∈ values, IsItem value) :
    (Tree.node (.array (some name)) [.node .expressionList values inner] place).code =
      load name :: values.flatMap Tree.code := by
  have ha := Tree.lowerAll_eq_code fun value hv => (h value hv).lowers .single
  apply Tree.code_of_lower
  simp [Tree.lower, Tree.lowerAll, Lowered.emit, Lowered.ok_andThen_ok, ha]

theorem code_keyValue (h : ∀ entry ∈ entries, IsPair entry) :
    (Tree.node (.keyValue none) entries place).code = entries.flatMap Tree.code := by
  have ha := Tree.lowerAll_eq_code fun entry he => (h entry he).lowers .single
  apply Tree.code_of_lower
  rw [Tree.lower, ha]

theorem code_namedKeyValue (h : ∀ entry ∈ entries, IsPair entry) :
    (Tree.node (.keyValue (some name)) entries place).code =
      load name :: entries.flatMap Tree.code := by
  have ha := Tree.lowerAll_eq_code fun entry he => (h entry he).lowers .single
  apply Tree.code_of_lower
  rw [Tree.lower, ha, Lowered.emit, Lowered.ok_andThen_ok, List.singleton_append]

theorem code_pair (hk : IsExpression key) (hv : IsItem value) :
    (Tree.node .pair [key, value] place).code = key.code ++ (value.code ++ [keyValuePair]) := by
  apply Tree.code_of_lower
  simp [Tree.lower, Tree.lowerCouple, Tree.again, Lowered.emit, Lowered.ok_andThen_ok,
    hk.lower_eq, hv.lower_eq]

theorem code_assignName (h : IsExpression value) :
    (Tree.node .assignment [identifierNode name inner, value] place).code =
      alloc name :: (value.code ++ [store name]) := by
  apply Tree.code_of_lower
  simp [identifierNode, Tree.lower, Tree.lowerAssignment, Tree.lowerTarget, Tree.again,
    Lowered.emit, Lowered.ok_andThen_ok, h.lower_eq]

theorem code_assignElement (hi : IsExpression index) (hv : IsExpression value) :
    (Tree.node .assignment
      [.node .arrayAccess [identifierNode name inner, index] between, value] place).code =
      index.code ++ (value.code ++ [storeElement name]) := by
  apply Tree.code_of_lower
  simp [identifierNode, Tree.lower, Tree.lowerAssignment, Tree.lowerTarget, Tree.lowerElement,
    Tree.identifierName?, Tree.again, Lowered.emit, Lowered.ok_andThen_ok, hi.lower_eq, hv.lower_eq]

theorem code_if (hc : IsExpression condition) (hb : IsStatement branch) :
    (Tree.node .ifStatement [condition, branch] place).code =
      condition.code ++ ifFalse .otherwise ::
        (branch.code ++ [label .otherwise, label .endIf]) := by
  apply Tree.code_of_lower
  simp [Tree.lower, Tree.lowerIf, Tree.lowerElse, Tree.again, Lowered.emit, Lowered.ok_andThen_ok,
    hc.lower_eq, hb.lower_eq]

theorem code_ifElse (hc : IsExpression condition) (hb : IsStatement branch)
    (ho : IsStatement other) :
    (Tree.node .ifStatement [condition, branch, .node .elseStatement [other] inner] place).code =
      condition.code ++ ifFalse .otherwise :: (branch.code ++
        goto .endIf :: label .otherwise :: (other.code ++ [label .endIf])) := by
  apply Tree.code_of_lower
  simp [Tree.lower, Tree.lowerIf, Tree.lowerElse, Tree.again, Lowered.emit, Lowered.ok_andThen_ok,
    hc.lower_eq, hb.lower_eq, ho.lower_eq]

theorem code_loop (hf : IsExpression first) (hl : IsExpression last)
    (h : ∀ statement ∈ statements, IsStatement statement) :
    (Tree.loop name first last statements place).code =
      first.code ++ label .loopStart :: (last.code ++ ifFalse .loopEnd ::
        (statements.flatMap Tree.code ++ [add name, goto .loopStart, label .loopEnd])) := by
  have hb := Tree.lowerAll_eq_code fun statement hs => (h statement hs).lowers .single
  apply Tree.code_of_lower
  simp [Tree.lower, Tree.again, Lowered.emit, Lowered.ok_andThen_ok, hf.lower_eq, hl.lower_eq, hb]

theorem code_bareReturn : (Tree.node .bareReturn [] place).code = [giveBack] :=
  Tree.code_of_lower rfl

theorem code_giving (h : IsExpression value) :
    (Tree.giving value [] place).code = value.code ++ [giveBack] := by
  apply Tree.code_of_lower
  simp [Tree.lower, Tree.again, Lowered.emit, Lowered.ok_andThen_ok, h.lower_eq]

theorem code_block (h : ∀ statement ∈ statements, IsStatement statement) :
    (Tree.node .block statements place).code = statements.flatMap Tree.code := by
  have hb := Tree.lowerAll_eq_code fun statement hs => (h statement hs).lowers .single
  apply Tree.code_of_lower
  rw [Tree.lower, hb]

theorem code_main (h : ∀ statement ∈ statements, IsStatement statement) :
    (Tree.node .main statements place).code =
      functionHeader "main" :: (statements.flatMap Tree.code ++ [endMain]) := by
  have hb := Tree.lowerAll_eq_code fun statement hs => (h statement hs).lowers .single
  apply Tree.code_of_lower
  simp [Tree.lower, Tree.again, Lowered.emit, Lowered.ok_andThen_ok, hb]

theorem code_function (h : ∀ statement ∈ statements, IsStatement statement) :
    (Tree.function name params statements place).code =
      functionHeader name :: statements.flatMap Tree.code := by
  have hb := Tree.lowerAll_eq_code fun statement hs => (h statement hs).lowers .single
  apply Tree.code_of_lower
  simp [Tree.lower, Tree.again, Lowered.emit, Lowered.ok_andThen_ok, hb]

theorem code_variable (h : IsExpression value) :
    (Tree.node (.varDecl name) [value] place).code =
      alloc name :: (value.code ++ [store name]) := by
  apply Tree.code_of_lower
  simp [Tree.lower, Tree.lowerValue, Tree.again, Lowered.emit, Lowered.ok_andThen_ok, h.lower_eq]

theorem code_program (h : ∀ tree ∈ trees, IsDeclaration tree) :
    (Tree.node .program trees place).code = trees.flatMap Tree.code := by
  have hb := Tree.lowerAll_eq_code fun tree ht => (h tree ht).lowers .single
  apply Tree.code_of_lower
  rw [Tree.lower, hb]

end shapes

end ScriptIR
