import ScriptIR.Compile
import ScriptIR.Proofs.Compile.Joined
import ScriptIR.Proofs.Lowering.Code

namespace ScriptIR

open Grammar Instruction

namespace Instruction

-- How many parameters the second operand of a call names.
def placeholders (instruction : Instruction) : Nat :=
  match instruction.arg2 with
  | none => 0
  | some text => text.toList.tails.countP fun tail => "temp_param".toList.isPrefixOf tail

theorem placeholders_call (count : Nat) : (call count).placeholders = count := by
  cases count with
  | zero => rfl
  | succ count =>
    simp only [placeholders, call, parameters]
    induction count with
    | zero => decide
    | succ count ih =>
      rw [List.replicate_succ, List.replicate_succ, String.intercalate_cons_cons,
        ← List.replicate_succ]
      generalize ", ".intercalate (List.replicate (count + 1) "temp_param") = others at ih
      simp only [String.toList_append]
      simpa [List.isPrefixOf] using ih

-- What an instruction adds to the arguments that wait for a call.
def change (instruction : Instruction) : Int :=
  match instruction.op with
  | .arg => 1
  | .callFunction => -instruction.placeholders
  | _ => 0

def balance (instructions : List Instruction) : Int := (instructions.map change).sum

-- Instructions that leave the waiting arguments alone.
def passes (instruction : Instruction) : Bool :=
  instruction.op ≠ .arg && instruction.op ≠ .callFunction

end Instruction

-- The positions of the arguments that wait for a call, the last one first. There is no
-- result where a call wants more of them than there are.
def pending (position : Nat) (stack : List Nat) : List Instruction → Option (List Nat)
  | [] => some stack
  | instruction :: rest =>
    match instruction.op with
    | .arg => pending (position + 1) (position :: stack) rest
    | .callFunction =>
      if instruction.placeholders ≤ stack.length then
        pending (position + 1) (stack.drop instruction.placeholders) rest
      else none
    | _ => pending (position + 1) stack rest

section pending

variable {position : Nat} {stack final : List Nat} {instruction : Instruction}
variable {front back rest code : List Instruction}

theorem pending_passing (h : instruction.passes = true) :
    pending position stack (instruction :: rest) = pending (position + 1) stack rest := by
  simp only [passes, Bool.and_eq_true, decide_eq_true_eq] at h
  rw [pending]
  cases ho : instruction.op with
  | arg => exact (h.1 ho).elim
  | callFunction => exact (h.2 ho).elim
  | _ => rfl

theorem pending_append : pending position stack (front ++ back) =
    (pending position stack front).bind fun middle =>
      pending (position + front.length) middle back := by
  induction front generalizing position stack with
  | nil => rfl
  | cons instruction rest ih =>
    have hlen : position + (instruction :: rest).length = position + 1 + rest.length := by
      rw [List.length_cons]
      omega
    rw [List.cons_append, pending, pending, hlen]
    cases instruction.op with
    | arg => exact ih
    | callFunction =>
      dsimp only
      split
      · exact ih
      · rfl
    | _ => exact ih

-- The counter is the number of the arguments that wait.
theorem length_pending (h : pending position stack code = some final) :
    (final.length : Int) = stack.length + balance code := by
  induction code generalizing position stack with
  | nil =>
    cases h
    simp [balance]
  | cons instruction rest ih =>
    have hb : balance (instruction :: rest) = instruction.change + balance rest := by
      simp [balance]
    rw [pending] at h
    rw [hb, change]
    cases ho : instruction.op with
    | arg =>
      rw [ho] at h
      have hl := ih h
      rw [List.length_cons] at hl
      dsimp only
      omega
    | callFunction =>
      rw [ho] at h
      dsimp only at h ⊢
      split at h
      · have hl := ih h
        rw [List.length_drop] at hl
        omega
      · cases h
    | _ =>
      rw [ho] at h
      have hl := ih h
      dsimp only
      omega

end pending

namespace Tree

-- A tree and all that is below it.
inductive Within (part : Tree) : Tree → Prop
  | self : Within part part
  | owned {child tree : Tree} : child ∈ tree.owned → Within part child → Within part tree
  | child {child tree : Tree} : child ∈ tree.children → Within part child → Within part tree

-- A call of a function and its arguments.
inductive Calls : Tree → String → List Tree → Prop
  | empty {name : String} {inner place : Location} :
      Calls (.node .call [identifierNode name inner] place) name []
  | given {name : String} {values : List Tree} {inner between place : Location} :
      Calls (.node .call [identifierNode name inner, .node .argumentList values between] place)
        name values

-- Where the arguments of a call are announced.
def announced (position : Nat) : List Tree → List Nat
  | [] => []
  | value :: rest =>
    (position + value.code.length) :: announced (position + value.code.length + 1) rest

theorem length_announced (position : Nat) (values : List Tree) :
    (announced position values).length = values.length := by
  induction values generalizing position with
  | nil => rfl
  | cons value rest ih => rw [announced, List.length_cons, List.length_cons, ih]

end Tree

-- Instructions whose calls take all arguments that were announced for them. The calls are
-- those of some trees.
inductive Settled (within : Tree → Prop) : List Instruction → Prop
  | nil : Settled within []
  | passing {instruction : Instruction} {rest : List Instruction} : instruction.passes = true →
      Settled within rest → Settled within (instruction :: rest)
  | call {tree : Tree} {name : String} {values : List Tree} {rest : List Instruction} :
      within tree → tree.Calls name values → (∀ value ∈ values, Settled within value.code) →
      Settled within rest →
      Settled within
        (load name :: (Tree.argumentCode values ++ Instruction.call values.length :: rest))

namespace Settled

variable {within other : Tree → Prop} {front back code : List Instruction}

theorem append (hf : Settled within front) (hb : Settled within back) :
    Settled within (front ++ back) := by
  induction hf with
  | nil => exact hb
  | passing hp _ ih => exact .passing hp ih
  | call ht hc hv _ _ ih =>
    rw [List.cons_append, List.append_assoc, List.cons_append]
    exact .call ht hc hv ih

theorem mono (hw : ∀ tree, within tree → other tree) (h : Settled within code) :
    Settled other code := by
  induction h with
  | nil => exact .nil
  | passing hp _ ih => exact .passing hp ih
  | call ht hc _ _ ihv ih => exact .call (hw _ ht) hc ihv ih

theorem flatMap {trees : List Tree} (h : ∀ tree ∈ trees, Settled within tree.code) :
    Settled within (trees.flatMap Tree.code) := by
  induction trees with
  | nil => exact .nil
  | cons tree rest ih =>
    obtain ⟨ht, hr⟩ := List.forall_mem_cons.mp h
    rw [List.flatMap_cons]
    exact ht.append (ih hr)

end Settled

-- Arguments leave behind nothing but what announces them.
theorem pending_argumentCode {values : List Tree} {position : Nat} {stack : List Nat}
    (h : ∀ value ∈ values, ∀ position stack, pending position stack value.code = some stack) :
    pending position stack (Tree.argumentCode values) =
      some ((Tree.announced position values).reverse ++ stack) := by
  induction values generalizing position stack with
  | nil => rfl
  | cons value rest ih =>
    obtain ⟨hv, hr⟩ := List.forall_mem_cons.mp h
    have hrest := @ih (position + value.code.length + 1)
      ((position + value.code.length) :: stack) hr
    rw [Tree.argumentCode] at hrest ⊢
    rw [List.flatMap_cons, List.append_assoc, pending_append, hv, Option.bind_some,
      List.singleton_append, pending]
    simpa [Tree.announced] using hrest

theorem pending_call {values : List Tree} {name : String} {position : Nat} {stack : List Nat}
    (h : ∀ value ∈ values, ∀ position stack, pending position stack value.code = some stack) :
    pending position stack (load name :: Tree.argumentCode values) =
      some ((Tree.announced (position + 1) values).reverse ++ stack) := by
  rw [pending_passing rfl, pending_argumentCode h]

-- A call drops what its own arguments left, and nothing else.
theorem pending_called {values : List Tree} {position start : Nat} {stack : List Nat}
    {rest : List Instruction} :
    pending position ((Tree.announced start values).reverse ++ stack)
      (Instruction.call values.length :: rest) = pending (position + 1) stack rest := by
  have hlen : values.length = (Tree.announced start values).reverse.length := by
    rw [List.length_reverse, Tree.length_announced]
  rw [pending, op_call, placeholders_call]
  dsimp only
  rw [if_pos (by rw [List.length_append, ← hlen]; omega), hlen, List.drop_left]

theorem Settled.pending_eq {within : Tree → Prop} {code : List Instruction}
    (h : Settled within code) (position : Nat) (stack : List Nat) :
    pending position stack code = some stack := by
  induction h generalizing position stack with
  | nil => rfl
  | passing hp _ ih => rw [pending_passing hp, ih]
  | call _ _ _ _ ihv ih =>
    rw [← List.cons_append, pending_append, pending_call ihv, Option.bind_some, pending_called, ih]

theorem Settled.balance_eq_zero {within : Tree → Prop} {code : List Instruction}
    (h : Settled within code) : balance code = 0 := by
  have hl := length_pending (h.pending_eq 0 [])
  simpa using hl.symm

-- A call in the middle of some arguments is in the middle of one of them.
theorem exists_of_argumentCode {values : List Tree} {front back : List Instruction}
    {instruction : Instruction} (hop : instruction.op = .callFunction)
    (h : Tree.argumentCode values = front ++ instruction :: back) :
    ∃ before, ∃ value ∈ values, ∃ inner rest, front = before ++ inner ∧
      value.code = inner ++ instruction :: rest := by
  induction values generalizing front with
  | nil => simp [Tree.argumentCode] at h
  | cons value others ih =>
    rw [Tree.argumentCode, List.flatMap_cons, ← Tree.argumentCode, List.append_assoc,
      List.append_eq_append_iff] at h
    obtain ⟨more, rfl, h⟩ | ⟨more, hv, h⟩ := h
    · cases more with
      | nil =>
        rw [List.nil_append, List.singleton_append] at h
        rw [← (List.cons.inj h).1] at hop
        cases hop
      | cons first more =>
        obtain ⟨before, found, hm, inner, rest, rfl, hc⟩ := ih (List.cons.inj h).2
        exact ⟨value.code ++ first :: before, found, .tail _ hm, inner, rest,
          by rw [List.append_assoc, List.cons_append], hc⟩
    · cases more with
      | nil =>
        rw [List.nil_append, List.singleton_append] at h
        rw [(List.cons.inj h).1] at hop
        cases hop
      | cons first more =>
        obtain ⟨rfl, -⟩ := List.cons.inj h
        exact ⟨[], value, .head _, front, more, rfl, hv⟩

-- Every call stands behind its own arguments.
theorem Settled.exists_call {within : Tree → Prop} {code front back : List Instruction}
    {instruction : Instruction} (h : Settled within code)
    (hop : instruction.op = .callFunction) (he : code = front ++ instruction :: back) :
    ∃ tree name values outer, within tree ∧ tree.Calls name values ∧
      (∀ value ∈ values, Settled within value.code) ∧
      front = outer ++ load name :: Tree.argumentCode values ∧
      instruction = Instruction.call values.length := by
  induction h generalizing front back with
  | nil => simp at he
  | @passing first rest hp _ ih =>
    cases front with
    | nil =>
      rw [(List.cons.inj he).1] at hp
      simp [passes, hop] at hp
    | cons other front =>
      rw [List.cons_append] at he
      obtain ⟨rfl, hr⟩ := List.cons.inj he
      obtain ⟨tree, name, values, outer, ht, hc, hv, rfl, hi⟩ := ih hr
      exact ⟨tree, name, values, first :: outer, ht, hc, hv, rfl, hi⟩
  | @call tree name values rest ht hc hv _ ihv ih =>
    cases front with
    | nil =>
      rw [← (List.cons.inj he).1] at hop
      cases hop
    | cons other front =>
      rw [List.cons_append] at he
      obtain ⟨rfl, hs⟩ := List.cons.inj he
      rw [List.append_eq_append_iff] at hs
      -- the call of this step, one behind it or one in its arguments
      obtain ⟨_ | ⟨first, more⟩, rfl, hr⟩ | ⟨_ | ⟨first, more⟩, ha, hr⟩ := hs
      · obtain ⟨rfl, -⟩ := List.cons.inj hr
        exact ⟨tree, name, values, [], ht, hc, hv, by simp, rfl⟩
      · obtain ⟨inner, called, others, outer, hti, hci, hvi, rfl, hi⟩ := ih (List.cons.inj hr).2
        exact ⟨inner, called, others, load name :: (Tree.argumentCode values ++ first :: outer),
          hti, hci, hvi, by simp, hi⟩
      · obtain ⟨rfl, -⟩ := List.cons.inj hr
        exact ⟨tree, name, values, [], ht, hc, hv, by simp [ha], rfl⟩
      · obtain ⟨rfl, -⟩ := List.cons.inj hr
        obtain ⟨before, value, hm, _, _, rfl, hcode⟩ := exists_of_argumentCode hop ha
        obtain ⟨inner, called, others, outer, hti, hci, hvi, rfl, hi⟩ := ihv value hm hcode
        exact ⟨inner, called, others, load name :: (before ++ outer), hti, hci, hvi, by simp, hi⟩

namespace Tree

variable (kind : Kind) (name : String) (first last : Tree) (trees : List Tree) (place : Location)

@[simp] theorem children_node : (Tree.node kind trees place).children = trees := rfl

@[simp] theorem children_function : (Tree.function name first trees place).children = trees := rfl

@[simp] theorem children_loop : (Tree.loop name first last trees place).children = trees := rfl

@[simp] theorem owned_loop : (Tree.loop name first last trees place).owned = [first, last] := rfl

@[simp] theorem owned_giving : (Tree.giving first trees place).owned = [first] := rfl

end Tree

-- Shape by shape, with the calls that are in the tree.
section shapes

variable {tree child : Tree} {code : List Instruction}

theorem Settled.ofChild (hm : child ∈ tree.children) (h : Settled (·.Within child) code) :
    Settled (·.Within tree) code :=
  h.mono fun _ hw => .child hm hw

theorem Settled.ofOwned (hm : child ∈ tree.owned) (h : Settled (·.Within child) code) :
    Settled (·.Within tree) code :=
  h.mono fun _ hw => .owned hm hw

theorem Settled.children (h : ∀ child ∈ tree.children, Settled (·.Within child) child.code) :
    Settled (·.Within tree) (tree.children.flatMap Tree.code) :=
  .flatMap fun child hm => (h child hm).ofChild hm

theorem IsExpression.settled {tree : Tree} (h : IsExpression tree) :
    Settled (·.Within tree) tree.code := by
  induction h with
  | literal =>
    rw [code_literal]
    exact .passing rfl .nil
  | identifier =>
    rw [code_identifier]
    exact .passing rfl .nil
  | emptyCall =>
    rw [code_emptyCall]
    exact .call .self .empty (by simp) .nil
  | @call name inner between place values _ hv ih =>
    rw [code_call hv]
    refine .call .self .given (fun value hm => ?_) .nil
    have hlist : Settled (·.Within (.node .argumentList values between)) value.code :=
      (ih value hm).ofChild hm
    exact hlist.ofChild (by simp)
  | arrayAccess hi ih =>
    rw [code_arrayAccess hi]
    exact .passing rfl ((ih.ofChild (by simp)).append (.passing rfl .nil))
  | operation hl hr ihl ihr =>
    rw [code_operation hl hr]
    exact (ihl.ofChild (by simp)).append (.passing rfl (ihr.ofChild (by simp)))

mutual

theorem IsItem.settled : ∀ {tree : Tree}, IsItem tree → Settled (·.Within tree) tree.code
  | _, .expression he => he.settled
  | _, @IsItem.array inner _ values _ hi => by
    have hall : Settled (·.Within (.node .expressionList values inner))
        (values.flatMap Tree.code) :=
      .children fun value hv => (hi value hv).settled
    rw [code_array hi]
    exact hall.ofChild (by simp)
  | _, .keyValue hp => by
    rw [code_keyValue hp]
    exact .children fun entry he => (hp entry he).settled

theorem IsPair.settled : ∀ {tree : Tree}, IsPair tree → Settled (·.Within tree) tree.code
  | _, .pair he hi => by
    have hk := he.settled
    have hv := hi.settled
    rw [code_pair he hi]
    refine .append (hk.ofChild (by simp)) ?_
    exact .append (hv.ofChild (by simp)) (.passing rfl .nil)

end

theorem IsStatement.settled {tree : Tree} (h : IsStatement tree) :
    Settled (·.Within tree) tree.code := by
  induction h with
  | assignment ht he =>
    have hv := he.settled
    cases ht with
    | identifier =>
      rw [code_assignName he]
      exact .passing rfl ((hv.ofChild (by simp)).append (.passing rfl .nil))
    | @arrayAccess name inner between index hi =>
      have hx : Settled (·.Within (.node .arrayAccess [identifierNode name inner, index] between))
          index.code := hi.settled.ofChild (by simp)
      rw [code_assignElement hi he]
      refine .append (hx.ofChild (by simp)) ?_
      exact .append (hv.ofChild (by simp)) (.passing rfl .nil)
  | call he => exact he.settled
  | ifStatement he hb ih =>
    rw [code_if he hb]
    refine .append (he.settled.ofChild (by simp)) (.passing rfl ?_)
    exact .append (ih.ofChild (by simp)) (.passing rfl (.passing rfl .nil))
  | @ifElse condition branch other inner place he hb _ ho ihb iho =>
    have hother : Settled (·.Within (.node .elseStatement [other] inner)) other.code :=
      iho.ofChild (by simp)
    rw [code_ifElse he hb ho]
    refine .append (he.settled.ofChild (by simp)) (.passing rfl ?_)
    refine .append (ihb.ofChild (by simp)) (.passing rfl (.passing rfl ?_))
    exact .append (hother.ofChild (by simp)) (.passing rfl .nil)
  | loop hf hl hs ih =>
    rw [code_loop hf hl hs]
    refine .append (hf.settled.ofOwned (by simp)) (.passing rfl ?_)
    refine .append (hl.settled.ofOwned (by simp)) (.passing rfl ?_)
    exact .append (.children ih) (.passing rfl (.passing rfl (.passing rfl .nil)))
  | bareReturn =>
    rw [code_bareReturn]
    exact .passing rfl .nil
  | giving he =>
    rw [code_giving he]
    exact (he.settled.ofOwned (by simp)).append (.passing rfl .nil)
  | block hs ih =>
    rw [code_block hs]
    exact .children ih

theorem IsDeclaration.settled {tree : Tree} (h : IsDeclaration tree) :
    Settled (·.Within tree) tree.code := by
  cases h with
  | main hs =>
    rw [code_main hs]
    exact .passing rfl (.append (.children fun statement hm => (hs statement hm).settled)
      (.passing rfl .nil))
  | function _ hs =>
    rw [code_function hs]
    exact .passing rfl (.children fun statement hm => (hs statement hm).settled)
  | @array name inner place values _ hi =>
    have hall : Settled (·.Within (.node .expressionList values inner))
        (values.flatMap Tree.code) :=
      .children fun value hv => (hi value hv).settled
    rw [code_namedArray hi]
    exact .passing rfl (hall.ofChild (by simp))
  | keyValue hp =>
    rw [code_namedKeyValue hp]
    exact .passing rfl (.children fun entry he => (hp entry he).settled)
  | value he =>
    rw [code_variable he]
    exact .passing rfl (.append (he.settled.ofChild (by simp)) (.passing rfl .nil))

theorem IsProgram.settled {tree : Tree} (h : IsProgram tree) :
    Settled (·.Within tree) tree.code := by
  obtain ⟨hd⟩ := h
  rw [code_program hd]
  exact .children fun declaration hm => (hd declaration hm).settled

end shapes

-- What comes in front of the statements or declarations that a tree has a list of.
def Tree.opening? : Tree → Option (List Instruction)
  | .node .program _ _ => some []
  | .node .main _ _ => some [functionHeader "main"]
  | .function name _ _ _ => some [functionHeader name]
  | .node .block _ _ => some []
  | .loop _ first last _ _ =>
    some (first.code ++ label .loopStart :: (last.code ++ [ifFalse .loopEnd]))
  | _ => none

-- The statements and declarations of a tree, which are what stands in its lists and in its
-- branches, each with the instructions in front of it.
inductive Stands : Tree → List Instruction → Tree → Prop
  | whole {tree : Tree} : Stands tree [] tree
  | listed {tree child part : Tree} {before after : List Tree} {ahead front : List Instruction} :
      tree.opening? = some ahead → tree.children = before ++ child :: after →
      Stands child front part → Stands tree (ahead ++ before.flatMap Tree.code ++ front) part
  | branch {condition child part : Tree} {others : List Tree} {front : List Instruction}
      {place : Location} : Stands child front part →
      Stands (.node .ifStatement (condition :: child :: others) place)
        (condition.code ++ [ifFalse .otherwise] ++ front) part
  | otherwise {condition branch child part : Tree} {front : List Instruction}
      {inner place : Location} : Stands child front part →
      Stands (.node .ifStatement [condition, branch, .node .elseStatement [child] inner] place)
        (condition.code ++ [ifFalse .otherwise] ++ branch.code ++
          [goto .endIf, label .otherwise] ++ front) part

-- What `Stands` is about.
def IsSection (tree : Tree) : Prop := IsProgram tree ∨ IsDeclaration tree ∨ IsStatement tree

-- Instructions that leave no argument behind.
def Quiet (code : List Instruction) : Prop := Settled (fun _ => True) code

theorem quiet_singleton {instruction : Instruction} (h : instruction.passes = true) :
    Quiet [instruction] := .passing h .nil

theorem IsExpression.quiet {tree : Tree} (h : IsExpression tree) : Quiet tree.code :=
  h.settled.mono fun _ _ => trivial

theorem IsSection.quiet {tree : Tree} (h : IsSection tree) : Quiet tree.code := by
  obtain hp | hd | hs := h
  · exact hp.settled.mono fun _ _ => trivial
  · exact hd.settled.mono fun _ _ => trivial
  · exact hs.settled.mono fun _ _ => trivial

theorem IsSection.lower_eq {tree : Tree} (h : IsSection tree) :
    tree.lower .single = .ok tree.code := by
  obtain hp | hd | hs := h
  · exact hp.lower_eq
  · exact hd.lower_eq
  · exact hs.lower_eq

-- The instructions in front of the list are quiet, and the list is behind them.
theorem IsSection.listed {tree : Tree} {ahead : List Instruction} (h : IsSection tree)
    (ho : tree.opening? = some ahead) :
    Quiet ahead ∧ (∀ child ∈ tree.children, IsSection child) ∧
      ∃ behind, tree.code = ahead ++ tree.children.flatMap Tree.code ++ behind := by
  obtain hp | hd | hs := h
  · obtain ⟨hd⟩ := hp
    cases ho
    exact ⟨.nil, fun child hm => .inr (.inl (hd child hm)), [],
      by simp [code_program hd]⟩
  · cases hd with
    | main hs =>
      cases ho
      exact ⟨quiet_singleton rfl, fun child hm => .inr (.inr (hs child hm)), [endMain],
        by simp [code_main hs]⟩
    | function _ hs =>
      cases ho
      exact ⟨quiet_singleton rfl, fun child hm => .inr (.inr (hs child hm)), [],
        by simp [code_function hs]⟩
    | _ => cases ho
  · cases hs with
    | block hs =>
      cases ho
      exact ⟨.nil, fun child hm => .inr (.inr (hs child hm)), [],
        by simp [code_block hs]⟩
    | @loop counter _ _ _ _ hf hl hs =>
      cases ho
      exact ⟨hf.quiet.append (.passing rfl (hl.quiet.append (.passing rfl .nil))),
        fun child hm => .inr (.inr (hs child hm)), [add counter, goto .loopStart, label .loopEnd],
        by simp [code_loop hf hl hs]⟩
    | _ => cases ho

theorem IsSection.branch {condition child : Tree} {others : List Tree} {place : Location}
    (h : IsSection (.node .ifStatement (condition :: child :: others) place)) :
    IsExpression condition ∧ IsSection child ∧
      ∃ behind, (Tree.node .ifStatement (condition :: child :: others) place).code =
        condition.code ++ [ifFalse .otherwise] ++ child.code ++ behind := by
  obtain hp | hd | hs := h
  · cases hp
  · cases hd
  · cases hs with
    | ifStatement he hb =>
      exact ⟨he, .inr (.inr hb), [label .otherwise, label .endIf], by simp [code_if he hb]⟩
    | @ifElse _ _ other _ _ he hb _ ho =>
      exact ⟨he, .inr (.inr hb), goto .endIf :: label .otherwise :: (other.code ++ [label .endIf]),
        by simp [code_ifElse he hb ho]⟩

theorem IsSection.otherwise {condition branch child : Tree} {inner place : Location}
    (h : IsSection
      (.node .ifStatement [condition, branch, .node .elseStatement [child] inner] place)) :
    Quiet (condition.code ++ [ifFalse .otherwise] ++ branch.code ++
        [goto .endIf, label .otherwise]) ∧ IsSection child ∧
      (Tree.node .ifStatement [condition, branch, .node .elseStatement [child] inner] place).code =
        condition.code ++ [ifFalse .otherwise] ++ branch.code ++ [goto .endIf, label .otherwise] ++
          child.code ++ [label .endIf] := by
  obtain hp | hd | hs := h
  · cases hp
  · cases hd
  · cases hs with
    | ifElse he hb _ ho =>
      have hbranch : IsSection branch := .inr (.inr hb)
      refine ⟨?_, .inr (.inr ho), by simp [code_ifElse he hb ho]⟩
      exact ((he.quiet.append (quiet_singleton rfl)).append hbranch.quiet).append
        (.passing rfl (quiet_singleton rfl))

-- A section of a program behind instructions that are quiet.
structure Cut (whole part : Tree) (front : List Instruction) : Prop where
  isSection : IsSection part
  quiet : Quiet front
  code : ∃ back, whole.code = front ++ part.code ++ back

theorem Cut.within {whole child part : Tree} {ahead behind front : List Instruction}
    (h : Cut child part front) (hq : Quiet ahead)
    (hc : whole.code = ahead ++ child.code ++ behind) : Cut whole part (ahead ++ front) where
  isSection := h.isSection
  quiet := hq.append h.quiet
  code := by
    obtain ⟨back, hb⟩ := h.code
    exact ⟨back ++ behind, by simp [hc, hb]⟩

-- By the places that sections have in one another.
theorem Stands.cut {whole part : Tree} {front : List Instruction} (h : Stands whole front part)
    (hw : IsSection whole) : Cut whole part front := by
  induction h with
  | whole => exact ⟨hw, .nil, [], by simp⟩
  | @listed tree child part before after ahead front ho hs _ ih =>
    obtain ⟨hq, ht, behind, hc⟩ := hw.listed ho
    rw [hs] at ht hc
    have hb : Quiet (before.flatMap Tree.code) :=
      .flatMap fun tree hm => (ht tree (List.mem_append_left _ hm)).quiet
    have hcode : tree.code = ahead ++ before.flatMap Tree.code ++ child.code ++
        (after.flatMap Tree.code ++ behind) := by
      simp [hc]
    exact (ih (ht child (by simp))).within (hq.append hb) hcode
  | branch _ ih =>
    obtain ⟨he, hb, behind, hc⟩ := hw.branch
    exact (ih hb).within (he.quiet.append (quiet_singleton rfl)) hc
  | otherwise _ ih =>
    obtain ⟨hq, ho, hc⟩ := hw.otherwise
    exact (ih ho).within hq hc

-- Calls take the arguments that are theirs. Up to any instruction there are as many waiting
-- arguments as the counter says. In front of a call its own arguments wait on top of those
-- that waited before its name was loaded, and behind it they are gone. No argument waits
-- behind a statement, a declaration or a program.
theorem arguments_balanced {source : String} {instructions : List Instruction}
    (h : compile .single source = .ok instructions) :
    ∃ tree, parse (Lexed.ofSource source).tokens = .ok tree ∧
      (∀ front back, instructions = front ++ back →
        0 ≤ balance front ∧
        ∃ stack, pending 0 [] front = some stack ∧ balance front = stack.length) ∧
      (∀ front call back, instructions = front ++ call :: back → call.op = .callFunction →
        ∃ (node : Tree) (name : String) (values : List Tree) (outer : List Instruction)
          (stack : List Nat), node.Within tree ∧ node.Calls name values ∧
          front = outer ++ load name :: Tree.argumentCode values ∧
          call.placeholders = values.length ∧
          pending 0 [] outer = some stack ∧
          pending 0 [] front =
            some ((Tree.announced (outer.length + 1) values).reverse ++ stack) ∧
          pending 0 [] (front ++ [call]) = some stack) ∧
      ∀ front part, Stands tree front part →
        ∃ code back, part.lower .single = .ok code ∧ instructions = front ++ code ++ back ∧
          balance (front ++ code) = 0 ∧ pending 0 [] (front ++ code) = some [] := by
  obtain ⟨trees, hp, hl⟩ := exists_parse_of_compile h
  have hprogram := isProgram_of_parse hp
  have hcode := Tree.code_of_lower hl
  have hsettled := hprogram.settled
  rw [hcode] at hsettled
  refine ⟨_, hp, ?_, ?_, ?_⟩
  · rintro front back rfl
    have hrun := hsettled.pending_eq 0 []
    rw [pending_append] at hrun
    obtain ⟨stack, hfront, -⟩ := Option.bind_eq_some_iff.mp hrun
    have hlength := length_pending hfront
    rw [List.length_nil, Nat.cast_zero, Int.zero_add] at hlength
    exact ⟨by omega, stack, hfront, hlength.symm⟩
  · rintro front call back rfl hop
    obtain ⟨node, name, values, outer, hw, hc, hv, rfl, rfl⟩ := hsettled.exists_call hop rfl
    have hrun := hsettled.pending_eq 0 []
    rw [List.append_assoc, pending_append] at hrun
    obtain ⟨stack, houter, -⟩ := Option.bind_eq_some_iff.mp hrun
    have hfront : pending 0 [] (outer ++ load name :: Tree.argumentCode values) =
        some ((Tree.announced (outer.length + 1) values).reverse ++ stack) := by
      rw [pending_append, houter, Option.bind_some,
        pending_call fun value hm => (hv value hm).pending_eq, Nat.zero_add]
    have hcalled : pending 0 []
        (outer ++ load name :: Tree.argumentCode values ++ [Instruction.call values.length]) =
        some stack := by
      rw [pending_append, hfront, Option.bind_some, pending_called]
      rfl
    exact ⟨node, name, values, outer, stack, hw, hc, rfl, placeholders_call _, houter, hfront,
      hcalled⟩
  · intro front part hs
    obtain ⟨hpart, hq, back, hb⟩ := hs.cut (.inl hprogram)
    have hall := hq.append hpart.quiet
    rw [hcode] at hb
    exact ⟨part.code, back, hpart.lower_eq, hb, hall.balance_eq_zero, hall.pending_eq 0 []⟩

-- The argument of the inner call is gone when the outer one takes its two.
theorem arguments_of_inner_call :
    ∃ instructions, compile .single "main() \x7b f(g(1), 2); \x7d" = .ok instructions ∧
      (∀ front back, instructions = front ++ back → 0 ≤ balance front) ∧
      pending 0 [] (instructions.take 9) = some [8, 6] ∧
      ∃ code back, instructions = [functionHeader "main"] ++ code ++ back ∧
        balance ([functionHeader "main"] ++ code) = 0 := by
  have hp : parse (Lexed.ofSource "main() \x7b f(g(1), 2); \x7d").tokens =
      .ok (.node .program [.node .main [.node .call [identifierNode "f" ⟨1, 10⟩,
        .node .argumentList [.node .call [identifierNode "g" ⟨1, 12⟩,
          .node .argumentList [.node (.literal "1") [] ⟨1, 14⟩] ⟨1, 14⟩] ⟨1, 12⟩,
          .node (.literal "2") [] ⟨1, 18⟩] ⟨1, 12⟩] ⟨1, 10⟩] ⟨1, 1⟩] .start) := by
    cbv
  have h : compile .single "main() \x7b f(g(1), 2); \x7d" =
      .ok [functionHeader "main", load "f", load "g", loadConst "1", arg, call 1, arg,
        loadConst "2", arg, call 2, endMain] := compile_of_parse hp
  obtain ⟨tree, ht, hb, -, hs⟩ := arguments_balanced h
  cases hp.symm.trans ht
  -- the only statement of the only declaration
  obtain ⟨code, back, -, hi, hc, -⟩ := hs _ _ (@Stands.listed _ _ _ [] _ _ _ rfl rfl
    (@Stands.listed _ _ _ [] _ _ _ rfl rfl .whole))
  exact ⟨_, h, fun front back he => (hb front back he).1, by decide, code, back, hi, hc⟩

end ScriptIR
