import Mathlib
import ScriptIR.Proofs.Lowering.Census
import ScriptIR.Proofs.Lowering.Nesting

namespace ScriptIR

open Instruction

namespace Lowered

-- Where the second succeeds the first does as well, and no instruction is there more often.
def Within (first second : Lowered) : Prop :=
  ∀ more, second = .ok more → ∃ code, first = .ok code ∧
    ∀ instruction, code.count instruction ≤ more.count instruction

variable {first second third fourth : Lowered}

theorem within_refl (lowered : Lowered) : lowered.Within lowered :=
  fun more h => ⟨more, h, fun _ => Nat.le_refl _⟩

theorem within_flawed (lowered : Lowered) (flaw : Flaw) (place : Location) :
    lowered.Within (flawed flaw place) := nofun

theorem Within.andThen (hf : first.Within second) (ht : third.Within fourth) :
    (first >> third).Within (second >> fourth) := by
  intro more h
  obtain ⟨front, back, hfront, hback, rfl⟩ := andThen_eq_ok.mp h
  obtain ⟨less, hless, hcount⟩ := hf front hfront
  obtain ⟨rest, hrest, hcount'⟩ := ht back hback
  refine ⟨less ++ rest, andThen_eq_ok.mpr ⟨less, rest, hless, hrest, rfl⟩, fun instruction => ?_⟩
  have hle := hcount instruction
  have hle' := hcount' instruction
  simp only [List.count_append]
  omega

-- The single mode has no second walk.
theorem within_again (children others : Unit → Lowered) :
    (Tree.again .single children).Within (Tree.again .revisit others) := by
  intro more h
  exact ⟨[], rfl, fun instruction => Nat.zero_le _⟩

-- A call is the one node whose own instructions are not among its own instructions in the
-- other mode: its arguments are announced by the second walk only.
theorem within_call {callee other arguments below walked rest : Lowered} (hc : callee.Within other)
    (ha : arguments.Within walked) (count : Nat) (children : Unit → Lowered) :
    ((callee >> arguments >> emit [call count]) >> Tree.again .single children).Within
      ((other >> below >> emit [call count]) >> (other >> walked >> rest)) := by
  intro more h
  simp only [andThen_eq_ok] at h
  obtain ⟨_, _, ⟨first, _, hfirst, ⟨middle, _, -, ⟨⟩, rfl⟩, rfl⟩,
    ⟨again, _, -, ⟨announced, last, hannounced, -, rfl⟩, rfl⟩, rfl⟩ := h
  obtain ⟨front, hfront, hcount⟩ := hc first hfirst
  obtain ⟨back, hback, hcount'⟩ := ha announced hannounced
  refine ⟨front ++ (back ++ [call count]) ++ [], ?_, fun instruction => ?_⟩
  · rw [hfront, hback]
    rfl
  · have hle := hcount instruction
    have hle' := hcount' instruction
    simp only [List.count_append, List.count_nil]
    omega

end Lowered

namespace Tree

open Lowered

-- By the recursion of the lowering, for all trees. What the second walk adds is not looked
-- at but for the arguments of a call.
mutual

theorem lower_within : ∀ tree : Tree, (lower .single tree).Within (lower .revisit tree)
  | .function name params children place => by
    simp only [lower]
    exact (within_refl _).andThen ((lowerAll_within children).andThen (within_again _ _))
  | .loop counter first last children place => by
    simp only [lower]
    exact (lower_within first).andThen ((within_refl _).andThen ((lower_within last).andThen
      ((within_refl _).andThen ((lowerAll_within children).andThen
        ((within_refl _).andThen (within_again _ _))))))
  | .giving value children place => by
    simp only [lower]
    exact (lower_within value).andThen ((within_refl _).andThen (within_again _ _))
  | .node kind children place => by
    have hall := lowerAll_within children
    have hagain := within_again (fun _ => lowerAll .single children)
      fun _ => lowerAll .revisit children
    have hvalue (name : String) := lowerValue_within name children
    have hcouple (needed : Couple) := lowerCouple_within needed place children
    have hassign := lowerAssignment_within place children
    have hif := lowerIf_within place children
    have hcall := lowerCall_within place children
    have harguments := lowerArguments_within children
    cases kind with
    | main => exact (within_refl _).andThen (hall.andThen ((within_refl _).andThen hagain))
    | varDecl name => exact (within_refl _).andThen ((hvalue name).andThen hagain)
    | assignment => exact hassign.andThen hagain
    | ifStatement => exact hif.andThen hagain
    | bareReturn => exact (within_refl _).andThen hagain
    | call => exact hcall
    | argumentList => exact harguments.andThen hagain
    | pair => exact (hcouple .keyAndValue).andThen ((within_refl _).andThen hagain)
    | arrayAccess => exact (hcouple .arrayAndIndex).andThen ((within_refl _).andThen hagain)
    | literal text => exact (within_refl _).andThen hagain
    | identifier name => exact (within_refl _).andThen hagain
    | operator sign => exact (within_refl _).andThen hagain
    | array name =>
      cases name with
      | none => exact hall
      | some name => exact (within_refl _).andThen hall
    | keyValue name =>
      cases name with
      | none => exact hall
      | some name => exact (within_refl _).andThen hall
    | expression =>
      rw [lower_expression, lower_expression]
      exact hall
    | _ => exact hall

theorem lowerAll_within : ∀ trees : List Tree,
    (lowerAll .single trees).Within (lowerAll .revisit trees)
  | [] => within_refl _
  | tree :: rest => (lower_within tree).andThen (lowerAll_within rest)

theorem lowerValue_within (name : String) : ∀ trees : List Tree,
    (lowerValue .single name trees).Within (lowerValue .revisit name trees)
  | [] => within_refl _
  | value :: _ => (lower_within value).andThen (within_refl _)

theorem lowerCouple_within (needed : Couple) (place : Location) : ∀ trees : List Tree,
    (lowerCouple .single needed place trees).Within (lowerCouple .revisit needed place trees)
  | [] => within_flawed _ _ _
  | [_] => within_flawed _ _ _
  | first :: second :: _ => (lower_within first).andThen (lower_within second)

theorem lowerAssignment_within (place : Location) : ∀ trees : List Tree,
    (lowerAssignment .single place trees).Within (lowerAssignment .revisit place trees)
  | [] => within_flawed _ _ _
  | [_] => within_flawed _ _ _
  | target :: value :: _ => lowerTarget_within (lower_within value) target

theorem lowerTarget_within {value other : Lowered} (h : value.Within other) : ∀ target : Tree,
    (lowerTarget .single value target).Within (lowerTarget .revisit other target)
  | .function .. => within_flawed _ _ _
  | .loop .. => within_flawed _ _ _
  | .giving .. => within_flawed _ _ _
  | .node kind children place => by
    have helement := lowerElement_within h place children
    cases kind with
    | identifier name => exact (within_refl _).andThen (h.andThen (within_refl _))
    | arrayAccess => exact helement
    | _ => exact within_flawed _ _ _

theorem lowerElement_within {value other : Lowered} (h : value.Within other) (place : Location) :
    ∀ trees : List Tree,
      (lowerElement .single value place trees).Within (lowerElement .revisit other place trees)
  | [] => within_flawed _ _ _
  | [_] => within_flawed _ _ _
  | array :: index :: _ => by
    have hindex := lower_within index
    simp only [lowerElement]
    cases array.identifierName? with
    | none => exact within_flawed _ _ _
    | some name => exact hindex.andThen (h.andThen (within_refl _))

theorem lowerIf_within (place : Location) : ∀ trees : List Tree,
    (lowerIf .single place trees).Within (lowerIf .revisit place trees)
  | [] => within_flawed _ _ _
  | [_] => within_flawed _ _ _
  | condition :: branch :: rest =>
    (lower_within condition).andThen ((within_refl _).andThen ((lower_within branch).andThen
      ((lowerElse_within rest).andThen (within_refl _))))

theorem lowerElse_within : ∀ trees : List Tree,
    (lowerElse .single trees).Within (lowerElse .revisit trees)
  | .node kind (branch :: more) place :: rest => by
    have hbranch := lower_within branch
    cases kind <;> simp only [lowerElse]
    case elseStatement => exact (within_refl _).andThen hbranch
    all_goals exact within_refl _
  | .node kind [] place :: rest => by
    cases kind <;> simp only [lowerElse]
    case elseStatement => exact within_flawed _ _ _
    all_goals exact within_refl _
  | .function .. :: _ => by
    simp only [lowerElse]
    exact within_refl _
  | .loop .. :: _ => by
    simp only [lowerElse]
    exact within_refl _
  | .giving .. :: _ => by
    simp only [lowerElse]
    exact within_refl _
  | [] => by
    simp only [lowerElse]
    exact within_refl _

-- A call with the second walk behind it.
theorem lowerCall_within (place : Location) : ∀ trees : List Tree,
    (lower .single (.node .call trees place)).Within (lower .revisit (.node .call trees place))
  | [] => within_flawed _ _ _
  | [callee] =>
    ((lower_within callee).andThen (within_refl _)).andThen (within_again _ _)
  | callee :: arguments :: _ =>
    within_call (lower_within callee) (lower_within arguments) _ _

theorem lowerArguments_within : ∀ trees : List Tree,
    (lowerArguments .single trees).Within (lowerArguments .revisit trees)
  | [] => within_refl _
  | argument :: rest =>
    (lower_within argument).andThen ((within_refl _).andThen (lowerArguments_within rest))

end

end Tree

-- Opcodes lump instructions together.
theorem Instruction.number_le_of_count_le {instructions more : List Instruction}
    (h : ∀ instruction, instructions.count instruction ≤ more.count instruction) (op : Opcode) :
    number op instructions ≤ number op more := by
  have hsub : List.Subperm instructions more := List.subperm_ext_iff.mpr fun one _ => h one
  exact hsub.countP_le _

-- A second walk takes nothing away and mends nothing. The order is another matter, as
-- arguments are announced behind their call, and so is what a failing tree fails with.
theorem revisiting_adds (tree : Tree) :
    (∀ more, tree.lower .revisit = .ok more → ∃ code, tree.lower .single = .ok code ∧
      (∀ instruction, code.count instruction ≤ more.count instruction) ∧
      ∀ op, number op code ≤ number op more) ∧
    ∀ error, tree.lower .single = .error error → ∃ other, tree.lower .revisit = .error other := by
  have hwithin := tree.lower_within
  constructor
  · intro more hmore
    obtain ⟨code, hcode, hcount⟩ := hwithin more hmore
    exact ⟨code, hcode, hcount, number_le_of_count_le hcount⟩
  · intro error herror
    cases hmore : tree.lower .revisit with
    | error other => exact ⟨other, rfl⟩
    | ok more =>
      -- then the single walk would not fail
      obtain ⟨code, hcode, -⟩ := hwithin more hmore
      rw [herror] at hcode
      cases hcode

-- The single walk stops at an ill-shaped argument list, which the other one passes over at
-- first and so meets a child of it sooner.
example :
    let arguments := Tree.node .assignment [.node .call [] ⟨1, 5⟩] ⟨1, 3⟩
    let call := Tree.node .call [.node (.identifier "f") [] .start, arguments] .start
    call.lower .single = Lowered.flawed (.incomplete .targetAndValue 1) ⟨1, 3⟩ ∧
      call.lower .revisit = Lowered.flawed .noCallee ⟨1, 5⟩ :=
  ⟨rfl, rfl⟩

end ScriptIR
