import Mathlib
import ScriptIR.Proofs.Compile.Wording
import ScriptIR.Proofs.Text.Ended

namespace ScriptIR

theorem Opcode.newline_notMem_name (op : Opcode) : '\n' ∉ op.name.toList := by
  cases op <;> decide

namespace Instruction

-- What an operand leaves in a line.
def shown (operand : Option String) : List Char := (operand.getD "").toList

-- Three operands in a row.
def operands (instruction : Instruction) : List Char :=
  shown instruction.arg1 ++ ' ' :: (shown instruction.arg2 ++ ' ' :: shown instruction.result)

theorem toList_describe {instruction : Instruction} (h : instruction.op ≠ .function) :
    instruction.describe.toList = instruction.op.name.toList ++ ' ' :: instruction.operands := by
  obtain ⟨op, arg1, arg2, result⟩ := instruction
  cases op with
  | function => exact (h rfl).elim
  | _ => simp [describe, operands, shown, toString]

theorem toList_describe_header {instruction : Instruction} (h : instruction.op = .function) :
    instruction.describe.toList = "Function:".toList ++ ' ' :: shown instruction.arg1 := by
  obtain ⟨op, arg1, arg2, result⟩ := instruction
  obtain rfl : op = .function := h
  simp [describe, shown, toString]

theorem listing_eq_ended (instructions : List Instruction) :
    listing instructions = Text.ended (instructions.map describe) := by
  rw [listing, Text.foldl_ended, String.empty_append]

-- One parameter more, with a comma and a blank in front of the others.
theorem parameters_succ (count : Nat) : parameters (count + 2) =
    (parameters (count + 1)).map ("temp_param, " ++ ·) := by
  simp [parameters, List.replicate_succ]

-- The line breaks that an operand brings along.
def breaks (operand : Option String) : Nat := (shown operand).count '\n'

@[simp] theorem breaks_none : breaks none = 0 := rfl

theorem breaks_field {text : String} (h : IsField text) : breaks (some text) = 0 :=
  List.count_eq_zero.mpr h.2.2

theorem breaks_parameters : ∀ count : Nat, breaks (parameters count) = 0
  | 0 => rfl
  | 1 => by decide
  | count + 2 => by
    have ih := breaks_parameters (count + 1)
    rw [parameters_succ]
    simp only [breaks, shown, parameters, Option.map_some, Option.getD_some, String.toList_append,
      List.count_append] at ih ⊢
    rw [ih]
    rfl

theorem count_describe_header (name : String) :
    (functionHeader name).describe.toList.count '\n' = breaks (some name) := by
  rw [toList_describe_header rfl, List.count_append]
  exact Nat.zero_add _

theorem count_describe_other {instruction : Instruction} (h : instruction.op ≠ .function) :
    instruction.describe.toList.count '\n' =
      breaks instruction.arg1 + breaks instruction.arg2 + breaks instruction.result := by
  rw [toList_describe h, List.count_append,
    List.count_eq_zero.mpr (Opcode.newline_notMem_name instruction.op)]
  simp [operands, breaks, Nat.add_assoc]

-- The value of an instruction that loads one.
def constant? : Instruction → Option String
  | ⟨.loadConst, value, _, _⟩ => value
  | _ => none

-- No operand but a constant can bring a line break along.
theorem count_describe {instruction : Instruction} (h : instruction.MadeOf Word.IsField) :
    instruction.describe.toList.count '\n' = breaks instruction.constant? := by
  have hvar : breaks (some "temp_var") = 0 := by decide
  have hindex : breaks (some "temp_index") = 0 := by decide
  cases h with
  | functionHeader hw => exact (count_describe_header _).trans (breaks_field hw)
  | mainHeader | endMain | arg | giveBack | arrayAccess | keyValuePair => decide
  | ifFalse target | goto target | label target => cases target <;> decide
  | alloc hw => simp [count_describe_other, alloc, constant?, breaks_field hw]
  | store hw => simp [count_describe_other, store, constant?, hvar, breaks_field hw]
  | storeElement hw =>
    simp [count_describe_other, storeElement, constant?, hvar, hindex, breaks_field hw]
  | load hw => simp [count_describe_other, load, constant?, hvar, breaks_field hw]
  | add hw => simp [count_describe_other, add, constant?, breaks_field hw]
  | operator hw => simp [count_describe_other, operator, constant?, breaks_field hw]
  | loadConst _ =>
    have hresult : breaks (some "temp_literal") = 0 := by decide
    simp [count_describe_other, loadConst, constant?, hresult]
  | call count =>
    have hname : breaks (some "temp_func_name") = 0 := by decide
    have hresult : breaks (some "temp_result") = 0 := by decide
    simp [count_describe_other, call, constant?, hname, breaks_parameters, hresult]

end Instruction

open Instruction

-- No string literal of a source goes on behind the end of its line.
def OneLinedStrings (source : String) : Prop :=
  ∀ token ∈ (Lexed.ofSource source).tokens,
    token.kind = .literal .string → '\n' ∉ token.text.toList

section compile

variable {mode : Mode} {source : String} {instructions : List Instruction}

theorem count_describe_of_compile (h : compile mode source = .ok instructions) :
    ∀ instruction ∈ instructions,
      instruction.describe.toList.count '\n' = breaks instruction.constant? :=
  fun instruction hm => count_describe (isField_of_compile h instruction hm)

theorem breaks_constant_of_compile (h : compile mode source = .ok instructions) :
    (∀ instruction ∈ instructions, breaks instruction.constant? = 0) ↔ OneLinedStrings source := by
  constructor
  · intro hall token ht hk
    exact List.count_eq_zero.mp (hall _ (loadConst_mem_of_compile h ht hk))
  · intro hs instruction hm
    cases madeOf_of_compile h instruction hm with
    | loadConst hw =>
      obtain ⟨token, ht, hwell, hw⟩ := hw
      obtain ⟨⟨form, hk⟩, rfl⟩ := Token.word_eq_literal.mp hw
      refine List.count_eq_zero.mpr ?_
      by_cases hform : form = .string
      · rw [hform] at hk
        exact hs token ht hk
      · exact hwell.newline_notMem hk hform
    | _ => rfl

theorem newline_notMem_describe_of_compile (h : compile mode source = .ok instructions) :
    (∀ line ∈ instructions.map describe, '\n' ∉ line.toList) ↔ OneLinedStrings source := by
  rw [List.forall_mem_map, ← breaks_constant_of_compile h]
  refine forall₂_congr fun instruction hm => ?_
  rw [← List.count_eq_zero, count_describe_of_compile h instruction hm]

-- A listing has a line for each instruction, and one more for each line break in a constant.
-- Its lines are the instructions if no string literal of the source has a line break, and
-- there are too many of them in all other cases.
theorem lines_of_listing (h : compile mode source = .ok instructions) :
    listing instructions = Text.ended (instructions.map describe) ∧
    (Text.wholeLines (listing instructions)).length =
      instructions.length + (instructions.map fun instruction => breaks instruction.constant?).sum ∧
    ((Text.wholeLines (listing instructions)).length = instructions.length ↔
      OneLinedStrings source) ∧
    (Text.wholeLines (listing instructions) =
      instructions.map (fun instruction => instruction.describe.toList) ↔
        OneLinedStrings source) := by
  have hcount := Text.length_wholeLines_ended (instructions.map describe)
  have hlength := Text.length_wholeLines_ended_iff (instructions.map describe)
  have hlines := Text.wholeLines_ended_iff (instructions.map describe)
  rw [List.map_map] at hcount hlines
  rw [newline_notMem_describe_of_compile h] at hlength hlines
  rw [List.length_map] at hcount hlength
  rw [← listing_eq_ended] at hcount hlength hlines
  refine ⟨listing_eq_ended instructions, ?_, hlength, hlines⟩
  rw [hcount]
  congr 2
  exact List.map_congr_left (count_describe_of_compile h)

-- The second walk loads the literal once more, and each time the listing has one line too many.
theorem lines_of_broken_literal :
    ∃ instructions, compile .revisit "x = \"a\nb\";" = .ok instructions ∧
      instructions.length = 4 ∧ (Text.wholeLines (listing instructions)).length = 6 ∧
      ¬ OneLinedStrings "x = \"a\nb\";" := by
  have hp : parse (Lexed.ofSource "x = \"a\nb\";").tokens = .ok (.node .program
      [.node (.varDecl "x") [.node (.literal "a\nb") [] ⟨1, 5⟩] ⟨1, 1⟩] .start) := by
    cbv
  have h : compile .revisit "x = \"a\nb\";" =
      .ok [alloc "x", loadConst "a\nb", store "x", loadConst "a\nb"] := compile_of_parse hp
  obtain ⟨-, hcount, hiff, -⟩ := lines_of_listing h
  have hlines : (Text.wholeLines (listing
      [alloc "x", loadConst "a\nb", store "x", loadConst "a\nb"])).length = 6 := hcount
  refine ⟨_, h, rfl, hlines, fun hs => ?_⟩
  have hlength := hiff.mpr hs
  rw [hlines] at hlength
  exact absurd hlength (by decide)

-- A literal can look like the instructions of another program, so a source has two lines in its
-- listing that none of its instructions stands for.
theorem lines_of_forged_literal :
    ∃ forged honest,
      compile .single "x = \"1  temp_literal\noperator +  \nload_const 2\";" = .ok forged ∧
      compile .single "x = 1 + 2;" = .ok honest ∧ listing forged = listing honest ∧
      forged.length = 3 ∧ (Text.wholeLines (listing forged)).length = 5 := by
  have hf : parse (Lexed.ofSource
      "x = \"1  temp_literal\noperator +  \nload_const 2\";").tokens = .ok (.node .program
        [.node (.varDecl "x") [.node (.literal "1  temp_literal\noperator +  \nload_const 2")
          [] ⟨1, 5⟩] ⟨1, 1⟩] .start) := by
    cbv
  have hh : parse (Lexed.ofSource "x = 1 + 2;").tokens = .ok (.node .program
      [.node (.varDecl "x") [.node .expression [.node (.literal "1") [] ⟨1, 5⟩,
        .node (.operator "+") [] ⟨1, 7⟩, .node (.literal "2") [] ⟨1, 9⟩] ⟨1, 5⟩] ⟨1, 1⟩]
          .start) := by
    cbv
  refine ⟨_, _, compile_of_parse hf, compile_of_parse hh, ?_, rfl, ?_⟩
  · decide
  · decide

end compile

end ScriptIR
