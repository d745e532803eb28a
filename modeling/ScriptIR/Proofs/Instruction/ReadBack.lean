import Mathlib
import ScriptIR.Proofs.Instruction.Lines

namespace ScriptIR

theorem Opcode.ofName?_name (op : Opcode) : ofName? op.name = some op := by
  cases op <;> decide

theorem Opcode.blank_notMem_name (op : Opcode) : ' ' ∉ op.name.toList := by
  cases op <;> decide

namespace Instruction

-- An operand that is read from its field. Nothing at all stands for no operand.
def heard : List Char → Option String
  | [] => none
  | field => some (String.ofList field)

-- The result is behind the last blank. What is in front of that is cut at its first blank,
-- but for a constant, which can have blanks itself, or be empty.
def ofOperands (op : Opcode) (text : List Char) : Instruction :=
  let front := (text.rdropWhile (· ≠ ' ')).dropLast
  let result := heard (text.rtakeWhile (· ≠ ' '))
  match op with
  | .loadConst => ⟨op, some (String.ofList front.dropLast), none, result⟩
  | _ =>
    ⟨op, heard (front.takeWhile (· ≠ ' ')), heard (front.dropWhile (· ≠ ' ')).tail, result⟩

-- The instruction that a line is of. The word in front of the first blank says how to go on.
def ofLine (line : List Char) : Option Instruction :=
  let word := String.ofList (line.takeWhile (· ≠ ' '))
  let behind := (line.dropWhile (· ≠ ' ')).tail
  if word = "Function:" then some (functionHeader (String.ofList behind))
  else (Opcode.ofName? word).map (ofOperands · behind)

def readAll (text : String) : List (Option Instruction) := (Text.wholeLines text).map ofLine

-- An operand that is told apart from the blanks around it, if there is one.
def IsOperand (operand : Option String) : Prop := ∀ text ∈ operand, IsField text

-- Operands at places where they can be found. Of two instructions there is more to say than
-- of the others: no blank ends the name of a function or a constant.
def Legible (instruction : Instruction) : Prop :=
  match instruction with
  | ⟨.function, arg1, arg2, result⟩ => arg1.isSome ∧ arg2 = none ∧ result = none
  | ⟨.loadConst, arg1, arg2, result⟩ => arg1.isSome ∧ arg2 = none ∧ IsOperand result
  | ⟨_, arg1, arg2, result⟩ => IsOperand arg1 ∧ (∀ text ∈ arg2, text ≠ "") ∧ IsOperand result

theorem heard_shown {operand : Option String} (h : ∀ text ∈ operand, text ≠ "") :
    heard (shown operand) = operand := by
  cases operand with
  | none => rfl
  | some text =>
    have hne : text.toList ≠ [] := by
      intro he
      exact h text rfl (String.toList_injective he)
    obtain ⟨c, rest, he⟩ := List.exists_cons_of_ne_nil hne
    rw [shown, Option.getD_some, he, heard, ← he, String.ofList_toList]
    exact List.cons_ne_nil c rest

theorem IsOperand.heard_shown {operand : Option String} (h : IsOperand operand) :
    heard (shown operand) = operand :=
  Instruction.heard_shown fun text hm => (h text hm).1

theorem IsOperand.blank_notMem {operand : Option String} (h : IsOperand operand) :
    ' ' ∉ shown operand := by
  cases operand with
  | none => exact List.not_mem_nil
  | some text => exact (h text rfl).2.1

-- The last operand and what is in front of it.
theorem ofOperands_cut {result : Option String} (h : IsOperand result) (front : List Char) :
    ((front ++ ' ' :: shown result).rdropWhile (· ≠ ' ')).dropLast = front ∧
      heard ((front ++ ' ' :: shown result).rtakeWhile (· ≠ ' ')) = result := by
  obtain ⟨ht, hd⟩ := Text.cut_at_last front h.blank_notMem
  rw [ht, hd, List.dropLast_concat, h.heard_shown]
  exact ⟨rfl, rfl⟩

theorem ofOperands_operands {instruction : Instruction} (h : instruction.Legible)
    (hf : instruction.op ≠ .function) :
    ofOperands instruction.op instruction.operands = instruction := by
  obtain ⟨op, arg1, arg2, result⟩ := instruction
  have hoperands : operands ⟨op, arg1, arg2, result⟩ =
      (shown arg1 ++ ' ' :: shown arg2) ++ ' ' :: shown result := by simp [operands]
  rw [hoperands]
  cases op with
  | function => exact (hf rfl).elim
  | loadConst =>
    obtain ⟨hs, rfl, hr⟩ := h
    obtain ⟨value, rfl⟩ := Option.isSome_iff_exists.mp hs
    obtain ⟨hfront, hresult⟩ := ofOperands_cut hr (shown (some value) ++ ' ' :: shown none)
    simp only [ofOperands, hfront, hresult]
    simp [shown]
  | _ =>
    obtain ⟨h1, h2, hr⟩ := h
    obtain ⟨hfront, hresult⟩ := ofOperands_cut hr (shown arg1 ++ ' ' :: shown arg2)
    obtain ⟨hone, htwo⟩ := Text.cut_at_first h1.blank_notMem (shown arg2)
    simp only [ofOperands, hfront, hresult, hone, htwo, List.tail_cons, h1.heard_shown,
      heard_shown h2]

-- A line by itself says what its instruction is.
theorem ofLine_describe {instruction : Instruction} (h : instruction.Legible) :
    ofLine instruction.describe.toList = some instruction := by
  by_cases hf : instruction.op = .function
  · obtain ⟨ht, hd⟩ := Text.cut_at_first (by decide : ' ' ∉ "Function:".toList)
      (shown instruction.arg1)
    obtain ⟨op, arg1, arg2, result⟩ := instruction
    obtain rfl : op = .function := hf
    obtain ⟨hs, rfl, rfl⟩ := h
    obtain ⟨name, rfl⟩ := Option.isSome_iff_exists.mp hs
    rw [toList_describe_header rfl, ofLine, ht, hd]
    simp [functionHeader, shown]
  · obtain ⟨ht, hd⟩ := Text.cut_at_first (Opcode.blank_notMem_name instruction.op)
      instruction.operands
    have hother : instruction.op.name ≠ "Function:" := by cases instruction.op <;> decide
    rw [toList_describe hf, ofLine, ht, hd, String.ofList_toList]
    simp only [if_neg hother, List.tail_cons, Opcode.ofName?_name, Option.map_some,
      ofOperands_operands h hf]

theorem isOperand_none : IsOperand none := nofun

theorem isOperand_some {text : String} (h : IsField text) : IsOperand (some text) := by
  rintro _ ⟨⟩
  exact h

theorem parameters_ne_empty : ∀ count : Nat, ∀ text ∈ parameters count, text ≠ ""
  | 0 => nofun
  | 1 => by simp [parameters]
  | count + 2 => by
    rw [parameters_succ]
    simp only [parameters, Option.map_some, Option.mem_some_iff, forall_eq']
    intro h
    exact absurd (congrArg String.length h) (by simp)

-- All instructions that there are can be read.
theorem legible_of_madeOf {instruction : Instruction} (h : instruction.MadeOf Word.IsField) :
    instruction.Legible := by
  have hvar : IsOperand (some "temp_var") := isOperand_some (by decide)
  have hindex : IsOperand (some "temp_index") := isOperand_some (by decide)
  have hlabel (target : Label) : IsField target.name := by cases target <;> decide
  cases h with
  | functionHeader _ | mainHeader => exact ⟨rfl, rfl, rfl⟩
  | loadConst _ => exact ⟨rfl, rfl, isOperand_some (by decide)⟩
  | endMain | giveBack => exact ⟨isOperand_none, nofun, isOperand_none⟩
  | arg => exact ⟨isOperand_some (by decide), nofun, isOperand_none⟩
  | alloc hw | add hw | operator hw => exact ⟨isOperand_some hw, nofun, isOperand_none⟩
  | store hw => exact ⟨hvar, nofun, isOperand_some hw⟩
  | storeElement hw => exact ⟨hvar, fun text ht => (hindex text ht).1, isOperand_some hw⟩
  | load hw => exact ⟨isOperand_some hw, nofun, hvar⟩
  | call count =>
    exact ⟨isOperand_some (by decide), parameters_ne_empty count, isOperand_some (by decide)⟩
  | ifFalse target =>
    exact ⟨isOperand_some (by decide), fun text ht => (isOperand_some (hlabel target) text ht).1,
      isOperand_none⟩
  | goto target | label target => exact ⟨isOperand_some (hlabel target), nofun, isOperand_none⟩
  | arrayAccess =>
    exact ⟨isOperand_some (by decide), fun text ht => (hindex text ht).1, isOperand_some (by decide)⟩
  | keyValuePair =>
    have hvalue : IsOperand (some "temp_value") := isOperand_some (by decide)
    exact ⟨isOperand_some (by decide), fun text ht => (hvalue text ht).1, isOperand_some (by decide)⟩

section compile

variable {mode other : Mode} {source another : String} {instructions others : List Instruction}

theorem ofLine_of_compile (h : compile mode source = .ok instructions) :
    ∀ instruction ∈ instructions, ofLine instruction.describe.toList = some instruction :=
  fun instruction hm => ofLine_describe (legible_of_madeOf (isField_of_compile h instruction hm))

theorem readAll_listing (h : compile mode source = .ok instructions)
    (hs : OneLinedStrings source) : readAll (listing instructions) = instructions.map some := by
  have hlines : Text.wholeLines (listing instructions) =
      (instructions.map describe).map String.toList := by
    rw [listing_eq_ended]
    exact Text.wholeLines_ended ((newline_notMem_describe_of_compile h).mpr hs)
  rw [readAll, hlines, List.map_map, List.map_map]
  exact List.map_congr_left (ofLine_of_compile h)

-- A listing says what its instructions are, with all that they have and have not, as long
-- as no string literal brings lines of its own along. Each line by itself can be read, whatever
-- is in its constant.
theorem listing_determines (h : compile mode source = .ok instructions)
    (ho : compile other another = .ok others) (hs : OneLinedStrings source)
    (hso : OneLinedStrings another) :
    (listing instructions = listing others → instructions = others) ∧
      readAll (listing instructions) = instructions.map some ∧
      ∀ instruction ∈ instructions, ofLine instruction.describe.toList = some instruction := by
  refine ⟨fun he => ?_, readAll_listing h hs, ofLine_of_compile h⟩
  have hsome : instructions.map some = others.map some := by
    rw [← readAll_listing h hs, he, readAll_listing ho hso]
  exact List.map_injective_iff.mpr (Option.some_injective _) hsome

-- An empty constant is no absent one, and a blank is no empty one.
theorem listing_of_empty_literal :
    ∃ instructions others, compile .single "x = \"\";" = .ok instructions ∧
      compile .revisit "x = \" \";" = .ok others ∧ listing instructions ≠ listing others ∧
      readAll (listing instructions) = instructions.map some := by
  have hp : parse (Lexed.ofSource "x = \"\";").tokens = .ok (.node .program
      [.node (.varDecl "x") [.node (.literal "") [] ⟨1, 5⟩] ⟨1, 1⟩] .start) := by
    cbv
  have hq : parse (Lexed.ofSource "x = \" \";").tokens = .ok (.node .program
      [.node (.varDecl "x") [.node (.literal " ") [] ⟨1, 5⟩] ⟨1, 1⟩] .start) := by
    cbv
  have h : compile .single "x = \"\";" =
      .ok [alloc "x", loadConst "", store "x"] := compile_of_parse hp
  have ho : compile .revisit "x = \" \";" =
      .ok [alloc "x", loadConst " ", store "x", loadConst " "] := compile_of_parse hq
  have ht : (Lexed.ofSource "x = \"\";").tokens = [⟨.identifier, "x", ⟨1, 1⟩⟩,
      ⟨.mark .assign, "=", ⟨1, 3⟩⟩, ⟨.literal .string, "", ⟨1, 5⟩⟩,
      ⟨.mark .semicolon, ";", ⟨1, 7⟩⟩] := by
    cbv
  have hu : (Lexed.ofSource "x = \" \";").tokens = [⟨.identifier, "x", ⟨1, 1⟩⟩,
      ⟨.mark .assign, "=", ⟨1, 3⟩⟩, ⟨.literal .string, " ", ⟨1, 5⟩⟩,
      ⟨.mark .semicolon, ";", ⟨1, 8⟩⟩] := by
    cbv
  have hs : OneLinedStrings "x = \"\";" := by
    rw [OneLinedStrings, ht]
    decide
  have hso : OneLinedStrings "x = \" \";" := by
    rw [OneLinedStrings, hu]
    decide
  obtain ⟨hdetermines, hread, -⟩ := listing_determines h ho hs hso
  exact ⟨_, _, h, ho, mt hdetermines (by decide), hread⟩

end compile

end Instruction

end ScriptIR
