namespace ScriptIR

-- The vocabulary of the instruction listing, in its order of listing.
inductive Opcode where
  -- the header of a function, of the main function too
  | function
  | alloc
  | store
  | load
  | loadConst
  | callFunction
  | arg
  | ifFalse
  | goto
  | label
  | giveBack
  | add
  | operator
  | arrayAccess
  | keyValuePair
  | endMain
deriving DecidableEq

namespace Opcode

def all : List Opcode :=
  [.function, .alloc, .store, .load, .loadConst, .callFunction, .arg, .ifFalse, .goto, .label,
    .giveBack, .add, .operator, .arrayAccess, .keyValuePair, .endMain]

theorem mem_all (op : Opcode) : op ∈ all := by
  cases op <;> decide

def name : Opcode → String
  | .function => "function"
  | .alloc => "alloc"
  | .store => "store"
  | .load => "load"
  | .loadConst => "load_const"
  | .callFunction => "call_function"
  | .arg => "arg"
  | .ifFalse => "if_false"
  | .goto => "goto"
  | .label => "label"
  | .giveBack => "return"
  | .add => "add"
  | .operator => "operator"
  | .arrayAccess => "array_access"
  | .keyValuePair => "key_value_pair"
  | .endMain => "end_main"

def ofName? (text : String) : Option Opcode :=
  all.find? (·.name = text)

end Opcode

-- An opcode with up to two operands and a result. Instructions refer to each
-- other only by the names that they share.
structure Instruction where
  op : Opcode
  arg1 : Option String
  arg2 : Option String
  result : Option String
deriving DecidableEq

namespace Instruction

-- Every value of one role goes by one name in the whole listing. Nothing is
-- numbered, and labels too are used again by every branch and every loop.

def functionHeader (name : String) : Instruction := ⟨.function, some name, none, none⟩

def endMain : Instruction := ⟨.endMain, none, none, none⟩

def alloc (name : String) : Instruction := ⟨.alloc, some name, none, none⟩

def store (name : String) : Instruction := ⟨.store, some "temp_var", none, some name⟩

def storeElement (name : String) : Instruction :=
  ⟨.store, some "temp_var", some "temp_index", some name⟩

def load (name : String) : Instruction := ⟨.load, some name, none, some "temp_var"⟩

def loadConst (value : String) : Instruction :=
  ⟨.loadConst, some value, none, some "temp_literal"⟩

def arg : Instruction := ⟨.arg, some "temp_param", none, none⟩

-- The operand of a call that stands for its parameters, one to an argument.
-- A call without arguments has no such operand.
def parameters : Nat → Option String
  | 0 => none
  | count + 1 => some (String.intercalate ", " (List.replicate (count + 1) "temp_param"))

def call (count : Nat) : Instruction :=
  ⟨.callFunction, some "temp_func_name", parameters count, some "temp_result"⟩

-- The places that a listing jumps to.
inductive Label where
  | otherwise
  | endIf
  | loopStart
  | loopEnd
deriving DecidableEq

def Label.name : Label → String
  | .otherwise => "label_else"
  | .endIf => "label_end_if"
  | .loopStart => "loop_start"
  | .loopEnd => "loop_end"

def ifFalse (target : Label) : Instruction :=
  ⟨.ifFalse, some "temp_condition", some target.name, none⟩

def goto (target : Label) : Instruction := ⟨.goto, some target.name, none, none⟩

def label (target : Label) : Instruction := ⟨.label, some target.name, none, none⟩

def giveBack : Instruction := ⟨.giveBack, none, none, none⟩

def add (counter : String) : Instruction := ⟨.add, some counter, none, none⟩

def operator (sign : String) : Instruction := ⟨.operator, some sign, none, none⟩

def arrayAccess : Instruction :=
  ⟨.arrayAccess, some "temp_array", some "temp_index", some "temp_element"⟩

def keyValuePair : Instruction :=
  ⟨.keyValuePair, some "temp_key", some "temp_value", some "temp_pair"⟩

-- The line of a listing without its end. An absent operand leaves an empty
-- field, and a header shows nothing but the name of its function.
def describe (instruction : Instruction) : String :=
  let operand (field : Option String) : String := field.getD ""
  match instruction.op with
  | .function => s!"Function: {operand instruction.arg1}"
  | op =>
    s!"{op.name} {operand instruction.arg1} {operand instruction.arg2} {operand instruction.result}"

-- A listing, one instruction to a line.
def listing (instructions : List Instruction) : String :=
  instructions.foldl (fun text instruction => text ++ instruction.describe ++ "\n") ""

end Instruction

end ScriptIR
