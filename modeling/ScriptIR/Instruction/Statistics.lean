import ScriptIR.Instruction.Basic

namespace ScriptIR

-- How often each opcode was seen. An opcode that was never seen has no entry.
abbrev Histogram := List (Opcode × Nat)

namespace Histogram

-- Sees an opcode once more.
def see (op : Opcode) : Histogram → Histogram
  | [] => [(op, 1)]
  | (other, count) :: rest =>
    if other = op then (other, count + 1) :: rest else (other, count) :: see op rest

def ofInstructions (instructions : List Instruction) : Histogram :=
  instructions.foldl (fun seen instruction => see instruction.op seen) []

-- The entries in the order of the vocabulary, whatever order they came in.
def summary (seen : Histogram) : List (Opcode × Nat) :=
  Opcode.all.filterMap fun op => (seen.lookup op).map (op, ·)

end Histogram

namespace Instruction

def summary (instructions : List Instruction) : List (Opcode × Nat) :=
  (Histogram.ofInstructions instructions).summary

-- Numbers start in the seventeenth column, behind the longest opcode.
private def row (title : String) (count : Nat) : String :=
  title ++ String.ofList (List.replicate (16 - title.length) ' ') ++ s!"{count}\n"

-- One row to an opcode in use, and one for their sum.
def statistics (instructions : List Instruction) : String :=
  (summary instructions).foldl (fun text (op, count) => text ++ row op.name count) "" ++
    row "total" instructions.length

end Instruction

end ScriptIR
