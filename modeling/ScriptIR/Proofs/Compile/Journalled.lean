import Mathlib
import ScriptIR.Proofs.Grammar.Noted
import ScriptIR.Proofs.Grammar.Starts
import ScriptIR.Proofs.Lowering.Total

namespace ScriptIR

open Grammar

section records

variable {mode : Mode} {tokens : List Token}

end records

end ScriptIR
