import Mathlib
import ScriptIR.Proofs.Grammar.Room

namespace ScriptIR

open Grammar

namespace Grammar

variable {n : Nat}

namespace Rewinding

section rules

variable {tokens : List Token}

end rules

theorem declaration_decides (tokens : List Token) :
    (declaration tokens).outcome.Decides declarationPhrase tokens := by
  have h := Grammar.declaration_decides tokens
  rwa [← traced_declaration] at h

end Rewinding

end Grammar

end ScriptIR
