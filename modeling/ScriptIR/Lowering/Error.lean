import ScriptIR.Tree.Basic

namespace ScriptIR

-- The nodes that need two children of their own, each by its name.
inductive Couple where
  | targetAndValue
  | arrayAndIndex
  | keyAndValue
deriving DecidableEq

def Couple.describe : Couple → String
  | .targetAndValue => "target and value"
  | .arrayAndIndex => "array and index"
  | .keyAndValue => "key and value"

-- Which promise of its kind a node breaks. The grammar keeps them all, so this
-- is for trees that come from elsewhere.
inductive Flaw where
  | incomplete (needed : Couple) (found : Nat)
  | noBranch
  | emptyElse
  | noCallee
  -- an assignment to something that is no place for a value
  | badTarget (kindName : String)
  -- an assignment to an element of something that has no name
  | namelessArray
deriving DecidableEq

-- The kind of node that is at fault.
def Flaw.kindName : Flaw → String
  | .incomplete .targetAndValue _ => "assignment"
  | .incomplete .arrayAndIndex _ => "array_access"
  | .incomplete .keyAndValue _ => "key_value_pair"
  | .noBranch => "if"
  | .emptyElse => "else"
  | .noCallee => "function_call"
  | .badTarget _ => "assignment"
  | .namelessArray => "array_access"

def Flaw.message : Flaw → String
  | .incomplete needed found => s!"expected {needed.describe}, found {found} children"
  | .noBranch => "expected a condition and a branch"
  | .emptyElse => "else without a branch"
  | .noCallee => "function call without a callee"
  | .badTarget kindName => s!"cannot assign to {kindName}"
  | .namelessArray => "indexed target is not an identifier"

-- A flaw and the place that is blamed for it.
structure LoweringError where
  flaw : Flaw
  place : Location
deriving DecidableEq

def LoweringError.describe (error : LoweringError) : String :=
  s!"Malformed {error.flaw.kindName} at {error.place.describe}: {error.flaw.message}"

end ScriptIR
