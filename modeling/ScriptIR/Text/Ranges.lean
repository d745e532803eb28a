namespace ScriptIR.Text

-- Ranges of a property of characters, ends included, in rising order.
abbrev Ranges := List (Nat × Nat)

def Ranges.contains (ranges : Ranges) (c : Char) : Bool :=
  ranges.any fun (first, last) => first ≤ c.toNat && c.toNat ≤ last

end ScriptIR.Text
