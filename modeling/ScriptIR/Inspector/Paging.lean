namespace ScriptIR.Inspector

-- The lines that a pane has room for. A pane too low for any counts as one high.
def visibleLines (height : Nat) : Nat := max (height - 2) 1

-- The offset nearest to the wanted one that shows a full page.
def clamp (wanted total visible : Nat) : Nat :=
  if visible < total then min wanted (total - visible) else 0

end ScriptIR.Inspector
