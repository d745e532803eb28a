import ScriptIR.Lowering.Basic

namespace ScriptIR.Tree

open Lowered

mutual

-- The operands and the signs of an operation, with those of every operation within it at
-- its own place. Any other tree is an operand.
def spread : Tree → List Tree
  | .node .expression children _ => spreadAll children
  | tree => [tree]

def spreadAll : List Tree → List Tree
  | [] => []
  | tree :: rest => spread tree ++ spreadAll rest

end

theorem kindName_ne_expression {kind : Kind} (h : kind ≠ .expression) (children : List Tree)
    (place : Location) : (Tree.node kind children place).kindName ≠ "expression" := by
  cases kind <;> simp_all [kindName, Kind.name]

theorem spread_of_ne {tree : Tree} (h : tree.kindName ≠ "expression") : tree.spread = [tree] := by
  rw [spread]
  rintro children place rfl
  exact h rfl

theorem lowerAll_singleton (mode : Mode) (tree : Tree) : lowerAll mode [tree] = lower mode tree := by
  rw [lowerAll, lowerAll, andThen_nothing]

-- Down the tree as far as operations go.
mutual

theorem lowerAll_spread (mode : Mode) : ∀ tree : Tree,
    lowerAll mode tree.spread = lower mode tree
  | .node kind children place => by
    by_cases hk : kind = .expression
    · subst hk
      rw [spread, lower_expression, lowerAll_spreadAll mode children]
    · rw [spread_of_ne (kindName_ne_expression hk children place), lowerAll_singleton]
  | .function .. => lowerAll_singleton mode _
  | .loop .. => lowerAll_singleton mode _
  | .giving .. => lowerAll_singleton mode _

theorem lowerAll_spreadAll (mode : Mode) : ∀ trees : List Tree,
    lowerAll mode (spreadAll trees) = lowerAll mode trees
  | [] => rfl
  | tree :: rest => by
    rw [spreadAll, lowerAll_append, lowerAll_spread mode tree, lowerAll_spreadAll mode rest,
      lowerAll]

end

mutual

-- No operation is left.
theorem kindName_of_mem_spread : ∀ {tree leaf : Tree}, leaf ∈ tree.spread →
    leaf.kindName ≠ "expression"
  | .node kind children place, leaf, h => by
    by_cases hk : kind = .expression
    · subst hk
      rw [spread] at h
      exact kindName_of_mem_spreadAll h
    · have hne := kindName_ne_expression hk children place
      rw [spread_of_ne hne] at h
      rwa [List.mem_singleton.mp h]
  | .function .., leaf, h => by
    rw [List.mem_singleton.mp h]
    simp [kindName]
  | .loop .., leaf, h => by
    rw [List.mem_singleton.mp h]
    simp [kindName]
  | .giving .., leaf, h => by
    rw [List.mem_singleton.mp h]
    simp [kindName]

theorem kindName_of_mem_spreadAll : ∀ {trees : List Tree} {leaf : Tree},
    leaf ∈ spreadAll trees → leaf.kindName ≠ "expression"
  | [], _, h => nomatch h
  | tree :: rest, leaf, h => by
    rw [spreadAll] at h
    rcases List.mem_append.mp h with h | h
    · exact kindName_of_mem_spread h
    · exact kindName_of_mem_spreadAll h

end

end ScriptIR.Tree
