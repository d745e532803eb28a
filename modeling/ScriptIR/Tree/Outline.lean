import ScriptIR.Tree.Basic

namespace ScriptIR

namespace Tree

def indentation (depth : Nat) : String :=
  String.ofList (List.replicate (4 * depth) ' ')

-- What the outline says of a node, as lines and their distance from the depth
-- of the node. A named aggregate says its name one level deeper, where the
-- elements are.
def ownLines : Tree → List (Nat × String)
  | .node (.varDecl name) _ _ => [(0, s!"<var_decl>: {name}")]
  | .node (.literal value) _ _ => [(0, s!"<literal>: {value}")]
  | .node (.operator sign) _ _ => [(0, s!"<operator>: {sign}")]
  | .node (.identifier name) _ _ => [(0, s!"<identifier>: {name}")]
  | .node (.array (some name)) _ _ => [(0, "<array>"), (1, s!"<identifier>: {name}")]
  | .node (.keyValue (some name)) _ _ => [(0, "<key_value>"), (1, s!"<identifier>: {name}")]
  | .node kind _ _ => [(0, s!"<{kind.name}>")]
  | .function name _ _ _ => [(0, s!"<function>: {name}")]
  | .loop counter _ _ _ _ => [(0, s!"<for_loop>: {counter}")]
  | .giving _ _ _ => [(0, "<return>")]

def ownText (depth : Nat) (tree : Tree) : String :=
  tree.ownLines.foldl (fun text (deeper, line) => text ++ indentation (depth + deeper) ++ line ++ "\n") ""

-- Writes from a list of trees still to be written, each with its depth. The
-- children of a node come before what was pending already.
private def outlineFrom (text : String) (pending : List (Nat × Tree)) : String :=
  match pending with
  | [] => text
  | (depth, tree) :: rest =>
    outlineFrom (text ++ tree.ownText depth) (tree.children.map (depth + 1, ·) ++ rest)
termination_by sizeAll (pending.map Prod.snd)
decreasing_by
  have hm : (List.map (Prod.snd ∘ fun child => (depth + 1, child)) tree.children) =
      tree.children := List.map_id _
  simp only [List.map_append, List.map_map, List.map_cons, sizeAll_append, sizeAll, size_eq, hm]
  omega

-- One line to a node and four spaces to a level. Owned sub-trees have no lines,
-- so two trees may well share an outline.
def outlineAt (depth : Nat) (tree : Tree) : String := outlineFrom "" [(depth, tree)]

def outline (tree : Tree) : String := tree.outlineAt 0

-- What is written already stays in front of what is still to come.
private theorem outlineFrom_text (front text : String) (pending : List (Nat × Tree)) :
    outlineFrom (front ++ text) pending = front ++ outlineFrom text pending := by
  fun_induction outlineFrom text pending with
  | case1 text => rw [outlineFrom]
  | case2 text depth tree rest ih => rw [outlineFrom, String.append_assoc, ih]

-- The pending trees are written one behind the other.
private theorem outlineFrom_append (text : String) (front back : List (Nat × Tree)) :
    outlineFrom text (front ++ back) = outlineFrom (outlineFrom text front) back := by
  fun_induction outlineFrom text front with
  | case1 text => rfl
  | case2 text depth tree rest ih =>
    rw [List.cons_append, outlineFrom, ← ih, List.append_assoc]

private theorem outlineFrom_map (depth : Nat) (trees : List Tree) :
    outlineFrom "" (trees.map (depth, ·)) = String.join (trees.map (outlineAt depth)) := by
  induction trees with
  | nil => simp [outlineFrom]
  | cons tree rest ih =>
    have hsplit := outlineFrom_append "" [(depth, tree)] (rest.map (depth, ·))
    have hfront := outlineFrom_text (tree.outlineAt depth) "" (rest.map (depth, ·))
    rw [String.append_empty] at hfront
    rw [List.map_cons, List.map_cons, String.join_cons, ← ih, ← hfront]
    exact hsplit

-- A node comes before its children, and these are one level deeper.
theorem outlineAt_eq (depth : Nat) (tree : Tree) :
    tree.outlineAt depth =
      tree.ownText depth ++ String.join (tree.children.map (outlineAt (depth + 1))) := by
  have hfront := outlineFrom_text (tree.ownText depth) "" (tree.children.map (depth + 1, ·))
  rw [outlineFrom_map, String.append_empty] at hfront
  rw [outlineAt, outlineFrom, List.append_nil, String.empty_append]
  exact hfront

end Tree

end ScriptIR
