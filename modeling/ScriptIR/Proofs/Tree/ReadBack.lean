import Mathlib
import ScriptIR.Proofs.Grammar.Shape
import ScriptIR.Proofs.Tree.Headings

namespace ScriptIR

namespace Tree

-- Stands where a sub-tree was that an outline does not show.
def nothing : Tree := .node .block [] .start

-- A tree without its places and its owned sub-trees. A return is as good as bare then.
mutual

def visible : Tree → Tree
  | .node kind children _ => .node kind (visibleAll children) .start
  | .function name _ children _ => .function name nothing (visibleAll children) .start
  | .loop counter _ _ children _ => .loop counter nothing nothing (visibleAll children) .start
  | .giving _ children _ => .node .bareReturn (visibleAll children) .start

def visibleAll : List Tree → List Tree
  | [] => []
  | tree :: rest => visible tree :: visibleAll rest

end

theorem visibleAll_eq_map (trees : List Tree) : visibleAll trees = trees.map visible := by
  induction trees with
  | nil => rfl
  | cons tree rest ih => rw [visibleAll, ih, List.map_cons]

theorem children_visible (tree : Tree) : tree.visible.children = tree.children.map visible := by
  rw [← visibleAll_eq_map]
  cases tree <;> rfl

theorem ownHeadings_visible (depth : Nat) (tree : Tree) :
    tree.visible.ownHeadings depth = tree.ownHeadings depth := by
  cases tree with
  | node kind children place => cases kind <;> rfl
  | _ => rfl

theorem outline_visible (tree : Tree) : tree.visible.outline = tree.outline :=
  outline_congr ownHeadings_visible children_visible tree

-- Whether the first of some children could be taken for the name of what they are in.
def beginsWithName : List Tree → Bool
  | .node (.identifier _) _ _ :: _ => true
  | _ => false

-- An aggregate without a name does not look as if it had one.
def Unambiguous : Tree → Prop
  | .node (.array none) children _ => beginsWithName children = false
  | .node (.keyValue none) children _ => beginsWithName children = false
  | _ => True

-- What holds of a tree and of all that its outline comes across.
inductive Throughout (P : Tree → Prop) : Tree → Prop
  | intro {tree : Tree} : P tree → (∀ child ∈ tree.children, Throughout P child) →
      Throughout P tree

theorem throughout_iff {P : Tree → Prop} {tree : Tree} :
    tree.Throughout P ↔ P tree ∧ ∀ child ∈ tree.children, child.Throughout P :=
  ⟨fun ⟨h, hc⟩ => ⟨h, hc⟩, fun ⟨h, hc⟩ => .intro h hc⟩

end Tree

namespace Heading

open ScriptIR.Tree

def nodeKind (tag text : String) : Kind :=
  ([.program, .main, .paramList, .block, .varDecl text, .assignment, .ifStatement,
    .elseStatement, .bareReturn, .call, .expressionList, .argumentList, .pair, .expression,
    .arrayAccess, .literal text, .operator text, .identifier text].find?
      (·.name = tag)).getD .program

-- An aggregate of what is found below it. If that begins with a name, it is its own.
def aggregate (kind : Option String → Kind) : List Tree → Tree
  | .node (.identifier name) _ _ :: rest => .node (kind (some name)) rest .start
  | children => .node (kind none) children .start

-- The node that a line is about, with the children that were found below it.
def node (heading : Heading) (children : List Tree) : Tree :=
  let text := heading.text.getD ""
  if heading.tag = "function" then .function text nothing children .start
  else if heading.tag = "for_loop" then .loop text nothing nothing children .start
  else if heading.tag = "array" then aggregate .array children
  else if heading.tag = "key_value" then aggregate .keyValue children
  else .node (nodeKind heading.tag text) children .start

-- Reads a line in front of what is below it already. The deeper trees are its children.
def put (heading : Heading) (found : List (Nat × Tree)) : List (Nat × Tree) :=
  (heading.depth, heading.node ((found.takeWhile (heading.depth < ·.1)).map Prod.snd)) ::
    found.dropWhile (heading.depth < ·.1)

-- Reads an outline from its last line to its first.
def readBack (text : String) : List Tree :=
  ((readAll text).foldr put []).map Prod.snd

theorem aggregate_visibleAll (kind : Option String → Kind) {children : List Tree}
    (h : beginsWithName children = false) :
    aggregate kind (visibleAll children) = .node (kind none) (visibleAll children) .start := by
  cases children with
  | nil => rfl
  | cons child rest =>
    cases child with
    | node first children place =>
      cases first with
      | identifier name => cases h
      | _ => rfl
    | _ => rfl

-- The first line of a node says what it is, and a second one is of a child in front of
-- the others.
theorem node_visible {tree : Tree} (h : tree.Unambiguous) (depth : Nat) :
    match tree.aggregateName? with
    | some name => node ⟨depth, tree.kindName, none⟩
        (.node (.identifier name) [] .start :: tree.children.map visible) = tree.visible
    | none => node ⟨depth, tree.kindName, tree.payload⟩ (tree.children.map visible) =
        tree.visible := by
  rw [← visibleAll_eq_map]
  cases tree with
  | node kind children place =>
    cases kind with
    | array name =>
      cases name with
      | some name => rfl
      | none => exact aggregate_visibleAll .array h
    | keyValue name =>
      cases name with
      | some name => rfl
      | none => exact aggregate_visibleAll .keyValue h
    | _ => rfl
  | _ => rfl

-- What was found last stands no deeper than this.
def Above (depth : Nat) (found : List (Nat × Tree)) : Prop :=
  ∀ entry ∈ found.head?, entry.1 ≤ depth

theorem above_nil (depth : Nat) : Above depth [] := by
  intro entry hm
  cases hm

theorem Above.succ {depth : Nat} {found : List (Nat × Tree)} (h : Above depth found) :
    Above (depth + 1) found :=
  fun entry hm => Nat.le_succ_of_le (h entry hm)

theorem Above.map_append {depth : Nat} {found : List (Nat × Tree)} (h : Above depth found)
    (trees : List Tree) : Above depth (trees.map (depth, ·) ++ found) := by
  cases trees with
  | nil => exact h
  | cons tree rest =>
    intro entry hm
    cases hm
    exact Nat.le_refl depth

-- What is one level deeper is taken, up to what is not deeper at all.
theorem put_eq (heading : Heading) (trees : List Tree) {found : List (Nat × Tree)}
    (h : Above heading.depth found) :
    heading.put (trees.map (heading.depth + 1, ·) ++ found) =
      (heading.depth, heading.node trees) :: found := by
  have hdeeper : ∀ entry ∈ trees.map (heading.depth + 1, ·),
      decide (heading.depth < entry.1) = true := by
    intro entry hm
    obtain ⟨tree, -, rfl⟩ := List.mem_map.mp hm
    exact decide_eq_true (Nat.lt_succ_self _)
  have hstop : found.takeWhile (heading.depth < ·.1) = [] ∧
      found.dropWhile (heading.depth < ·.1) = found := by
    cases found with
    | nil => exact ⟨rfl, rfl⟩
    | cons entry rest =>
      have hle : ¬ heading.depth < entry.1 := Nat.not_lt.mpr (h entry rfl)
      exact ⟨List.takeWhile_cons_of_neg (by simpa using hle),
        List.dropWhile_cons_of_neg (by simpa using hle)⟩
  rw [put, List.takeWhile_append_of_pos hdeeper, List.dropWhile_append_of_pos hdeeper, hstop.1,
    hstop.2, List.append_nil, List.map_map]
  exact congrArg (fun trees => (_, heading.node trees) :: found) (List.map_id trees)

theorem foldr_put_ownHeadings {tree : Tree} (hu : tree.Unambiguous) {depth : Nat}
    {found : List (Nat × Tree)} (hf : Above depth found) :
    (tree.ownHeadings depth).foldr put
        ((tree.children.map visible).map (depth + 1, ·) ++ found) =
      (depth, tree.visible) :: found := by
  have hnode := node_visible hu depth
  rw [ownHeadings]
  cases hname : tree.aggregateName? with
  | none =>
    rw [hname] at hnode
    rw [List.foldr_cons, List.foldr_nil, put_eq ⟨depth, tree.kindName, tree.payload⟩ _ hf, hnode]
  | some name =>
    rw [hname] at hnode
    let deeper := (tree.children.map visible).map (depth + 1, ·) ++ found
    have hdeeper : put ⟨depth + 1, "identifier", some name⟩ deeper =
        (depth + 1, .node (.identifier name) [] .start) :: deeper :=
      put_eq ⟨depth + 1, "identifier", some name⟩ [] (hf.succ.map_append _)
    rw [List.foldr_cons, List.foldr_cons, List.foldr_nil, hdeeper, ← hnode]
    exact put_eq ⟨depth, tree.kindName, none⟩ (.node (.identifier name) [] .start :: _) hf

theorem foldr_put_flatMap {depth : Nat} {trees : List Tree}
    (h : ∀ tree ∈ trees, ∀ found, Above depth found →
      (tree.headings depth).foldr put found = (depth, tree.visible) :: found)
    {found : List (Nat × Tree)} (hf : Above depth found) :
    (trees.flatMap (headings depth)).foldr put found =
      (trees.map visible).map (depth, ·) ++ found := by
  induction trees with
  | nil => rfl
  | cons tree rest ih =>
    obtain ⟨htree, hrest⟩ := List.forall_mem_cons.mp h
    rw [List.flatMap_cons, List.foldr_append, ih hrest, htree _ (hf.map_append _)]
    rfl

-- By induction on the tree: its lines, put in front of what stands no deeper, come to one
-- tree in front of that.
theorem foldr_put_headings {tree : Tree} (h : tree.Throughout Unambiguous) (depth : Nat)
    (found : List (Nat × Tree)) (hf : Above depth found) :
    (tree.headings depth).foldr put found = (depth, tree.visible) :: found := by
  induction h generalizing depth found with
  | intro hu _ ih =>
    rw [headings_eq, List.foldr_append,
      foldr_put_flatMap (fun child hm => ih child hm (depth + 1)) hf.succ,
      foldr_put_ownHeadings hu hf]

end Heading

section unambiguous

open ScriptIR.Tree

@[simp] theorem unambiguous_node {kind : Kind} {children : List Tree} {place : Location} :
    (Tree.node kind children place).Throughout Unambiguous ↔
      (Tree.node kind children place).Unambiguous ∧
        ∀ child ∈ children, child.Throughout Unambiguous :=
  throughout_iff

theorem IsExpression.unambiguous {tree : Tree} (h : IsExpression tree) :
    tree.Throughout Unambiguous := by
  induction h with
  | literal => simp [Unambiguous]
  | identifier => simp [Grammar.identifierNode, Unambiguous]
  | emptyCall => simp [Grammar.identifierNode, Unambiguous]
  | call _ _ ih => simpa [Grammar.identifierNode, Unambiguous] using ih
  | arrayAccess _ ih => simpa [Grammar.identifierNode, Unambiguous] using ih
  | operation _ _ ihl ihr => simp [Unambiguous, ihl, ihr]

mutual

theorem IsItem.unambiguous : ∀ {tree : Tree}, IsItem tree → tree.Throughout Unambiguous
  | _, .expression he => he.unambiguous
  | _, .array _ hi => by
    have hv := fun value hm => (hi value hm).unambiguous
    simpa [Unambiguous, beginsWithName] using hv
  | .node _ entries _, .keyValue hp => by
    have he := fun entry hm => (hp entry hm).unambiguous
    have hb : beginsWithName entries = false := by
      cases entries with
      | nil => rfl
      | cons entry rest =>
        cases hp entry List.mem_cons_self with
        | pair => rfl
    simpa [Unambiguous, hb] using he

theorem IsPair.unambiguous : ∀ {tree : Tree}, IsPair tree → tree.Throughout Unambiguous
  | _, .pair he hi => by simp [Unambiguous, he.unambiguous, hi.unambiguous]

end

theorem IsTarget.unambiguous {tree : Tree} (h : IsTarget tree) :
    tree.Throughout Unambiguous := by
  cases h with
  | identifier => exact IsExpression.identifier.unambiguous
  | arrayAccess he => exact (IsExpression.arrayAccess he).unambiguous

theorem IsStatement.unambiguous {tree : Tree} (h : IsStatement tree) :
    tree.Throughout Unambiguous := by
  induction h with
  | assignment ht he => simp [Unambiguous, ht.unambiguous, he.unambiguous]
  | call he => exact he.unambiguous
  | ifStatement he _ ih => simp [Unambiguous, he.unambiguous, ih]
  | ifElse he _ _ _ ihb iho => simp [Unambiguous, he.unambiguous, ihb, iho]
  | loop _ _ _ ih => exact .intro trivial ih
  | bareReturn => simp [Unambiguous]
  | giving _ => exact .intro trivial nofun
  | block _ ih => exact .intro trivial ih

theorem IsDeclaration.unambiguous {tree : Tree} (h : IsDeclaration tree) :
    tree.Throughout Unambiguous := by
  cases h with
  | main hs => exact .intro trivial fun statement hm => (hs statement hm).unambiguous
  | function _ hs => exact .intro trivial fun statement hm => (hs statement hm).unambiguous
  | array _ hi =>
    have hv := fun value hm => (hi value hm).unambiguous
    simpa [Unambiguous] using hv
  | keyValue hp => exact .intro trivial fun entry hm => (hp entry hm).unambiguous
  | value he => simp [Unambiguous, he.unambiguous]

theorem IsProgram.unambiguous {tree : Tree} (h : IsProgram tree) :
    tree.Throughout Unambiguous := by
  obtain ⟨hd⟩ := h
  exact .intro trivial fun tree hm => (hd tree hm).unambiguous

end unambiguous

namespace Tree

variable {tree : Tree}

-- No node that an outline comes across has a text of several lines.
def OneLined (tree : Tree) : Prop :=
  ∀ entry ∈ tree.reached 0, ∀ text ∈ entry.2.payload, '\n' ∉ text.toList

instance : Decidable tree.OneLined :=
  inferInstanceAs (Decidable (∀ entry ∈ tree.reached 0, ∀ text ∈ entry.2.payload, _))

theorem OneLined.plain (h : tree.OneLined) {heading : Heading} (hm : heading ∈ tree.headings 0) :
    '>' ∉ heading.tag.toList ∧ '\n' ∉ heading.line.toList := by
  obtain ⟨entry, he, hm⟩ := List.mem_flatMap.mp hm
  obtain ⟨⟨hangle, htag⟩, htext⟩ := plain_of_mem_ownHeadings hm
  exact ⟨hangle, Heading.notMem_line htag fun text ht => h entry he text (htext text ht)⟩

theorem readBack_outline (h : tree.Throughout Unambiguous) (hl : tree.OneLined) :
    Heading.readBack tree.outline = [tree.visible] := by
  have hread : Heading.readAll tree.outline = tree.headings 0 := by
    rw [outline, outlineAt_eq_writeAll]
    exact Heading.readAll_writeAll (fun heading hm => (hl.plain hm).1)
      fun heading hm => (hl.plain hm).2
  rw [Heading.readBack, hread, Heading.foldr_put_headings h 0 [] (Heading.above_nil 0)]
  rfl

end Tree

-- An outline has a line for each node that it comes across and one more for each named
-- aggregate, and its tree can be read from it but for the places and the owned sub-trees.
-- That an aggregate without a name holds no identifier is due to the grammar.
theorem outline_eq_iff {tokens others : List Token} {tree other : Tree}
    (ht : parse tokens = .ok tree) (ho : parse others = .ok other) (htl : tree.OneLined)
    (hol : other.OneLined) :
    (tree.outline = other.outline ↔ tree.visible = other.visible) ∧
      tree.outline = Heading.writeAll (tree.headings 0) ∧
      (∀ heading ∈ tree.headings 0, '\n' ∉ heading.line.toList) ∧
      (tree.headings 0).length =
        (tree.reached 0).length + (tree.reached 0).countP (·.2.isNamedAggregate) ∧
      Heading.readBack tree.outline = [tree.visible] := by
  have hread := Tree.readBack_outline (isProgram_of_parse ht).unambiguous htl
  have hother := Tree.readBack_outline (isProgram_of_parse ho).unambiguous hol
  refine ⟨⟨?_, ?_⟩, ?_, ?_, ?_, hread⟩
  · intro h
    rw [h, hother] at hread
    exact (List.singleton_inj.mp hread).symm
  · intro h
    rw [← Tree.outline_visible tree, h, Tree.outline_visible]
  · exact Tree.outlineAt_eq_writeAll tree 0
  · exact fun heading hm => (htl.plain hm).2
  · exact Tree.length_headings tree 0

-- Parameters and a value that is given back are not shown.
theorem outline_of_functions :
    let tree : Tree := .node .program
      [.function "f" (.node .paramList [Grammar.identifierNode "p" ⟨1, 12⟩] ⟨1, 12⟩)
        [.giving (Grammar.identifierNode "p" ⟨1, 24⟩) [] ⟨1, 17⟩] ⟨1, 1⟩,
        .node (.array (some "a")) [.node .expressionList
          [Grammar.identifierNode "b" ⟨1, 34⟩] ⟨1, 34⟩] ⟨1, 29⟩] .start
    let other : Tree := .node .program
      [.function "f" (.node .paramList [] ⟨1, 12⟩) [.node .bareReturn [] ⟨1, 16⟩] ⟨1, 1⟩,
        .node (.array (some "a")) [.node .expressionList
          [Grammar.identifierNode "b" ⟨1, 31⟩] ⟨1, 31⟩] ⟨1, 26⟩] .start
    parse (Lexed.ofSource "function f(p) { return p; } a = [b];").tokens = .ok tree ∧
      parse (Lexed.ofSource "function f() { return; } a = [b];").tokens = .ok other ∧
      tree.OneLined ∧ other.OneLined ∧ tree.outline = other.outline ∧
      Heading.readBack tree.outline = [tree.visible] := by
  intro tree other
  have ht : parse (Lexed.ofSource "function f(p) { return p; } a = [b];").tokens = .ok tree := by
    cbv
  have ho : parse (Lexed.ofSource "function f() { return; } a = [b];").tokens = .ok other := by
    cbv
  have htl : tree.OneLined := by decide
  have hol : other.OneLined := by decide
  obtain ⟨hiff, -, -, -, hread⟩ := outline_eq_iff ht ho htl hol
  exact ⟨ht, ho, htl, hol, hiff.mpr rfl, hread⟩

end ScriptIR
