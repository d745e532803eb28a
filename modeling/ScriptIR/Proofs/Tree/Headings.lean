import Mathlib
import ScriptIR.Proofs.Lowering.Census
import ScriptIR.Proofs.Text.Ended
import ScriptIR.Tree.Outline

namespace ScriptIR

-- What a line of an outline says: how deep it stands, the kind of the node, and the text
-- behind the kind if there is one.
structure Heading where
  depth : Nat
  tag : String
  text : Option String
deriving DecidableEq

namespace Heading

def words (heading : Heading) : String :=
  match heading.text with
  | some text => "<" ++ heading.tag ++ ">: " ++ text
  | none => "<" ++ heading.tag ++ ">"

def line (heading : Heading) : String := Tree.indentation heading.depth ++ heading.words

-- What is behind the kind, without the colon and the space in front of it.
def textBehind : List Char → Option String
  | ':' :: ' ' :: text => some (String.ofList text)
  | _ => none

def ofLine (line : List Char) : Heading :=
  let tagged := (line.dropWhile (· = ' ')).tail
  { depth := (line.takeWhile (· = ' ')).length / 4
    tag := String.ofList (tagged.takeWhile (· ≠ '>'))
    text := textBehind (tagged.dropWhile (· ≠ '>')).tail }

def writeAll (headings : List Heading) : String :=
  String.join (headings.map fun heading => heading.line ++ "\n")

def readAll (text : String) : List Heading :=
  ((text.toList.splitOn '\n').dropLast).map ofLine

-- The spaces end at the first bracket and the kind ends at the second, whatever is behind.
theorem ofLine_eq (depth : Nat) {tag : String} (h : '>' ∉ tag.toList) (behind : List Char) :
    ofLine (List.replicate (4 * depth) ' ' ++ '<' :: (tag.toList ++ '>' :: behind)) =
      ⟨depth, tag, textBehind behind⟩ := by
  have hspaces : ∀ c ∈ List.replicate (4 * depth) ' ', decide (c = ' ') = true := by
    intro c hc
    exact decide_eq_true (List.eq_of_mem_replicate hc)
  obtain ⟨hindent, htagged⟩ := Text.cut_at_stop hspaces (by decide : decide ('<' = ' ') = false)
    (tag.toList ++ '>' :: behind)
  obtain ⟨hkind, hrest⟩ := Text.cut_at_first h behind
  simp only [ofLine, hindent, htagged, List.tail_cons, hkind, hrest, List.length_replicate,
    String.ofList_toList]
  rw [Nat.mul_div_cancel_left depth (by omega)]

theorem ofLine_line {heading : Heading} (h : '>' ∉ heading.tag.toList) :
    ofLine heading.line.toList = heading := by
  obtain ⟨depth, tag, text⟩ := heading
  cases text with
  | none => simpa [line, words, Tree.indentation, textBehind] using ofLine_eq depth h []
  | some text =>
    simpa [line, words, Tree.indentation, textBehind] using
      ofLine_eq depth h (':' :: ' ' :: text.toList)

theorem notMem_line {heading : Heading} (ht : '\n' ∉ heading.tag.toList)
    (hx : ∀ text ∈ heading.text, '\n' ∉ text.toList) : '\n' ∉ heading.line.toList := by
  obtain ⟨depth, tag, text⟩ := heading
  cases text with
  | none => simpa [line, words, Tree.indentation] using ht
  | some text =>
    have htext := hx text rfl
    simp_all [line, words, Tree.indentation]

theorem writeAll_append (front back : List Heading) :
    writeAll (front ++ back) = writeAll front ++ writeAll back := by
  rw [writeAll, List.map_append, String.join_append]
  rfl

theorem writeAll_flatMap {α : Type} (own : α → List Heading) (items : List α) :
    writeAll (items.flatMap own) = String.join (items.map fun item => writeAll (own item)) := by
  induction items with
  | nil => rfl
  | cons item rest ih => rw [List.flatMap_cons, writeAll_append, ih, List.map_cons, String.join_cons]

theorem writeAll_eq_ended (headings : List Heading) :
    writeAll headings = Text.ended (headings.map line) := by
  rw [writeAll, Text.ended, List.map_map]
  rfl

-- The lines are told apart by the ends of the lines, and each line by itself.
theorem readAll_writeAll {headings : List Heading}
    (ht : ∀ heading ∈ headings, '>' ∉ heading.tag.toList)
    (hl : ∀ heading ∈ headings, '\n' ∉ heading.line.toList) :
    readAll (writeAll headings) = headings := by
  have hlines : Text.wholeLines (writeAll headings) =
      (headings.map line).map String.toList := by
    rw [writeAll_eq_ended]
    exact Text.wholeLines_ended (List.forall_mem_map.mpr hl)
  rw [readAll, ← Text.wholeLines, hlines, List.map_map, List.map_map]
  calc headings.map (ofLine ∘ String.toList ∘ line)
      = headings.map id := List.map_congr_left fun heading hm => ofLine_line (ht heading hm)
    _ = headings := List.map_id headings

end Heading

namespace Tree

-- The nodes that an outline comes across, with their depths. A node comes before its
-- children, and owned sub-trees are passed over.
mutual

def reached (depth : Nat) : Tree → List (Nat × Tree)
  | .node kind children place =>
    (depth, .node kind children place) :: reachedAll (depth + 1) children
  | .function name params children place =>
    (depth, .function name params children place) :: reachedAll (depth + 1) children
  | .loop counter first last children place =>
    (depth, .loop counter first last children place) :: reachedAll (depth + 1) children
  | .giving value children place =>
    (depth, .giving value children place) :: reachedAll (depth + 1) children

def reachedAll (depth : Nat) : List Tree → List (Nat × Tree)
  | [] => []
  | tree :: rest => reached depth tree ++ reachedAll depth rest

end

theorem reachedAll_eq_flatMap (depth : Nat) (trees : List Tree) :
    reachedAll depth trees = trees.flatMap (reached depth) := by
  induction trees with
  | nil => rfl
  | cons tree rest ih => rw [reachedAll, ih, List.flatMap_cons]

theorem reached_eq (depth : Nat) (tree : Tree) :
    tree.reached depth = (depth, tree) :: tree.children.flatMap (reached (depth + 1)) := by
  rw [← reachedAll_eq_flatMap]
  cases tree <;> rfl

-- What every node has from its children, every tree has.
theorem of_children {motive : Tree → Prop}
    (h : ∀ tree, (∀ child ∈ tree.children, motive child) → motive tree) (tree : Tree) :
    motive tree :=
  h tree fun child _ => of_children h child
termination_by tree.size
decreasing_by exact size_lt_of_mem_children ‹_›

def aggregateName? : Tree → Option String
  | .node (.array name) _ _ => name
  | .node (.keyValue name) _ _ => name
  | _ => none

theorem isSome_aggregateName? (tree : Tree) :
    tree.aggregateName?.isSome = tree.isNamedAggregate := by
  cases tree with
  | node kind children place =>
    cases kind with
    | array name => cases name <;> rfl
    | keyValue name => cases name <;> rfl
    | _ => rfl
  | _ => rfl

-- A named aggregate has two lines.
def ownHeadings (depth : Nat) (tree : Tree) : List Heading :=
  match tree.aggregateName? with
  | some name => [⟨depth, tree.kindName, none⟩, ⟨depth + 1, "identifier", some name⟩]
  | none => [⟨depth, tree.kindName, tree.payload⟩]

theorem length_ownHeadings (depth : Nat) (tree : Tree) :
    (tree.ownHeadings depth).length = 1 + tree.isNamedAggregate.toNat := by
  rw [← isSome_aggregateName?, ownHeadings]
  cases tree.aggregateName? <;> rfl

theorem ownLines_eq (depth : Nat) (tree : Tree) :
    tree.ownLines.map (fun line => (depth + line.1, line.2)) =
      (tree.ownHeadings depth).map fun heading => (heading.depth, heading.words) := by
  cases tree with
  | node kind children place =>
    cases kind with
    | array name => cases name <;> rfl
    | keyValue name => cases name <;> rfl
    | _ => rfl
  | _ => rfl

theorem foldl_write (depth : Nat) (lines : List (Nat × String)) (front : String) :
    lines.foldl (fun text (deeper, line) =>
        text ++ indentation (depth + deeper) ++ line ++ "\n") front =
      front ++ String.join ((lines.map fun line => (depth + line.1, line.2)).map
        fun line => indentation line.1 ++ line.2 ++ "\n") := by
  induction lines generalizing front with
  | nil => simp
  | cons line rest ih =>
    rw [List.foldl_cons, ih, List.map_cons, List.map_cons, String.join_cons]
    simp only [String.append_assoc]

theorem ownText_eq_writeAll (depth : Nat) (tree : Tree) :
    tree.ownText depth = Heading.writeAll (tree.ownHeadings depth) := by
  have hlines := foldl_write depth tree.ownLines ""
  rw [ownLines_eq, List.map_map, String.empty_append] at hlines
  exact hlines

-- The lines of an outline, from the top.
def headings (depth : Nat) (tree : Tree) : List Heading :=
  (tree.reached depth).flatMap fun (deep, tree) => tree.ownHeadings deep

theorem headings_eq (depth : Nat) (tree : Tree) :
    tree.headings depth =
      tree.ownHeadings depth ++ tree.children.flatMap (headings (depth + 1)) := by
  rw [headings, reached_eq, List.flatMap_cons, List.flatMap_assoc]
  rfl

-- An outline is its lines, each with its end.
theorem outlineAt_eq_writeAll (tree : Tree) (depth : Nat) :
    tree.outlineAt depth = Heading.writeAll (tree.headings depth) := by
  induction tree using of_children generalizing depth with
  | h tree ih =>
    have hchildren : tree.children.map (outlineAt (depth + 1)) =
        tree.children.map fun child => Heading.writeAll (child.headings (depth + 1)) :=
      List.map_congr_left fun child hm => ih child hm (depth + 1)
    rw [outlineAt_eq, headings_eq, Heading.writeAll_append, Heading.writeAll_flatMap,
      ownText_eq_writeAll, hchildren]

-- A change that leaves every node its own lines leaves a tree its outline.
theorem outline_congr {change : Tree → Tree}
    (hown : ∀ depth tree, (change tree).ownHeadings depth = tree.ownHeadings depth)
    (hchildren : ∀ tree, (change tree).children = tree.children.map change) (tree : Tree) :
    (change tree).outline = tree.outline := by
  have hheadings : ∀ depth, (change tree).headings depth = tree.headings depth := by
    induction tree using of_children with
    | h tree ih =>
      intro depth
      rw [headings_eq, headings_eq depth tree, hown, hchildren, List.flatMap_map]
      exact congrArg _ (List.flatMap_congr fun child hm => ih child hm (depth + 1))
  rw [outline, outline, outlineAt_eq_writeAll, outlineAt_eq_writeAll, hheadings]

theorem kindName_plain (tree : Tree) :
    '>' ∉ tree.kindName.toList ∧ '\n' ∉ tree.kindName.toList := by
  cases tree with
  | node kind children place => cases kind <;> simp [kindName, Kind.name]
  | _ => simp [kindName]

theorem aggregateName?_eq_payload {tree : Tree} {name : String}
    (h : tree.aggregateName? = some name) : tree.payload = some name := by
  cases tree with
  | node kind children place =>
    cases kind with
    | array => exact h
    | keyValue => exact h
    | _ => cases h
  | _ => cases h

theorem plain_of_mem_ownHeadings {heading : Heading} {depth : Nat} {tree : Tree}
    (h : heading ∈ tree.ownHeadings depth) :
    ('>' ∉ heading.tag.toList ∧ '\n' ∉ heading.tag.toList) ∧
      ∀ text ∈ heading.text, text ∈ tree.payload := by
  rw [ownHeadings] at h
  split at h
  · rename_i name hn
    rcases List.mem_cons.mp h with rfl | h
    · refine ⟨tree.kindName_plain, fun text ht => ?_⟩
      cases ht
    · cases List.mem_singleton.mp h
      refine ⟨by simp, fun text ht => ?_⟩
      cases ht
      exact aggregateName?_eq_payload hn
  · cases List.mem_singleton.mp h
    exact ⟨tree.kindName_plain, fun text ht => ht⟩

theorem length_headings (tree : Tree) (depth : Nat) :
    (tree.headings depth).length =
      (tree.reached depth).length + (tree.reached depth).countP (·.2.isNamedAggregate) := by
  rw [headings]
  induction tree.reached depth with
  | nil => rfl
  | cons entry rest ih =>
    rw [List.flatMap_cons, List.length_append, ih, length_ownHeadings, List.length_cons,
      List.countP_cons]
    cases entry.2.isNamedAggregate <;> simp <;> omega

end Tree

end ScriptIR
