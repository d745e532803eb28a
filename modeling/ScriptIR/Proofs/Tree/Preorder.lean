import Mathlib
import ScriptIR.Proofs.Tree.ReadBack

namespace ScriptIR

open ScriptIR.Tree

-- A writer of outlines on its way: what is written so far, and a stack of the trees that are
-- still to be written, each with its depth. The tree that is written next is the last one.
structure Writer where
  text : String
  stack : List (Nat × Tree)

namespace Writer

variable {writer other : Writer}

def start (depth : Nat) (tree : Tree) : Writer := ⟨"", [(depth, tree)]⟩

-- One step. The children of what is written go onto the stack from the last to the first, so
-- that the first comes off again first.
def next (writer : Writer) : Option Writer :=
  writer.stack.getLast?.map fun (depth, tree) =>
    ⟨writer.text ++ tree.ownText depth,
      writer.stack.dropLast ++ (tree.children.map (depth + 1, ·)).reverse⟩

def steps : Nat → Writer → Option Writer
  | 0, writer => some writer
  | count + 1, writer => writer.next.bind (steps count)

-- What a writer comes to, if it is left to itself.
def outcome (writer : Writer) : String :=
  writer.text ++ String.join (writer.stack.reverse.map fun (depth, tree) => tree.outlineAt depth)

-- The nodes that it still comes across.
def remaining (writer : Writer) : Nat :=
  (writer.stack.map fun (depth, tree) => (tree.reached depth).length).sum

theorem next_concat (text : String) (stack : List (Nat × Tree)) (depth : Nat) (tree : Tree) :
    next ⟨text, stack ++ [(depth, tree)]⟩ =
      some ⟨text ++ tree.ownText depth, stack ++ (tree.children.map (depth + 1, ·)).reverse⟩ := by
  simp [next]

-- A step is one from the top of a stack.
theorem exists_of_next (h : writer.next = some other) :
    ∃ stack depth tree, writer.stack = stack ++ [(depth, tree)] ∧
      other = ⟨writer.text ++ tree.ownText depth,
        stack ++ (tree.children.map (depth + 1, ·)).reverse⟩ := by
  obtain ⟨text, entries⟩ := writer
  cases entries using List.reverseRecOn with
  | nil => cases h
  | append_singleton stack entry =>
    obtain ⟨depth, tree⟩ := entry
    rw [next_concat] at h
    cases h
    exact ⟨stack, depth, tree, rfl, rfl⟩

-- What is written already and what the stack comes to are the same text behind each step.
theorem outcome_next (h : writer.next = some other) : other.outcome = writer.outcome := by
  obtain ⟨stack, depth, tree, hstack, rfl⟩ := exists_of_next h
  have hchildren : (tree.children.map (depth + 1, ·)).map
      (fun entry : Nat × Tree => entry.2.outlineAt entry.1) =
        tree.children.map (outlineAt (depth + 1)) := by
    rw [List.map_map]
    rfl
  simp only [outcome, hstack, List.reverse_append, List.reverse_reverse, List.map_append,
    String.join_append, hchildren, List.reverse_singleton, List.map_singleton, outlineAt_eq depth]
  simp [String.append_assoc]

theorem remaining_next (h : writer.next = some other) :
    writer.remaining = other.remaining + 1 := by
  obtain ⟨stack, depth, tree, hstack, rfl⟩ := exists_of_next h
  have hreached : (tree.reached depth).length =
      (tree.children.map fun child => (child.reached (depth + 1)).length).sum + 1 := by
    rw [reached_eq, List.length_cons, List.length_flatMap]
  simp only [remaining, hstack, List.map_append, List.sum_append, List.map_singleton,
    List.sum_singleton, hreached, List.map_reverse, List.sum_reverse, List.map_map,
    Function.comp_def]
  omega

theorem stack_of_next (h : writer.next = none) : writer.stack = [] :=
  List.getLast?_eq_none_iff.mp (Option.map_eq_none_iff.mp h)

-- Each step leaves one node less, so the writer goes on to the end of its stack.
theorem steps_remaining (writer : Writer) :
    writer.steps writer.remaining = some ⟨writer.outcome, []⟩ := by
  cases hn : writer.next with
  | none =>
    have hstack := stack_of_next hn
    obtain ⟨text, stack⟩ := writer
    cases hstack
    simp [remaining, steps, outcome]
  | some other =>
    have hrest := steps_remaining other
    rw [outcome_next hn] at hrest
    rw [remaining_next hn, steps, hn, Option.bind_some]
    exact hrest
termination_by writer.remaining
decreasing_by
  have hless := remaining_next hn
  omega

end Writer

namespace Heading

def deepen (depth : Nat) (heading : Heading) : Heading :=
  { heading with depth := heading.depth + depth }

theorem line_deepen (depth : Nat) (heading : Heading) :
    (heading.deepen depth).line = indentation depth ++ heading.line := by
  have hspaces : indentation (heading.depth + depth) =
      indentation depth ++ indentation heading.depth := by
    rw [indentation, indentation, indentation, ← String.ofList_append, ← List.replicate_add]
    congr 2
    omega
  simp only [line, words, deepen, hspaces, String.append_assoc]

end Heading

namespace Tree

theorem ownHeadings_deepen (depth more : Nat) (tree : Tree) :
    tree.ownHeadings (depth + more) = (tree.ownHeadings depth).map (Heading.deepen more) := by
  rw [ownHeadings, ownHeadings]
  cases tree.aggregateName? with
  | none => rfl
  | some name =>
    have hdepth : depth + more + 1 = depth + 1 + more := by omega
    rw [hdepth]
    rfl

-- A tree further to the right is the same tree, with each of its lines further to the right.
theorem headings_deepen (tree : Tree) (depth more : Nat) :
    tree.headings (depth + more) = (tree.headings depth).map (Heading.deepen more) := by
  induction tree using of_children generalizing depth with
  | h tree ih =>
    have hdepth : depth + more + 1 = depth + 1 + more := by omega
    have hchildren : tree.children.flatMap (headings (depth + more + 1)) =
        (tree.children.flatMap (headings (depth + 1))).map (Heading.deepen more) := by
      rw [List.map_flatMap, hdepth]
      exact List.flatMap_congr fun child hm => ih child hm (depth + 1)
    rw [headings_eq, headings_eq depth, ownHeadings_deepen, hchildren, List.map_append]

theorem headings_visible (tree : Tree) (depth : Nat) :
    tree.visible.headings depth = tree.headings depth := by
  induction tree using of_children generalizing depth with
  | h tree ih =>
    rw [headings_eq, headings_eq depth tree, ownHeadings_visible, children_visible,
      List.flatMap_map]
    exact congrArg _ (List.flatMap_congr fun child hm => ih child hm (depth + 1))

theorem outlineAt_eq_ended (tree : Tree) (depth : Nat) :
    tree.outlineAt depth = Text.ended ((tree.headings depth).map Heading.line) := by
  rw [outlineAt_eq_writeAll, Heading.writeAll_eq_ended]

-- The stack of the writer and the recursion come to the same text, with one step to a node: the
-- lines of the node itself, and behind them its children one level deeper. A tree that begins
-- deeper has all its lines further to the right, and owned sub-trees have no part in any of it.
theorem outlineAt_preorder (tree : Tree) (depth : Nat) :
    (Writer.start depth tree).steps (tree.reached depth).length =
      some ⟨tree.outlineAt depth, []⟩ ∧
    tree.outlineAt depth = Text.ended ((tree.ownHeadings depth).map Heading.line) ++
      String.join (tree.children.map (outlineAt (depth + 1))) ∧
    tree.outlineAt depth = Text.ended ((tree.headings depth).map Heading.line) ∧
    (∀ more, tree.outlineAt (depth + more) = Text.ended ((tree.headings depth).map fun heading =>
      String.ofList (List.replicate (4 * more) ' ') ++ heading.line)) ∧
    tree.visible.outlineAt depth = tree.outlineAt depth := by
  refine ⟨?_, ?_, tree.outlineAt_eq_ended depth, fun more => ?_, ?_⟩
  · have hsteps := (Writer.start depth tree).steps_remaining
    simpa [Writer.remaining, Writer.outcome, Writer.start] using hsteps
  · rw [outlineAt_eq, ownText_eq_writeAll, Heading.writeAll_eq_ended]
  · rw [outlineAt_eq_ended, headings_deepen, List.map_map]
    exact congrArg Text.ended (List.map_congr_left fun heading _ => heading.line_deepen more)
  · rw [outlineAt_eq_ended, outlineAt_eq_ended, headings_visible]

end Tree

end ScriptIR
