import Mathlib
import ScriptIR.Inspector.Paging
import ScriptIR.Inspector.Session

namespace ScriptIR.Inspector

open Session

section clamp

variable (wanted total visible : Nat)

theorem clamp_le_last : clamp wanted total visible ≤ total - visible := by
  unfold clamp
  split <;> omega

theorem clamp_le : clamp wanted total visible ≤ wanted := by
  unfold clamp
  split <;> omega

theorem clamp_clamp : clamp (clamp wanted total visible) total visible = clamp wanted total visible := by
  unfold clamp
  split <;> omega

-- From far below one comes to the last page.
theorem clamp_farthest : clamp farthest total visible = min farthest (total - visible) := by
  unfold clamp
  split <;> omega

end clamp

-- The ways in which keys move an offset.
inductive Move where
  | back (count : Nat)
  | forth (count : Nat)
  | top
  | bottom
deriving DecidableEq

def Move.apply : Move → Nat → Nat
  | .back count, offset => offset - count
  | .forth count, offset => min (offset + count) farthest
  | .top, _ => 0
  | .bottom, _ => farthest

theorem Move.apply_le_farthest (move : Move) {offset : Nat} (h : offset ≤ farthest) :
    move.apply offset ≤ farthest := by
  cases move with
  | back count => exact (Nat.sub_le offset count).trans h
  | forth count => exact Nat.min_le_right _ _
  | top => exact Nat.zero_le _
  | bottom => exact Nat.le_refl _

def Key.move? : Key → Option Move
  | .up => some (.back 1)
  | .down => some (.forth 1)
  | .pageUp => some (.back pageSize)
  | .pageDown => some (.forth pageSize)
  | .home => some .top
  | .toEnd => some .bottom
  | .tab | .backTab | .char _ => none

-- A pane by itself, with the number of its lines.
structure Pane where
  total : Nat
  -- whether it stays where it is as long as it has no lines
  keeps : Bool
  offset : Nat
deriving DecidableEq

namespace Pane

-- All that a pane comes to know: the keys that are meant for it, how much of it is drawn, and
-- that it has other lines.
inductive Input where
  | move (move : Move)
  | draw (visible : Nat)
  | relist (total : Nat)
deriving DecidableEq

def settled (pane : Pane) (visible : Nat) : Nat :=
  if pane.keeps ∧ pane.total = 0 then pane.offset else clamp pane.offset pane.total visible

def step (pane : Pane) : Input → Pane
  | .move move => { pane with offset := move.apply pane.offset }
  | .draw visible => { pane with offset := pane.settled visible }
  | .relist total => { pane with total, offset := 0 }

def run (pane : Pane) (inputs : List Input) : Pane := inputs.foldl step pane

variable {pane : Pane}

theorem run_append (pane : Pane) (front back : List Input) :
    pane.run (front ++ back) = (pane.run front).run back :=
  List.foldl_append

theorem settled_of_pos (h : 0 < pane.total) (visible : Nat) :
    pane.settled visible = clamp pane.offset pane.total visible :=
  if_neg fun hn => absurd hn.2 h.ne'

theorem settled_le (pane : Pane) (visible : Nat) : pane.settled visible ≤ pane.offset := by
  unfold settled
  split
  · exact Nat.le_refl _
  · exact clamp_le _ _ _

-- Drawing a pane again changes nothing.
theorem step_draw_draw (pane : Pane) (visible : Nat) :
    (pane.step (.draw visible)).step (.draw visible) = pane.step (.draw visible) := by
  have hsettled : (pane.step (.draw visible)).settled visible = pane.settled visible := by
    simp only [settled, step]
    split
    · rfl
    · exact clamp_clamp _ _ _
  rw [step, hsettled]
  rfl

theorem step_le_farthest (h : pane.offset ≤ farthest) (input : Input) :
    (pane.step input).offset ≤ farthest := by
  cases input with
  | move move => exact move.apply_le_farthest h
  | draw visible => exact (pane.settled_le visible).trans h
  | relist total => exact Nat.zero_le _

-- No sequence of inputs leads an offset out of what it is counted with.
theorem run_le_farthest (h : pane.offset ≤ farthest) (inputs : List Input) :
    (pane.run inputs).offset ≤ farthest := by
  induction inputs generalizing pane with
  | nil => exact h
  | cons input rest ih => exact ih (step_le_farthest h input)

end Pane

end ScriptIR.Inspector
