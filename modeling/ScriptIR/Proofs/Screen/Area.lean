import Mathlib
import ScriptIR.Screen.Grid

namespace ScriptIR.Screen

theorem share_le {percent : Nat} (h : percent ≤ 100) (length : Nat) :
    share percent length ≤ length := by
  have hpart : length * percent ≤ length * 100 := Nat.mul_le_mul_left length h
  unfold share
  omega

-- A part of a screen: the first of its cells, and how many columns and rows it has.
structure Area where
  left : Nat
  top : Nat
  width : Nat
  height : Nat
deriving DecidableEq

namespace Area

variable {area : Area} {part screen : Grid} {width height : Nat}

def Holds (area : Area) (x y : Nat) : Prop :=
  area.left ≤ x ∧ x < area.left + area.width ∧ area.top ≤ y ∧ y < area.top + area.height

instance (area : Area) (x y : Nat) : Decidable (area.Holds x y) := by
  unfold Holds
  infer_instance

-- The cells of an area that have a neighbour outside.
def Edges (area : Area) (x y : Nat) : Prop :=
  area.Holds x y ∧ (x = area.left ∨ x + 1 = area.left + area.width ∨
    y = area.top ∨ y + 1 = area.top + area.height)

-- All of a screen.
def whole (width height : Nat) : Area := ⟨0, 0, width, height⟩

-- One area above the other, or beside it, with a percentage of what there is.
def rows (percent : Nat) (area : Area) : Area × Area :=
  let upper := share percent area.height
  (⟨area.left, area.top, area.width, upper⟩,
    ⟨area.left, area.top + upper, area.width, area.height - upper⟩)

def columns (percent : Nat) (area : Area) : Area × Area :=
  let first := share percent area.width
  (⟨area.left, area.top, first, area.height⟩,
    ⟨area.left + first, area.top, area.width - first, area.height⟩)

-- The last row, and all that is above it.
def lastRow (area : Area) : Area × Area :=
  let upper := area.height - min area.height 1
  (⟨area.left, area.top, area.width, upper⟩,
    ⟨area.left, area.top + upper, area.width, min area.height 1⟩)

-- Two areas that have the cells of a third one between them.
structure Splits (area : Area) (parts : Area × Area) : Prop where
  holds_iff : ∀ x y, area.Holds x y ↔ parts.1.Holds x y ∨ parts.2.Holds x y
  disjoint : ∀ x y, parts.1.Holds x y → ¬ parts.2.Holds x y

theorem splits_rows {percent : Nat} (h : percent ≤ 100) (area : Area) :
    area.Splits (area.rows percent) := by
  have hle := share_le h area.height
  constructor <;> intro x y <;> simp only [Holds, rows] <;> omega

theorem splits_columns {percent : Nat} (h : percent ≤ 100) (area : Area) :
    area.Splits (area.columns percent) := by
  have hle := share_le h area.width
  constructor <;> intro x y <;> simp only [Holds, columns] <;> omega

theorem splits_lastRow (area : Area) : area.Splits area.lastRow := by
  constructor <;> intro x y <;> simp only [Holds, lastRow] <;> omega

variable {ι : Type} {areas : ι → Area} {parts others : List ι} {x y : Nat}

-- Some parts that have each cell of an area once, and no cells beside it.
def Tiles (area : Area) (areas : ι → Area) (parts : List ι) : Prop :=
  ∀ x y, parts.countP (fun part => (areas part).Holds x y) = if area.Holds x y then 1 else 0

theorem tiles_singleton (areas : ι → Area) (part : ι) : (areas part).Tiles areas [part] := by
  intro x y
  simp only [List.countP_singleton, decide_eq_true_eq]

theorem Splits.tiles {pair : Area × Area} (h : area.Splits pair) (hp : pair.1.Tiles areas parts)
    (ho : pair.2.Tiles areas others) : area.Tiles areas (parts ++ others) := by
  intro x y
  have hiff := h.holds_iff x y
  have hnot := h.disjoint x y
  rw [List.countP_append, hp, ho]
  by_cases hfirst : pair.1.Holds x y
  · rw [if_pos hfirst, if_neg (hnot hfirst), if_pos (hiff.mpr (.inl hfirst))]
  · by_cases hsecond : pair.2.Holds x y
    · rw [if_neg hfirst, if_pos hsecond, if_pos (hiff.mpr (.inr hsecond))]
    · rw [if_neg hfirst, if_neg hsecond, if_neg fun hn => (hiff.mp hn).elim hfirst hsecond]

theorem Tiles.existsUnique (h : area.Tiles areas parts) (hall : ∀ part, part ∈ parts)
    (hxy : area.Holds x y) : ∃! part, (areas part).Holds x y := by
  have hcount := h x y
  rw [if_pos hxy, List.countP_eq_length_filter] at hcount
  obtain ⟨part, hpart⟩ := List.length_eq_one_iff.mp hcount
  have hiff (other : ι) : (areas other).Holds x y ↔ other = part := by
    have hmem : other ∈ parts.filter (fun part => (areas part).Holds x y) ↔
        (areas other).Holds x y := by
      simp [hall other]
    rw [← hmem, hpart, List.mem_singleton]
  exact ⟨part, (hiff part).mpr rfl, fun other => (hiff other).mp⟩

theorem Tiles.holds {part : ι} (h : area.Tiles areas parts) (hm : part ∈ parts)
    (hxy : (areas part).Holds x y) : area.Holds x y := by
  by_contra hn
  have hcount := h x y
  rw [if_neg hn, List.countP_eq_zero] at hcount
  exact hcount part hm (decide_eq_true hxy)

-- What there is of a screen in an area.
def crop (area : Area) (screen : Grid) : Grid :=
  ((screen.drop area.top).take area.height).map fun row => (row.drop area.left).take area.width

-- Puts a grid into an area of a screen. What is outside stays as it is.
def stamp (area : Area) (part screen : Grid) : Grid :=
  screen.mapIdx fun y row => row.mapIdx fun x cell =>
    if area.Holds x y then (cell? part (x - area.left) (y - area.top)).getD cell else cell

theorem sized_crop (h : Sized screen width height) (hw : area.left + area.width ≤ width)
    (hh : area.top + area.height ≤ height) :
    Sized (area.crop screen) area.width area.height where
  rows := by
    rw [crop, List.length_map, List.length_take, List.length_drop, h.rows]
    omega
  cells row hm := by
    obtain ⟨under, hu, rfl⟩ := List.mem_map.mp hm
    have hwidth := h.cells under (List.mem_of_mem_drop (List.mem_of_mem_take hu))
    rw [List.length_take, List.length_drop, hwidth]
    omega

theorem cell?_crop (hx : x < area.width) (hy : y < area.height) :
    cell? (area.crop screen) x y = cell? screen (area.left + x) (area.top + y) := by
  rw [cell?, crop, List.getElem?_map, List.getElem?_take_of_lt hy, List.getElem?_drop, cell?]
  cases screen[area.top + y]? with
  | none => rfl
  | some row => exact (List.getElem?_take_of_lt hx).trans List.getElem?_drop

theorem sized_stamp (h : Sized screen width height) (area : Area) (part : Grid) :
    Sized (area.stamp part screen) width height where
  rows := by rw [stamp, List.length_mapIdx, h.rows]
  cells row hm := by
    obtain ⟨y, hy, rfl⟩ := List.mem_mapIdx.mp hm
    rw [List.length_mapIdx]
    exact h.cells _ (List.getElem_mem hy)

theorem cell?_stamp (area : Area) (part screen : Grid) (x y : Nat) :
    cell? (area.stamp part screen) x y = (cell? screen x y).map fun cell =>
      if area.Holds x y then (cell? part (x - area.left) (y - area.top)).getD cell else cell := by
  change (area.stamp part screen)[y]?.bind (·[x]?) = (screen[y]?.bind (·[x]?)).map _
  rw [stamp, List.getElem?_mapIdx]
  cases screen[y]? with
  | none => rfl
  | some row => exact List.getElem?_mapIdx

theorem cell?_stamp_of_not_holds (h : ¬ area.Holds x y) :
    cell? (area.stamp part screen) x y = cell? screen x y := by
  simp only [cell?_stamp, if_neg h, Option.map_id']

-- A grid that fits is all there is to see in its area.
theorem cell?_stamp_of_holds (h : area.Holds x y)
    (hp : Sized part area.width area.height) (hs : Sized screen width height) (hx : x < width)
    (hy : y < height) : cell? (area.stamp part screen) x y =
      cell? part (x - area.left) (y - area.top) := by
  obtain ⟨under, hu⟩ := hs.exists_cell hx hy
  obtain ⟨cell, hc⟩ : ∃ cell, cell? part (x - area.left) (y - area.top) = some cell := by
    unfold Holds at h
    exact hp.exists_cell (by omega) (by omega)
  rw [cell?_stamp, hu, Option.map_some, if_pos h, hc, Option.getD_some]

end Area

end ScriptIR.Screen
