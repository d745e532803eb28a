import ScriptIR.Screen.Cell

namespace ScriptIR.Screen

-- A rectangle of cells, row by row from the top.
abbrev Grid := List Row

-- The side by side and the one above the other of two grids that fit together.
def beside (left right : Grid) : Grid := List.zipWith (· ++ ·) left right

def above (upper lower : Grid) : Grid := upper ++ lower

-- A grid of so many rows, with so many cells in each of them.
structure Sized (grid : Grid) (width height : Nat) : Prop where
  rows : grid.length = height
  cells : ∀ row ∈ grid, row.length = width

-- The cell in one column of one row.
def cell? (grid : Grid) (x y : Nat) : Option Cell := grid[y]?.bind fun row => row[x]?

section Sized

variable {grid other upper lower left right : Grid} {width height first second x y : Nat}

theorem Sized.cell?_eq_none (h : Sized grid width height) (hout : width ≤ x ∨ height ≤ y) :
    cell? grid x y = none := by
  unfold cell?
  cases hrow : grid[y]? with
  | none => rfl
  | some row =>
    have hy := h.rows ▸ (List.getElem?_eq_some_iff.mp hrow).1
    have hx := h.cells row (List.mem_of_getElem? hrow)
    exact List.getElem?_eq_none (by omega)

theorem Sized.exists_cell (h : Sized grid width height) (hx : x < width) (hy : y < height) :
    ∃ cell, cell? grid x y = some cell := by
  have hlength : y < grid.length := h.rows ▸ hy
  have hwidth := h.cells _ (List.getElem_mem hlength)
  rw [cell?, List.getElem?_eq_getElem hlength, Option.bind_some,
    List.getElem?_eq_getElem (hwidth ▸ hx)]
  exact ⟨_, rfl⟩

-- A grid is what is in its cells.
theorem Sized.ext (h : Sized grid width height) (ho : Sized other width height)
    (hcells : ∀ x y, x < width → y < height → cell? grid x y = cell? other x y) :
    grid = other := by
  refine List.ext_getElem (h.rows.trans ho.rows.symm) fun y hy hyo => ?_
  have hwidth := h.cells _ (List.getElem_mem hy)
  have hwidtho := ho.cells _ (List.getElem_mem hyo)
  refine List.ext_getElem (hwidth.trans hwidtho.symm) fun x hx hxo => ?_
  have hcell := hcells x y (hwidth ▸ hx) (h.rows ▸ hy)
  rw [cell?, cell?, List.getElem?_eq_getElem hy, List.getElem?_eq_getElem hyo, Option.bind_some,
    Option.bind_some, List.getElem?_eq_getElem hx, List.getElem?_eq_getElem hxo] at hcell
  exact Option.some.inj hcell

-- Two grids that share a height, or a width, between them.
theorem sized_above (hle : first ≤ height) (hu : Sized upper width first)
    (hl : Sized lower width (height - first)) : Sized (above upper lower) width height where
  rows := by rw [above, List.length_append, hu.rows, hl.rows, Nat.add_sub_of_le hle]
  cells row hm := (List.mem_append.mp hm).elim (hu.cells row) (hl.cells row)

theorem sized_beside (hle : first ≤ width) (hl : Sized left first height)
    (hr : Sized right (width - first) height) : Sized (beside left right) width height where
  rows := by rw [beside, List.length_zipWith, hl.rows, hr.rows, Nat.min_self]
  cells row hm := by
    obtain ⟨y, hy, rfl⟩ := List.mem_iff_getElem.mp hm
    simp only [beside, List.getElem_zipWith, List.length_append]
    rw [hl.cells _ (List.getElem_mem _), hr.cells _ (List.getElem_mem _), Nat.add_sub_of_le hle]

theorem cell?_above (hu : Sized upper width height) (lower : Grid) (x y : Nat) :
    cell? (above upper lower) x y =
      if y < height then cell? upper x y else cell? lower x (y - height) := by
  rw [cell?, above, List.getElem?_append, hu.rows]
  split <;> rfl

theorem cell?_beside (hl : Sized left first height) (hr : Sized right second height) (x y : Nat) :
    cell? (beside left right) x y =
      if x < first then cell? left x y else cell? right (x - first) y := by
  have hrows : (beside left right).length = height := by
    rw [beside, List.length_zipWith, hl.rows, hr.rows, Nat.min_self]
  by_cases hy : y < height
  · have hyl : y < left.length := hl.rows ▸ hy
    have hyr : y < right.length := hr.rows ▸ hy
    have hyb : y < (List.zipWith (· ++ ·) left right).length := hrows ▸ hy
    simp only [cell?, beside, List.getElem?_eq_getElem hyb, List.getElem?_eq_getElem hyl,
      List.getElem?_eq_getElem hyr, Option.bind_some, List.getElem_zipWith]
    rw [List.getElem?_append, hl.cells _ (List.getElem_mem hyl)]
  · have hout := Nat.le_of_not_lt hy
    rw [hl.cell?_eq_none (.inr hout), hr.cell?_eq_none (.inr hout), ite_self, cell?,
      List.getElem?_eq_none (hrows ▸ hout), Option.bind_none]

end Sized

-- The first part of a length that is cut at a percentage. The second part is
-- what remains.
def share (percent length : Nat) : Nat := (length * percent + 50) / 100

-- An empty row in one style.
def emptyRow (style : Style) (width : Nat) : Row :=
  List.replicate width ⟨' ', style.laidOver .plain⟩

theorem length_emptyRow (style : Style) (width : Nat) : (emptyRow style width).length = width :=
  List.length_replicate

-- Rows of which the first have something written on them.
def page (row : Row) (height : Nat) (writers : List (Row → Row)) : Grid :=
  match height, writers with
  | 0, _ => []
  | height + 1, [] => row :: page row height []
  | height + 1, writer :: rest => writer row :: page row height rest

theorem sized_page (row : Row) (height : Nat) (writers : List (Row → Row))
    (h : ∀ writer ∈ writers, (writer row).length = row.length) :
    Sized (page row height writers) row.length height := by
  fun_induction page row height writers with
  | case1 => exact ⟨rfl, fun _ hm => nomatch hm⟩
  | case2 height ih =>
    have hrest := ih h
    exact ⟨congrArg (· + 1) hrest.rows, List.forall_mem_cons.mpr ⟨rfl, hrest.cells⟩⟩
  | case3 height writer rest ih =>
    obtain ⟨hwriter, hwriters⟩ := List.forall_mem_cons.mp h
    have hrest := ih hwriters
    exact ⟨congrArg (· + 1) hrest.rows, List.forall_mem_cons.mpr ⟨hwriter, hrest.cells⟩⟩

-- Lines on empty rows, in whatever way they are written there.
theorem sized_lines {writer : Line → Row → Row}
    (h : ∀ line row, (writer line row).length = row.length) (style : Style) (lines : List Line)
    (width height : Nat) :
    Sized (page (emptyRow style width) height (lines.map writer)) width height := by
  have hpage := sized_page (emptyRow style width) height (lines.map writer)
    (List.forall_mem_map.mpr fun line _ => h line _)
  rwa [length_emptyRow] at hpage

-- The border of a pane with its title.
structure Border where
  title : List Char
  style : Style

namespace Border

private def edge (look : Look) (symbol : Char) : Cell := ⟨symbol, look⟩

-- One row of the border or of what is inside it. In a row of one cell the left
-- corner wins.
private def bounded (left : Cell) (middle : Nat → Row) (right : Cell) : Nat → Row
  | 0 => []
  | 1 => [left]
  | width + 2 => left :: middle width ++ [right]

-- A border around a grid of two rows and two columns less. The style below lies
-- under the border, and the title is written onto it with no style of its own.
def around (border : Border) (below : Style) (inside : Nat → Nat → Grid) (width height : Nat) :
    Grid :=
  let look := border.style.laidOver (below.laidOver .plain)
  let title : List Glyph := (border.title.filter (· ≠ '\n')).map (⟨·, Style.none⟩)
  let line (room : Nat) : Row := List.replicate room (edge look '─')
  let top := bounded (edge look '┌') (fun room => writeFit title (line room)) (edge look '┐') width
  let bottom := bounded (edge look '└') line (edge look '┘') width
  let side (row : Row) : Row := bounded (edge look '│') (fun _ => row) (edge look '│') width
  match height with
  | 0 => []
  | 1 => [top]
  | height + 2 => top :: (inside (width - 2) height).map side ++ [bottom]

private theorem length_bounded {left right : Cell} {middle : Nat → Row} {width : Nat}
    (h : (middle (width - 2)).length = width - 2) :
    (bounded left middle right width).length = width := by
  match width with
  | 0 | 1 => rfl
  | width + 2 =>
    rw [bounded, List.length_append, List.length_cons]
    exact congrArg (· + 2) h

private theorem look_of_mem_bounded {look : Look} {first last : Char} {middle : Nat → Row}
    {width : Nat} {cell : Cell} (hm : ∀ room, ∀ cell ∈ middle room, cell.look = look)
    (h : cell ∈ bounded (edge look first) middle (edge look last) width) : cell.look = look := by
  match width with
  | 0 => exact nomatch h
  | 1 =>
    rw [List.mem_singleton.mp h]
    rfl
  | width + 2 =>
    obtain h | h := List.mem_append.mp h
    · obtain rfl | h := List.mem_cons.mp h
      · rfl
      · exact hm width cell h
    · rw [List.mem_singleton.mp h]
      rfl

-- The two ends of a row, whatever is between them.
private theorem look_of_end_bounded {look : Look} {first last : Char} {middle : Nat → Row}
    {width x : Nat} {cell : Cell} (h : (middle (width - 2)).length = width - 2)
    (hcell : (bounded (edge look first) middle (edge look last) width)[x]? = some cell)
    (hx : x = 0 ∨ x + 1 = width) : cell.look = look := by
  match width with
  | 0 => exact nomatch hcell
  | 1 =>
    obtain rfl : x = 0 := by omega
    cases hcell
    rfl
  | width + 2 =>
    obtain rfl | hlast := hx
    · cases hcell
      rfl
    · have hlength : (edge look first :: middle width).length = x := by
        have hmiddle : (middle width).length = width := h
        rw [List.length_cons, hmiddle]
        omega
      rw [bounded, List.getElem?_append_right (Nat.le_of_eq hlength), hlength, Nat.sub_self]
        at hcell
      cases hcell
      rfl

private theorem look_of_mem_line {look : Look} {room : Nat} {symbol : Char} {cell : Cell}
    (h : cell ∈ List.replicate room (edge look symbol)) : cell.look = look := by
  rw [List.eq_of_mem_replicate h]
  rfl

private theorem look_of_mem_titled {title : List Char} {look : Look} {room : Nat} {cell : Cell}
    (ht : ∀ c ∈ title, Text.isWide c = false)
    (h : cell ∈ writeFit ((title.filter (· ≠ '\n')).map (⟨·, Style.none⟩))
      (List.replicate room (edge look '─'))) : cell.look = look := by
  have hnarrow : ∀ glyph ∈ (title.filter (· ≠ '\n')).map (Glyph.mk · Style.none),
      Text.isWide glyph.symbol = false ∧ glyph.style = .none := by
    intro glyph hm
    obtain ⟨c, hc, rfl⟩ := List.mem_map.mp hm
    exact ⟨ht c (List.mem_filter.mp hc).1, rfl⟩
  have hlook := List.mem_map_of_mem (f := Cell.look) h
  rw [map_look_writeFit hnarrow] at hlook
  obtain ⟨under, hu, hl⟩ := List.mem_map.mp hlook
  exact hl.symm.trans (look_of_mem_line hu)

-- What the whole of a border looks like.
def look (border : Border) (below : Style) : Look := border.style.laidOver (below.laidOver .plain)

variable {border : Border} {below : Style} {inside : Nat → Nat → Grid} {width height : Nat}

theorem sized_around (h : Sized (inside (width - 2) (height - 2)) (width - 2) (height - 2)) :
    Sized (border.around below inside width height) width height := by
  match height with
  | 0 => exact ⟨rfl, fun _ hm => nomatch hm⟩
  | 1 =>
    refine ⟨rfl, List.forall_mem_singleton.mpr (length_bounded ?_)⟩
    rw [length_writeFit, List.length_replicate]
  | height + 2 =>
    have hrows : (inside (width - 2) height).length = height := h.rows
    simp only [around]
    constructor
    · rw [List.length_append, List.length_cons, List.length_map, hrows]
      rfl
    · refine List.forall_mem_append.mpr ⟨List.forall_mem_cons.mpr ⟨length_bounded ?_, ?_⟩,
        List.forall_mem_singleton.mpr (length_bounded List.length_replicate)⟩
      · rw [length_writeFit, List.length_replicate]
      · rintro row hm
        obtain ⟨inner, hinner, rfl⟩ := List.mem_map.mp hm
        exact length_bounded (h.cells inner hinner)

-- A border looks the same all around, under its title as well.
theorem look_around {x y : Nat} {cell : Cell}
    (h : Sized (inside (width - 2) (height - 2)) (width - 2) (height - 2))
    (ht : ∀ c ∈ border.title, Text.isWide c = false)
    (hcell : cell? (border.around below inside width height) x y = some cell)
    (hring : x = 0 ∨ x + 1 = width ∨ y = 0 ∨ y + 1 = height) : cell.look = border.look below := by
  obtain ⟨row, hrow, hcell⟩ := Option.bind_eq_some_iff.mp hcell
  have hmem := List.mem_of_getElem? hcell
  match height, y with
  | 0, _ | 1, _ + 1 => exact nomatch hrow
  | 1, 0 | height + 2, 0 =>
    cases hrow
    exact look_of_mem_bounded (fun _ _ => look_of_mem_titled ht) hmem
  | height + 2, y + 1 =>
    have hrows : (inside (width - 2) height).length = height := h.rows
    simp only [around, List.cons_append, List.getElem?_cons_succ, List.getElem?_append,
      List.length_map, hrows] at hrow
    split at hrow
    · obtain ⟨inner, hinner, rfl⟩ := List.mem_map.mp (List.mem_of_getElem? hrow)
      exact look_of_end_bounded (h.cells inner hinner) hcell (by omega)
    · cases List.mem_singleton.mp (List.mem_of_getElem? hrow)
      exact look_of_mem_bounded (fun _ _ => look_of_mem_line) hmem

end Border

end ScriptIR.Screen
