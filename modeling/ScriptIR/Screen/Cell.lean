import ScriptIR.Screen.Style
import ScriptIR.Text.Width

namespace ScriptIR.Screen

-- One cell of a terminal.
structure Cell where
  symbol : Char
  look : Look
deriving DecidableEq

def Cell.blank : Cell := ⟨' ', .plain⟩

-- A stretch of text in one style, and a line of such stretches.
structure Span where
  text : List Char
  style : Style
deriving DecidableEq

abbrev Line := List Span

-- The text of a line.
def Line.text (line : Line) : List Char := line.flatMap Span.text

-- One character to be written.
structure Glyph where
  symbol : Char
  style : Style
deriving DecidableEq

namespace Glyph

def width (glyph : Glyph) : Nat := if Text.isWide glyph.symbol then 2 else 1

-- The style is laid over what the cell looked like.
def onto (glyph : Glyph) (cell : Cell) : Cell := ⟨glyph.symbol, glyph.style.laidOver cell.look⟩

end Glyph

-- Line feeds leave no trace on a screen.
def Span.glyphs (span : Span) : List Glyph :=
  (span.text.filter (· ≠ '\n')).map fun c => ⟨c, span.style⟩

def Line.glyphs (line : Line) : List Glyph := line.flatMap Span.glyphs

abbrev Row := List Cell

-- The part of a row of glyphs that fits. Nothing is written behind the first
-- glyph that does not.
def fit : Nat → List Glyph → List Glyph
  | _, [] => []
  | room, glyph :: rest =>
    if glyph.width ≤ room then glyph :: fit (room - glyph.width) rest else []

theorem mem_of_mem_fit {room : Nat} {glyphs : List Glyph} {glyph : Glyph}
    (h : glyph ∈ fit room glyphs) : glyph ∈ glyphs := by
  fun_induction fit room glyphs with
  | case1 => exact h
  | case2 room first rest _ ih =>
    obtain rfl | hm := List.mem_cons.mp h
    · exact List.mem_cons_self
    · exact List.mem_cons_of_mem _ (ih hm)
  | case3 => cases h

def totalWidth : List Glyph → Nat
  | [] => 0
  | glyph :: rest => glyph.width + totalWidth rest

-- Writes over a row from its left end. A wide glyph takes a second cell, which
-- it leaves blank.
def write : List Glyph → Row → Row
  | [], row => row
  | _, [] => []
  | glyph :: rest, cell :: row =>
    if Text.isWide glyph.symbol then
      match row with
      | [] => [cell]
      | _ :: row => glyph.onto cell :: .blank :: write rest row
    else glyph.onto cell :: write rest row

theorem length_write (glyphs : List Glyph) (row : Row) :
    (write glyphs row).length = row.length := by
  fun_induction write glyphs row <;> simp_all

-- Narrow glyphs with no style of their own change what a row says and not how it looks.
theorem map_look_write {glyphs : List Glyph} {row : Row}
    (h : ∀ glyph ∈ glyphs, Text.isWide glyph.symbol = false ∧ glyph.style = .none) :
    (write glyphs row).map Cell.look = row.map Cell.look := by
  fun_induction write glyphs row with
  | case1 => rfl
  | case2 => rfl
  | case3 glyph rest cell hw => exact absurd hw (by simp [(h glyph List.mem_cons_self).1])
  | case4 glyph rest cell hw => exact absurd hw (by simp [(h glyph List.mem_cons_self).1])
  | case5 glyph rest cell row _ ih =>
    have hlook : (glyph.onto cell).look = cell.look := by
      rw [Glyph.onto, (h glyph List.mem_cons_self).2, Style.none_laidOver]
    rw [List.map_cons, List.map_cons, hlook, ih fun other hm => h other (List.mem_cons_of_mem _ hm)]

-- Writes as much as fits.
def writeFit (glyphs : List Glyph) (row : Row) : Row := write (fit row.length glyphs) row

theorem length_writeFit (glyphs : List Glyph) (row : Row) :
    (writeFit glyphs row).length = row.length :=
  length_write _ row

theorem map_look_writeFit {glyphs : List Glyph} {row : Row}
    (h : ∀ glyph ∈ glyphs, Text.isWide glyph.symbol = false ∧ glyph.style = .none) :
    (writeFit glyphs row).map Cell.look = row.map Cell.look :=
  map_look_write fun glyph hm => h glyph (mem_of_mem_fit hm)

-- A glyph that no row of this width can hold is left out. Those behind it still
-- have their chance.
def holdable (width : Nat) (glyphs : List Glyph) : List Glyph :=
  glyphs.filter (·.width ≤ width)

-- A line of a paragraph, at the left end of a row.
def writeLeft (line : Line) (row : Row) : Row :=
  writeFit (holdable row.length line.glyphs) row

theorem length_writeLeft (line : Line) (row : Row) : (writeLeft line row).length = row.length :=
  length_writeFit _ row

-- A line of a paragraph, at the right end. A line that is too long starts at
-- the left end and loses its own right end.
def writeRight (line : Line) (row : Row) : Row :=
  let glyphs := fit row.length (holdable row.length line.glyphs)
  let room := row.length - totalWidth glyphs
  row.take room ++ write glyphs (row.drop room)

theorem length_writeRight (line : Line) (row : Row) :
    (writeRight line row).length = row.length := by
  simp only [writeRight, List.length_append, length_write, List.length_take, List.length_drop]
  omega

-- What a row says, cell by cell.
def rowText (row : Row) : String := String.ofList (row.map Cell.symbol)

-- Neighbouring cells of one look, counted.
def runs : Row → List (Nat × Look)
  | [] => []
  | cell :: row =>
    match runs row with
    | (count, look) :: rest =>
      if look = cell.look then (count + 1, look) :: rest else (1, cell.look) :: (count, look) :: rest
    | [] => [(1, cell.look)]

end ScriptIR.Screen
