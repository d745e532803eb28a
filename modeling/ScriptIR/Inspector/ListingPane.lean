import ScriptIR.Inspector.Paging
import ScriptIR.Inspector.Theme
import ScriptIR.Screen.Grid
import ScriptIR.Text.Lines

namespace ScriptIR.Inspector

open Screen

-- A pane that shows a list of lines made elsewhere.
structure ListingPane where
  title : List Char
  lines : List Line
  -- shown where there are no lines
  placeholder : List Char
  focused : Bool

namespace ListingPane

-- Without lines there is nothing to scroll, and the offset stays as it is.
def settle (pane : ListingPane) (height scroll : Nat) : Nat :=
  if pane.lines.isEmpty then scroll else clamp scroll pane.lines.length (visibleLines height)

def shown (pane : ListingPane) (height scroll : Nat) : List Line :=
  (pane.lines.drop (pane.settle height scroll)).take (visibleLines height)

-- Lines keep one cell of distance from the border, and the placeholder none.
def draw (pane : ListingPane) (scroll width height : Nat) : Grid :=
  let border : Border := ⟨pane.title, Theme.border pane.focused⟩
  if pane.lines.isEmpty then
    let below : Style := .colour Theme.comment
    let lines : List Line := (Text.lines pane.placeholder).map fun text => [⟨text, .none⟩]
    border.around below (fun width inner =>
      page (emptyRow below width) inner (lines.map writeLeft)) width height
  else
    let indented (line : Line) (row : Row) : Row :=
      row.take 1 ++ writeFit line.glyphs (row.drop 1)
    border.around .none (fun width inner =>
      page (emptyRow .none width) inner ((pane.shown height scroll).map indented)) width height

end ListingPane

end ScriptIR.Inspector
