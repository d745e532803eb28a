import ScriptIR.Inspector.Highlight
import ScriptIR.Inspector.Paging
import ScriptIR.Screen.Grid
import ScriptIR.Text.Lines

namespace ScriptIR.Inspector

open Screen

-- The pane that shows a source with numbered lines.
structure SourcePane where
  source : String
  -- lines that carry a diagnostic
  marked : List Nat
  focused : Bool

namespace SourcePane

def sourceLines (pane : SourcePane) : List (List Char) := Text.lines pane.source.toList

def settle (pane : SourcePane) (height scroll : Nat) : Nat :=
  clamp scroll pane.sourceLines.length (visibleLines height)

def numbered (pane : SourcePane) (number : Nat) (text : List Char) : Line :=
  let style : Style :=
    if pane.marked.contains number then .boldColour Theme.error else .colour Theme.comment
  ⟨Text.padLeft 4 (Nat.repr number).toList ++ [' '], style⟩ :: highlight text

-- The lines from an offset on, each with its number.
def shown (pane : SourcePane) (height scroll : Nat) : List Line :=
  let offset := pane.settle height scroll
  ((pane.sourceLines.zipIdx 1).drop offset |>.take (visibleLines height)).map
    fun (text, number) => pane.numbered number text

def draw (pane : SourcePane) (scroll width height : Nat) : Grid :=
  let border : Border := ⟨" Source ".toList, Theme.border pane.focused⟩
  border.around .none (fun width inner =>
    page (emptyRow .none width) inner ((pane.shown height scroll).map writeLeft)) width height

end SourcePane

end ScriptIR.Inspector
