import ScriptIR.Inspector.Theme
import ScriptIR.Screen.Grid

namespace ScriptIR.Inspector

open Screen

-- The bar at the bottom: counts and a message, and a reminder of the keys.
structure StatusBar where
  message : List Char
  tokens : Nat
  nodes : Nat
  instructions : Nat
  diagnostics : Nat
  revisit : Bool

namespace StatusBar

private def onBar (fg : Colour) (text : String) : Span :=
  ⟨text.toList, ⟨some fg, some Theme.bar, false⟩⟩

private def badge (bg : Colour) (text : String) : Span :=
  ⟨text.toList, ⟨some .black, some bg, true⟩⟩

private def key (text : String) : Span :=
  ⟨text.toList, ⟨some .black, some Theme.comment, false⟩⟩

private def hint (text : String) : Span := onBar Theme.text text

private def divider : Span := onBar Theme.comment "│"

def counts (bar : StatusBar) : Line :=
  let ground := if 0 < bar.diagnostics then Theme.secondary else Theme.primary
  let warnings :=
    if 0 < bar.diagnostics then [onBar Theme.error s!" {bar.diagnostics} warning(s) "] else []
  badge ground s!" {bar.tokens} tokens · {bar.nodes} nodes · {bar.instructions} instrs " ::
    warnings ++ [hint s!" {String.ofList bar.message} "]

def keys (bar : StatusBar) : Line :=
  [key " ⇥ ", hint " focus ", divider, hint " ", key " ↑/↓ ", hint " scroll ", divider, hint " ",
    key " r ", hint " revisit ", divider, hint " ", key "q", hint " quit ", divider,
    if bar.revisit then badge Theme.secondary " REVISIT " else badge Theme.success " SINGLE "]

def draw (bar : StatusBar) (width height : Nat) : Grid :=
  let ground : Style := ⟨none, some Theme.bar, false⟩
  let left := share 50 width
  beside (page (emptyRow ground left) height [writeLeft bar.counts])
    (page (emptyRow ground (width - left)) height [writeRight bar.keys])

end StatusBar

end ScriptIR.Inspector
