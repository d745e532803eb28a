import ScriptIR.Inspector.ListingPane
import ScriptIR.Inspector.Listings
import ScriptIR.Inspector.Session
import ScriptIR.Inspector.SourcePane
import ScriptIR.Inspector.StatusBar

namespace ScriptIR.Inspector.Session

open Screen

def sourcePane (session : Session) : SourcePane :=
  { source := session.source
    marked := session.compiled.lexed.diagnostics.map (·.place.line)
    focused := session.focus = .source }

def tokenPane (session : Session) : ListingPane :=
  { title := s!" Tokens ({session.compiled.lexed.tokens.length}) ".toList
    lines := session.pages.tokens
    placeholder := "(no tokens)".toList
    focused := session.focus = .tokens }

def treePane (session : Session) : ListingPane :=
  { title := " Syntax Tree ".toList
    lines := session.pages.tree
    placeholder := "(empty program)".toList
    focused := session.focus = .tree }

def listingPane (session : Session) : ListingPane :=
  { title := s!" IR ({session.compiled.instructions.length} instructions) ".toList
    lines := session.pages.instructions
    placeholder := "(no instructions)".toList
    focused := session.focus = .listing }

def statusBar (session : Session) : StatusBar :=
  { message := session.status.toList
    tokens := session.compiled.lexed.tokens.length
    nodes := session.compiled.tree.count
    instructions := session.compiled.instructions.length
    diagnostics := session.compiled.lexed.diagnostics.length
    revisit := session.mode = .revisit }

-- The sizes of the parts of a screen. Two columns stand above the status bar,
-- and each column has two panes.
structure Layout where
  leftWidth : Nat
  rightWidth : Nat
  sourceHeight : Nat
  tokenHeight : Nat
  treeHeight : Nat
  listingHeight : Nat
  barHeight : Nat

def layout (width height : Nat) : Layout :=
  let bar := min height 1
  let rows := height - bar
  { leftWidth := share 50 width
    rightWidth := width - share 50 width
    sourceHeight := share 60 rows
    tokenHeight := rows - share 60 rows
    treeHeight := share 50 rows
    listingHeight := rows - share 50 rows
    barHeight := bar }

-- Drawing brings every offset back to what its pane can show.
def settle (session : Session) (width height : Nat) : Session :=
  let parts := layout width height
  { session with
    scrolls :=
      { source := session.sourcePane.settle parts.sourceHeight session.scrolls.source
        tokens := session.tokenPane.settle parts.tokenHeight session.scrolls.tokens
        tree := session.treePane.settle parts.treeHeight session.scrolls.tree
        listing := session.listingPane.settle parts.listingHeight session.scrolls.listing } }

-- The whole screen of a session.
def draw (session : Session) (width height : Nat) : Grid :=
  let parts := layout width height
  let left := above
    (session.sourcePane.draw session.scrolls.source parts.leftWidth parts.sourceHeight)
    (session.tokenPane.draw session.scrolls.tokens parts.leftWidth parts.tokenHeight)
  let right := above
    (session.treePane.draw session.scrolls.tree parts.rightWidth parts.treeHeight)
    (session.listingPane.draw session.scrolls.listing parts.rightWidth parts.listingHeight)
  above (beside left right) (session.statusBar.draw width parts.barHeight)

end ScriptIR.Inspector.Session
