import ScriptIR.Compile
import ScriptIR.Inspector.Focus
import ScriptIR.Inspector.Listings

namespace ScriptIR.Inspector

-- The state of an inspector that looks at one source.
structure Session where
  source : String
  compiled : Compiled
  mode : Mode
  focus : Focus
  scrolls : Scrolls
  status : String
  -- whether the user has asked to leave
  leaving : Bool
  pages : Pages

-- The keys that mean something. A letter counts in either case.
inductive Key where
  | tab
  | backTab
  | up
  | down
  | pageUp
  | pageDown
  | home
  | toEnd
  | char (c : Char)
deriving DecidableEq

namespace Session

-- A session on a source that compiles.
def start (mode : Mode) (source : String) : Told (Except CompileError Session) :=
  let told := compileTold mode source
  ⟨told.records, told.result.map fun compiled =>
    { source, compiled, mode, focus := .source, scrolls := .top, status := "Ready!"
      leaving := false, pages := .ofCompiled compiled }⟩

-- As far down as an offset can go: further than any listing is long.
def farthest : Nat := 0xffffffffffffffff

def pageSize : Nat := 10

-- Moves the offset of the pane that has the focus.
def scroll (session : Session) (move : Nat → Nat) : Session :=
  let offset := session.scrolls.get session.focus
  { session with scrolls := session.scrolls.set session.focus (move offset) }

def scrollDown (session : Session) (count : Nat) : Session :=
  session.scroll fun offset => min (offset + count) farthest

def scrollUp (session : Session) (count : Nat) : Session :=
  session.scroll fun offset => offset - count

-- What the status bar says of a program that was lowered once more.
def loweredAgain : Mode → String
  | .revisit => "Re-emitted with child revisit"
  | .single => "Re-emitted with single visit"

-- Lowers the program once more in the other mode.
def toggle (session : Session) : Session :=
  let mode := session.mode.other
  match session.compiled.tree.lower mode with
  | .ok instructions =>
    { session with
      mode
      compiled := { session.compiled with instructions }
      pages := { session.pages with instructions := instructionLines instructions }
      scrolls := session.scrolls.set .listing 0
      status := loweredAgain mode }
  | .error error => { session with status := s!"Error: {error.describe}" }

def press (session : Session) : Key → Session
  | .tab => { session with focus := session.focus.next }
  | .backTab => { session with focus := session.focus.previous }
  | .up => session.scrollUp 1
  | .down => session.scrollDown 1
  | .pageUp => session.scrollUp pageSize
  | .pageDown => session.scrollDown pageSize
  | .home => session.scroll fun _ => 0
  | .toEnd => session.scroll fun _ => farthest
  | .char c =>
    if c = 'q' || c = 'Q' then { session with leaving := true }
    else if c = 'r' || c = 'R' then session.toggle
    else session

end Session

end ScriptIR.Inspector
