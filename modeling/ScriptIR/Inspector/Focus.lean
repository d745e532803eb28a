namespace ScriptIR.Inspector

-- The panes that can have the focus, in the order in which it goes around: down the left
-- column, then down the right one.
inductive Focus where
  | source
  | tokens
  | tree
  | listing
deriving DecidableEq

namespace Focus

def next : Focus → Focus
  | .source => .tokens
  | .tokens => .tree
  | .tree => .listing
  | .listing => .source

def previous : Focus → Focus
  | .source => .listing
  | .tokens => .source
  | .tree => .tokens
  | .listing => .tree

def name : Focus → String
  | .source => "Source"
  | .tokens => "Tokens"
  | .tree => "Tree"
  | .listing => "Ir"

end Focus

-- An offset for each pane.
structure Scrolls where
  source : Nat
  tokens : Nat
  tree : Nat
  listing : Nat
deriving DecidableEq

namespace Scrolls

def top : Scrolls := ⟨0, 0, 0, 0⟩

def get (scrolls : Scrolls) : Focus → Nat
  | .source => scrolls.source
  | .tokens => scrolls.tokens
  | .tree => scrolls.tree
  | .listing => scrolls.listing

def set (scrolls : Scrolls) (focus : Focus) (offset : Nat) : Scrolls :=
  match focus with
  | .source => { scrolls with source := offset }
  | .tokens => { scrolls with tokens := offset }
  | .tree => { scrolls with tree := offset }
  | .listing => { scrolls with listing := offset }

theorem get_set (scrolls : Scrolls) (focus other : Focus) (offset : Nat) :
    (scrolls.set focus offset).get other = if other = focus then offset else scrolls.get other := by
  cases focus <;> cases other <;> rfl

end Scrolls

end ScriptIR.Inspector
