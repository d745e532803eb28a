namespace ScriptIR.Screen

-- The plain colour is whatever the terminal draws with by itself.
inductive Colour where
  | plain
  | black
  | rgb (red green blue : UInt8)
deriving DecidableEq

private def hexDigit (value : UInt8) : Char :=
  Nat.digitChar value.toNat

private def hexByte (value : UInt8) : String :=
  String.ofList [hexDigit (value / 16), hexDigit (value % 16)]

def Colour.name : Colour → String
  | .plain => "reset"
  | .black => "black"
  | .rgb red green blue => "#" ++ hexByte red ++ hexByte green ++ hexByte blue

-- How a cell looks, all settled.
structure Look where
  fg : Colour
  bg : Colour
  bold : Bool
deriving DecidableEq

def Look.plain : Look := ⟨.plain, .plain, false⟩

-- What a piece of text asks for. The rest shows through from below, and bold
-- can only be added.
structure Style where
  fg : Option Colour
  bg : Option Colour
  bold : Bool
deriving DecidableEq

namespace Style

def none : Style := ⟨.none, .none, false⟩

def colour (fg : Colour) : Style := ⟨some fg, .none, false⟩

def boldColour (fg : Colour) : Style := ⟨some fg, .none, true⟩

def laidOver (style : Style) (look : Look) : Look :=
  ⟨style.fg.getD look.fg, style.bg.getD look.bg, look.bold || style.bold⟩

theorem none_laidOver (look : Look) : none.laidOver look = look := by
  simp [none, laidOver]

end Style

end ScriptIR.Screen
