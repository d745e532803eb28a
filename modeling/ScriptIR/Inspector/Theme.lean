import ScriptIR.Screen.Style

namespace ScriptIR.Inspector.Theme

open Screen

def text : Colour := .rgb 205 214 244

def primary : Colour := .rgb 137 180 250

def secondary : Colour := .rgb 250 179 135

def comment : Colour := .rgb 108 112 134

def success : Colour := .rgb 166 227 161

def error : Colour := .rgb 243 139 168

def keyword : Colour := primary

def string : Colour := secondary

def number : Colour := secondary

def function : Colour := .rgb 249 226 175

def opcode : Colour := .rgb 148 226 213

def label : Colour := .rgb 245 194 231

-- The ground of the status bar.
def bar : Colour := .rgb 50 50 70

-- The border of a pane. The pane that has the focus stands out.
def border (focused : Bool) : Style :=
  if focused then .boldColour function else .colour comment

end ScriptIR.Inspector.Theme
