/-!
# Colours and styles

A style says how a character is drawn. What a style leaves unset is taken from whatever is drawn beneath it.
-/

namespace BoxedScheme

inductive Color where
  | rgb (red green blue : UInt8)
  | white
  | black
deriving DecidableEq

structure Style where
  foreground : Option Color := none
  background : Option Color := none
  bold : Bool := false
deriving DecidableEq, Inhabited

namespace Style

/-- A style that sets the colour of the text only. -/
def ink (c : Color) : Style := { foreground := some c }

def on (s : Style) (c : Color) : Style := { s with background := some c }

def strong (s : Style) : Style := { s with bold := true }

/-- A style drawn on top of another. -/
def atop (s base : Style) : Style where
  foreground := s.foreground.or base.foreground
  background := s.background.or base.background
  bold := s.bold || base.bold

end Style

/-! ## The colours of the viewer -/

namespace Theme

def text : Color := .rgb 205 214 244
def blue : Color := .rgb 137 180 250
def orange : Color := .rgb 250 179 135
def grey : Color := .rgb 108 112 134
def green : Color := .rgb 166 227 161
def red : Color := .rgb 243 139 168
def yellow : Color := .rgb 249 226 175
def teal : Color := .rgb 148 226 213
def pink : Color := .rgb 245 194 231

/-- Behind the current line and the status bar. -/
def raised : Color := .rgb 50 50 70

/-- The border of a pane. -/
def border (focused : Bool) : Style := if focused then (Style.ink yellow).strong else .ink grey

end Theme

end BoxedScheme
