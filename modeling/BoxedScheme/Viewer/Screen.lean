import BoxedScheme.Viewer.Style

/-!
# Rows of styled characters

A line is a list of spans, each with a style of its own. Drawn at a width it becomes a row of exactly that
many glyphs: what is too long is cut on the right, what is too short is filled with blanks. A block of
screen is a list of rows of one width; blocks are stacked by appending and put side by side by `beside`.
-/

namespace BoxedScheme

/-- A piece of text in one style. -/
structure Span where
  text : String
  style : Style := {}
deriving DecidableEq

/-- What stands in one cell of the screen: a character, and with it any that take no room of their own. -/
structure Glyph where
  symbol : String
  style : Style
deriving DecidableEq, Inhabited

abbrev Line := List Span

abbrev Row := List Glyph

namespace Screen

/-- The cells that a text fills from the cell `cell` on, which is `taken` once a character stands in it.
Every character takes a cell, a control character too, but for the ends of lines: a newline is left out, and
a carriage return with the newline behind it shares a cell with the character before them, or with the one
behind them at the start of a text. -/
def cells (cell : String) (taken : Bool) : List Char → List String
  | [] => if taken then [cell] else []
  | '\r' :: '\n' :: rest => cells (cell ++ "\r\n") taken rest
  | c :: rest =>
    if c = '\n' then cells cell taken rest
    else if taken then cell :: cells (.singleton c) true rest
    else cells (cell.push c) true rest

/-- The glyphs of a span on top of the style `base`. -/
def glyphs (base : Style) (s : Span) : Row :=
  (cells "" false s.text.toList).map (⟨·, s.style.atop base⟩)

def blanks (n : Nat) (style : Style) : Row := List.replicate n ⟨" ", style⟩

/-- What of a line fits into a width. -/
def fitting (line : Line) (base : Style) (width : Nat) : Row :=
  (line.flatMap (glyphs base)).take width

/-- A line at the left edge of a row. -/
def alignLeft (line : Line) (base : Style) (width : Nat) : Row :=
  let shown := fitting line base width
  shown ++ blanks (width - shown.length) base

/-- A line at the right edge of a row; one that is too long starts at the left edge. -/
def alignRight (line : Line) (base : Style) (width : Nat) : Row :=
  let shown := fitting line base width
  blanks (width - shown.length) base ++ shown

/-- Two blocks side by side. -/
def beside (left right : List Row) : List Row := left.zipWith (· ++ ·) right

end Screen

/-- The size of a pane, its border included. -/
structure Area where
  width : Nat
  height : Nat
deriving DecidableEq

namespace Area

/-- The columns inside the border. -/
def columns (a : Area) : Nat := a.width - 2

/-- The rows inside the border. -/
def rows (a : Area) : Nat := a.height - 2

/-- The rows that scrolling counts with: those inside the border, and one at least. -/
def visible (a : Area) : Nat := max a.rows 1

/-- A border with a title around rows as wide as the inside; missing rows are filled with `filler`. Of an
area without room for a border as much is drawn as it can hold. -/
def boxed (a : Area) (title : String) (border filler : Style) (content : List Row) : List Row :=
  let edge (cs : List Char) : Row := cs.map (⟨.singleton ·, border⟩)
  let heading := title.toList.take a.columns
  let inside := content.take a.rows
  let inside := inside ++ List.replicate (a.rows - inside.length) (Screen.blanks a.columns filler)
  let rows := [edge ('┌' :: heading ++ List.replicate (a.columns - heading.length) '─' ++ ['┐'])]
    ++ inside.map (fun row => edge ['│'] ++ row ++ edge ['│'])
    ++ [edge ('└' :: List.replicate a.columns '─' ++ ['┘'])]
  (rows.take a.height).map (·.take a.width)

end Area

end BoxedScheme
