import BoxedScheme.Heap
import BoxedScheme.Numeral
import BoxedScheme.Operation
import BoxedScheme.Text.Space

/-!
# Writing values

`Heap.write` is the form a program can read back, with strings quoted and characters named;
`Heap.display` is the form for people. A list stops with dots after a thousand elements and nested lists
stop at a hundred levels, so cyclic structure has a finite text.
-/

namespace BoxedScheme

/-- The two external forms of a value. -/
inductive PrintStyle where
  | write
  | display
deriving DecidableEq

namespace Printer

/-- Elements of a list before it is cut off. -/
def maxElements : Nat := 1000

/-- Levels of nested lists before they are cut off. -/
def maxDepth : Nat := 100

/-- The characters that are written by name. -/
def charName? (c : Char) : Option String :=
  if c = ' ' then some "space"
  else if c = '\n' then some "newline"
  else if c = '\t' then some "tab"
  else if c = '\r' then some "return"
  else if c = '\x00' then some "nul"
  else if c = '\x07' then some "alarm"
  else if c = '\x08' then some "backspace"
  else if c = '\x1b' then some "escape"
  else if c = '\x7f' then some "delete"
  else none

/-- A character as a literal. -/
def charLiteral (c : Char) : String :=
  match charName? c with
  | some name => "#\\" ++ name
  | none =>
    if Text.isControl c then "#\\x" ++ .ofList (Nat.toDigits 16 c.toNat)
    else "#\\" ++ .singleton c

/-- A character inside a string literal. -/
def escaped (c : Char) : List Char :=
  if c = '"' then ['\\', '"']
  else if c = '\\' then ['\\', '\\']
  else if c = '\n' then ['\\', 'n']
  else if c = '\t' then ['\\', 't']
  else if c = '\r' then ['\\', 'r']
  else [c]

/-- A text as a string literal. -/
def stringLiteral (s : String) : String := .ofList ('"' :: s.toList.flatMap escaped ++ ['"'])

/-- The text of a string or symbol. -/
def storedText (h : Heap) (w : Word) : String :=
  match h.stringText w with
  | .ok text => text
  | .error _ => ""

/-- The text of a word other than a pair. -/
def atom (h : Heap) (style : PrintStyle) (w : Word) : String :=
  match w.kind with
  | .number x => Numeral.format x
  | .emptyList => "()"
  | .boolean b => if b then "#t" else "#f"
  | .endOfFile => "#!eof"
  | .dot => "#!dot"
  | .rightParen => "#!rparen"
  | .unspecified => "#!unspecified"
  | .error => "#!error"
  | .symbol _ => storedText h w
  | .string _ =>
    match style with
    | .write => stringLiteral (storedText h w)
    | .display => storedText h w
  | .char c =>
    match style with
    | .write => charLiteral c
    | .display => .singleton c
  | .procedure id =>
    match Operation.entry? id with
    | some entry => s!"#<procedure {entry.name}>"
    | none => "#<procedure>"
  | .closure _ => "#<closure>"
  | .pair _ => ""

/-- The elements of a list behind its first parenthesis, at most `budget` more of them, each written by
`item`, up to and including the last parenthesis. -/
def elements (h : Heap) (item : Word → String) : Nat → Word → String
  | 0, rest => if rest.isPair then " ...)" else closing rest
  | budget + 1, rest =>
    if rest.isPair then
      let cell := h.cells.read rest.payload
      " " ++ item cell.car ++ elements h item budget cell.cdr
    else closing rest
where
  /-- The end of a list: a word other than the empty list stands behind a dot. -/
  closing (rest : Word) : String := if rest.isNull then ")" else " . " ++ item rest ++ ")"

/-- The text of a word, for lists at most `levels` deep. -/
def text (h : Heap) (style : PrintStyle) : Nat → Word → String
  | 0, w => if w.isPair then "(...)" else atom h style w
  | levels + 1, w =>
    if w.isPair then
      let cell := h.cells.read w.payload
      let item := text h style levels
      "(" ++ item cell.car ++ elements h item (maxElements - 1) cell.cdr
    else atom h style w

end Printer

namespace Heap

/-- The text of a value in the given style. -/
def print (h : Heap) (style : PrintStyle) (w : Word) : String :=
  Printer.text h style Printer.maxDepth w

/-- The text a program can read back. -/
def write (h : Heap) (w : Word) : String := h.print .write w

/-- The text for people. -/
def display (h : Heap) (w : Word) : String := h.print .display w

/-- One level of a value: pairs and closures are shown by their cell. -/
def describe (h : Heap) (w : Word) : String :=
  if w.isPair then s!"#<pair {w.payload.toNat}>"
  else if w.isClosure then s!"#<closure {w.payload.toNat}>"
  else h.write w

end Heap

end BoxedScheme
