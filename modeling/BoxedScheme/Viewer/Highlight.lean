import BoxedScheme.Operation
import BoxedScheme.Text.Slice
import BoxedScheme.Token.Scan
import BoxedScheme.Viewer.Screen

/-!
# Highlighting source text

A line of source is cut into pieces, each painted by what it is. The line need not be valid: a string that
is not closed runs to the end of the line. Characters are looked at by index, and pieces are cut by byte offset.

* `MarkedLine`: a line with the offsets of its characters.
* `MarkedLine.pieces?`: the pieces of a line; none if one of them were cut at an offset that falls nowhere.
* `Highlight.spans`: the pieces with their styles.
-/

namespace BoxedScheme

/-- What a piece of source text is. -/
inductive Paint where
  | comment
  | string
  | bracket
  | quoteMark
  | blank
  | literal
  /-- The name of a special form. -/
  | keyword
  /-- The name of a procedure. -/
  | builtin
  /-- Another name, behind an opening parenthesis or bracket. -/
  | operator
  | name
deriving DecidableEq

def Paint.style : Paint → Style
  | .comment => .ink Theme.grey
  | .string => .ink Theme.orange
  | .bracket => .ink Theme.blue
  | .quoteMark => .ink Theme.orange
  | .blank => {}
  | .literal => .ink Theme.orange
  | .keyword => (Style.ink Theme.blue).strong
  | .builtin => .ink Theme.yellow
  | .operator => .ink Theme.teal
  | .name => .ink Theme.text

/-- A piece of a line. -/
structure Piece where
  paint : Paint
  text : List Char
deriving DecidableEq

def Piece.span (p : Piece) : Span := ⟨.ofList p.text, p.paint.style⟩

namespace Highlight

def isOpening (c : Char) : Bool := c = '(' || c = '['

/-- The paint of a delimiter that starts neither a comment nor a string. -/
def delimiterPaint (c : Char) : Paint :=
  if c = '(' || c = ')' || c = '[' || c = ']' then .bracket
  else if c = '\'' then .quoteMark
  else .blank

/-- The paint of an atom; `head` if it stands behind an opening parenthesis or bracket. -/
def atomPaint (head : Bool) (text : List Char) : Paint :=
  let word := String.ofList text
  if text.head? = some '#' || (Numeral.parse? text).isSome then .literal
  else match Operation.table.find? (·.name = word) with
    | some ⟨.form _, _, _⟩ => .keyword
    | some ⟨.primitive _, _, _⟩ => .builtin
    | none => if head then .operator else .name

end Highlight

/-! ## Lines with offsets -/

/-- A character and the number of bytes before it. -/
structure Mark where
  offset : Nat
  char : Char

/-- The marks of a text that starts at an offset. -/
def marksFrom (offset : Nat) : List Char → List Mark
  | [] => []
  | c :: cs => ⟨offset, c⟩ :: marksFrom (offset + c.utf8Size) cs

/-- A line with a mark for each of its characters. -/
structure MarkedLine where
  text : List Char
  marks : Array Mark
  marks_eq : marks.toList = marksFrom 0 text

namespace MarkedLine

def ofText (text : List Char) : MarkedLine := ⟨text, (marksFrom 0 text).toArray, rfl⟩

/-- The offset of the character with an index, or of the end behind the last one. -/
def offset (l : MarkedLine) (i : Nat) : Nat := (l.marks[i]?.map (·.offset)).getD (Text.byteLength l.text)

/-- Where a string is closed that goes on at an index: at the next quote that no backslash hides, or else at the end or
one further, if a backslash comes last. -/
def closingQuote (l : MarkedLine) (i : Nat) : Nat :=
  if h : i < l.marks.size then
    if l.marks[i].char = '"' then i
    else if l.marks[i].char = '\\' then closingQuote l (i + 2)
    else closingQuote l (i + 1)
  else i
termination_by l.marks.size - i

/-- The index behind the characters of an atom that are taken whatever they are: a character literal keeps the character
behind `#\`, even a delimiter. The atom starts at `i`, and `rest` is the line from there. -/
def atomStart (l : MarkedLine) (i : Nat) (rest : List Char) : Nat :=
  if ['#', '\\'].isPrefixOf rest ∧ i + 2 < l.marks.size then i + 3 else i + 1

/-- Where an atom ends that goes on at an index. -/
def atomEnd (l : MarkedLine) (i : Nat) : Nat :=
  if h : i < l.marks.size then
    if isDelimiter l.marks[i].char then i else atomEnd l (i + 1)
  else i
termination_by l.marks.size - i

theorem le_closingQuote (l : MarkedLine) (i : Nat) : i ≤ l.closingQuote i := by
  fun_induction closingQuote l i <;> omega

theorem lt_atomStart (l : MarkedLine) (i : Nat) (rest : List Char) : i < l.atomStart i rest := by
  unfold atomStart
  split <;> omega

theorem le_atomEnd (l : MarkedLine) (i : Nat) : i ≤ l.atomEnd i := by
  fun_induction atomEnd l i <;> omega

/-- The piece between two offsets, in front of the others. -/
def cut (l : MarkedLine) (paint : List Char → Paint) (start stop : Nat) (others : Option (List Piece)) :
    Option (List Piece) := do
  let text ← Text.slice? start stop l.text
  return ⟨paint text, text⟩ :: (← others)

/-- The pieces of a line from an index on; `head` if an opening parenthesis or bracket stands right before it. -/
def pieces? (l : MarkedLine) (head : Bool) (i : Nat) : Option (List Piece) :=
  if h : i < l.marks.size then
    let start := l.marks[i].offset
    let c := l.marks[i].char
    if c = ';' then l.cut (fun _ => .comment) start (Text.byteLength l.text) (some [])
    else if c = '"' then
      let stop := min (l.closingQuote (i + 1) + 1) l.marks.size
      have := l.le_closingQuote (i + 1)
      l.cut (fun _ => .string) start (l.offset stop) (l.pieces? false stop)
    else if isDelimiter c then
      l.cut (fun _ => Highlight.delimiterPaint c) start (start + c.utf8Size) (l.pieces? (Highlight.isOpening c) (i + 1))
    else do
      let rest ← Text.slice? start (Text.byteLength l.text) l.text
      let stop := l.atomEnd (l.atomStart i rest)
      have := l.lt_atomStart i rest
      have := l.le_atomEnd (l.atomStart i rest)
      l.cut (Highlight.atomPaint head) start (l.offset stop) (l.pieces? false stop)
  else some []
termination_by l.marks.size - i

end MarkedLine

/-- A line of source with its styles. -/
def Highlight.spans (line : String) : Line :=
  (((MarkedLine.ofText line.toList).pieces? false 0).getD []).map Piece.span

end BoxedScheme
