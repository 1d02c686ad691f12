import BoxedScheme.History
import BoxedScheme.Viewer.Highlight
import BoxedScheme.Viewer.HeapRows
import BoxedScheme.Viewer.Scroll

/-!
# Panes

The four panes and the status bar, each drawn as a block of rows from what a snapshot holds. Drawing reads
an offset and changes none.
-/

namespace BoxedScheme

/-- The panes, clockwise. -/
inductive Pane where
  | source
  | terminal
  | environment
  | heap
deriving DecidableEq

namespace Pane

def next : Pane → Pane
  | .source => .terminal
  | .terminal => .environment
  | .environment => .heap
  | .heap => .source

def previous : Pane → Pane
  | .source => .heap
  | .terminal => .source
  | .environment => .terminal
  | .heap => .environment

/-- The items that a pane shows. -/
def window {α : Type} (a : Area) (offset : Nat) (items : List α) : List α :=
  (items.drop offset).take a.visible

end Pane

/-! ## Source -/

namespace SourcePane

/-- A line of source behind its number. The current line is raised, or shown as a mistake. -/
def numbered (current : Nat) (failed : Bool) (number : Nat) (line : String) : Line :=
  let label := Text.padLeft (toString number) 4 ++ " "
  let spans := Highlight.spans line
  if number ≠ current then ⟨label, .ink Theme.grey⟩ :: spans
  else if failed then
    ⟨label, (Style.ink Theme.red).strong⟩
      :: spans.map fun s => { s with style := ((Style.ink .white).on Theme.red).strong }
  else
    ⟨label, (Style.ink Theme.orange).strong⟩
      :: spans.map fun s => { s with style := s.style.on Theme.raised }

def draw (a : Area) (focused : Bool) (offset : Nat) (source : List String) (current : Nat)
    (failed : Bool) : List Row :=
  a.boxed " Source Code " (Theme.border focused) {} <|
    (Pane.window a offset (source.zipIdx 1)).map fun (line, number) =>
      Screen.alignLeft (numbered current failed number line) {} a.columns

end SourcePane

/-! ## Terminal -/

namespace TerminalPane

/-- What was printed, line by line, then the value or the error of the form just evaluated. -/
def items (s : Option Snapshot) : List Span :=
  match s with
  | none => []
  | some s =>
    s.terminal.lines.map (⟨·, .ink Theme.text⟩)
      ++ s.result.toList.map (⟨"=> " ++ ·, .ink Theme.pink⟩)
      ++ s.error.toList.map (⟨"; error: " ++ ·, .ink Theme.red⟩)

/-- The rows of an item, one for each of its lines. The style of an item covers its rows, but for the blank
column at the left. -/
def itemRows (columns : Nat) (item : Span) : List Row :=
  let lines := if item.text.isEmpty then [""] else Text.sourceLines item.text
  lines.map fun line =>
    (Screen.blanks 1 {} ++ Screen.alignLeft [⟨line, item.style⟩] item.style (columns - 1)).take columns

/-- The rows of the items from the first one on that fit into a height as a whole. -/
def wholeItems (height : Nat) : List (List Row) → List Row
  | [] => []
  | rows :: items =>
    if rows.length ≤ height then rows ++ wholeItems (height - rows.length) items else []

def draw (a : Area) (focused : Bool) (offset : Nat) (items : List Span) : List Row :=
  let border := Theme.border focused
  if items.isEmpty then
    let faint := Style.ink Theme.grey
    a.boxed " Terminal Output " border faint [Screen.alignLeft [⟨"(no output)", {}⟩] faint a.columns]
  else
    a.boxed " Terminal Output " border {} <|
      wholeItems a.rows ((Pane.window a offset items).map (itemRows a.columns))

end TerminalPane

/-! ## Environment -/

namespace EnvironmentPane

/-- The width of the column of names: that of the longest, up to half the pane. -/
def nameWidth (columns : Nat) (bindings : List Binding) : Nat :=
  min (bindings.foldl (fun n b => max n b.name.length) 0) (columns / 2)

def line (columns nameWidth : Nat) (b : Binding) : Line :=
  [⟨Text.padRight b.name nameWidth, .ink Theme.teal⟩,
    ⟨" = ", .ink Theme.grey⟩,
    ⟨Text.truncate b.value (columns - (nameWidth + 3)), .ink Theme.text⟩]

/-- The number of rows; an empty environment takes one to say so. -/
def count (bindings : List Binding) : Nat := max bindings.length 1

def rows (columns : Nat) (bindings : List Binding) : List Row :=
  if bindings.isEmpty then
    [Screen.alignLeft [⟨"(no definitions)", {}⟩] (.ink Theme.grey) columns]
  else
    let width := nameWidth columns bindings
    bindings.map fun b => Screen.alignLeft (line columns width b) {} columns

def draw (a : Area) (focused : Bool) (offset : Nat) (bindings : List Binding) : List Row :=
  a.boxed s!" Global Environment ({bindings.length}) " (Theme.border focused) {} <|
    Pane.window a offset (rows a.columns bindings)

end EnvironmentPane

/-! ## Heap -/

namespace HeapPane

/-- The number of rows; without a snapshot one says so. -/
def count (heap : Option Heap) : Nat :=
  match heap with
  | some h => HeapRows.count h
  | none => 1

def draw (a : Area) (focused : Bool) (offset : Nat) (heap : Option Heap) : List Row :=
  a.boxed " Heap " (Theme.border focused) {} <|
    match heap with
    | some h =>
      (Pane.window a offset (HeapRows.lines h a.columns)).map fun line =>
        Screen.alignLeft line {} a.columns
    | none =>
      Pane.window a offset [Screen.alignLeft [⟨"(no snapshot)", {}⟩] (.ink Theme.grey) a.columns]

end HeapPane

/-! ## Status bar -/

/-- What the status bar shows. -/
structure Status where
  message : String
  position : Nat
  total : Nat
  failed : Bool
  playing : Bool
deriving DecidableEq

namespace Status

def bar : Style := { background := some Theme.raised }

def badge (text : String) (background : Color) : Span :=
  ⟨text, ((Style.ink .black).on background).strong⟩

/-- The step and the message. -/
def report (s : Status) : Line :=
  [badge s!" Step {s.position + 1}/{s.total} " (if s.failed then Theme.red else Theme.blue),
    ⟨" | ", (Style.ink Theme.grey).on Theme.raised⟩,
    ⟨s!" {s.message} ",
      (Style.ink (if s.failed then Theme.red else Theme.text)).on Theme.raised⟩]

/-- The keys and what they do. -/
def keys : List (String × String) :=
  [(" ←/→ ", " step "), (" ⎵ ", " play "), (" ↵ / ⌫ ", " end/start "), (" ⇥ ", " focus "),
    ("q", " quit ")]

def separator : Span := ⟨"│", (Style.ink Theme.grey).on Theme.raised⟩

/-- Whether the history is being played, or at one of its ends. -/
def indicator (s : Status) : Option Span :=
  if s.playing then some (badge " ▶ PLAYING " Theme.orange)
  else if s.total ≤ s.position + 1 then some (badge " END " Theme.red)
  else if s.position = 0 then some (badge " START " Theme.green)
  else none

def help (s : Status) : Line :=
  let plain := (Style.ink Theme.text).on Theme.raised
  let entry : String × String → Line := fun (key, description) =>
    [⟨key, (Style.ink .black).on Theme.grey⟩, ⟨description, plain⟩]
  [separator, ⟨" ", plain⟩].intercalate (keys.map entry)
    ++ match s.indicator with
      | some mark => [separator, mark]
      | none => []

def draw (width : Nat) (s : Status) : Row :=
  let half := width / 2
  Screen.alignLeft s.report bar half ++ Screen.alignRight s.help bar (width - half)

end Status

end BoxedScheme
