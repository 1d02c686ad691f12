import BoxedScheme.Viewer.Pane

/-!
# The viewer

Browses a recorded history: four panes and a status bar, moved by keys. Every change is followed by a
drawing, and drawing has two parts.

* `Viewer.press`, `Viewer.second`: what a key does, and what a second of playing does.
* `Viewer.settle`: brings all offsets into range for the current snapshot.
* `Viewer.draw`: the screen, row by row.
-/

namespace BoxedScheme

inductive Key where
  | quit
  /-- One of the digits from 1 to 9. -/
  | digit (n : Nat)
  | tab
  | backTab
  | left
  | right
  | up
  | down
  | enter
  | backspace
  /-- The space bar, and the milliseconds since it was pressed before. -/
  | space (sinceLast : Nat)
  | other
deriving DecidableEq

namespace Key

/-- What is typed while the control key is held for a terminal to send the given character: a letter for its
place in the alphabet, the digits from 4 to 7 for the last four before the blank, and the blank for zero. -/
def heldWith (c : Char) : Char :=
  let n := c.toNat
  if n = 0 then ' '
  else if n ≤ 0x1a then .ofNat (n + 0x60)
  else if 0x1c ≤ n ∧ n ≤ 0x1f then .ofNat (n + 0x18)
  else c

/-- The key of a character that a terminal sends. The control key makes no difference. For a space,
`sinceLast` tells how long ago there was one before. -/
def ofChar (c : Char) (sinceLast : Nat) : Key :=
  if c = '\t' then .tab
  else if c = '\r' then .enter
  else if c = '\x7f' then .backspace
  else
    let c := heldWith c
    if c = 'q' ∨ c = 'Q' then .quit
    else if '1' ≤ c ∧ c ≤ '9' then .digit (c.toNat - '0'.toNat)
    else if c = ' ' then .space sinceLast
    else .other

end Key

/-- A screen divided among the panes: the source above the terminal on the left, the environment above
the heap on the right, one row for the status bar. -/
structure Layout where
  width : Nat
  source : Area
  terminal : Area
  environment : Area
  heap : Area
deriving DecidableEq

def Layout.ofSize (width height : Nat) : Layout :=
  let rows := height - 1
  let left := width * 55 / 100
  let upperLeft := rows * 70 / 100
  let upperRight := rows * 40 / 100
  { width
    source := ⟨left, upperLeft⟩
    terminal := ⟨left, rows - upperLeft⟩
    environment := ⟨width - left, upperRight⟩
    heap := ⟨width - left, rows - upperRight⟩ }

structure Viewer where
  history : History
  source : List String
  focus : Pane := .source
  sourceScroll : SourceScroll := {}
  terminalScroll : Nat := Scroll.farthest
  environmentScroll : ListScroll := {}
  heapScroll : ListScroll := {}
  message : String := "Ready!"
  playing : Bool := false
  quit : Bool := false

namespace Viewer

def ofHistory (history : History) (source : String) : Viewer :=
  { history, source := Text.sourceLines source }

/-- The number of the line where the current form starts, or 0. -/
def currentLine (v : Viewer) : Nat :=
  match v.history.current? with
  | some s => if s.form.isSome then s.location.line else 0
  | none => 0

def failed (v : Viewer) : Bool :=
  match v.history.current? with
  | some s => s.error.isSome
  | none => false

def bindings (v : Viewer) : List Binding :=
  match v.history.current? with
  | some s => s.bindings
  | none => []

/-! ## Keys -/

/-- Shows the outcome of a move; after one that was made the terminal shows its end. -/
def moved (v : Viewer) (outcome : Except HistoryFault History) (made refused : String) : Viewer :=
  match outcome with
  | .ok history => { v with history, message := made, terminalScroll := Scroll.farthest }
  | .error fault => { v with message := s!"{refused}: {fault.message}" }

/-- One step of playing; playing ends with the history. -/
def play (v : Viewer) : Viewer :=
  match v.history.forward with
  | .ok history =>
    { v with history, message := "Playing...", terminalScroll := Scroll.farthest }
  | .error _ => { v with playing := false, message := "Playback complete" }

/-- A second passes. -/
def second (v : Viewer) : Viewer := if v.playing then v.play else v

def scroll (v : Viewer) (d : Scroll.Direction) : Viewer :=
  match v.focus with
  | .source => { v with sourceScroll := v.sourceScroll.move d }
  | .terminal => { v with terminalScroll := Scroll.move d v.terminalScroll }
  | .environment => { v with environmentScroll := v.environmentScroll.move d }
  | .heap => { v with heapScroll := v.heapScroll.move d }

/-- Spaces that follow each other faster than this, in milliseconds, are one that is held down. -/
def repeatTime : Nat := 200

/-- What a key does. A space that starts playing makes the first step at once: the clock is set so that this step is
due with the next turn of the loop, and nothing happens in between but another drawing. -/
def press (v : Viewer) : Key → Viewer
  | .quit => { v with quit := true }
  | .digit n =>
    let (made, history) := v.history.forwardUpTo n
    { v with
      history
      playing := false
      message := s!"Stepped forward {made} step(s)"
      terminalScroll := Scroll.farthest }
  | .tab => { v with focus := v.focus.next }
  | .backTab => { v with focus := v.focus.previous }
  | .left =>
    { v with playing := false }.moved v.history.backward "Stepped backward" "Cannot step backward"
  | .right =>
    { v with playing := false }.moved v.history.forward "Stepped forward" "Cannot step forward"
  | .up => v.scroll .up
  | .down => v.scroll .down
  | .enter =>
    { v with
      history := v.history.jumpToEnd
      playing := false
      message := "Jumped to end"
      terminalScroll := Scroll.farthest }
  | .backspace => { v with playing := false }.moved v.history.rewind "Jumped to start" "Cannot rewind"
  | .space sinceLast =>
    if sinceLast < repeatTime then v
    else if v.playing then { v with playing := false, message := "Paused" }
    else { v with playing := true }.play
  | .other => v

/-! ## Drawing -/

/-- Brings all offsets into range. -/
def settle (v : Viewer) (l : Layout) : Viewer :=
  let output := (TerminalPane.items v.history.current?).length
  { v with
    sourceScroll := v.sourceScroll.settle v.currentLine v.source.length l.source.visible
    terminalScroll :=
      if output = 0 then v.terminalScroll
      else Scroll.inRange output l.terminal.visible v.terminalScroll
    environmentScroll :=
      v.environmentScroll.follow (EnvironmentPane.count v.bindings) l.environment.visible
    heapScroll :=
      v.heapScroll.hold (HeapPane.count (v.history.current?.map (·.heap))) l.heap.visible }

def status (v : Viewer) : Status where
  message := v.message
  position := v.history.position
  total := v.history.snapshots.size
  failed := v.failed
  playing := v.playing

/-- The screen of a viewer whose offsets are in range. -/
def draw (v : Viewer) (l : Layout) : List Row :=
  let snapshot := v.history.current?
  let left :=
    SourcePane.draw l.source (v.focus = .source) v.sourceScroll.offset v.source v.currentLine v.failed
      ++ TerminalPane.draw l.terminal (v.focus = .terminal) v.terminalScroll (TerminalPane.items snapshot)
  let right :=
    EnvironmentPane.draw l.environment (v.focus = .environment) v.environmentScroll.offset v.bindings
      ++ HeapPane.draw l.heap (v.focus = .heap) v.heapScroll.offset (snapshot.map (·.heap))
  Screen.beside left right ++ [v.status.draw l.width]

end Viewer

end BoxedScheme
