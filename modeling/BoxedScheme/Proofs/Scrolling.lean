import Mathlib.Tactic.Common
import BoxedScheme.Viewer

/-!
# Scrolling in range

Keys move the offsets of the panes without looking at what there is to show, and steps through a history change how much
that is. Each drawing brings the offsets into range, by a rule of each pane's own, and puts the line of the current form
where it can be seen.

* `SourceScroll.settle_shows`, `SourceScroll.settle_le` : the current line is shown, and the offset stays in range;
* `ListScroll.hold_hold`, `ListScroll.follow_follow` : a drawing settles an offset for good;
* `EnvironmentPane.length_rows`, `HeapPane.rows`, `HeapPane.draw_eq` : the numbers of rows that the offsets go by;
* `Viewer.watch` : drawings, with keys and seconds between them;
* `Viewer.Tame`, `Viewer.Tame.press`, `Viewer.Tame.settle` : what every key keeps, and every drawing;
* `Viewer.Framed`, `Viewer.Tame.framed_settle` : what every drawing makes sure of, and so every run;
* `watch_framed` : the viewer after any run.
-/

namespace BoxedScheme

namespace Scroll

variable {items visible offset : Nat}

theorem inRange_le (items visible offset : Nat) : inRange items visible offset ≤ items - visible := Nat.min_le_right _ _

theorem inRange_of_le (h : offset ≤ items - visible) : inRange items visible offset = offset := Nat.min_eq_left h

theorem move_le_farthest (d : Direction) (h : offset ≤ farthest) : move d offset ≤ farthest := by
  cases d with
  | up => exact Nat.le_trans (Nat.sub_le _ _) h
  | down => exact Nat.min_le_right _ _

end Scroll

/-! ## The source -/

namespace SourceScroll

variable {s : SourceScroll} {current total visible : Nat}

theorem settle_row (current total : Nat) (s : SourceScroll) (hvisible : 0 < visible) :
    ∃ row < visible, (s.settle current total visible).row = some row :=
  ⟨_, by omega, rfl⟩

theorem settle_of_within (hpos : 0 < current) (hle : current ≤ total) :
    (s.settle current total visible).offset =
      Scroll.inRange total visible (current - 1 - min (s.row.getD (visible / 2)) (visible - 1)) :=
  if_pos ⟨hpos, hle⟩

/-- A line of the text is shown once it is the current one. Its row is less than the height, and the last offset still
shows the last line. -/
theorem settle_shows (hvisible : 0 < visible) (hpos : 0 < current) (hle : current ≤ total) :
    (s.settle current total visible).offset ≤ current - 1 ∧
      current - 1 < (s.settle current total visible).offset + visible := by
  rw [settle_of_within hpos hle, Scroll.inRange]
  omega

example : settle 3 5 2 { row := some 9 } = { offset := 1, row := some 1 } := by decide

/-- A number outside the text leaves the offset as it was, so that one in range stays there. -/
theorem settle_le (current : Nat) (h : s.offset ≤ total - visible) :
    (s.settle current total visible).offset ≤ total - visible := by
  unfold settle
  dsimp only
  split_ifs
  · exact Scroll.inRange_le _ _ _
  · exact h

theorem settle_settle (current total visible : Nat) (s : SourceScroll) :
    (s.settle current total visible).settle current total visible = s.settle current total visible := by
  unfold settle
  dsimp only
  rw [Option.getD_some, Nat.min_assoc, Nat.min_self]
  split_ifs <;> rfl

end SourceScroll

/-! ## Lists -/

namespace ListScroll

theorem hold_hold (items visible : Nat) (s : ListScroll) :
    (s.hold items visible).hold items visible = s.hold items visible := by
  unfold hold
  rw [Scroll.inRange_of_le (Scroll.inRange_le _ _ _)]

theorem follow_follow (items visible : Nat) (s : ListScroll) :
    (s.follow items visible).follow items visible = s.follow items visible := by
  unfold follow
  rw [show (if (hold items visible _).seen < items then _ else _) = _ from if_neg (Nat.lt_irrefl items)]
  exact hold_hold _ _ _

theorem offset_hold_le (items visible : Nat) (s : ListScroll) : (s.hold items visible).offset ≤ items - visible :=
  Scroll.inRange_le _ _ _

theorem offset_follow_le (items visible : Nat) (s : ListScroll) : (s.follow items visible).offset ≤ items - visible :=
  offset_hold_le _ _ _

end ListScroll

/-! ## Rows to show -/

theorem EnvironmentPane.length_rows (columns : Nat) (bindings : List Binding) :
    (rows columns bindings).length = count bindings := by
  unfold rows count
  cases bindings with
  | nil => rfl
  | cons b bindings => simp

namespace HeapPane

/-- All rows of the heap, of which the pane shows some. -/
def rows (columns : Nat) (heap : Option Heap) : List Row :=
  match heap with
  | some h => (HeapRows.lines h columns).map fun line => Screen.alignLeft line {} columns
  | none => [Screen.alignLeft [⟨"(no snapshot)", {}⟩] (.ink Theme.grey) columns]

theorem length_rows (columns : Nat) (heap : Option Heap) : (rows columns heap).length = count heap := by
  cases heap with
  | none => rfl
  | some h => exact (List.length_map _).trans (HeapRows.length_lines h columns)

theorem draw_eq (a : Area) (focused : Bool) (offset : Nat) (heap : Option Heap) :
    draw a focused offset heap =
      a.boxed " Heap " (Theme.border focused) {} (Pane.window a offset (rows a.columns heap)) := by
  cases heap with
  | none => rfl
  | some h => simp only [draw, rows, Pane.window, List.map_take, List.map_drop]

end HeapPane

theorem Area.visible_pos (a : Area) : 0 < a.visible := Nat.le_max_right _ _

/-- An item is in the window if its place is. -/
theorem Pane.mem_window {α : Type} {a : Area} {offset i : Nat} {items : List α} {x : α} (hx : items[i]? = some x)
    (hle : offset ≤ i) (hlt : i < offset + a.visible) : x ∈ Pane.window a offset items := by
  refine List.mem_of_getElem? (i := i - offset) ?_
  rw [window, List.getElem?_take_of_lt (by omega), List.getElem?_drop, Nat.add_sub_cancel' hle, hx]

namespace Viewer

variable {v : Viewer} {l : Layout} {source : List String}

/-! ## Between two drawings -/

inductive Input where
  | key (key : Key)
  | second

def take (v : Viewer) : Input → Viewer
  | .key key => v.press key
  | .second => v.second

def turn (l : Layout) (v : Viewer) (inputs : List Input) : Viewer := (inputs.foldl take v).settle l

/-- The viewer after its first drawing and one more for each turn. -/
def watch (l : Layout) (turns : List (List Input)) (v : Viewer) : Viewer := turns.foldl (turn l) (v.settle l)

/-- What keys and the clock keep: they leave the text alone and its offset too, for they move the row of the current
line only, and no offset passes the farthest. -/
structure Tame (source : List String) (l : Layout) (v : Viewer) : Prop where
  source_eq : v.source = source
  source_le : v.sourceScroll.offset ≤ source.length - l.source.visible
  terminal_le : v.terminalScroll ≤ Scroll.farthest

theorem tame_ofHistory (history : History) (source : String) (l : Layout) :
    Tame (Text.sourceLines source) l (.ofHistory history source) := ⟨rfl, Nat.zero_le _, Nat.le_refl _⟩

theorem Tame.moved (h : Tame source l v) (outcome : Except HistoryFault History) (made refused : String) :
    Tame source l (v.moved outcome made refused) := by
  cases outcome with
  | ok history => exact ⟨h.source_eq, h.source_le, Nat.le_refl _⟩
  | error fault => exact ⟨h.source_eq, h.source_le, h.terminal_le⟩

theorem Tame.play (h : Tame source l v) : Tame source l v.play := by
  unfold Viewer.play
  cases v.history.forward with
  | ok history => exact ⟨h.source_eq, h.source_le, Nat.le_refl _⟩
  | error fault => exact ⟨h.source_eq, h.source_le, h.terminal_le⟩

theorem Tame.scroll (h : Tame source l v) (d : Scroll.Direction) : Tame source l (v.scroll d) := by
  unfold Viewer.scroll
  cases v.focus with
  | source => exact ⟨h.source_eq, h.source_le, h.terminal_le⟩
  | terminal => exact ⟨h.source_eq, h.source_le, Scroll.move_le_farthest d h.terminal_le⟩
  | environment => exact ⟨h.source_eq, h.source_le, h.terminal_le⟩
  | heap => exact ⟨h.source_eq, h.source_le, h.terminal_le⟩

/-- Another focus, message or playing makes no difference. -/
theorem Tame.press (h : Tame source l v) (key : Key) : Tame source l (v.press key) := by
  have hstill : ∀ playing, Tame source l { v with playing } := fun _ => ⟨h.source_eq, h.source_le, h.terminal_le⟩
  cases key with
  | quit | tab | backTab | other => exact ⟨h.source_eq, h.source_le, h.terminal_le⟩
  | digit n => exact ⟨h.source_eq, h.source_le, Nat.le_refl _⟩
  | enter => exact ⟨h.source_eq, h.source_le, Nat.le_refl _⟩
  | left => exact (hstill false).moved _ _ _
  | right => exact (hstill false).moved _ _ _
  | backspace => exact (hstill false).moved _ _ _
  | up => exact h.scroll .up
  | down => exact h.scroll .down
  | space sinceLast =>
    unfold Viewer.press
    dsimp only
    split_ifs
    · exact h
    · exact ⟨h.source_eq, h.source_le, h.terminal_le⟩
    · exact (hstill true).play

theorem Tame.second (h : Tame source l v) : Tame source l v.second := by
  unfold Viewer.second
  split_ifs
  · exact h.play
  · exact h

theorem Tame.takeAll (h : Tame source l v) (inputs : List Input) : Tame source l (inputs.foldl take v) := by
  induction inputs generalizing v with
  | nil => exact h
  | cons input inputs ih =>
    cases input with
    | key key => exact ih (h.press key)
    | second => exact ih h.second

/-! ## Drawings -/

/-- The terminal keeps its offset while it has nothing to show. -/
theorem terminalScroll_settle_le (h : v.terminalScroll ≤ Scroll.farthest) (l : Layout) :
    (v.settle l).terminalScroll ≤ Scroll.farthest := by
  unfold settle
  dsimp only
  split_ifs
  · exact h
  · exact Nat.le_trans (Nat.min_le_left _ _) h

theorem Tame.settle (h : Tame source l v) : Tame source l (v.settle l) where
  source_eq := h.source_eq
  source_le := h.source_eq ▸ SourceScroll.settle_le v.currentLine (h.source_eq ▸ h.source_le)
  terminal_le := terminalScroll_settle_le h.terminal_le l

def AtLine (v : Viewer) (line : Nat) : Prop :=
  ∃ s form, v.history.current? = some s ∧ s.form = some form ∧ s.location.line = line

theorem AtLine.currentLine_eq {line : Nat} (h : v.AtLine line) : v.currentLine = line := by
  obtain ⟨s, form, hcurrent, hform, hline⟩ := h
  rw [currentLine, hcurrent]
  dsimp only
  rw [if_pos (by simp [hform]), hline]

/-- What holds of a viewer that has just been drawn. -/
structure Framed (source : List String) (l : Layout) (v : Viewer) : Prop where
  /-- The lists start at an offset from which on they fill the pane, if they can. -/
  environment_le : v.environmentScroll.offset ≤
    (EnvironmentPane.rows l.environment.columns v.bindings).length - l.environment.visible
  heap_le : v.heapScroll.offset ≤
    (HeapPane.rows l.heap.columns (v.history.current?.map (·.heap))).length - l.heap.visible
  terminal_le : TerminalPane.items v.history.current? ≠ [] →
    v.terminalScroll ≤ (TerminalPane.items v.history.current?).length - l.terminal.visible
  terminal_farthest : v.terminalScroll ≤ Scroll.farthest
  source_eq : v.source = source
  source_le : v.sourceScroll.offset ≤ source.length - l.source.visible
  row : ∃ row < l.source.visible, v.sourceScroll.row = some row
  /-- The line of the current form is one of those in the pane, if the text has it. -/
  shown : ∀ line, v.AtLine line → 1 ≤ line → line ≤ source.length →
    v.sourceScroll.offset ≤ line - 1 ∧ line - 1 < v.sourceScroll.offset + l.source.visible ∧
      ∃ text, source[line - 1]? = some text ∧ (text, line) ∈ Pane.window l.source v.sourceScroll.offset (source.zipIdx 1)
  /-- Another drawing would change nothing. -/
  steady : v.settle l = v

theorem terminalScroll_settle_le_items (v : Viewer) (l : Layout) (hitems : TerminalPane.items v.history.current? ≠ []) :
    (v.settle l).terminalScroll ≤ (TerminalPane.items v.history.current?).length - l.terminal.visible := by
  unfold settle
  dsimp only
  rw [if_neg (mt List.length_eq_zero_iff.1 hitems)]
  exact Scroll.inRange_le _ _ _

/-- A drawing changes nothing if each pane's rule leaves the offset of the pane alone. -/
theorem settle_eq_self (hsource : v.sourceScroll.settle v.currentLine v.source.length l.source.visible = v.sourceScroll)
    (hterminal : TerminalPane.items v.history.current? ≠ [] →
      v.terminalScroll ≤ (TerminalPane.items v.history.current?).length - l.terminal.visible)
    (henvironment : v.environmentScroll.follow (EnvironmentPane.count v.bindings) l.environment.visible =
      v.environmentScroll)
    (hheap : v.heapScroll.hold (HeapPane.count (v.history.current?.map (·.heap))) l.heap.visible = v.heapScroll) :
    v.settle l = v := by
  have hkept : (if (TerminalPane.items v.history.current?).length = 0 then v.terminalScroll
      else Scroll.inRange (TerminalPane.items v.history.current?).length l.terminal.visible v.terminalScroll) =
      v.terminalScroll := by
    split_ifs with hempty
    · rfl
    · exact Scroll.inRange_of_le (hterminal (mt List.length_eq_zero_iff.2 hempty))
  unfold settle
  dsimp only
  rw [hsource, hkept, henvironment, hheap]

theorem settle_settle (v : Viewer) (l : Layout) : (v.settle l).settle l = v.settle l :=
  settle_eq_self (SourceScroll.settle_settle _ _ _ _) (terminalScroll_settle_le_items v l)
    (ListScroll.follow_follow _ _ _) (ListScroll.hold_hold _ _ _)

/-- The window of the source has the line of the current form in it. -/
theorem Tame.shown (h : Tame source l v) {line : Nat} (hline : v.AtLine line) (hpos : 1 ≤ line)
    (hle : line ≤ source.length) :
    (v.settle l).sourceScroll.offset ≤ line - 1 ∧ line - 1 < (v.settle l).sourceScroll.offset + l.source.visible ∧
      ∃ text, source[line - 1]? = some text ∧
        (text, line) ∈ Pane.window l.source (v.settle l).sourceScroll.offset (source.zipIdx 1) := by
  obtain ⟨hle', hlt⟩ : (v.settle l).sourceScroll.offset ≤ line - 1 ∧
      line - 1 < (v.settle l).sourceScroll.offset + l.source.visible := by
    unfold Viewer.settle
    rw [hline.currentLine_eq, h.source_eq]
    exact SourceScroll.settle_shows l.source.visible_pos hpos hle
  have htext : source[line - 1]? = some (source.get ⟨line - 1, by omega⟩) := List.getElem?_eq_getElem _
  refine ⟨hle', hlt, _, htext, Pane.mem_window (i := line - 1) ?_ hle' hlt⟩
  rw [List.getElem?_zipIdx, htext, Option.map_some, Nat.add_sub_cancel' hpos]

theorem Tame.framed_settle (h : Tame source l v) : Framed source l (v.settle l) where
  environment_le := by
    rw [EnvironmentPane.length_rows]
    exact ListScroll.offset_follow_le _ _ _
  heap_le := by
    rw [HeapPane.length_rows]
    exact ListScroll.offset_hold_le _ _ _
  terminal_le := terminalScroll_settle_le_items v l
  terminal_farthest := h.settle.terminal_le
  source_eq := h.source_eq
  source_le := h.settle.source_le
  row := SourceScroll.settle_row _ _ _ l.source.visible_pos
  shown _ := h.shown
  steady := settle_settle v l

theorem Tame.framed_watch (h : Tame source l v) (turns : List (List Input)) : Framed source l (v.watch l turns) := by
  induction turns generalizing v with
  | nil => exact h.framed_settle
  | cons inputs turns ih => exact ih (h.settle.takeAll inputs)

end Viewer

/-- Whatever keys are pressed, however the history is played and whatever it holds: after every drawing the environment
and the heap are at most as far down as their last page, and so is the terminal unless it is empty; the line of the
current form is in the window of the source, if the source has such a line; and drawing again would change nothing. -/
theorem watch_framed (history : History) (source : String) (l : Layout) (turns : List (List Viewer.Input)) :
    Viewer.Framed (Text.sourceLines source) l ((Viewer.ofHistory history source).watch l turns) :=
  (Viewer.tame_ofHistory history source l).framed_watch turns

end BoxedScheme
