import BoxedScheme.Printer
import BoxedScheme.Text.Column
import BoxedScheme.Viewer.Screen

/-!
# The heap in rows

How full the pools are, what the collector did, and every live cell and string by its index. Nested pairs and
closures are shown by index too, so that a cell is always one row.
-/

namespace BoxedScheme

namespace HeapRows

/-- The length of the bar for a full pool. -/
def barLength : Nat := 20

/-- The share of a pool that is in use. -/
def share (used capacity : Nat) : Float :=
  if capacity = 0 then 0 else .ofNat used / .ofNat capacity

/-- A pool is crowded above seven eighths and busy above one half. -/
def shareColor (share : Float) : Color :=
  if share > 0.875 then Theme.red else if share > 0.5 then Theme.orange else Theme.green

def usage (label : String) (used capacity : Nat) : Line :=
  let share := share used capacity
  let filled := (share * .ofNat barLength).round.toUInt64.toNat
  [⟨Text.padRight label 8, .ink Theme.grey⟩,
    ⟨.ofList (List.replicate filled '█'), .ink (shareColor share)⟩,
    ⟨.ofList (List.replicate (barLength - filled) '░'), .ink Theme.grey⟩,
    ⟨s!" {used}/{capacity}", .ink Theme.blue⟩]

def collector (s : CollectorStats) : Line :=
  [⟨s!"gc: {s.collections} runs, last freed {s.lastCellsFreed} cells / {s.lastStringsFreed} strings",
    .ink Theme.grey⟩]

def heading (text : String) : Line := [⟨text, (Style.ink Theme.text).strong⟩]

/-- The index of a slot, behind the mark of its pool. -/
def label (mark : String) (index : UInt32) : String :=
  "  " ++ mark ++ Text.padRight (toString index.toNat) 6

def cell (h : Heap) (width : Nat) (index : UInt32) (c : Cell) : Line :=
  let label := label "#" index
  let room := (width - (label.length + 3)) / 2
  [⟨label, .ink Theme.grey⟩,
    ⟨Text.truncate (h.describe c.car) room, .ink Theme.text⟩,
    ⟨" | ", .ink Theme.grey⟩,
    ⟨Text.truncate (h.describe c.cdr) room, .ink Theme.text⟩]

def string (width : Nat) (index : UInt32) (bytes : ByteArray) : Line :=
  let label := label "s" index
  [⟨label, .ink Theme.grey⟩,
    ⟨Text.truncate (Text.ofBytes bytes) (width - label.length), .ink Theme.orange⟩]

/-- All rows, for a pane of the given inner width. -/
def lines (h : Heap) (width : Nat) : List Line :=
  [usage "cells" h.cells.inUse h.cells.capacity,
    usage "strings" h.strings.inUse h.strings.capacity,
    collector h.stats, [], heading "Cells"]
    ++ h.cells.liveItems.toList.map (fun (i, c) => cell h width i c)
    ++ [[], heading "Strings"]
    ++ h.strings.liveItems.toList.map (fun (i, bytes) => string width i bytes)

/-- The number of rows, which does not depend on the width. -/
def count (h : Heap) : Nat := 7 + h.cells.liveItems.size + h.strings.liveItems.size

theorem length_lines (h : Heap) (width : Nat) : (lines h width).length = count h := by
  simp only [lines, count, List.length_append, List.length_cons, List.length_nil, List.length_map,
    Array.length_toList]
  omega

end HeapRows

end BoxedScheme
