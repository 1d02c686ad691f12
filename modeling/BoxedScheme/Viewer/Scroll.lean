/-!
# Scrolling

A pane shows as many rows as fit, from an offset on. Keys move the offset freely; before each drawing it is
brought back into range, by a rule of the pane's own.
-/

namespace BoxedScheme

namespace Scroll

/-- The largest offset keys can reach; it stands for the end, wherever that is. -/
def farthest : Nat := 0xffffffffffffffff

inductive Direction where
  | up
  | down
deriving DecidableEq

def move : Direction → Nat → Nat
  | .up, offset => offset - 1
  | .down, offset => min (offset + 1) farthest

/-- The nearest offset that leaves no row empty, if there are items enough. -/
def inRange (items visible offset : Nat) : Nat := min offset (items - visible)

end Scroll

/-- The offset in a list of items, and the number of items when it was last drawn. -/
structure ListScroll where
  offset : Nat := 0
  seen : Nat := 0
deriving DecidableEq

namespace ListScroll

def move (d : Scroll.Direction) (s : ListScroll) : ListScroll :=
  { s with offset := Scroll.move d s.offset }

/-- Keeps the place. -/
def hold (items visible : Nat) (s : ListScroll) : ListScroll :=
  ⟨Scroll.inRange items visible s.offset, items⟩

/-- Keeps the place, but goes to the end when there are more items than before. -/
def follow (items visible : Nat) (s : ListScroll) : ListScroll :=
  hold items visible (if s.seen < items then { s with offset := Scroll.farthest } else s)

end ListScroll

/-- The offset in the source text, and the row in which the current line is kept. -/
structure SourceScroll where
  offset : Nat := 0
  row : Option Nat := none
deriving DecidableEq

namespace SourceScroll

/-- Moves the current line against the direction of scrolling. -/
def move (d : Scroll.Direction) (s : SourceScroll) : SourceScroll :=
  { s with row := s.row.map fun row =>
      match d with
      | .up => Scroll.move .down row
      | .down => Scroll.move .up row }

/-- Puts line number `current` into its row, as far as the ends of the text allow; at first that is the
middle one. A number outside the text leaves the offset as it was. -/
def settle (current total visible : Nat) (s : SourceScroll) : SourceScroll :=
  let row := min (s.row.getD (visible / 2)) (visible - 1)
  { row := some row
    offset :=
      if 0 < current ∧ current ≤ total then Scroll.inRange total visible (current - 1 - row)
      else s.offset }

end SourceScroll

end BoxedScheme
