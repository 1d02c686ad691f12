import BoxedScheme.Heap

/-!
# The collector

A collection marks every slot that the root stack and the given words reach, then frees the live slots
without a mark and clears the marks again. Pairs and closures reach what their cell holds; symbols and strings reach their string slot.
Marking works through a list of pending cells and never visits a cell twice, so cycles do not matter.
-/

namespace BoxedScheme

/-- What a collection did. -/
structure CollectorReport where
  cellsFreed : Nat
  stringsFreed : Nat
  cellsLive : Nat
  stringsLive : Nat
deriving DecidableEq

namespace Heap

/-- One mark for each slot of each pool. -/
structure Marks where
  cells : Array Bool
  strings : Array Bool

theorem count_set_true_lt (marks : Array Bool) (i : Nat) (h : marks.getD i true = false) :
    (marks.setIfInBounds i true).count false < marks.count false := by
  by_cases hi : i < marks.size
  · have hm : marks[i] = false := by simpa [Array.getD, hi] using h
    have hc : 0 < marks.count false := Array.count_pos_iff.2 (hm ▸ Array.getElem_mem hi)
    rw [Array.setIfInBounds, dif_pos hi, Array.count_set, hm]
    show marks.count false - 1 + 0 < marks.count false
    omega
  · simp [Array.getD, hi] at h

/-- The cells to visit with that of a word in front, if the word has one. -/
@[inline] def withCell (w : Word) (pending : List UInt32) : List UInt32 :=
  if w.isPair || w.isClosure then w.payload :: pending else pending

/-- The marks of strings with that of a word, if the word has one. -/
@[inline] def markString (w : Word) (strings : Array Bool) : Array Bool :=
  if w.isSymbol || w.isString then strings.setIfInBounds w.payload.toNat true else strings

/-- Marks the pending cells and everything they reach. -/
def mark (h : Heap) (cells strings : Array Bool) : List UInt32 → Marks
  | [] => ⟨cells, strings⟩
  | i :: pending =>
    if cells.getD i.toNat true = false then
      let cell := h.cells.read i
      mark h (cells.setIfInBounds i.toNat true) (markString cell.car (markString cell.cdr strings))
        (withCell cell.cdr (withCell cell.car pending))
    else mark h cells strings pending
termination_by pending => (cells.count false, pending.length)
decreasing_by
  · exact Prod.Lex.left _ _ (count_set_true_lt _ _ ‹_›)
  · exact Prod.Lex.right _ (Nat.lt_succ_self _)

/-- The marks of the heap with those of everything that the given words reach. -/
def markFrom (h : Heap) (words : List Word) : Marks :=
  h.mark h.cells.marks (words.foldl (fun strings w => markString w strings) h.strings.marks)
    (words.foldl (fun pending w => withCell w pending) [])

/-- Frees every live slot that neither the root stack nor the extra words reach. -/
def collect (h : Heap) (extra : List Word) : CollectorReport × Heap :=
  let marks := h.markFrom (h.roots.toList ++ extra)
  let deadCells := h.cells.garbage marks.cells
  let deadStrings := h.strings.garbage marks.strings
  let cells := h.cells.release deadCells
  let strings := h.strings.release deadStrings
  let report : CollectorReport := ⟨deadCells.size, deadStrings.size, cells.inUse, strings.inUse⟩
  let stats : CollectorStats :=
    { collections := h.stats.collections + 1
      cellsFreed := h.stats.cellsFreed + deadCells.size
      stringsFreed := h.stats.stringsFreed + deadStrings.size
      lastCellsFreed := deadCells.size
      lastStringsFreed := deadStrings.size }
  (report, { h with cells, strings, stats })

end Heap

end BoxedScheme
