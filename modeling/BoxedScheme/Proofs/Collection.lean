import BoxedScheme.Proofs.Reach

/-!
# What a collection does

* `Pool.Swept p q keep n` : `q` is `p` with the live slots outside `keep`, `n` of them, freed;
* `Heap.Sound` : both pools satisfy the representation invariant;
* `Heap.Collected` : the outcome of a collection, in terms of what the roots reach;
* `collect_exact` : every collection of a sound heap has that outcome, whatever the extra roots are, and depends
  on the extra roots as a set only.
-/

namespace BoxedScheme

/-! ## Sweeping a pool -/

namespace Pool

variable {α : Type} [Inhabited α] {p : Pool α}

/-- A sweep keeps the live slots in `keep` as they are and frees the others, `freed` of them. -/
structure Swept (p q : Pool α) (keep : UInt32 → Prop) (freed : Nat) : Prop where
  capacity : q.capacity = p.capacity
  isLive : ∀ i, q.IsLive i ↔ p.IsLive i ∧ keep i
  read_live : ∀ i, q.IsLive i → q.read i = p.read i
  read_dead : ∀ i, ¬ q.IsLive i → q.read i = default
  /-- The freed slots are put on top of the free stack by index. -/
  free : ∃ indices : List UInt32, q.free.toList = p.free.toList ++ indices ∧ indices.length = freed ∧
    indices.Pairwise (· < ·) ∧ ∀ i, i ∈ indices ↔ p.IsLive i ∧ ¬ keep i
  unmarked : Heap.Clear q.marks

theorem Swept.freeCount_le {q : Pool α} {keep : UInt32 → Prop} {freed : Nat} (hpq : p.Swept q keep freed) :
    p.freeCount ≤ q.freeCount := by
  obtain ⟨indices, hfree, -⟩ := hpq.free
  show p.free.size ≤ q.free.size
  rw [← Array.length_toList, ← Array.length_toList, hfree, List.length_append]
  exact Nat.le_add_right _ _

theorem Sound.release_garbage (hp : p.Sound) (marks : Array Bool) : (p.release (p.garbage marks)).Sound := by
  refine hp.release ?_ fun i hi => ((mem_garbage hp.capacity_le i).1 hi).1
  exact (garbage_ascending hp.capacity_le).imp fun hlt => UInt32.ne_of_lt hlt

theorem Sound.swept (hp : p.Sound) {marks : Array Bool} {keep : UInt32 → Prop}
    (hkeep : ∀ i, p.IsLive i → (Heap.Marked marks i ↔ keep i)) :
    p.Swept (p.release (p.garbage marks)) keep (p.garbage marks).size := by
  have hmem (i : UInt32) : i ∈ p.garbage marks ↔ p.IsLive i ∧ ¬ keep i := by
    rw [mem_garbage hp.capacity_le]
    refine and_congr_right fun hlive => ?_
    rw [← hkeep i hlive, Heap.Marked, Array.getD_eq_getD_getElem?]
    cases marks[i.toNat]? with
    | none => simp
    | some b => cases b <;> simp
  have hsound := hp.release_garbage marks
  have hlive (i : UInt32) : (p.release (p.garbage marks)).IsLive i ↔ p.IsLive i ∧ keep i := by
    rw [isLive_release, hmem]
    tauto
  refine ⟨capacity_release .., hlive, fun i hi => ?_, hsound.read_dead, ?_, hsound.unmarked⟩
  · rw [read_release, if_neg]
    exact fun hg => ((hmem i).1 hg).2 ((hlive i).1 hi).2
  · refine ⟨(p.garbage marks).toList, Array.toList_append, Array.length_toList, ?_, fun i => ?_⟩
    · exact garbage_ascending hp.capacity_le
    · rw [Array.mem_toList_iff, hmem]

end Pool

/-! ## Collecting -/

namespace Heap

structure Sound (h : Heap) : Prop where
  cells : h.cells.Sound
  strings : h.strings.Sound

/-- A collection of `h` with the given extra roots leaves `h'` and reports `report`. -/
structure Collected (h : Heap) (extra : List Word) (report : CollectorReport) (h' : Heap) : Prop where
  cells : h.cells.Swept h'.cells (h.ReachesCell (h.roots.toList ++ extra)) report.cellsFreed
  strings : h.strings.Swept h'.strings (h.ReachesText (h.roots.toList ++ extra)) report.stringsFreed
  cellsLive : report.cellsLive = h'.cells.live.count true
  stringsLive : report.stringsLive = h'.strings.live.count true
  stats : h'.stats =
    { collections := h.stats.collections + 1
      cellsFreed := h.stats.cellsFreed + report.cellsFreed
      stringsFreed := h.stats.stringsFreed + report.stringsFreed
      lastCellsFreed := report.cellsFreed
      lastStringsFreed := report.stringsFreed }
  roots : h'.roots = h.roots
  rootCapacity : h'.rootCapacity = h.rootCapacity

variable {h : Heap}

theorem Sound.collect (hs : h.Sound) (extra : List Word) : (h.collect extra).2.Sound :=
  ⟨hs.cells.release_garbage _, hs.strings.release_garbage _⟩

theorem Sound.collected (hs : h.Sound) (extra : List Word) :
    h.Collected extra (h.collect extra).1 (h.collect extra).2 := by
  have hsound := hs.collect extra
  refine ⟨hs.cells.swept fun i hi => ?_, hs.strings.swept fun i hi => ?_, hsound.cells.inUse_eq,
    hsound.strings.inUse_eq, rfl, rfl, rfl⟩
  · rw [marked_cells_markFrom hs.cells.unmarked hs.strings.unmarked, and_iff_right hi.lt]
  · rw [marked_strings_markFrom hs.cells.unmarked hs.strings.unmarked, and_iff_right hi.lt]

/-- Marks with the same size are the same if they mark the same slots. -/
theorem marks_ext {a b : Array Bool} (hsize : a.size = b.size) (hle : a.size ≤ 0xffffffff)
    (hmark : ∀ i, Marked a i ↔ Marked b i) : a = b := by
  refine Array.ext hsize fun k ha hb => ?_
  have hk := hmark (.ofNat k)
  rw [Marked, Marked, Pool.toNat_ofNat (by omega), Array.getElem?_eq_getElem ha, Array.getElem?_eq_getElem hb,
    Option.some_inj, Option.some_inj] at hk
  exact Bool.eq_iff_iff.2 hk

/-- Marking depends on the words as a set. -/
theorem Sound.markFrom_congr (hs : h.Sound) {ws vs : List Word} (hmem : ∀ w, w ∈ ws ↔ w ∈ vs) :
    h.markFrom ws = h.markFrom vs := by
  have hreach (w : Word) : h.Reaches ws w ↔ h.Reaches vs w :=
    ⟨fun hw => hw.mono fun v hv => (hmem v).1 hv, fun hw => hw.mono fun v hv => (hmem v).2 hv⟩
  obtain ⟨hwc, hws⟩ := size_markFrom h ws
  obtain ⟨hvc, hvs⟩ := size_markFrom h vs
  have hcells : (h.markFrom ws).cells = (h.markFrom vs).cells := by
    refine marks_ext (hwc.trans hvc.symm) (hwc ▸ hs.cells.capacity_le) fun i => ?_
    simp only [marked_cells_markFrom hs.cells.unmarked hs.strings.unmarked, ReachesCell, hreach]
  have hstrings : (h.markFrom ws).strings = (h.markFrom vs).strings := by
    refine marks_ext (hws.trans hvs.symm) (hws ▸ hs.strings.capacity_le) fun i => ?_
    simp only [marked_strings_markFrom hs.cells.unmarked hs.strings.unmarked, ReachesText, hreach]
  exact congrArg₂ Marks.mk hcells hstrings

/-- A collection frees exactly the live slots that neither the root stack nor the extra roots reach, counts
them, and leaves everything else alone; the order and repetition of the extra roots do not matter. -/
theorem collect_exact (hs : h.Sound) (extra : List Word) :
    h.Collected extra (h.collect extra).1 (h.collect extra).2 ∧
      ∀ extra' : List Word, (∀ w, w ∈ extra' ↔ w ∈ extra) → h.collect extra' = h.collect extra := by
  refine ⟨hs.collected extra, fun extra' hmem => ?_⟩
  have hmarks : h.markFrom (h.roots.toList ++ extra') = h.markFrom (h.roots.toList ++ extra) :=
    hs.markFrom_congr fun w => by rw [List.mem_append, List.mem_append, hmem]
  unfold collect
  rw [hmarks]

/-- Two pairs that hold each other, the first of them a root, and a third pair with a string that nothing
refers to. -/
def ring : Heap where
  cells := (((Pool.fresh 4).fill 0 ⟨.nil, .pair 1⟩).fill 1 ⟨.pair 0, .pair 0⟩).fill 2 ⟨.string 0, .nil⟩
  strings := (Pool.fresh 1).fill 0 "lost".toUTF8
  roots := #[.pair 0]
  rootCapacity := 1
  stats := {}

theorem sound_ring : ring.Sound where
  cells := (((Pool.Sound.fresh (by decide)).fill (by cbv) _).fill (by cbv) _).fill (by cbv) _
  strings := (Pool.Sound.fresh (by decide)).fill (by cbv) _

/-- In the ring the third pair and its string go, also with a stale pair and one outside the pool as extra
roots. -/
theorem collect_exact_ring :
    ring.Sound ∧ ring.Collected [.pair 3, .pair 9] ⟨1, 1, 2, 0⟩ (ring.collect [.pair 3, .pair 9]).2 ∧
      ring.collect [.pair 9, .pair 3, .pair 9] = ring.collect [.pair 3, .pair 9] := by
  obtain ⟨hcollected, hsame⟩ := collect_exact sound_ring [.pair 3, .pair 9]
  have hreport : (ring.collect [.pair 3, .pair 9]).1 = ⟨1, 1, 2, 0⟩ := by cbv
  rw [hreport] at hcollected
  exact ⟨sound_ring, hcollected, hsame _ (by simp)⟩

end Heap

end BoxedScheme
