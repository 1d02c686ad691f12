import BoxedScheme.Heap.Collector
import BoxedScheme.Proofs.Pools
import BoxedScheme.Proofs.Words

/-!
# What words reach, and what marking marks

* `Reaches h ws w` : the word `w` is among `ws` or is held by a cell that a reached pair or closure refers to;
* `ReachesCell`, `ReachesText` : the slots that the reached words refer to;
* `marked_cells_markFrom`, `marked_strings_markFrom` : from clear marks, marking marks the reached slots of each
  pool and no others.

Marking is shown right by two invariants of its loop: nothing outside a closed set that holds the pending cells
is ever marked, and what a marked cell refers to is marked or pending.
-/

namespace BoxedScheme.Heap

/-! ## Reachability -/

/-- The words that the given ones lead to through pairs and closures. -/
inductive Reaches (h : Heap) (ws : List Word) : Word → Prop where
  | root {w : Word} : w ∈ ws → Reaches h ws w
  | car {w : Word} : Reaches h ws w → w.hasCell → Reaches h ws (h.cells.read w.payload).car
  | cdr {w : Word} : Reaches h ws w → w.hasCell → Reaches h ws (h.cells.read w.payload).cdr

def ReachesCell (h : Heap) (ws : List Word) (i : UInt32) : Prop :=
  ∃ w, h.Reaches ws w ∧ w.hasCell ∧ w.payload = i

def ReachesText (h : Heap) (ws : List Word) (i : UInt32) : Prop :=
  ∃ w, h.Reaches ws w ∧ w.hasText ∧ w.payload = i

variable {h : Heap} {ws vs : List Word} {w : Word} {i : UInt32}

/-- What is reached from words that are reached is reached. -/
theorem Reaches.trans (hw : h.Reaches ws w) (hws : ∀ v ∈ ws, h.Reaches vs v) : h.Reaches vs w := by
  induction hw with
  | root hmem => exact hws _ hmem
  | car _ hc ih => exact ih.car hc
  | cdr _ hc ih => exact ih.cdr hc

theorem Reaches.mono (hw : h.Reaches ws w) (hws : ∀ v ∈ ws, v ∈ vs) : h.Reaches vs w :=
  hw.trans fun v hv => .root (hws v hv)

/-! ## Marks -/

def Marked (marks : Array Bool) (i : UInt32) : Prop := marks[i.toNat]? = some true

/-- A slot without a place in the array counts as marked for the loop, but has no mark. -/
theorem getD_true_eq_false_iff {marks : Array Bool} :
    marks.getD i.toNat true = false ↔ i.toNat < marks.size ∧ ¬ Marked marks i := by
  rw [Marked, Array.getD_eq_getD_getElem?]
  by_cases hlt : i.toNat < marks.size
  · simp [hlt]
  · simp [hlt]

theorem marked_set {marks : Array Bool} {j : UInt32} :
    Marked (marks.setIfInBounds i.toNat true) j ↔ Marked marks j ∨ (j = i ∧ i.toNat < marks.size) := by
  rw [Marked, Marked, Array.getElem?_setIfInBounds]
  by_cases hij : j = i
  · subst hij
    by_cases hlt : j.toNat < marks.size <;> simp [hlt]
  · have : i.toNat ≠ j.toNat := fun h => hij (UInt32.toNat_inj.1 h).symm
    simp [hij, this]

@[simp] theorem size_markString (w : Word) (marks : Array Bool) : (markString w marks).size = marks.size := by
  unfold markString
  split <;> simp

theorem marked_markString {marks : Array Bool} :
    Marked (markString w marks) i ↔ Marked marks i ∨ (w.hasText ∧ w.payload = i ∧ i.toNat < marks.size) := by
  show Marked (if w.hasText then _ else _) i ↔ _
  by_cases ht : w.hasText
  · rw [if_pos ht, marked_set]
    constructor
    · rintro (hm | ⟨rfl, hlt⟩)
      · exact .inl hm
      · exact .inr ⟨ht, rfl, hlt⟩
    · rintro (hm | ⟨-, rfl, hlt⟩)
      · exact .inl hm
      · exact .inr ⟨rfl, hlt⟩
  · rw [if_neg ht]
    simp [ht]

theorem mem_withCell {pending : List UInt32} :
    i ∈ withCell w pending ↔ (w.hasCell ∧ w.payload = i) ∨ i ∈ pending := by
  show (i ∈ if w.hasCell then _ else _) ↔ _
  by_cases hc : w.hasCell
  · rw [if_pos hc, List.mem_cons]
    simp [hc, eq_comm]
  · rw [if_neg hc]
    simp [hc]

/-! ## The loop -/

theorem size_mark (h : Heap) (cells strings : Array Bool) (pending : List UInt32) :
    (h.mark cells strings pending).cells.size = cells.size ∧
      (h.mark cells strings pending).strings.size = strings.size := by
  fun_induction mark h cells strings pending with
  | case1 cells strings => exact ⟨rfl, rfl⟩
  | case2 cells strings i pending hi cell ih => simpa using ih
  | case3 cells strings i pending hi ih => exact ih

/-- Marks are only added. -/
theorem mark_mono (h : Heap) (cells strings : Array Bool) (pending : List UInt32) (i : UInt32) :
    (Marked cells i → Marked (h.mark cells strings pending).cells i) ∧
      (Marked strings i → Marked (h.mark cells strings pending).strings i) := by
  fun_induction mark h cells strings pending with
  | case1 cells strings => exact ⟨id, id⟩
  | case2 cells strings k pending hk cell ih =>
    refine ⟨fun hm => ih.1 (marked_set.2 (.inl hm)), fun hm => ih.2 ?_⟩
    exact marked_markString.2 (.inl (marked_markString.2 (.inl hm)))
  | case3 cells strings k pending hk ih => exact ih

/-- Sets of cells and string slots that hold whatever their cells refer to. -/
structure Closed (h : Heap) (C T : UInt32 → Prop) : Prop where
  cell : ∀ i, C i → ∀ w, w = (h.cells.read i).car ∨ w = (h.cells.read i).cdr → w.hasCell → C w.payload
  text : ∀ i, C i → ∀ w, w = (h.cells.read i).car ∨ w = (h.cells.read i).cdr → w.hasText → T w.payload

/-- Nothing outside a closed set that holds the pending cells is marked. -/
theorem mark_within {C T : UInt32 → Prop} (hCT : h.Closed C T) (cells strings : Array Bool)
    (pending : List UInt32) (hcells : ∀ i, Marked cells i → C i) (hstrings : ∀ i, Marked strings i → T i)
    (hpending : ∀ i ∈ pending, C i) :
    (∀ i, Marked (h.mark cells strings pending).cells i → C i) ∧
      ∀ i, Marked (h.mark cells strings pending).strings i → T i := by
  fun_induction mark h cells strings pending with
  | case1 cells strings => exact ⟨hcells, hstrings⟩
  | case2 cells strings k pending hk cell ih =>
    have hC : C k := hpending k (List.mem_cons_self ..)
    refine ih (fun i hi => ?_) (fun i hi => ?_) (fun i hi => ?_)
    · rcases marked_set.1 hi with hi | ⟨rfl, -⟩
      · exact hcells i hi
      · exact hC
    · rcases marked_markString.1 hi with hi | ⟨ht, rfl, -⟩
      · rcases marked_markString.1 hi with hi | ⟨ht, rfl, -⟩
        · exact hstrings i hi
        · exact hCT.text k hC _ (.inr rfl) ht
      · exact hCT.text k hC _ (.inl rfl) ht
    · rcases mem_withCell.1 hi with ⟨hc, rfl⟩ | hi
      · exact hCT.cell k hC _ (.inr rfl) hc
      · rcases mem_withCell.1 hi with ⟨hc, rfl⟩ | hi
        · exact hCT.cell k hC _ (.inl rfl) hc
        · exact hpending i (List.mem_cons_of_mem _ hi)
  | case3 cells strings k pending hk ih =>
    exact ih hcells hstrings fun i hi => hpending i (List.mem_cons_of_mem _ hi)

/-- What marked cells refer to is marked or, for cells, pending; slots outside the pools do not count. -/
structure Traced (h : Heap) (cells strings : Array Bool) (pending : List UInt32) : Prop where
  cell : ∀ i, Marked cells i → ∀ w, w = (h.cells.read i).car ∨ w = (h.cells.read i).cdr → w.hasCell →
    w.payload.toNat < cells.size → Marked cells w.payload ∨ w.payload ∈ pending
  text : ∀ i, Marked cells i → ∀ w, w = (h.cells.read i).car ∨ w = (h.cells.read i).cdr → w.hasText →
    w.payload.toNat < strings.size → Marked strings w.payload

/-- The loop keeps the trace: a cell is marked together with the texts it refers to, and the cells it refers to
become pending. -/
theorem Traced.step {cells strings : Array Bool} {pending : List UInt32}
    (ht : h.Traced cells strings (i :: pending)) :
    h.Traced (cells.setIfInBounds i.toNat true)
      (markString (h.cells.read i).car (markString (h.cells.read i).cdr strings))
      (withCell (h.cells.read i).cdr (withCell (h.cells.read i).car pending)) := by
  constructor
  · intro k hk w hw hc hlt
    rw [Array.size_setIfInBounds] at hlt
    rcases marked_set.1 hk with hk | ⟨rfl, -⟩
    · rcases ht.cell k hk w hw hc hlt with hm | hm
      · exact .inl (marked_set.2 (.inl hm))
      · rcases List.mem_cons.1 hm with hm | hm
        · exact .inl (marked_set.2 (.inr ⟨hm, hm ▸ hlt⟩))
        · exact .inr (mem_withCell.2 (.inr (mem_withCell.2 (.inr hm))))
    · rcases hw with rfl | rfl
      · exact .inr (mem_withCell.2 (.inr (mem_withCell.2 (.inl ⟨hc, rfl⟩))))
      · exact .inr (mem_withCell.2 (.inl ⟨hc, rfl⟩))
  · intro k hk w hw hx hlt
    rw [size_markString, size_markString] at hlt
    rcases marked_set.1 hk with hk | ⟨rfl, -⟩
    · have hm := ht.text k hk w hw hx hlt
      exact marked_markString.2 (.inl (marked_markString.2 (.inl hm)))
    · rcases hw with rfl | rfl
      · exact marked_markString.2 (.inr ⟨hx, rfl, by rwa [size_markString]⟩)
      · exact marked_markString.2 (.inl (marked_markString.2 (.inr ⟨hx, rfl, hlt⟩)))

/-- A cell that is marked already, or lies outside the pool, need not be pending. -/
theorem Traced.skip {cells strings : Array Bool} {pending : List UInt32}
    (ht : h.Traced cells strings (i :: pending)) (hi : ¬ (i.toNat < cells.size ∧ ¬ Marked cells i)) :
    h.Traced cells strings pending := by
  refine ⟨fun k hk w hw hc hlt => ?_, ht.text⟩
  rcases ht.cell k hk w hw hc hlt with hm | hm
  · exact .inl hm
  · rcases List.mem_cons.1 hm with rfl | hm
    · exact .inl (by by_contra hn; exact hi ⟨hlt, hn⟩)
    · exact .inr hm

/-- When the loop ends, every pending cell of the pool is marked and nothing is left to trace. -/
theorem mark_traced (cells strings : Array Bool) (pending : List UInt32) (ht : h.Traced cells strings pending) :
    h.Traced (h.mark cells strings pending).cells (h.mark cells strings pending).strings [] ∧
      ∀ i ∈ pending, i.toNat < cells.size → Marked (h.mark cells strings pending).cells i := by
  fun_induction mark h cells strings pending with
  | case1 cells strings => exact ⟨ht, fun i hi => by cases hi⟩
  | case2 cells strings k pending hk cell ih =>
    obtain ⟨htraced, hdone⟩ := ih ht.step
    refine ⟨htraced, fun i hi hlt => ?_⟩
    rcases List.mem_cons.1 hi with rfl | hi
    · exact (mark_mono ..).1 (marked_set.2 (.inr ⟨rfl, hlt⟩))
    · refine hdone i ?_ (by simpa using hlt)
      exact mem_withCell.2 (.inr (mem_withCell.2 (.inr hi)))
  | case3 cells strings k pending hk ih =>
    have hskip : ¬ (k.toNat < cells.size ∧ ¬ Marked cells k) := fun hn => hk (getD_true_eq_false_iff.2 hn)
    obtain ⟨htraced, hdone⟩ := ih (ht.skip hskip)
    refine ⟨htraced, fun i hi hlt => ?_⟩
    rcases List.mem_cons.1 hi with rfl | hi
    · refine (mark_mono ..).1 ?_
      by_contra hn
      exact hskip ⟨hlt, hn⟩
    · exact hdone i hi hlt

/-! ## Marking from words -/

theorem mem_foldl_withCell (ws : List Word) (pending : List UInt32) :
    i ∈ ws.foldl (fun pending w => withCell w pending) pending ↔
      (∃ w ∈ ws, w.hasCell ∧ w.payload = i) ∨ i ∈ pending := by
  induction ws generalizing pending with
  | nil => simp
  | cons v ws ih =>
    rw [List.foldl_cons, ih, mem_withCell]
    constructor
    · rintro (⟨w, hw, hc⟩ | hc | hi)
      · exact .inl ⟨w, List.mem_cons_of_mem _ hw, hc⟩
      · exact .inl ⟨v, List.mem_cons_self .., hc⟩
      · exact .inr hi
    · rintro (⟨w, hw, hc⟩ | hi)
      · rcases List.mem_cons.1 hw with rfl | hw
        · exact .inr (.inl hc)
        · exact .inl ⟨w, hw, hc⟩
      · exact .inr (.inr hi)

theorem size_foldl_markString (ws : List Word) (marks : Array Bool) :
    (ws.foldl (fun marks w => markString w marks) marks).size = marks.size := by
  induction ws generalizing marks with
  | nil => rfl
  | cons v ws ih => rw [List.foldl_cons, ih, size_markString]

theorem marked_foldl_markString (ws : List Word) (marks : Array Bool) :
    Marked (ws.foldl (fun marks w => markString w marks) marks) i ↔
      (∃ w ∈ ws, w.hasText ∧ w.payload = i ∧ i.toNat < marks.size) ∨ Marked marks i := by
  induction ws generalizing marks with
  | nil => simp
  | cons v ws ih =>
    rw [List.foldl_cons, ih, marked_markString, size_markString]
    constructor
    · rintro (⟨w, hw, hc⟩ | hm | hc)
      · exact .inl ⟨w, List.mem_cons_of_mem _ hw, hc⟩
      · exact .inr hm
      · exact .inl ⟨v, List.mem_cons_self .., hc⟩
    · rintro (⟨w, hw, hc⟩ | hm)
      · rcases List.mem_cons.1 hw with rfl | hw
        · exact .inr (.inr hc)
        · exact .inl ⟨w, hw, hc⟩
      · exact .inr (.inl hm)

/-- The reached slots are closed. -/
theorem closed_reaches (h : Heap) (ws : List Word) : h.Closed (h.ReachesCell ws) (h.ReachesText ws) := by
  constructor
  all_goals
    rintro i ⟨v, hv, hc, rfl⟩ w (rfl | rfl) hw
    · exact ⟨_, hv.car hc, hw, rfl⟩
    · exact ⟨_, hv.cdr hc, hw, rfl⟩

def Clear (marks : Array Bool) : Prop := ∀ k : Nat, marks.getD k false = false

theorem Clear.not_marked {marks : Array Bool} (hm : Clear marks) (i : UInt32) : ¬ Marked marks i := by
  have := hm i.toNat
  rw [Array.getD_eq_getD_getElem?] at this
  intro hi
  rw [Marked] at hi
  simp [hi] at this

section MarkFrom

variable (hcells : Clear h.cells.marks) (hstrings : Clear h.strings.marks)
include hcells hstrings

theorem markFrom_within (ws : List Word) :
    (∀ i, Marked (h.markFrom ws).cells i → h.ReachesCell ws i) ∧
      ∀ i, Marked (h.markFrom ws).strings i → h.ReachesText ws i := by
  refine mark_within (closed_reaches h ws) _ _ _ (fun i hi => ?_) (fun i hi => ?_) (fun i hi => ?_)
  · exact absurd hi (hcells.not_marked i)
  · rcases (marked_foldl_markString _ _).1 hi with ⟨w, hw, ht, rfl, -⟩ | hm
    · exact ⟨w, .root hw, ht, rfl⟩
    · exact absurd hm (hstrings.not_marked i)
  · rcases (mem_foldl_withCell _ _).1 hi with ⟨w, hw, hc, rfl⟩ | hm
    · exact ⟨w, .root hw, hc, rfl⟩
    · cases hm

omit hcells hstrings in
theorem size_markFrom (h : Heap) (ws : List Word) :
    (h.markFrom ws).cells.size = h.cells.capacity ∧ (h.markFrom ws).strings.size = h.strings.capacity := by
  rw [markFrom, (size_mark ..).1, (size_mark ..).2, size_foldl_markString, h.cells.size_marks,
    h.strings.size_marks]
  exact ⟨rfl, rfl⟩

omit hstrings in
/-- Nothing is left to trace, and the cells of the words themselves are marked. -/
theorem markFrom_traced (ws : List Word) :
    h.Traced (h.markFrom ws).cells (h.markFrom ws).strings [] ∧
      ∀ w ∈ ws, w.hasCell → w.payload.toNat < h.cells.capacity → Marked (h.markFrom ws).cells w.payload := by
  have hstart : h.Traced h.cells.marks (ws.foldl (fun strings w => markString w strings) h.strings.marks)
      (ws.foldl (fun pending w => withCell w pending) []) :=
    ⟨fun i hi => absurd hi (hcells.not_marked i), fun i hi => absurd hi (hcells.not_marked i)⟩
  obtain ⟨htraced, hdone⟩ := mark_traced _ _ _ hstart
  refine ⟨htraced, fun w hw hc hlt => hdone _ ?_ ?_⟩
  · exact (mem_foldl_withCell _ _).2 (.inl ⟨w, hw, hc, rfl⟩)
  · rw [h.cells.size_marks]
    exact hlt

/-- The slot of the word is marked, if it lies in its pool. -/
def WordMarked (h : Heap) (marks : Marks) (w : Word) : Prop :=
  (w.hasCell → w.payload.toNat < h.cells.capacity → Marked marks.cells w.payload) ∧
    (w.hasText → w.payload.toNat < h.strings.capacity → Marked marks.strings w.payload)

omit hstrings in
/-- What a marked cell holds is marked. A cell outside the pool reads as holding no reference. -/
theorem WordMarked.held {ws : List Word} {v w : Word} (hv : h.WordMarked (h.markFrom ws) v) (hc : v.hasCell)
    (hw : w = (h.cells.read v.payload).car ∨ w = (h.cells.read v.payload).cdr) :
    h.WordMarked (h.markFrom ws) w := by
  obtain ⟨htraced, -⟩ := markFrom_traced hcells ws
  obtain ⟨hsc, hss⟩ := size_markFrom h ws
  by_cases hlt : v.payload.toNat < h.cells.capacity
  · refine ⟨fun hwc hwlt => ?_, fun ht hwlt => ?_⟩
    · rcases htraced.cell _ (hv.1 hc hlt) w hw hwc (by rwa [hsc]) with hm | hm
      · exact hm
      · cases hm
    · exact htraced.text _ (hv.1 hc hlt) w hw ht (by rwa [hss])
  · rw [Pool.read_of_not_lt hlt] at hw
    have hnone : w = Word.error := by rcases hw with rfl | rfl <;> rfl
    subst hnone
    exact ⟨fun hwc => absurd hwc (by decide), fun ht => absurd ht (by decide)⟩

omit hstrings in
/-- Every reached word has its slot marked. -/
theorem markFrom_reaches {ws : List Word} {w : Word} (hw : h.Reaches ws w) :
    h.WordMarked (h.markFrom ws) w := by
  induction hw with
  | root hmem =>
    refine ⟨(markFrom_traced hcells ws).2 _ hmem, fun ht hlt => ?_⟩
    refine (mark_mono ..).2 ((marked_foldl_markString _ _).2 (.inl ⟨_, hmem, ht, rfl, ?_⟩))
    rw [h.strings.size_marks]
    exact hlt
  | car _ hc ih => exact ih.held hcells hc (.inl rfl)
  | cdr _ hc ih => exact ih.held hcells hc (.inr rfl)

/-- Marking from clear marks marks the reached cells of the pool and no others. -/
theorem marked_cells_markFrom (ws : List Word) (i : UInt32) :
    Marked (h.markFrom ws).cells i ↔ i.toNat < h.cells.capacity ∧ h.ReachesCell ws i := by
  constructor
  · intro hi
    refine ⟨?_, (markFrom_within hcells hstrings ws).1 i hi⟩
    obtain ⟨hlt, -⟩ := Array.getElem?_eq_some_iff.1 hi
    rwa [(size_markFrom h ws).1] at hlt
  · rintro ⟨hlt, w, hw, hc, rfl⟩
    exact (markFrom_reaches hcells hw).1 hc hlt

theorem marked_strings_markFrom (ws : List Word) (i : UInt32) :
    Marked (h.markFrom ws).strings i ↔ i.toNat < h.strings.capacity ∧ h.ReachesText ws i := by
  constructor
  · intro hi
    refine ⟨?_, (markFrom_within hcells hstrings ws).2 i hi⟩
    obtain ⟨hlt, -⟩ := Array.getElem?_eq_some_iff.1 hi
    rwa [(size_markFrom h ws).2] at hlt
  · rintro ⟨hlt, w, hw, hc, rfl⟩
    exact (markFrom_reaches hcells hw).2 hc hlt

end MarkFrom

end BoxedScheme.Heap
