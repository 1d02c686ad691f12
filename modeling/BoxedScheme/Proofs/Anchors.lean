import BoxedScheme.Proofs.Actions

/-!
# What the roots hold on to

An evaluation relies on words that it finds by way of cells no other evaluation changes, starting from the roots
below its own.

* `Anchored d lent ρ h w` : such a way leads to `w` from the first `d` roots or from the words `lent`;
* `Keeps d lent ρ h ρ' h'` : every anchored word is still live and leads where it led;
* `Grows.keeps` : actions without a collection keep the anchored words;
* `Typed.collect` : so does a collection, which leaves the other cells with their roles;
* `Machine.Valid.withRoots`, `Machine.Valid.maybeCollect` : changes of the root stack and collections on machines.
-/

namespace BoxedScheme

/-! ## Anchored words -/

/-- The words that the first `d` roots and those of the words `lent` that are live lead to through cells that
evaluations above root `d` leave alone. -/
inductive Anchored (d : Nat) (lent : List Word) (ρ : Roles) (h : Heap) : Word → Prop where
  | root {w : Word} : w ∈ h.roots.toList.take d → Anchored d lent ρ h w
  | lent {w : Word} : w ∈ lent → h.LiveWord w → Anchored d lent ρ h w
  | car {w : Word} : Anchored d lent ρ h w → w.hasCell → (ρ w.payload).Solid d →
    Anchored d lent ρ h (h.cells.read w.payload).car
  | cdr {w : Word} : Anchored d lent ρ h w → w.hasCell → (ρ w.payload).Solid d →
    Anchored d lent ρ h (h.cells.read w.payload).cdr

structure Keeps (d : Nat) (lent : List Word) (ρ : Roles) (h : Heap) (ρ' : Roles) (h' : Heap) : Prop where
  roots : h'.roots.toList.take d = h.roots.toList.take d
  live : ∀ w, Anchored d lent ρ h w → h'.LiveWord w
  fixed : ∀ w, Anchored d lent ρ h w → w.hasCell → (ρ w.payload).Fixed d → ρ' w.payload = ρ w.payload
  solid : ∀ w, Anchored d lent ρ h w → w.hasCell → (ρ w.payload).Solid d →
    h'.cells.read w.payload = h.cells.read w.payload

section Keeps

variable {d e : Nat} {lent lent' : List Word} {ρ ρ' ρ'' : Roles} {h h' h'' : Heap} {r : Role} {w : Word}

theorem Anchored.mono (hw : Anchored d lent ρ h w) (hde : d ≤ e) (hlent : lent ⊆ lent') :
    Anchored e lent' ρ h w := by
  induction hw with
  | root hmem => exact .root (List.take_subset_take_left _ hde hmem)
  | lent hmem hlive => exact .lent (hlent hmem) hlive
  | car _ hc hr ih => exact ih.car hc (hr.mono hde)
  | cdr _ hc hr ih => exact ih.cdr hc (hr.mono hde)

theorem Anchored.liveWord (hw : Anchored d lent ρ h w) (hh : h.Whole) (hroots : ∀ v ∈ h.roots, h.LiveWord v) :
    h.LiveWord w := by
  induction hw with
  | root hmem => exact hroots _ (Array.mem_toList_iff.1 (List.mem_of_mem_take hmem))
  | lent _ hlive => exact hlive
  | car _ hc _ ih => exact (hh _ (ih.cell hc)).1
  | cdr _ hc _ ih => exact (hh _ (ih.cell hc)).2

theorem Anchored.of_getElem? {i : Nat} (hw : h.roots[i]? = some w) (hi : i < d) : Anchored d lent ρ h w := by
  refine .root (List.mem_of_getElem? (i := i) ?_)
  rw [List.getElem?_take_of_lt hi, Array.getElem?_toList, hw]

theorem Anchored.reaches {extra : List Word} (hw : Anchored d lent ρ h w)
    (hlent : ∀ v ∈ lent, h.Reaches (h.roots.toList ++ extra) v) : h.Reaches (h.roots.toList ++ extra) w := by
  induction hw with
  | root hmem => exact .root (List.mem_append_left _ (List.mem_of_mem_take hmem))
  | lent hmem _ => exact hlent _ hmem
  | car _ hc _ ih => exact ih.car hc
  | cdr _ hc _ ih => exact ih.cdr hc

/-- The way to an anchored word is still there. -/
theorem Keeps.anchored (hk : Keeps d lent ρ h ρ' h') (hw : Anchored d lent ρ h w) : Anchored d lent ρ' h' w := by
  induction hw with
  | root hmem => exact .root (hk.roots ▸ hmem)
  | lent hmem hlive => exact .lent hmem (hk.live _ (.lent hmem hlive))
  | car hv hc hr ih =>
    rw [← hk.solid _ hv hc hr]
    exact ih.car hc (hk.fixed _ hv hc hr.fixed ▸ hr)
  | cdr hv hc hr ih =>
    rw [← hk.solid _ hv hc hr]
    exact ih.cdr hc (hk.fixed _ hv hc hr.fixed ▸ hr)

theorem Keeps.mono (hk : Keeps e lent' ρ h ρ' h') (hde : d ≤ e) (hlent : lent ⊆ lent') : Keeps d lent ρ h ρ' h' where
  roots := by
    have htake := congrArg (List.take d) hk.roots
    rwa [List.take_take, List.take_take, Nat.min_eq_left hde] at htake
  live w hw := hk.live w (hw.mono hde hlent)
  fixed w hw hc hr := hk.fixed w (hw.mono hde hlent) hc (hr.mono hde)
  solid w hw hc hr := hk.solid w (hw.mono hde hlent) hc (hr.mono hde)

theorem Keeps.fits (hk : Keeps d lent ρ h ρ' h') (ha : Anchored d lent ρ h w) (hw : Fits ρ h r w) (hr : r.Fixed d) :
    Fits ρ' h' r w := by
  refine ⟨hk.live w ha, fun hp => ?_, fun hc => ?_⟩
  · have hrole := hw.pair hp
    rw [hk.fixed w ha (Word.hasCell_of_isPair hp) (hrole ▸ hr), hrole]
  · have hrole := hw.closure hc
    rw [hk.fixed w ha (by simp [Word.hasCell, hc]) (hrole ▸ trivial), hrole]

theorem Grows.keeps (hg : Grows d ρ h ρ' h') (hlive : ∀ w, Anchored d lent ρ h w → h.LiveWord w) :
    Keeps d lent ρ h ρ' h' where
  roots := hg.roots
  live w hw := (hlive w hw).grow hg
  fixed w hw hc hr := hg.fixed _ ((hlive w hw).cell hc) hr
  solid w hw hc hr := hg.solid _ ((hlive w hw).cell hc) hr

/-- What is put behind a cell that is left alone is found there. -/
theorem Anchored.setCdr {b : Word} (hw : Anchored d lent ρ h w) (hc : w.hasCell) (hr : (ρ w.payload).Solid d)
    (hi : h.cells.IsLive w.payload) :
    Anchored d lent ρ { h with cells := h.cells.update w.payload ({ · with cdr := b }) } b := by
  have hread (j : UInt32) := Pool.read_update hi.lt (fun cell : Cell => { cell with cdr := b }) j
  -- A way to `w` first comes to its cell by fields that are as they were.
  have hway {v : Word} (hv : Anchored d lent ρ h v) :
      Anchored d lent ρ { h with cells := h.cells.update w.payload ({ · with cdr := b }) } v ∨
        Anchored d lent ρ { h with cells := h.cells.update w.payload ({ · with cdr := b }) } b := by
    induction hv with
    | root hmem => exact .inl (.root hmem)
    | lent hmem hlive => exact .inl (.lent hmem ⟨hlive.cell, hlive.text⟩)
    | @car v _ hcv hrv ih =>
      refine ih.imp_left fun hv => ?_
      have hcar := hv.car hcv hrv
      rw [hread] at hcar
      split at hcar
      · rwa [‹v.payload = w.payload›]
      · exact hcar
    | @cdr v _ hcv hrv ih =>
      rcases ih with hv | hb
      · have hcdr := hv.cdr hcv hrv
        rw [hread] at hcdr
        split at hcdr
        · exact .inr hcdr
        · exact .inl hcdr
      · exact .inr hb
  rcases hway hw with hw | hb
  · have hcdr := hw.cdr hc hr
    rwa [hread, if_pos rfl] at hcdr
  · exact hb

end Keeps

/-! ## Collections -/

section Collect

variable {d : Nat} {lent extra : List Word} {ρ : Roles} {h : Heap} {r : Role} {w : Word}

/-- The words that a collection starts from keep what they reach. -/
theorem Typed.liveWord_collect (ht : Typed ρ h) (hw : h.LiveWord w) (hreach : h.Reaches (h.roots.toList ++ extra) w) :
    (h.collect extra).2.LiveWord w := by
  have hcollected := ht.sound.collected extra
  refine ⟨fun hc => (hcollected.cells.isLive _).2 ⟨hw.cell hc, w, hreach, hc, rfl⟩, fun hc => ?_⟩
  exact (hcollected.strings.isLive _).2 ⟨hw.text hc, w, hreach, hc, rfl⟩

/-- A collection leaves the surviving cells with their roles. -/
theorem Typed.collect (ht : Typed ρ h) (extra : List Word) : Typed ρ (h.collect extra).2 := by
  have hcollected := ht.sound.collected extra
  refine ⟨ht.sound.collect extra, fun i hi => ?_⟩
  obtain ⟨hlive, v, hv, hc, rfl⟩ := (hcollected.cells.isLive i).1 hi
  rw [hcollected.cells.read_live _ hi]
  -- A cell that is left was reached, and so was what it holds.
  obtain ⟨p, q, hs, ha, hb⟩ := ht.cell _ hlive
  exact ⟨p, q, hs, ⟨ht.liveWord_collect ha.live (hv.car hc), ha.pair, ha.closure⟩,
    ⟨ht.liveWord_collect hb.live (hv.cdr hc), hb.pair, hb.closure⟩⟩

theorem Typed.collect_keeps (ht : Typed ρ h) (hlive : ∀ w, Anchored d lent ρ h w → h.LiveWord w)
    (hlent : ∀ v ∈ lent, h.Reaches (h.roots.toList ++ extra) v) : Keeps d lent ρ h ρ (h.collect extra).2 where
  roots := rfl
  live w hw := ht.liveWord_collect (hlive w hw) (hw.reaches hlent)
  fixed _ _ _ _ := rfl
  solid w hw hc _ := (ht.sound.collected extra).cells.read_live _
    ((ht.liveWord_collect (hlive w hw) (hw.reaches hlent)).cell hc)

end Collect

/-! ## Machines -/

section Machines

variable {d : Nat} {lent : List Word} {ρ : Roles} {m : Machine} {r : Role} {w : Word}

theorem Machine.Valid.keeps {ρ' : Roles} {h : Heap} (hv : m.Valid ρ) (hg : Grows d ρ m.heap ρ' h) :
    Keeps d lent ρ m.heap ρ' h := hg.keeps fun _ hw => hw.liveWord hv.typed.whole hv.roots

/-- Other roots in place of the ones above `d`. -/
theorem Machine.Valid.withRoots (hv : m.Valid ρ) {roots : Array Word} (hlive : ∀ w ∈ roots, m.heap.LiveWord w)
    (htake : roots.toList.take d = m.heap.roots.toList.take d) :
    (m.mapHeap fun h => { h with roots }).Valid ρ ∧
      Grows d ρ m.heap ρ (m.mapHeap fun h => { h with roots }).heap := by
  have hword {w : Word} (hw : m.heap.LiveWord w) : (m.mapHeap fun h => { h with roots }).heap.LiveWord w :=
    ⟨hw.cell, hw.text⟩
  have hfits {r : Role} {w : Word} (hw : Fits ρ m.heap r w) :
      Fits ρ (m.mapHeap fun h => { h with roots }).heap r w := ⟨hword hw.live, hw.pair, hw.closure⟩
  refine ⟨⟨⟨⟨⟨hv.typed.sound.cells, hv.typed.sound.strings⟩, fun i hi => ?_⟩, fun w hw => ?_⟩, fun w hw => ?_,
    hfits hv.globalEnv, hv.core⟩, fun _ hi => hi, fun _ hi => hi, fun _ _ _ => rfl, fun _ _ _ => rfl, htake⟩
  · obtain ⟨p, q, hs, ha, hb⟩ := hv.typed.cell i hi
    exact ⟨p, q, hs, hfits ha, hfits hb⟩
  · exact ⟨(hv.memory.symbols w hw).1, hword (hv.memory.symbols w hw).2⟩
  · exact hword (hlive w hw)

theorem Machine.Valid.settle (hv : m.Valid ρ) (n : Nat) : m.Valid fun i => (ρ i).settle n := by
  obtain ⟨ht, -, hfits⟩ := hv.typed.settle n
  exact ⟨⟨ht, hv.memory.symbols⟩, hv.roots, hfits _ _ hv.globalEnv, hv.core⟩

/-- Another content of the same role in place of that of cell `i`. -/
theorem Machine.Valid.update {i : UInt32} (hv : m.Valid ρ) (hi : m.heap.cells.IsLive i) (f : Cell → Cell)
    (hf : CellFits ρ m.heap (ρ i) (f (m.heap.cells.read i))) :
    (m.mapHeap fun h => { h with cells := h.cells.update i f }).Valid ρ ∧
      ∀ d, ¬ (ρ i).Solid d → Grows d ρ m.heap ρ (m.mapHeap fun h => { h with cells := h.cells.update i f }).heap := by
  have hword {w : Word} (hw : m.heap.LiveWord w) :
      (m.mapHeap fun h => { h with cells := h.cells.update i f }).heap.LiveWord w := ⟨hw.cell, hw.text⟩
  obtain ⟨ht, hg⟩ := hv.typed.update hi f hf
  refine ⟨⟨⟨ht, fun w hw => ?_⟩, fun w hw => hword (hv.roots w hw), hv.globalEnv.update i f, hv.core⟩, hg⟩
  exact ⟨(hv.memory.symbols w hw).1, hword (hv.memory.symbols w hw).2⟩

/-- The words from which a collection starts besides the roots. -/
def Machine.permanent (m : Machine) : List Word := m.symbols.values ++ [m.globalEnv]

theorem Machine.Valid.collect (hv : m.Valid ρ) : m.collect.2.Valid ρ := by
  have hpermanent {w : Word} (hw : w ∈ m.permanent) (hlive : m.heap.LiveWord w) : m.collect.2.heap.LiveWord w :=
    hv.typed.liveWord_collect hlive (.root (List.mem_append_right _ hw))
  refine ⟨⟨hv.typed.collect _, fun w hw => ?_⟩, fun w hw => ?_, ⟨?_, hv.globalEnv.pair, hv.globalEnv.closure⟩, hv.core⟩
  · obtain ⟨hs, hlive⟩ := hv.memory.symbols w hw
    exact ⟨hs, hpermanent (List.mem_append_left _ hw) hlive⟩
  · exact hv.typed.liveWord_collect (hv.roots w hw) (.root (List.mem_append_left _ (Array.mem_toList_iff.2 hw)))
  · exact hpermanent (List.mem_append_right _ List.mem_cons_self) hv.globalEnv.live

/-- A machine counts a step, and a collection that is due keeps what the lent words and the first roots lead to. -/
theorem Machine.Valid.maybeCollect (hv : m.Valid ρ)
    (hlent : collectionDue m → ∀ v ∈ lent, m.heap.Reaches (m.heap.roots.toList ++ m.permanent) v) :
    (BoxedScheme.maybeCollect m).Valid ρ ∧ Keeps d lent ρ m.heap ρ (BoxedScheme.maybeCollect m).heap := by
  have hcounted (n : Nat) : ({ m with dispatches := n } : Machine).Valid ρ :=
    ⟨hv.memory, hv.roots, hv.globalEnv, hv.core⟩
  unfold BoxedScheme.maybeCollect
  by_cases hdue : collectionDue m
  · rw [if_pos hdue]
    refine ⟨(hcounted 0).collect, hv.typed.collect_keeps (fun _ hw => ?_) (hlent hdue)⟩
    exact hw.liveWord hv.typed.whole hv.roots
  · rw [if_neg hdue]
    exact ⟨hcounted _, hv.keeps (.refl d ρ m.heap)⟩

end Machines

end BoxedScheme
