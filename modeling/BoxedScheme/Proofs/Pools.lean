import Mathlib.Data.List.FinRange
import Mathlib.Data.List.Nodup
import Mathlib.Tactic.Common
import BoxedScheme.Pool

/-!
# Pools: liveness and the representation invariant

* `IsLive p i` : slot `i` is handed out and not released;
* `Sound p` : the free stack lists exactly the slots that are not live, each once, such a slot holds the
  default item, and no mark is set;
* `isLive_fill`, `read_fill`, `Sound.fill` : the effect of handing out the next slot; likewise for `update`;
* `mem_garbage`, `garbage_ascending` : the live slots without a mark, by index;
* `isLive_release`, `read_release`, `Sound.release` : the effect of freeing live slots.
-/

namespace BoxedScheme.Pool

variable {α : Type}

/-- Slot `i` is handed out. -/
def IsLive (p : Pool α) (i : UInt32) : Prop := p.live[i.toNat]? = some true

instance (p : Pool α) (i : UInt32) : Decidable (p.IsLive i) :=
  inferInstanceAs (Decidable (_ = _))

theorem IsLive.lt {p : Pool α} {i : UInt32} (h : p.IsLive i) : i.toNat < p.capacity := by
  obtain ⟨hlt, -⟩ := Array.getElem?_eq_some_iff.1 h
  rwa [p.size_live] at hlt

theorem read_eq [Inhabited α] (p : Pool α) (i : UInt32) : p.read i = p.items[i.toNat]?.getD default := by
  unfold read
  split
  · next h => simp [h]
  · next h => simp [h]

theorem read_of_not_lt [Inhabited α] {p : Pool α} {i : UInt32} (h : ¬ i.toNat < p.capacity) :
    p.read i = default := dif_neg h

theorem toNat_ofNat {k : Nat} (hk : k < 0xffffffff) : (UInt32.ofNat k).toNat = k := by
  rw [UInt32.toNat_ofNat']
  omega

structure Sound [Inhabited α] (p : Pool α) : Prop where
  /-- Every slot has an index. -/
  capacity_le : p.capacity ≤ 0xffffffff
  nodup : p.free.toList.Nodup
  mem_free : ∀ i : UInt32, i ∈ p.free ↔ i.toNat < p.capacity ∧ ¬ p.IsLive i
  read_dead : ∀ i, ¬ p.IsLive i → p.read i = default
  unmarked : ∀ i : Nat, p.marks.getD i false = false

/-! ## Fresh pools -/

theorem not_isLive_fresh [Inhabited α] (n : Nat) (i : UInt32) : ¬ (fresh n : Pool α).IsLive i := by
  simp [IsLive, fresh, Array.getElem?_replicate]

theorem Sound.fresh [Inhabited α] {n : Nat} (hn : n ≤ 0xffffffff) : (fresh n : Pool α).Sound where
  capacity_le := by simpa [capacity, Pool.fresh] using hn
  nodup := by
    rw [Pool.fresh, Array.toList_map, Array.toList_range]
    refine List.Nodup.map_on ?_ List.nodup_range
    intro a ha b hb hab
    rw [List.mem_range] at ha hb
    have := congrArg UInt32.toNat hab
    rw [toNat_ofNat (by omega), toNat_ofNat (by omega)] at this
    omega
  mem_free i := by
    have hdead := not_isLive_fresh (α := α) n i
    have hcap : (Pool.fresh n : Pool α).capacity = n := by simp [capacity, Pool.fresh]
    rw [hcap, and_iff_left hdead]
    simp only [Pool.fresh, Array.mem_map, Array.mem_range]
    constructor
    · rintro ⟨k, hk, rfl⟩
      rw [toNat_ofNat (by omega)]
      omega
    · intro hi
      refine ⟨n - 1 - i.toNat, by omega, ?_⟩
      apply UInt32.toNat_inj.1
      rw [toNat_ofNat (by omega)]
      omega
  read_dead i _ := by
    rw [read_eq, Pool.fresh, Array.getElem?_replicate]
    split <;> rfl
  unmarked i := by
    simp only [Pool.fresh, Array.getD_eq_getD_getElem?, Array.getElem?_replicate]
    split <;> rfl

/-! ## Handing out a slot -/

section Fill

variable {p : Pool α} {i : UInt32}

theorem free_eq_of_next (h : p.next? = some i) : p.free.toList = p.free.pop.toList ++ [i] := by
  obtain ⟨rest, hrest⟩ := Array.back?_eq_some_iff.1 h
  simp [hrest]

theorem isLive_fill (hi : i.toNat < p.capacity) (a : α) (j : UInt32) :
    (p.fill i a).IsLive j ↔ j = i ∨ p.IsLive j := by
  have hi' : i.toNat < p.live.size := by rwa [p.size_live]
  simp only [IsLive, fill, Array.getElem?_setIfInBounds, hi', if_true]
  by_cases hij : j = i
  · simp [hij]
  · have : i.toNat ≠ j.toNat := fun h => hij (UInt32.toNat_inj.1 h).symm
    simp [hij, this]

theorem read_fill [Inhabited α] (hi : i.toNat < p.capacity) (a : α) (j : UInt32) :
    (p.fill i a).read j = if j = i then a else p.read j := by
  have hi' : i.toNat < p.items.size := hi
  rw [read_eq, read_eq, fill, Array.getElem?_setIfInBounds]
  by_cases hij : j = i
  · simp [hij, hi']
  · have : i.toNat ≠ j.toNat := fun h => hij (UInt32.toNat_inj.1 h).symm
    simp [hij, this]

@[simp] theorem capacity_fill (p : Pool α) (i : UInt32) (a : α) : (p.fill i a).capacity = p.capacity := by
  simp [capacity, fill]

theorem freeCount_fill_le {q : Pool α} (h : p.freeCount ≤ q.freeCount) {j : UInt32} {a b : α} :
    (p.fill i a).freeCount ≤ (q.fill j b).freeCount := by
  show p.free.pop.size ≤ q.free.pop.size
  rw [Array.size_pop, Array.size_pop]
  exact Nat.sub_le_sub_right h 1

theorem exists_next_of_freeCount_le {q : Pool α} (h : p.freeCount ≤ q.freeCount) (hi : p.next? = some i) :
    ∃ j, q.next? = some j := by
  have hp : 0 < p.free.size := Array.size_pos_of_mem (Array.mem_of_back? hi)
  have hq : 0 < q.free.size := Nat.lt_of_lt_of_le hp h
  exact ⟨q.free[q.free.size - 1], Array.back?_eq_getElem? .. ▸ Array.getElem?_eq_getElem _⟩

theorem Sound.next_dead [Inhabited α] (hp : p.Sound) (h : p.next? = some i) :
    i.toNat < p.capacity ∧ ¬ p.IsLive i :=
  (hp.mem_free i).1 (Array.mem_of_back? h)

theorem Sound.fill [Inhabited α] (hp : p.Sound) (h : p.next? = some i) (a : α) : (p.fill i a).Sound := by
  obtain ⟨hi, hdead⟩ := hp.next_dead h
  have hfree := free_eq_of_next h
  have hnodup := hp.nodup
  rw [hfree, List.nodup_append] at hnodup
  refine ⟨by rw [capacity_fill]; exact hp.capacity_le, hnodup.1, fun j => ?_, fun j hj => ?_, hp.unmarked⟩
  · rw [capacity_fill, isLive_fill hi]
    have hmem := hp.mem_free j
    rw [← Array.mem_toList_iff, hfree, List.mem_append, List.mem_singleton] at hmem
    show j ∈ p.free.pop ↔ _
    rw [← Array.mem_toList_iff]
    constructor
    · intro hj
      obtain ⟨hlt, hnl⟩ := hmem.1 (.inl hj)
      refine ⟨hlt, ?_⟩
      rintro (rfl | hl)
      · exact hnodup.2.2 j hj j (List.mem_singleton_self j) rfl
      · exact hnl hl
    · rintro ⟨hlt, hn⟩
      rw [not_or] at hn
      exact (hmem.2 ⟨hlt, hn.2⟩).resolve_right hn.1
  · rw [isLive_fill hi, not_or] at hj
    rw [read_fill hi, if_neg hj.1, hp.read_dead j hj.2]

end Fill

/-! ## Changing an item -/

section Update

variable {p : Pool α} {i : UInt32}

@[simp] theorem capacity_update (p : Pool α) (i : UInt32) (f : α → α) : (p.update i f).capacity = p.capacity := by
  simp [capacity, update]

@[simp] theorem isLive_update (p : Pool α) (i : UInt32) (f : α → α) (j : UInt32) :
    (p.update i f).IsLive j ↔ p.IsLive j := Iff.rfl

theorem read_update [Inhabited α] (hi : i.toNat < p.capacity) (f : α → α) (j : UInt32) :
    (p.update i f).read j = if j = i then f (p.read i) else p.read j := by
  have hi' : i.toNat < p.items.size := hi
  rw [read_eq, read_eq, read_eq, update, Array.getElem?_modify]
  by_cases hij : j = i
  · simp [hij, hi']
  · have : i.toNat ≠ j.toNat := fun h => hij (UInt32.toNat_inj.1 h).symm
    simp [hij, this]

theorem update_id (p : Pool α) (i : UInt32) : p.update i (fun a => a) = p := by
  have hitems : p.items.modify i.toNat (fun a => a) = p.items := by
    apply Array.ext_getElem?
    intro j
    rw [Array.getElem?_modify]
    split <;> simp
  unfold update
  congr

/-- A live slot keeps its item unless it is the one that is updated, which may lie outside the pool. -/
theorem read_update_of_isLive [Inhabited α] {j : UInt32} (hj : p.IsLive j) (i : UInt32) (f : α → α) :
    (p.update i f).read j = if j = i then f (p.read j) else p.read j := by
  by_cases hij : j = i
  · subst hij
    exact read_update hj.lt f j
  · have hne : i.toNat ≠ j.toNat := fun h => hij (UInt32.toNat_inj.1 h).symm
    rw [if_neg hij, read_eq, read_eq, update, Array.getElem?_modify, if_neg hne]

theorem Sound.update [Inhabited α] (hp : p.Sound) (hi : p.IsLive i) (f : α → α) : (p.update i f).Sound := by
  refine ⟨by rw [capacity_update]; exact hp.capacity_le, hp.nodup, fun j => ?_, fun j hj => ?_, hp.unmarked⟩
  · rw [capacity_update]
    exact hp.mem_free j
  · have hij : j ≠ i := by
      rintro rfl
      exact hj hi
    rw [read_update hi.lt, if_neg hij]
    exact hp.read_dead j hj

end Update

/-! ## Garbage -/

section Garbage

variable (p : Pool α) (marks : Array Bool)

/-- The garbage as a filtered list of all indices. -/
theorem garbage_toList :
    (p.garbage marks).toList =
      ((List.finRange p.live.size).filter fun (k : Fin p.live.size) => p.live[k] && !marks.getD k false).map
        fun k => .ofNat k.val := by
  rw [garbage, Nat.fold_eq_finRange_foldl]
  generalize List.finRange p.live.size = ks
  suffices h : ∀ found : Array UInt32, (ks.foldl (fun found (k : Fin p.live.size) =>
      if p.live[k] && !marks.getD k false then found.push (.ofNat k) else found) found).toList =
      found.toList ++ (ks.filter fun (k : Fin p.live.size) => p.live[k] && !marks.getD k false).map
        fun k => .ofNat k.val by
    simpa using h #[]
  induction ks with
  | nil => intro found; simp
  | cons k ks ih =>
    intro found
    rw [List.foldl_cons, ih, List.filter_cons]
    split <;> simp

variable {p marks}

theorem mem_garbage (hp : p.capacity ≤ 0xffffffff) (i : UInt32) :
    i ∈ p.garbage marks ↔ p.IsLive i ∧ marks.getD i.toNat false = false := by
  rw [← Array.mem_toList_iff, garbage_toList]
  simp only [List.mem_map, List.mem_filter, List.mem_finRange, true_and, Bool.and_eq_true, Bool.not_eq_true']
  constructor
  · rintro ⟨k, ⟨hlive, hmark⟩, rfl⟩
    have hk : k.val < p.capacity := by rw [capacity, ← p.size_live]; exact k.isLt
    rw [IsLive, toNat_ofNat (by omega)]
    exact ⟨Array.getElem?_eq_some_iff.2 ⟨k.isLt, hlive⟩, hmark⟩
  · rintro ⟨hlive, hmark⟩
    obtain ⟨hlt, hval⟩ := Array.getElem?_eq_some_iff.1 hlive
    exact ⟨⟨i.toNat, hlt⟩, ⟨hval, hmark⟩, UInt32.ofNat_toNat⟩

theorem garbage_ascending (hp : p.capacity ≤ 0xffffffff) : (p.garbage marks).toList.Pairwise (· < ·) := by
  rw [garbage_toList, List.pairwise_map]
  refine ((List.pairwise_lt_finRange _).filter _).imp ?_
  intro a b hab
  have hsize : p.live.size ≤ 0xffffffff := by rw [p.size_live]; exact hp
  rw [UInt32.lt_iff_toNat_lt, toNat_ofNat (by omega), toNat_ofNat (by omega)]
  exact hab

/-- Without marks the garbage is all live slots. -/
theorem size_garbage_empty (p : Pool α) : (p.garbage #[]).size = p.live.count true := by
  have hlist : p.live.toList = (List.finRange p.live.size).map fun (k : Fin p.live.size) => p.live[k] := by
    rw [← List.ofFn_eq_map]
    exact List.ofFn_getElem.symm
  rw [← Array.length_toList, garbage_toList, List.length_map, ← Array.count_toList, hlist, List.count_eq_countP,
    List.countP_map, List.countP_eq_length_filter]
  congr 1
  apply List.filter_congr
  intro k _
  simp

/-- Free and live slots together are all slots. -/
theorem Sound.freeCount_add_live [Inhabited α] (hp : p.Sound) : p.freeCount + p.live.count true = p.capacity := by
  have hcap := hp.capacity_le
  have hall : (p.free.toList ++ (p.garbage #[]).toList).Perm ((List.range p.capacity).map .ofNat) := by
    refine (List.perm_ext_iff_of_nodup ?_ ?_).2 fun i => ?_
    · refine List.nodup_append.2 ⟨hp.nodup, (garbage_ascending hcap).imp fun hlt => UInt32.ne_of_lt hlt, ?_⟩
      rintro i hi j hj rfl
      rw [Array.mem_toList_iff] at hi hj
      exact ((hp.mem_free i).1 hi).2 ((mem_garbage hcap i).1 hj).1
    · refine List.Nodup.map_on ?_ List.nodup_range
      intro a ha b hb hab
      rw [List.mem_range] at ha hb
      rw [← toNat_ofNat (k := a) (by omega), ← toNat_ofNat (k := b) (by omega), hab]
    · rw [List.mem_append, Array.mem_toList_iff, Array.mem_toList_iff, hp.mem_free, mem_garbage hcap]
      simp only [List.mem_map, List.mem_range]
      constructor
      · rintro (⟨hlt, -⟩ | ⟨hlive, -⟩)
        · exact ⟨i.toNat, hlt, UInt32.ofNat_toNat⟩
        · exact ⟨i.toNat, hlive.lt, UInt32.ofNat_toNat⟩
      · rintro ⟨k, hk, rfl⟩
        by_cases hlive : p.IsLive (.ofNat k)
        · exact .inr ⟨hlive, rfl⟩
        · exact .inl ⟨by rwa [toNat_ofNat (by omega)], hlive⟩
  have hlen := hall.length_eq
  rw [List.length_append, Array.length_toList, Array.length_toList, size_garbage_empty, List.length_map,
    List.length_range] at hlen
  exact hlen

/-- The slots in use are the live ones. -/
theorem Sound.inUse_eq [Inhabited α] (hp : p.Sound) : p.inUse = p.live.count true := by
  rw [inUse, ← hp.freeCount_add_live, Nat.add_sub_cancel_left]

theorem Sound.freeCount_le [Inhabited α] (hp : p.Sound) : p.freeCount ≤ p.capacity :=
  hp.freeCount_add_live ▸ Nat.le_add_right _ _

end Garbage

/-! ## Freeing slots -/

section Release

theorem getElem?_setAll {β : Type} (b : β) (indices : Array UInt32) (a : Array β) (k : Nat) :
    (setAll b indices a)[k]? = if ∃ i ∈ indices, i.toNat = k then a[k]?.map fun _ => b else a[k]? := by
  obtain ⟨indices⟩ := indices
  simp only [setAll, List.foldl_toArray, List.mem_toArray]
  induction indices generalizing a with
  | nil => simp
  | cons i indices ih =>
    rw [List.foldl_cons, ih, Array.getElem?_setIfInBounds]
    by_cases hik : i.toNat = k
    · by_cases hlt : k < a.size <;> simp [hik, hlt]
    · simp [hik]

variable [Inhabited α] {p : Pool α} {indices : Array UInt32}

@[simp] theorem capacity_release (p : Pool α) (indices : Array UInt32) :
    (p.release indices).capacity = p.capacity := size_setAll _ _ _

theorem isLive_release (i : UInt32) : (p.release indices).IsLive i ↔ p.IsLive i ∧ i ∉ indices := by
  simp only [IsLive, release, getElem?_setAll, UInt32.toNat_inj, exists_eq_right]
  split <;> simp [*]

theorem read_release (i : UInt32) : (p.release indices).read i = if i ∈ indices then default else p.read i := by
  simp only [read_eq, release, getElem?_setAll, UInt32.toNat_inj, exists_eq_right]
  split
  · cases p.items[i.toNat]? <;> rfl
  · rfl

theorem Sound.release (hp : p.Sound) (hnodup : indices.toList.Nodup) (hlive : ∀ i ∈ indices, p.IsLive i) :
    (p.release indices).Sound := by
  refine ⟨by rw [capacity_release]; exact hp.capacity_le, ?_, fun i => ?_, fun i hi => ?_, fun i => ?_⟩
  · show (p.free ++ indices).toList.Nodup
    rw [Array.toList_append, List.nodup_append]
    refine ⟨hp.nodup, hnodup, ?_⟩
    rintro i hi j hj rfl
    exact ((hp.mem_free i).1 (Array.mem_toList_iff.1 hi)).2 (hlive i (Array.mem_toList_iff.1 hj))
  · show i ∈ p.free ++ indices ↔ _
    rw [Array.mem_append, hp.mem_free, capacity_release, isLive_release]
    constructor
    · rintro (⟨hlt, hdead⟩ | hi)
      · exact ⟨hlt, fun h => hdead h.1⟩
      · exact ⟨(hlive i hi).lt, fun h => h.2 hi⟩
    · rintro ⟨hlt, hdead⟩
      by_cases hi : i ∈ indices
      · exact .inr hi
      · exact .inl ⟨hlt, fun h => hdead ⟨h, hi⟩⟩
  · rw [read_release]
    split
    · rfl
    · next hmem => exact hp.read_dead i fun h => hi (isLive_release i |>.2 ⟨h, hmem⟩)
  · simp only [Pool.release, Array.getD_eq_getD_getElem?, Array.getElem?_replicate]
    split <;> rfl

end Release

end BoxedScheme.Pool
