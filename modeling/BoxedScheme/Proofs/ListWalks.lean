import BoxedScheme.Proofs.Binding
import BoxedScheme.Proofs.Containment

/-!
# Walks along lists

A walk along a list counts its steps, and gives up once it has made as many as there are cells. Where every pair has a
cell, only a list that never ends is given up: a list that ends meets none of its cells twice.

* `Heap.Endless h w` : however far one goes from `w`, there is another pair;
* `Heap.PairsExist.spine_of_lists`, `Heap.PairsExist.spine_eq_none_iff` : what the walk finds, by how the list ends;
* `Heap.Adds h h' n` : from `h` to `h'` some `n` cells were taken, and nothing else was touched;
* `Heap.cons_cases`, `Heap.listOf_cases` : a new pair and a new list;
* `Heap.list_walks_exact` : items, length and tail of every list, and of a new one.
-/

namespace BoxedScheme.Heap

variable {h h' h'' : Heap} {w tail : Word} {is : List UInt32} {items : List Word} {n n' : Nat}

/-! ## Lists that end and lists that do not -/

/-- The word that is reached over so many pairs. -/
def cdrs (h : Heap) : Nat → Word → Word
  | 0, w => w
  | n + 1, w => h.cdrs n (h.cells.read w.payload).cdr

/-- However far one goes, there is another pair. -/
def Endless (h : Heap) (w : Word) : Prop := ∀ n, (h.cdrs n w).isPair

theorem lists_of_cdrs (hn : ¬ (h.cdrs n w).isPair) : ∃ items tail, h.Lists w items tail := by
  induction n generalizing w with
  | zero => exact ⟨[], w, .nil hn⟩
  | succ n ih =>
    by_cases hw : w.isPair
    · obtain ⟨items, tail, hl⟩ := ih hn
      exact ⟨_, tail, .cons hw hl⟩
    · exact ⟨[], w, .nil hw⟩

theorem Lists.not_endless (hl : h.Lists w items tail) : ¬ h.Endless w := by
  induction hl with
  | nil hw => exact fun hend => hw (hend 0)
  | cons _ _ ih => exact fun hend => ih fun n => hend (n + 1)

theorem lists_or_endless (h : Heap) (w : Word) : (∃ items tail, h.Lists w items tail) ∨ h.Endless w := by
  by_cases hend : h.Endless w
  · exact .inr hend
  · obtain ⟨n, hn⟩ := not_forall.1 hend
    exact .inl (lists_of_cdrs hn)

theorem Lists.unique {items' : List Word} {tail' : Word} (hl : h.Lists w items tail) (hl' : h.Lists w items' tail') :
    items = items' ∧ tail = tail' := by
  obtain ⟨is, hlinks, rfl⟩ := hl.exists_links
  obtain ⟨js, hlinks', rfl⟩ := hl'.exists_links
  obtain ⟨rfl, rfl⟩ := hlinks.unique hlinks'
  exact ⟨rfl, rfl⟩

/-! ## Walks -/

/-- If the word is a pair, there is a cell of its index. -/
def PairExists (h : Heap) (w : Word) : Prop := w.isPair → w.payload.toNat < h.cells.capacity

/-- The pairs that cells hold have cells themselves. -/
def PairsExist (h : Heap) : Prop := h.cells.All fun cell => h.PairExists cell.car ∧ h.PairExists cell.cdr

section Walks

variable (hh : h.PairsExist) (hw : h.PairExists w)

include hh hw

theorem PairsExist.links_lt (hl : h.Links w is tail) : ∀ i ∈ is, i.toNat < h.cells.capacity := by
  induction hl with
  | nil => simp
  | @cons w _ _ hp _ ih =>
    have hdefault : h.PairExists (default : Cell).car ∧ h.PairExists (default : Cell).cdr :=
      ⟨fun hp => absurd hp (by decide), fun hp => absurd hp (by decide)⟩
    exact List.forall_mem_cons.2 ⟨hw hp, ih (hh.read hdefault w.payload).2⟩

/-- The walk along a list that ends finds its items. -/
theorem PairsExist.spine_of_lists (hl : h.Lists w items tail) : h.spine w = some ⟨items.toArray, tail⟩ := by
  obtain ⟨is, hlinks, rfl⟩ := hl.exists_links
  rw [spine, hlinks.follow (hlinks.length_le_of_lt (hh.links_lt hw hlinks)), Array.empty_append]

theorem PairsExist.spine_eq_none_iff : h.spine w = none ↔ h.Endless w := by
  constructor
  · intro hnone
    refine (h.lists_or_endless w).resolve_left ?_
    rintro ⟨items, tail, hl⟩
    rw [hh.spine_of_lists hw hl] at hnone
    cases hnone
  · intro hend
    cases hs : h.spine w with
    | none => rfl
    | some s => exact absurd hend (spine_lists hs).not_endless

end Walks

/-- Items, length and tail of a list, by how it ends. -/
structure WalksExactly (h : Heap) (operation : String) (w : Word) : Prop where
  ends : Xor (∃ items tail, h.Lists w items tail) (h.Endless w)
  items : ∀ found, h.listItems w operation = .ok found ↔ ∃ tail, h.Lists w found.toList tail ∧ tail.isNull
  improper : ∀ got, h.listItems w operation = .error (.wrongType operation "proper list" got) ↔
    ∃ items tail, h.Lists w items tail ∧ ¬ tail.isNull ∧ tail.typeName = got
  circular : h.listItems w operation = .error (.circularList operation) ↔ h.Endless w
  length : ∀ n, h.listLength w operation = .ok n ↔ ∃ items tail, h.Lists w items tail ∧ items.length = n
  lengthCircular : h.listLength w operation = .error (.circularList operation) ↔ h.Endless w
  tail : ∀ tail, h.listTail w = .ok tail ↔ ∃ items, h.Lists w items tail
  tailCircular : h.listTail w = .error (.circularList "list") ↔ h.Endless w

theorem walksExactly_of_lists (operation : String) (hl : h.Lists w items tail)
    (hs : h.spine w = some ⟨items.toArray, tail⟩) : h.WalksExactly operation w := by
  have hend := hl.not_endless
  have hitems : h.listItems w operation =
      if tail.isNull then .ok items.toArray else .error (.wrongType operation "proper list" tail.typeName) := by
    rw [listItems, hs]
  have hlength : h.listLength w operation = .ok items.length := by
    rw [listLength, hs]
    rfl
  have htail : h.listTail w = .ok tail := by rw [listTail, hs]
  refine ⟨.inl ⟨⟨items, tail, hl⟩, hend⟩, fun found => ?_, fun got => ?_, ?_, fun n => ?_, ?_, fun t => ?_, ?_⟩
  · rw [hitems]
    constructor
    · intro hfound
      split_ifs at hfound with hnull
      cases hfound
      exact ⟨tail, hl, hnull⟩
    · rintro ⟨t, hl', hnull⟩
      obtain ⟨rfl, rfl⟩ := hl.unique hl'
      rw [if_pos hnull]
  · rw [hitems]
    constructor
    · intro hfound
      split_ifs at hfound with hnull
      cases hfound
      exact ⟨items, tail, hl, hnull, rfl⟩
    · rintro ⟨items', t, hl', hnull, rfl⟩
      obtain ⟨rfl, rfl⟩ := hl.unique hl'
      rw [if_neg hnull]
  · rw [hitems]
    refine iff_of_false (fun hfound => ?_) hend
    split_ifs at hfound
    cases hfound
  · rw [hlength]
    constructor
    · rintro ⟨⟩
      exact ⟨items, tail, hl, rfl⟩
    · rintro ⟨items', t, hl', rfl⟩
      rw [(hl.unique hl').1]
  · rw [hlength]
    exact iff_of_false (by simp) hend
  · rw [htail]
    constructor
    · rintro ⟨⟩
      exact ⟨items, hl⟩
    · rintro ⟨items', hl'⟩
      rw [(hl.unique hl').2]
  · rw [htail]
    exact iff_of_false (by simp) hend

theorem walksExactly_of_endless (operation : String) (hend : h.Endless w) (hs : h.spine w = none) :
    h.WalksExactly operation w := by
  have hnot : ∀ {items tail}, ¬ h.Lists w items tail := fun hl => hl.not_endless hend
  have hitems : h.listItems w operation = .error (.circularList operation) := by rw [listItems, hs]
  have hlength : h.listLength w operation = .error (.circularList operation) := by rw [listLength, hs]
  have htail : h.listTail w = .error (.circularList "list") := by rw [listTail, hs]
  refine ⟨.inr ⟨hend, ?_⟩, fun found => ?_, fun got => ?_, iff_of_true hitems hend, fun n => ?_,
    iff_of_true hlength hend, fun t => ?_, iff_of_true htail hend⟩
  · rintro ⟨items, tail, hl⟩
    exact hnot hl
  · rw [hitems]
    refine iff_of_false (by simp) ?_
    rintro ⟨tail, hl, -⟩
    exact hnot hl
  · rw [hitems]
    -- both are faults, of different kinds
    refine iff_of_false (by simp) ?_
    rintro ⟨items, tail, hl, -⟩
    exact hnot hl
  · rw [hlength]
    refine iff_of_false (by simp) ?_
    rintro ⟨items, tail, hl, -⟩
    exact hnot hl
  · rw [htail]
    refine iff_of_false (by simp) ?_
    rintro ⟨items, hl⟩
    exact hnot hl

theorem PairsExist.walksExactly (hh : h.PairsExist) (hw : h.PairExists w) (operation : String) :
    h.WalksExactly operation w := by
  rcases h.lists_or_endless w with ⟨items, tail, hl⟩ | hend
  · exact walksExactly_of_lists operation hl (hh.spine_of_lists hw hl)
  · exact walksExactly_of_endless operation hend ((hh.spine_eq_none_iff hw).2 hend)

/-! ## New lists -/

/-- From one heap to another so many cells were taken, and nothing else was touched. -/
structure Adds (h h' : Heap) (n : Nat) : Prop where
  eq : h' = { h with cells := h'.cells }
  sound : h'.cells.Sound
  kept : h.cells.KeptBy h'.cells
  capacity : h'.cells.capacity = h.cells.capacity
  free : h.cells.freeCount = h'.cells.freeCount + n

theorem Adds.refl (hs : h.cells.Sound) : h.Adds h 0 := ⟨rfl, hs, .refl _, rfl, rfl⟩

theorem Adds.trans (ha : h.Adds h' n) (ha' : h'.Adds h'' n') : h.Adds h'' (n + n') where
  eq := by rw [ha'.eq, ha.eq]
  sound := ha'.sound
  kept := ha.kept.trans ha'.kept
  capacity := ha'.capacity.trans ha.capacity
  free := by rw [ha.free, ha'.free]; omega

theorem Adds.machine {m : Machine} (ha : m.heap.Adds h n) : m.Adds { m with heap := h } n where
  eq := by
    dsimp only
    rw [← ha.eq]
  sound := ha.sound
  kept := ha.kept
  capacity := ha.capacity
  free := ha.free

def full (h : Heap) : Fault := .outOfCells h.cells.capacity

theorem Adds.full (ha : h.Adds h' n) : h'.full = h.full := by rw [Heap.full, Heap.full, ha.capacity]

/-- A pair is stored, or all cells are in use. -/
theorem cons_cases (hs : h.cells.Sound) (a d : Word) :
    (h.cells.freeCount = 0 ∧ cons a d h = .error h.full h) ∨
      ∃ w h', cons a d h = .ok w h' ∧ h.Adds h' 1 ∧ w.isPair ∧ ¬ h.cells.IsLive w.payload ∧
        h'.cells.IsLive w.payload ∧ h'.cells.read w.payload = ⟨a, d⟩ := by
  rw [cons_apply]
  cases hnext : h.cells.next? with
  | none =>
    refine .inl ⟨?_, rfl⟩
    by_contra hfree
    obtain ⟨i, hi⟩ := Pool.exists_next (Nat.pos_of_ne_zero hfree)
    rw [hnext] at hi
    cases hi
  | some i =>
    have htakes := hs.takes hnext ⟨a, d⟩
    refine .inr ⟨_, _, rfl, ⟨rfl, hs.fill hnext _, hs.keptBy_fill hnext _, htakes.capacity, Pool.freeCount_fill hnext _⟩,
      by simp [Word.isPair], ?_⟩
    rw [Word.payload_pair]
    exact ⟨htakes.dead, (htakes.isLive i).2 (.inl rfl), (htakes.read i).trans (if_pos rfl)⟩

/-- A list is stored, or there are fewer free cells than items. -/
theorem listOf_cases (hs : h.cells.Sound) (items : List Word) :
    (h.cells.freeCount < items.length ∧ ∃ h' n, listOf items h = .error h.full h' ∧ h.Adds h' n) ∨
      ∃ w h', listOf items h = .ok w h' ∧ h.Adds h' items.length ∧ h'.Lists w items .nil := by
  induction items with
  | nil => exact .inr ⟨.nil, h, rfl, .refl hs, .nil (by decide)⟩
  | cons item items ih =>
    rw [listOf_cons]
    rcases ih with ⟨hfew, h', n, hlist, ha⟩ | ⟨rest, h₁, hlist, ha, hl⟩
    · exact .inl ⟨by rw [List.length_cons]; omega, h', n, bind_of_error hlist, ha⟩
    · rw [bind_of_ok hlist]
      have hfree := ha.free
      rcases cons_cases ha.sound item rest with ⟨hempty, hcons⟩ | ⟨w, h₂, hcons, ha', hw, -, -, hread⟩
      · exact .inl ⟨by rw [List.length_cons]; omega, h₁, _, ha.full ▸ hcons, ha⟩
      · refine .inr ⟨w, h₂, hcons, ha.trans ha', ?_⟩
        have hrest : h₂.Lists (h₂.cells.read w.payload).cdr items .nil := by
          rw [hread]
          exact hl.kept ha.sound (by decide) ha'.kept
        have hlist₂ := Lists.cons hw hrest
        rwa [hread] at hlist₂

theorem listItems_listOf (hs : h.cells.Sound) {list : Word} (hlist : listOf items h = .ok list h')
    (operation : String) : h'.listItems list operation = .ok items.toArray := by
  rcases listOf_cases hs items with ⟨-, _, _, herror, -⟩ | ⟨w, h₁, hok, ha, hl⟩
  · rw [hlist] at herror
    cases herror
  · rw [hlist] at hok
    cases hok
    rw [listItems, hl.spine ha.sound (by decide)]
    exact if_pos (show Word.nil.isNull by decide)

/-- Where every pair has a cell, every list ends after finitely many pairs or never, and the walks along it answer by
that: a list that fills the pool is not taken for one that never ends. A new list has the items it was made of. -/
theorem list_walks_exact (hh : h.PairsExist) (hw : h.PairExists w) (operation : String) :
    h.WalksExactly operation w ∧
    (∀ items tail, h.Lists w items tail → items.length = h.cells.capacity →
      h.listItems w operation ≠ .error (.circularList operation) ∧ h.listLength w operation = .ok h.cells.capacity ∧
        h.listTail w = .ok tail) ∧
    ∀ items list h', h.cells.Sound → listOf items h = .ok list h' → h'.listItems list operation = .ok items.toArray := by
  have hwalks := hh.walksExactly hw operation
  refine ⟨hwalks, fun items tail hl hlength => ⟨fun hcircular => ?_, ?_, ?_⟩, fun items list h' hs hlist => ?_⟩
  · exact hl.not_endless (hwalks.circular.1 hcircular)
  · exact (hwalks.length _).2 ⟨items, tail, hl, hlength⟩
  · exact (hwalks.tail _).2 ⟨items, hl⟩
  · exact listItems_listOf hs hlist operation

/-- Both cells of the pool make up one list. -/
def brimful : Heap where
  cells := ((Pool.fresh 2).fill 0 ⟨.true, .nil⟩).fill 1 ⟨.false, .pair 0⟩
  strings := .fresh 0
  roots := #[]
  rootCapacity := 0
  stats := {}

/-- The list that fills the pool ends, and the ring does not. In an empty pool the items make up that list. -/
theorem list_walks_exact_brimful :
    (brimful.PairsExist ∧ brimful.PairExists (.pair 1) ∧ brimful.listLength (.pair 1) "length" = .ok 2 ∧
      brimful.listItems (.pair 1) "length" ≠ .error (.circularList "length")) ∧
    (ring.PairsExist ∧ ring.PairExists (.pair 0) ∧ ring.Endless (.pair 0)) ∧
    listOf [.false, .true] { brimful with cells := .fresh 2 } = .ok (.pair 1) brimful ∧
      brimful.listItems (.pair 1) "length" = .ok #[.false, .true] := by
  have hfull : brimful.PairsExist := by
    unfold PairsExist PairExists Pool.All
    decide
  have hpair : brimful.PairExists (.pair 1) := fun _ => by decide
  have hring : ring.PairsExist := by
    unfold PairsExist PairExists Pool.All
    decide
  have hfirst : ring.PairExists (.pair 0) := fun _ => by decide
  have hempty : ({ brimful with cells := .fresh 2 } : Heap).PairsExist := by
    unfold PairsExist PairExists Pool.All
    decide
  have hlist : listOf [.false, .true] { brimful with cells := .fresh 2 } = .ok (.pair 1) brimful := by cbv
  obtain ⟨hwalks, hall, -⟩ := list_walks_exact hfull hpair "length"
  obtain ⟨tail, hl, -⟩ := (hwalks.items #[.false, .true]).1 (by cbv)
  obtain ⟨hend, -, -⟩ := list_walks_exact hring hfirst "length"
  obtain ⟨-, -, hnew⟩ := list_walks_exact hempty (fun _ => by decide : PairExists _ (.pair 1)) "length"
  obtain ⟨hitems, hlength, -⟩ := hall _ tail hl (by decide)
  exact ⟨⟨hfull, hpair, hlength, hitems⟩, ⟨hring, hfirst, hend.circular.1 (by cbv)⟩, hlist,
    hnew _ _ _ (.fresh (by decide)) hlist⟩

end BoxedScheme.Heap
