import Mathlib.Data.Finset.Card
import BoxedScheme.Proofs.SymbolTables

/-!
# Room in memory

How many slots data take: a pair takes a cell, a string takes a string slot, and so does a name that the symbol table
does not know. Memory that provides what is demanded serves it, and keeps what it held.

* `Demand` : pairs, strings and names;
* `Memory.Provides m n` : memory has the slots for a demand;
* `Memory.Takes m m' n` : from `m` to `m'` a demand was served, and nothing else was touched;
* `Memory.Sound.cons`, `Memory.Sound.makeString`, `Memory.Sound.intern` : what each operation takes.
-/

namespace BoxedScheme

/-! ## Pools -/

namespace Pool

variable {α : Type} {p q r : Pool α} {i : UInt32}

theorem freeCount_fill (hnext : p.next? = some i) (a : α) : p.freeCount = (p.fill i a).freeCount + 1 := by
  have hpos : 0 < p.free.size := Array.size_pos_of_mem (Array.mem_of_back? hnext)
  show p.free.size = p.free.pop.size + 1
  rw [Array.size_pop]
  omega

theorem exists_next (hfree : 0 < p.freeCount) : ∃ i, p.next? = some i := by
  rw [← Option.isSome_iff_exists, next?, Array.back?_isSome]
  intro hempty
  rw [freeCount, hempty] at hfree
  exact absurd hfree (by decide)

variable [Inhabited α]

/-- Live slots stay live and keep their item. -/
def KeptBy (p q : Pool α) : Prop := ∀ i, p.IsLive i → q.IsLive i ∧ q.read i = p.read i

theorem KeptBy.refl (p : Pool α) : p.KeptBy p := fun _ hlive => ⟨hlive, rfl⟩

theorem KeptBy.trans (hpq : p.KeptBy q) (hqr : q.KeptBy r) : p.KeptBy r := by
  intro i hlive
  obtain ⟨hlive', hread⟩ := hpq i hlive
  obtain ⟨hlive'', hread'⟩ := hqr i hlive'
  exact ⟨hlive'', hread'.trans hread⟩

theorem Sound.keptBy_fill (hp : p.Sound) (hnext : p.next? = some i) (a : α) : p.KeptBy (p.fill i a) := by
  intro j hlive
  have htakes := hp.takes hnext a
  have hne : j ≠ i := by
    rintro rfl
    exact htakes.dead hlive
  exact ⟨(htakes.isLive j).2 (.inr hlive), (htakes.read j).trans (if_neg hne)⟩

end Pool

/-! ## Demands -/

/-- What is to be stored: so many pairs and strings, and symbols of these names. -/
@[ext] structure Demand where
  pairs : Nat := 0
  strings : Nat := 0
  names : Finset String := ∅

namespace Demand

instance : Zero Demand := ⟨{}⟩

instance : Add Demand := ⟨fun n n' => ⟨n.pairs + n'.pairs, n.strings + n'.strings, n.names ∪ n'.names⟩⟩

@[simp] theorem pairs_add (n n' : Demand) : (n + n').pairs = n.pairs + n'.pairs := rfl

@[simp] theorem strings_add (n n' : Demand) : (n + n').strings = n.strings + n'.strings := rfl

@[simp] theorem names_add (n n' : Demand) : (n + n').names = n.names ∪ n'.names := rfl

def ofPairs (k : Nat) : Demand := { pairs := k }

theorem zero_add_ofPairs (k : Nat) : 0 + ofPairs k = ofPairs k := by
  ext1
  · exact Nat.zero_add k
  · rfl
  · exact Finset.empty_union ∅

/-- The pair that is demanded with its parts may be demanded with the pairs around it. -/
theorem add_ofPairs_succ (n n' : Demand) (k : Nat) :
    ofPairs 1 + n + n' + ofPairs k = n + (n' + ofPairs (k + 1)) := by
  ext1
  · simp only [pairs_add, ofPairs]
    omega
  · simp only [strings_add, ofPairs]
    omega
  · simp [ofPairs]

theorem ofPairs_one_add (n n' : Demand) : ofPairs 1 + n + n' = n + (n' + ofPairs 1) := by
  rw [← add_ofPairs_succ n n' 0]
  ext1 <;> simp [ofPairs]

end Demand

namespace Memory

variable {m m' m'' : Memory} {n n' : Demand}

/-- Both pools are sound, and the symbol table agrees with the strings. -/
structure Sound (m : Memory) : Prop where
  heap : m.heap.Sound
  named : m.Named

def missing (m : Memory) (names : Finset String) : Nat :=
  (names.filter fun name => (m.symbols.get? name.toUTF8).isNone).card

def Provides (m : Memory) (n : Demand) : Prop :=
  n.pairs ≤ m.heap.cells.freeCount ∧ n.strings + m.missing n.names ≤ m.heap.strings.freeCount

instance (m : Memory) (n : Demand) : Decidable (m.Provides n) := inferInstanceAs (Decidable (_ ∧ _))

/-- The demand was served, and what was live before is live and the same. -/
structure Takes (m m' : Memory) (n : Demand) : Prop where
  sound : m'.Sound
  cells : m.heap.cells.KeptBy m'.heap.cells
  strings : m.heap.strings.KeptBy m'.heap.strings
  freeCells : m.heap.cells.freeCount = m'.heap.cells.freeCount + n.pairs
  freeStrings : m.heap.strings.freeCount = m'.heap.strings.freeCount + (n.strings + m.missing n.names)
  unknown : ∀ name : String,
    (m'.symbols.get? name.toUTF8).isNone ↔ (m.symbols.get? name.toUTF8).isNone ∧ name ∉ n.names

theorem missing_singleton (m : Memory) (name : String) :
    m.missing {name} = if (m.symbols.get? name.toUTF8).isNone then 1 else 0 := by
  rw [missing, Finset.filter_singleton]
  split <;> rfl

theorem missing_mono {names names' : Finset String} (hsub : names ⊆ names') : m.missing names ≤ m.missing names' :=
  Finset.card_le_card (Finset.filter_subset_filter _ hsub)

/-- Names that were served are not missing any more. -/
theorem Takes.missing_union (h : m.Takes m' n) (names : Finset String) :
    m.missing (n.names ∪ names) = m.missing n.names + m'.missing names := by
  unfold missing
  rw [← Finset.card_union_of_disjoint]
  · congr 1
    ext name
    have hunknown := h.unknown name
    simp only [Finset.mem_filter, Finset.mem_union] at hunknown ⊢
    tauto
  · rw [Finset.disjoint_left]
    intro name hname hname'
    rw [Finset.mem_filter] at hname hname'
    exact ((h.unknown name).1 hname'.2).2 hname.1

theorem Sound.takes_zero (hm : m.Sound) : m.Takes m 0 where
  sound := hm
  cells := .refl _
  strings := .refl _
  freeCells := rfl
  freeStrings := rfl
  unknown name := (and_iff_left (Finset.notMem_empty name)).symm

theorem Takes.trans (h : m.Takes m' n) (h' : m'.Takes m'' n') : m.Takes m'' (n + n') where
  sound := h'.sound
  cells := h.cells.trans h'.cells
  strings := h.strings.trans h'.strings
  freeCells := by
    have := h.freeCells
    have := h'.freeCells
    rw [Demand.pairs_add]
    omega
  freeStrings := by
    have := h.freeStrings
    have := h'.freeStrings
    rw [Demand.names_add, Demand.strings_add, h.missing_union]
    omega
  unknown name := by
    rw [h'.unknown, h.unknown, Demand.names_add, Finset.mem_union, not_or, and_assoc]

theorem Provides.left (h : m.Provides (n + n')) : m.Provides n := by
  obtain ⟨hpairs, hstrings⟩ := h
  have hmono : m.missing n.names ≤ m.missing (n + n').names := missing_mono Finset.subset_union_left
  rw [Demand.pairs_add] at hpairs
  rw [Demand.strings_add] at hstrings
  exact ⟨by omega, by omega⟩

/-- What is left after a demand was served is enough for the rest. -/
theorem Takes.provides (h : m.Takes m' n) (hroom : m.Provides (n + n')) : m'.Provides n' := by
  obtain ⟨hpairs, hstrings⟩ := hroom
  have hcells := h.freeCells
  have hslots := h.freeStrings
  rw [Demand.pairs_add] at hpairs
  rw [Demand.strings_add, Demand.names_add, h.missing_union] at hstrings
  exact ⟨by omega, by omega⟩

/-! ## Operations -/

theorem onHeap_of_ok {α : Type} {op : HeapM α} {a : α} {h : Heap} (hop : op m.heap = .ok a h) :
    onHeap op m = .ok a ⟨h, m.symbols⟩ := by
  obtain ⟨heap, symbols⟩ := m
  unfold onHeap
  dsimp only at hop ⊢
  rw [hop]

theorem Sound.cons (hm : m.Sound) (hroom : m.Provides (.ofPairs 1)) (a d : Word) :
    ∃ i m', onHeap (Heap.cons a d) m = .ok (.pair i) m' ∧ m.Takes m' (.ofPairs 1) ∧ m'.heap.cells.IsLive i ∧
      m'.heap.cells.read i = ⟨a, d⟩ := by
  obtain ⟨i, hnext⟩ := Pool.exists_next hroom.1
  have htakes := hm.heap.cells.takes hnext ⟨a, d⟩
  have hcons : Heap.cons a d m.heap = .ok (.pair i) { m.heap with cells := m.heap.cells.fill i ⟨a, d⟩ } := by
    rw [Heap.cons_apply, hnext]
  refine ⟨i, _, onHeap_of_ok hcons, ?_, (htakes.isLive i).2 (.inl rfl), (htakes.read i).trans (if_pos rfl)⟩
  exact {
    sound := ⟨⟨hm.heap.cells.fill hnext _, hm.heap.strings⟩, hm.named.sameTexts ⟨rfl, rfl⟩⟩
    cells := hm.heap.cells.keptBy_fill hnext _
    strings := .refl _
    freeCells := Pool.freeCount_fill hnext _
    freeStrings := rfl
    unknown := fun name => (and_iff_left (Finset.notMem_empty name)).symm }

theorem Sound.makeString (hm : m.Sound) (hroom : m.Provides { strings := 1 }) (text : String) :
    ∃ i m', onHeap (Heap.makeString text.toUTF8) m = .ok (.string i) m' ∧ m.Takes m' { strings := 1 } ∧
      m'.heap.strings.IsLive i ∧ m'.heap.strings.read i = text.toUTF8 := by
  obtain ⟨i, hnext⟩ := Pool.exists_next (Nat.lt_of_lt_of_le Nat.zero_lt_one hroom.2)
  have htakes := hm.heap.strings.takes hnext text.toUTF8
  have hmake : Heap.makeString text.toUTF8 m.heap =
      .ok (.string i) { m.heap with strings := m.heap.strings.fill i text.toUTF8 } := by
    rw [Heap.makeString_apply, hnext]
  refine ⟨i, _, onHeap_of_ok hmake, ?_, (htakes.isLive i).2 (.inl rfl), (htakes.read i).trans (if_pos rfl)⟩
  exact {
    sound := ⟨⟨hm.heap.cells, hm.heap.strings.fill hnext _⟩, hm.named.fill_string hnext _⟩
    cells := .refl _
    strings := hm.heap.strings.keptBy_fill hnext _
    freeCells := rfl
    freeStrings := Pool.freeCount_fill hnext _
    unknown := fun name => (and_iff_left (Finset.notMem_empty name)).symm }

/-- A name with a symbol takes nothing. -/
theorem Sound.takes_known (hm : m.Sound) {name : String} {w : Word} (hget : m.symbols.get? name.toUTF8 = some w) :
    m.Takes m { names := {name} } :=
  { hm.takes_zero with
    freeStrings := by
      rw [missing_singleton, hget]
      rfl
    unknown := fun other => by
      rw [Finset.mem_singleton, iff_self_and]
      rintro hnone rfl
      rw [hget] at hnone
      cases hnone }

/-- A name without a symbol takes the slot of its symbol. -/
theorem Sound.takes_new (hm : m.Sound) {name : String} {i : UInt32} (hget : m.symbols.get? name.toUTF8 = none)
    (hnext : m.heap.strings.next? = some i) (hok : intern name.toUTF8 m = .ok (.symbol i) m') :
    m.Takes m' { names := {name} } := by
  have hnamed := hm.named.intern hok
  rw [intern_apply_new hget, hnext] at hok
  cases hok
  exact {
    sound := ⟨⟨hm.heap.cells, hm.heap.strings.fill hnext _⟩, hnamed⟩
    cells := .refl _
    strings := hm.heap.strings.keptBy_fill hnext _
    freeCells := rfl
    freeStrings := by
      rw [missing_singleton, hget]
      exact Pool.freeCount_fill hnext _
    unknown := fun other => by
      rw [Finset.mem_singleton]
      by_cases hother : other = name
      · rw [hother, SymbolTable.get?_insert_self]
        simp
      · have hne : other.toUTF8 ≠ name.toUTF8 := fun heq => hother (String.toByteArray_inj.1 heq)
        rw [SymbolTable.get?_insert_of_ne hne, and_iff_left hother] }

theorem Sound.intern (hm : m.Sound) (name : String) (hroom : m.Provides { names := {name} }) :
    ∃ i m', intern name.toUTF8 m = .ok (.symbol i) m' ∧ m.Takes m' { names := {name} } ∧
      m'.heap.strings.IsLive i ∧ m'.heap.strings.read i = name.toUTF8 := by
  cases hget : m.symbols.get? name.toUTF8 with
  | some w =>
    obtain ⟨i, rfl, hlive, hread⟩ := hm.named.names hget
    exact ⟨i, m, intern_of_get? hget, hm.takes_known hget, hlive, hread⟩
  | none =>
    have hfree : 0 < m.heap.strings.freeCount := by
      have hslots : 0 + m.missing {name} ≤ m.heap.strings.freeCount := hroom.2
      rw [missing_singleton, hget] at hslots
      exact Nat.lt_of_lt_of_le (by decide) hslots
    obtain ⟨i, hnext⟩ := Pool.exists_next hfree
    have hslot := hm.heap.strings.takes hnext name.toUTF8
    have hintern := intern_apply_new hget
    rw [hnext] at hintern
    exact ⟨i, _, hintern, hm.takes_new hget hnext hintern, (hslot.isLive i).2 (.inl rfl),
      (hslot.read i).trans (if_pos rfl)⟩

end Memory

end BoxedScheme
