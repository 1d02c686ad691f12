import BoxedScheme.Proofs.Heaps

/-!
# Every run keeps the pools sound

A heap is used through instructions: allocation, changes of pairs, the root stack and collections. The pools satisfy
their representation invariant after every run that changes live pairs only, and so an allocation fails exactly when
its pool is full.

* `Instruction.execute`, `executeAll` : the heap after one instruction and after a sequence of them;
* `Sound.execute`, `Sound.executeAll` : what one step and what a whole run keeps;
* `Pool.Takes p q i a` : `q` is `p` with the item `a` in slot `i`, which was not live;
* `executeAll_sound` : the invariant, and what follows for allocation.
-/

namespace BoxedScheme

/-! ## Full pools -/

namespace Pool

variable {α : Type} [Inhabited α] {p : Pool α} {i : UInt32}

def Full (p : Pool α) : Prop := ∀ i : UInt32, i.toNat < p.capacity → p.IsLive i

/-- An item was put into a slot that was not live, and nothing else changed. -/
structure Takes (p q : Pool α) (i : UInt32) (a : α) : Prop where
  capacity : q.capacity = p.capacity
  inside : i.toNat < p.capacity
  dead : ¬ p.IsLive i
  isLive : ∀ j, q.IsLive j ↔ j = i ∨ p.IsLive j
  read : ∀ j, q.read j = if j = i then a else p.read j

theorem Sound.full_of_next (hp : p.Sound) (hnext : p.next? = none) : p.Full := by
  intro i hi
  have hempty : p.free = #[] := Array.back?_eq_none_iff.1 hnext
  by_contra hdead
  have hmem := (hp.mem_free i).2 ⟨hi, hdead⟩
  rw [hempty] at hmem
  exact Array.not_mem_empty i hmem

theorem Sound.not_full_of_next (hp : p.Sound) (hnext : p.next? = some i) : ¬ p.Full := by
  obtain ⟨hlt, hdead⟩ := hp.next_dead hnext
  exact fun hfull => hdead (hfull i hlt)

theorem Sound.takes (hp : p.Sound) (hnext : p.next? = some i) (a : α) : p.Takes (p.fill i a) i a := by
  obtain ⟨hlt, hdead⟩ := hp.next_dead hnext
  exact ⟨capacity_fill .., hlt, hdead, isLive_fill hlt a, read_fill hlt a⟩

end Pool

/-- The state that an operation leaves, whether it fails or not. -/
def after {ε σ α : Type} (op : EStateM ε σ α) (s : σ) : σ :=
  match op s with
  | .ok _ s => s
  | .error _ s => s

theorem after_of_ok {ε σ α : Type} {op : EStateM ε σ α} {s s' : σ} {a : α} (h : op s = .ok a s') :
    after op s = s' := by
  rw [after, h]

theorem after_of_error {ε σ α : Type} {op : EStateM ε σ α} {s s' : σ} {e : ε} (h : op s = .error e s') :
    after op s = s' := by
  rw [after, h]

theorem bind_of_ok {ε σ α β : Type} {x : EStateM ε σ α} {f : α → EStateM ε σ β} {s s' : σ} {a : α}
    (hx : x s = .ok a s') : (x >>= f) s = f a s' := by
  show EStateM.bind x f s = _
  rw [EStateM.bind, hx]

theorem bind_of_error {ε σ α β : Type} {x : EStateM ε σ α} {f : α → EStateM ε σ β} {s s' : σ} {e : ε}
    (hx : x s = .error e s') : (x >>= f) s = .error e s' := by
  show EStateM.bind x f s = _
  rw [EStateM.bind, hx]

namespace Heap

/-! ## Instructions -/

/-- What can be asked of a heap. The words are arbitrary: they may refer to free slots or outside the pools. -/
inductive Instruction where
  | cons (car cdr : Word)
  | makeClosure (env code : Word)
  | listOf (items : List Word)
  | makeString (bytes : ByteArray)
  | setCar (pair value : Word)
  | setCdr (pair value : Word)
  | pushRoot (w : Word)
  | pushRoots (first second : Word)
  | setRoot (position : Nat) (w : Word)
  | truncateRoots (depth : Nat)
  | collect (extra : List Word)

namespace Instruction

def execute : Instruction → Heap → Heap
  | .cons a d => after (Heap.cons a d)
  | .makeClosure env code => after (Heap.makeClosure env code)
  | .listOf items => after (Heap.listOf items)
  | .makeString bytes => after (Heap.makeString bytes)
  | .setCar pair value => after (Heap.setCar pair value)
  | .setCdr pair value => after (Heap.setCdr pair value)
  | .pushRoot w => after (Heap.pushRoot w)
  | .pushRoots first second => after (Heap.pushRoots first second)
  | .setRoot position w => (·.setRoot position w)
  | .truncateRoots depth => (·.truncateRoots depth)
  | .collect extra => fun h => (h.collect extra).2

/-- A pair is changed only while it is live. -/
def Proper (h : Heap) : Instruction → Prop
  | .setCar pair _ | .setCdr pair _ => pair.isPair → h.cells.IsLive pair.payload
  | _ => True

end Instruction

def executeAll : List Instruction → Heap → Heap
  | [], h => h
  | i :: is, h => executeAll is (i.execute h)

def ProperAll : List Instruction → Heap → Prop
  | [], _ => True
  | i :: is, h => i.Proper h ∧ ProperAll is (i.execute h)

/-! ## Steps and runs -/

section Steps

variable {h : Heap} {w : Word}

theorem Sound.cons (hs : h.Sound) (a d : Word) : (after (Heap.cons a d) h).Sound := by
  rw [after, cons_apply]
  cases hnext : h.cells.next? with
  | none => exact hs
  | some i => exact ⟨hs.cells.fill hnext _, hs.strings⟩

theorem Sound.makeClosure (hs : h.Sound) (env code : Word) : (after (Heap.makeClosure env code) h).Sound := by
  rw [after, makeClosure_apply]
  cases hnext : h.cells.next? with
  | none => exact hs
  | some i => exact ⟨hs.cells.fill hnext _, hs.strings⟩

theorem after_consAll_cons (item : Word) (items : List Word) (tail : Word) (h : Heap) :
    ∃ tail', after (Heap.consAll (item :: items) tail) h = after (Heap.cons item tail) h ∨
      after (Heap.consAll (item :: items) tail) h = after (Heap.consAll items tail') (after (Heap.cons item tail) h) := by
  unfold after
  rw [consAll_cons_apply]
  cases Heap.cons item tail h with
  | error f h' => exact ⟨tail, .inl rfl⟩
  | ok pair h' => exact ⟨pair, .inr rfl⟩

theorem Sound.consAll (hs : h.Sound) (items : List Word) (tail : Word) : (after (Heap.consAll items tail) h).Sound := by
  induction items generalizing h tail with
  | nil => exact hs
  | cons item items ih =>
    have hs' := hs.cons item tail
    obtain ⟨tail', heq | heq⟩ := after_consAll_cons item items tail h
    · rw [heq]
      exact hs'
    · rw [heq]
      exact ih hs' tail'

theorem Sound.makeString (hs : h.Sound) (bytes : ByteArray) : (after (Heap.makeString bytes) h).Sound := by
  rw [after, makeString_apply]
  cases hnext : h.strings.next? with
  | none => exact hs
  | some i => exact ⟨hs.cells, hs.strings.fill hnext _⟩

theorem Sound.updatePair (hs : h.Sound) (hw : w.isPair → h.cells.IsLive w.payload) (operation : String)
    (f : Cell → Cell) : (after (Heap.updatePair w operation f) h).Sound := by
  rw [after]
  by_cases hp : w.isPair
  · rw [updatePair_of_isPair hp]
    exact ⟨hs.cells.update (hw hp) f, hs.strings⟩
  · rw [updatePair_of_not_isPair hp]
    exact hs

/-- The root stack takes no part in the invariant. -/
theorem Sound.after_roots {α : Type} {op : HeapM α} (hs : h.Sound) (hcells : (after op h).cells = h.cells)
    (hstrings : (after op h).strings = h.strings) : (after op h).Sound :=
  ⟨hcells ▸ hs.cells, hstrings ▸ hs.strings⟩

theorem after_pushRoot (w : Word) (h : Heap) :
    (after (Heap.pushRoot w) h).cells = h.cells ∧ (after (Heap.pushRoot w) h).strings = h.strings := by
  unfold after Heap.pushRoot
  by_cases hlt : h.roots.size < h.rootCapacity <;> simp [hlt]

theorem after_pushRoots (v w : Word) (h : Heap) :
    (after (Heap.pushRoots v w) h).cells = h.cells ∧ (after (Heap.pushRoots v w) h).strings = h.strings := by
  unfold after Heap.pushRoots
  by_cases hlt : h.roots.size + 1 < h.rootCapacity <;> simp [hlt]

/-- One instruction keeps the invariant. -/
theorem Sound.execute (hs : h.Sound) {i : Instruction} (hi : i.Proper h) : (i.execute h).Sound := by
  cases i with
  | cons a d => exact hs.cons a d
  | makeClosure env code => exact hs.makeClosure env code
  | listOf items => exact hs.consAll items.reverse .nil
  | makeString bytes => exact hs.makeString bytes
  | setCar pair value | setCdr pair value => exact hs.updatePair hi _ _
  | pushRoot w => exact hs.after_roots (after_pushRoot w h).1 (after_pushRoot w h).2
  | pushRoots v w => exact hs.after_roots (after_pushRoots v w h).1 (after_pushRoots v w h).2
  | setRoot position w => exact ⟨hs.cells, hs.strings⟩
  | truncateRoots depth => exact ⟨hs.cells, hs.strings⟩
  | collect extra => exact hs.collect extra

/-- A run keeps the invariant. -/
theorem Sound.executeAll (hs : h.Sound) {is : List Instruction} (his : ProperAll is h) : (executeAll is h).Sound := by
  induction is generalizing h with
  | nil => exact hs
  | cons i is ih => exact ih (hs.execute his.1) his.2

theorem sound_fresh (cells strings roots : Nat) : (Heap.fresh cells strings roots).Sound :=
  ⟨.fresh (Nat.min_le_right ..), .fresh (Nat.min_le_right ..)⟩

end Steps

/-! ## Allocation -/

/-- An allocation on `h` fails with `fault` and changes nothing if `full` holds, and otherwise answers as `taken`
says. -/
def Allocates (h : Heap) (full : Prop) (fault : Fault) (taken : Word → Heap → Prop) :
    EStateM.Result Fault Heap Word → Prop
  | .error f h' => full ∧ f = fault ∧ h' = h
  | .ok w h' => ¬ full ∧ taken w h'

/-- A cell that was not live holds the two words, and nothing else changed. -/
def TakesCell (h : Heap) (make : UInt32 → Word) (a d : Word) (w : Word) (h' : Heap) : Prop :=
  ∃ i, w = make i ∧ h.cells.Takes h'.cells i ⟨a, d⟩ ∧ h' = { h with cells := h'.cells }

/-- A string slot that was not live holds the bytes, and nothing else changed. -/
def TakesString (h : Heap) (bytes : ByteArray) (w : Word) (h' : Heap) : Prop :=
  ∃ i, w = .string i ∧ h.strings.Takes h'.strings i bytes ∧ h' = { h with strings := h'.strings }

section Allocation

variable {h : Heap}

theorem Sound.allocates_cons (hs : h.Sound) (a d : Word) :
    h.Allocates h.cells.Full (.outOfCells h.cells.capacity) (h.TakesCell .pair a d) (Heap.cons a d h) := by
  rw [cons_apply]
  cases hnext : h.cells.next? with
  | none => exact ⟨hs.cells.full_of_next hnext, rfl, rfl⟩
  | some i => exact ⟨hs.cells.not_full_of_next hnext, i, rfl, hs.cells.takes hnext _, rfl⟩

theorem Sound.allocates_makeClosure (hs : h.Sound) (env code : Word) :
    h.Allocates h.cells.Full (.outOfCells h.cells.capacity) (h.TakesCell .closure env code)
      (Heap.makeClosure env code h) := by
  rw [makeClosure_apply]
  cases hnext : h.cells.next? with
  | none => exact ⟨hs.cells.full_of_next hnext, rfl, rfl⟩
  | some i => exact ⟨hs.cells.not_full_of_next hnext, i, rfl, hs.cells.takes hnext _, rfl⟩

theorem Sound.allocates_makeString (hs : h.Sound) (bytes : ByteArray) :
    h.Allocates h.strings.Full (.outOfStrings h.strings.capacity) (h.TakesString bytes) (Heap.makeString bytes h) := by
  rw [makeString_apply]
  cases hnext : h.strings.next? with
  | none => exact ⟨hs.strings.full_of_next hnext, rfl, rfl⟩
  | some i => exact ⟨hs.strings.not_full_of_next hnext, i, rfl, hs.strings.takes hnext _, rfl⟩

end Allocation

/-- After every run on a new heap that changes live pairs only, the free stacks list exactly the slots that are not
live, dead cells hold the error word twice, no mark is set, and the slots in use are the live ones. So an allocation
fails exactly if all slots are live, and then changes nothing; otherwise it takes a slot that was not live and
leaves the others alone. -/
theorem executeAll_sound (cells strings roots : Nat) (is : List Instruction)
    (his : ProperAll is (fresh cells strings roots)) :
    let h := executeAll is (fresh cells strings roots)
    h.Sound ∧ (∀ i, ¬ h.cells.IsLive i → h.cells.read i = ⟨.error, .error⟩) ∧
      h.cells.inUse = h.cells.live.count true ∧ h.strings.inUse = h.strings.live.count true ∧
      (∀ a d, h.Allocates h.cells.Full (.outOfCells h.cells.capacity) (h.TakesCell .pair a d) (cons a d h)) ∧
      (∀ env code, h.Allocates h.cells.Full (.outOfCells h.cells.capacity) (h.TakesCell .closure env code)
        (makeClosure env code h)) ∧
      ∀ bytes, h.Allocates h.strings.Full (.outOfStrings h.strings.capacity) (h.TakesString bytes)
        (makeString bytes h) := by
  intro h
  have hs : h.Sound := (sound_fresh cells strings roots).executeAll his
  exact ⟨hs, hs.cells.read_dead, hs.cells.inUse_eq, hs.strings.inUse_eq, hs.allocates_cons, hs.allocates_makeClosure,
    hs.allocates_makeString⟩

/-- A run on two cells. The list finds room for one of its pairs only; that pair is linked to the first one, changed,
and dropped again. -/
def recycling : List Instruction :=
  [.cons .nil .nil, .pushRoot (.pair 0), .listOf [.true, .false], .setCdr (.pair 0) (.pair 1), .setCar (.pair 1) .nil,
    .setCdr (.pair 0) .nil, .makeString "lost".toUTF8, .collect [.pair 7]]

theorem properAll_recycling : ProperAll recycling (fresh 2 1 1) :=
  ⟨trivial, trivial, trivial, fun _ => by cbv, fun _ => by cbv, fun _ => by cbv, trivial, trivial, trivial⟩

/-- After that run one cell is in use, and the other one is there to be taken. -/
theorem executeAll_sound_recycling :
    let h := executeAll recycling (fresh 2 1 1)
    ProperAll recycling (fresh 2 1 1) ∧ h.Sound ∧ h.cells.inUse = 1 ∧ h.cells.live.count true = 1 ∧
      h.Allocates h.cells.Full (.outOfCells h.cells.capacity) (h.TakesCell .pair .true .nil) (cons .true .nil h) := by
  intro h
  obtain ⟨hs, -, hcells, -, hcons, -⟩ := executeAll_sound 2 1 1 recycling properAll_recycling
  have hone : h.cells.inUse = 1 := by cbv
  exact ⟨properAll_recycling, hs, hone, hcells ▸ hone, hcons .true .nil⟩

end Heap

end BoxedScheme
