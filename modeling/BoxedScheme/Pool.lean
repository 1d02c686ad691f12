/-!
# Pools

A pool has a fixed number of slots, named by 32-bit indices. A slot is live from the moment it is handed
out until it is released; a slot that is not live holds the default item. The free slots are a stack:
the next one handed out is the last one put there, and a fresh pool hands out index 0 first. Each slot also
has a mark, which is set only while a collection is under way.

* `Pool.next?`, `Pool.fill`: the slot that comes next, and putting an item into it.
* `Pool.read`, `Pool.get?`, `Pool.update`: the item in a slot, the item in a live slot, changing an item.
* `Pool.garbage`, `Pool.release`: the live slots without a mark, and freeing slots and clearing marks.
-/

namespace BoxedScheme

structure Pool (α : Type) where
  /-- The item in each slot. -/
  items : Array α
  /-- Which slots are live. -/
  live : Array Bool
  /-- Which slots are marked. -/
  marks : Array Bool
  /-- The free slots, the next one last. -/
  free : Array UInt32
  /-- There is one entry for each slot. -/
  size_live : live.size = items.size
  size_marks : marks.size = items.size

namespace Pool

variable {α : Type}

instance : Inhabited (Pool α) := ⟨⟨#[], #[], #[], #[], rfl, rfl⟩⟩

/-- A pool of `n` free slots. -/
def fresh [Inhabited α] (n : Nat) : Pool α where
  items := Array.replicate n default
  live := Array.replicate n false
  marks := Array.replicate n false
  free := (Array.range n).map fun i => .ofNat (n - 1 - i)
  size_live := by simp
  size_marks := by simp

def capacity (p : Pool α) : Nat := p.items.size

def freeCount (p : Pool α) : Nat := p.free.size

def inUse (p : Pool α) : Nat := p.capacity - p.freeCount

/-- The slot that is handed out next, if any is left. -/
def next? (p : Pool α) : Option UInt32 := p.free.back?

/-- Puts an item into slot `i`, which is the next free one, and makes it live. -/
def fill (p : Pool α) (i : UInt32) (a : α) : Pool α where
  items := p.items.setIfInBounds i.toNat a
  live := p.live.setIfInBounds i.toNat true
  marks := p.marks
  free := p.free.pop
  size_live := by simp [p.size_live]
  size_marks := by simp [p.size_marks]

/-- The item in a slot, live or not; outside the pool, the default item. -/
def read [Inhabited α] (p : Pool α) (i : UInt32) : α :=
  if h : i.toNat < p.items.size then p.items[i.toNat] else default

/-- The item in a live slot. -/
def get? (p : Pool α) (i : UInt32) : Option α :=
  if p.live.getD i.toNat false then p.items[i.toNat]? else none

/-- Changes the item in a slot. -/
def update (p : Pool α) (i : UInt32) (f : α → α) : Pool α :=
  { p with
    items := p.items.modify i.toNat f
    size_live := by simp [p.size_live]
    size_marks := by simp [p.size_marks] }

/-- The live slots with their items, by index. -/
def liveItems (p : Pool α) : Array (UInt32 × α) :=
  p.items.zipIdx.filterMap fun (item, i) =>
    if p.live.getD i false then some (.ofNat i, item) else none

/-- The live slots without a mark, ascending. -/
def garbage (p : Pool α) (marks : Array Bool) : Array UInt32 :=
  p.live.size.fold (fun i _ found =>
    if p.live[i] && !marks.getD i false then found.push (.ofNat i) else found) #[]

/-- An array with one value written to several places. -/
def setAll {β : Type} (b : β) (indices : Array UInt32) (a : Array β) : Array β :=
  indices.foldl (fun a i => a.setIfInBounds i.toNat b) a

theorem size_setAll {β : Type} (b : β) (indices : Array UInt32) (a : Array β) :
    (setAll b indices a).size = a.size :=
  Array.foldl_induction (fun _ (a' : Array β) => a'.size = a.size) rfl (by simp)

/-- Frees the given slots and clears all marks; the first slot goes onto the free stack first. -/
def release [Inhabited α] (p : Pool α) (indices : Array UInt32) : Pool α where
  items := setAll default indices p.items
  live := setAll false indices p.live
  marks := Array.replicate p.items.size false
  free := p.free ++ indices
  size_live := by rw [size_setAll, size_setAll, p.size_live]
  size_marks := by rw [size_setAll, Array.size_replicate]

end Pool

end BoxedScheme
