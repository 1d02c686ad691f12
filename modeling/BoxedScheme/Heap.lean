import BoxedScheme.Pool
import BoxedScheme.Text.Utf8
import BoxedScheme.Word

/-!
# The heap

The machine's only storage: a pool of cells for pairs and closures, a pool of byte strings for strings and
symbol names, and a stack of registered roots. Words refer to slots by index, so a cyclic list is a matter
of indices. Nothing grows: when a pool or the root stack is full, the operation fails and changes nothing.

Reading is a function of the heap; an operation that changes the heap is a `HeapM`, which hands the heap
back on success and on failure.

* `Heap.cons`, `Heap.makeClosure`, `Heap.makeString`: allocation.
* `Heap.car`, `Heap.cdr`, `Heap.setCar`, `Heap.setCdr`, `Heap.closureParts`: access to cells.
* `Heap.spine`: the items of a list and what ends it, or nothing if it never ends.
* `Heap.pushRoot`, `Heap.truncateRoots`: the root stack.
-/

namespace BoxedScheme

/-- Storage for a pair, or for the environment and code of a closure. -/
structure Cell where
  car : Word
  cdr : Word
deriving DecidableEq

/-- A cell nobody uses holds the error word twice. -/
instance : Inhabited Cell := ⟨⟨.error, .error⟩⟩

/-- Why a heap operation fails. -/
inductive Fault where
  | outOfCells (capacity : Nat)
  | outOfStrings (capacity : Nat)
  | rootOverflow (capacity : Nat)
  | wrongType (operation expected got : String)
  | circularList (operation : String)
deriving DecidableEq

def Fault.message : Fault → String
  | .outOfCells n => s!"out of memory: all {n} cells in use"
  | .outOfStrings n => s!"out of string memory: all {n} strings in use"
  | .rootOverflow n => s!"stack overflow: {n} roots registered"
  | .wrongType operation expected got => s!"{operation}: needs a {expected}, got {got}"
  | .circularList operation => s!"{operation}: circular list"

/-- What the collector has done over a heap's lifetime. -/
structure CollectorStats where
  collections : Nat := 0
  cellsFreed : Nat := 0
  stringsFreed : Nat := 0
  lastCellsFreed : Nat := 0
  lastStringsFreed : Nat := 0
deriving DecidableEq, Inhabited

structure Heap where
  cells : Pool Cell
  strings : Pool ByteArray
  /-- Words that in-flight evaluations hold on to. -/
  roots : Array Word
  rootCapacity : Nat
  stats : CollectorStats
deriving Inhabited

/-- Operations that change the heap. -/
abbrev HeapM := EStateM Fault Heap

namespace Heap

/-- Pools hold fewer than `2 ^ 32` slots, so that an index fits in a payload. -/
def maxCapacity : Nat := 0xffffffff

def fresh (cells strings roots : Nat) : Heap where
  cells := .fresh (min cells maxCapacity)
  strings := .fresh (min strings maxCapacity)
  roots := #[]
  rootCapacity := roots
  stats := {}

/-! ## Cells -/

/-- Takes a free cell. -/
def allocCell (cell : Cell) : HeapM UInt32 := fun h =>
  match h.cells.next? with
  | none => .error (.outOfCells h.cells.capacity) h
  | some i => .ok i { h with cells := h.cells.fill i cell }

/-- A new pair. -/
def cons (car cdr : Word) : HeapM Word := .pair <$> allocCell ⟨car, cdr⟩

/-- A new closure of an environment and its code, a pair of parameters and body. -/
def makeClosure (env code : Word) : HeapM Word := .closure <$> allocCell ⟨env, code⟩

/-- The cell of a pair. -/
def pairCell (h : Heap) (pair : Word) (operation : String) : Except Fault Cell :=
  if pair.isPair then .ok (h.cells.read pair.payload)
  else .error (.wrongType operation "pair" pair.typeName)

def car (h : Heap) (pair : Word) : Except Fault Word := Cell.car <$> h.pairCell pair "car"

def cdr (h : Heap) (pair : Word) : Except Fault Word := Cell.cdr <$> h.pairCell pair "cdr"

/-- Changes the cell of a pair. -/
def updatePair (pair : Word) (operation : String) (f : Cell → Cell) : HeapM Unit := fun h =>
  if pair.isPair then .ok () { h with cells := h.cells.update pair.payload f }
  else .error (.wrongType operation "pair" pair.typeName) h

def setCar (pair value : Word) : HeapM Unit :=
  updatePair pair "set-car!" fun cell => { cell with car := value }

def setCdr (pair value : Word) : HeapM Unit :=
  updatePair pair "set-cdr!" fun cell => { cell with cdr := value }

/-- Environment, parameters and body of a closure. -/
structure ClosureParts where
  env : Word
  params : Word
  body : Word

def closureParts (h : Heap) (closure : Word) : Except Fault ClosureParts := do
  match closure.closurePair? with
  | none => throw (.wrongType "apply" "closure" closure.typeName)
  | some pair =>
    let env ← h.car pair
    let code ← h.cdr pair
    return ⟨env, ← h.car code, ← h.cdr code⟩

/-! ## Lists -/

/-- A list in memory: its items and the word that ends it. -/
structure Spine where
  items : Array Word
  tail : Word

/-- Follows a list for at most `limit` pairs, behind the items already found. -/
def follow (h : Heap) : Nat → Array Word → Word → Option Spine
  | 0, items, w => if w.isPair then none else some ⟨items, w⟩
  | limit + 1, items, w =>
    if w.isPair then
      let cell := h.cells.read w.payload
      follow h limit (items.push cell.car) cell.cdr
    else some ⟨items, w⟩

/-- The items of a list and the word that ends it. A list with more pairs than the pool has cells never
ends, and has no spine. -/
def spine (h : Heap) (list : Word) : Option Spine := h.follow h.cells.capacity #[] list

/-- The items of a proper list. -/
def listItems (h : Heap) (list : Word) (operation : String) : Except Fault (Array Word) :=
  match h.spine list with
  | none => .error (.circularList operation)
  | some s =>
    if s.tail.isNull then .ok s.items
    else .error (.wrongType operation "proper list" s.tail.typeName)

/-- The number of pairs of a list, proper or not. -/
def listLength (h : Heap) (list : Word) (operation : String) : Except Fault Nat :=
  match h.spine list with
  | none => .error (.circularList operation)
  | some s => .ok s.items.size

/-- The word that ends a list. -/
def listTail (h : Heap) (list : Word) : Except Fault Word :=
  match h.spine list with
  | none => .error (.circularList "list")
  | some s => .ok s.tail

/-- Puts items in front of a list, the first of them last. -/
def consAll : List Word → Word → HeapM Word
  | [], tail => pure tail
  | item :: items, tail => do consAll items (← cons item tail)

/-- A proper list of the given items, built from its end. -/
def listOf (items : List Word) : HeapM Word := consAll items.reverse .nil

/-! ## Strings -/

/-- A new string; equal contents get different slots. -/
def makeString (bytes : ByteArray) : HeapM Word := fun h =>
  match h.strings.next? with
  | none => .error (.outOfStrings h.strings.capacity) h
  | some i => .ok (.string i) { h with strings := h.strings.fill i bytes }

/-- The bytes of a string, or of a symbol's name. -/
def stringBytes (h : Heap) (w : Word) : Except Fault ByteArray :=
  if w.isString || w.isSymbol then .ok (h.strings.read w.payload)
  else .error (.wrongType "string" "string" w.typeName)

/-- The text of a string, or of a symbol's name. -/
def stringText (h : Heap) (w : Word) : Except Fault String := Text.ofBytes <$> h.stringBytes w

/-! ## Roots -/

/-- Registers a root and answers its position. -/
def pushRoot (w : Word) : HeapM Nat := fun h =>
  let depth := h.roots.size
  if depth < h.rootCapacity then .ok depth { h with roots := h.roots.push w }
  else .error (.rootOverflow h.rootCapacity) h

/-- Registers two roots, or none, and answers the position of the first. -/
def pushRoots (first second : Word) : HeapM Nat := fun h =>
  let depth := h.roots.size
  if depth + 1 < h.rootCapacity then
    .ok depth { h with roots := (h.roots.push first).push second }
  else .error (.rootOverflow h.rootCapacity) h

def setRoot (h : Heap) (position : Nat) (w : Word) : Heap :=
  { h with roots := h.roots.setIfInBounds position w }

def root (h : Heap) (position : Nat) : Word := h.roots[position]?.getD default

/-- Drops the roots above a depth. -/
def truncateRoots (h : Heap) (depth : Nat) : Heap := { h with roots := h.roots.shrink depth }

end Heap

end BoxedScheme
