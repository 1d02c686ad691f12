import BoxedScheme.Heap.Collector

/-!
# Memory: a heap and its symbols

A symbol is the string slot that holds its name, so two symbols are the same exactly when they share a
slot. The symbol table keeps one symbol for each name; its entries are roots of every collection.
-/

namespace BoxedScheme

/-- The symbol of each interned name, the newest first. -/
structure SymbolTable where
  entries : List (ByteArray × Word) := []
deriving Inhabited

namespace SymbolTable

def get? (t : SymbolTable) (name : ByteArray) : Option Word := t.entries.lookup name

def insert (t : SymbolTable) (name : ByteArray) (symbol : Word) : SymbolTable :=
  ⟨(name, symbol) :: t.entries⟩

def size (t : SymbolTable) : Nat := t.entries.length

/-- Every interned symbol. -/
def values (t : SymbolTable) : List Word := t.entries.map (·.2)

end SymbolTable

structure Memory where
  heap : Heap
  symbols : SymbolTable
deriving Inhabited

/-- Operations that change memory. -/
abbrev MemoryM := EStateM Fault Memory

namespace Memory

/-- Memory with empty pools of the given capacities. -/
def fresh (cells strings roots : Nat) : Memory := ⟨.fresh cells strings roots, {}⟩

/-- An operation of the heap as one of memory. -/
@[inline] def onHeap {α : Type} (op : HeapM α) : MemoryM α := fun ⟨heap, symbols⟩ =>
  match op heap with
  | .ok a heap => .ok a ⟨heap, symbols⟩
  | .error e heap => .error e ⟨heap, symbols⟩

/-- The symbol of a name; a new name takes a string slot. -/
def intern (name : ByteArray) : MemoryM Word := fun m =>
  match m.symbols.get? name with
  | some symbol => .ok symbol m
  | none =>
    match onHeap (Heap.makeString name) m with
    | .ok string m =>
      let symbol := Word.symbol string.payload
      .ok symbol { m with symbols := m.symbols.insert name symbol }
    | .error e m => .error e m

/-- The symbol whose name is the given string; for a new name the string's own slot becomes the symbol. -/
def internValue (value : Word) : MemoryM Word := fun m =>
  match m.heap.stringBytes value with
  | .error e => .error e m
  | .ok name =>
    match m.symbols.get? name with
    | some symbol => .ok symbol m
    | none =>
      let symbol := Word.symbol value.payload
      .ok symbol { m with symbols := m.symbols.insert name symbol }

end Memory

end BoxedScheme
