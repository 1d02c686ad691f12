import BoxedScheme.Config
import BoxedScheme.Error
import BoxedScheme.Files
import BoxedScheme.Printer
import BoxedScheme.Reader
import BoxedScheme.Terminal

/-!
# The machine

The state in which programs run, and the actions on it. An action hands back the state on success and on
failure, since a session goes on after an error.

* `Eval`: actions that may stop with an error of the program, for want of steps, or for want of a file.
* `Machine.collect`: a collection with the symbols and the global environment as roots.
-/

namespace BoxedScheme

structure Machine extends Memory where
  /-- The outermost environment. -/
  globalEnv : Word
  config : Config
  terminal : Terminal
  /-- Evaluation steps since the last collection. -/
  dispatches : Nat := 0
  files : Files := {}
deriving Inhabited

/-- Why an evaluation stops without a value. -/
inductive Stop where
  | error (e : Error)
  /-- The step budget ran out before there was an answer. -/
  | unfinished
  /-- The file at a path has to be supplied first. -/
  | needsFile (path : String)
deriving DecidableEq

/-- Actions on the machine. -/
abbrev Eval := EStateM Stop Machine

namespace Machine

/-- Collects, with the symbols and the global environment as further roots. -/
def collect (m : Machine) : CollectorReport × Machine :=
  let (report, heap) := m.heap.collect (m.symbols.values ++ [m.globalEnv])
  (report, { m with heap })

/-- Changes the heap. -/
@[inline] def mapHeap (f : Heap → Heap) (m : Machine) : Machine := { m with heap := f m.heap }

end Machine

namespace Eval

variable {α : Type}

/-- Stops with an error of the program. -/
def raise (e : Error) : Eval α := throw (.error e)

/-- An outcome as an action. -/
@[inline] def ofExcept (x : Except Error α) : Eval α := fun m =>
  match x with
  | .ok a => .ok a m
  | .error e => .error (.error e) m

/-- What a function of the heap finds. -/
@[inline] def inspect (f : Heap → Except Fault α) : Eval α := fun m =>
  match f m.heap with
  | .ok a => .ok a m
  | .error e => .error (.error (.ofFault e)) m

/-- An operation of memory as an action. -/
@[inline] def onMemory (op : MemoryM α) : Eval α := fun m =>
  match op m.toMemory with
  | .ok a memory => .ok a { m with toMemory := memory }
  | .error e memory => .error (.error (.ofFault e)) { m with toMemory := memory }

/-- An operation of the heap as an action. -/
@[inline] def onHeap (op : HeapM α) : Eval α := fun m =>
  match op m.heap with
  | .ok a heap => .ok a { m with heap }
  | .error e heap => .error (.error (.ofFault e)) { m with heap }

def car (pair : Word) : Eval Word := inspect (·.car pair)

def cdr (pair : Word) : Eval Word := inspect (·.cdr pair)

def cons (car cdr : Word) : Eval Word := onHeap (Heap.cons car cdr)

def print (piece : String) : Eval Unit := modify fun m => { m with terminal := m.terminal.print piece }

/-- The text of a word as a program can read it back. -/
def write (w : Word) : Eval String := fun m => .ok (m.heap.write w) m

/-- Runs an action and then drops the roots it registered, whether it failed or not. -/
@[inline] def inRootScope (action : Eval α) : Eval α := fun m =>
  let depth := m.heap.roots.size
  match action m with
  | .ok a m => .ok a (m.mapHeap (·.truncateRoots depth))
  | .error e m => .error e (m.mapHeap (·.truncateRoots depth))

/-- Reads the next datum. -/
def readDatum (r : Reader) : Eval (Word × Reader) := fun m =>
  match r.read m.toMemory with
  | ((.ok datum, r), memory) => .ok (datum, r) { m with toMemory := memory }
  | ((.error e, _), memory) => .error (.error e) { m with toMemory := memory }

end Eval

end BoxedScheme
