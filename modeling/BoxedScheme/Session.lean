import BoxedScheme.Evaluator

/-!
# Machines from the outside

Making a machine, running texts on it, and the bindings of its global environment.
-/

namespace BoxedScheme

namespace Machine

/-- A machine whose global environment has no bindings. -/
def create (config : Config) (terminal : Terminal) (files : Files) : Except Stop Machine :=
  let empty : Machine :=
    { toMemory := .fresh config.cells config.strings config.roots
      globalEnv := .nil
      config, terminal, files }
  match initialEnvironment empty with
  | .ok env m => .ok { m with globalEnv := env }
  | .error e _ => .error e

/-- The budget of evaluation steps when nothing else is asked for. -/
def stepBudget : Nat := 0x4000000000000000

/-- Evaluates all forms of a text; the value is that of the last one. -/
def run (source : String) : Eval Word := runSource stepBudget source

/-- Evaluates an expression in the global environment. -/
def evalGlobal (expr : Word) : Eval Word := do eval stepBudget expr (← get).globalEnv

/-- Evaluates all forms of a text and writes the value of the last one; an unspecified value has no
text. -/
def runToText (source : String) : Eval String := do
  let value ← run source
  if value.isUnspecified then return "" else Eval.write value

end Machine

/-! ## Global bindings -/

/-- A binding as text. -/
structure Binding where
  name : String
  value : String
deriving DecidableEq

/-- The bindings of a frame as pairs of words; entries that are no pairs are left out. -/
def frameBindings (h : Heap) (frame : Word) : List (Word × Word) :=
  match h.listItems frame "environment" with
  | .ok entries => entries.toList.filterMap fun entry =>
    match h.car entry, h.cdr entry with
    | .ok symbol, .ok value => some (symbol, value)
    | _, _ => none
  | .error _ => []

/-- The first entry of each key. -/
def firstOfEach : List (Word × Word) → List (Word × Word)
  | [] => []
  | entry :: entries => entry :: (firstOfEach entries).filter (·.1 ≠ entry.1)

/-- The bindings of the global environment, the oldest first; a name defined again has its newest value
and place. -/
def Machine.globalBindings (m : Machine) : List Binding :=
  match m.heap.car m.globalEnv with
  | .ok frame =>
    (firstOfEach (frameBindings m.heap frame)).reverse.map fun (symbol, value) =>
      ⟨m.heap.display symbol, m.heap.write value⟩
  | .error _ => []

end BoxedScheme
