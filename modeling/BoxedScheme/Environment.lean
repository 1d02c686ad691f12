import BoxedScheme.Machine

/-!
# Environments

An environment is a list of frames, the innermost first, and a frame is a list of bindings, the newest
first; a binding is a pair of a symbol and its value. A name that no frame binds is looked up among the
procedures, so a program can redefine them.

* `lookup`: the value of a symbol.
* `define`: a new binding in the innermost frame.
* `extend`: a new frame that binds parameters to arguments.
* `initialEnvironment`: the names of all operations interned, and one empty frame.
-/

namespace BoxedScheme

/-! ## Lookup -/

/-- The value that the bindings of a frame give to a symbol; at most `limit` of them are looked at. -/
def lookupFrame (h : Heap) (symbol : Word) : Nat → Word → Except Stop (Option Word)
  | limit, bindings =>
    if bindings.isPair then
      let cell := h.cells.read bindings.payload
      match h.pairCell cell.car "car" with
      | .error e => .error (.error (.ofFault e))
      | .ok binding =>
        if binding.car = symbol then .ok (some binding.cdr)
        else match limit with
          | 0 => .error .unfinished
          | limit + 1 => lookupFrame h symbol limit cell.cdr
    else .ok none

/-- The value that the frames of an environment give to a symbol. -/
def lookupFrames (h : Heap) (symbol : Word) : Nat → Word → Except Stop (Option Word)
  | limit, frames =>
    if frames.isPair then
      let cell := h.cells.read frames.payload
      match lookupFrame h symbol h.cells.capacity cell.car with
      | .error e => .error e
      | .ok (some value) => .ok (some value)
      | .ok none =>
        match limit with
        | 0 => .error .unfinished
        | limit + 1 => lookupFrames h symbol limit cell.cdr
    else .ok none

/-- The value of a symbol: the innermost binding, or else the procedure of that name. -/
def Heap.lookup (h : Heap) (env symbol : Word) : Except Stop Word :=
  match lookupFrames h symbol h.cells.capacity env with
  | .error e => .error e
  | .ok (some value) => .ok value
  | .ok none =>
    match Operation.procedureOf? symbol with
    | some _ => .ok (.procedure symbol.payload)
    | none => .error (.error (.unboundVariable (h.display symbol)))

def lookup (env symbol : Word) : Eval Word := fun m =>
  match m.heap.lookup env symbol with
  | .ok value => .ok value m
  | .error e => .error e m

/-! ## Definition -/

/-- Puts a binding in front of the innermost frame. -/
def define (env symbol value : Word) : Eval Unit := do
  let binding ← Eval.cons symbol value
  let frame ← Eval.car env
  let frame ← Eval.cons binding frame
  Eval.onHeap (Heap.setCar env frame)

/-! ## Extension -/

/-- A frame with one binding more. -/
def bindTo (symbol value frame : Word) : Eval Word := do
  let binding ← Eval.cons symbol value
  Eval.cons binding frame

/-- What is left of parameters and arguments after binding them in step, and the frame. -/
structure Bound where
  params : Word
  args : Word
  frame : Word

/-- Binds the first parameter to the first argument, if both are left, and goes on with the others. -/
def bindWith (again : Word → Word → Word → Eval Bound) (params args frame : Word) : Eval Bound := do
  if params.isPair && args.isPair then
    let param ← Eval.car params
    let arg ← Eval.car args
    let frame ← bindTo param arg frame
    again (← Eval.cdr params) (← Eval.cdr args) frame
  else return ⟨params, args, frame⟩

/-- Binds parameters to arguments in step, as far as both go, at most `limit` and one of them. -/
def bindInStep : Nat → Word → Word → Word → Eval Bound
  | 0 => bindWith fun _ _ _ => throw .unfinished
  | limit + 1 => bindWith (bindInStep limit)

/-- The parameters do not go with the arguments. -/
def mismatch (params args : Word) : Eval Word := do
  let required ← Eval.inspect (·.listLength params "lambda")
  let tail ← Eval.inspect (·.listTail params)
  let got ← Eval.inspect (·.listLength args "apply")
  Eval.raise (.parameterMismatch (if tail.isSymbol then .atLeast required else .exact required) got)

/-- An environment with a new innermost frame that binds parameters to arguments. A symbol takes all
arguments that are left when it is reached; otherwise both lists must end together. -/
def extend (env params args : Word) : Eval Word := do
  let freeCells := (← get).heap.cells.freeCount
  let bound ← bindInStep freeCells params args .nil
  if bound.params.isSymbol then
    let frame ← bindTo bound.params bound.args bound.frame
    Eval.cons frame env
  else if bound.params.isNull && bound.args.isNull then
    Eval.cons bound.frame env
  else mismatch params args

/-! ## The initial environment -/

/-- Interns the names of the operations from number `id` on; each must get its number as slot. -/
def internNames : Nat → List Operation.Entry → Eval Unit
  | _, [] => pure ()
  | id, entry :: entries => do
    let symbol ← Eval.onMemory (Memory.intern entry.name.toUTF8)
    if symbol.payload.toNat = id then internNames (id + 1) entries
    else Eval.raise (.invalidArgument "create-environment"
      (.misplacedName entry.name symbol.payload.toNat id))

/-- The environment of a machine that has run nothing. -/
def initialEnvironment : Eval Word := do
  internNames 0 Operation.table.toList
  Eval.cons .nil .nil

end BoxedScheme
