import BoxedScheme.Session

/-!
# History

A snapshot holds everything there is to see of a machine after a top-level form: heap, terminal and global
bindings. A history is the snapshots of a run, as many as a byte budget allows, and a position among them.

* `History.push`: one snapshot more, unless it would exceed the budget.
* `History.forward`, `History.forwardUpTo`, `History.backward`, `History.rewind`, `History.jumpToEnd`:
  moves.
* `Session.record`: runs a text form by form and takes a snapshot before the first form and after each.
-/

namespace BoxedScheme

structure Snapshot where
  /-- The number of the form just evaluated; nothing before the first. -/
  form : Option Nat
  location : Location
  heap : Heap
  terminal : Terminal
  bindings : List Binding
  result : Option String
  error : Option String

/-- An estimate of the bytes a snapshot takes: fixed amounts for each cell, string slot, stored string and
binding, and the bytes of all texts. -/
def Snapshot.size (s : Snapshot) : Nat :=
  let stored := s.heap.strings.liveItems.foldl (fun n (_, bytes) => n + (bytes.size + 16)) 0
  let bound := s.bindings.foldl (fun n b => n + (b.name.utf8ByteSize + b.value.utf8ByteSize + 48)) 0
  s.heap.cells.capacity * 24 + (stored + s.heap.strings.capacity * 24) + bound
    + s.terminal.text.utf8ByteSize

structure History where
  snapshots : Array Snapshot := #[]
  /-- Bytes that the snapshots take. -/
  usage : Nat := 0
  limit : Nat
  position : Nat := 0

/-- Why a history refuses. -/
inductive HistoryFault where
  | overLimit (usage size limit : Nat)
  | atBeginning
  | atEnd
  | empty
deriving DecidableEq

def HistoryFault.message : HistoryFault → String
  | .overLimit usage size limit => s!"Snapshot memory limit exceeded: {usage} + {size} > {limit}"
  | .atBeginning => "Already at the beginning of execution"
  | .atEnd => "No more snapshots available (execution finished)"
  | .empty => "No snapshots available"

namespace History

def push (h : History) (s : Snapshot) : Except HistoryFault History :=
  let size := s.size
  if h.limit < h.usage + size then .error (.overLimit h.usage size h.limit)
  else .ok { h with snapshots := h.snapshots.push s, usage := h.usage + size }

def backward (h : History) : Except HistoryFault History :=
  if h.position = 0 then .error .atBeginning else .ok { h with position := h.position - 1 }

def forward (h : History) : Except HistoryFault History :=
  if h.snapshots.size ≤ h.position + 1 then .error .atEnd
  else .ok { h with position := h.position + 1 }

/-- Moves forward `n` times or as often as possible, and says how often. -/
def forwardUpTo : Nat → History → Nat × History
  | 0, h => (0, h)
  | n + 1, h =>
    match h.forward with
    | .ok h =>
      let (made, h) := forwardUpTo n h
      (made + 1, h)
    | .error _ => (0, h)

def rewind (h : History) : Except HistoryFault History :=
  if h.snapshots.isEmpty then .error .empty else .ok { h with position := 0 }

def jumpToEnd (h : History) : History := { h with position := h.snapshots.size - 1 }

/-- The snapshot at the position. -/
def current? (h : History) : Option Snapshot := h.snapshots[h.position]?

end History

/-- A machine and the history recorded on it. -/
structure Session where
  machine : Machine
  history : History

namespace Session

def create (config : Config) (terminal : Terminal) (files : Files) : Except Stop Session :=
  (Machine.create config terminal files).map fun machine =>
    { machine, history := { limit := config.historyLimit } }

/-- Runs an action on the machine. -/
def act {α : Type} (s : Session) (action : Eval α) : Except Stop α × Session :=
  match action s.machine with
  | .ok a machine => (.ok a, { s with machine })
  | .error e machine => (.error e, { s with machine })

/-- Takes a snapshot; false if the budget does not allow it. -/
def takeSnapshot (s : Session) (form : Option Nat) (location : Location)
    (result error : Option String) : Bool × Session :=
  let snapshot : Snapshot :=
    { form, location, result, error
      heap := s.machine.heap
      terminal := s.machine.terminal
      bindings := s.machine.globalBindings }
  match s.history.push snapshot with
  | .ok history => (true, { s with history })
  | .error _ => (false, s)

/-- Reads and evaluates the next form; nothing at the end of the text. -/
def nextForm (r : Reader) : Eval (Option (Word × Reader)) := do
  let (datum, r) ← Eval.readDatum r
  if datum.isEof then return none else return some (← Machine.evalGlobal datum, r)

/-- Runs forms from number `index` on, at most `limit` of them, with a snapshot after each. The first error
ends the run, and so does the end of the budget. -/
def recordForms : Nat → Nat → Reader → Session → Except Stop Unit × Session
  | 0, _, _, s => (.error .unfinished, s)
  | limit + 1, index, r, s =>
    let location := r.nextLocation
    match s.act (nextForm r) with
    | (.ok none, s) => (.ok (), s)
    | (.ok (some (value, r)), s) =>
      let result := if value.isUnspecified then none else some (s.machine.heap.write value)
      match s.takeSnapshot (some index) location result none with
      | (true, s) => recordForms limit (index + 1) r s
      | (false, s) => (.ok (), s)
    | (.error (.error e), s) =>
      (.error (.error e), (s.takeSnapshot (some index) location none (some e.message)).2)
    | (.error stop, s) => (.error stop, s)

/-- Runs a text with a snapshot before the first form and after each. -/
def record (source : String) (s : Session) : Except Stop Unit × Session :=
  let s := (s.takeSnapshot none .start none none).2
  match Reader.ofSource source with
  | .ok r => recordForms (r.pending.length + 1) 0 r s
  | .error e =>
    let error := Error.read e
    (.error (.error error), (s.takeSnapshot none e.location none (some error.message)).2)

end Session

end BoxedScheme
