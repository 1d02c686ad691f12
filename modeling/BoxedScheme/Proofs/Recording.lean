import BoxedScheme.History
import BoxedScheme.Proofs.HeapRuns

/-!
# Recording

A recorded run is a plain run with snapshots beside it. What the snapshots are to show is said of the plain run alone:
the forms that it attempts, each with the machine that it leaves.

* `attempts limit r m` : the attempts of a run, in order;
* `runForms_attempt`, `runForms_attempts` : the plain run, cut off behind a form, is where that form's attempt left it,
  and behind the last attempt it is over;
* `recording source m` : the snapshots of a run of a text;
* `recordForms_eq` : with room for its snapshots, a recorded run is the plain run;
* `record_faithful` : recording changes nothing.
-/

namespace BoxedScheme

open Machine (stepBudget)

/-! ## Attempts -/

/-- What became of one form of a text. -/
structure Attempt where
  location : Location
  outcome : Except Error Word
  machine : Machine

/-- The forms that a run reads and evaluates, at most `limit` of them. A form that fails is the last one. -/
def attempts : Nat → Reader → Machine → List Attempt
  | 0, _, _ => []
  | limit + 1, r, m =>
    match Session.nextForm r m with
    | .ok none _ => []
    | .ok (some (value, rest)) m => ⟨r.nextLocation, .ok value, m⟩ :: attempts limit rest m
    | .error (.error e) m => [⟨r.nextLocation, .error e, m⟩]
    | .error _ _ => []

/-- How a run ends that is cut off behind an attempt, unless the attempt ends it. -/
def Attempt.cut (a : Attempt) : EStateM.Result Stop Machine Word :=
  match a.outcome with
  | .ok _ => .error .unfinished a.machine
  | .error e => .error (.error e) a.machine

section Attempts

variable {limit : Nat} {r : Reader} {m m' : Machine}

theorem nextForm_apply (r : Reader) (m : Machine) :
    Session.nextForm r m =
      match Eval.readDatum r m with
      | .error e m => .error e m
      | .ok (datum, rest) m =>
        if datum.isEof then .ok none m
        else match eval stepBudget datum m.globalEnv m with
          | .ok value m => .ok (some (value, rest)) m
          | .error e m => .error e m := by
  unfold Session.nextForm
  simp only [bind, EStateM.bind]
  cases Eval.readDatum r m with
  | error e m => rfl
  | ok read m =>
    simp only
    split
    · rfl
    · simp only [Machine.evalGlobal, get, getThe, MonadStateOf.get, bind, EStateM.bind, EStateM.get]
      cases eval stepBudget read.1 m.globalEnv m <;> rfl

/-- A plain run takes the forms in the same way. -/
theorem runForms_succ (limit : Nat) (r : Reader) (last : Word) (m : Machine) :
    runForms (eval stepBudget) (limit + 1) r last m =
      match Session.nextForm r m with
      | .ok none m => .ok last m
      | .ok (some (value, rest)) m => runForms (eval stepBudget) limit rest value m
      | .error e m => .error e m := by
  rw [runForms, nextForm_apply]
  simp only [bind, EStateM.bind]
  cases Eval.readDatum r m with
  | error e m => rfl
  | ok read m =>
    simp only
    split
    · rfl
    · simp only [get, getThe, MonadStateOf.get, EStateM.bind, EStateM.get]
      cases eval stepBudget read.1 m.globalEnv m <;> rfl

/-- A run that is cut off behind an attempted form is where the attempt left it. -/
theorem runForms_attempt {k : Nat} {a : Attempt} (last : Word) (ha : (attempts limit r m)[k]? = some a) :
    runForms (eval stepBudget) (k + 1) r last m = a.cut := by
  induction limit generalizing k r m last with
  | zero => simp [attempts] at ha
  | succ limit ih =>
    rw [runForms_succ]
    rw [attempts] at ha
    split at ha
    case h_1 => simp at ha
    case h_2 value rest m' hnext =>
      rw [hnext]
      cases k with
      | zero =>
        obtain rfl : ⟨r.nextLocation, .ok value, m'⟩ = a := by simpa using ha
        rfl
      | succ k => exact ih value (by simpa using ha)
    case h_3 e m' hnext =>
      obtain ⟨rfl, rfl⟩ : k = 0 ∧ ⟨r.nextLocation, .error e, m'⟩ = a := by cases k <;> simp_all
      rw [hnext]
      rfl
    case h_4 => simp at ha

/-- Behind the last attempt a run is over: more room for forms makes no difference. -/
theorem runForms_attempts (last : Word) (hroom : (attempts limit r m).length < limit) :
    runForms (eval stepBudget) ((attempts limit r m).length + 1) r last m =
      runForms (eval stepBudget) limit r last m := by
  induction limit generalizing r m last with
  | zero => simp at hroom
  | succ limit ih =>
    rw [runForms_succ, runForms_succ]
    rw [attempts] at hroom ⊢
    split
    case h_1 m' hnext => rfl
    case h_2 value rest m' hnext =>
      simp only [hnext, List.length_cons] at hroom ⊢
      exact ih value (Nat.lt_of_succ_lt_succ hroom)
    case h_3 e m' hnext => rfl

/-! ### The number of forms -/

/-- A datum takes at least one token. -/
theorem Reader.length_readTokens {frames : List Reader.Frame} {lexemes rest : List Lexeme} {m m' : Memory} {datum : Word}
    (hread : Reader.readTokens frames lexemes m = ((.ok datum, rest), m')) (heof : ¬ datum.isEof) :
    rest.length < lexemes.length := by
  induction lexemes generalizing frames m with
  | nil =>
    obtain rfl : Word.eof = datum := by simp_all [Reader.readTokens]
    exact absurd rfl heof
  | cons lexeme lexemes ih =>
    rw [Reader.readTokens] at hread
    split at hread
    case h_1 => simp at hread
    case h_2 => simp at hread
    case h_3 d m'' hshift =>
      simp only [Prod.mk.injEq, Except.ok.injEq] at hread
      obtain ⟨⟨rfl, rfl⟩, rfl⟩ := hread
      have hmore : lexeme.token ≠ .endOfFile := by
        intro hend
        -- At the end of the text nothing but the end-of-file word can be done.
        rw [Reader.shift] at hshift
        simp only [hend] at hshift
        split at hshift
        · simp [Reader.fail, pure, EStateM.pure] at hshift
        · cases frames with
          | nil =>
            simp only [Reader.finish, pure, EStateM.pure, EStateM.Result.ok.injEq, Reader.Progress.done.injEq] at hshift
            exact heof (hshift.1 ▸ rfl)
          | cons frame frames => cases frame <;> simp [Reader.finish, Reader.fail, pure, EStateM.pure] at hshift
      rw [Reader.behind, if_neg hmore]
      exact Nat.lt_succ_self _
    case h_4 frames' m'' hshift => exact Nat.lt_succ_of_lt (ih hread)

theorem length_readDatum {datum : Word} {rest : Reader} (hread : Eval.readDatum r m = .ok (datum, rest) m')
    (heof : ¬ datum.isEof) : rest.pending.length < r.pending.length := by
  unfold Eval.readDatum at hread
  split at hread
  case h_1 d rest' memory hr =>
    simp only [EStateM.Result.ok.injEq, Prod.mk.injEq] at hread
    obtain ⟨⟨rfl, rfl⟩, rfl⟩ := hread
    simp only [Reader.read, Prod.mk.injEq] at hr
    obtain ⟨⟨hd, rfl⟩, rfl⟩ := hr
    exact Reader.length_readTokens (Prod.ext (Prod.ext hd rfl) rfl) heof
  case h_2 => simp at hread

/-- A form that is evaluated takes at least one token. -/
theorem length_nextForm {value : Word} {rest : Reader} (hnext : Session.nextForm r m = .ok (some (value, rest)) m') :
    rest.pending.length < r.pending.length := by
  rw [nextForm_apply] at hnext
  split at hnext
  case h_1 => simp at hnext
  case h_2 datum rest' m'' hread =>
    split at hnext
    · simp at hnext
    · rename_i heof
      split at hnext
      · simp only [EStateM.Result.ok.injEq, Option.some.injEq, Prod.mk.injEq] at hnext
        exact hnext.1.2 ▸ length_readDatum hread heof
      · simp at hnext

/-- Where nothing is left, nothing fails. -/
theorem pending_of_nextForm_error {e : Stop} (hnext : Session.nextForm r m = .error e m') : 0 < r.pending.length := by
  refine List.length_pos_iff.2 fun hnil => ?_
  have heof : Word.eof.isEof = true := by decide
  simp [nextForm_apply, Eval.readDatum, Reader.read, hnil, Reader.readTokens, heof] at hnext

/-- The number of tokens bounds the number of forms. -/
theorem length_attempts (hlimit : r.pending.length < limit) : (attempts limit r m).length < limit := by
  induction limit generalizing r m with
  | zero => simp at hlimit
  | succ limit ih =>
    rw [attempts]
    split
    case h_1 => simp
    case h_2 value rest m' hnext =>
      have hshorter := length_nextForm hnext
      simpa using ih (by omega)
    case h_3 e m' hnext =>
      have hpending := pending_of_nextForm_error hnext
      simp only [List.length_singleton]
      omega
    case h_4 => simp

end Attempts

/-! ## Snapshots -/

def Machine.snapshot (m : Machine) (form : Option Nat) (location : Location) (result error : Option String) :
    Snapshot where
  form := form
  location := location
  heap := m.heap
  terminal := m.terminal
  bindings := m.globalBindings
  result := result
  error := error

/-- The snapshot behind an attempt at the form numbered `index`. A value is shown as it is written. -/
def Attempt.snapshot (index : Nat) (a : Attempt) : Snapshot :=
  match a.outcome with
  | .ok value =>
    a.machine.snapshot (some index) a.location
      (if value.isUnspecified then none else some (a.machine.heap.write value)) none
  | .error e => a.machine.snapshot (some index) a.location none (some e.message)

def snapshotsFrom : Nat → List Attempt → List Snapshot
  | _, [] => []
  | index, a :: rest => a.snapshot index :: snapshotsFrom (index + 1) rest

theorem length_snapshotsFrom (index : Nat) (as : List Attempt) : (snapshotsFrom index as).length = as.length := by
  induction as generalizing index with
  | nil => rfl
  | cons a rest ih => simp [snapshotsFrom, ih]

theorem getElem?_snapshotsFrom (index : Nat) (as : List Attempt) (k : Nat) :
    (snapshotsFrom index as)[k]? = as[k]?.map (Attempt.snapshot (index + k)) := by
  induction as generalizing index k with
  | nil => rfl
  | cons a rest ih =>
    cases k with
    | zero => rfl
    | succ k => simp [snapshotsFrom, ih, Nat.add_assoc, Nat.add_comm 1]

def attemptsOf (source : String) (m : Machine) : List Attempt :=
  match Reader.ofSource source with
  | .error _ => []
  | .ok r => attempts (r.pending.length + 1) r m

/-- The snapshots of a run of a text: one of the machine as it is found, then one for each attempt. A text that does
not split into tokens has one snapshot of the error instead. -/
def recording (source : String) (m : Machine) : List Snapshot :=
  m.snapshot none .start none none ::
    match Reader.ofSource source with
    | .error e => [m.snapshot none e.location none (some (Error.read e).message)]
    | .ok _ => snapshotsFrom 0 (attemptsOf source m)

def footprint (snapshots : List Snapshot) : Nat := (snapshots.map Snapshot.size).sum

@[simp] theorem footprint_nil : footprint [] = 0 := rfl

@[simp] theorem footprint_cons (s : Snapshot) (rest : List Snapshot) : footprint (s :: rest) = s.size + footprint rest :=
  List.sum_cons

namespace History

def append (h : History) (snapshots : List Snapshot) : History :=
  { h with snapshots := h.snapshots ++ snapshots.toArray, usage := h.usage + footprint snapshots }

@[simp] theorem append_nil (h : History) : h.append [] = h := by
  simp [append]

theorem append_append (h : History) (xs ys : List Snapshot) : (h.append xs).append ys = h.append (xs ++ ys) := by
  simp [append, footprint, Nat.add_assoc, Array.append_assoc]

@[simp] theorem usage_append (h : History) (xs : List Snapshot) : (h.append xs).usage = h.usage + footprint xs := rfl

@[simp] theorem limit_append (h : History) (xs : List Snapshot) : (h.append xs).limit = h.limit := rfl

theorem push_of_le {h : History} {s : Snapshot} (hroom : h.usage + s.size ≤ h.limit) : h.push s = .ok (h.append [s]) := by
  simp [push, append, Nat.not_lt.2 hroom]

end History

theorem takeSnapshot_of_le {m : Machine} {history : History} {form : Option Nat} {location : Location}
    {result error : Option String}
    (hroom : history.usage + (m.snapshot form location result error).size ≤ history.limit) :
    Session.takeSnapshot ⟨m, history⟩ form location result error =
      (true, ⟨m, history.append [m.snapshot form location result error]⟩) := by
  have hpush := History.push_of_le hroom
  unfold Machine.snapshot at hpush
  unfold Session.takeSnapshot
  dsimp only
  rw [hpush]
  rfl

/-! ## Recorded runs -/

/-- How a run ends, whatever its value. -/
def ending : EStateM.Result Stop Machine Word → Except Stop Unit
  | .ok _ _ => .ok ()
  | .error e _ => .error e

/-- With room for its snapshots, a recorded run is the plain run with the snapshots of its attempts. -/
theorem recordForms_eq (limit index : Nat) (r : Reader) (last : Word) (m : Machine) (history : History)
    (hroom : history.usage + footprint (snapshotsFrom index (attempts limit r m)) ≤ history.limit) :
    Session.recordForms limit index r ⟨m, history⟩ =
      (ending (runForms (eval stepBudget) limit r last m),
        ⟨after (runForms (eval stepBudget) limit r last) m,
          history.append (snapshotsFrom index (attempts limit r m))⟩) := by
  induction limit generalizing index r last m history with
  | zero =>
    rw [attempts, snapshotsFrom, History.append_nil]
    rfl
  | succ limit ih =>
    have hrun := runForms_succ limit r last m
    rw [attempts] at hroom ⊢
    simp only [Session.recordForms, Session.act, after]
    cases hnext : Session.nextForm r m with
    | ok next m' =>
      cases next with
      | none =>
        rw [hnext] at hrun
        simp only [hrun, ending, snapshotsFrom, History.append_nil]
      | some form =>
        obtain ⟨value, rest⟩ := form
        rw [hnext] at hrun
        simp only [hnext, snapshotsFrom, Attempt.snapshot, footprint_cons, ← Nat.add_assoc] at hroom ⊢
        rw [takeSnapshot_of_le (by omega)]
        simp only
        rw [ih (index + 1) rest value m' _ (by simpa using hroom), hrun, History.append_append]
        rfl
    | error e m' =>
      rw [hnext] at hrun
      cases e with
      | error e =>
        simp only [hnext, snapshotsFrom, Attempt.snapshot, footprint_cons, footprint_nil, Nat.add_zero] at hroom ⊢
        rw [takeSnapshot_of_le hroom, hrun]
        rfl
      | unfinished =>
        simp only [hrun, ending, snapshotsFrom, History.append_nil]
      | needsFile path =>
        simp only [hrun, ending, snapshotsFrom, History.append_nil]

/-- With room for its snapshots, recording a text changes nothing: outcome and machine are those of the plain run, and
the history has the snapshots of the run and no others. They show the plain run form by form: cut off behind its
`k`-th form, it is in the machine that the `k`-th snapshot shows, and there are as many as it has forms. -/
theorem record_faithful (source : String) (s : Session)
    (hroom : s.history.usage + footprint (recording source s.machine) ≤ s.history.limit) :
    Session.record source s =
        (ending (Machine.run source s.machine),
          ⟨after (Machine.run source) s.machine, s.history.append (recording source s.machine)⟩) ∧
      ∀ r, Reader.ofSource source = .ok r →
        (recording source s.machine).length = (attemptsOf source s.machine).length + 1 ∧
        (∀ k a, (attemptsOf source s.machine)[k]? = some a →
          (recording source s.machine)[k + 1]? = some (a.snapshot k) ∧
          runForms (eval stepBudget) (k + 1) r .unspecified s.machine = a.cut) ∧
        runForms (eval stepBudget) ((attemptsOf source s.machine).length + 1) r .unspecified s.machine =
          Machine.run source s.machine := by
  obtain ⟨m, history⟩ := s
  simp only [recording, footprint_cons, ← Nat.add_assoc] at hroom ⊢
  refine ⟨?_, fun r hr => ?_⟩
  · rw [Session.record, takeSnapshot_of_le (by omega)]
    cases hr : Reader.ofSource source with
    | error e =>
      have hrun : Machine.run source m = .error (.error (.read e)) m := by
        simp only [Machine.run, runSource, runText, hr]
        rfl
      simp only [hr, footprint_cons, footprint_nil, Nat.add_zero] at hroom ⊢
      rw [takeSnapshot_of_le (by simpa using hroom), History.append_append, after, hrun]
      rfl
    | ok r =>
      have hrun : Machine.run source = runForms (eval stepBudget) (r.pending.length + 1) r .unspecified := by
        simp only [Machine.run, runSource, runText, hr]
      simp only [hr, attemptsOf] at hroom ⊢
      rw [recordForms_eq _ _ _ .unspecified _ _ (by simpa using hroom), History.append_append, hrun]
      rfl
  · have hrun : Machine.run source = runForms (eval stepBudget) (r.pending.length + 1) r .unspecified := by
      simp only [Machine.run, runSource, runText, hr]
    simp only [hr, attemptsOf, List.length_cons, length_snapshotsFrom, List.getElem?_cons_succ, hrun]
    refine ⟨trivial, fun k a ha => ⟨?_, runForms_attempt .unspecified ha⟩,
      runForms_attempts .unspecified (length_attempts (Nat.lt_succ_self _))⟩
    rw [getElem?_snapshotsFrom, ha, Nat.zero_add]
    rfl

/-- A session that knows no names, with room for three snapshots and not for one byte more. -/
def blankSession : Session where
  machine := { toMemory := .fresh 4 4 8, globalEnv := .nil, config := {}, terminal := .capturing, files := {} }
  history := { limit := 593 }

theorem record_faithful_blank :
    ((recording "#t x #f" blankSession.machine).map fun s => (s.form, s.result, s.error)) =
        [(none, none, none), (some 0, some "#t", none), (some 1, none, some "unbound variable: x")] ∧
      blankSession.history.usage + footprint (recording "#t x #f" blankSession.machine) = blankSession.history.limit ∧
      Session.record "#t x #f" blankSession =
        (ending (Machine.run "#t x #f" blankSession.machine),
          ⟨after (Machine.run "#t x #f") blankSession.machine,
            blankSession.history.append (recording "#t x #f" blankSession.machine)⟩) :=
  ⟨by decide +kernel, by decide +kernel, (record_faithful "#t x #f" blankSession (by decide +kernel)).1⟩

end BoxedScheme
