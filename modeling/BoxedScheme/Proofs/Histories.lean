import BoxedScheme.Proofs.Recording
import BoxedScheme.Viewer

/-!
# Histories under recording and browsing

A history grows while a text is recorded, and its position is moved by calls, by keys and by the clock of a viewer, in
any order. The bytes it takes are counted as it grows, and every move has its own test at the ends.

* `History.Kept limit h` : the count is right and within the limit, and the position is that of a snapshot;
* `History.Kept.append`, `History.Kept.moved` : a snapshot more, and another position;
* `History.forwardUpTo_eq` : where several steps forward lead;
* `Viewer.Browses h h'`, `Viewer.browses_press` : all that a key can do to a history;
* `Visit`, `Visit.perform` : a machine with a viewer on its history, and what can happen to them;
* `Visit.kept_performAll` : what every step keeps, and so every run;
* `performAll_history` : histories after any run.
-/

namespace BoxedScheme

namespace History

/-! ## What histories keep -/

/-- A history with the given limit that is as recording and browsing keep it. -/
structure Kept (limit : Nat) (h : History) : Prop where
  limit_eq : h.limit = limit
  usage_eq : h.usage = footprint h.snapshots.toList
  usage_le : h.usage ≤ h.limit
  /-- The position is that of a snapshot, or the first while there is none. -/
  position_le : h.position ≤ h.snapshots.size - 1

variable {limit : Nat} {h h' : History} {s : Snapshot}

theorem Kept.empty (limit : Nat) : Kept limit { limit } := ⟨rfl, rfl, Nat.zero_le _, Nat.le_refl _⟩

theorem Kept.append (hk : h.Kept limit) (hroom : h.usage + s.size ≤ h.limit) : (h.append [s]).Kept limit where
  limit_eq := hk.limit_eq
  usage_eq := by
    have hsum : footprint (h.snapshots.toList ++ [s]) = footprint h.snapshots.toList + s.size := by simp [footprint]
    simp only [History.append, Array.toList_append, hsum, ← hk.usage_eq]
    simp
  usage_le := by simpa using hroom
  position_le := by
    have hle := hk.position_le
    simp only [History.append, Array.size_append, List.size_toArray, List.length_singleton]
    omega

/-- Only the position counts for a move. -/
theorem Kept.moved (hk : h.Kept limit) {position : Nat} (hle : position ≤ h.snapshots.size - 1) :
    Kept limit { h with position } := ⟨hk.limit_eq, hk.usage_eq, hk.usage_le, hle⟩

theorem Kept.position_lt (hk : h.Kept limit) (hsome : 0 < h.snapshots.size) : h.position < h.snapshots.size := by
  have hle := hk.position_le
  omega

/-! ## Snapshots -/

theorem push_of_lt (hfull : h.limit < h.usage + s.size) : h.push s = .error (.overLimit h.usage s.size h.limit) :=
  if_pos hfull

theorem push_eq (h : History) (s : Snapshot) :
    h.push s =
      if h.limit < h.usage + s.size then .error (.overLimit h.usage s.size h.limit) else .ok (h.append [s]) := by
  by_cases hfull : h.limit < h.usage + s.size
  · rw [push_of_lt hfull, if_pos hfull]
  · rw [push_of_le (Nat.le_of_not_lt hfull), if_neg hfull]

/-! ## Moves -/

theorem forward_eq (h : History) :
    h.forward = if h.position + 1 < h.snapshots.size then .ok { h with position := h.position + 1 }
      else .error .atEnd := by
  unfold forward
  by_cases hlt : h.position + 1 < h.snapshots.size
  · rw [if_pos hlt, if_neg (Nat.not_le.2 hlt)]
  · rw [if_neg hlt, if_pos (Nat.le_of_not_lt hlt)]

theorem rewind_eq (h : History) :
    h.rewind = if 0 < h.snapshots.size then .ok { h with position := 0 } else .error .empty := by
  unfold rewind
  by_cases hempty : h.snapshots.size = 0
  · rw [if_pos (Array.isEmpty_iff_size_eq_zero.2 hempty), if_neg (by omega)]
  · rw [if_neg (mt Array.isEmpty_iff_size_eq_zero.1 hempty), if_pos (Nat.pos_of_ne_zero hempty)]

/-- Several steps forward end at the last snapshot, if there are too many. -/
theorem forwardUpTo_eq (n : Nat) (hle : h.position ≤ h.snapshots.size - 1) :
    h.forwardUpTo n = (min (h.position + n) (h.snapshots.size - 1) - h.position,
      { h with position := min (h.position + n) (h.snapshots.size - 1) }) := by
  induction n generalizing h with
  | zero => simp [forwardUpTo, Nat.min_eq_left hle]
  | succ n ih =>
    rw [forwardUpTo, forward_eq]
    by_cases hlt : h.position + 1 < h.snapshots.size
    · rw [if_pos hlt]
      dsimp only
      rw [ih (h := { h with position := h.position + 1 }) (by dsimp only; omega)]
      dsimp only
      rw [show h.position + 1 + n = h.position + (n + 1) by omega]
      congr 1
      omega
    · rw [if_neg hlt]
      have hend : min (h.position + (n + 1)) (h.snapshots.size - 1) = h.position := by omega
      rw [hend, Nat.sub_self]

end History

/-! ## Keys -/

namespace Viewer

/-- All that keys and the clock do to a history: nothing, or one of its moves. -/
inductive Browses (h : History) : History → Prop where
  | stay : Browses h h
  | forward {h' : History} : h.forward = .ok h' → Browses h h'
  | backward {h' : History} : h.backward = .ok h' → Browses h h'
  | rewind {h' : History} : h.rewind = .ok h' → Browses h h'
  | jumpToEnd : Browses h h.jumpToEnd
  | forwardUpTo (n : Nat) : Browses h (h.forwardUpTo n).2

variable {limit : Nat} {h h' : History}

/-- Nothing but the position changes, and it stays among the snapshots. -/
theorem Browses.exists_position (hb : Browses h h') (hle : h.position ≤ h.snapshots.size - 1) :
    ∃ position ≤ h.snapshots.size - 1, h' = { h with position } := by
  cases hb with
  | stay => exact ⟨h.position, hle, rfl⟩
  | forward hmove =>
    rw [History.forward_eq] at hmove
    split_ifs at hmove with hlt
    cases hmove
    exact ⟨h.position + 1, by omega, rfl⟩
  | backward hmove =>
    unfold History.backward at hmove
    split_ifs at hmove
    cases hmove
    exact ⟨h.position - 1, by omega, rfl⟩
  | rewind hmove =>
    rw [History.rewind_eq] at hmove
    split_ifs at hmove
    cases hmove
    exact ⟨0, Nat.zero_le _, rfl⟩
  | jumpToEnd => exact ⟨h.snapshots.size - 1, Nat.le_refl _, rfl⟩
  | forwardUpTo n =>
    rw [History.forwardUpTo_eq n hle]
    exact ⟨_, Nat.min_le_right _ _, rfl⟩

theorem Browses.kept (hb : Browses h h') (hk : h.Kept limit) : h'.Kept limit := by
  obtain ⟨position, hle, rfl⟩ := hb.exists_position hk.position_le
  exact hk.moved hle

theorem Browses.snapshots (hb : Browses h h') (hk : h.Kept limit) : h'.snapshots = h.snapshots := by
  obtain ⟨position, -, rfl⟩ := hb.exists_position hk.position_le
  rfl

theorem history_moved (v : Viewer) (outcome : Except HistoryFault History) (made refused : String) :
    (v.moved outcome made refused).history = outcome.toOption.getD v.history := by
  cases outcome <;> rfl

theorem history_play (v : Viewer) : v.play.history = v.history.forward.toOption.getD v.history := by
  unfold play
  cases v.history.forward <;> rfl

theorem history_scroll (v : Viewer) (d : Scroll.Direction) : (v.scroll d).history = v.history := by
  unfold scroll
  cases v.focus <;> rfl

/-- A move that is refused leaves the history as it is. -/
theorem browses_getD {outcome : Except HistoryFault History} (hmade : ∀ h', outcome = .ok h' → Browses h h') :
    Browses h (outcome.toOption.getD h) := by
  cases outcome with
  | ok h' => exact hmade h' rfl
  | error fault => exact .stay

theorem browses_play (v : Viewer) : Browses v.history v.play.history := by
  rw [history_play]
  exact browses_getD fun _ => .forward

theorem browses_press (v : Viewer) (k : Key) : Browses v.history (v.press k).history := by
  cases k with
  | quit | tab | backTab | other => exact .stay
  | digit n => exact .forwardUpTo n
  | enter => exact .jumpToEnd
  | up =>
    rw [press, history_scroll]
    exact .stay
  | down =>
    rw [press, history_scroll]
    exact .stay
  | left =>
    rw [press, history_moved]
    exact browses_getD fun _ => .backward
  | right =>
    rw [press, history_moved]
    exact browses_getD fun _ => .forward
  | backspace =>
    rw [press, history_moved]
    exact browses_getD fun _ => .rewind
  | space sinceLast =>
    unfold press
    dsimp only
    split_ifs
    · exact .stay
    · exact .stay
    · exact browses_play { v with playing := true }

theorem browses_second (v : Viewer) : Browses v.history v.second.history := by
  unfold second
  split_ifs
  · exact browses_play v
  · exact .stay

end Viewer

/-! ## Recording -/

namespace Session

variable {limit : Nat} {s : Session} {form : Option Nat} {location : Location} {result error : Option String}

theorem takeSnapshot_of_lt
    (hfull : s.history.limit < s.history.usage + (s.machine.snapshot form location result error).size) :
    s.takeSnapshot form location result error = (false, s) := by
  have hpush := History.push_of_lt hfull
  unfold Machine.snapshot at hpush
  unfold takeSnapshot
  dsimp only
  rw [hpush]

/-- A snapshot is taken if it fits; otherwise the session is as before. -/
theorem takeSnapshot_eq (s : Session) (form : Option Nat) (location : Location) (result error : Option String) :
    s.takeSnapshot form location result error =
      if s.history.limit < s.history.usage + (s.machine.snapshot form location result error).size then (false, s)
      else (true, ⟨s.machine, s.history.append [s.machine.snapshot form location result error]⟩) := by
  by_cases hfull : s.history.limit < s.history.usage + (s.machine.snapshot form location result error).size
  · rw [takeSnapshot_of_lt hfull, if_pos hfull]
  · rw [if_neg hfull]
    exact takeSnapshot_of_le (Nat.le_of_not_lt hfull)

theorem kept_takeSnapshot (hk : s.history.Kept limit) :
    (s.takeSnapshot form location result error).2.history.Kept limit := by
  rw [takeSnapshot_eq]
  by_cases hfull : s.history.limit < s.history.usage + (s.machine.snapshot form location result error).size
  · rw [if_pos hfull]
    exact hk
  · rw [if_neg hfull]
    exact hk.append (Nat.le_of_not_lt hfull)

theorem kept_of_takeSnapshot {s' : Session} {taken : Bool} (hk : s.history.Kept limit)
    (htaken : s.takeSnapshot form location result error = (taken, s')) : s'.history.Kept limit := by
  have hlast : s' = (s.takeSnapshot form location result error).2 := by rw [htaken]
  exact hlast ▸ kept_takeSnapshot hk

theorem history_act {α : Type} (s : Session) (action : Eval α) : (s.act action).2.history = s.history := by
  unfold act
  cases action s.machine <;> rfl

/-- The induction is on the forms: each of them leaves the history to the snapshot behind it. -/
theorem kept_recordForms (forms index : Nat) (r : Reader) (hk : s.history.Kept limit) :
    (recordForms forms index r s).2.history.Kept limit := by
  induction forms generalizing index r s with
  | zero => exact hk
  | succ forms ih =>
    have hact := history_act s (nextForm r)
    rw [recordForms]
    dsimp only
    split
    case h_1 s' hnext =>
      rw [hnext] at hact
      exact hact.symm ▸ hk
    case h_2 value rest s' hnext =>
      rw [hnext] at hact
      have hk' : s'.history.Kept limit := hact.symm ▸ hk
      split
      case h_1 s'' htaken => exact ih (index + 1) rest (kept_of_takeSnapshot hk' htaken)
      case h_2 s'' htaken => exact kept_of_takeSnapshot hk' htaken
    case h_3 e s' hnext =>
      rw [hnext] at hact
      exact kept_takeSnapshot (hact.symm ▸ hk)
    case h_4 stop s' _ hnext =>
      rw [hnext] at hact
      exact hact.symm ▸ hk

theorem kept_record (source : String) (hk : s.history.Kept limit) : (record source s).2.history.Kept limit := by
  unfold record
  dsimp only
  split
  · exact kept_recordForms _ _ _ (kept_takeSnapshot hk)
  · exact kept_takeSnapshot (kept_takeSnapshot hk)

end Session

/-! ## Visits -/

/-- A machine, and a viewer on the history that is recorded on it. -/
structure Visit where
  machine : Machine
  viewer : Viewer

namespace Visit

/-- What can happen to a visit: recording a text, the moves of a session, a key, a second that passes while playing or
not, a drawing, and another viewer for the same history. -/
inductive Action where
  | record (source : String)
  | forward
  | backward
  | rewind
  | jumpToEnd
  | press (key : Key)
  | second
  | draw (l : Layout)
  | reopen (source : String)

def history (v : Visit) : History := v.viewer.history

def session (v : Visit) : Session := ⟨v.machine, v.history⟩

def withSession (v : Visit) (s : Session) : Visit := ⟨s.machine, { v.viewer with history := s.history }⟩

def start (s : Session) (source : String) : Visit := ⟨s.machine, .ofHistory s.history source⟩

def navigate (move : History → Except HistoryFault History) (v : Visit) : Except HistoryFault Unit × Visit :=
  match move v.history with
  | .ok history => (.ok (), v.withSession ⟨v.machine, history⟩)
  | .error fault => (.error fault, v)

def perform (v : Visit) : Action → Visit
  | .record source => v.withSession (v.session.record source).2
  | .forward => (v.navigate History.forward).2
  | .backward => (v.navigate History.backward).2
  | .rewind => (v.navigate History.rewind).2
  | .jumpToEnd => v.withSession ⟨v.machine, v.history.jumpToEnd⟩
  | .press key => { v with viewer := v.viewer.press key }
  | .second => { v with viewer := v.viewer.second }
  | .draw l => { v with viewer := v.viewer.settle l }
  | .reopen source => .start v.session source

def performAll (actions : List Action) (v : Visit) : Visit := actions.foldl perform v

variable {limit : Nat} {v : Visit}

theorem history_navigate (move : History → Except HistoryFault History) (v : Visit) :
    (v.navigate move).2.history = (move v.history).toOption.getD v.history := by
  unfold navigate
  cases move v.history <;> rfl

theorem kept_perform (hk : v.history.Kept limit) (a : Action) : (v.perform a).history.Kept limit := by
  cases a with
  | record source => exact Session.kept_record source hk
  | forward =>
    rw [perform, history_navigate]
    exact (Viewer.browses_getD fun _ => .forward).kept hk
  | backward =>
    rw [perform, history_navigate]
    exact (Viewer.browses_getD fun _ => .backward).kept hk
  | rewind =>
    rw [perform, history_navigate]
    exact (Viewer.browses_getD fun _ => .rewind).kept hk
  | jumpToEnd => exact Viewer.Browses.jumpToEnd.kept hk
  | press key => exact (v.viewer.browses_press key).kept hk
  | second => exact v.viewer.browses_second.kept hk
  | draw l => exact hk
  | reopen source => exact hk

theorem kept_performAll (hk : v.history.Kept limit) (actions : List Action) :
    (performAll actions v).history.Kept limit := by
  induction actions generalizing v with
  | nil => exact hk
  | cons a actions ih => exact ih (kept_perform hk a)

def moveTo (v : Visit) (position : Nat) : Visit := v.withSession ⟨v.machine, { v.history with position }⟩

/-- What holds of the history of a visit, and what the next step makes of it. -/
structure Regular (limit : Nat) (v : Visit) : Prop where
  usage_eq : v.history.usage = (v.history.snapshots.toList.map Snapshot.size).sum
  usage_le : v.history.usage ≤ limit
  /-- A snapshot is refused if and only if it would exceed the limit. -/
  push : ∀ s : Snapshot, (∃ fault, v.history.push s = .error fault) ↔ limit < v.history.usage + s.size
  /-- A session whose snapshot is refused is as before; otherwise it has one snapshot more. -/
  takeSnapshot : ∀ form location result error,
    v.session.takeSnapshot form location result error =
      if limit < v.history.usage + (v.machine.snapshot form location result error).size then (false, v.session)
      else (true, ⟨v.machine, v.history.append [v.machine.snapshot form location result error]⟩)
  position : v.history.position < v.history.snapshots.size ∨ v.history.snapshots.size = 0 ∧ v.history.position = 0
  current : 0 < v.history.snapshots.size → ∃ s, v.history.current? = some s
  /-- A refused move leaves everything as it is. -/
  forward : v.navigate History.forward =
    if v.history.position + 1 < v.history.snapshots.size then (.ok (), v.moveTo (v.history.position + 1))
    else (.error .atEnd, v)
  backward : v.navigate History.backward =
    if v.history.position = 0 then (.error .atBeginning, v) else (.ok (), v.moveTo (v.history.position - 1))
  rewind : v.navigate History.rewind =
    if v.history.snapshots.size = 0 then (.error .empty, v) else (.ok (), v.moveTo 0)
  jumpToEnd : v.perform .jumpToEnd = v.moveTo (v.history.snapshots.size - 1)
  /-- A key makes the move of the session, and is refused with it. -/
  left : (v.perform (.press .left)).history = (v.perform .backward).history
  right : (v.perform (.press .right)).history = (v.perform .forward).history
  backspace : (v.perform (.press .backspace)).history = (v.perform .rewind).history
  enter : (v.perform (.press .enter)).history = (v.perform .jumpToEnd).history
  digit : ∀ n, (v.perform (.press (.digit n))).history =
    (v.moveTo (min (v.history.position + n) (v.history.snapshots.size - 1))).history
  /-- No key touches the snapshots. -/
  keys : ∀ key, (v.perform (.press key)).history.snapshots = v.history.snapshots
  second : (v.perform .second).history = v.history ∨ (v.perform .second).history = (v.perform .forward).history

theorem regular_of_kept (hk : v.history.Kept limit) : v.Regular limit where
  usage_eq := hk.usage_eq
  usage_le := hk.limit_eq ▸ hk.usage_le
  push s := by
    rw [History.push_eq, hk.limit_eq]
    by_cases hfull : limit < v.history.usage + s.size
    · simp [hfull]
    · simp [hfull]
  takeSnapshot form location result error := by
    rw [Session.takeSnapshot_eq, show v.session.history.limit = limit from hk.limit_eq]
    rfl
  position := by
    have hle := hk.position_le
    omega
  current hsome := ⟨_, Array.getElem?_eq_getElem (hk.position_lt hsome)⟩
  forward := by
    rw [navigate, History.forward_eq]
    split_ifs <;> rfl
  backward := by
    rw [navigate, History.backward]
    split_ifs <;> rfl
  rewind := by
    rw [navigate, History.rewind_eq]
    by_cases hempty : v.history.snapshots.size = 0
    · rw [if_neg (by omega), if_pos hempty]
    · rw [if_pos (Nat.pos_of_ne_zero hempty), if_neg hempty]
      rfl
  jumpToEnd := rfl
  left := (Viewer.history_moved ..).trans (history_navigate ..).symm
  right := (Viewer.history_moved ..).trans (history_navigate ..).symm
  backspace := (Viewer.history_moved ..).trans (history_navigate ..).symm
  enter := rfl
  digit n := by
    show (v.history.forwardUpTo n).2 = _
    rw [History.forwardUpTo_eq n hk.position_le]
    rfl
  keys key := (v.viewer.browses_press key).snapshots hk
  second := by
    show v.viewer.second.history = _ ∨ v.viewer.second.history = _
    rw [perform, history_navigate]
    unfold Viewer.second
    split_ifs
    · exact .inr (Viewer.history_play v.viewer)
    · exact .inl rfl

end Visit

theorem kept_create {config : Config} {terminal : Terminal} {files : Files} {s : Session}
    (hs : Session.create config terminal files = .ok s) : s.history.Kept config.historyLimit := by
  unfold Session.create at hs
  cases hm : Machine.create config terminal files with
  | error e =>
    rw [hm] at hs
    cases hs
  | ok m =>
    rw [hm] at hs
    cases hs
    exact .empty _

/-- Whatever is recorded and however the history is browsed meanwhile, by moves, by keys and by the clock: its count of
bytes is that of its snapshots and within the limit, a snapshot is refused exactly if it would exceed the limit and
changes nothing then, the position is that of a snapshot whenever there is one, a refused move leaves it alone, and a
digit moves on by that many snapshots or to the last. -/
theorem performAll_history {config : Config} {terminal : Terminal} {files : Files} {s : Session}
    (hs : Session.create config terminal files = .ok s) (source : String) (actions : List Visit.Action) :
    (Visit.performAll actions (.start s source)).Regular config.historyLimit :=
  Visit.regular_of_kept (Visit.kept_performAll (v := .start s source) (kept_create hs) actions)

/-- Room for two snapshots of a small machine, and not for three. -/
def twoSnapshots : Config where
  cells := 8
  strings := 64
  roots := 8
  collectEvery := 0
  lowWater := 0
  historyLimit := 7000

/-- Of a text with three forms the first is recorded; the position is moved to it and one step back. -/
def shortVisit : List Visit.Action := [.press (.digit 3), .record "#t #f #t", .press (.digit 9), .press .left]

/-- The bytes of a history, its snapshots and its position, and the bytes that one snapshot more would take. -/
def Visit.figures (v : Visit) : Nat × Nat × Nat × Nat :=
  (v.history.usage, v.history.snapshots.size, v.history.position, (v.machine.snapshot none .start none none).size)

def figuresAfter (actions : List Visit.Action) : Option (Nat × Nat × Nat × Nat) :=
  (Session.create twoSnapshots .capturing {}).toOption.map fun s => (Visit.performAll actions (.start s "")).figures

/-- Two snapshots are there and the position is the first of them: a step back and a third snapshot are refused, and
nine steps forward lead to the second. -/
theorem performAll_history_short :
    ∃ s v, Session.create twoSnapshots .capturing {} = .ok s ∧ v = Visit.performAll shortVisit (.start s "") ∧
      v.figures = (6266, 2, 0, 3133) ∧
      v.navigate History.backward = (.error .atBeginning, v) ∧
      v.session.takeSnapshot none .start none none = (false, v.session) ∧
      (v.perform (.press (.digit 9))).history.position = 1 := by
  have hfigures : figuresAfter shortVisit = some (6266, 2, 0, 3133) := by decide +kernel
  unfold figuresAfter at hfigures
  cases hs : Session.create twoSnapshots .capturing {} with
  | error e =>
    rw [hs] at hfigures
    cases hfigures
  | ok s =>
    rw [hs] at hfigures
    have hregular := performAll_history hs "" shortVisit
    generalize hv : Visit.performAll shortVisit (.start s "") = v at hregular
    replace hfigures : v.figures = (6266, 2, 0, 3133) := hv ▸ Option.some_inj.1 hfigures
    have hparts := hfigures
    simp only [Visit.figures, Prod.mk.injEq] at hparts
    obtain ⟨husage, hsize, hposition, hnext⟩ := hparts
    refine ⟨s, v, rfl, hv.symm, hfigures, ?_, ?_, ?_⟩
    · rw [hregular.backward, if_pos hposition]
    · rw [hregular.takeSnapshot, if_pos]
      rw [husage, hnext]
      decide
    · rw [hregular.digit]
      show min (v.history.position + 9) (v.history.snapshots.size - 1) = 1
      rw [hposition, hsize]
      rfl

end BoxedScheme
