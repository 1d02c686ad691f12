import Mathlib.Data.Fintype.Pigeonhole
import BoxedScheme.Proofs.Binding

/-!
# Applying `apply`

When `apply` is applied to a procedure and a list, that procedure is applied to the list, and it may be `apply` again.
The chain of these applications is read off the heap alone, and nothing in it changes the heap. Each of them but the
last takes a list that starts in another cell than those before it, or the chain comes back to an application that it
has seen: it ends after at most as many steps as there are cells, or never.

* `Heap.reapplied? h a` : the application that `a` leads to, if it applies `apply` to suitable arguments;
* `Lands ev m a r` : `a` ends in `r` without another application;
* `applyValues_eq` : limits matter to chains that are longer only;
* `Heap.reapplications_cases` : a chain ends within the number of cells, or comes back;
* `applyValues_lands_or_returns` : what applying values comes to.
-/

namespace BoxedScheme

structure Application where
  operator : Word
  args : Word
deriving DecidableEq

/-! ## One application -/

/-- The application that `apply` makes of its arguments: the first is applied to the second, a proper list. -/
def Heap.reapplied? (h : Heap) (a : Application) : Option Application :=
  match a.operator.kind with
  | .procedure id =>
    match Operation.entry? id with
    | some ⟨.primitive .apply, name, arity⟩ =>
      match h.listItems a.args name with
      | .ok argv =>
        match h.listTail (argv.getD 1 .unspecified) with
        | .ok tail =>
          if arity.accepts argv.size && tail.isNull then
            some ⟨argv.getD 0 .unspecified, argv.getD 1 .unspecified⟩
          else none
        | .error _ => none
      | .error _ => none
    | _ => none
  | _ => none

def Application.IsBuiltin (a : Application) (p : Primitive) (name : String) (arity : Arity) : Prop :=
  ∃ id, a.operator.kind = .procedure id ∧ Operation.entry? id = some ⟨.primitive p, name, arity⟩

/-- Without another application there is an error that leaves the machine as it is, the call of a built-in procedure, or
the entry into a closure. -/
inductive Lands (ev : Evaluator) (m : Machine) (a : Application) : EStateM.Result Stop Machine Step → Prop where
  | notCallable : (∀ p name arity, ¬ a.IsBuiltin p name arity) → (∀ i, a.operator.kind ≠ .closure i) →
    Lands ev m a (.error (.error (.notCallable (m.heap.write a.operator))) m)
  | improper {p : Primitive} {name : String} {arity : Arity} {e : Fault} :
    a.IsBuiltin p name arity → m.heap.listItems a.args name = .error e → Lands ev m a (.error (.error (.ofFault e)) m)
  | miscounted {p : Primitive} {name : String} {arity : Arity} {argv : Array Word} :
    a.IsBuiltin p name arity → m.heap.listItems a.args name = .ok argv → ¬ arity.accepts argv.size →
    Lands ev m a (.error (.error (.arityMismatch name arity argv.size)) m)
  | unspread {name : String} {arity : Arity} {argv : Array Word} {e : Error} :
    a.IsBuiltin .apply name arity → m.heap.listItems a.args name = .ok argv → arity.accepts argv.size →
    spreadArguments (argv.getD 1 .unspecified) m = .error (.error e) m → Lands ev m a (.error (.error e) m)
  | call {p : Primitive} {name : String} {arity : Arity} {argv : Array Word} :
    a.IsBuiltin p name arity → p ≠ .apply → p ≠ .load → m.heap.listItems a.args name = .ok argv →
    arity.accepts argv.size → Lands ev m a ((Step.done <$> p.call name argv) m)
  | load {name : String} {arity : Arity} {argv : Array Word} :
    a.IsBuiltin .load name arity → m.heap.listItems a.args name = .ok argv → arity.accepts argv.size →
    Lands ev m a ((Step.done <$> load ev name (argv.getD 0 .unspecified)) m)
  | closure {i : UInt32} : a.operator.kind = .closure i → Lands ev m a (enterClosure ev a.operator a.args m)

section One

variable {ev : Evaluator} {m : Machine} {a b : Application} {h : Heap}

theorem spreadArguments_cases (m : Machine) (list : Word) :
    (∃ tail, m.heap.listTail list = .ok tail ∧ tail.isNull ∧ spreadArguments list m = .ok list m) ∨
    ((∀ tail, m.heap.listTail list = .ok tail → ¬ tail.isNull) ∧
      ∃ e, spreadArguments list m = .error (.error e) m) := by
  unfold spreadArguments
  cases htail : m.heap.listTail list with
  | error e => exact .inr ⟨nofun, _, bind_of_error (inspect_of_error htail)⟩
  | ok tail =>
    rw [bind_of_ok (inspect_of_ok htail)]
    by_cases hnull : tail.isNull
    · rw [if_pos hnull]
      exact .inl ⟨tail, rfl, hnull, rfl⟩
    · rw [if_neg hnull]
      refine .inr ⟨?_, _, rfl⟩
      rintro _ ⟨⟩
      exact hnull

/-- What follows for an application: another one, or its end. -/
def StepsOrLands (ev : Evaluator) (m : Machine) (a : Application) : Prop :=
  (∃ b, m.heap.reapplied? a = some b ∧
    ∀ again, applyWith ev again a.operator a.args m = again b.operator b.args m) ∨
  (m.heap.reapplied? a = none ∧ ∃ r, Lands ev m a r ∧ ∀ again, applyWith ev again a.operator a.args m = r)

theorem stepsOrLands_apply {name : String} {arity : Arity} (hbuiltin : a.IsBuiltin .apply name arity) :
    StepsOrLands ev m a := by
  obtain ⟨id, hkind, hentry⟩ := hbuiltin
  unfold StepsOrLands applyWith Heap.reapplied?
  simp only [hkind, hentry]
  cases hitems : m.heap.listItems a.args name with
  | error e =>
    exact .inr ⟨rfl, _, .improper ⟨id, hkind, hentry⟩ hitems, fun again => bind_of_error (inspect_of_error hitems)⟩
  | ok argv =>
    have hargv : Eval.inspect (·.listItems a.args name) m = .ok argv m := inspect_of_ok hitems
    dsimp only
    by_cases hcount : arity.accepts argv.size
    · rcases spreadArguments_cases m (argv.getD 1 .unspecified) with ⟨tail, htail, hnull, hspread⟩ | ⟨hnot, e, hspread⟩
      · refine .inl ⟨⟨argv.getD 0 .unspecified, argv.getD 1 .unspecified⟩, ?_, fun again => ?_⟩
        · rw [htail]
          exact if_pos (by rw [hcount, hnull]; rfl)
        · rw [bind_of_ok hargv, if_neg (by simp [hcount]), bind_of_ok hspread]
      · refine .inr ⟨?_, _, .unspread ⟨id, hkind, hentry⟩ hitems hcount hspread, fun again => ?_⟩
        · cases htail : m.heap.listTail (argv.getD 1 .unspecified) with
          | error e => rfl
          | ok tail => exact if_neg (by simp [hnot tail htail])
        · rw [bind_of_ok hargv, if_neg (by simp [hcount]), bind_of_error hspread]
    · refine .inr ⟨?_, _, .miscounted ⟨id, hkind, hentry⟩ hitems hcount, fun again => ?_⟩
      · cases m.heap.listTail (argv.getD 1 .unspecified) with
        | error e => rfl
        | ok tail => exact if_neg (by simp [hcount])
      · rw [bind_of_ok hargv, if_pos (by simp [hcount])]
        rfl

theorem stepsOrLands_primitive {p : Primitive} {name : String} {arity : Arity} (hbuiltin : a.IsBuiltin p name arity)
    (hp : p ≠ .apply) : StepsOrLands ev m a := by
  obtain ⟨id, hkind, hentry⟩ := hbuiltin
  have hnone : m.heap.reapplied? a = none := by
    unfold Heap.reapplied?
    simp only [hkind, hentry]
    split
    · simp_all
    · rfl
  refine .inr ⟨hnone, ?_⟩
  unfold applyWith
  simp only [hkind, hentry]
  cases hitems : m.heap.listItems a.args name with
  | error e =>
    exact ⟨_, .improper ⟨id, hkind, hentry⟩ hitems, fun again => bind_of_error (inspect_of_error hitems)⟩
  | ok argv =>
    have hargv : Eval.inspect (·.listItems a.args name) m = .ok argv m := inspect_of_ok hitems
    by_cases hcount : arity.accepts argv.size
    · by_cases hload : p = .load
      · subst hload
        refine ⟨_, .load ⟨id, hkind, hentry⟩ hitems hcount, fun again => ?_⟩
        rw [bind_of_ok hargv, if_neg (by simp [hcount])]
        rfl
      · refine ⟨_, .call ⟨id, hkind, hentry⟩ hp hload hitems hcount, fun again => ?_⟩
        rw [bind_of_ok hargv, if_neg (by simp [hcount])]
        split
        · exact absurd rfl hp
        · exact absurd rfl hload
        · rfl
    · refine ⟨_, .miscounted ⟨id, hkind, hentry⟩ hitems hcount, fun again => ?_⟩
      rw [bind_of_ok hargv, if_pos (by simp [hcount])]
      rfl

/-- Words other than built-in procedures and closures cannot be applied, names of special forms among them. -/
theorem stepsOrLands_notCallable (hbuiltin : ∀ p name arity, ¬ a.IsBuiltin p name arity)
    (hclosure : ∀ i, a.operator.kind ≠ .closure i) : StepsOrLands ev m a := by
  have hentry : ∀ id, a.operator.kind = .procedure id → ∀ p name arity,
      Operation.entry? id ≠ some ⟨.primitive p, name, arity⟩ :=
    fun id hkind p name arity hentry => hbuiltin p name arity ⟨id, hkind, hentry⟩
  refine .inr ⟨?_, _, .notCallable hbuiltin hclosure, fun again => ?_⟩
  · unfold Heap.reapplied?
    split
    · split
      · exact absurd ‹_› (hentry _ ‹_› _ _ _)
      · rfl
    · rfl
  · have hrefused : applyWith ev again a.operator a.args = notCallable a.operator := by
      unfold applyWith
      split
      · split
        · exact absurd ‹_› (hentry _ ‹_› _ _ _)
        · rfl
      · exact absurd ‹_› (hclosure _)
      · rfl
    rw [hrefused]
    rfl

/-- An application leads to another, or lands. -/
theorem stepsOrLands (ev : Evaluator) (m : Machine) (a : Application) : StepsOrLands ev m a := by
  by_cases hbuiltin : ∃ p name arity, a.IsBuiltin p name arity
  · obtain ⟨p, name, arity, hbuiltin⟩ := hbuiltin
    by_cases hp : p = .apply
    · exact stepsOrLands_apply (hp ▸ hbuiltin)
    · exact stepsOrLands_primitive hbuiltin hp
  · by_cases hclosure : ∃ i, a.operator.kind = .closure i
    · obtain ⟨i, hkind⟩ := hclosure
      exact .inr ⟨by simp [Heap.reapplied?, hkind], _, .closure hkind, fun _ => by simp [applyWith, hkind]⟩
    · exact stepsOrLands_notCallable (fun p name arity h => hbuiltin ⟨p, name, arity, h⟩) fun i h => hclosure ⟨i, h⟩

end One

/-! ## The list of an application -/

section Lists

variable {h : Heap} {a a' b b' : Application} {v w : Word}

theorem entry?_apply {id : UInt32} {name : String} {arity : Arity}
    (hentry : Operation.entry? id = some ⟨.primitive .apply, name, arity⟩) : arity = .exact 2 := by
  have hall : ∀ e ∈ Operation.table, e.operation = .primitive .apply → e.arity = .exact 2 := by decide
  exact hall _ (Array.mem_of_getElem? hentry) rfl

/-- The walk along a list starts with the cell, whatever word refers to it. -/
theorem Heap.spine_congr (hv : v.isPair) (hw : w.isPair) (heq : v.payload = w.payload) : h.spine v = h.spine w := by
  unfold Heap.spine
  cases h.cells.capacity with
  | zero => simp [Heap.follow, hv, hw]
  | succ limit => simp [Heap.follow, hv, hw, heq]

theorem Heap.listItems_eq_ok {operation : String} {argv : Array Word} (hitems : h.listItems w operation = .ok argv) :
    ∃ s, h.spine w = some s ∧ s.tail.isNull ∧ argv = s.items := by
  unfold Heap.listItems at hitems
  cases hs : h.spine w with
  | none =>
    rw [hs] at hitems
    cases hitems
  | some s =>
    simp only [hs] at hitems
    by_cases hnull : s.tail.isNull
    · rw [if_pos hnull] at hitems
      cases hitems
      exact ⟨s, rfl, hnull, rfl⟩
    · rw [if_neg hnull] at hitems
      cases hitems

/-- A word outside the pool is no proper list. -/
theorem Heap.lt_capacity_of_spine {s : Heap.Spine} (hw : w.isPair) (hs : h.spine w = some s) (hnull : s.tail.isNull) :
    w.payload.toNat < h.cells.capacity := by
  by_contra hout
  obtain ⟨rest, -, hrest⟩ := (Heap.spine_lists hs).of_isPair hw
  rw [Pool.read_of_not_lt hout] at hrest
  obtain ⟨-, htail⟩ := hrest.of_not_isPair (by decide)
  rw [htail] at hnull
  exact absurd hnull (by decide)

/-- What `apply` applies are the first two items of its list. -/
theorem Heap.reapplied?_eq_some (hb : h.reapplied? a = some b) :
    ∃ s, h.spine a.args = some s ∧ s.tail.isNull ∧ s.items.size = 2 ∧
      b = ⟨s.items.getD 0 .unspecified, s.items.getD 1 .unspecified⟩ := by
  unfold Heap.reapplied? at hb
  split at hb
  next id hkind =>
    split at hb
    next name arity hentry =>
      split at hb
      next argv hitems =>
        split at hb
        next tail htail =>
          split at hb
          next haccepts =>
            obtain ⟨s, hs, hnull, rfl⟩ := Heap.listItems_eq_ok hitems
            rw [Bool.and_eq_true, entry?_apply hentry] at haccepts
            cases hb
            exact ⟨s, hs, hnull, by simpa [Arity.accepts] using haccepts.1, rfl⟩
          next => cases hb
        next => cases hb
      next => cases hb
    next => cases hb
  next => cases hb

theorem Heap.isPair_of_reapplied? (hb : h.reapplied? a = some b) :
    a.args.isPair ∧ a.args.payload.toNat < h.cells.capacity := by
  obtain ⟨s, hs, hnull, hsize, -⟩ := Heap.reapplied?_eq_some hb
  have hpair : a.args.isPair := by
    by_contra hnot
    obtain ⟨hnil, -⟩ := (Heap.spine_lists hs).of_not_isPair hnot
    rw [← Array.length_toList, hnil] at hsize
    cases hsize
  exact ⟨hpair, Heap.lt_capacity_of_spine hpair hs hnull⟩

/-- The cell of the list determines what follows. -/
theorem Heap.reapplied?_congr (hb : h.reapplied? a = some b) (hb' : h.reapplied? a' = some b')
    (heq : a.args.payload = a'.args.payload) : b = b' := by
  obtain ⟨s, hs, -, -, rfl⟩ := Heap.reapplied?_eq_some hb
  obtain ⟨s', hs', -, -, rfl⟩ := Heap.reapplied?_eq_some hb'
  rw [Heap.spine_congr (Heap.isPair_of_reapplied? hb).1 (Heap.isPair_of_reapplied? hb').1 heq, hs'] at hs
  cases hs
  rfl

end Lists

/-! ## Chains of applications -/

section Chains

variable {h : Heap} {ev : Evaluator} {m : Machine} {a b c : Application} {n k : Nat}

/-- The application that so many steps through `apply` lead to. -/
def Heap.reapplications (h : Heap) : Nat → Application → Option Application
  | 0, a => some a
  | n + 1, a => (h.reapplied? a).bind (h.reapplications n)

theorem Heap.reapplications_add (h : Heap) (n k : Nat) (a : Application) :
    h.reapplications (n + k) a = (h.reapplications n a).bind (h.reapplications k) := by
  induction n generalizing a with
  | zero => rw [Nat.zero_add]; rfl
  | succ n ih =>
    rw [Nat.succ_add, Heap.reapplications, Heap.reapplications]
    cases h.reapplied? a with
    | none => rfl
    | some b => exact ih b

theorem Heap.reapplications_succ (hb : h.reapplications n a = some b) :
    h.reapplications (n + 1) a = h.reapplied? b := by
  rw [Heap.reapplications_add, hb, Option.bind_some, Heap.reapplications]
  cases h.reapplied? b <;> rfl

/-- A chain that has not ended goes on. -/
theorem Heap.exists_reapplications {limit : Nat}
    (hgo : ∀ n ≤ limit, ∀ b, h.reapplications n a = some b → h.reapplied? b ≠ none) :
    ∀ n ≤ limit + 1, ∃ b, h.reapplications n a = some b := by
  intro n hn
  induction n with
  | zero => exact ⟨a, rfl⟩
  | succ n ih =>
    obtain ⟨b, hb⟩ := ih (by omega)
    rw [Heap.reapplications_succ hb]
    exact Option.ne_none_iff_exists'.1 (hgo n (by omega) b hb)

/-- A chain ends before it has used as many lists as there are cells, or comes back. -/
theorem Heap.reapplications_cases (h : Heap) (a : Application) :
    (∃ n ≤ h.cells.capacity, ∃ b, h.reapplications n a = some b ∧ h.reapplied? b = none) ∨
    ∃ n k b, h.reapplications n a = some b ∧ h.reapplications (k + 1) b = some b := by
  by_cases hend : ∃ n ≤ h.cells.capacity, ∃ b, h.reapplications n a = some b ∧ h.reapplied? b = none
  · exact .inl hend
  · right
    have hgo : ∀ n ≤ h.cells.capacity, ∀ b, h.reapplications n a = some b → h.reapplied? b ≠ none :=
      fun n hn b hb hnone => hend ⟨n, hn, b, hb, hnone⟩
    choose f hf using Heap.exists_reapplications hgo
    have hstep : ∀ n (hn : n ≤ h.cells.capacity), h.reapplied? (f n (by omega)) = some (f (n + 1) (by omega)) :=
      fun n hn => (Heap.reapplications_succ (hf n (by omega))).symm.trans (hf (n + 1) (by omega))
    -- one application more than there are cells
    let cell : Fin (h.cells.capacity + 1) → Fin h.cells.capacity := fun n =>
      ⟨(f n (by omega)).args.payload.toNat, (Heap.isPair_of_reapplied? (hstep n (by omega))).2⟩
    have hback : ∀ i j, i < j → cell i = cell j →
        ∃ n k b, h.reapplications n a = some b ∧ h.reapplications (k + 1) b = some b := by
      intro i j hlt heq
      have hcell : (cell i).val = (cell j).val := congrArg Fin.val heq
      have hsame : f (i + 1) (by omega) = f (j + 1) (by omega) :=
        Heap.reapplied?_congr (hstep i (by omega)) (hstep j (by omega)) (UInt32.toNat_inj.1 hcell)
      obtain ⟨k, hk⟩ : ∃ k, (j : Nat) + 1 = (i : Nat) + 1 + (k + 1) := ⟨j - i - 1, by omega⟩
      have hlater : h.reapplications ((i : Nat) + 1 + (k + 1)) a = some (f (i + 1) (by omega)) := by
        rw [← hk, hf (j + 1) (by omega), hsame]
      rw [Heap.reapplications_add, hf (i + 1) (by omega), Option.bind_some] at hlater
      exact ⟨i + 1, k, _, hf (i + 1) (by omega), hlater⟩
    obtain ⟨i, j, hne, heq⟩ := Fintype.exists_ne_map_eq_of_card_lt cell (by simp)
    rcases Nat.lt_or_gt_of_ne (Fin.val_ne_of_ne hne) with hlt | hlt
    · exact hback i j hlt heq
    · exact hback j i hlt heq.symm

/-! ## Limits -/

/-- A limit below the length of the chain is not enough; a greater one does what the limit left does at its end. -/
theorem applyValues_eq (ev : Evaluator) (m : Machine) (limit : Nat) (hb : m.heap.reapplications n a = some b) :
    applyValues ev limit a.operator a.args m =
      if n ≤ limit then applyValues ev (limit - n) b.operator b.args m else .error .unfinished m := by
  induction n generalizing a limit with
  | zero =>
    cases hb
    rfl
  | succ n ih =>
    obtain ⟨c, hc, hb⟩ := Option.bind_eq_some_iff.1 hb
    rcases stepsOrLands ev m a with ⟨c', hc', hagain⟩ | ⟨hnone, -⟩
    · obtain rfl : c' = c := Option.some.inj (hc'.symm.trans hc)
      cases limit with
      | zero => exact hagain _
      | succ limit =>
        rw [applyValues, hagain, ih limit hb, Nat.add_sub_add_right]
        simp only [Nat.add_le_add_iff_right]
    · rw [hnone] at hc
      cases hc

theorem exists_lands (ev : Evaluator) (m : Machine) (hb : m.heap.reapplied? b = none) :
    ∃ r, Lands ev m b r ∧ ∀ limit, applyValues ev limit b.operator b.args m = r := by
  rcases stepsOrLands ev m b with ⟨c, hc, -⟩ | ⟨-, r, hr, hall⟩
  · rw [hb] at hc
    cases hc
  · refine ⟨r, hr, fun limit => ?_⟩
    cases limit <;> exact hall _

/-- A chain that comes back is longer than every limit. -/
theorem applyValues_of_returns (ev : Evaluator) (m : Machine) (hb : m.heap.reapplications n a = some b)
    (hback : m.heap.reapplications (k + 1) b = some b) (limit : Nat) :
    applyValues ev limit a.operator a.args m = .error .unfinished m := by
  have hround : ∀ t, m.heap.reapplications (t * (k + 1)) b = some b := by
    intro t
    induction t with
    | zero => rw [Nat.zero_mul]; rfl
    | succ t ih => rw [Nat.succ_mul, Heap.reapplications_add, ih, Option.bind_some, hback]
  have hlong : m.heap.reapplications (n + (limit + 1) * (k + 1)) a = some b := by
    rw [Heap.reapplications_add, hb, Option.bind_some, hround]
  rw [applyValues_eq ev m limit hlong, if_neg]
  have := Nat.le_mul_of_pos_right (limit + 1) (show 0 < k + 1 by omega)
  omega

/-- Applying values comes to a built-in procedure, a closure or an error after at most as many steps through `apply` as
there are cells, or comes back to an application that was made before, and then no number of steps is enough. -/
theorem applyValues_lands_or_returns (ev : Evaluator) (m : Machine) (operator args : Word) :
    (∃ n b r, n ≤ m.heap.cells.capacity ∧ m.heap.reapplications n ⟨operator, args⟩ = some b ∧
      m.heap.reapplied? b = none ∧ Lands ev m b r ∧
      ∀ limit, applyValues ev limit operator args m = if n ≤ limit then r else .error .unfinished m) ∨
    ∃ n k b, m.heap.reapplications n ⟨operator, args⟩ = some b ∧ m.heap.reapplications (k + 1) b = some b ∧
      ∀ limit, applyValues ev limit operator args m = .error .unfinished m := by
  rcases m.heap.reapplications_cases ⟨operator, args⟩ with ⟨n, hn, b, hb, hnone⟩ | ⟨n, k, b, hb, hback⟩
  · obtain ⟨r, hr, hall⟩ := exists_lands ev m hnone
    refine .inl ⟨n, b, r, hn, hb, hnone, hr, fun limit => ?_⟩
    rw [applyValues_eq ev m limit hb, hall]
  · exact .inr ⟨n, k, b, hb, hback, applyValues_of_returns ev m hb hback⟩

end Chains

/-- A list of `apply` and the list itself. -/
def selfApplying : String := "(define l (list apply 0)) (set-car! (cdr l) l) l"

/-- Whether the list that the source leaves is applied to itself forever. -/
def selfApplied : Bool :=
  match Machine.create { cells := 64, strings := 72, roots := 32 } .capturing {} with
  | .ok m₀ =>
    match runSource 40 selfApplying m₀ with
    | .ok l m =>
      let a : Application := ⟨(m.heap.cells.read l.payload).car, l⟩
      decide (m.heap.reapplied? a = some a)
    | .error _ _ => false
  | .error _ => false

theorem applyValues_lands_or_returns_self :
    ∃ m₀ l m, Machine.create { cells := 64, strings := 72, roots := 32 } .capturing {} = .ok m₀ ∧
      runSource 40 selfApplying m₀ = .ok l m ∧
      ∀ ev limit, applyValues ev limit (m.heap.cells.read l.payload).car l m = .error .unfinished m := by
  have hok : selfApplied = true := by decide +kernel
  unfold selfApplied at hok
  cases hm₀ : Machine.create { cells := 64, strings := 72, roots := 32 } .capturing {} with
  | error e =>
    rw [hm₀] at hok
    cases hok
  | ok m₀ =>
    cases hrun : runSource 40 selfApplying m₀ with
    | error e m =>
      simp only [hm₀, hrun] at hok
      cases hok
    | ok l m =>
      simp only [hm₀, hrun, decide_eq_true_eq] at hok
      have hsame : ∀ n, m.heap.reapplications n ⟨(m.heap.cells.read l.payload).car, l⟩ =
          some ⟨(m.heap.cells.read l.payload).car, l⟩ := by
        intro n
        induction n with
        | zero => rfl
        | succ n ih => rw [Heap.reapplications, hok, Option.bind_some, ih]
      refine ⟨m₀, l, m, rfl, hrun, fun ev => ?_⟩
      rcases applyValues_lands_or_returns ev m (m.heap.cells.read l.payload).car l with
        ⟨n, b, r, -, hb, hnone, -⟩ | ⟨-, -, -, -, -, hall⟩
      · rw [hsame n] at hb
        cases hb
        rw [hok] at hnone
        cases hnone
      · exact hall

end BoxedScheme
