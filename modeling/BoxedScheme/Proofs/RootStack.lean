import BoxedScheme.Proofs.Supervision
import BoxedScheme.Proofs.Changes
import BoxedScheme.Proofs.Recursive
import BoxedScheme.Session

/-!
# The root stack during evaluation

`Watched.eval` evaluates in passes as `eval` does, and looks at the root stack at the start and at the end of every
pass. Within a pass the stack only grows, but for nested evaluations, which are watched themselves; so no moment is
left out. Where it finds anything amiss, it stops with an alarm.

* `Watched.Activation`, `Watched.Orderly` : an evaluation under way, and what the root stack is to be when a pass of
  it starts;
* `Agree I x y` : on every machine with `I`, the actions `x` and `y` do the same, and `I` holds afterwards;
* `agree_step` : a pass is the same with nested evaluators that agree;
* `watchedPasses_eq` : the watched passes are the passes;
* `eval_roots_restored` : no alarm is ever raised, whatever it is, and the stack is left as it was found.
-/

namespace BoxedScheme

/-! ## Watched evaluation -/

def Rootless (m : Machine) : Prop := m.heap.roots = #[]

instance : DecidablePred Rootless := fun m => inferInstanceAs (Decidable (m.heap.roots = #[]))

namespace Watched

/-- An evaluation under way: the root stack that it was entered with, and how many evaluations are under way,
itself among them. -/
structure Activation where
  entry : Array Word
  nested : Nat

/-- The root stack, when a pass over `expr` in `env` starts: what it was on entry, and these two. It is within its
capacity, and so are the evaluations under way, at two roots each. -/
def Orderly (a : Activation) (expr env : Word) (m : Machine) : Prop :=
  m.heap.roots = (a.entry.push expr).push env ∧ m.heap.roots.size ≤ m.heap.rootCapacity ∧
    a.nested ≤ m.heap.rootCapacity / 2

instance (a : Activation) (expr env : Word) : DecidablePred (Orderly a expr env) :=
  fun _ => inferInstanceAs (Decidable (_ ∧ _))

variable (alarm : Stop)

def check (p : Machine → Prop) [DecidablePred p] : Eval Unit := fun m => if p m then .ok () m else .error alarm m

/-- Raises the alarm if an action, failed or not, leaves more roots than there is room for. -/
def bounded {α : Type} (x : Eval α) : Eval α := fun m =>
  if (final (x m)).heap.roots.size ≤ (final (x m)).heap.rootCapacity then x m else .error alarm (final (x m))

/-- Nested evaluation, when `nested` evaluations are under way. -/
def within (run : Activation → Nat → Word → Word → Eval Word) (nested : Nat) : Evaluator := fun expr env m =>
  enter (run ⟨m.heap.roots, nested + 1⟩) expr env m

def passes : Nat → Activation → Nat → Word → Word → Eval Word
  | 0, _, _, _, _ => throw .unfinished
  | budget + 1, a, slot, expr, env => do
    modify (·.mapHeap (·.truncateRoots (slot + 2)))
    check alarm (Orderly a expr env)
    modify maybeCollect
    match ← bounded alarm (step (within (passes budget) a.nested) budget expr env) with
    | .done value => return value
    | .tail expr env =>
      modify (handOver slot expr env)
      passes budget a slot expr env

/-- Evaluates an expression in an environment, when no other evaluation is under way. -/
def eval (budget : Nat) : Evaluator := within (passes alarm budget) 0

/-- Evaluates all forms of a text; before each form there must be no roots. -/
def runSource (budget : Nat) (source : String) : Eval Word :=
  runText (fun expr env => do
    check alarm Rootless
    eval alarm budget expr env) source

end Watched

/-! ## Agreement -/

/-- On every machine with `I` the actions do the same, and `I` holds afterwards. -/
structure Agree {α : Type} (I : Machine → Prop) (x y : Eval α) : Prop where
  same : ∀ m, I m → x m = y m
  keeps : ∀ m, I m → I (final (y m))

/-- Elementary changes do not matter. -/
def Stable (I : Machine → Prop) : Prop := ∀ ⦃m m' : Machine⦄, Changes m m' → I m → I m'

section Agree

variable {I : Machine → Prop} {α β : Type}

theorem after_eq_final (x : Eval α) (m : Machine) : after x m = final (x m) := by
  rw [after]
  cases x m <;> rfl

theorem Agree.of_acts {x : Eval α} (hI : Stable I) (hx : Acts x) : Agree I x x :=
  ⟨fun _ _ => rfl, fun m hm => hI (after_eq_final x m ▸ hx m) hm⟩

theorem Agree.bind {x y : Eval α} {f g : α → Eval β} (hxy : Agree I x y) (hfg : ∀ a, Agree I (f a) (g a)) :
    Agree I (x >>= f) (y >>= g) := by
  refine ⟨fun m hm => ?_, fun m hm => ?_⟩
  · have hkeep := hxy.keeps m hm
    rw [bind_apply, bind_apply, hxy.same m hm]
    cases hy : y m with
    | error e m' => rfl
    | ok a m' =>
      rw [hy] at hkeep
      exact (hfg a).same m' hkeep
  · have hkeep := hxy.keeps m hm
    rw [bind_apply]
    cases hy : y m with
    | error e m' =>
      rw [hy] at hkeep
      exact hkeep
    | ok a m' =>
      rw [hy] at hkeep
      exact (hfg a).keeps m' hkeep

theorem Agree.get_bind {f g : Machine → Eval β} (hfg : ∀ m, Agree I (f m) (g m)) : Agree I (get >>= f) (get >>= g) :=
  ⟨fun m => (hfg m).same m, fun m => (hfg m).keeps m⟩

theorem Agree.ite {c : Prop} [Decidable c] {x x' y y' : Eval α} (h : Agree I x y) (h' : Agree I x' y') :
    Agree I (if c then x else x') (if c then y else y') := by
  split
  · exact h
  · exact h'

end Agree

section Forms

variable {I : Machine → Prop} (hI : Stable I) {ev ev' : Evaluator} (hev : ∀ expr env, Agree I (ev expr env) (ev' expr env))

include hI

theorem agree_pure {α : Type} (a : α) : Agree I (pure a) (pure a) := .of_acts hI (acts_pure a)

theorem agree_throw {α : Type} (e : Stop) : Agree I (throw e : Eval α) (throw e) := .of_acts hI (acts_throw e)

include hev

theorem agree_evalBranch (args : List Word) (env : Word) : Agree I (evalBranch ev args env) (evalBranch ev' args env) := by
  match args with
  | [_, _] | [_, _, _] => exact (hev _ _).bind fun _ => .ite (agree_pure hI _) (agree_pure hI _)
  | [] | [_] | _ :: _ :: _ :: _ :: _ => exact agree_throw hI _

theorem agree_evalDefine (args : List Word) (operands env : Word) :
    Agree I (evalDefine ev args operands env) (evalDefine ev' args operands env) := by
  cases args with
  | nil => exact agree_throw hI _
  | cons target more =>
    refine .ite ?_ (.ite ?_ (agree_throw hI _))
    · match more with
      | [_] => exact (hev _ _).bind fun _ => .of_acts hI ((acts_define _ _ _).bind fun _ => acts_pure _)
      | [] | _ :: _ :: _ => exact agree_throw hI _
    · exact .of_acts hI ((acts_defineProcedure _ _ _).bind fun _ => acts_pure _)

theorem agree_evalConjunction (env : Word) (tests : List Word) :
    Agree I (evalConjunction ev env tests) (evalConjunction ev' env tests) := by
  induction tests with
  | nil => exact agree_pure hI _
  | cons test tests ih =>
    cases tests with
    | nil => exact agree_pure hI _
    | cons next tests => exact (hev _ _).bind fun _ => .ite ih (agree_pure hI _)

theorem agree_evalDisjunction (env : Word) (tests : List Word) :
    Agree I (evalDisjunction ev env tests) (evalDisjunction ev' env tests) := by
  induction tests with
  | nil => exact agree_pure hI _
  | cons test tests ih =>
    cases tests with
    | nil => exact agree_pure hI _
    | cons next tests => exact (hev _ _).bind fun _ => .ite (agree_pure hI _) ih

theorem agree_evalForm (form : Form) (operands env : Word) :
    Agree I (evalForm ev form operands env) (evalForm ev' form operands env) := by
  refine .get_bind fun m => ?_
  cases m.heap.listItems operands form.name with
  | error _ => exact agree_throw hI _
  | ok items =>
    cases form with
    | quote => exact .of_acts hI (acts_evalQuote _)
    | branch => exact agree_evalBranch hI hev _ _
    | define => exact agree_evalDefine hI hev _ _ _
    | lambda => exact .of_acts hI (acts_evalLambda _ _ _)
    | bind => exact .of_acts hI (acts_evalBind _ _ _)
    | bindInOrder => exact .of_acts hI (acts_evalBindInOrder _ _ _)
    | conjunction => exact agree_evalConjunction hI hev _ _
    | disjunction => exact agree_evalDisjunction hI hev _ _

theorem agree_runForms (limit : Nat) (r : Reader) (last : Word) :
    Agree I (runForms ev limit r last) (runForms ev' limit r last) := by
  induction limit generalizing r last with
  | zero => exact agree_throw hI _
  | succ limit ih =>
    refine (Agree.of_acts hI (acts_readDatum r)).bind fun found => .ite (agree_pure hI _) ?_
    exact .get_bind fun m => (hev _ _).bind fun _ => ih _ _

theorem agree_runText (source : String) : Agree I (runText ev source) (runText ev' source) := by
  unfold runText
  cases Reader.ofSource source with
  | error e => exact agree_throw hI _
  | ok r => exact agree_runForms hI hev _ _ _

theorem agree_load (procedure : String) (path : Word) : Agree I (load ev procedure path) (load ev' procedure path) := by
  refine .get_bind fun m => (Agree.of_acts hI (acts_ofExcept _)).bind fun path => ?_
  cases m.files.read? path with
  | none => exact agree_throw hI _
  | some content =>
    cases content with
    | error reason => exact agree_throw hI _
    | ok source => exact (agree_runText hI hev source).bind fun _ => agree_pure hI _

end Forms

/-! ## A pass -/

/-- The root stack has grown from `floor`, within a capacity. -/
structure Grown (floor : Array Word) (capacity : Nat) (m : Machine) : Prop where
  floor : m.heap.roots.toList.take floor.size = floor.toList
  size : m.heap.roots.size ≤ m.heap.rootCapacity
  capacity : m.heap.rootCapacity = capacity

section Pass

variable {floor : Array Word} {capacity : Nat}

theorem Grown.of_roots {m m' : Machine} (hm : Grown floor capacity m)
    (h : m'.heap.roots = m.heap.roots ∧ m'.heap.rootCapacity = m.heap.rootCapacity) : Grown floor capacity m' :=
  ⟨h.1 ▸ hm.floor, h.1 ▸ h.2 ▸ hm.size, h.2 ▸ hm.capacity⟩

theorem stable_grown : Stable (Grown floor capacity) := fun _ _ hc hm => hm.of_roots hc.roots

theorem Grown.le {m : Machine} (hm : Grown floor capacity m) : floor.size ≤ m.heap.roots.size := by
  have hlen := congrArg List.length hm.floor
  rw [List.length_take, Array.length_toList, Array.length_toList] at hlen
  omega

/-- A root that is registered for the rest of the pass. -/
theorem Agree.push {α : Type} {x y : Nat → Eval α} (w : Word)
    (hxy : ∀ slot, floor.size ≤ slot → Agree (Grown floor capacity) (x slot) (y slot)) :
    Agree (Grown floor capacity) (Eval.onHeap (Heap.pushRoot w) >>= x) (Eval.onHeap (Heap.pushRoot w) >>= y) := by
  have hpush {m : Machine} (hm : Grown floor capacity m) (hlt : m.heap.roots.size < m.heap.rootCapacity) :
      Grown floor capacity (withScratch m ⟨m.heap.roots.push w, m.heap.stats, m.dispatches⟩) := by
    refine ⟨?_, ?_, hm.capacity⟩
    · show (m.heap.roots.push w).toList.take floor.size = _
      rw [Array.toList_push, List.take_append_of_le_length (by rw [Array.length_toList]; exact hm.le), hm.floor]
    · show (m.heap.roots.push w).size ≤ m.heap.rootCapacity
      rw [Array.size_push]
      exact hlt
  refine ⟨fun m hm => ?_, fun m hm => ?_⟩
  · rw [bind_apply, bind_apply, onHeap_pushRoot]
    by_cases hlt : m.heap.roots.size < m.heap.rootCapacity
    · rw [if_pos hlt]
      exact (hxy _ hm.le).same _ (hpush hm hlt)
    · rw [if_neg hlt]
  · rw [bind_apply, onHeap_pushRoot]
    by_cases hlt : m.heap.roots.size < m.heap.rootCapacity
    · rw [if_pos hlt]
      exact (hxy _ hm.le).keeps _ (hpush hm hlt)
    · rw [if_neg hlt]
      exact hm

theorem agree_appendCell {slot : Nat} (hle : floor.size ≤ slot) (last cell : Word) :
    Agree (Grown floor capacity) (appendCell slot last cell) (appendCell slot last cell) := by
  refine ⟨fun _ _ => rfl, fun m hm => ?_⟩
  unfold appendCell
  split
  · refine ⟨?_, ?_, hm.capacity⟩
    · show (m.heap.roots.setIfInBounds slot cell).toList.take floor.size = _
      rw [Array.toList_setIfInBounds, List.take_set_of_le hle, hm.floor]
    · show (m.heap.roots.setIfInBounds slot cell).size ≤ m.heap.rootCapacity
      rw [Array.size_setIfInBounds]
      exact hm.size
  · exact (Agree.of_acts stable_grown (acts_setCdr last cell)).keeps m hm

variable {ev ev' : Evaluator} (hev : ∀ expr env, Agree (Grown floor capacity) (ev expr env) (ev' expr env))

include hev

theorem agree_evalOperandsWith {env : Word} {slot : Nat} (hle : floor.size ≤ slot)
    {again again' : Word → Word → Eval Unit}
    (hagain : ∀ last rest, Agree (Grown floor capacity) (again last rest) (again' last rest)) (last rest : Word) :
    Agree (Grown floor capacity) (evalOperandsWith ev env slot again last rest)
      (evalOperandsWith ev' env slot again' last rest) := by
  have hI : Stable (Grown floor capacity) := stable_grown
  refine .ite ?_ (.ite (agree_pure hI _) (agree_throw hI _))
  refine (Agree.of_acts hI (acts_car rest)).bind fun expr => (hev expr env).bind fun value => ?_
  refine (Agree.of_acts hI (acts_evalCons _ _)).bind fun cell => (agree_appendCell hle last cell).bind fun _ => ?_
  exact (Agree.of_acts hI (acts_cdr rest)).bind fun rest => hagain cell rest

theorem agree_evalOperands {slot : Nat} (hle : floor.size ≤ slot) (env : Word) (limit : Nat) (last rest : Word) :
    Agree (Grown floor capacity) (evalOperands ev env slot limit last rest)
      (evalOperands ev' env slot limit last rest) := by
  induction limit generalizing last rest with
  | zero => exact agree_evalOperandsWith hev hle (fun _ _ => agree_throw stable_grown _) last rest
  | succ limit ih => exact agree_evalOperandsWith hev hle ih last rest

theorem agree_operandValues (operands env : Word) :
    Agree (Grown floor capacity) (operandValues ev operands env) (operandValues ev' operands env) :=
  .push .nil fun _ hle => .get_bind fun _ => (agree_evalOperands hev hle _ _ _ _).bind fun _ =>
    .get_bind fun _ => agree_pure stable_grown _

theorem agree_evalBodyWith {env : Word} {again again' : Word → Eval Step}
    (hagain : ∀ body, Agree (Grown floor capacity) (again body) (again' body)) (body : Word) :
    Agree (Grown floor capacity) (evalBodyWith ev env again body) (evalBodyWith ev' env again' body) :=
  (Agree.of_acts stable_grown (acts_car _)).bind fun _ => (Agree.of_acts stable_grown (acts_cdr _)).bind fun _ =>
    .ite (agree_pure stable_grown _) ((hev _ _).bind fun _ => hagain _)

theorem agree_evalBody (env : Word) (limit : Nat) (body : Word) :
    Agree (Grown floor capacity) (evalBody ev env limit body) (evalBody ev' env limit body) := by
  induction limit generalizing body with
  | zero => exact agree_evalBodyWith hev (fun _ => agree_throw stable_grown _) body
  | succ limit ih => exact agree_evalBodyWith hev ih body

theorem agree_enterClosure (closure args : Word) :
    Agree (Grown floor capacity) (enterClosure ev closure args) (enterClosure ev' closure args) :=
  (Agree.of_acts stable_grown (acts_inspect _)).bind fun _ => (Agree.of_acts stable_grown (acts_extend _ _ _)).bind
    fun _ => .push _ fun _ _ => .get_bind fun _ => agree_evalBody hev _ _ _

theorem agree_applyWith {again again' : Word → Word → Eval Step}
    (hagain : ∀ operator args, Agree (Grown floor capacity) (again operator args) (again' operator args))
    (operator args : Word) :
    Agree (Grown floor capacity) (applyWith ev again operator args) (applyWith ev' again' operator args) := by
  have hI : Stable (Grown floor capacity) := stable_grown
  unfold applyWith
  cases operator.kind with
  | closure _ => exact agree_enterClosure hev _ _
  | procedure id =>
    dsimp only
    generalize Operation.entry? id = entry
    match entry with
    | none | some ⟨.form _, _, _⟩ => exact .of_acts hI (acts_notCallable _)
    | some ⟨.primitive p, name, arity⟩ =>
      refine (Agree.of_acts hI (acts_inspect _)).bind fun argv => .ite (agree_throw hI _) ?_
      cases p with
      | apply => exact (Agree.of_acts hI (acts_spreadArguments _)).bind fun _ => hagain _ _
      | load => exact (agree_load hI hev name _).bind fun _ => agree_pure hI _
      | _ => exact .of_acts hI ((acts_call _ _ _).bind fun _ => acts_pure _)
  | _ => exact .of_acts hI (acts_notCallable _)

theorem agree_applyValues (limit : Nat) (operator args : Word) :
    Agree (Grown floor capacity) (applyValues ev limit operator args) (applyValues ev' limit operator args) := by
  induction limit generalizing operator args with
  | zero => exact agree_applyWith hev (fun _ _ => agree_throw stable_grown _) operator args
  | succ limit ih => exact agree_applyWith hev ih operator args

/-- A pass is the same with nested evaluators that agree; it leaves the roots below it alone and keeps to the
capacity. -/
theorem agree_step (limit : Nat) (expr env : Word) :
    Agree (Grown floor capacity) (step ev limit expr env) (step ev' limit expr env) := by
  have hI : Stable (Grown floor capacity) := stable_grown
  refine .ite (agree_throw hI _) (.ite ?_ (.ite ?_ (agree_pure hI _)))
  · exact .of_acts hI ((acts_lookup _ _).bind fun _ => acts_pure _)
  refine (Agree.of_acts hI (acts_car expr)).bind fun head => (Agree.of_acts hI (acts_cdr expr)).bind fun operands => ?_
  cases Operation.formOf? head with
  | some form => exact agree_evalForm hI hev form operands env
  | none =>
    exact (hev head env).bind fun operator => .push operator fun _ _ => (agree_operandValues hev operands env).bind
      fun args => agree_applyValues hev limit operator args

end Pass

/-! ## Passes -/

section Passes

variable {floor entry : Array Word} {capacity : Nat} {m : Machine} {alarm : Stop} {expr env : Word}

theorem grown_maybeCollect (hm : Grown floor capacity m) : Grown floor capacity (maybeCollect m) := by
  refine hm.of_roots ⟨roots_maybeCollect m, ?_⟩
  unfold maybeCollect
  split <;> rfl

theorem Grown.roots_truncate (hm : Grown floor capacity m) :
    (m.mapHeap (·.truncateRoots floor.size)).heap.roots = floor := Heap.roots_truncateRoots hm.floor

theorem Grown.truncate (hm : Grown floor capacity m) : Grown floor capacity (m.mapHeap (·.truncateRoots floor.size)) := by
  refine ⟨?_, ?_, hm.capacity⟩
  · rw [hm.roots_truncate]
    exact List.take_of_length_le (by rw [Array.length_toList])
  · rw [hm.roots_truncate]
    exact Nat.le_trans hm.le hm.size

/-- What is registered for the next pass takes the place of what the last one was registered with. -/
theorem Grown.handOver (hm : Grown ((entry.push expr).push env) capacity m) (expr' env' : Word) :
    Grown ((entry.push expr').push env') capacity (handOver entry.size expr' env' m) := by
  refine ⟨?_, ?_, hm.capacity⟩
  · have hfloor := hm.floor
    simp only [Array.size_push, Array.toList_push, List.append_assoc, List.cons_append, List.nil_append] at hfloor ⊢
    show ((m.heap.roots.setIfInBounds entry.size expr').setIfInBounds (entry.size + 1) env').toList.take _ = _
    rw [Array.toList_setIfInBounds, Array.toList_setIfInBounds, List.take_set, List.take_set, hfloor,
      ← Array.length_toList, List.set_append_right _ _ (Nat.le_refl _), List.set_append_right _ _ (Nat.le_succ _),
      Nat.sub_self, Nat.succ_sub (Nat.le_refl _), Nat.sub_self]
    rfl
  · show ((m.heap.roots.setIfInBounds entry.size expr').setIfInBounds (entry.size + 1) env').size ≤ _
    rw [Array.size_setIfInBounds, Array.size_setIfInBounds]
    exact hm.size

theorem Grown.below (hm : Grown ((entry.push expr).push env) capacity m) : Grown entry capacity m := by
  refine ⟨?_, hm.size, hm.capacity⟩
  have htake := congrArg (List.take entry.size) hm.floor
  rw [List.take_take, Heap.take_push_push] at htake
  simpa only [Array.size_push, Nat.min_eq_left (Nat.le_add_right entry.size 2)] using htake

theorem Watched.check_of {p : Machine → Prop} [DecidablePred p] (hp : p m) : check alarm p m = .ok () m := if_pos hp

theorem Watched.bounded_of_le {α : Type} {x : Eval α}
    (hle : (final (x m)).heap.roots.size ≤ (final (x m)).heap.rootCapacity) : bounded alarm x m = x m := if_pos hle

def Watched.next (alarm : Stop) (budget : Nat) (a : Activation) (slot : Nat) : Step → Eval Word
  | .done value => pure value
  | .tail expr env => do
    modify (handOver slot expr env)
    passes alarm budget a slot expr env

theorem Watched.passes_succ_apply {budget slot : Nat} {a : Activation}
    (horderly : Orderly a expr env (m.mapHeap (·.truncateRoots (slot + 2)))) :
    passes alarm (budget + 1) a slot expr env m =
      (bounded alarm (step (within (passes alarm budget) a.nested) budget expr env) >>= next alarm budget a slot)
        (beginPass slot m) := by
  show (check alarm (Orderly a expr env) >>= fun _ => modify maybeCollect >>= fun _ =>
    bounded alarm (step (within (passes alarm budget) a.nested) budget expr env) >>= next alarm budget a slot) _ = _
  rw [bind_apply, check_of horderly]
  rfl

/-- The start of a pass is as it should be: two roots for every evaluation under way are within the capacity. -/
theorem Grown.orderly {a : Watched.Activation} (hnested : 2 * a.nested ≤ a.entry.size + 2)
    (hm : Grown ((a.entry.push expr).push env) capacity m) :
    Watched.Orderly a expr env (m.mapHeap (·.truncateRoots (a.entry.size + 2))) := by
  have hsize : ((a.entry.push expr).push env).size = a.entry.size + 2 := by simp only [Array.size_push]
  have hle := Nat.le_trans hm.le hm.size
  rw [hsize] at hle
  refine ⟨hsize ▸ hm.roots_truncate, hsize ▸ hm.truncate.size, ?_⟩
  show a.nested ≤ m.heap.rootCapacity / 2
  omega

/-- Watched nested evaluations are nested evaluations, if the watched passes are the passes. -/
theorem agree_within {budget nested : Nat} (hfloor : 2 * nested ≤ floor.size)
    (hpasses : ∀ {a : Watched.Activation} {expr env : Word} {m : Machine}, 2 * a.nested ≤ a.entry.size + 2 →
      Grown ((a.entry.push expr).push env) capacity m →
      Watched.passes alarm budget a a.entry.size expr env m = passes budget a.entry.size expr env m ∧
        Grown a.entry capacity (final (passes budget a.entry.size expr env m))) (expr env : Word) :
    Agree (Grown floor capacity) (Watched.within (Watched.passes alarm budget) nested expr env)
      (enter (passes budget) expr env) := by
  have hentered {m : Machine} (hm : Grown floor capacity m) (hlt : m.heap.roots.size + 1 < m.heap.rootCapacity) :
      Grown ((m.heap.roots.push expr).push env) capacity
        (withScratch m ⟨(m.heap.roots.push expr).push env, m.heap.stats, m.dispatches⟩) := by
    refine ⟨List.take_of_length_le (Nat.le_of_eq Array.length_toList), ?_, hm.capacity⟩
    show ((m.heap.roots.push expr).push env).size ≤ m.heap.rootCapacity
    simp only [Array.size_push]
    omega
  have hnested {m : Machine} (hm : Grown floor capacity m) : 2 * (nested + 1) ≤ m.heap.roots.size + 2 := by
    have := hm.le
    omega
  refine ⟨fun m hm => ?_, fun m hm => ?_⟩
  · rw [Watched.within, enter_apply, enter_apply]
    by_cases hlt : m.heap.roots.size + 1 < m.heap.rootCapacity
    · rw [if_pos hlt, if_pos hlt, (hpasses (a := ⟨m.heap.roots, nested + 1⟩) (hnested hm) (hentered hm hlt)).1]
    · rw [if_neg hlt, if_neg hlt]
  · refine hm.of_roots ⟨roots_enter (passesMirror budget) expr env m, ?_⟩
    rw [enter_apply]
    by_cases hlt : m.heap.roots.size + 1 < m.heap.rootCapacity
    · rw [if_pos hlt]
      have hkept := (hpasses (a := ⟨m.heap.roots, nested + 1⟩) (hnested hm) (hentered hm hlt)).2.capacity
      dsimp only at hkept
      cases hres : passes budget m.heap.roots.size expr env (withScratch m _) <;> rw [hres] at hkept <;>
        exact hkept.trans hm.capacity.symm
    · rw [if_neg hlt]
      rfl

/-- The watched passes are the passes, whatever the alarm: it is never raised. They leave the roots that were there
on entry, and keep to the capacity. -/
theorem watchedPasses_eq {budget : Nat} {a : Watched.Activation} (hnested : 2 * a.nested ≤ a.entry.size + 2)
    (hm : Grown ((a.entry.push expr).push env) capacity m) :
    Watched.passes alarm budget a a.entry.size expr env m = passes budget a.entry.size expr env m ∧
      Grown a.entry capacity (final (passes budget a.entry.size expr env m)) := by
  induction budget generalizing a expr env m with
  | zero => exact ⟨rfl, hm.below⟩
  | succ budget ih =>
    have hfloor : 2 * a.nested ≤ ((a.entry.push expr).push env).size := by
      simp only [Array.size_push]
      exact hnested
    have hstep := agree_step (agree_within hfloor ih) budget expr env
    have hbegin : Grown ((a.entry.push expr).push env) capacity (beginPass a.entry.size m) := by
      have htruncated := grown_maybeCollect hm.truncate
      simp only [Array.size_push] at htruncated
      exact htruncated
    have hend := hstep.keeps _ hbegin
    have hsame : Watched.bounded alarm (step (Watched.within (Watched.passes alarm budget) a.nested) budget expr env)
        (beginPass a.entry.size m) = step (enter (passes budget)) budget expr env (beginPass a.entry.size m) := by
      rw [Watched.bounded_of_le (by rw [hstep.same _ hbegin]; exact hend.size), hstep.same _ hbegin]
    rw [Watched.passes_succ_apply (hm.orderly hnested), passes_succ_apply, bind_apply, bind_apply, hsame]
    cases hres : step (enter (passes budget)) budget expr env (beginPass a.entry.size m) with
    | error e m' =>
      rw [hres] at hend
      exact ⟨rfl, hend.below⟩
    | ok outcome m' =>
      rw [hres] at hend
      cases outcome with
      | done value => exact ⟨rfl, hend.below⟩
      | tail expr' env' => exact ih hnested (hend.handOver expr' env')

end Passes

theorem watchedEval_eq (alarm : Stop) (budget : Nat) (expr env : Word) (m : Machine) :
    Watched.eval alarm budget expr env m = eval budget expr env m := by
  by_cases hle : m.heap.roots.size ≤ m.heap.rootCapacity
  · have hagree : Agree (Grown #[] m.heap.rootCapacity) (Watched.eval alarm budget expr env) (eval budget expr env) :=
      agree_within (Nat.zero_le _) watchedPasses_eq expr env
    exact hagree.same m ⟨rfl, hle, rfl⟩
  · -- There is no room for the first two roots.
    rw [Watched.eval, Watched.within, eval, enter_apply, enter_apply, if_neg (by omega), if_neg (by omega)]

theorem roots_eval (budget : Nat) (expr env : Word) (m : Machine) :
    (final (eval budget expr env m)).heap.roots = m.heap.roots := roots_enter (passesMirror budget) expr env m

/-! ## Texts -/

theorem stable_rootless : Stable Rootless := fun _ _ hc hm => hc.roots.1.trans hm

theorem agree_watchedRunSource (alarm : Stop) (budget : Nat) (source : String) :
    Agree Rootless (Watched.runSource alarm budget source) (runSource budget source) := by
  refine agree_runText stable_rootless (fun expr env => ⟨fun m hm => ?_, fun m hm => ?_⟩) source
  · rw [bind_apply, Watched.check_of hm]
    exact watchedEval_eq alarm budget expr env m
  · exact (roots_eval budget expr env m).trans hm

theorem rootless_create {config : Config} {terminal : Terminal} {files : Files} {m : Machine}
    (h : Machine.create config terminal files = .ok m) : Rootless m := by
  unfold Machine.create at h
  dsimp only at h
  split at h
  next env m' hinit =>
    cases h
    exact (acts_initialEnvironment.of_ok hinit).roots.1
  next => cases h

/-- Whatever becomes of them, programs leave no roots. -/
theorem rootless_runAll (programs : List Program) {m : Machine} (hm : Rootless m) : Rootless (runAll programs m).2 := by
  induction programs generalizing m with
  | nil => exact hm
  | cons p programs ih =>
    have hrun := (agree_watchedRunSource .unfinished p.budget p.source).keeps { m with files := p.files } hm
    unfold runAll
    cases hres : runSource p.budget p.source { m with files := p.files } <;> rw [hres] at hrun <;> exact ih hrun

/-- An evaluation leaves the root stack as it found it, whether it ends with a value or not. However many passes it
makes, each starts with the roots of before, the expression and the environment, and the stack and the evaluations
under way keep to the capacity: no alarm to the contrary is raised. So between the forms of a text there are no roots,
whatever failed before. -/
theorem eval_roots_restored (alarm : Stop) :
    (∀ budget expr env m, (final (eval budget expr env m)).heap.roots = m.heap.roots ∧
      Watched.eval alarm budget expr env m = eval budget expr env m) ∧
    ∀ config terminal files m, Machine.create config terminal files = .ok m → ∀ (programs : List Program) (p : Program),
      let m' : Machine := { (runAll programs m).2 with files := p.files }
      Rootless m' ∧ Watched.runSource alarm p.budget p.source m' = runSource p.budget p.source m' := by
  refine ⟨fun budget expr env m => ⟨roots_eval budget expr env m, watchedEval_eq alarm budget expr env m⟩, ?_⟩
  intro config terminal files m hcreate programs p
  have hm := rootless_runAll programs (rootless_create hcreate)
  exact ⟨hm, (agree_watchedRunSource alarm p.budget p.source).same _ hm⟩

/-- A loop without end and an error deep inside an operand, on a machine with room for four evaluations, and then one
more program. -/
theorem eval_roots_restored_fresh :
    ∃ m, Machine.create { cells := 64, strings := 72, roots := 8 } .capturing {} = .ok m ∧
      let programs : List Program :=
        [⟨"(define (f x) (f x)) (f 1)", 100, {}⟩, ⟨"(+ 1 (+ 2 (+ 3 (+ 4 (+ 5 (car 6))))))", 100, {}⟩]
      let m' : Machine := { (runAll programs m).2 with files := {} }
      Rootless m' ∧ Watched.runSource .unfinished 100 "(+ 1 2) (car 3)" m' = runSource 100 "(+ 1 2) (car 3)" m' := by
  have hok : (Machine.create { cells := 64, strings := 72, roots := 8 } .capturing {}).toBool := by decide +kernel
  cases hm : Machine.create { cells := 64, strings := 72, roots := 8 } .capturing {} with
  | error e =>
    rw [hm] at hok
    cases hok
  | ok m => exact ⟨m, rfl, (eval_roots_restored .unfinished).2 _ _ _ m hm _ ⟨"(+ 1 2) (car 3)", 100, {}⟩⟩

end BoxedScheme
