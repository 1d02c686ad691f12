import BoxedScheme.Proofs.Heaps
import BoxedScheme.Proofs.Scratch

/-!
# Evaluation as plain recursion

`Recursive.eval` evaluates by ordinary recursive calls: the chosen branch, the last operand of `and` and `or`, the
last expression of a body, the application that a binding form stands for and the target of `apply` are evaluated
like any other subexpression. There are no passes, no root slots and no collections.

* `Mirror finish x y` : the action `x`, followed by `finish`, has the outcome of `y` on every machine where `x`
  neither collects nor runs out of roots; only the scratch parts differ;
* `mirror_evalForm`, `mirror_applyValues`, `mirror_step` : a pass mirrors a level of the recursion;
* `eval_recursive_iff` : the two evaluators finish with the same outcomes.
-/

namespace BoxedScheme

/-! ## The recursive evaluator -/

namespace Recursive

def evalBranch (ev : Evaluator) (args : List Word) (env : Word) : Eval Word := do
  match args with
  | [test, consequent] =>
    if (← ev test env).isTruthy then ev consequent env else return .unspecified
  | [test, consequent, alternative] =>
    if (← ev test env).isTruthy then ev consequent env else ev alternative env
  | _ => badSyntax .branch (.branchOperands args.length)

def evalDefine (ev : Evaluator) (args : List Word) (operands env : Word) : Eval Word := do
  match args with
  | [] => badSyntax .define .missingName
  | target :: more =>
    if target.isSymbol then
      match more with
      | [expr] =>
        let value ← ev expr env
        define env target value
        return .unspecified
      | _ => badSyntax .define .nameAndExpression
    else if target.isPair then
      defineProcedure target operands env
      return .unspecified
    else badSyntax .define .badTarget

def evalConjunction (ev : Evaluator) (env : Word) : List Word → Eval Word
  | [] => return .true
  | [last] => ev last env
  | test :: tests => do
    if (← ev test env).isTruthy then evalConjunction ev env tests else return .false

def evalDisjunction (ev : Evaluator) (env : Word) : List Word → Eval Word
  | [] => return .false
  | [last] => ev last env
  | test :: tests => do
    let value ← ev test env
    if value.isTruthy then return value else evalDisjunction ev env tests

/-- A binding form is evaluated as the application it stands for. -/
def evalBind (ev : Evaluator) (args : List Word) (operands env : Word) : Eval Word := do
  match args with
  | first :: second :: more =>
    if first.isSymbol then
      if more.isEmpty then badSyntax .bind .noNamedBindingsOrBody
      else
        let clauses ← clausesOf .bind second
        let body ← Eval.cdr (← Eval.cdr operands)
        ev (← Eval.onHeap (namedLetExpr first clauses body)) env
    else
      let clauses ← clausesOf .bind first
      let body ← Eval.cdr operands
      ev (← Eval.onHeap (letExpr clauses body)) env
  | _ => badSyntax .bind .noBindingsOrBody

def evalBindInOrder (ev : Evaluator) (args : List Word) (operands env : Word) : Eval Word := do
  match args with
  | bindings :: _ :: _ =>
    let clauses ← clausesOf .bindInOrder bindings
    let body ← Eval.cdr operands
    ev (← Eval.onHeap (letStarExpr clauses body)) env
  | _ => badSyntax .bindInOrder .noBindingsOrBody

def evalQuote (args : List Word) : Eval Word := do
  match args with
  | [datum] => return datum
  | _ => badSyntax .quote .oneOperand

def evalLambda (args : List Word) (operands env : Word) : Eval Word := do
  match args with
  | params :: _ :: _ =>
    let body ← Eval.cdr operands
    makeLambda params body env
  | _ => badSyntax .lambda .noParametersOrBody

def evalForm (ev : Evaluator) (form : Form) (operands env : Word) : Eval Word := do
  match (← get).heap.listItems operands form.name with
  | .error _ => badSyntax form .improperOperands
  | .ok items =>
    let args := items.toList
    match form with
    | .quote => evalQuote args
    | .branch => evalBranch ev args env
    | .define => evalDefine ev args operands env
    | .lambda => evalLambda args operands env
    | .bind => evalBind ev args operands env
    | .bindInOrder => evalBindInOrder ev args operands env
    | .conjunction => evalConjunction ev env args
    | .disjunction => evalDisjunction ev env args

/-- Puts a cell behind the last one of a list and answers the list's first cell. -/
def appendCell (first last cell : Word) : Eval Word :=
  if last.isNull then pure cell
  else do
    Eval.onHeap (Heap.setCdr last cell)
    return first

/-- Puts the value of the first operand that is left behind the cells `first` to `last`, and goes on. -/
def evalOperandsWith (ev : Evaluator) (env : Word) (again : Word → Word → Word → Eval Word)
    (first last rest : Word) : Eval Word := do
  if rest.isPair then
    let expr ← Eval.car rest
    let value ← ev expr env
    let cell ← Eval.cons value .nil
    let first ← appendCell first last cell
    again first cell (← Eval.cdr rest)
  else if rest.isNull then return first
  else Eval.raise (.badSyntax "application" .improperOperands)

/-- The values of operands from the left, as a new list; at most `limit` and one of them. -/
def evalOperands (ev : Evaluator) (env : Word) : Nat → Word → Word → Word → Eval Word
  | 0 => evalOperandsWith ev env fun _ _ _ => throw .unfinished
  | limit + 1 => evalOperandsWith ev env (evalOperands ev env limit)

def evalBodyWith (ev : Evaluator) (env : Word) (again : Word → Eval Word) (body : Word) : Eval Word := do
  let expr ← Eval.car body
  let rest ← Eval.cdr body
  if !rest.isPair then ev expr env
  else
    let _ ← ev expr env
    again rest

/-- The value of the last expression of a body; at most `limit` and one of them. -/
def evalBody (ev : Evaluator) (env : Word) : Nat → Word → Eval Word
  | 0 => evalBodyWith ev env fun _ => throw .unfinished
  | limit + 1 => evalBodyWith ev env (evalBody ev env limit)

def enterClosure (ev : Evaluator) (closure args : Word) : Eval Word := do
  let parts ← Eval.inspect (·.closureParts closure)
  let env ← extend parts.env parts.params args
  let capacity := (← get).heap.cells.capacity
  evalBody ev env capacity parts.body

/-- The value of a procedure or closure at a list of values; `again` is the value of the target of `apply`. -/
def applyWith (ev : Evaluator) (again : Word → Word → Eval Word) (operator args : Word) : Eval Word := do
  match operator.kind with
  | .procedure id =>
    match Operation.entry? id with
    | some ⟨.primitive p, name, arity⟩ =>
      let argv ← Eval.inspect (·.listItems args name)
      if !arity.accepts argv.size then
        Eval.raise (.arityMismatch name arity argv.size)
      else match p with
        | .apply => again (argv.getD 0 .unspecified) (← spreadArguments (argv.getD 1 .unspecified))
        | .load => load ev name (argv.getD 0 .unspecified)
        | p => p.call name argv
    | _ => notCallable operator
  | .closure _ => enterClosure ev operator args
  | _ => notCallable operator

def applyValues (ev : Evaluator) : Nat → Word → Word → Eval Word
  | 0 => applyWith ev fun _ _ => throw .unfinished
  | limit + 1 => applyWith ev (applyValues ev limit)

def evalApplication (ev : Evaluator) (limit : Nat) (head operands env : Word) : Eval Word := do
  let operator ← ev head env
  let capacity := (← get).heap.cells.capacity
  let args ← evalOperands ev env capacity .nil .nil operands
  applyValues ev limit operator args

def evalWith (ev : Evaluator) (limit : Nat) (expr env : Word) : Eval Word := do
  if expr.isNull then Eval.raise .emptyApplication
  else if expr.isSymbol then lookup env expr
  else if expr.isPair then
    let head ← Eval.car expr
    let operands ← Eval.cdr expr
    match Operation.formOf? head with
    | some form => evalForm ev form operands env
    | none => evalApplication ev limit head operands env
  else return expr

/-- Evaluates an expression in an environment, by recursion of at most the given depth. -/
def eval : Nat → Word → Word → Eval Word
  | 0, _, _ => throw .unfinished
  | depth + 1, expr, env => evalWith (eval depth) depth expr env

end Recursive

/-! ## Quiet runs -/

section Quiet

variable {α β γ : Type}

def final : EStateM.Result Stop Machine α → Machine
  | .ok _ m => m
  | .error _ m => m

def Machine.collections (m : Machine) : Nat := m.heap.stats.collections

def Stop.isOverflow : Stop → Bool
  | .error (.stackOverflow _) => true
  | _ => false

def overflowed : EStateM.Result Stop Machine α → Bool
  | .ok _ _ => false
  | .error stop _ => stop.isOverflow

/-- An action that was started on `m` neither collected nor ran out of roots. -/
structure Quiet (m : Machine) (r : EStateM.Result Stop Machine α) : Prop where
  collections : (final r).collections = m.collections
  overflow : overflowed r = false

/-- The action only adds to the count of collections, and leaves the first `depth` roots alone. -/
structure Tame (depth : Nat) (x : Eval α) : Prop where
  collections : ∀ m, m.collections ≤ (final (x m)).collections
  roots : ∀ m, depth ≤ m.heap.roots.size →
    (final (x m)).heap.roots.toList.take depth = m.heap.roots.toList.take depth

theorem Blind.scratch_final {x : Eval α} (hx : Blind x) (m : Machine) : (final (x m)).scratch = m.scratch := by
  have hself := hx m m.scratch
  rw [m.withScratch_scratch] at hself
  rw [hself]
  cases x m <;> rfl

theorem Blind.tame {x : Eval α} (hx : Blind x) (depth : Nat) : Tame depth x := by
  refine ⟨fun m => ?_, fun m _ => ?_⟩
  · exact Nat.le_of_eq (congrArg (·.stats.collections) (hx.scratch_final m)).symm
  · exact congrArg (·.roots.toList.take depth) (hx.scratch_final m)

theorem bind_apply (x : Eval α) (f : α → Eval β) (m : Machine) :
    (x >>= f) m = match x m with
      | .ok a m' => f a m'
      | .error e m' => .error e m' := by
  show EStateM.bind x f m = _
  unfold EStateM.bind
  cases x m <;> rfl

theorem Tame.bind {depth : Nat} {x : Eval α} {f : α → Eval β} (hx : Tame depth x) (hf : ∀ a, Tame depth (f a)) :
    Tame depth (x >>= f) := by
  refine ⟨fun m => ?_, fun m hm => ?_⟩
  · have hxm := hx.collections m
    rw [bind_apply]
    cases hx' : x m with
    | ok a m' =>
      rw [hx'] at hxm
      exact Nat.le_trans hxm ((hf a).collections m')
    | error e m' =>
      rw [hx'] at hxm
      exact hxm
  · have hxm := hx.roots m hm
    rw [bind_apply]
    cases hx' : x m with
    | ok a m' =>
      rw [hx'] at hxm
      exact ((hf a).roots m' (Heap.le_size_of_take_eq hm hxm)).trans hxm
    | error e m' =>
      rw [hx'] at hxm
      exact hxm

/-- The first part of a quiet run is quiet. -/
theorem Quiet.of_bind {x : Eval α} {f : α → Eval β} {m : Machine} (hx : Tame 0 x) (hf : ∀ a, Tame 0 (f a))
    (hq : Quiet m ((x >>= f) m)) : Quiet m (x m) ∧ ∀ a m', x m = .ok a m' → Quiet m' (f a m') := by
  rw [bind_apply] at hq
  cases hx' : x m with
  | error e m' =>
    rw [hx'] at hq
    exact ⟨⟨hq.collections, hq.overflow⟩, fun a m'' he => by cases he⟩
  | ok a m' =>
    have hxm := hx.collections m
    rw [hx'] at hq hxm
    have hfm := (hf a).collections m'
    have hmid : m'.collections = m.collections := Nat.le_antisymm (Nat.le_trans hfm (Nat.le_of_eq hq.collections)) hxm
    refine ⟨⟨hmid, rfl⟩, fun b m'' he => ?_⟩
    cases he
    exact ⟨hq.collections.trans hmid.symm, hq.overflow⟩

/-! ## Mirrors -/

def Machine.erase (m : Machine) : Machine := withScratch m ⟨#[], {}, 0⟩

theorem Machine.eq_withScratch {m n : Machine} (h : m.erase = n.erase) : n = withScratch m n.scratch := by
  calc n = withScratch n.erase n.scratch := rfl
    _ = withScratch m.erase n.scratch := by rw [h]
    _ = withScratch m n.scratch := rfl

theorem Blind.erase_withScratch {y : Eval β} (hy : Blind y) (m : Machine) (s : Scratch) :
    mapState Machine.erase (y (withScratch m s)) = mapState Machine.erase (y m) := by
  rw [hy m s]
  cases y m <;> rfl

/-- `x`, followed by `finish`, has the outcome of `y` whenever `x` is quiet. -/
structure Mirror (finish : α → Eval β) (x : Eval α) (y : Eval β) : Prop where
  tame : ∀ depth, Tame depth x
  blind : Blind y
  same : ∀ m, Quiet m (x m) → mapState Machine.erase ((x >>= finish) m) = mapState Machine.erase (y m)

variable {finish : α → Eval β}

theorem Mirror.of_blind {x : Eval α} (hx : Blind x) : Mirror pure x x :=
  ⟨hx.tame, hx, fun m _ => by rw [bind_pure]⟩

theorem Mirror.raise (e : Error) : Mirror finish (Eval.raise e) (Eval.raise e) :=
  ⟨(blind_raise e).tame, blind_raise e, fun _ _ => rfl⟩

theorem Mirror.throw (e : Stop) : Mirror finish (throw e) (throw e) :=
  ⟨(blind_throw e).tame, blind_throw e, fun _ _ => rfl⟩

theorem Mirror.ite {c : Prop} [Decidable c] {x x' : Eval α} {y y' : Eval β} (h : Mirror finish x y)
    (h' : Mirror finish x' y') : Mirror finish (if c then x else x') (if c then y else y') := by
  split
  · exact h
  · exact h'

/-- What follows an outcome does not depend on its scratch part. -/
theorem erase_bind {x y : Eval γ} {f : γ → Eval α} {g : γ → Eval β} {m : Machine} (hx : Tame 0 x)
    (hf : ∀ c, Tame 0 (f c)) (hg : ∀ c, Blind (g c))
    (hxy : Quiet m (x m) → mapState Machine.erase (x m) = mapState Machine.erase (y m))
    (hfg : ∀ c m', x m = .ok c m' → Quiet m' (f c m') →
      mapState Machine.erase ((f c >>= finish) m') = mapState Machine.erase (g c m'))
    (hq : Quiet m ((x >>= f) m)) :
    mapState Machine.erase ((x >>= f >>= finish) m) = mapState Machine.erase ((y >>= g) m) := by
  obtain ⟨hqx, hqf⟩ := hq.of_bind hx hf
  have hsame := hxy hqx
  rw [bind_assoc, bind_apply, bind_apply]
  cases hx : x m with
  | error e m' =>
    rw [hx] at hsame
    cases hy : y m with
    | error e' n' =>
      rw [hy] at hsame
      simpa only [mapState, EStateM.Result.error.injEq] using hsame
    | ok b n' => rw [hy] at hsame; cases hsame
  | ok a m' =>
    rw [hx] at hsame
    cases hy : y m with
    | error e' n' => rw [hy] at hsame; cases hsame
    | ok b n' =>
      rw [hy] at hsame
      simp only [mapState, EStateM.Result.ok.injEq] at hsame
      obtain ⟨rfl, herase⟩ := hsame
      show mapState _ ((f a >>= finish) m') = mapState _ (g a n')
      rw [Machine.eq_withScratch herase, (hg a).erase_withScratch]
      exact hfg a m' hx (hqf a m' hx)

theorem Mirror.erase_eq {x y : Eval α} (hxy : Mirror pure x y) {m : Machine} (hq : Quiet m (x m)) :
    mapState Machine.erase (x m) = mapState Machine.erase (y m) := by
  have hsame := hxy.same m hq
  rwa [bind_pure] at hsame

theorem Mirror.bind {x y : Eval γ} {f : γ → Eval α} {g : γ → Eval β} (hxy : Mirror pure x y)
    (hfg : ∀ c, Mirror finish (f c) (g c)) : Mirror finish (x >>= f) (y >>= g) where
  tame d := (hxy.tame d).bind fun c => (hfg c).tame d
  blind := hxy.blind.bind fun c => (hfg c).blind
  same _ := erase_bind (hxy.tame 0) (fun c => (hfg c).tame 0) (fun c => (hfg c).blind) hxy.erase_eq
    fun c m' _ => (hfg c).same m'

/-- Both sides look at the machine first, but not at its scratch part. -/
theorem Mirror.get_bind {f : Machine → Eval α} {g : Machine → Eval β} (hf : ∀ m, Mirror finish (f m) (g m))
    (hg : ∀ m s, g (withScratch m s) = g m) : Mirror finish (get >>= f) (get >>= g) := by
  refine ⟨fun d => ⟨fun m => ((hf m).tame d).collections m, fun m => ((hf m).tame d).roots m⟩,
    blind_get_bind hg fun m => (hf m).blind, fun m hq => (hf m).same m hq⟩

end Quiet

/-! ## A pass mirrors a level of the recursion -/

/-- What is left to do after a pass, in recursive terms. -/
def Step.finish (ev : Evaluator) : Step → Eval Word
  | .done value => pure value
  | .tail expr env => ev expr env

/-- A nested evaluation mirrors a recursive one and leaves the root stack as it was. -/
structure Follows (ev ref : Evaluator) : Prop where
  mirror : ∀ expr env, Mirror pure (ev expr env) (ref expr env)
  roots : ∀ expr env m, (final (ev expr env m)).heap.roots = m.heap.roots

section Pass

variable {ev ref : Evaluator} (hev : Follows ev ref)

include hev

theorem Follows.blind (expr env : Word) : Blind (ref expr env) := (hev.mirror expr env).blind

theorem Follows.tail (expr env : Word) : Mirror (Step.finish ref) (pure (.tail expr env)) (ref expr env) :=
  ⟨(blind_pure _).tame, hev.blind expr env, fun _ _ => rfl⟩

omit hev in
theorem mirror_done (value : Word) : Mirror (Step.finish ref) (pure (.done value)) (pure value) :=
  ⟨(blind_pure _).tame, blind_pure value, fun _ _ => rfl⟩

omit hev in
/-- A blind action whose value ends the pass. -/
theorem Blind.mirror_done {x : Eval Word} (hx : Blind x) :
    Mirror (Step.finish ref) (do return .done (← x)) x := by
  have h : Mirror (Step.finish ref) _ (x >>= pure) := (Mirror.of_blind hx).bind BoxedScheme.mirror_done
  rwa [bind_pure] at h

theorem mirror_evalBranch (args : List Word) (env : Word) :
    Mirror (Step.finish ref) (evalBranch ev args env) (Recursive.evalBranch ref args env) := by
  match args with
  | [_, _] => exact (hev.mirror _ _).bind fun _ => .ite (hev.tail _ _) (mirror_done _)
  | [_, _, _] => exact (hev.mirror _ _).bind fun _ => .ite (hev.tail _ _) (hev.tail _ _)
  | [] | [_] | _ :: _ :: _ :: _ :: _ => exact .raise _

theorem mirror_evalDefine (args : List Word) (operands env : Word) :
    Mirror (Step.finish ref) (evalDefine ev args operands env) (Recursive.evalDefine ref args operands env) := by
  cases args with
  | nil => exact .raise _
  | cons target more =>
    refine .ite ?_ (.ite ?_ (.raise _))
    · match more with
      | [_] => exact (hev.mirror _ _).bind fun _ => (Mirror.of_blind (blind_define _ _ _)).bind fun _ => mirror_done _
      | [] | _ :: _ :: _ => exact .raise _
    · exact (Mirror.of_blind (blind_defineProcedure _ _ _)).bind fun _ => mirror_done _

theorem mirror_evalConjunction (env : Word) (tests : List Word) :
    Mirror (Step.finish ref) (evalConjunction ev env tests) (Recursive.evalConjunction ref env tests) := by
  induction tests with
  | nil => exact mirror_done _
  | cons test tests ih =>
    cases tests with
    | nil => exact hev.tail _ _
    | cons next tests => exact (hev.mirror _ _).bind fun _ => .ite ih (mirror_done _)

theorem mirror_evalDisjunction (env : Word) (tests : List Word) :
    Mirror (Step.finish ref) (evalDisjunction ev env tests) (Recursive.evalDisjunction ref env tests) := by
  induction tests with
  | nil => exact mirror_done _
  | cons test tests ih =>
    cases tests with
    | nil => exact hev.tail _ _
    | cons next tests => exact (hev.mirror _ _).bind fun _ => .ite (mirror_done _) ih

theorem mirror_evalBind (args : List Word) (operands env : Word) :
    Mirror (Step.finish ref) (evalBind args operands env) (Recursive.evalBind ref args operands env) := by
  match args with
  | [] | [_] => exact .raise _
  | _ :: _ :: _ =>
    refine .ite (.ite (.raise _) ?_) ?_
    · exact (Mirror.of_blind (blind_clausesOf _ _)).bind fun _ => (Mirror.of_blind (blind_cdr _)).bind fun _ =>
        (Mirror.of_blind (blind_cdr _)).bind fun _ =>
          (Mirror.of_blind (blind_onHeap (blind_namedLetExpr _ _ _))).bind fun _ => hev.tail _ _
    · exact (Mirror.of_blind (blind_clausesOf _ _)).bind fun _ => (Mirror.of_blind (blind_cdr _)).bind fun _ =>
        (Mirror.of_blind (blind_onHeap (blind_letExpr _ _))).bind fun _ => hev.tail _ _

theorem mirror_evalBindInOrder (args : List Word) (operands env : Word) :
    Mirror (Step.finish ref) (evalBindInOrder args operands env)
      (Recursive.evalBindInOrder ref args operands env) := by
  match args with
  | [] | [_] => exact .raise _
  | _ :: _ :: _ =>
    exact (Mirror.of_blind (blind_clausesOf _ _)).bind fun _ => (Mirror.of_blind (blind_cdr _)).bind fun _ =>
      (Mirror.of_blind (blind_onHeap (blind_letStarExpr _ _))).bind fun _ => hev.tail _ _

omit hev in
theorem mirror_evalQuote (args : List Word) :
    Mirror (Step.finish ref) (evalQuote args) (Recursive.evalQuote args) := by
  match args with
  | [_] => exact mirror_done _
  | [] | _ :: _ :: _ => exact .raise _

omit hev in
theorem mirror_evalLambda (args : List Word) (operands env : Word) :
    Mirror (Step.finish ref) (evalLambda args operands env) (Recursive.evalLambda args operands env) := by
  match args with
  | _ :: _ :: _ => exact (Mirror.of_blind (blind_cdr _)).bind fun _ => (blind_makeLambda _ _ _).mirror_done
  | [] | [_] => exact .raise _

theorem mirror_evalForm (form : Form) (operands env : Word) :
    Mirror (Step.finish ref) (evalForm ev form operands env) (Recursive.evalForm ref form operands env) := by
  refine .get_bind (fun m => ?_) fun m s => ?_
  · cases m.heap.listItems operands form.name with
    | error _ => exact .raise _
    | ok items =>
      cases form with
      | quote => exact mirror_evalQuote _
      | branch => exact mirror_evalBranch hev _ _
      | define => exact mirror_evalDefine hev _ _ _
      | lambda => exact mirror_evalLambda _ _ _
      | bind => exact mirror_evalBind hev _ _ _
      | bindInOrder => exact mirror_evalBindInOrder hev _ _ _
      | conjunction => exact mirror_evalConjunction hev _ _
      | disjunction => exact mirror_evalDisjunction hev _ _
  · rw [Machine.heap_withScratch, Heap.listItems_withScratch]

/-! ### Texts -/

theorem mirror_runForms (limit : Nat) (r : Reader) (last : Word) :
    Mirror pure (runForms ev limit r last) (runForms ref limit r last) := by
  induction limit generalizing r last with
  | zero => exact .throw _
  | succ limit ih =>
    refine (Mirror.of_blind (blind_readDatum r)).bind fun found => .ite (.of_blind (blind_pure _)) ?_
    exact .get_bind (fun m => (hev.mirror _ _).bind fun _ => ih _ _) fun _ _ => rfl

theorem mirror_runText (source : String) : Mirror pure (runText ev source) (runText ref source) := by
  unfold runText
  cases Reader.ofSource source with
  | error e => exact .raise _
  | ok r => exact mirror_runForms hev _ _ _

theorem mirror_load (procedure : String) (path : Word) :
    Mirror pure (load ev procedure path) (load ref procedure path) := by
  refine .get_bind (fun m => (Mirror.of_blind (blind_ofExcept _)).bind fun path => ?_) fun _ _ => rfl
  cases m.files.read? path with
  | none => exact .throw _
  | some content =>
    cases content with
    | error reason => exact .raise _
    | ok source => exact (mirror_runText hev source).bind fun _ => .of_blind (blind_pure _)

/-! ### Application -/

omit hev in
theorem onHeap_pushRoot (w : Word) (m : Machine) :
    Eval.onHeap (Heap.pushRoot w) m = if m.heap.roots.size < m.heap.rootCapacity
      then .ok m.heap.roots.size (withScratch m ⟨m.heap.roots.push w, m.heap.stats, m.dispatches⟩)
      else .error (.error (.stackOverflow m.heap.rootCapacity)) m := by
  unfold Eval.onHeap Heap.pushRoot
  by_cases hlt : m.heap.roots.size < m.heap.rootCapacity
  · simp only [hlt, if_true]
    rfl
  · simp only [hlt, if_false]
    rfl

omit hev in
theorem tame_pushRoot (depth : Nat) (w : Word) : Tame depth (Eval.onHeap (Heap.pushRoot w)) := by
  refine ⟨fun m => ?_, fun m hm => ?_⟩
  · rw [onHeap_pushRoot]
    split <;> exact Nat.le_refl _
  · rw [onHeap_pushRoot]
    split
    · show (m.heap.roots.push w).toList.take depth = _
      rw [Array.toList_push, List.take_append_of_le_length (by rwa [Array.length_toList])]
    · rfl

omit hev in
/-- A root that is registered for the rest of the pass. -/
theorem Mirror.push {α β : Type} {finish : α → Eval β} {x : Nat → Eval α} {y : Eval β} (w : Word)
    (hxy : ∀ slot, Mirror finish (x slot) y) : Mirror finish (Eval.onHeap (Heap.pushRoot w) >>= x) y := by
  refine ⟨fun d => (tame_pushRoot d w).bind fun slot => (hxy slot).tame d, (hxy 0).blind, fun m hq => ?_⟩
  rw [bind_apply, onHeap_pushRoot] at hq
  rw [bind_assoc, bind_apply, onHeap_pushRoot]
  by_cases hlt : m.heap.roots.size < m.heap.rootCapacity
  · rw [if_pos hlt] at hq ⊢
    refine ((hxy _).same _ ⟨hq.collections, hq.overflow⟩).trans ?_
    exact (hxy 0).blind.erase_withScratch m _
  · rw [if_neg hlt] at hq
    cases hq.overflow

theorem mirror_evalBodyWith {env : Word} {again : Word → Eval Step} {again' : Word → Eval Word}
    (hagain : ∀ body, Mirror (Step.finish ref) (again body) (again' body)) (body : Word) :
    Mirror (Step.finish ref) (evalBodyWith ev env again body) (Recursive.evalBodyWith ref env again' body) :=
  (Mirror.of_blind (blind_car _)).bind fun _ => (Mirror.of_blind (blind_cdr _)).bind fun _ =>
    .ite (hev.tail _ _) ((hev.mirror _ _).bind fun _ => hagain _)

theorem mirror_evalBody (env : Word) (limit : Nat) (body : Word) :
    Mirror (Step.finish ref) (evalBody ev env limit body) (Recursive.evalBody ref env limit body) := by
  induction limit generalizing body with
  | zero => exact mirror_evalBodyWith hev (fun _ => .throw _) body
  | succ limit ih => exact mirror_evalBodyWith hev ih body

theorem mirror_enterClosure (closure args : Word) :
    Mirror (Step.finish ref) (enterClosure ev closure args) (Recursive.enterClosure ref closure args) := by
  refine (Mirror.of_blind (blind_inspect fun _ _ => rfl)).bind fun parts =>
    (Mirror.of_blind (blind_extend _ _ _)).bind fun env => .push _ fun _ => ?_
  exact .get_bind (fun m => mirror_evalBody hev _ _ _) fun _ _ => rfl

omit hev in
theorem mirror_notCallable (operator : Word) : Mirror (Step.finish ref) (notCallable operator) (notCallable operator) :=
  (Mirror.of_blind (blind_write _)).bind fun _ => .raise _

theorem mirror_applyWith {again : Word → Word → Eval Step} {again' : Word → Word → Eval Word}
    (hagain : ∀ operator args, Mirror (Step.finish ref) (again operator args) (again' operator args))
    (operator args : Word) :
    Mirror (Step.finish ref) (applyWith ev again operator args) (Recursive.applyWith ref again' operator args) := by
  unfold applyWith Recursive.applyWith
  cases operator.kind with
  | closure _ => exact mirror_enterClosure hev _ _
  | procedure id =>
    dsimp only
    generalize Operation.entry? id = entry
    match entry with
    | none | some ⟨.form _, _, _⟩ => exact mirror_notCallable _
    | some ⟨.primitive p, name, arity⟩ =>
      have hitems : Blind (Eval.inspect (·.listItems args name)) :=
        blind_inspect fun h s => h.listItems_withScratch s _ _
      refine (Mirror.of_blind hitems).bind fun argv => .ite (.raise _) ?_
      cases p with
      | apply => exact (Mirror.of_blind (blind_spreadArguments _)).bind fun _ => hagain _ _
      | load =>
        have h : Mirror (Step.finish ref) _ (load ref name (argv.getD 0 .unspecified) >>= pure) :=
          (mirror_load hev name _).bind mirror_done
        rwa [bind_pure] at h
      | _ => exact (blind_call _ _ _).mirror_done
  | _ => exact mirror_notCallable _

theorem mirror_applyValues (limit : Nat) (operator args : Word) :
    Mirror (Step.finish ref) (applyValues ev limit operator args) (Recursive.applyValues ref limit operator args) := by
  induction limit generalizing operator args with
  | zero => exact mirror_applyWith hev (fun _ _ => .throw _) operator args
  | succ limit ih => exact mirror_applyWith hev ih operator args

omit hev in
theorem tame_appendCell {depth slot : Nat} (hle : depth ≤ slot) (last cell : Word) :
    Tame depth (appendCell slot last cell) := by
  unfold appendCell
  split
  · refine ⟨fun m => Nat.le_refl _, fun m _ => ?_⟩
    show (m.heap.roots.setIfInBounds slot cell).toList.take depth = _
    rw [Array.toList_setIfInBounds, List.take_set_of_le hle]
  · exact (blind_onHeap (blind_setCdr last cell)).tame depth

theorem tame_evalOperandsWith {depth slot : Nat} (hle : depth ≤ slot) {env : Word} {again : Word → Word → Eval Unit}
    (hagain : ∀ last rest, Tame depth (again last rest)) (last rest : Word) :
    Tame depth (evalOperandsWith ev env slot again last rest) := by
  unfold evalOperandsWith
  split
  · refine ((blind_car rest).tame depth).bind fun expr => ((hev.mirror expr env).tame depth).bind fun value => ?_
    exact ((blind_evalCons _ _).tame depth).bind fun cell => (tame_appendCell hle last cell).bind fun _ =>
      ((blind_cdr rest).tame depth).bind fun rest => hagain cell rest
  · exact (Blind.ite (blind_pure _) (blind_raise _)).tame depth

/-- The operands of an application leave the roots below the slot of their list alone. -/
theorem tame_evalOperands {depth slot : Nat} (hle : depth ≤ slot) (env : Word) (limit : Nat) (last rest : Word) :
    Tame depth (evalOperands ev env slot limit last rest) := by
  induction limit generalizing last rest with
  | zero => exact tame_evalOperandsWith hev hle (fun _ _ => (blind_throw _).tame depth) last rest
  | succ limit ih => exact tame_evalOperandsWith hev hle ih last rest

/-- The top root is the one at `slot`, and holds `first`. -/
structure Holds (slot : Nat) (first : Word) (m : Machine) : Prop where
  size : m.heap.roots.size = slot + 1
  root : m.heap.root slot = first

omit hev in
theorem Holds.of_roots {slot : Nat} {first : Word} {m m' : Machine} (hm : Holds slot first m)
    (hroots : m'.heap.roots = m.heap.roots) : Holds slot first m' :=
  ⟨hroots ▸ hm.size, (congrArg (fun roots : Array Word => roots[slot]?.getD default) hroots).trans hm.root⟩

def readRoot (slot : Nat) (_ : Unit) : Eval Word := do return (← get).heap.root slot

/-- `x` builds a list whose first cell it keeps in the top root, at `slot`; `y` builds it from that cell on. -/
structure Builds (slot : Nat) (x : Eval Unit) (y : Word → Eval Word) : Prop where
  tame : Tame 0 x
  blind : ∀ first, Blind (y first)
  same : ∀ first m, Holds slot first m → Quiet m (x m) →
    mapState Machine.erase ((x >>= readRoot slot) m) = mapState Machine.erase (y first m)

omit hev in
theorem Builds.bind {slot : Nat} {γ : Type} {x y : Eval γ} {f : γ → Eval Unit} {g : γ → Word → Eval Word}
    (hxy : Mirror pure x y) (hroots : ∀ m, (final (x m)).heap.roots = m.heap.roots)
    (hfg : ∀ c, Builds slot (f c) (g c)) : Builds slot (x >>= f) (fun first => y >>= fun c => g c first) := by
  refine ⟨(hxy.tame 0).bind fun c => (hfg c).tame, fun first => hxy.blind.bind fun c => (hfg c).blind first, ?_⟩
  intro first m hm hq
  refine erase_bind (hxy.tame 0) (fun c => (hfg c).tame) (fun c => (hfg c).blind first) hxy.erase_eq ?_ hq
  intro c m' hx hq'
  have hroots' := hroots m
  rw [hx] at hroots'
  exact (hfg c).same first m' (hm.of_roots hroots') hq'

omit hev in
theorem Builds.bind_blind {slot : Nat} {γ : Type} {x : Eval γ} {f : γ → Eval Unit} {g : γ → Word → Eval Word}
    (hx : Blind x) (hfg : ∀ c, Builds slot (f c) (g c)) :
    Builds slot (x >>= f) (fun first => x >>= fun c => g c first) :=
  .bind (.of_blind hx) (fun m => congrArg Scratch.roots (hx.scratch_final m)) hfg

omit hev in
theorem Builds.throw (slot : Nat) (e : Stop) : Builds slot (throw e) (fun _ => throw e) :=
  ⟨(blind_throw e).tame 0, fun _ => blind_throw e, fun _ _ _ _ => rfl⟩

omit hev in
theorem Builds.done (slot : Nat) : Builds slot (pure ()) (fun first => pure first) :=
  ⟨(blind_pure _).tame 0, blind_pure, fun _ _ hm _ => hm.root ▸ rfl⟩

omit hev in
theorem Builds.ite {slot : Nat} {c : Prop} [Decidable c] {x x' : Eval Unit} {y y' : Word → Eval Word}
    (h : Builds slot x y) (h' : Builds slot x' y') :
    Builds slot (if c then x else x') (fun first => if c then y first else y' first) := by
  split
  · exact h
  · exact h'

omit hev in
theorem holds_setRoot {slot : Nat} {first : Word} {m : Machine} (hm : Holds slot first m) (cell : Word) :
    Holds slot cell (m.mapHeap (·.setRoot slot cell)) := by
  refine ⟨?_, ?_⟩
  · show (m.heap.roots.setIfInBounds slot cell).size = slot + 1
    rw [Array.size_setIfInBounds, hm.size]
  · show (m.heap.roots.setIfInBounds slot cell)[slot]?.getD default = cell
    rw [Array.getElem?_setIfInBounds_self_of_lt (by rw [hm.size]; exact Nat.lt_succ_self slot)]
    rfl

omit hev in
/-- Whichever way a cell is appended, the top root goes on to hold the first cell. -/
theorem Builds.append {slot : Nat} {last cell : Word} {x : Eval Unit} {y : Word → Eval Word}
    (hxy : Builds slot x y) : Builds slot (appendCell slot last cell >>= fun _ => x)
      (fun first => Recursive.appendCell first last cell >>= y) := by
  by_cases hnull : last.isNull
  · unfold appendCell Recursive.appendCell
    simp only [if_pos hnull, pure_bind]
    refine ⟨⟨fun m => hxy.tame.collections (m.mapHeap (·.setRoot slot cell)), fun _ _ => rfl⟩,
      fun _ => hxy.blind cell, fun first m hm hq => ?_⟩
    refine (hxy.same cell _ (holds_setRoot hm cell) ⟨hq.collections, hq.overflow⟩).trans ?_
    exact (hxy.blind cell).erase_withScratch m ⟨m.heap.roots.setIfInBounds slot cell, m.heap.stats, m.dispatches⟩
  · unfold appendCell Recursive.appendCell
    simp only [if_neg hnull, bind_assoc, pure_bind]
    exact .bind_blind (blind_onHeap (blind_setCdr last cell)) fun _ => hxy

theorem builds_evalOperandsWith {slot : Nat} {env : Word} {again : Word → Word → Eval Unit}
    {again' : Word → Word → Word → Eval Word}
    (hagain : ∀ last rest, Builds slot (again last rest) (again' · last rest)) (last rest : Word) :
    Builds slot (evalOperandsWith ev env slot again last rest)
      (Recursive.evalOperandsWith ref env again' · last rest) := by
  refine .ite ?_ (.ite (.done slot) (.throw slot _))
  refine .bind_blind (blind_car rest) fun expr => .bind (hev.mirror expr env) (hev.roots expr env) fun value => ?_
  exact .bind_blind (blind_evalCons _ _) fun cell => .append (.bind_blind (blind_cdr rest) fun rest => hagain cell rest)

theorem builds_evalOperands (slot : Nat) (env : Word) (limit : Nat) (last rest : Word) :
    Builds slot (evalOperands ev env slot limit last rest) (Recursive.evalOperands ref env limit · last rest) := by
  induction limit generalizing last rest with
  | zero => exact builds_evalOperandsWith hev (fun _ _ => .throw slot _) last rest
  | succ limit ih => exact builds_evalOperandsWith hev ih last rest

omit hev in
theorem operandValues_apply (operands env : Word) (m : Machine) :
    operandValues ev operands env m = if m.heap.roots.size < m.heap.rootCapacity
      then (evalOperands ev env m.heap.roots.size m.heap.cells.capacity .nil operands >>= readRoot m.heap.roots.size)
        (withScratch m ⟨m.heap.roots.push .nil, m.heap.stats, m.dispatches⟩)
      else .error (.error (.stackOverflow m.heap.rootCapacity)) m := by
  unfold operandValues
  rw [bind_apply, onHeap_pushRoot]
  by_cases hlt : m.heap.roots.size < m.heap.rootCapacity
  · rw [if_pos hlt, if_pos hlt]
    rfl
  · rw [if_neg hlt, if_neg hlt]

omit hev in
theorem holds_push (m : Machine) (first : Word) :
    Holds m.heap.roots.size first (withScratch m ⟨m.heap.roots.push first, m.heap.stats, m.dispatches⟩) := by
  refine ⟨?_, ?_⟩
  · exact Array.size_push _
  · show (m.heap.roots.push first)[m.heap.roots.size]?.getD default = first
    rw [Array.getElem?_push_size]
    rfl

theorem tame_operandValues (depth : Nat) (operands env : Word) : Tame depth (operandValues ev operands env) := by
  have htame {d slot : Nat} (hle : d ≤ slot) (limit : Nat) :
      Tame d (evalOperands ev env slot limit .nil operands >>= readRoot slot) :=
    (tame_evalOperands hev hle env limit .nil operands).bind fun _ => ⟨fun _ => Nat.le_refl _, fun _ _ => rfl⟩
  refine ⟨fun m => ?_, fun m hm => ?_⟩
  · rw [operandValues_apply]
    split
    · exact (htame (Nat.zero_le _) _).collections (withScratch m ⟨m.heap.roots.push .nil, m.heap.stats, m.dispatches⟩)
    · exact Nat.le_refl _
  · rw [operandValues_apply]
    split
    · refine ((htame hm _).roots _ ?_).trans ?_
      · exact Nat.le_trans hm (by rw [(holds_push m .nil).size]; exact Nat.le_succ _)
      · show (m.heap.roots.push .nil).toList.take depth = _
        rw [Array.toList_push, List.take_append_of_le_length (by rwa [Array.length_toList])]
    · rfl

/-- The list of the operands' values. -/
theorem mirror_operandValues (operands env : Word) :
    Mirror pure (operandValues ev operands env)
      (do Recursive.evalOperands ref env (← get).heap.cells.capacity .nil .nil operands) := by
  have hbuilds (slot limit : Nat) := builds_evalOperands hev slot env limit .nil operands
  refine ⟨fun d => tame_operandValues hev d operands env,
    blind_get_bind (fun _ _ => rfl) fun m => (hbuilds 0 _).blind .nil, fun m hq => ?_⟩
  rw [operandValues_apply] at hq
  rw [bind_pure, operandValues_apply]
  by_cases hlt : m.heap.roots.size < m.heap.rootCapacity
  · rw [if_pos hlt] at hq ⊢
    obtain ⟨hq', -⟩ := Quiet.of_bind (hbuilds _ _).tame (fun _ => ⟨fun _ => Nat.le_refl _, fun _ _ => rfl⟩)
      (m := withScratch m _) ⟨hq.collections, hq.overflow⟩
    refine ((hbuilds _ _).same .nil _ (holds_push m .nil) hq').trans ?_
    exact ((hbuilds 0 _).blind .nil).erase_withScratch m _
  · rw [if_neg hlt] at hq
    cases hq.overflow

theorem mirror_evalApplication (limit : Nat) (head operands env : Word) :
    Mirror (Step.finish ref) (evalApplication ev limit head operands env)
      (Recursive.evalApplication ref limit head operands env) := by
  refine (hev.mirror head env).bind fun operator => .push operator fun _ => ?_
  have h := (mirror_operandValues hev operands env).bind fun args => mirror_applyValues hev limit operator args
  rwa [bind_assoc] at h

theorem mirror_step (limit : Nat) (expr env : Word) :
    Mirror (Step.finish ref) (step ev limit expr env) (Recursive.evalWith ref limit expr env) := by
  refine .ite (.raise _) (.ite (blind_lookup env expr).mirror_done (.ite ?_ (mirror_done expr)))
  refine (Mirror.of_blind (blind_car expr)).bind fun head => (Mirror.of_blind (blind_cdr expr)).bind fun operands => ?_
  cases Operation.formOf? head with
  | some form => exact mirror_evalForm hev form operands env
  | none => exact mirror_evalApplication hev limit head operands env

end Pass

/-! ## Passes -/

theorem collections_maybeCollect (m : Machine) : m.collections ≤ (maybeCollect m).collections := by
  unfold maybeCollect
  split
  · exact Nat.le_succ _
  · exact Nat.le_refl _

/-- Where it does not collect, the start of a pass changes the scratch part only. -/
theorem maybeCollect_eq_withScratch {m : Machine} (h : (maybeCollect m).collections = m.collections) :
    maybeCollect m = withScratch m ⟨m.heap.roots, m.heap.stats, m.dispatches + 1⟩ := by
  unfold maybeCollect at h ⊢
  split at h
  case isTrue => exact absurd h (Nat.succ_ne_self _)
  case isFalse hc =>
    rw [if_neg hc]
    rfl

theorem roots_maybeCollect (m : Machine) : (maybeCollect m).heap.roots = m.heap.roots := by
  unfold maybeCollect
  split <;> rfl

/-- Where it does not collect, the start of a pass changes the scratch part only. -/
theorem beginPass_eq_withScratch {slot : Nat} {m : Machine} (h : (beginPass slot m).collections = m.collections) :
    ∃ s, beginPass slot m = withScratch m s := by
  have hm : (m.mapHeap (·.truncateRoots (slot + 2))).collections = m.collections := rfl
  exact ⟨_, maybeCollect_eq_withScratch (h.trans hm.symm)⟩

theorem tame_beginPass {depth slot : Nat} (hle : depth ≤ slot) : Tame depth (modify (beginPass slot) : Eval PUnit) := by
  refine ⟨fun m => collections_maybeCollect (m.mapHeap (·.truncateRoots (slot + 2))), fun m _ => ?_⟩
  show (maybeCollect (m.mapHeap (·.truncateRoots (slot + 2)))).heap.roots.toList.take depth = _
  rw [roots_maybeCollect]
  show (m.heap.truncateRoots (slot + 2)).roots.toList.take depth = _
  rw [Heap.toList_truncateRoots, List.take_take, Nat.min_eq_left (by omega)]

theorem tame_handOver {depth slot : Nat} (hle : depth ≤ slot) (expr env : Word) :
    Tame depth (modify (handOver slot expr env) : Eval PUnit) := by
  refine ⟨fun m => Nat.le_refl _, fun m _ => ?_⟩
  show ((m.heap.roots.setIfInBounds slot expr).setIfInBounds (slot + 1) env).toList.take depth = _
  rw [Array.toList_setIfInBounds, Array.toList_setIfInBounds, List.take_set_of_le (by omega), List.take_set_of_le hle]

/-- Passes over the expression at `slot` mirror its recursive evaluation. -/
structure PassesMirror (slot : Nat) (x y : Eval Word) : Prop where
  tame : ∀ depth ≤ slot, Tame depth x
  blind : Blind y
  same : ∀ m, Quiet m (x m) → mapState Machine.erase (x m) = mapState Machine.erase (y m)

def nextPass (budget slot : Nat) : Step → Eval Word
  | .done value => pure value
  | .tail expr env => do
    modify (handOver slot expr env)
    passes budget slot expr env

theorem passes_succ_apply (budget slot : Nat) (expr env : Word) (m : Machine) :
    passes (budget + 1) slot expr env m =
      (step (enter (passes budget)) budget expr env >>= nextPass budget slot) (beginPass slot m) := by
  show (modify (beginPass slot) >>= fun _ => step (enter (passes budget)) budget expr env >>= _) m = _
  rfl

theorem tame_next {budget slot depth : Nat} (hle : depth ≤ slot)
    (hpasses : ∀ expr env, PassesMirror slot (passes budget slot expr env) (Recursive.eval budget expr env))
    (s : Step) : Tame depth (nextPass budget slot s) := by
  cases s with
  | done value => exact (blind_pure value).tame depth
  | tail expr env => exact (tame_handOver hle expr env).bind fun _ => (hpasses expr env).tame depth hle

/-- The passes that follow mirror what is left of the recursion. -/
theorem nextPass_same {budget slot : Nat}
    (hpasses : ∀ expr env, PassesMirror slot (passes budget slot expr env) (Recursive.eval budget expr env))
    (s : Step) {m : Machine} (hq : Quiet m (nextPass budget slot s m)) :
    mapState Machine.erase (nextPass budget slot s m) =
      mapState Machine.erase (s.finish (Recursive.eval budget) m) := by
  cases s with
  | done value => rfl
  | tail expr env =>
    refine ((hpasses expr env).same _ ⟨hq.collections, hq.overflow⟩).trans ?_
    exact (hpasses expr env).blind.erase_withScratch m
      ⟨(m.heap.roots.setIfInBounds slot expr).setIfInBounds (slot + 1) env, m.heap.stats, m.dispatches⟩

theorem passesMirror_succ {budget slot : Nat}
    (hev : Follows (enter (passes budget)) (Recursive.eval budget))
    (hpasses : ∀ expr env, PassesMirror slot (passes budget slot expr env) (Recursive.eval budget expr env))
    (expr env : Word) :
    PassesMirror slot (passes (budget + 1) slot expr env) (Recursive.eval (budget + 1) expr env) := by
  have hstep := mirror_step hev budget expr env
  have hrest (depth : Nat) (hle : depth ≤ slot) :
      Tame depth (step (enter (passes budget)) budget expr env >>= nextPass budget slot) :=
    (hstep.tame depth).bind (tame_next hle hpasses)
  refine ⟨fun d hle => (tame_beginPass hle).bind fun _ => hrest d hle, hstep.blind, fun m hq => ?_⟩
  obtain ⟨hstart, hafter⟩ := hq.of_bind (tame_beginPass (Nat.zero_le slot)) fun _ => hrest 0 (Nat.zero_le slot)
  replace hafter := hafter () _ rfl
  obtain ⟨hqs, hqn⟩ := hafter.of_bind (hstep.tame 0) (tame_next (Nat.zero_le slot) hpasses)
  -- A quiet pass starts on the machine of before, but for the scratch part.
  obtain ⟨s, hs⟩ := beginPass_eq_withScratch hstart.collections
  have hlevel := (hstep.same _ hqs).trans (hs ▸ hstep.blind.erase_withScratch m s)
  refine Eq.trans ?_ hlevel
  rw [passes_succ_apply, bind_apply, bind_apply]
  cases hstep' : step (enter (passes budget)) budget expr env (beginPass slot m) with
  | error e m' => rfl
  | ok s m' => exact nextPass_same hpasses s (hqn s m' hstep')

theorem onHeap_pushRoots (v w : Word) (m : Machine) :
    Eval.onHeap (Heap.pushRoots v w) m = if m.heap.roots.size + 1 < m.heap.rootCapacity
      then .ok m.heap.roots.size (withScratch m ⟨(m.heap.roots.push v).push w, m.heap.stats, m.dispatches⟩)
      else .error (.error (.stackOverflow m.heap.rootCapacity)) m := by
  unfold Eval.onHeap Heap.pushRoots
  by_cases hlt : m.heap.roots.size + 1 < m.heap.rootCapacity
  · simp only [hlt, if_true]
    rfl
  · simp only [hlt, if_false]
    rfl

theorem inRootScope_apply {α : Type} (x : Eval α) (m : Machine) :
    Eval.inRootScope x m = mapState (·.mapHeap (·.truncateRoots m.heap.roots.size)) (x m) := by
  unfold Eval.inRootScope
  cases x m <;> rfl

/-- Entering an evaluation registers two roots and drops them in the end. -/
theorem enter_apply (run : Nat → Word → Word → Eval Word) (expr env : Word) (m : Machine) :
    enter run expr env m = if m.heap.roots.size + 1 < m.heap.rootCapacity
      then mapState (·.mapHeap (·.truncateRoots m.heap.roots.size)) (run m.heap.roots.size expr env
        (withScratch m ⟨(m.heap.roots.push expr).push env, m.heap.stats, m.dispatches⟩))
      else .error (.error (.stackOverflow m.heap.rootCapacity)) (m.mapHeap (·.truncateRoots m.heap.roots.size)) := by
  unfold enter
  rw [inRootScope_apply, bind_apply, onHeap_pushRoots]
  by_cases hlt : m.heap.roots.size + 1 < m.heap.rootCapacity
  · rw [if_pos hlt, if_pos hlt]
  · rw [if_neg hlt, if_neg hlt]
    rfl

section Enter

variable {run : Nat → Word → Word → Eval Word} {ref : Evaluator}
  (hrun : ∀ slot expr env, PassesMirror slot (run slot expr env) (ref expr env))

include hrun

theorem roots_enter (expr env : Word) (m : Machine) : (final (enter run expr env m)).heap.roots = m.heap.roots := by
  rw [enter_apply]
  split
  · have hkeep := ((hrun m.heap.roots.size expr env).tame _ (Nat.le_refl _)).roots
      (withScratch m ⟨(m.heap.roots.push expr).push env, m.heap.stats, m.dispatches⟩) (by
        show m.heap.roots.size ≤ ((m.heap.roots.push expr).push env).size
        simp only [Array.size_push]
        omega)
    replace hkeep := hkeep.trans (Heap.take_push_push m.heap.roots expr env)
    cases hr : run m.heap.roots.size expr env (withScratch m _) with
    | ok a m' => rw [hr] at hkeep; exact Heap.roots_truncateRoots hkeep
    | error e m' => rw [hr] at hkeep; exact Heap.roots_truncateRoots hkeep
  · exact Heap.roots_truncateRoots (List.take_of_length_le (by simp))

theorem collections_enter (expr env : Word) (m : Machine) :
    m.collections ≤ (final (enter run expr env m)).collections := by
  rw [enter_apply]
  split
  · have hmono := ((hrun m.heap.roots.size expr env).tame 0 (Nat.zero_le _)).collections
      (withScratch m ⟨(m.heap.roots.push expr).push env, m.heap.stats, m.dispatches⟩)
    cases hr : run m.heap.roots.size expr env (withScratch m _) with
    | ok a m' => rw [hr] at hmono; exact hmono
    | error e m' => rw [hr] at hmono; exact hmono
  · exact Nat.le_refl _

theorem enter_same (expr env : Word) {m : Machine} (hq : Quiet m (enter run expr env m)) :
    mapState Machine.erase (enter run expr env m) = mapState Machine.erase (ref expr env m) := by
  rw [enter_apply] at hq ⊢
  by_cases hlt : m.heap.roots.size + 1 < m.heap.rootCapacity
  · rw [if_pos hlt] at hq ⊢
    have hrun' := hrun m.heap.roots.size expr env
    have hblind := hrun'.blind.erase_withScratch m ⟨(m.heap.roots.push expr).push env, m.heap.stats, m.dispatches⟩
    refine Eq.trans ?_ ((hrun'.same _ ?_).trans hblind)
    · cases run m.heap.roots.size expr env (withScratch m _) <;> rfl
    · cases hr : run m.heap.roots.size expr env (withScratch m _) with
      | ok a m' =>
        rw [hr] at hq
        exact ⟨hq.collections, rfl⟩
      | error e m' =>
        rw [hr] at hq
        exact ⟨hq.collections, hq.overflow⟩
  · rw [if_neg hlt] at hq
    cases hq.overflow

theorem follows_enter : Follows (enter run) ref := by
  refine ⟨fun expr env => ⟨fun d => ⟨collections_enter hrun expr env, fun m _ => ?_⟩, (hrun 0 expr env).blind,
    fun m hq => ?_⟩, roots_enter hrun⟩
  · rw [roots_enter hrun]
  · rw [bind_pure]
    exact enter_same hrun expr env hq

end Enter

/-- Passes with a budget mirror the recursion of that depth. -/
theorem passesMirror (budget slot : Nat) (expr env : Word) :
    PassesMirror slot (passes budget slot expr env) (Recursive.eval budget expr env) := by
  induction budget generalizing slot expr env with
  | zero => exact ⟨fun d _ => (blind_throw _).tame d, blind_throw _, fun _ _ => rfl⟩
  | succ budget ih => exact passesMirror_succ (follows_enter ih) (ih slot) expr env

/-! ## Outcomes -/

structure Outcome where
  result : Except Stop Word
  /-- The machine without its scratch part. -/
  machine : Machine

def outcome? : EStateM.Result Stop Machine Word → Option Outcome
  | .ok value m => some ⟨.ok value, m.erase⟩
  | .error .unfinished _ => none
  | .error stop m => some ⟨.error stop, m.erase⟩

/-- An evaluation, given by what it does with each budget, finishes on `m` with an outcome. -/
def Finishes (ev : Nat → Eval Word) (m : Machine) (outcome : Outcome) : Prop :=
  ∃ budget, outcome? (ev budget m) = some outcome

theorem outcome?_congr {r r' : EStateM.Result Stop Machine Word}
    (h : mapState Machine.erase r = mapState Machine.erase r') : outcome? r = outcome? r' := by
  cases r with
  | ok value m =>
    cases r' with
    | ok value' m' =>
      simp only [mapState, EStateM.Result.ok.injEq] at h
      simp only [outcome?, h.1, h.2]
    | error stop' m' => cases h
  | error stop m =>
    cases r' with
    | ok value' m' => cases h
    | error stop' m' =>
      simp only [mapState, EStateM.Result.error.injEq] at h
      obtain ⟨rfl, hm⟩ := h
      cases stop <;> simp only [outcome?, hm]

/-- Where an evaluation neither collects nor runs out of roots, however far it is followed, it finishes with an
outcome exactly if plain recursion does. -/
theorem eval_recursive_iff (m : Machine) (expr env : Word) (hquiet : ∀ budget, Quiet m (eval budget expr env m))
    (outcome : Outcome) :
    Finishes (eval · expr env) m outcome ↔ Finishes (Recursive.eval · expr env) m outcome := by
  have hsame (budget : Nat) : outcome? (eval budget expr env m) = outcome? (Recursive.eval budget expr env m) :=
    outcome?_congr (enter_same (passesMirror budget) expr env (hquiet budget))
  simp only [Finishes, hsame]

/-- A machine that holds the expression `((lambda (x) x) #t)` in cell 0 and an environment in cell 6. -/
def identityMachine : Machine where
  heap :=
    { cells := ((((((Pool.fresh 20).fill 0 ⟨.pair 1, .pair 5⟩).fill 1 ⟨.symbol 6, .pair 2⟩).fill 2
        ⟨.pair 3, .pair 4⟩).fill 3 ⟨.symbol 64, .nil⟩).fill 4 ⟨.symbol 64, .nil⟩ |>.fill 5 ⟨.true, .nil⟩).fill 6
        ⟨.nil, .nil⟩
      strings := .fresh 0
      roots := #[]
      rootCapacity := 20
      stats := {} }
  symbols := {}
  globalEnv := .pair 6
  config := { collectEvery := 0, lowWater := 0 }
  terminal := .capturing

/-- The evaluation of the expression takes two passes in a row; with a smaller budget it is cut off. -/
theorem quiet_identity (budget : Nat) : Quiet identityMachine (eval budget (.pair 0) (.pair 6) identityMachine) := by
  match budget with
  | 0 | 1 => exact ⟨by cbv, by cbv⟩
  | n + 2 => exact ⟨by cbv, by cbv⟩

/-- Both evaluators find that the expression means true. -/
theorem eval_recursive_iff_identity :
    (∀ budget, Quiet identityMachine (eval budget (.pair 0) (.pair 6) identityMachine)) ∧
      ∃ outcome, outcome.result = .ok .true ∧
        Finishes (Recursive.eval · (.pair 0) (.pair 6)) identityMachine outcome ∧
        Finishes (eval · (.pair 0) (.pair 6)) identityMachine outcome := by
  have hresult : (outcome? (Recursive.eval 2 (.pair 0) (.pair 6) identityMachine)).map (·.result) =
      some (.ok .true) := by cbv
  obtain ⟨outcome, houtcome, hvalue⟩ := Option.map_eq_some_iff.1 hresult
  have hfinishes : Finishes (Recursive.eval · (.pair 0) (.pair 6)) identityMachine outcome := ⟨2, houtcome⟩
  exact ⟨quiet_identity, outcome, hvalue, hfinishes,
    (eval_recursive_iff identityMachine (.pair 0) (.pair 6) quiet_identity outcome).2 hfinishes⟩

end BoxedScheme
