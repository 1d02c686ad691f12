import BoxedScheme.Proofs.Actions

/-!
# The supervised evaluator

The evaluator once more, with the same actions in the same order, under a policy that is asked at every turn: before
an action is taken, when a pass starts, before a collection, when an evaluation has its value, when a root slot or an
argument is used, and once a procedure was called. The policy sees the machine, what is being done, and everything that
the evaluations under way have in hand, each word with the role it plays there.

* `Hand`, `Deed`, `Moment` : what a policy sees;
* `check`, `act` : asking the policy, and an action before which it is asked;
* `passes`, `eval`, `runSource` : supervised evaluation;
* `runAll` : programs run one after another on one machine.

A closure that `apply` enters is held by the argument list of `apply`, which no program can change. When that
`apply` was itself called by `apply`, the argument list belongs to the program, and nothing else holds the
closure. The rest of such a body is therefore not among the held words of a hand, but lent.
-/

namespace BoxedScheme

/-! ## Programs one after another -/

/-- A text with the budget for its evaluation and the files it can load. -/
structure Program where
  source : String
  budget : Nat
  files : Files

def outcomeOf : EStateM.Result Stop Machine Word → Except Stop Word × Machine
  | .ok value m => (.ok value, m)
  | .error reason m => (.error reason, m)

/-- Runs programs one after another on one machine, each whatever became of those before. -/
def runAll : List Program → Machine → List (Except Stop Word) × Machine
  | [], m => ([], m)
  | p :: programs, m =>
    let (outcome, m) := outcomeOf (runSource p.budget p.source { m with files := p.files })
    let (outcomes, m) := runAll programs m
    (outcome :: outcomes, m)

/-! ## Policies -/

/-- The words that the evaluations under way have, with their roles. -/
structure Hand where
  /-- Words that an evaluation will look at. -/
  held : List (Role × Word) := []
  /-- What is left of bodies that were entered through two or more calls of `apply`. -/
  lent : List Word := []
  /-- Words that no evaluation will look at any more. -/
  idle : List (Role × Word) := []

namespace Hand

def words (hand : Hand) : List (Role × Word) := hand.held ++ hand.lent.map (.operands .exprs, ·) ++ hand.idle

def hold (hand : Hand) (r : Role) (w : Word) : Hand := { hand with held := (r, w) :: hand.held }

def holdAll (hand : Hand) (r : Role) (words : List Word) : Hand := { hand with held := words.map (r, ·) ++ hand.held }

def leave (hand : Hand) (r : Role) (w : Word) : Hand := { hand with idle := (r, w) :: hand.idle }

def leaveAll (hand : Hand) (r : Role) (words : List Word) : Hand := { hand with idle := words.map (r, ·) ++ hand.idle }

/-- The rest of a body that was entered through `through` calls of `apply`. -/
def holdBody (hand : Hand) (through : Nat) (rest : Word) : Hand :=
  if through < 2 then hand.hold (.operands .exprs) rest else { hand with lent := rest :: hand.lent }

end Hand

inductive Deed where
  /-- Words in hand are looked at. -/
  | look
  /-- A root slot is read or written. -/
  | slot (position : Nat)
  /-- The roots from a position on are dropped. -/
  | drop (depth : Nat)
  /-- A collection happens, if it is due. -/
  | collect
  /-- An argument is taken out of `count` arguments. -/
  | argument (position count : Nat)
  /-- The first of so many tokens is taken. -/
  | token (count : Nat)
  /-- A procedure was called in the given state. -/
  | called (p : Primitive) (before : Machine)

structure Moment where
  hand : Hand
  deed : Deed
  machine : Machine

abbrev Policy := Moment → Prop

namespace Supervised

/-- How a supervised evaluation ends without a value. -/
inductive Halt where
  /-- The evaluation itself stops. -/
  | stop (reason : Stop)
  /-- The policy does not allow what is being done. -/
  | breach (moment : Moment)

abbrev Run := EStateM Halt Machine

/-- How nested expressions are evaluated: what is in hand meanwhile, an expression, and an environment. -/
abbrev Evaluator := Hand → Word → Word → Run Word

variable (P : Policy)

/-! ## Checks -/

section Checks

variable {α : Type}

/-- The outcome of an action that is not supervised. -/
def embed : EStateM.Result Stop Machine α → EStateM.Result Halt Machine α
  | .ok a m => .ok a m
  | .error reason m => .error (.stop reason) m

def plain (x : Eval α) : Run α := fun m => embed (x m)

open Classical in
noncomputable def check (hand : Hand) (deed : Deed) : Run Unit := fun m =>
  if P ⟨hand, deed, m⟩ then .ok () m else .error (.breach ⟨hand, deed, m⟩) m

/-- An action with the given words in hand. -/
noncomputable def act (hand : Hand) (x : Eval α) : Run α := do
  check P hand .look
  plain x

end Checks

/-! ## Special forms -/

noncomputable def evalBranch (ev : Evaluator) (hand : Hand) (args : List Word) (env : Word) : Run Step := do
  match args with
  | [test, consequent] =>
    if (← ev (hand.hold .expr consequent) test env).isTruthy then return .tail consequent env
    else return .done .unspecified
  | [test, consequent, alternative] =>
    if (← ev ((hand.hold .expr alternative).hold .expr consequent) test env).isTruthy then return .tail consequent env
    else return .tail alternative env
  | _ => plain (badSyntax .branch (.branchOperands args.length))

noncomputable def evalDefine (ev : Evaluator) (hand : Hand) (args : List Word) (operands env : Word) : Run Step := do
  match args with
  | [] => plain (badSyntax .define .missingName)
  | target :: more =>
    let hand := hand.hold .inert target
    if target.isSymbol then
      match more with
      | [expr] =>
        let value ← ev hand expr env
        act P (hand.hold .data value) (define env target value)
        return .done .unspecified
      | _ => plain (badSyntax .define .nameAndExpression)
    else if target.isPair then
      act P hand (defineProcedure target operands env)
      return .done .unspecified
    else plain (badSyntax .define .badTarget)

noncomputable def evalConjunction (ev : Evaluator) (hand : Hand) (env : Word) : List Word → Run Step
  | [] => return .done .true
  | [last] => return .tail last env
  | test :: tests => do
    if (← ev (hand.holdAll .expr tests) test env).isTruthy then evalConjunction ev hand env tests
    else return .done .false

noncomputable def evalDisjunction (ev : Evaluator) (hand : Hand) (env : Word) : List Word → Run Step
  | [] => return .done .false
  | [last] => return .tail last env
  | test :: tests => do
    let value ← ev (hand.holdAll .expr tests) test env
    if value.isTruthy then return .done value else evalDisjunction ev hand env tests

noncomputable def evalForm (ev : Evaluator) (hand : Hand) (form : Form) (operands env : Word) : Run Step := do
  check P hand .look
  match (← get).heap.listItems operands form.name with
  | .error _ => plain (badSyntax form .improperOperands)
  | .ok items =>
    let args := items.toList
    match form with
    | .quote => act P hand (evalQuote args)
    | .branch => evalBranch ev hand args env
    | .define => evalDefine P ev hand args operands env
    | .lambda => act P hand (evalLambda args operands env)
    | .bind => act P hand (evalBind args operands env)
    | .bindInOrder => act P hand (evalBindInOrder args operands env)
    | .conjunction => evalConjunction ev hand env args
    | .disjunction => evalDisjunction ev hand env args

/-! ## Texts -/

/-- While a form is evaluated, the value of the form before it is still there, but of no use. -/
noncomputable def runForms (ev : Evaluator) (hand : Hand) : Nat → Reader → Word → Run Word
  | 0, _, _ => throw (.stop .unfinished)
  | limit + 1, r, last => do
    check P (hand.leave .data last) (.token r.pending.length)
    let (datum, r) ← plain (Eval.readDatum r)
    if datum.isEof then return last
    else runForms ev hand limit r (← ev (hand.leave .data last) datum (← get).globalEnv)

noncomputable def runText (ev : Evaluator) (hand : Hand) (source : String) : Run Word := do
  match Reader.ofSource source with
  | .error e => plain (Eval.raise (.read e))
  | .ok r => runForms P ev hand (r.pending.length + 1) r .unspecified

noncomputable def load (ev : Evaluator) (hand : Hand) (procedure : String) (path : Word) : Run Word := do
  let m ← get
  let path ← act P (hand.hold .data path) (Eval.ofExcept (Argument.text m.heap procedure path))
  match m.files.read? path with
  | none => throw (.stop (.needsFile path))
  | some (.error reason) => plain (Eval.raise (.unreadable path reason))
  | some (.ok source) =>
    let _ ← runText P ev hand source
    return .unspecified

/-! ## Application -/

/-- Until an operand's value is there, the operands that are left, the operator and the values so far are held. -/
noncomputable def evalOperandsWith (ev : Evaluator) (hand : Hand) (env operator : Word) (slot : Nat)
    (again : Word → Word → Run Unit) (last rest : Word) : Run Unit := do
  if rest.isPair then
    let list := (← get).heap.root slot
    let hand := (((hand.hold .data last).hold .data list).hold .data operator).hold (.operands .exprs) rest
    let expr ← act P hand (Eval.car rest)
    let value ← ev hand expr env
    let cell ← act P (hand.hold .data value) (Eval.cons value .nil)
    check P (hand.hold .data cell) (.slot slot)
    plain (appendCell slot last cell)
    again cell (← act P (hand.hold .data cell) (Eval.cdr rest))
  else if rest.isNull then return ()
  else plain (Eval.raise (.badSyntax "application" .improperOperands))

noncomputable def evalOperands (ev : Evaluator) (hand : Hand) (env operator : Word) (slot : Nat) :
    Nat → Word → Word → Run Unit
  | 0 => evalOperandsWith P ev hand env operator slot fun _ _ => throw (.stop .unfinished)
  | limit + 1 => evalOperandsWith P ev hand env operator slot (evalOperands ev hand env operator slot limit)

noncomputable def operandValues (ev : Evaluator) (hand : Hand) (operator operands env : Word) : Run Word := do
  let slot ← act P (hand.hold .data operator) (Eval.onHeap (Heap.pushRoot .nil))
  let capacity := (← get).heap.cells.capacity
  evalOperands P ev hand env operator slot capacity .nil operands
  check P (hand.hold .data operator) (.slot slot)
  return (← get).heap.root slot

/-- While an expression of a body is evaluated, the others behind it and the environment are held. -/
noncomputable def evalBodyWith (ev : Evaluator) (hand : Hand) (env : Word) (through : Nat) (again : Word → Run Step)
    (body : Word) : Run Step := do
  let hand := hand.hold .env env
  let expr ← act P (hand.hold (.operands .exprs) body) (Eval.car body)
  let rest ← act P (hand.hold (.operands .exprs) body) (Eval.cdr body)
  if !rest.isPair then return .tail expr env
  else
    let _ ← ev (hand.holdBody through rest) expr env
    again rest

noncomputable def evalBody (ev : Evaluator) (hand : Hand) (env : Word) (through : Nat) : Nat → Word → Run Step
  | 0 => evalBodyWith P ev hand env through fun _ => throw (.stop .unfinished)
  | limit + 1 => evalBodyWith P ev hand env through (evalBody ev hand env through limit)

/-- Once the parameters are bound, neither the closure nor the argument list is looked at any more. -/
noncomputable def enterClosure (ev : Evaluator) (hand : Hand) (through : Nat) (closure args : Word) : Run Step := do
  let called := (hand.hold .data args).hold .data closure
  let parts ← act P called (Eval.inspect (·.closureParts closure))
  let code := (called.hold (.operands .exprs) parts.body).hold .inert parts.params
  let env ← act P (code.hold .env parts.env) (extend parts.env parts.params args)
  let _ ← act P (code.hold .env env) (Eval.onHeap (Heap.pushRoot env))
  let capacity := (← get).heap.cells.capacity
  evalBody P ev ((hand.leave .data args).leave .data closure) env through capacity parts.body

/-- The operator and its arguments come through `through` calls of `apply`. -/
noncomputable def applyWith (ev : Evaluator) (hand : Hand) (through : Nat) (again : Word → Word → Run Step)
    (operator args : Word) : Run Step := do
  let called := (hand.hold .data args).hold .data operator
  match operator.kind with
  | .procedure id =>
    match Operation.entry? id with
    | some ⟨.primitive p, name, arity⟩ =>
      let argv ← act P called (Eval.inspect (·.listItems args name))
      if !arity.accepts argv.size then
        plain (Eval.raise (.arityMismatch name arity argv.size))
      else
        let given := called.holdAll .data argv.toList
        match p with
        | .apply =>
          check P given (.argument 0 argv.size)
          check P given (.argument 1 argv.size)
          again (argv.getD 0 .unspecified) (← act P given (spreadArguments (argv.getD 1 .unspecified)))
        | .load =>
          check P given (.argument 0 argv.size)
          let left := ((hand.leave .data args).leave .data operator).leaveAll .data argv.toList
          return .done (← load P ev left name (argv.getD 0 .unspecified))
        | p =>
          let before ← get
          let value ← act P given (p.call name argv)
          check P given (.called p before)
          return .done value
    | _ => act P called (notCallable operator)
  | .closure _ => enterClosure P ev hand through operator args
  | _ => act P called (notCallable operator)

noncomputable def applyValues (ev : Evaluator) (hand : Hand) : Nat → Nat → Word → Word → Run Step
  | through, 0 => applyWith P ev hand through fun _ _ => throw (.stop .unfinished)
  | through, limit + 1 => applyWith P ev hand through (applyValues ev hand (through + 1) limit)

noncomputable def evalApplication (ev : Evaluator) (hand : Hand) (limit : Nat) (head operands env : Word) :
    Run Step := do
  let operator ← ev hand head env
  let _ ← act P (hand.hold .data operator) (Eval.onHeap (Heap.pushRoot operator))
  let args ← operandValues P ev hand operator operands env
  applyValues P ev hand 0 limit operator args

/-! ## Passes -/

/-- The expression and its environment are in hand throughout the pass. -/
noncomputable def step (ev : Evaluator) (hand : Hand) (limit : Nat) (expr env : Word) : Run Step := do
  let hand := (hand.hold .env env).hold .expr expr
  if expr.isNull then plain (Eval.raise .emptyApplication)
  else if expr.isSymbol then return .done (← act P hand (lookup env expr))
  else if expr.isPair then
    let head ← act P hand (Eval.car expr)
    let operands ← act P hand (Eval.cdr expr)
    let hand := hand.hold (.operands (.ofHead head)) operands
    match Operation.formOf? head with
    | some form => evalForm P ev hand form operands env
    | none => evalApplication P ev hand limit head operands env
  else return .done expr

/-- Runs an action and then drops the roots it registered, whether it failed or not. -/
noncomputable def inRootScope (hand : Hand) (action : Run Word) : Run Word := fun m =>
  let depth := m.heap.roots.size
  let leave : Run Unit := modify (·.mapHeap (·.truncateRoots depth))
  match action m with
  | .ok value m => (do check P (hand.hold .data value) (.drop depth); leave; return value) m
  | .error (.stop reason) m => (do check P hand (.drop depth); leave; throw (.stop reason) : Run Word) m
  | .error (.breach moment) m => .error (.breach moment) m

noncomputable def enter (hand : Hand) (run : Nat → Word → Word → Run Word) (expr env : Word) : Run Word :=
  inRootScope P hand do
    let slot ← act P ((hand.hold .env env).hold .expr expr) (Eval.onHeap (Heap.pushRoots expr env))
    run slot expr env

/-- The policy is asked between dropping roots and collecting. -/
noncomputable def startPass (hand : Hand) (slot : Nat) : Run Unit := do
  check P hand (.drop (slot + 2))
  modify (·.mapHeap (·.truncateRoots (slot + 2)))
  check P hand .collect
  modify maybeCollect
  check P hand .look

noncomputable def passes : Nat → Hand → Nat → Word → Word → Run Word
  | 0, _, _, _, _ => throw (.stop .unfinished)
  | budget + 1, hand, slot, expr, env => do
    startPass P ((hand.hold .env env).hold .expr expr) slot
    match ← step P (fun more => enter P more (passes budget more)) hand budget expr env with
    | .done value =>
      check P (hand.hold .data value) .look
      return value
    | .tail expr env =>
      check P ((hand.hold .env env).hold .expr expr) (.slot (slot + 1))
      modify (handOver slot expr env)
      passes budget hand slot expr env

noncomputable def eval (budget : Nat) : Evaluator := fun hand => enter P hand (passes P budget hand)

noncomputable def runSource (budget : Nat) (source : String) : Run Word := runText P (eval P budget) {} source

/-- Runs programs one after another under supervision, until the policy is not kept to. -/
noncomputable def runAll : List Program → Machine → Except Halt (List (Except Stop Word) × Machine)
  | [], m => .ok ([], m)
  | p :: programs, m =>
    match runSource P p.budget p.source { m with files := p.files } with
    | .ok value m => do
      let (outcomes, m) ← runAll programs m
      return (.ok value :: outcomes, m)
    | .error (.stop reason) m => do
      let (outcomes, m) ← runAll programs m
      return (.error reason :: outcomes, m)
    | .error (.breach moment) _ => .error (.breach moment)

end Supervised

end BoxedScheme
