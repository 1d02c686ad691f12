import BoxedScheme.Environment
import BoxedScheme.Primitive
import BoxedScheme.Sugar

/-!
# Evaluation

An evaluation is a sequence of passes over one expression and its environment, which it keeps in two root
slots. A pass either finishes with a value or hands over the next expression and environment; whatever is in
tail position (the chosen branch, the last operand of `and` and `or`, the last expression of a body, a binding
form as an application) is handed over, so loops take no room. Everything else is evaluated on the way by a
nested evaluation.

Collections happen only at the start of a pass. Whatever a pass holds across a nested evaluation is
registered as a root, and the roots are dropped when the next pass starts or the evaluation ends.

* `step`: one pass, given how nested expressions are evaluated.
* `passes`, `eval`: all passes, with a budget of passes in a row and nested levels.
* `runSource`: the forms of a text one after another.
-/

namespace BoxedScheme

/-- How nested expressions are evaluated: an expression in an environment. -/
abbrev Evaluator := Word → Word → Eval Word

/-- The outcome of one pass. -/
inductive Step where
  | done (value : Word)
  | tail (expr env : Word)

/-! ## Special forms -/

/-- What is wrong with the first parameter, with what `again` looks at behind it, or with the end of the parameters. -/
def parametersStopWith (h : Heap) (again : Word → Option Stop) (params : Word) : Option Stop :=
  let bad (fault : SyntaxFault) : Option Stop := some (.error (.badSyntax Form.lambda.name fault))
  if params.isPair then
    let cell := h.cells.read params.payload
    if !cell.car.isSymbol then bad .parameterNotSymbol else again cell.cdr
  else if !params.isNull && !params.isSymbol then bad .badParameters
  else none

/-- Looks at parameters one by one: they are symbols, and what ends them is the empty list or a symbol. A circle of
symbols is given up on after `limit` and one of them. -/
def parametersStop? (h : Heap) : Nat → Word → Option Stop
  | 0 => parametersStopWith h fun _ => some .unfinished
  | limit + 1 => parametersStopWith h (parametersStop? h limit)

/-- A closure over `env`. Parameters are a symbol, or a list of symbols that may end in one; the body is a
proper list and not empty. -/
def makeLambda (params body env : Word) : Eval Word := do
  let bad (fault : SyntaxFault) : Eval Word := Eval.raise (.badSyntax Form.lambda.name fault)
  let m ← get
  match parametersStop? m.heap m.heap.cells.capacity params with
  | some reason => throw reason
  | none =>
    if !body.isPair then bad .badBody
    else if (← Eval.inspect (·.listTail body)) ≠ .nil then bad .badBody
    else
      let code ← Eval.cons params body
      Eval.onHeap (Heap.makeClosure env code)

/-- Stops because a form has the wrong shape. -/
def badSyntax {α : Type} (form : Form) (fault : SyntaxFault) : Eval α :=
  Eval.raise (.badSyntax form.name fault)

def evalBranch (ev : Evaluator) (args : List Word) (env : Word) : Eval Step := do
  match args with
  | [test, consequent] =>
    if (← ev test env).isTruthy then return .tail consequent env else return .done .unspecified
  | [test, consequent, alternative] =>
    if (← ev test env).isTruthy then return .tail consequent env else return .tail alternative env
  | _ => badSyntax .branch (.branchOperands args.length)

/-- Defines a procedure by its name and parameters, the first of the operands, and its body, the others. -/
def defineProcedure (target operands env : Word) : Eval Unit := do
  let name ← Eval.car target
  if !name.isSymbol then badSyntax .define .nameNotSymbol
  else
    let formals ← Eval.cdr target
    let body ← Eval.cdr operands
    let closure ← makeLambda formals body env
    define env name closure

/-- A definition of a name by an expression, or of a procedure by its parameters and body. -/
def evalDefine (ev : Evaluator) (args : List Word) (operands env : Word) : Eval Step := do
  match args with
  | [] => badSyntax .define .missingName
  | target :: more =>
    if target.isSymbol then
      match more with
      | [expr] =>
        let value ← ev expr env
        define env target value
        return .done .unspecified
      | _ => badSyntax .define .nameAndExpression
    else if target.isPair then
      defineProcedure target operands env
      return .done .unspecified
    else badSyntax .define .badTarget

/-- Operands up to the first false one; the last is in tail position. -/
def evalConjunction (ev : Evaluator) (env : Word) : List Word → Eval Step
  | [] => return .done .true
  | [last] => return .tail last env
  | test :: tests => do
    if (← ev test env).isTruthy then evalConjunction ev env tests else return .done .false

/-- Operands up to the first true one; the last is in tail position. -/
def evalDisjunction (ev : Evaluator) (env : Word) : List Word → Eval Step
  | [] => return .done .false
  | [last] => return .tail last env
  | test :: tests => do
    let value ← ev test env
    if value.isTruthy then return .done value else evalDisjunction ev env tests

/-- The bindings of a form, read off the heap. -/
def clausesOf (form : Form) (bindings : Word) : Eval (List Clause) := do
  Eval.ofExcept (letClauses (← get).heap form bindings)

def evalBind (args : List Word) (operands env : Word) : Eval Step := do
  match args with
  | first :: second :: more =>
    if first.isSymbol then
      if more.isEmpty then badSyntax .bind .noNamedBindingsOrBody
      else
        let clauses ← clausesOf .bind second
        let body ← Eval.cdr (← Eval.cdr operands)
        return .tail (← Eval.onHeap (namedLetExpr first clauses body)) env
    else
      let clauses ← clausesOf .bind first
      let body ← Eval.cdr operands
      return .tail (← Eval.onHeap (letExpr clauses body)) env
  | _ => badSyntax .bind .noBindingsOrBody

def evalBindInOrder (args : List Word) (operands env : Word) : Eval Step := do
  match args with
  | bindings :: _ :: _ =>
    let clauses ← clausesOf .bindInOrder bindings
    let body ← Eval.cdr operands
    return .tail (← Eval.onHeap (letStarExpr clauses body)) env
  | _ => badSyntax .bindInOrder .noBindingsOrBody

def evalQuote (args : List Word) : Eval Step := do
  match args with
  | [datum] => return .done datum
  | _ => badSyntax .quote .oneOperand

def evalLambda (args : List Word) (operands env : Word) : Eval Step := do
  match args with
  | params :: _ :: _ =>
    let body ← Eval.cdr operands
    return .done (← makeLambda params body env)
  | _ => badSyntax .lambda .noParametersOrBody

/-- A special form with its operands. -/
def evalForm (ev : Evaluator) (form : Form) (operands env : Word) : Eval Step := do
  match (← get).heap.listItems operands form.name with
  | .error _ => badSyntax form .improperOperands
  | .ok items =>
    let args := items.toList
    match form with
    | .quote => evalQuote args
    | .branch => evalBranch ev args env
    | .define => evalDefine ev args operands env
    | .lambda => evalLambda args operands env
    | .bind => evalBind args operands env
    | .bindInOrder => evalBindInOrder args operands env
    | .conjunction => evalConjunction ev env args
    | .disjunction => evalDisjunction ev env args

/-! ## Texts -/

/-- Reads and evaluates forms until the end of the text, at most `limit` of them; the value is that of the
last form. -/
def runForms (ev : Evaluator) : Nat → Reader → Word → Eval Word
  | 0, _, _ => throw .unfinished
  | limit + 1, r, last => do
    let (datum, r) ← Eval.readDatum r
    if datum.isEof then return last
    else runForms ev limit r (← ev datum (← get).globalEnv)

/-- Evaluates all forms of a text in the global environment. -/
def runText (ev : Evaluator) (source : String) : Eval Word := do
  match Reader.ofSource source with
  | .error e => Eval.raise (.read e)
  | .ok r => runForms ev (r.pending.length + 1) r .unspecified

/-- Evaluates all forms of a file. -/
def load (ev : Evaluator) (procedure : String) (path : Word) : Eval Word := do
  let m ← get
  let path ← Eval.ofExcept (Argument.text m.heap procedure path)
  match m.files.read? path with
  | none => throw (.needsFile path)
  | some (.error reason) => Eval.raise (.unreadable path reason)
  | some (.ok source) =>
    let _ ← runText ev source
    return .unspecified

/-! ## Application -/

/-- Puts a cell behind the last one of a list, whose first cell is kept in the root at `slot`. -/
def appendCell (slot : Nat) (last cell : Word) : Eval Unit :=
  if last.isNull then modify (·.mapHeap (·.setRoot slot cell)) else Eval.onHeap (Heap.setCdr last cell)

/-- Evaluates the first operand that is left, puts its value behind `last`, and goes on with the others. -/
def evalOperandsWith (ev : Evaluator) (env : Word) (slot : Nat) (again : Word → Word → Eval Unit)
    (last rest : Word) : Eval Unit := do
  if rest.isPair then
    let expr ← Eval.car rest
    let value ← ev expr env
    let cell ← Eval.cons value .nil
    appendCell slot last cell
    again cell (← Eval.cdr rest)
  else if rest.isNull then return ()
  else Eval.raise (.badSyntax "application" .improperOperands)

/-- Evaluates operands from the left into a new list, whose first cell is kept in the root at `slot`; at
most `limit` and one of them, which is more values than there are cells for. -/
def evalOperands (ev : Evaluator) (env : Word) (slot : Nat) : Nat → Word → Word → Eval Unit
  | 0 => evalOperandsWith ev env slot fun _ _ => throw .unfinished
  | limit + 1 => evalOperandsWith ev env slot (evalOperands ev env slot limit)

/-- The values of operands as a new list, which stays registered as a root. -/
def operandValues (ev : Evaluator) (operands env : Word) : Eval Word := do
  let slot ← Eval.onHeap (Heap.pushRoot .nil)
  let capacity := (← get).heap.cells.capacity
  evalOperands ev env slot capacity .nil operands
  return (← get).heap.root slot

/-- Hands over the last expression of a body, or evaluates the first one and goes on with the others. -/
def evalBodyWith (ev : Evaluator) (env : Word) (again : Word → Eval Step) (body : Word) : Eval Step := do
  let expr ← Eval.car body
  let rest ← Eval.cdr body
  if !rest.isPair then return .tail expr env
  else
    let _ ← ev expr env
    again rest

/-- Evaluates the expressions of a body but the last, which is in tail position; at most `limit` and one of
them. The limit is the number of cells, so it cuts short only a circular body, which would be evaluated for ever. -/
def evalBody (ev : Evaluator) (env : Word) : Nat → Word → Eval Step
  | 0 => evalBodyWith ev env fun _ => throw .unfinished
  | limit + 1 => evalBodyWith ev env (evalBody ev env limit)

/-- Binds arguments to the parameters of a closure and evaluates its body. -/
def enterClosure (ev : Evaluator) (closure args : Word) : Eval Step := do
  let parts ← Eval.inspect (·.closureParts closure)
  let env ← extend parts.env parts.params args
  let _ ← Eval.onHeap (Heap.pushRoot env)
  let capacity := (← get).heap.cells.capacity
  evalBody ev env capacity parts.body

/-- The list handed to `apply` must be proper. -/
def spreadArguments (list : Word) : Eval Word := do
  let tail ← Eval.inspect (·.listTail list)
  if tail.isNull then return list
  else Eval.raise (.wrongType "apply" "list" list.typeName)

/-- Stops because a word cannot be applied. -/
def notCallable {α : Type} (operator : Word) : Eval α := do
  Eval.raise (.notCallable (← Eval.write operator))

/-- Applies a procedure or closure to a list of values; `again` is how `apply` applies its first argument to its
second. -/
def applyWith (ev : Evaluator) (again : Word → Word → Eval Step) (operator args : Word) : Eval Step := do
  match operator.kind with
  | .procedure id =>
    match Operation.entry? id with
    | some ⟨.primitive p, name, arity⟩ =>
      let argv ← Eval.inspect (·.listItems args name)
      if !arity.accepts argv.size then
        Eval.raise (.arityMismatch name arity argv.size)
      else match p with
        | .apply => again (argv.getD 0 .unspecified) (← spreadArguments (argv.getD 1 .unspecified))
        | .load => return .done (← load ev name (argv.getD 0 .unspecified))
        | p => return .done (← p.call name argv)
    | _ => notCallable operator
  | .closure _ => enterClosure ev operator args
  | _ => notCallable operator

/-- Applies a procedure or closure to a list of values, through `apply` at most `limit` times in a row. -/
def applyValues (ev : Evaluator) : Nat → Word → Word → Eval Step
  | 0 => applyWith ev fun _ _ => throw .unfinished
  | limit + 1 => applyWith ev (applyValues ev limit)

/-- Evaluates operator and operands, then applies. -/
def evalApplication (ev : Evaluator) (limit : Nat) (head operands env : Word) : Eval Step := do
  let operator ← ev head env
  let _ ← Eval.onHeap (Heap.pushRoot operator)
  let args ← operandValues ev operands env
  applyValues ev limit operator args

/-! ## Passes -/

/-- Steps without a collection before one may happen for want of room. -/
def lowWaterBackoff : Nat := 64

/-- The next step is to collect: it is time, or a pool runs low. -/
def collectionDue (m : Machine) : Bool :=
  let dispatches := m.dispatches + 1
  (0 < m.config.collectEvery && m.config.collectEvery ≤ dispatches)
    || (lowWaterBackoff ≤ dispatches
      && (m.heap.cells.freeCount < m.config.lowWater
        || m.heap.strings.freeCount < m.heap.strings.capacity / 8))

/-- Counts a step, and collects if that is due. -/
def maybeCollect (m : Machine) : Machine :=
  if collectionDue m then ({ m with dispatches := 0 } : Machine).collect.2
  else { m with dispatches := m.dispatches + 1 }

/-- One pass over an expression. -/
def step (ev : Evaluator) (limit : Nat) (expr env : Word) : Eval Step := do
  if expr.isNull then Eval.raise .emptyApplication
  else if expr.isSymbol then return .done (← lookup env expr)
  else if expr.isPair then
    let head ← Eval.car expr
    let operands ← Eval.cdr expr
    match Operation.formOf? head with
    | some form => evalForm ev form operands env
    | none => evalApplication ev limit head operands env
  else return .done expr

/-- Registers an expression and its environment, runs passes over them, and drops all roots again. -/
@[inline] def enter (run : Nat → Word → Word → Eval Word) (expr env : Word) : Eval Word :=
  Eval.inRootScope do
    let slot ← Eval.onHeap (Heap.pushRoots expr env)
    run slot expr env

/-- The start of a pass over the expression registered at `slot`: what the pass before registered is dropped, and
a collection may happen. -/
def beginPass (slot : Nat) (m : Machine) : Machine := maybeCollect (m.mapHeap (·.truncateRoots (slot + 2)))

/-- Registers the expression and environment of the next pass in place of the last ones. -/
def handOver (slot : Nat) (expr env : Word) (m : Machine) : Machine :=
  m.mapHeap fun h => (h.setRoot slot expr).setRoot (slot + 1) env

/-- Runs passes over the expression and environment registered at `slot` and behind it. The budget bounds the
passes in a row together with the levels of nested evaluation. -/
def passes : Nat → Nat → Word → Word → Eval Word
  | 0, _, _, _ => throw .unfinished
  | budget + 1, slot, expr, env => do
    modify (beginPass slot)
    match ← step (enter (passes budget)) budget expr env with
    | .done value => return value
    | .tail expr env =>
      modify (handOver slot expr env)
      passes budget slot expr env

/-- Evaluates an expression in an environment. -/
def eval (budget : Nat) (expr env : Word) : Eval Word := enter (passes budget) expr env

/-- Evaluates all forms of a text. -/
def runSource (budget : Nat) (source : String) : Eval Word := runText (eval budget) source

end BoxedScheme
