import BoxedScheme.Machine

/-!
# Binding forms as applications

`let`, named `let` and `let*` are evaluated by building an application of `lambda` expressions that means
the same. The parts of the form are shared with it, never changed.

* `letClauses`: names and expressions of the bindings.
* `letExpr`: `((lambda (name ...) body ...) expr ...)`.
* `namedLetExpr`: `((lambda () (define loop (lambda (name ...) body ...)) (loop expr ...)))`.
* `letStarExpr`: `((lambda (name) ((lambda (name) ... body ...) expr)) expr)`.
-/

namespace BoxedScheme

/-- A name and the expression for its value. -/
structure Clause where
  name : Word
  expr : Word

/-- A binding is a list of a symbol and an expression. -/
def clauseOf (h : Heap) (form : Form) (clause : Word) : Except Error Clause :=
  let parts := match h.listItems clause form.name with
    | .ok items => items.toList
    | .error _ => []
  match parts with
  | [name, expr] =>
    if name.isSymbol then .ok ⟨name, expr⟩
    else .error (.badSyntax form.name (.badBinding (h.write clause)))
  | _ => .error (.badSyntax form.name (.badBinding (h.write clause)))

/-- The bindings of a form. -/
def letClauses (h : Heap) (form : Form) (bindings : Word) : Except Error (List Clause) :=
  match h.listItems bindings form.name with
  | .error _ => .error (.badSyntax form.name .bindingsNotList)
  | .ok items => items.toList.mapM (clauseOf h form)

/-- The expression `(lambda params . body)`. -/
def lambdaExpr (params body : Word) : HeapM Word := do
  let code ← Heap.cons params body
  Heap.cons Operation.lambdaSymbol code

/-- All names bound at once. -/
def letExpr (clauses : List Clause) (body : Word) : HeapM Word := do
  let params ← Heap.listOf (clauses.map (·.name))
  let lambda ← lambdaExpr params body
  let values ← Heap.listOf (clauses.map (·.expr))
  Heap.cons lambda values

/-- A procedure of the given name, called with the first values of its parameters. -/
def namedLetExpr (name : Word) (clauses : List Clause) (body : Word) : HeapM Word := do
  let params ← Heap.listOf (clauses.map (·.name))
  let procedure ← lambdaExpr params body
  let definition ← Heap.listOf [Operation.defineSymbol, name, procedure]
  let values ← Heap.listOf (clauses.map (·.expr))
  let call ← Heap.cons name values
  let outerBody ← Heap.listOf [definition, call]
  let outer ← lambdaExpr .nil outerBody
  Heap.cons outer .nil

/-- Names bound one after another, given with the last one first; `body` is a list of expressions. -/
def nestClauses : List Clause → Word → HeapM Word
  | [], body => pure body
  | clause :: clauses, body => do
    let params ← Heap.cons clause.name .nil
    let lambda ← lambdaExpr params body
    let application ← Heap.listOf [lambda, clause.expr]
    nestClauses clauses (← Heap.cons application .nil)

/-- Names bound one after another, each visible to the next. -/
def letStarExpr (clauses : List Clause) (body : Word) : HeapM Word := do
  if clauses.isEmpty then
    let lambda ← lambdaExpr .nil body
    Heap.cons lambda .nil
  else
    let nested ← nestClauses clauses.reverse body
    match (← get).car nested with
    | .ok expr => return expr
    | .error e => throw e

end BoxedScheme
