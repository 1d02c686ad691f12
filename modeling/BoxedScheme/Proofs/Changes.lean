import Mathlib.Logic.Relation
import BoxedScheme.Evaluator
import BoxedScheme.Proofs.HeapRuns

/-!
# What actions do to a machine

Apart from evaluation itself, whatever runs on a machine makes a sequence of elementary changes: a free cell or string
slot is taken, a pair is changed, a new name is interned, a piece is printed.

* `Heap.Change`, `Memory.Change`, `Machine.Change` : one elementary change;
* `Acts x` : whether it fails or not, the action `x` makes a sequence of elementary changes;
* `acts_call`, `acts_makeLambda`, ... : the actions that the evaluator is made of;
* `Changes.roots` : no such action touches the root stack.
-/

namespace BoxedScheme

/-! ## Elementary changes -/

inductive Heap.Change : Heap → Heap → Prop where
  | cell {h : Heap} {i : UInt32} (cell : Cell) : h.cells.next? = some i →
    Change h { h with cells := h.cells.fill i cell }
  | update {h : Heap} {w : Word} (f : Cell → Cell) : w.isPair →
    Change h { h with cells := h.cells.update w.payload f }
  | string {h : Heap} {i : UInt32} (bytes : ByteArray) : h.strings.next? = some i →
    Change h { h with strings := h.strings.fill i bytes }

inductive Memory.Change : Memory → Memory → Prop where
  | heap {h h' : Heap} {t : SymbolTable} : h.Change h' → Change ⟨h, t⟩ ⟨h', t⟩
  | symbol {h : Heap} {t : SymbolTable} {name : ByteArray} (w : Word) : t.get? name = none →
    Change ⟨h, t⟩ ⟨h, t.insert name w⟩

inductive Machine.Change : Machine → Machine → Prop where
  | memory {m : Machine} {mem : Memory} : m.toMemory.Change mem → Change m { m with toMemory := mem }
  | print {m : Machine} (piece : String) : Change m { m with terminal := m.terminal.print piece }

class HasChange (σ : Type) where
  Change : σ → σ → Prop

instance : HasChange Heap := ⟨Heap.Change⟩

instance : HasChange Memory := ⟨Memory.Change⟩

instance : HasChange Machine := ⟨Machine.Change⟩

def Changes {σ : Type} [HasChange σ] : σ → σ → Prop := Relation.ReflTransGen HasChange.Change

/-! ## Actions -/

section Acts

variable {σ ε α β : Type} [HasChange σ]

def Acts (x : EStateM ε σ α) : Prop := ∀ s, Changes s (after x s)

/-- An action that only looks at the state. -/
theorem Acts.of_unchanged {x : EStateM ε σ α} (h : ∀ s, after x s = s) : Acts x := fun s => by
  rw [h s]
  exact .refl

theorem Acts.of_ok {x : EStateM ε σ α} (hx : Acts x) {s s' : σ} {a : α} (h : x s = .ok a s') : Changes s s' :=
  after_of_ok h ▸ hx s

theorem acts_pure (a : α) : Acts (pure a : EStateM ε σ α) := .of_unchanged fun _ => rfl

theorem acts_throw (e : ε) : Acts (throw e : EStateM ε σ α) := .of_unchanged fun _ => rfl

theorem Acts.bind {x : EStateM ε σ α} {f : α → EStateM ε σ β} (hx : Acts x) (hf : ∀ a, Acts (f a)) :
    Acts (x >>= f) := by
  intro s
  have hs := hx s
  show Changes s (after (EStateM.bind x f) s)
  rw [after] at hs
  rw [after, EStateM.bind]
  cases hxs : x s with
  | error e s' =>
    rw [hxs] at hs
    exact hs
  | ok a s' =>
    rw [hxs] at hs
    exact hs.trans (hf a s')

theorem Acts.map {x : EStateM ε σ α} (hx : Acts x) (f : α → β) : Acts (f <$> x) := by
  intro s
  have hs := hx s
  show Changes s (after (EStateM.map f x) s)
  rw [after] at hs
  rw [after, EStateM.map]
  cases hxs : x s <;> rw [hxs] at hs <;> exact hs

theorem acts_get_bind {f : σ → EStateM ε σ β} (hf : ∀ s, Acts (f s)) : Acts (get >>= f) := fun s => hf s s

theorem Acts.ite {c : Prop} [Decidable c] {x y : EStateM ε σ α} (hx : Acts x) (hy : Acts y) :
    Acts (if c then x else y) := by
  split
  · exact hx
  · exact hy

end Acts

/-! ## Heaps -/

theorem acts_allocCell (cell : Cell) : Acts (Heap.allocCell cell) := by
  intro h
  unfold after
  rw [Heap.allocCell_apply]
  cases hnext : h.cells.next? with
  | none => exact .refl
  | some i => exact .single (Heap.Change.cell cell hnext)

theorem acts_cons (car cdr : Word) : Acts (Heap.cons car cdr) := (acts_allocCell _).map _

theorem acts_makeClosure (env code : Word) : Acts (Heap.makeClosure env code) := (acts_allocCell _).map _

theorem acts_updatePair (pair : Word) (operation : String) (f : Cell → Cell) :
    Acts (Heap.updatePair pair operation f) := by
  intro h
  unfold after
  by_cases hp : pair.isPair
  · rw [Heap.updatePair_of_isPair hp]
    exact .single (Heap.Change.update f hp)
  · rw [Heap.updatePair_of_not_isPair hp]
    exact .refl

theorem acts_consAll (items : List Word) (tail : Word) : Acts (Heap.consAll items tail) := by
  induction items generalizing tail with
  | nil => exact acts_pure tail
  | cons item items ih => exact (acts_cons item tail).bind ih

theorem acts_listOf (items : List Word) : Acts (Heap.listOf items) := acts_consAll _ _

theorem acts_makeString (bytes : ByteArray) : Acts (Heap.makeString bytes) := by
  intro h
  unfold after
  rw [Heap.makeString_apply]
  cases hnext : h.strings.next? with
  | none => exact .refl
  | some i => exact .single (Heap.Change.string bytes hnext)

theorem acts_lambdaExpr (params body : Word) : Acts (lambdaExpr params body) :=
  (acts_cons _ _).bind fun _ => acts_cons _ _

theorem acts_letExpr (clauses : List Clause) (body : Word) : Acts (letExpr clauses body) :=
  (acts_listOf _).bind fun _ => (acts_lambdaExpr _ _).bind fun _ => (acts_listOf _).bind fun _ => acts_cons _ _

theorem acts_namedLetExpr (name : Word) (clauses : List Clause) (body : Word) :
    Acts (namedLetExpr name clauses body) :=
  (acts_listOf _).bind fun _ => (acts_lambdaExpr _ _).bind fun _ => (acts_listOf _).bind fun _ =>
    (acts_listOf _).bind fun _ => (acts_cons _ _).bind fun _ => (acts_listOf _).bind fun _ =>
      (acts_lambdaExpr _ _).bind fun _ => acts_cons _ _

theorem acts_nestClauses (clauses : List Clause) (body : Word) : Acts (nestClauses clauses body) := by
  induction clauses generalizing body with
  | nil => exact acts_pure body
  | cons clause clauses ih =>
    exact (acts_cons _ _).bind fun _ => (acts_lambdaExpr _ _).bind fun _ => (acts_listOf _).bind fun _ =>
      (acts_cons _ _).bind ih

theorem acts_letStarExpr (clauses : List Clause) (body : Word) : Acts (letStarExpr clauses body) := by
  unfold letStarExpr
  refine .ite ((acts_lambdaExpr _ _).bind fun _ => acts_cons _ _) ((acts_nestClauses _ _).bind fun nested => ?_)
  refine acts_get_bind fun h => ?_
  cases h.car nested with
  | ok expr => exact acts_pure expr
  | error e => exact acts_throw e

/-! ## Memory -/

theorem Changes.memory {h h' : Heap} (hc : Changes h h') (t : SymbolTable) : Changes (⟨h, t⟩ : Memory) ⟨h', t⟩ := by
  induction hc with
  | refl => exact .refl
  | tail _ hstep ih => exact ih.tail (Memory.Change.heap hstep)

theorem acts_memory_onHeap {α : Type} {op : HeapM α} (hop : Acts op) : Acts (Memory.onHeap op) := by
  rintro ⟨h, t⟩
  have hh := (hop h).memory t
  rw [after] at hh
  rw [after, Memory.onHeap]
  cases hres : op h <;> rw [hres] at hh <;> exact hh

theorem changes_insert {name : ByteArray} {mem : Memory} (hnew : mem.symbols.get? name = none) (w : Word) :
    Changes mem { mem with symbols := mem.symbols.insert name w } :=
  .single (Memory.Change.symbol w hnew)

theorem acts_intern (name : ByteArray) : Acts (Memory.intern name) := by
  intro mem
  rw [after, Memory.intern]
  cases hget : mem.symbols.get? name with
  | some symbol => exact .refl
  | none =>
    have hmake := acts_memory_onHeap (acts_makeString name) mem
    rw [after] at hmake
    cases hres : Memory.onHeap (Heap.makeString name) mem with
    | error e mem' =>
      rw [hres] at hmake
      simpa only [hres] using hmake
    | ok string mem' =>
      rw [hres] at hmake
      have hsymbols : mem'.symbols = mem.symbols := by
        obtain ⟨h, t⟩ := mem
        unfold Memory.onHeap at hres
        dsimp only at hres
        cases hheap : Heap.makeString name h <;> rw [hheap] at hres <;> cases hres
        rfl
      exact hmake.trans (changes_insert (hsymbols ▸ hget) _)

theorem acts_internValue (value : Word) : Acts (Memory.internValue value) := by
  intro mem
  rw [after, Memory.internValue]
  cases hbytes : mem.heap.stringBytes value with
  | error e => exact .refl
  | ok name =>
    cases hget : mem.symbols.get? name with
    | some symbol =>
      simp only [hget]
      exact .refl
    | none =>
      simp only [hget]
      exact changes_insert hget _

theorem acts_complete (frames : List Reader.Frame) (start : Location) (datum : Word) :
    Acts (Reader.complete frames start datum) := by
  induction frames generalizing start datum with
  | nil => exact acts_pure _
  | cons frame frames ih =>
    cases frame with
    | quote start =>
      exact (acts_intern _).bind fun _ => (acts_memory_onHeap (acts_cons _ _)).bind fun _ =>
        (acts_memory_onHeap (acts_cons _ _)).bind fun _ => ih _ _
    | list | dotted | closing => exact acts_pure _

theorem acts_close (loc : Location) (frames : List Reader.Frame) : Acts (Reader.close loc frames) := by
  unfold Reader.close
  split
  · exact acts_pure _
  · exact acts_pure _
  · exact (acts_memory_onHeap (acts_consAll _ _)).bind fun _ => acts_complete _ _ _
  · exact acts_pure _
  · exact (acts_memory_onHeap (acts_consAll _ _)).bind fun _ => acts_complete _ _ _

theorem acts_shift (frames : List Reader.Frame) (lexeme : Lexeme) : Acts (Reader.shift frames lexeme) := by
  unfold Reader.shift
  refine .ite (acts_pure _) ?_
  split
  · exact acts_pure _
  · exact acts_close _ _
  · exact acts_pure _
  · exact acts_pure _
  · exact acts_pure _
  · exact acts_complete _ _ _
  · exact acts_complete _ _ _
  · exact acts_complete _ _ _
  · exact (acts_memory_onHeap (acts_makeString _)).bind fun _ => acts_complete _ _ _
  · exact (acts_intern _).bind fun _ => acts_complete _ _ _

theorem changes_readTokens (frames : List Reader.Frame) (lexemes : List Lexeme) (mem : Memory) :
    Changes mem (Reader.readTokens frames lexemes mem).2 := by
  induction lexemes generalizing frames mem with
  | nil => exact .refl
  | cons lexeme rest ih =>
    have hshift := acts_shift frames lexeme mem
    rw [after] at hshift
    unfold Reader.readTokens
    cases hres : Reader.shift frames lexeme mem with
    | error fault mem' =>
      rw [hres] at hshift
      exact hshift
    | ok progress mem' =>
      rw [hres] at hshift
      cases progress with
      | more frames => exact hshift.trans (ih frames mem')
      | done | failed => exact hshift

/-! ## Actions on the machine -/

section Actions

variable {α : Type}

theorem Changes.machine {m : Machine} {mem : Memory} (hc : Changes m.toMemory mem) :
    Changes m { m with toMemory := mem } := by
  induction hc with
  | refl => exact .refl
  | tail _ hstep ih => exact ih.tail (Machine.Change.memory hstep)

theorem acts_raise (e : Error) : Acts (Eval.raise e : Eval α) := acts_throw _

theorem acts_ofExcept (x : Except Error α) : Acts (Eval.ofExcept x) := by
  cases x <;> exact .of_unchanged fun _ => rfl

theorem acts_inspect (f : Heap → Except Fault α) : Acts (Eval.inspect f) := by
  refine .of_unchanged fun m => ?_
  rw [after, Eval.inspect]
  cases f m.heap <;> rfl

theorem acts_onMemory {op : MemoryM α} (hop : Acts op) : Acts (Eval.onMemory op) := by
  intro m
  have hmem := (hop m.toMemory).machine (m := m)
  rw [after] at hmem
  rw [after, Eval.onMemory]
  cases hres : op m.toMemory <;> rw [hres] at hmem <;> exact hmem

theorem acts_onHeap {op : HeapM α} (hop : Acts op) : Acts (Eval.onHeap op) := by
  intro m
  have hheap := ((hop m.heap).memory m.symbols).machine (m := m)
  rw [after] at hheap
  rw [after, Eval.onHeap]
  cases hres : op m.heap <;> rw [hres] at hheap <;> exact hheap

theorem acts_car (pair : Word) : Acts (Eval.car pair) := acts_inspect _

theorem acts_cdr (pair : Word) : Acts (Eval.cdr pair) := acts_inspect _

theorem acts_evalCons (car cdr : Word) : Acts (Eval.cons car cdr) := acts_onHeap (acts_cons car cdr)

theorem acts_setCdr (pair value : Word) : Acts (Eval.onHeap (Heap.setCdr pair value)) :=
  acts_onHeap (acts_updatePair _ _ _)

theorem acts_print (piece : String) : Acts (Eval.print piece) := fun _ => .single (Machine.Change.print piece)

theorem acts_write (w : Word) : Acts (Eval.write w) := .of_unchanged fun _ => rfl

theorem acts_readDatum (r : Reader) : Acts (Eval.readDatum r) := by
  intro m
  have hread : Changes m.toMemory (r.read m.toMemory).2 := changes_readTokens [] r.pending m.toMemory
  rw [after, Eval.readDatum]
  generalize r.read m.toMemory = result at hread
  obtain ⟨⟨outcome, r'⟩, mem⟩ := result
  cases outcome <;> exact hread.machine

/-! ## Environments -/

theorem acts_lookup (env symbol : Word) : Acts (lookup env symbol) := by
  refine .of_unchanged fun m => ?_
  rw [after, lookup]
  cases m.heap.lookup env symbol <;> rfl

theorem acts_define (env symbol value : Word) : Acts (define env symbol value) :=
  (acts_evalCons _ _).bind fun _ => (acts_car _).bind fun _ => (acts_evalCons _ _).bind fun _ =>
    acts_onHeap (acts_updatePair _ _ _)

theorem acts_bindTo (symbol value frame : Word) : Acts (bindTo symbol value frame) :=
  (acts_evalCons _ _).bind fun _ => acts_evalCons _ _

theorem acts_bindWith {again : Word → Word → Word → Eval Bound}
    (hagain : ∀ params args frame, Acts (again params args frame)) (params args frame : Word) :
    Acts (bindWith again params args frame) :=
  .ite ((acts_car _).bind fun _ => (acts_car _).bind fun _ => (acts_bindTo _ _ _).bind fun _ =>
    (acts_cdr _).bind fun _ => (acts_cdr _).bind fun _ => hagain _ _ _) (acts_pure _)

theorem acts_bindInStep (limit : Nat) (params args frame : Word) : Acts (bindInStep limit params args frame) := by
  induction limit generalizing params args frame with
  | zero => exact acts_bindWith (fun _ _ _ => acts_throw _) _ _ _
  | succ limit ih => exact acts_bindWith ih _ _ _

theorem acts_mismatch (params args : Word) : Acts (mismatch params args) :=
  (acts_inspect _).bind fun _ => (acts_inspect _).bind fun _ => (acts_inspect _).bind fun _ => acts_raise _

theorem acts_extend (env params args : Word) : Acts (extend env params args) := by
  refine acts_get_bind fun m => (acts_bindInStep _ _ _ _).bind fun bound => .ite ?_ (.ite ?_ ?_)
  · exact (acts_bindTo _ _ _).bind fun _ => acts_evalCons _ _
  · exact acts_evalCons _ _
  · exact acts_mismatch _ _

theorem acts_internNames (id : Nat) (entries : List Operation.Entry) : Acts (internNames id entries) := by
  induction entries generalizing id with
  | nil => exact acts_pure _
  | cons entry entries ih => exact (acts_onMemory (acts_intern _)).bind fun _ => .ite (ih _) (acts_raise _)

theorem acts_initialEnvironment : Acts initialEnvironment :=
  (acts_internNames _ _).bind fun _ => acts_evalCons _ _

/-! ## Forms -/

theorem acts_makeLambda (params body env : Word) : Acts (makeLambda params body env) := by
  refine acts_get_bind fun m => ?_
  split
  · exact acts_throw _
  · refine .ite (acts_raise _) ((acts_inspect _).bind fun _ => .ite (acts_raise _) ?_)
    exact (acts_evalCons _ _).bind fun _ => acts_onHeap (acts_makeClosure _ _)

theorem acts_defineProcedure (target operands env : Word) : Acts (defineProcedure target operands env) := by
  refine (acts_car _).bind fun _ => .ite (acts_raise _) ?_
  refine (acts_cdr _).bind fun _ => (acts_cdr _).bind fun _ => ?_
  exact (acts_makeLambda _ _ _).bind fun _ => acts_define _ _ _

theorem acts_clausesOf (form : Form) (bindings : Word) : Acts (clausesOf form bindings) :=
  acts_get_bind fun _ => acts_ofExcept _

theorem acts_evalBind (args : List Word) (operands env : Word) : Acts (evalBind args operands env) := by
  match args with
  | [] | [_] => exact acts_raise _
  | _ :: _ :: _ =>
    refine .ite (.ite (acts_raise _) ?_) ?_
    · exact (acts_clausesOf _ _).bind fun _ => (acts_cdr _).bind fun _ => (acts_cdr _).bind fun _ =>
        (acts_onHeap (acts_namedLetExpr _ _ _)).bind fun _ => acts_pure _
    · exact (acts_clausesOf _ _).bind fun _ => (acts_cdr _).bind fun _ =>
        (acts_onHeap (acts_letExpr _ _)).bind fun _ => acts_pure _

theorem acts_evalBindInOrder (args : List Word) (operands env : Word) : Acts (evalBindInOrder args operands env) := by
  match args with
  | [] | [_] => exact acts_raise _
  | _ :: _ :: _ =>
    exact (acts_clausesOf _ _).bind fun _ => (acts_cdr _).bind fun _ =>
      (acts_onHeap (acts_letStarExpr _ _)).bind fun _ => acts_pure _

theorem acts_evalQuote (args : List Word) : Acts (evalQuote args) := by
  match args with
  | [_] => exact acts_pure _
  | [] | _ :: _ :: _ => exact acts_raise _

theorem acts_evalLambda (args : List Word) (operands env : Word) : Acts (evalLambda args operands env) := by
  match args with
  | _ :: _ :: _ => exact (acts_cdr _).bind fun _ => (acts_makeLambda _ _ _).bind fun _ => acts_pure _
  | [] | [_] => exact acts_raise _

theorem acts_spreadArguments (list : Word) : Acts (spreadArguments list) :=
  (acts_inspect _).bind fun _ => .ite (acts_pure _) (acts_raise _)

theorem acts_notCallable (operator : Word) : Acts (notCallable operator : Eval α) :=
  (acts_write _).bind fun _ => acts_raise _

/-! ## Procedures -/

theorem acts_newString (text : String) : Acts (Primitive.newString text) := acts_onHeap (acts_makeString _)

theorem acts_call (p : Primitive) (name : String) (args : Array Word) : Acts (p.call name args) := by
  cases p with
  | car => exact acts_car _
  | cdr => exact acts_cdr _
  | cons => exact acts_evalCons _ _
  | setCar | setCdr => exact (acts_onHeap (acts_updatePair _ _ _)).bind fun _ => acts_pure _
  | list => exact acts_onHeap (acts_listOf _)
  | newline => exact (acts_print _).bind fun _ => acts_pure _
  | display | write => exact acts_get_bind fun m => (acts_print _).bind fun _ => acts_pure _
  | numberToString => exact (acts_ofExcept _).bind fun _ => acts_newString _
  | length | stringLength | stringRef | stringToNumber | stringEq => exact acts_get_bind fun _ => acts_ofExcept _
  | substring => exact acts_get_bind fun m => (acts_ofExcept _).bind fun _ => acts_newString _
  | symbolToString =>
    dsimp only [Primitive.call, Primitive.callWith]
    cases (args.getD 0 .unspecified).symbolString? with
    | some string => exact (acts_inspect _).bind fun _ => acts_onHeap (acts_makeString _)
    | none => exact acts_raise _
  | stringToSymbol => exact acts_get_bind fun m => (acts_ofExcept _).bind fun _ => acts_onMemory (acts_internValue _)
  | apply | load => exact acts_raise _
  | isProcedure | isNull | isBoolean | isEof | isSymbol | isString | isPair | isChar | isNumber | not | isEq | isEqv =>
    exact acts_pure _
  | add | mul | sub | div | quotient | modulo | max | min | isZero | compareNumbers | compareChars =>
    exact acts_ofExcept _

end Actions

/-! ## The root stack -/

theorem Heap.Change.roots {h h' : Heap} (hc : h.Change h') : h'.roots = h.roots ∧ h'.rootCapacity = h.rootCapacity := by
  cases hc <;> exact ⟨rfl, rfl⟩

theorem Memory.Change.roots {mem mem' : Memory} (hc : mem.Change mem') :
    mem'.heap.roots = mem.heap.roots ∧ mem'.heap.rootCapacity = mem.heap.rootCapacity := by
  cases hc with
  | heap hheap => exact hheap.roots
  | symbol => exact ⟨rfl, rfl⟩

/-- Elementary changes leave the root stack alone. -/
theorem Changes.roots {m m' : Machine} (hc : Changes m m') :
    m'.heap.roots = m.heap.roots ∧ m'.heap.rootCapacity = m.heap.rootCapacity := by
  induction hc with
  | refl => exact ⟨rfl, rfl⟩
  | tail _ hstep ih =>
    cases hstep with
    | print => exact ih
    | memory hmem => exact ⟨hmem.roots.1.trans ih.1, hmem.roots.2.trans ih.2⟩

theorem Memory.Change.stats {mem mem' : Memory} (hc : mem.Change mem') : mem'.heap.stats = mem.heap.stats := by
  cases hc with
  | heap hheap => cases hheap <;> rfl
  | symbol => rfl

/-- Elementary changes are no collections. -/
theorem Changes.stats {m m' : Machine} (hc : Changes m m') : m'.heap.stats = m.heap.stats := by
  induction hc with
  | refl => rfl
  | tail _ hstep ih =>
    cases hstep with
    | print => exact ih
    | memory hmem => exact hmem.stats.trans ih

end BoxedScheme
