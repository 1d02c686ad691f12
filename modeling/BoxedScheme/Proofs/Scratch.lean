import Mathlib.Tactic.Common
import BoxedScheme.Evaluator

/-!
# What programs cannot see

The root stack, the count of passes and the collector's statistics are the scratch part of a machine. Apart from
the passes themselves, nothing that runs on a machine looks at its scratch part or changes it.

* `Blind x` : the action `x` gives the same outcome on machines that differ in the scratch part only, and leaves
  that part alone;
* `blind_call`, `blind_makeLambda`, ... : the actions that the evaluator is made of are blind.
-/

namespace BoxedScheme

structure Scratch where
  roots : Array Word
  stats : CollectorStats
  dispatches : Nat

class HasScratch (σ : Type) where
  withScratch : σ → Scratch → σ

export HasScratch (withScratch)

instance : HasScratch Heap := ⟨fun h s => { h with roots := s.roots, stats := s.stats }⟩

instance : HasScratch Memory := ⟨fun m s => { m with heap := withScratch m.heap s }⟩

instance : HasScratch Machine :=
  ⟨fun m s => { m with toMemory := withScratch m.toMemory s, dispatches := s.dispatches }⟩

def Machine.scratch (m : Machine) : Scratch := ⟨m.heap.roots, m.heap.stats, m.dispatches⟩

theorem Machine.withScratch_scratch (m : Machine) : withScratch m m.scratch = m := rfl

@[simp] theorem Machine.heap_withScratch (m : Machine) (s : Scratch) :
    (withScratch m s).heap = withScratch m.heap s := rfl

@[simp] theorem Heap.cells_withScratch (h : Heap) (s : Scratch) : (withScratch h s).cells = h.cells := rfl

@[simp] theorem Heap.strings_withScratch (h : Heap) (s : Scratch) : (withScratch h s).strings = h.strings := rfl

@[simp] theorem Heap.stringBytes_withScratch (h : Heap) (s : Scratch) (w : Word) :
    (withScratch h s).stringBytes w = h.stringBytes w := rfl

@[simp] theorem Memory.heap_withScratch (m : Memory) (s : Scratch) :
    (withScratch m s).heap = withScratch m.heap s := rfl

@[simp] theorem Memory.symbols_withScratch (m : Memory) (s : Scratch) : (withScratch m s).symbols = m.symbols := rfl

@[simp] theorem Machine.toMemory_withScratch (m : Machine) (s : Scratch) :
    (withScratch m s).toMemory = withScratch m.toMemory s := rfl

/-! ## Blind actions -/

section Blind

variable {σ ε α β : Type}

def mapState (f : σ → σ) : EStateM.Result ε σ α → EStateM.Result ε σ α
  | .ok a s => .ok a (f s)
  | .error e s => .error e (f s)

variable [HasScratch σ]

/-- The action neither looks at the scratch part nor changes it. -/
def Blind (x : EStateM ε σ α) : Prop := ∀ s t, x (withScratch s t) = mapState (withScratch · t) (x s)

theorem blind_pure (a : α) : Blind (pure a : EStateM ε σ α) := fun _ _ => rfl

theorem blind_throw (e : ε) : Blind (throw e : EStateM ε σ α) := fun _ _ => rfl

theorem Blind.bind {x : EStateM ε σ α} {f : α → EStateM ε σ β} (hx : Blind x) (hf : ∀ a, Blind (f a)) :
    Blind (x >>= f) := by
  intro s t
  show EStateM.bind x f _ = mapState _ (EStateM.bind x f s)
  unfold EStateM.bind
  rw [hx s t]
  cases x s with
  | ok a s' => exact hf a s' t
  | error e s' => rfl

theorem Blind.map {x : EStateM ε σ α} (hx : Blind x) (f : α → β) : Blind (f <$> x) := by
  intro s t
  show EStateM.map f x _ = mapState _ (EStateM.map f x s)
  unfold EStateM.map
  rw [hx s t]
  cases x s <;> rfl

/-- An action that first looks at the state, but not at its scratch part. -/
theorem blind_get_bind {f : σ → EStateM ε σ β} (hf : ∀ s t, f (withScratch s t) = f s) (hb : ∀ s, Blind (f s)) :
    Blind (get >>= f) := by
  intro s t
  show f (withScratch s t) (withScratch s t) = mapState _ (f s s)
  rw [hf, hb]

theorem blind_modify {f : σ → σ} (hf : ∀ s t, f (withScratch s t) = withScratch (f s) t) :
    Blind (modify f : EStateM ε σ PUnit) := by
  intro s t
  show EStateM.Result.ok _ (f (withScratch s t)) = _
  rw [hf]
  rfl

theorem Blind.ite {c : Prop} [Decidable c] {x y : EStateM ε σ α} (hx : Blind x) (hy : Blind y) :
    Blind (if c then x else y) := by
  split
  · exact hx
  · exact hy

end Blind

/-! ## Looking at the heap -/

namespace Heap

variable (h : Heap) (s : Scratch)

@[simp] theorem follow_withScratch (limit : Nat) (items : Array Word) (w : Word) :
    (withScratch h s).follow limit items w = h.follow limit items w := by
  induction limit generalizing items w with
  | zero => rfl
  | succ limit ih => simp only [follow, cells_withScratch, ih]

@[simp] theorem spine_withScratch (w : Word) : (withScratch h s).spine w = h.spine w :=
  follow_withScratch h s _ _ w

@[simp] theorem listItems_withScratch (w : Word) (operation : String) :
    (withScratch h s).listItems w operation = h.listItems w operation := by
  simp only [listItems, spine_withScratch]

@[simp] theorem listLength_withScratch (w : Word) (operation : String) :
    (withScratch h s).listLength w operation = h.listLength w operation := by
  simp only [listLength, spine_withScratch]

@[simp] theorem listTail_withScratch (w : Word) : (withScratch h s).listTail w = h.listTail w := by
  simp only [listTail, spine_withScratch]

@[simp] theorem elements_withScratch (item : Word → String) (budget : Nat) (rest : Word) :
    Printer.elements (withScratch h s) item budget rest = Printer.elements h item budget rest := by
  induction budget generalizing rest with
  | zero => rfl
  | succ budget ih => simp only [Printer.elements, cells_withScratch, ih]

@[simp] theorem text_withScratch (style : PrintStyle) (levels : Nat) :
    Printer.text (withScratch h s) style levels = Printer.text h style levels := by
  induction levels with
  | zero => rfl
  | succ levels ih =>
    funext w
    simp only [Printer.text, cells_withScratch, elements_withScratch, ih]
    rfl

@[simp] theorem print_withScratch (style : PrintStyle) (w : Word) :
    (withScratch h s).print style w = h.print style w := by
  simp only [print, text_withScratch]

@[simp] theorem write_withScratch (w : Word) : (withScratch h s).write w = h.write w := print_withScratch h s .write w

@[simp] theorem display_withScratch (w : Word) : (withScratch h s).display w = h.display w :=
  print_withScratch h s .display w

theorem lookupFrame_withScratch (symbol : Word) (limit : Nat) (bindings : Word) :
    lookupFrame (withScratch h s) symbol limit bindings = lookupFrame h symbol limit bindings := by
  induction limit generalizing bindings with
  | zero =>
    unfold lookupFrame
    rfl
  | succ limit ih =>
    unfold lookupFrame
    simp only [cells_withScratch, ih]
    rfl

theorem lookupFrames_withScratch (symbol : Word) (limit : Nat) (frames : Word) :
    lookupFrames (withScratch h s) symbol limit frames = lookupFrames h symbol limit frames := by
  induction limit generalizing frames with
  | zero =>
    unfold lookupFrames
    simp only [cells_withScratch, lookupFrame_withScratch]
  | succ limit ih =>
    unfold lookupFrames
    simp only [cells_withScratch, lookupFrame_withScratch, ih]

@[simp] theorem lookup_withScratch (env symbol : Word) : (withScratch h s).lookup env symbol = h.lookup env symbol := by
  simp only [lookup, cells_withScratch, lookupFrames_withScratch, display_withScratch]

@[simp] theorem clauseOf_withScratch (form : Form) (clause : Word) :
    clauseOf (withScratch h s) form clause = clauseOf h form clause := by
  simp only [clauseOf, listItems_withScratch, write_withScratch]

@[simp] theorem letClauses_withScratch (form : Form) (bindings : Word) :
    letClauses (withScratch h s) form bindings = letClauses h form bindings := by
  simp only [letClauses, listItems_withScratch, funext (clauseOf_withScratch h s form)]

@[simp] theorem allEqual_withScratch (procedure first : String) (ws : List Word) :
    Strings.allEqual (withScratch h s) procedure first ws = Strings.allEqual h procedure first ws := by
  induction ws with
  | nil => rfl
  | cons w ws ih =>
    simp only [Strings.allEqual, ih]
    rfl

@[simp] theorem lengthOf_withScratch (procedure : String) (w : Word) :
    Primitive.lengthOf (withScratch h s) procedure w = Primitive.lengthOf h procedure w := by
  simp only [Primitive.lengthOf, listTail_withScratch, listLength_withScratch]

end Heap

/-! ## Changing the heap -/

theorem blind_allocCell (cell : Cell) : Blind (Heap.allocCell cell) := by
  intro h s
  unfold Heap.allocCell
  rw [Heap.cells_withScratch]
  cases h.cells.next? <;> rfl

theorem blind_cons (car cdr : Word) : Blind (Heap.cons car cdr) := (blind_allocCell _).map _

theorem blind_makeClosure (env code : Word) : Blind (Heap.makeClosure env code) := (blind_allocCell _).map _

theorem blind_updatePair (pair : Word) (operation : String) (f : Cell → Cell) :
    Blind (Heap.updatePair pair operation f) := by
  intro h s
  unfold Heap.updatePair
  split <;> rfl

theorem blind_setCar (pair value : Word) : Blind (Heap.setCar pair value) := blind_updatePair _ _ _

theorem blind_setCdr (pair value : Word) : Blind (Heap.setCdr pair value) := blind_updatePair _ _ _

theorem blind_consAll (items : List Word) (tail : Word) : Blind (Heap.consAll items tail) := by
  induction items generalizing tail with
  | nil => exact blind_pure tail
  | cons item items ih => exact (blind_cons item tail).bind ih

theorem blind_listOf (items : List Word) : Blind (Heap.listOf items) := blind_consAll _ _

theorem blind_makeString (bytes : ByteArray) : Blind (Heap.makeString bytes) := by
  intro h s
  unfold Heap.makeString
  rw [Heap.strings_withScratch]
  cases h.strings.next? <;> rfl

theorem blind_lambdaExpr (params body : Word) : Blind (lambdaExpr params body) :=
  (blind_cons _ _).bind fun _ => blind_cons _ _

theorem blind_letExpr (clauses : List Clause) (body : Word) : Blind (letExpr clauses body) :=
  (blind_listOf _).bind fun _ => (blind_lambdaExpr _ _).bind fun _ => (blind_listOf _).bind fun _ => blind_cons _ _

theorem blind_namedLetExpr (name : Word) (clauses : List Clause) (body : Word) :
    Blind (namedLetExpr name clauses body) :=
  (blind_listOf _).bind fun _ => (blind_lambdaExpr _ _).bind fun _ => (blind_listOf _).bind fun _ =>
    (blind_listOf _).bind fun _ => (blind_cons _ _).bind fun _ => (blind_listOf _).bind fun _ =>
      (blind_lambdaExpr _ _).bind fun _ => blind_cons _ _

theorem blind_nestClauses (clauses : List Clause) (body : Word) : Blind (nestClauses clauses body) := by
  induction clauses generalizing body with
  | nil => exact blind_pure body
  | cons clause clauses ih =>
    exact (blind_cons _ _).bind fun _ => (blind_lambdaExpr _ _).bind fun _ => (blind_listOf _).bind fun _ =>
      (blind_cons _ _).bind ih

theorem blind_letStarExpr (clauses : List Clause) (body : Word) : Blind (letStarExpr clauses body) := by
  unfold letStarExpr
  refine .ite ((blind_lambdaExpr _ _).bind fun _ => blind_cons _ _) ((blind_nestClauses _ _).bind fun nested => ?_)
  refine blind_get_bind (fun _ _ => rfl) fun h => ?_
  cases h.car nested with
  | ok expr => exact blind_pure expr
  | error e => exact blind_throw e

/-! ## Memory -/

theorem blind_memory_onHeap {α : Type} {op : HeapM α} (hop : Blind op) : Blind (Memory.onHeap op) := by
  intro m s
  obtain ⟨heap, symbols⟩ := m
  change Memory.onHeap op ⟨withScratch heap s, symbols⟩ = _
  unfold Memory.onHeap
  dsimp only
  rw [hop]
  cases op heap <;> rfl

theorem blind_intern (name : ByteArray) : Blind (Memory.intern name) := by
  intro m s
  unfold Memory.intern
  rw [Memory.symbols_withScratch]
  cases m.symbols.get? name with
  | some symbol => rfl
  | none =>
    simp only [blind_memory_onHeap (blind_makeString name) m s]
    cases Memory.onHeap (Heap.makeString name) m <;> rfl

theorem blind_internValue (value : Word) : Blind (Memory.internValue value) := by
  intro m s
  unfold Memory.internValue
  rw [Memory.heap_withScratch, Heap.stringBytes_withScratch, Memory.symbols_withScratch]
  cases m.heap.stringBytes value with
  | error e => rfl
  | ok name =>
    dsimp only
    cases m.symbols.get? name <;> rfl

theorem blind_complete (frames : List Reader.Frame) (start : Location) (datum : Word) :
    Blind (Reader.complete frames start datum) := by
  induction frames generalizing start datum with
  | nil => exact blind_pure _
  | cons frame frames ih =>
    cases frame with
    | quote start =>
      exact (blind_intern _).bind fun _ => (blind_memory_onHeap (blind_cons _ _)).bind fun _ =>
        (blind_memory_onHeap (blind_cons _ _)).bind fun _ => ih _ _
    | list | dotted | closing => exact blind_pure _

theorem blind_close (loc : Location) (frames : List Reader.Frame) : Blind (Reader.close loc frames) := by
  unfold Reader.close
  split
  · exact blind_pure _
  · exact blind_pure _
  · exact (blind_memory_onHeap (blind_consAll _ _)).bind fun _ => blind_complete _ _ _
  · exact blind_pure _
  · exact (blind_memory_onHeap (blind_consAll _ _)).bind fun _ => blind_complete _ _ _

theorem blind_shift (frames : List Reader.Frame) (lexeme : Lexeme) : Blind (Reader.shift frames lexeme) := by
  unfold Reader.shift
  refine .ite (blind_pure _) ?_
  split
  · exact blind_pure _
  · exact blind_close _ _
  · exact blind_pure _
  · exact blind_pure _
  · exact blind_pure _
  · exact blind_complete _ _ _
  · exact blind_complete _ _ _
  · exact blind_complete _ _ _
  · exact (blind_memory_onHeap (blind_makeString _)).bind fun _ => blind_complete _ _ _
  · exact (blind_intern _).bind fun _ => blind_complete _ _ _

theorem readTokens_withScratch (frames : List Reader.Frame) (lexemes : List Lexeme) (m : Memory) (s : Scratch) :
    Reader.readTokens frames lexemes (withScratch m s) =
      ((Reader.readTokens frames lexemes m).1, withScratch (Reader.readTokens frames lexemes m).2 s) := by
  induction lexemes generalizing frames m with
  | nil => rfl
  | cons lexeme rest ih =>
    unfold Reader.readTokens
    rw [blind_shift frames lexeme m s]
    cases Reader.shift frames lexeme m with
    | error fault m => rfl
    | ok progress m =>
      cases progress with
      | more frames => exact ih frames m
      | done | failed => rfl

/-! ## Actions on the machine -/

section Actions

variable {α : Type}

theorem blind_raise (e : Error) : Blind (Eval.raise e : Eval α) := blind_throw _

theorem blind_ofExcept (x : Except Error α) : Blind (Eval.ofExcept x) := by
  cases x with
  | ok a => exact fun _ _ => rfl
  | error e => exact fun _ _ => rfl

theorem blind_inspect {f : Heap → Except Fault α} (hf : ∀ h s, f (withScratch h s) = f h) :
    Blind (Eval.inspect f) := by
  intro m s
  unfold Eval.inspect
  rw [Machine.heap_withScratch, hf]
  cases f m.heap <;> rfl

theorem blind_onHeap {op : HeapM α} (hop : Blind op) : Blind (Eval.onHeap op) := by
  intro m s
  unfold Eval.onHeap
  rw [Machine.heap_withScratch, hop]
  cases op m.heap <;> rfl

theorem blind_onMemory {op : MemoryM α} (hop : Blind op) : Blind (Eval.onMemory op) := by
  intro m s
  unfold Eval.onMemory
  rw [Machine.toMemory_withScratch, hop]
  cases op m.toMemory <;> rfl

theorem blind_car (pair : Word) : Blind (Eval.car pair) := blind_inspect fun _ _ => rfl

theorem blind_cdr (pair : Word) : Blind (Eval.cdr pair) := blind_inspect fun _ _ => rfl

theorem blind_evalCons (car cdr : Word) : Blind (Eval.cons car cdr) := blind_onHeap (blind_cons car cdr)

theorem blind_print (piece : String) : Blind (Eval.print piece) := blind_modify fun _ _ => rfl

theorem blind_write (w : Word) : Blind (Eval.write w) := by
  intro m s
  show EStateM.Result.ok ((withScratch m.heap s).write w) _ = _
  rw [Heap.write_withScratch]
  rfl

theorem blind_readDatum (r : Reader) : Blind (Eval.readDatum r) := by
  intro m s
  have hread : r.read (withScratch m.toMemory s) = ((r.read m.toMemory).1, withScratch (r.read m.toMemory).2 s) := by
    unfold Reader.read
    simp only [readTokens_withScratch]
  unfold Eval.readDatum
  rw [Machine.toMemory_withScratch, hread]
  obtain ⟨⟨outcome, r'⟩, memory⟩ := r.read m.toMemory
  cases outcome <;> rfl

end Actions

/-! ## Environments -/

theorem blind_lookup (env symbol : Word) : Blind (lookup env symbol) := by
  intro m s
  unfold lookup
  rw [Machine.heap_withScratch, Heap.lookup_withScratch]
  cases m.heap.lookup env symbol <;> rfl

theorem blind_define (env symbol value : Word) : Blind (define env symbol value) :=
  (blind_evalCons _ _).bind fun _ => (blind_car _).bind fun _ => (blind_evalCons _ _).bind fun _ =>
    blind_onHeap (blind_setCar _ _)

theorem blind_bindTo (symbol value frame : Word) : Blind (bindTo symbol value frame) :=
  (blind_evalCons _ _).bind fun _ => blind_evalCons _ _

theorem blind_bindWith {again : Word → Word → Word → Eval Bound}
    (hagain : ∀ params args frame, Blind (again params args frame)) (params args frame : Word) : Blind (bindWith again params args frame) :=
  .ite ((blind_car _).bind fun _ => (blind_car _).bind fun _ => (blind_bindTo _ _ _).bind fun _ =>
    (blind_cdr _).bind fun _ => (blind_cdr _).bind fun _ => hagain _ _ _) (blind_pure _)

theorem blind_bindInStep (limit : Nat) (params args frame : Word) : Blind (bindInStep limit params args frame) := by
  induction limit generalizing params args frame with
  | zero => exact blind_bindWith (fun _ _ _ => blind_throw _) _ _ _
  | succ limit ih => exact blind_bindWith ih _ _ _

theorem blind_mismatch (params args : Word) : Blind (mismatch params args) :=
  (blind_inspect fun h s => h.listLength_withScratch s _ _).bind fun _ =>
    (blind_inspect fun h s => h.listTail_withScratch s _).bind fun _ =>
      (blind_inspect fun h s => h.listLength_withScratch s _ _).bind fun _ => blind_raise _

theorem blind_extend (env params args : Word) : Blind (extend env params args) := by
  refine blind_get_bind (fun _ _ => rfl) fun m => (blind_bindInStep _ _ _ _).bind fun bound => .ite ?_ (.ite ?_ ?_)
  · exact (blind_bindTo _ _ _).bind fun _ => blind_evalCons _ _
  · exact blind_evalCons _ _
  · exact blind_mismatch _ _

/-! ## Forms -/

theorem parametersStop?_withScratch (h : Heap) (s : Scratch) (limit : Nat) (params : Word) :
    parametersStop? (withScratch h s) limit params = parametersStop? h limit params := by
  induction limit generalizing params with
  | zero => rfl
  | succ limit ih => simp only [parametersStop?, parametersStopWith, Heap.cells_withScratch, ih]

theorem blind_makeLambda (params body env : Word) : Blind (makeLambda params body env) := by
  refine blind_get_bind (fun m s => ?_) fun m => ?_
  · rw [Machine.heap_withScratch, parametersStop?_withScratch]
    rfl
  · split
    · exact blind_throw _
    · refine .ite (blind_raise _) ?_
      refine (blind_inspect fun h s => h.listTail_withScratch s _).bind fun _ => .ite (blind_raise _) ?_
      exact (blind_evalCons _ _).bind fun _ => blind_onHeap (blind_makeClosure _ _)

theorem blind_defineProcedure (target operands env : Word) : Blind (defineProcedure target operands env) := by
  refine (blind_car _).bind fun _ => .ite (blind_raise _) ?_
  refine (blind_cdr _).bind fun _ => (blind_cdr _).bind fun _ => ?_
  exact (blind_makeLambda _ _ _).bind fun _ => blind_define _ _ _

theorem blind_clausesOf (form : Form) (bindings : Word) : Blind (clausesOf form bindings) := by
  refine blind_get_bind (fun m s => ?_) fun m => blind_ofExcept _
  rw [Machine.heap_withScratch, Heap.letClauses_withScratch]

theorem blind_spreadArguments (list : Word) : Blind (spreadArguments list) :=
  (blind_inspect fun h s => h.listTail_withScratch s _).bind fun _ => .ite (blind_pure _) (blind_raise _)

/-! ## Procedures -/

theorem blind_newString (text : String) : Blind (Primitive.newString text) := blind_onHeap (blind_makeString _)

/-- A procedure that finds its value in the heap. -/
theorem blind_inHeap {f : Heap → Except Error Word} (hf : ∀ h s, f (withScratch h s) = f h) :
    Blind (do Eval.ofExcept (f (← get).heap) : Eval Word) := by
  refine blind_get_bind (fun m s => ?_) fun m => blind_ofExcept _
  rw [Machine.heap_withScratch, hf]

theorem blind_call (p : Primitive) (name : String) (args : Array Word) : Blind (p.call name args) := by
  cases p with
  | car => exact blind_car _
  | cdr => exact blind_cdr _
  | cons => exact blind_evalCons _ _
  | setCar => exact (blind_onHeap (blind_setCar _ _)).bind fun _ => blind_pure _
  | setCdr => exact (blind_onHeap (blind_setCdr _ _)).bind fun _ => blind_pure _
  | list => exact blind_onHeap (blind_listOf _)
  | length => exact blind_inHeap (f := (Primitive.lengthOf · name _)) fun h s => h.lengthOf_withScratch s _ _
  | newline => exact (blind_print _).bind fun _ => blind_pure _
  | display | write =>
    refine blind_get_bind (fun m s => ?_) fun m => (blind_print _).bind fun _ => blind_pure _
    simp only [Machine.heap_withScratch, Heap.display_withScratch, Heap.write_withScratch]
  | numberToString => exact (blind_ofExcept _).bind fun _ => blind_newString _
  | stringLength =>
    exact blind_inHeap (f := fun h => do return .ofNat (← Argument.text h name _).length) fun _ _ => rfl
  | stringRef => exact blind_inHeap (f := (Strings.charAt · name _ _)) fun _ _ => rfl
  | stringToNumber => exact blind_inHeap (f := (Strings.toNumber · name _ _)) fun _ _ => rfl
  | stringEq =>
    refine blind_inHeap (f := fun h => do
      return .boolean (← Strings.allEqual h name (← Argument.text h name _) _)) fun h s => ?_
    simp only [Heap.allEqual_withScratch]
    rfl
  | substring => exact blind_get_bind (fun _ _ => rfl) fun m => (blind_ofExcept _).bind fun _ => blind_newString _
  | symbolToString =>
    dsimp only [Primitive.call, Primitive.callWith]
    cases (args.getD 0 .unspecified).symbolString? with
    | some string =>
      exact (blind_inspect (f := (·.stringBytes string)) fun _ _ => rfl).bind fun _ => blind_onHeap (blind_makeString _)
    | none => exact blind_raise _
  | stringToSymbol =>
    exact blind_get_bind (fun _ _ => rfl) fun m => (blind_ofExcept _).bind fun _ => blind_onMemory (blind_internValue _)
  | apply | load => exact blind_raise _
  | isProcedure | isNull | isBoolean | isEof | isSymbol | isString | isPair | isChar | isNumber | not | isEq | isEqv =>
    exact blind_pure _
  | add | mul | sub | div | quotient | modulo | max | min | isZero | compareNumbers | compareChars =>
    exact blind_ofExcept _

end BoxedScheme
