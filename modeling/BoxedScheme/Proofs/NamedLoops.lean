import BoxedScheme.Proofs.Survival

/-!
# The scope of loops

A named `let` is rewritten into the call of a procedure without parameters, which defines the loop and then calls it.
So the name of the loop is bound before the first values of its parameters are found: they are evaluated where the name
means the loop, whatever it means around the form.

* `Sketch.namedLet`, `Sketch.loopEntry` : the form, and what it is rewritten into;
* `enter_define` : a definition of a procedure, whatever is collected on the way;
* `exists_step_namedLet`, `exists_step_loopEntry`, `exists_passes_loopCall` : the passes up to the operands of the loop;
* `LoopScope` : what symbols mean in a loop and around it; `LoopScope.value_of_unmentioned` : initial values that do not
  mention the loop are evaluated as if they stood around it;
* `named_let_scope` : a named `let` calls the loop inside that scope.
-/

namespace BoxedScheme

namespace Sketch

/-- The form `(head name ((parameter expr) ...) . body)`. -/
def namedLet (head name : Word) (clauses : List Clause) (body : List Word) : Sketch :=
  list (.word head :: .word name :: list (clauses.map fun c => list [.word c.name, .word c.expr]) :: body.map .word)

/-- The expression `(define name (lambda (parameter ...) . body))`. -/
def loopDefinition (name : Word) (params : List Word) (body : List Sketch) : Sketch :=
  list [.word Operation.defineSymbol, .word name, lambda (list (params.map .word)) (list body)]

/-- The expression `(name expr ...)`. -/
def loopCall (name : Word) (exprs : List Word) : Sketch := list (.word name :: exprs.map .word)

/-- The expression `((lambda () (define name (lambda (parameter ...) . body)) (name expr ...)))`. -/
def loopEntry (name : Word) (params exprs : List Word) (body : List Sketch) : Sketch :=
  list [lambda (list []) (list [loopDefinition name params body, loopCall name exprs])]

end Sketch

namespace Heap

variable {h : Heap} {body name : Word} {ss : List Sketch}

theorem builds_words (hs : h.cells.Sound) (items : List Word) :
    h.Builds (listOf items) items.length (.list (items.map .word)) := by
  refine builds_listOf hs ?_
  rw [List.forall₂_map_right_iff]
  exact List.forall₂_same.2 fun _ _ => rfl

theorem builds_namedLetExpr (hs : h.cells.Sound) (hbody : h.Spells body (.list ss)) (name : Word)
    (clauses : List Clause) :
    h.Builds (namedLetExpr name clauses body) (2 * clauses.length + 11)
      (.loopEntry name (clauses.map (·.name)) (clauses.map (·.expr)) ss) := by
  have hcount : 2 * clauses.length + 11 = (clauses.map (·.name)).length + (2 + (3 + ((clauses.map (·.expr)).length +
      (1 + (2 + (2 + 1)))))) := by
    rw [List.length_map, List.length_map]
    omega
  rw [hcount]
  refine (builds_words hs _).bind fun params h₁ ha₁ hparams => ?_
  refine (builds_lambdaExpr ha₁.sound hparams (hbody.kept ha₁.kept)).bind fun lambda h₂ ha₂ hlambda => ?_
  refine (builds_listOf ha₂.sound (.cons (h₂.reads_word _) (.cons (h₂.reads_word name) (.cons hlambda .nil)))).bind
    fun definition h₃ ha₃ hdefinition => ?_
  refine (builds_words ha₃.sound _).bind fun values h₄ ha₄ hvalues => ?_
  refine (builds_cons ha₄.sound (h₄.reads_word name) hvalues).bind fun call h₅ ha₅ hcall => ?_
  have hdefinition₅ := hdefinition.kept (ha₄.trans ha₅).kept
  refine (builds_listOf ha₅.sound (.cons hdefinition₅ (.cons hcall .nil))).bind fun code h₆ ha₆ hcode => ?_
  refine (builds_lambdaExpr ha₆.sound (h₆.reads_word .nil) hcode).bind fun outer h₇ ha₇ houter => ?_
  exact builds_cons ha₇.sound houter (h₇.reads_word .nil)

structure NamedLet (h : Heap) (expr name : Word) (clauses : List Clause) (body : List Word) : Prop where
  spells : ∃ head, Operation.formOf? head = some .bind ∧ h.Spells expr (.namedLet head name clauses body)
  name : name.isSymbol
  params : ∀ c ∈ clauses, c.name.isSymbol
  body : body ≠ []

theorem NamedLet.keeps {h' : Heap} {ws : List Word} {expr : Word} {clauses : List Clause} {body : List Word}
    (hlet : h.NamedLet expr name clauses body) (hk : h.Keeps h' ws) (hr : h.Reaches ws expr) :
    h'.NamedLet expr name clauses body := by
  obtain ⟨head, hform, hspells⟩ := hlet.spells
  exact ⟨⟨head, hform, hspells.keeps hk hr⟩, hlet.name, hlet.params, hlet.body⟩

theorem NamedLet.reaches {ws : List Word} {expr : Word} {clauses : List Clause} {body : List Word}
    (hlet : h.NamedLet expr name clauses body) (hr : h.Reaches ws expr) :
    ∀ v ∈ clauses.map (·.expr) ++ body, h.Reaches ws v := by
  obtain ⟨head, -, hspells⟩ := hlet.spells
  refine fun v hv => hspells.reaches hr v ?_
  rcases List.mem_append.1 hv with hv | hv
  · obtain ⟨c, hc, rfl⟩ := List.mem_map.1 hv
    simp only [Sketch.namedLet, Sketch.words_list, List.flatMap_cons, List.flatMap_map, Sketch.words, List.mem_append,
      List.mem_flatMap]
    exact .inl (.inr (.inr (.inl (.inl ⟨c, hc, by simp⟩))))
  · simp [Sketch.namedLet, Sketch.words, List.flatMap_map, hv]

theorem Spells.reaches_loopEntry {ws : List Word} {entry : Word} {clauses : List Clause} {body : List Word}
    (hentry : h.Spells entry (.loopEntry name (clauses.map (·.name)) (clauses.map (·.expr)) (body.map .word)))
    (hr : h.Reaches ws entry) : ∀ v ∈ clauses.map (·.expr) ++ body, h.Reaches ws v := by
  refine fun v hv => hentry.reaches hr v ?_
  rcases List.mem_append.1 hv with hv | hv
  · obtain ⟨c, hc, rfl⟩ := List.mem_map.1 hv
    simp only [Sketch.loopEntry, Sketch.loopCall, Sketch.lambda, Sketch.words, Sketch.words_list, List.flatMap_cons,
      List.flatMap_map, List.mem_append, List.mem_flatMap]
    grind
  · simp [Sketch.loopEntry, Sketch.loopDefinition, Sketch.lambda, Sketch.words, List.flatMap_map, hv]

/-- The operands of a named `let`. -/
theorem NamedLet.exists_operands {expr : Word} {clauses : List Clause} {body : List Word}
    (hlet : h.NamedLet expr name clauses body) :
    expr.isPair ∧ Operation.formOf? (h.cells.read expr.payload).car = some .bind ∧
      ∃ bindings, h.Lists (h.cells.read expr.payload).cdr (name :: bindings :: body) .nil ∧
        h.Bindings bindings clauses := by
  obtain ⟨head, hform, hp, -, hhead, hp₁, -, hname, hp₂, -, hbindings, hbody⟩ := hlet.spells
  have hl := Lists.cons hp₁ (.cons hp₂ (Spells.lists hbody))
  rw [show (h.cells.read (h.cells.read expr.payload).cdr.payload).car = name from hname] at hl
  refine ⟨hp, (show (h.cells.read expr.payload).car = head from hhead) ▸ hform, _, hl, ?_⟩
  obtain ⟨items, hitems, hclauses⟩ := hbindings.exists_lists
  rw [List.forall₂_map_right_iff] at hclauses
  refine ⟨items, .nil, hitems, by decide, List.forall₂_iff_zip.2 ⟨hclauses.length_eq, fun {item c} hmem => ?_⟩⟩
  have hclause : h.Spells item (.list ([c.name, c.expr].map .word)) := List.forall₂_zip hclauses hmem
  exact ⟨hlet.params c (List.of_mem_zip hmem).2, .nil, hclause.lists, by decide⟩

theorem Spells.exists_halves {w : Word} {s t : Sketch} (hw : h.Spells w (.pair s t)) :
    ∃ a d, h.Spells w (.pair (.word a) (.word d)) ∧ h.Spells a s ∧ h.Spells d t :=
  ⟨_, _, ⟨hw.1, hw.2.1, rfl, rfl⟩, hw.2.2⟩

theorem Spells.join {w a d : Word} {s t : Sketch} (hw : h.Spells w (.pair (.word a) (.word d))) (ha : h.Spells a s)
    (hd : h.Spells d t) : h.Spells w (.pair s t) := by
  obtain ⟨hp, hlive, hcar, hcdr⟩ := hw
  obtain rfl : _ = a := hcar
  obtain rfl : _ = d := hcdr
  exact ⟨hp, hlive, ha, hd⟩

/-- The parts of what a named `let` is rewritten into. -/
structure EntryParts (h : Heap) (entry head code definition rest call lam params block name : Word)
    (names exprs body : List Word) : Prop where
  entry : h.Spells entry (.pair (.word head) (.word .nil))
  head : h.IsLambda head .nil code [] [definition, call]
  code : h.Spells code (.pair (.word definition) (.word rest))
  rest : h.Spells rest (.pair (.word call) (.word .nil))
  definition : h.Spells definition (.list [.word Operation.defineSymbol, .word name, .word lam])
  lambda : h.IsLambda lam params block names body
  call : h.Lists call (name :: exprs) .nil

theorem Spells.exists_entryParts {entry : Word} {names exprs body : List Word}
    (hentry : h.Spells entry (.loopEntry name names exprs (body.map .word))) (hnames : ∀ n ∈ names, n.isSymbol)
    (hbody : body ≠ []) :
    ∃ head code definition rest call lam params block,
      h.EntryParts entry head code definition rest call lam params block name names exprs body := by
  obtain ⟨head, tail, hentry', ⟨hp, hlive, hlambda, hp', hlive', hnone, hcode⟩, htail⟩ := hentry.exists_halves
  obtain ⟨definition, rest, hcode', ⟨hpd, hld, hdefine, hpn, hln, hname, hlast⟩, hrest⟩ := hcode.exists_halves
  obtain ⟨call, tail', hrest', hcall, htail'⟩ := hrest.exists_halves
  obtain ⟨lam, tail'', hlast', hlam, htail''⟩ := hlast.exists_halves
  obtain rfl : tail = .nil := htail
  obtain rfl : tail' = .nil := htail'
  obtain rfl : tail'' = .nil := htail''
  obtain ⟨params, block, items, hlam', hitems⟩ := hlam.exists_isLambda hnames (by simpa using hbody)
  rw [List.forall₂_map_right_iff] at hitems
  obtain rfl : items = body := List.forall₂_eq_eq_eq ▸ hitems
  have hitems : h.Lists _ [definition, call] .nil := Spells.lists (hcode'.join rfl hrest')
  exact ⟨head, _, definition, rest, call, lam, params, block, hentry',
    ⟨⟨hp, hlive, hlambda, hp', hlive', hnone, rfl⟩, .nil (by decide), by simp, hitems, by simp⟩, hcode', hrest',
    ⟨hpd, hld, hdefine, hpn, hln, hname, hlast'⟩, hlam', Spells.lists hcall⟩

/-- The parts are reached from the whole. -/
theorem EntryParts.reaches {ws : List Word} {entry head code definition rest call lam params block : Word}
    {names exprs body : List Word}
    (he : h.EntryParts entry head code definition rest call lam params block name names exprs body)
    (hr : h.Reaches ws entry) :
    h.Reaches ws head ∧ h.Reaches ws code ∧ h.Reaches ws definition ∧ h.Reaches ws rest ∧ h.Reaches ws call ∧
      h.Reaches ws lam := by
  have hhead := he.entry.reaches hr head (by simp [Sketch.words])
  have hcode := (he.head.reaches hhead).2
  have hdefinition := he.code.reaches hcode definition (by simp [Sketch.words])
  have hrest := he.code.reaches hcode rest (by simp [Sketch.words])
  exact ⟨hhead, hcode, hdefinition, hrest, he.rest.reaches hrest call (by simp [Sketch.words]),
    he.definition.reaches hdefinition lam (by simp [Sketch.words, Sketch.list, Sketch.row])⟩

end Heap

section Passes

variable {m : Machine} {expr name env : Word} {clauses : List Clause} {body : List Word}

/-- The first pass rewrites the form. -/
theorem exists_step_namedLet (hs : m.heap.cells.Sound) (hroom : 2 * clauses.length + 11 ≤ m.heap.cells.freeCount)
    (hlet : m.heap.NamedLet expr name clauses body) (env : Word) :
    ∃ entry m', (∀ ev budget, step ev budget expr env m = .ok (.tail entry env) m') ∧
      m.Adds m' (2 * clauses.length + 11) ∧
      m'.heap.Spells entry
        (.loopEntry name (clauses.map (·.name)) (clauses.map (·.expr)) (body.map .word)) := by
  obtain ⟨hp, hform, bindings, hl, hbindings⟩ := hlet.exists_operands
  have hitems := (Heap.listItems_eq_ok_iff hs Form.bind.name _).2 ⟨.nil, hl, by decide⟩
  have hclauses := clausesOf_of_ok ((Heap.letClauses_eq_ok_iff hs .bind clauses).2 hbindings)
  obtain ⟨-, -, -, -, -, hp₁, -, -, hp₂, -, -, hbody⟩ := hlet.spells
  rcases (Heap.builds_namedLetExpr hs hbody name clauses).onHeap with ⟨hfew, -⟩ | ⟨entry, m', hbuild, ha, hentry⟩
  · omega
  refine ⟨entry, m', fun ev budget => ?_, ha, hentry⟩
  rw [step_form ev budget hp hform, evalForm_bind ev hitems]
  cases hmore : body with
  | nil => exact absurd hmore hlet.body
  | cons first more =>
    rw [evalBind, if_pos hlet.name, if_neg (by simp), bind_of_ok hclauses, bind_of_ok (evalCdr_of_isPair hp₁),
      bind_of_ok (evalCdr_of_isPair hp₂), bind_of_ok hbuild]
    rfl

/-- A pass over a definition evaluates the expression and binds the name to its value. -/
theorem step_define {m₁ m₂ : Machine} {ev : Evaluator} {definition rhs value : Word} (hs : m.heap.cells.Sound)
    (hdefinition : m.heap.Spells definition (.list [.word Operation.defineSymbol, .word name, .word rhs]))
    (hname : name.isSymbol) (hvalue : ev rhs env m = .ok value m₁) (hdefine : define env name value m₁ = .ok () m₂)
    (budget : Nat) : step ev budget definition env m = .ok (.done .unspecified) m₂ := by
  obtain ⟨hp, -, hhead, hoperands⟩ := hdefinition
  have hform : Operation.formOf? (m.heap.cells.read definition.payload).car = some .define := by
    rw [show (m.heap.cells.read definition.payload).car = Operation.defineSymbol from hhead]
    decide
  have hl : m.heap.Lists (m.heap.cells.read definition.payload).cdr [name, rhs] .nil := Heap.Spells.lists hoperands
  have hitems := (Heap.listItems_eq_ok_iff hs Form.define.name _).2 ⟨.nil, hl, by decide⟩
  rw [step_form ev budget hp hform, evalForm, bind_of_ok (rfl : (get : Eval Machine) m = .ok m m), hitems]
  show evalDefine _ [name, rhs] _ env m = _
  rw [evalDefine, if_pos hname, bind_of_ok hvalue, bind_of_ok hdefine]
  rfl

/-- A nested evaluation of the definition of a procedure. No live cell that is reached changes, but that of the
environment. -/
theorem enter_define {roots names exprs : List Word} {limit room : Nat} {definition lam params code : Word}
    {values : Word → Option Word} (hm : m.Stands roots limit (room + 4)) (hlimit : roots.length + 3 < limit)
    (hdefinition : m.heap.Spells definition (.list [.word Operation.defineSymbol, .word name, .word lam]))
    (hlam : m.heap.IsLambda lam params code names exprs) (hname : name.isSymbol) (henv : Means m env values) :
    ∃ loop m', (∀ budget, enter (passes (budget + 2)) definition env m = .ok .unspecified m') ∧
      m'.Stands roots limit room ∧ Means m' env (Function.update values name (some loop)) ∧
      (m'.heap.cells.read env.payload).cdr = (m.heap.cells.read env.payload).cdr ∧
      m'.heap.IsClosure loop env params code ∧
      ∀ w, m.heap.Reaches roots w → w.hasCell → m.heap.cells.IsLive w.payload → w.payload ≠ env.payload →
        m'.heap.cells.IsLive w.payload ∧ m'.heap.cells.read w.payload = m.heap.cells.read w.payload := by
  obtain ⟨m₁, hm₁, hk₁, hrun⟩ := hm.enter (by omega) definition env
  have hroot : m.heap.Reaches (roots ++ [definition, env]) definition := .root (by simp)
  have hlamReached : m.heap.Reaches (roots ++ [definition, env]) lam :=
    hdefinition.reaches hroot lam (by simp [Sketch.words, Sketch.list, Sketch.row])
  have henv₁ := henv.keeps hm₁.sound.cells hk₁ (.root (by simp))
  have hlam₁ := hlam.keeps hm.sound.cells hk₁ hlamReached
  have hdefinition₁ := hdefinition.keeps hk₁ hroot
  have hm₁' : m₁.Stands (roots ++ [definition, env]) limit (room + 2 + 2) := hm₁
  obtain ⟨loop, m₂, hloop, hm₂, hk₂, hclosure, hapart⟩ := enter_lambda hm₁' (by simp; omega) hlam₁ env
  have henv₂ := henv₁.keeps hm₂.sound.cells hk₂ (.root (by simp))
  obtain ⟨m₃, hdefine, henv₃, heq, hfree, hcdr, hother⟩ := henv₂.define (by have := hm₂.room; omega) name loop
  have hm₃ := hm₂.recell henv₃.hosts.sound heq hfree
  refine ⟨loop, _, fun budget => hrun (budget + 1) _ m₃
      (step_define hm₁.sound.cells hdefinition₁ hname (hloop budget) hdefine (budget + 1)),
    hm₃.truncate, ?_, ?_, ?_, fun w hw hc hlive hne => ?_⟩
  · exact henv₃.keeps hm₃.sound.cells (.of_keptBy (.refl _) [env]) (.root List.mem_cons_self)
  · rw [← (hk₁ env (.root (by simp)) henv.hasCell henv.isLive).2,
      ← (hk₂ env (.root (by simp)) henv.hasCell henv₁.isLive).2]
    exact hcdr
  · exact (hclosure.kept_but (hapart env (.root (by simp)) henv.hasCell henv₁.isLive) hother).kept (.refl _)
  · have hw' : m.heap.Reaches (roots ++ [definition, env]) w := hw.mono fun v hv => List.mem_append_left _ hv
    obtain ⟨hlive₁, hread₁⟩ := hk₁ w hw' hc hlive
    have hw₁ := (hk₁.reaches hm.sound.cells hw' hc).mono fun v hv => List.mem_append_left [lam, env] hv
    obtain ⟨hlive₂, hread₂⟩ := hk₂ w hw₁ hc hlive₁
    obtain ⟨hlive₃, hread₃⟩ := hother _ hne hlive₂
    exact ⟨hlive₃, hread₃.trans (hread₂.trans hread₁)⟩

/-! ## Calls without arguments -/

theorem step_application (ev : Evaluator) (budget : Nat) (hexpr : expr.isPair)
    (hform : Operation.formOf? (m.heap.cells.read expr.payload).car = none) :
    step ev budget expr env m =
      evalApplication ev budget (m.heap.cells.read expr.payload).car (m.heap.cells.read expr.payload).cdr env m := by
  rw [step_of_isPair ev budget hexpr, hform, Option.elim_none]

theorem formOf?_of_isPair {w : Word} (hw : w.isPair) : Operation.formOf? w = none := by
  have hsymbol : w.isSymbol = false := Bool.eq_false_iff.2 fun hsymbol => Word.not_isPair_of_isSymbol hsymbol hw
  rw [Operation.formOf?, hsymbol]
  rfl

theorem operandValues_nil {roots : List Word} {limit room : Nat} (hm : m.Stands roots limit room)
    (hlimit : roots.length < limit) :
    ∃ m', (∀ ev env, operandValues ev .nil env m = .ok .nil m') ∧ m'.Stands (roots ++ [.nil]) limit room ∧
      m'.heap.cells = m.heap.cells := by
  obtain ⟨m', hpush, hm', hcells⟩ := hm.pushRoot hlimit .nil
  refine ⟨m', fun ev env => ?_, hm', hcells⟩
  have hoperands : ∀ n, evalOperands ev env roots.length n .nil .nil m' = .ok () m' := by
    intro n
    cases n <;> rfl
  have hroot : m'.heap.root roots.length = .nil := by
    rw [Heap.root, ← Array.getElem?_toList, hm'.roots]
    simp
  rw [operandValues, bind_of_ok hpush, bind_of_ok (rfl : (get : Eval Machine) m' = .ok m' m'), bind_of_ok (hoperands _),
    bind_of_ok (rfl : (get : Eval Machine) m' = .ok m' m'), hroot]
  rfl

theorem applyValues_closure {h : Heap} {closure params code : Word} (hclosure : h.IsClosure closure env params code)
    (ev : Evaluator) (budget : Nat) (args : Word) :
    applyValues ev budget closure args = enterClosure ev closure args := by
  obtain ⟨i, rfl⟩ : ∃ i, closure = .closure i := ⟨_, hclosure.word⟩
  have hkind : (Word.closure i).kind = .closure i := by
    simp [Word.kind, Word.isNumber, Word.isReservedTag]
  cases budget <;> simp only [applyValues, applyWith, hkind]

theorem extend_nil (env : Word) (m : Machine) : extend env .nil .nil m = Eval.cons .nil env m := by
  have hbind : ∀ n, bindInStep n .nil .nil .nil m = .ok ⟨.nil, .nil, .nil⟩ m := by
    intro n
    cases n <;> rfl
  rw [extend, bind_of_ok (rfl : (get : Eval Machine) m = .ok m m), bind_of_ok (hbind _)]
  rfl

theorem evalBody_two {m' : Machine} {ev : Evaluator} {limit : Nat} {code first rest last value : Word}
    (hlimit : 0 < limit) (hcode : m.heap.Spells code (.pair (.word first) (.word rest))) (hrest : rest.isPair)
    (hev : ev first env m = .ok value m') (hrest' : m'.heap.Spells rest (.pair (.word last) (.word .nil))) :
    evalBody ev env limit code m = .ok (.tail last env) m' := by
  obtain ⟨hp, -, hfirst, hcdr⟩ := hcode
  obtain ⟨hp', -, hlast, hnil⟩ := hrest'
  have hbody : ∀ n, evalBody ev env n rest m' = .ok (.tail last env) m' := by
    have hwith : ∀ again, evalBodyWith ev env again rest m' = .ok (.tail last env) m' := by
      intro again
      rw [evalBodyWith, bind_of_ok (evalCar_of_isPair hp'), bind_of_ok (evalCdr_of_isPair hp'),
        show (m'.heap.cells.read rest.payload).car = last from hlast,
        show (m'.heap.cells.read rest.payload).cdr = .nil from hnil]
      rfl
    intro n
    cases n <;> exact hwith _
  obtain ⟨n, rfl⟩ : ∃ n, limit = n + 1 := ⟨limit - 1, by omega⟩
  rw [evalBody, evalBodyWith, bind_of_ok (evalCar_of_isPair hp), bind_of_ok (evalCdr_of_isPair hp),
    show (m.heap.cells.read code.payload).car = first from hfirst,
    show (m.heap.cells.read code.payload).cdr = rest from hcdr, if_neg (by simpa using hrest), bind_of_ok hev]
  exact hbody n

/-- The procedure that a named `let` calls defines the loop in a frame of its own. -/
theorem exists_enterClosure {roots names body : List Word} {limit room : Nat}
    {closure outer code definition rest call lam params block : Word} {values : Word → Option Word}
    (hm : m.Stands roots limit (room + 5)) (hlimit : roots.length + 5 ≤ limit) (hroot : m.heap.Reaches roots closure)
    (hclosure : m.heap.IsClosure closure outer .nil code)
    (hcode : m.heap.Spells code (.pair (.word definition) (.word rest)))
    (hrest : m.heap.Spells rest (.pair (.word call) (.word .nil)))
    (hdefinition : m.heap.Spells definition (.list [.word Operation.defineSymbol, .word name, .word lam]))
    (hlam : m.heap.IsLambda lam params block names body) (hname : name.isSymbol) (houter : Means m outer values) :
    ∃ env loop m', (∀ budget, enterClosure (enter (passes (budget + 2))) closure .nil m = .ok (.tail call env) m') ∧
      m'.Stands (roots ++ [env]) limit room ∧ m.heap.Keeps m'.heap roots ∧
      Means m' env (Function.update values name (some loop)) ∧ (m'.heap.cells.read env.payload).cdr = outer ∧
      m'.heap.IsClosure loop env params block := by
  obtain ⟨env, m₁, hcons, ha, hdead, hread, henv₁⟩ := houter.frame (by have := hm.room; omega)
  have hm₀ : m.Stands roots limit (room + 4 + 1) := hm
  obtain ⟨m₂, hpush, hm₂, hcells⟩ := (hm₀.adds ha).pushRoot (by omega) env
  have hkept : m.heap.cells.KeptBy m₂.heap.cells := hcells ▸ ha.kept
  have henv₂ : Means m₂ env values :=
    henv₁.keeps hm₂.sound.cells (.of_keptBy (hcells ▸ .refl _) [env]) (.root List.mem_cons_self)
  have hlam₂ := hlam.keeps hm.sound.cells (.of_keptBy hkept [lam]) (.root List.mem_cons_self)
  obtain ⟨loop, m₃, hdefine, hm₃, henv₃, hcdr, hloop, hother⟩ :=
    enter_define hm₂ (by simp; omega) (hdefinition.kept hkept) hlam₂ hname henv₂
  have hk : m.heap.Keeps m₃.heap roots := by
    intro w hw hc hlive
    obtain ⟨hlive₂, hread₂⟩ := hkept _ hlive
    have hw₂ : m₂.heap.Reaches (roots ++ [env]) w :=
      ((Heap.Keeps.of_keptBy hkept roots).reaches hm.sound.cells hw hc).mono fun v hv => List.mem_append_left _ hv
    -- the cell of the new environment was free
    obtain ⟨hlive₃, hread₃⟩ := hother w hw₂ hc hlive₂ fun heq => hdead (heq ▸ hlive)
    exact ⟨hlive₃, hread₃.trans hread₂⟩
  have hrestReached : m.heap.Reaches roots rest :=
    hcode.reaches (hclosure.reaches hroot).2 rest (by simp [Sketch.words])
  refine ⟨env, loop, m₃, fun budget => ?_, hm₃, hk, henv₃, ?_, hloop⟩
  · rw [enterClosure, bind_of_ok (inspect_of_ok hclosure.closureParts), bind_of_ok ((extend_nil outer m).trans hcons),
      bind_of_ok hpush, bind_of_ok (rfl : (get : Eval Machine) m₂ = .ok m₂ m₂)]
    exact evalBody_two (Nat.zero_lt_of_lt henv₂.isLive.lt) (hcode.kept hkept) hrest.1 (hdefine budget)
      (hrest.keeps hk hrestReached)
  · rw [hcdr, hcells, hread]

end Passes

/-! ## The scope -/

/-- Since `m` a loop was defined in a frame of its own, inside the environment `outer`: there its name means the loop,
and all other symbols mean what they mean outside. The expressions of the form are as they were. -/
structure LoopScope (m m' : Machine) (values : Word → Option Word) (name outer env loop call : Word)
    (clauses : List Clause) (body : List Word) : Prop where
  outside : Means m' outer values
  inside : Means m' env (Function.update values name (some loop))
  link : (m'.heap.cells.read env.payload).cdr = outer
  procedure : ∃ params code, m'.heap.IsClosure loop env params code ∧ m'.heap.Lists params (clauses.map (·.name)) .nil ∧
    m'.heap.Lists code body .nil
  calls : m'.heap.Lists call (name :: clauses.map (·.expr)) .nil
  kept : m.heap.Keeps m'.heap (outer :: (clauses.map (·.expr) ++ body))

theorem Heap.Lists.reaches {h : Heap} {ws items : List Word} {w tail : Word} (hl : h.Lists w items tail)
    (hr : h.Reaches ws w) : ∀ v ∈ items, h.Reaches ws v := by
  induction hl with
  | nil => simp
  | cons hp _ ih =>
    have hc := Word.hasCell_of_isPair hp
    exact List.forall_mem_cons.2 ⟨hr.car hc, ih (hr.cdr hc)⟩

section Scope

variable {m m' m'' : Machine} {values : Word → Option Word} {name outer env loop call : Word}
  {clauses : List Clause} {body below above : List Word} {limit room : Nat}

/-- A scope stays while its environment and the call are held. -/
theorem LoopScope.keeps {ws : List Word} (hscope : LoopScope m m' values name outer env loop call clauses body)
    (hname : name.isSymbol) (hs : m.heap.cells.Sound) (hs'' : m''.heap.cells.Sound)
    (hk : m'.heap.Keeps m''.heap ws) (henv : m'.heap.Reaches ws env) (hcall : m'.heap.Reaches ws call) :
    LoopScope m m'' values name outer env loop call clauses body := by
  have hs' := hscope.inside.hosts.sound
  obtain ⟨params, code, hclosure, hparams, hcode⟩ := hscope.procedure
  have houter : m'.heap.Reaches ws outer := hscope.link ▸ henv.cdr hscope.inside.hasCell
  have hloop : m'.heap.Reaches ws loop :=
    (hscope.inside.reaches hname (Function.update_self ..) hclosure.hasCell).trans (by simpa using henv)
  obtain ⟨hparamsReached, hcodeReached⟩ := hclosure.reaches hloop
  refine ⟨hscope.outside.keeps hs'' hk houter, hscope.inside.keeps hs'' hk henv, ?_,
    ⟨params, code, hclosure.keeps hk hloop, hparams.keeps hs' hk hparamsReached, hcode.keeps hs' hk hcodeReached⟩,
    hscope.calls.keeps hs' hk hcall, hscope.kept.trans (hk.mono fun v hv => ?_) hs⟩
  · rw [(hk env henv hscope.inside.hasCell hscope.inside.isLive).2]
    exact hscope.link
  · rcases List.mem_cons.1 hv with rfl | hv
    · exact houter
    rcases List.mem_append.1 hv with hv | hv
    · exact hscope.calls.reaches hcall v (List.mem_cons_of_mem _ hv)
    · exact hcode.reaches hcodeReached v hv

/-- Initial values that do not mention the name of the loop mean inside what they mean outside. -/
theorem LoopScope.value_of_unmentioned (hscope : LoopScope m m' values name outer env loop call clauses body)
    (hname : ∀ c ∈ clauses, ¬ m.heap.Reaches [c.expr] name) :
    ∀ c ∈ clauses, ∀ t, t.isSymbol → m.heap.Reaches [c.expr] t → (m'.heap.lookup env t).toOption = values t := by
  intro c hc t ht hmentioned
  have hne : t ≠ name := by
    rintro rfl
    exact hname c hc hmentioned
  rw [hscope.inside.value t ht, Function.update_of_ne hne]

/-- The second pass defines the loop in a new frame, and goes on with the call in there. -/
theorem exists_step_loopEntry {entry : Word} (hm : m.Stands (below ++ [entry, outer]) limit (room + 7))
    (hlimit : below.length + 9 ≤ limit)
    (hentry : m.heap.Spells entry (.loopEntry name (clauses.map (·.name)) (clauses.map (·.expr)) (body.map .word)))
    (hname : name.isSymbol) (hparams : ∀ c ∈ clauses, c.name.isSymbol) (hbody : body ≠ [])
    (houter : Means m outer values) :
    ∃ call env loop m' above,
      (∀ budget limit, step (enter (passes (budget + 2))) limit entry outer m = .ok (.tail call env) m') ∧
      m'.Stands (below ++ entry :: outer :: above) limit room ∧
      LoopScope m m' values name outer env loop call clauses body := by
  obtain ⟨head, code, definition, rest, call, lam, params, block, hparts⟩ :=
    hentry.exists_entryParts (by simpa using hparams) hbody
  have hs := hm.sound.cells
  have hm₀ : m.Stands (below ++ [entry, outer]) limit (room + 5 + 2) := hm
  obtain ⟨closure, m₁, heval, hm₁, hk₁, hclosure, -⟩ := enter_lambda hm₀ (by simp; omega) hparts.head outer
  obtain ⟨m₂, hpush, hm₂, hcells₂⟩ := hm₁.pushRoot (by simp; omega) closure
  obtain ⟨m₃, hoperands, hm₃, hcells₃⟩ := operandValues_nil hm₂ (by simp; omega)
  have hsame : m₁.heap.cells.KeptBy m₃.heap.cells := by
    rw [hcells₃, hcells₂]
    exact .refl _
  have hk₃ := hk₁.keptBy hsame
  have hroot : m.heap.Reaches (below ++ [entry, outer] ++ [head, outer]) entry := .root (by simp)
  obtain ⟨-, hcode, hdefinition, hrest, -, hlam⟩ := hparts.reaches hroot
  obtain ⟨env, loop, m₄, hrun, hm₄, hk₄, henv, hlink, hloop⟩ := exists_enterClosure hm₃ (by simp; omega)
    (.root (by simp)) (hclosure.kept hsame) (hparts.code.keeps hk₃ hcode) (hparts.rest.keeps hk₃ hrest)
    (hparts.definition.keeps hk₃ hdefinition) (hparts.lambda.keeps hs hk₃ hlam) hname
    (houter.keeps hm₃.sound.cells hk₃ (.root (by simp)))
  have hk : m.heap.Keeps m₄.heap [entry, outer] := by
    refine (hk₃.mono fun v hv => .root ?_).trans (hk₄.mono fun v hv => .root ?_) hs
    · exact List.mem_append_left _ (List.mem_append_right below hv)
    · exact List.mem_append_left _ (List.mem_append_left _ (List.mem_append_right below hv))
  have hroot' : m.heap.Reaches [entry, outer] entry := .root (by simp)
  obtain ⟨-, -, -, -, hcall, hlam'⟩ := hparts.reaches hroot'
  obtain ⟨hparams, hblock⟩ := hparts.lambda.reaches hlam'
  refine ⟨call, env, loop, m₄, [closure, .nil, env], fun budget limit => ?_, by simpa using hm₄,
    houter.keeps hm₄.sound.cells hk (.root (by simp)), henv, hlink,
    ⟨params, block, hloop, hparts.lambda.params.keeps hs hk hparams, hparts.lambda.body.keeps hs hk hblock⟩,
    hparts.call.keeps hs hk hcall, hk.mono fun v hv => ?_⟩
  · obtain ⟨hp, -, hhead, hnil⟩ := hparts.entry
    have hform : Operation.formOf? (m.heap.cells.read entry.payload).car = none := by
      rw [show (m.heap.cells.read entry.payload).car = head from hhead]
      exact formOf?_of_isPair hparts.head.spells.1
    rw [step_application _ limit hp hform, show (m.heap.cells.read entry.payload).car = head from hhead,
      show (m.heap.cells.read entry.payload).cdr = .nil from hnil, evalApplication, bind_of_ok (heval (budget + 1)),
      bind_of_ok hpush, bind_of_ok (hoperands _ _), applyValues_closure hclosure]
    exact hrun budget
  · rcases List.mem_cons.1 hv with rfl | hv
    · exact .root (by simp)
    rcases List.mem_append.1 hv with hv | hv
    · exact hparts.call.reaches hcall v (List.mem_cons_of_mem _ hv)
    · exact hparts.lambda.body.reaches hblock v hv

/-- The start of the third pass: the call and its environment are held. -/
theorem LoopScope.beginPass (hscope : LoopScope m m' values name outer env loop call clauses body)
    (hname : name.isSymbol) (hs : m.heap.cells.Sound) (hm' : m'.Stands (below ++ call :: env :: above) limit room) :
    (beginPass below.length m').Stands (below ++ [call, env]) limit room ∧
      LoopScope m (beginPass below.length m') values name outer env loop call clauses body := by
  obtain ⟨hm₁, hk⟩ := hm'.beginPass
  exact ⟨hm₁, hscope.keeps hname hs hm₁.sound.cells hk (.root (by simp)) (.root (by simp))⟩

theorem LoopScope.exists_operands (hscope : LoopScope m m' values name outer env loop call clauses body) :
    call.isPair ∧ (m'.heap.cells.read call.payload).car = name ∧
      m'.heap.Lists (m'.heap.cells.read call.payload).cdr (clauses.map (·.expr)) .nil := by
  have hp : call.isPair := by
    by_contra hnot
    exact List.cons_ne_nil _ _ (hscope.calls.of_not_isPair hnot).1
  obtain ⟨items, hitems, hl⟩ := hscope.calls.of_isPair hp
  obtain ⟨hcar, rfl⟩ := List.cons.inj hitems
  exact ⟨hp, hcar.symm, hl⟩

/-- The third pass evaluates the operands of the call in the scope of the loop, and enters the loop with their
values, unless the name is that of a special form. -/
theorem exists_passes_loopCall (hscope : LoopScope m m' values name outer env loop call clauses body)
    (hname : name.isSymbol) (hform : Operation.formOf? name = none) (hs : m.heap.cells.Sound)
    (hm' : m'.Stands (below ++ call :: env :: above) limit room) (hlimit : below.length + 4 ≤ limit) :
    ∃ operands m'', LoopScope m m'' values name outer env loop call clauses body ∧
      m''.heap.Lists operands (clauses.map (·.expr)) .nil ∧
      ∀ budget, passes (budget + 2) below.length call env m' =
        (operandValues (enter (passes (budget + 1))) operands env >>= fun args =>
          enterClosure (enter (passes (budget + 1))) loop args >>= nextPass (budget + 1) below.length) m'' := by
  obtain ⟨hm₁, hscope₁⟩ := hscope.beginPass hname hs hm'
  generalize hpass : BoxedScheme.beginPass below.length m' = m₁ at hm₁ hscope₁
  obtain ⟨hp, hcar, hoperands⟩ := hscope₁.exists_operands
  obtain ⟨m₂, hm₂, hk₂, hrun⟩ := hm₁.enter (by simp; omega) name env
  have hlookup := (hscope₁.inside.keeps hm₂.sound.cells hk₂ (.root (by simp))).lookup_eq hname (Function.update_self ..)
  have hsymbol : ∀ budget, step (enter (passes budget)) budget name env m₂ = .ok (.done loop) m₂ := by
    intro budget
    have hnull : ¬ name.isNull := by
      simp only [Word.isSymbol, Word.isNull, decide_eq_true_eq] at hname ⊢
      simp [hname]
    have hfound : lookup env name m₂ = .ok loop m₂ := by rw [lookup, hlookup]
    rw [step, if_neg hnull, if_pos hname, bind_of_ok hfound]
    rfl
  obtain ⟨m₃, hpush, hm₃, hcells⟩ := hm₂.truncate.pushRoot (by simp; omega) loop
  have hk₃ := hk₂.keptBy (hcells ▸ .refl _ : m₂.heap.cells.KeptBy m₃.heap.cells)
  have hcall : m₁.heap.Reaches (below ++ [call, env] ++ [name, env]) call := .root (by simp)
  refine ⟨_, m₃, hscope₁.keeps hname hs hm₃.sound.cells hk₃ (.root (by simp)) hcall,
    hoperands.keeps hm₁.sound.cells hk₃ (hcall.cdr (Word.hasCell_of_isPair hp)), fun budget => ?_⟩
  obtain ⟨params, code, hclosure, -⟩ := hscope₁.procedure
  have hstep : step (enter (passes (budget + 1))) (budget + 1) call env m₁ =
      (operandValues (enter (passes (budget + 1))) (m₁.heap.cells.read call.payload).cdr env >>=
        enterClosure (enter (passes (budget + 1))) loop) m₃ := by
    rw [step_application _ _ hp (hcar ▸ hform), hcar, evalApplication,
      bind_of_ok (hrun budget loop m₂ (hsymbol budget)), bind_of_ok hpush]
    simp only [applyValues_closure hclosure]
  rw [passes_succ_apply, hpass, bind_apply, hstep, ← bind_apply, bind_assoc]

/-- If the name is that of a special form, the call is taken for one. -/
theorem passes_loopForm {form : Form} (hscope : LoopScope m m' values name outer env loop call clauses body)
    (hname : name.isSymbol) (hform : Operation.formOf? name = some form) (hs : m.heap.cells.Sound)
    (hm' : m'.Stands (below ++ call :: env :: above) limit room) :
    ∃ operands m'', LoopScope m m'' values name outer env loop call clauses body ∧
      m''.heap.Lists operands (clauses.map (·.expr)) .nil ∧
      ∀ budget, passes (budget + 2) below.length call env m' =
        (evalForm (enter (passes (budget + 1))) form operands env >>= nextPass (budget + 1) below.length) m'' := by
  obtain ⟨-, hscope₁⟩ := hscope.beginPass hname hs hm'
  obtain ⟨hp, hcar, hoperands⟩ := hscope₁.exists_operands
  refine ⟨_, _, hscope₁, hoperands, fun budget => ?_⟩
  rw [passes_succ_apply, bind_apply, step_form _ _ hp (hcar ▸ hform), ← bind_apply]

/-- A pass that hands over is followed by a pass over what it hands over. -/
theorem passes_of_tail {budget slot : Nat} {expr env expr' env' : Word}
    (hstep : step (enter (passes budget)) budget expr env (beginPass slot m) = .ok (.tail expr' env') m') :
    passes (budget + 1) slot expr env m = passes budget slot expr' env' (handOver slot expr' env' m') := by
  rw [passes_succ_apply, bind_of_ok hstep]
  rfl

/-- A named `let` is evaluated by calling the loop with the expressions of its clauses, all of that in an environment in
which the name means the loop and everything else what it means outside. There the operands are evaluated, and the loop
is entered with their values; a name that is one of a special form makes the call one, and no loop is entered. -/
theorem named_let_scope {expr : Word}
    (hm : m.Stands (below ++ expr :: outer :: above) limit (2 * clauses.length + 18))
    (hlimit : below.length + 9 ≤ limit) (hlet : m.heap.NamedLet expr name clauses body)
    (houter : Means m outer values) :
    ∃ call env loop m',
      LoopScope m m' values name outer env loop call clauses body ∧
      (∀ budget, passes (budget + 4) below.length expr outer m = passes (budget + 2) below.length call env m') ∧
      (Operation.formOf? name = none → ∃ operands m'',
        LoopScope m m'' values name outer env loop call clauses body ∧
        m''.heap.Lists operands (clauses.map (·.expr)) .nil ∧
        ∀ budget, passes (budget + 2) below.length call env m' =
          (operandValues (enter (passes (budget + 1))) operands env >>= fun args =>
            enterClosure (enter (passes (budget + 1))) loop args >>= nextPass (budget + 1) below.length) m'') ∧
      ∀ form, Operation.formOf? name = some form → ∃ operands m'',
        LoopScope m m'' values name outer env loop call clauses body ∧
        m''.heap.Lists operands (clauses.map (·.expr)) .nil ∧
        ∀ budget, passes (budget + 2) below.length call env m' =
          (evalForm (enter (passes (budget + 1))) form operands env >>= nextPass (budget + 1) below.length) m'' := by
  have hs := hm.sound.cells
  have hname := hlet.name
  -- the first pass rewrites the form
  obtain ⟨hm₁, hk₁⟩ := hm.beginPass
  generalize hpass₁ : beginPass below.length m = m₁ at hm₁ hk₁
  have hlet₁ := hlet.keeps hk₁ (.root (by simp))
  obtain ⟨entry, m₂, hstep₂, ha, hentry⟩ :=
    exists_step_namedLet hm₁.sound.cells (by have := hm₁.room; omega) hlet₁ outer
  have hm₁' : m₁.Stands (below ++ [expr, outer]) limit (7 + (2 * clauses.length + 11)) :=
    ⟨hm₁.sound, hm₁.roots, hm₁.limit, by have := hm₁.room; omega⟩
  have hk₂ := hk₁.keptBy ha.kept
  have houter₂ := houter.keeps ha.sound hk₂ (.root (by simp))
  -- the second pass defines the loop
  obtain ⟨hm₃, hk₃⟩ := ((hm₁'.adds ha).handOver entry outer).beginPass
  generalize hpass₃ : beginPass below.length (handOver below.length entry outer m₂) = m₃ at hm₃ hk₃
  replace hk₃ := hk₃.after (.refl _ : m₂.heap.cells.KeptBy _) ha.sound
  have hm₃' : m₃.Stands (below ++ [entry, outer]) limit (0 + 7) := hm₃
  obtain ⟨call, env, loop, m₄, above₄, hstep₄, hm₄, hscope₄⟩ := exists_step_loopEntry hm₃' hlimit
    (hentry.keeps hk₃ (.root (by simp))) hname hlet.params hlet.body
    (houter₂.keeps hm₃.sound.cells hk₃ (.root (by simp)))
  have hm' := hm₄.handOver call env
  have hkept : m.heap.Keeps m₃.heap (outer :: (clauses.map (·.expr) ++ body)) := by
    refine (hk₂.mono ?_).trans (hk₃.mono ?_) hs
    · exact List.forall_mem_cons.2 ⟨.root (by simp), hlet.reaches (.root (by simp))⟩
    · exact List.forall_mem_cons.2 ⟨.root (by simp), hentry.reaches_loopEntry (.root (by simp))⟩
  have hscope : LoopScope m (handOver below.length call env m₄) values name outer env loop call clauses body :=
    ({ hscope₄ with kept := hkept.trans hscope₄.kept hs } :
      LoopScope m m₄ values name outer env loop call clauses body).keeps hname hs hm'.sound.cells
      (.of_keptBy (.refl _) [env, call]) (.root (by simp)) (.root (by simp))
  refine ⟨call, env, loop, _, hscope, fun budget => ?_,
    fun hform => exists_passes_loopCall hscope hname hform hs hm' (by omega),
    fun form hform => passes_loopForm hscope hname hform hs hm'⟩
  rw [passes_of_tail (hpass₁ ▸ hstep₂ _ _), passes_of_tail (hpass₃ ▸ hstep₄ _ _)]

/-- The form `(let f ((x f)) x)`. -/
theorem Heap.exists_namedLet {h : Heap} (hs : h.cells.Sound) (hroom : 7 ≤ h.cells.freeCount) : ∃ expr h',
    h.Adds h' 7 ∧ h'.NamedLet expr (.symbol 70) [⟨.symbol 71, .symbol 70⟩] [.symbol 71] := by
  have hbuilds : h.Builds
      (listOf [.symbol 71, .symbol 70] >>= fun clause => listOf [clause] >>= fun bindings =>
        listOf [.symbol 2, .symbol 70, bindings, .symbol 71])
      (2 + (1 + 4)) (.namedLet (.symbol 2) (.symbol 70) [⟨.symbol 71, .symbol 70⟩] [.symbol 71]) := by
    refine (builds_words hs _).bind fun clause h₁ ha₁ hclause => ?_
    refine (builds_listOf ha₁.sound (.cons hclause .nil)).bind fun bindings h₂ ha₂ hbindings => ?_
    exact builds_listOf ha₂.sound (.cons (h₂.reads_word _) (.cons (h₂.reads_word _) (.cons hbindings
      (.cons (h₂.reads_word _) .nil))))
  rcases hbuilds with ⟨hfew, -⟩ | ⟨expr, h', -, ha, hspells⟩
  · omega
  · exact ⟨expr, h', ha, ⟨_, by decide, hspells⟩, by decide, by decide, by decide⟩

/-- Where `f` is five, the first value of `x` in `(let f ((x f)) x)` is found where `f` is the loop. -/
theorem named_let_scope_shadowed : ∃ (m m' : Machine) (expr outer env loop operands : Word),
    m.heap.NamedLet expr (.symbol 70) [⟨.symbol 71, .symbol 70⟩] [.symbol 71] ∧
    m.heap.lookup outer (.symbol 70) = .ok (.ofNat 5) ∧
    (∀ budget, passes (budget + 4) 0 expr outer m =
      (operandValues (enter (passes (budget + 1))) operands env >>= fun args =>
        enterClosure (enter (passes (budget + 1))) loop args >>= nextPass (budget + 1) 0) m') ∧
    m'.heap.Lists operands [.symbol 70] .nil ∧ m'.heap.lookup env (.symbol 70) = .ok loop ∧ loop ≠ .ofNat 5 := by
  obtain ⟨_, _, _, m₀, hcreate, hlimit, hfree⟩ := exists_created
  obtain ⟨ρ, hvalid⟩ := Machine.Valid.create hcreate
  have hmeans₀ : Means m₀ m₀.globalEnv fun t => (m₀.heap.lookup m₀.globalEnv t).toOption :=
    ⟨.create hcreate, fun _ _ => rfl⟩
  obtain ⟨m₁, -, hmeans₁, heq, hfree₁, -⟩ := hmeans₀.define (by omega) (.symbol 70) (.ofNat 5)
  obtain ⟨expr, h, ha, hlet⟩ := Heap.exists_namedLet hmeans₁.hosts.sound (by omega)
  have hfree₂ := ha.free
  let m : Machine := { m₁ with heap := { h with roots := #[expr, m₀.globalEnv] } }
  have hm : m.Stands ([] ++ expr :: m₀.globalEnv :: []) 32 (2 * 1 + 18) := by
    refine ⟨⟨ha.sound, ?_⟩, rfl, ?_, by show _ ≤ h.cells.freeCount; omega⟩
    · show h.strings.Sound
      rw [ha.eq, heq]
      exact hvalid.memory.typed.sound.strings
    · show h.rootCapacity = 32
      rw [ha.eq, heq]
      exact hlimit
  have hlet' : m.heap.NamedLet expr (.symbol 70) [⟨.symbol 71, .symbol 70⟩] [.symbol 71] :=
    hlet.keeps (.of_keptBy (.refl _) [expr]) (.root (by simp))
  have hkept : m₁.heap.Keeps m.heap [m₀.globalEnv] := .of_keptBy ha.kept _
  have houter := hmeans₁.keeps ha.sound hkept (.root (by simp))
  obtain ⟨call, env, loop, m', -, hpasses, hcall, -⟩ := named_let_scope hm (by decide) hlet' houter
  obtain ⟨operands, m'', hscope, hoperands, hrun⟩ := hcall (by decide)
  refine ⟨m, m'', expr, m₀.globalEnv, env, loop, operands, hlet',
    houter.lookup_eq (by decide) (Function.update_self ..),
    fun budget => (hpasses budget).trans (hrun budget), hoperands,
    hscope.inside.lookup_eq (by decide) (Function.update_self ..), ?_⟩
  rintro rfl
  obtain ⟨_, _, hclosure, -⟩ := hscope.procedure
  exact absurd hclosure.word (by decide)

end Scope

end BoxedScheme
