import BoxedScheme.Proofs.ListWalks

/-!
# Binding forms as applications

A binding form is rewritten into an application of `lambda` expressions, which shares the expressions of the form and is
otherwise made of new cells.

* `Sketch`, `Heap.Spells h w s` : an expression written down as far as its pairs matter, and a word that stands for it;
* `Sketch.application`, `Sketch.nested` : the applications that bind names at once and one after another;
* `Heap.BindingForm` : operands that are bindings and a body;
* `Heap.Builds h x n s` : in `h` the action takes `n` cells and builds `s`;
* `Rewrites` : what becomes of a binding form, whatever its operands are;
* `binding_forms_rewrite` : that is what becomes of `let` and `let*`.
-/

namespace BoxedScheme

/-! ## Sketches -/

/-- An expression, written down as far as its pairs matter. -/
inductive Sketch where
  | word (w : Word)
  | pair (car cdr : Sketch)

namespace Sketch

def row (items : List Sketch) (tail : Sketch) : Sketch := items.foldr .pair tail

def list (items : List Sketch) : Sketch := row items (.word .nil)

/-- The expression `(lambda params . body)`. -/
def lambda (params body : Sketch) : Sketch := .pair (.word Operation.lambdaSymbol) (.pair params body)

/-- The expression `((lambda (name ...) . body) expr ...)`. -/
def application (bindings : List (Word × Sketch)) (body : Sketch) : Sketch :=
  .pair (lambda (list (bindings.map fun b => .word b.1)) body) (list (bindings.map (·.2)))

/-- The expression `((lambda (name) ((lambda (name) ... . body) expr)) expr)`, or `((lambda () . body))` without
bindings. -/
def nested : List (Word × Sketch) → Sketch → Sketch
  | [], body => application [] body
  | [binding], body => application [binding] body
  | binding :: next :: bindings, body => application [binding] (list [nested (next :: bindings) body])

/-- A body inside bindings is a single expression. -/
theorem foldr_application (binding : Word × Sketch) (bindings : List (Word × Sketch)) (body : Sketch) :
    (binding :: bindings).foldr (fun b t => list [application [b] t]) body =
      list [nested (binding :: bindings) body] := by
  induction bindings generalizing binding with
  | nil => rfl
  | cons next bindings ih => rw [List.foldr_cons, ih, nested]

end Sketch

namespace Heap

variable {h h' : Heap} {w a d : Word} {s t : Sketch}

def Spells (h : Heap) : Word → Sketch → Prop
  | w, .word v => w = v
  | w, .pair s t => w.isPair ∧ h.cells.IsLive w.payload ∧ h.Spells (h.cells.read w.payload).car s ∧
    h.Spells (h.cells.read w.payload).cdr t

theorem Spells.kept (hw : h.Spells w s) (hk : h.cells.KeptBy h'.cells) : h'.Spells w s := by
  induction s generalizing w with
  | word v => exact hw
  | pair s t ihs iht =>
    obtain ⟨hp, hlive, hcar, hcdr⟩ := hw
    obtain ⟨hlive', hread⟩ := hk _ hlive
    refine ⟨hp, hlive', ?_, ?_⟩
    · rw [hread]
      exact ihs hcar
    · rw [hread]
      exact iht hcdr

/-- Every word is read as an expression it stands for. -/
def Reads (h : Heap) (read : Word → Sketch) : Prop := ∀ w, h.Spells w (read w)

theorem reads_word (h : Heap) : h.Reads .word := fun _ => rfl

theorem Lists.spells {items : List Word} {tail : Word} {read : Word → Sketch} (hs : h.cells.Sound)
    (hl : h.Lists w items tail) (htail : tail ≠ .error) (hread : h.Reads read) :
    h.Spells w (.row (items.map read) (.word tail)) := by
  obtain ⟨is, hlinks, rfl⟩ := hl.exists_links
  have hlive := hlinks.isLive hs htail
  clear hl
  induction hlinks with
  | nil => rfl
  | cons hw _ ih =>
    rw [List.forall_mem_cons] at hlive
    exact ⟨hw, hlive.1, hread _, ih htail hlive.2⟩

/-! ## New expressions -/

/-- The action takes so many cells and leaves a word for the expression, or there are too few. -/
def Builds (h : Heap) (x : HeapM Word) (n : Nat) (s : Sketch) : Prop :=
  (h.cells.freeCount < n ∧ ∃ h' k, x h = .error h.full h' ∧ h.Adds h' k) ∨
    ∃ w h', x h = .ok w h' ∧ h.Adds h' n ∧ h'.Spells w s

theorem Builds.bind {x : HeapM Word} {f : Word → HeapM Word} {n k : Nat} (hx : h.Builds x n s)
    (hf : ∀ w h', h.Adds h' n → h'.Spells w s → h'.Builds (f w) k t) : h.Builds (x >>= f) (n + k) t := by
  rcases hx with ⟨hfew, h', j, hx, ha⟩ | ⟨w, h', hx, ha, hw⟩
  · exact .inl ⟨by omega, h', j, bind_of_error hx, ha⟩
  · have hfree := ha.free
    unfold Builds
    rw [bind_of_ok hx]
    rcases hf w h' ha hw with ⟨hfew, h'', j, hx', ha'⟩ | ⟨v, h'', hx', ha', hv⟩
    · exact .inl ⟨by omega, h'', _, ha.full ▸ hx', ha.trans ha'⟩
    · exact .inr ⟨v, h'', hx', ha.trans ha', hv⟩

theorem builds_pure (hs : h.cells.Sound) (hw : h.Spells w s) : h.Builds (pure w) 0 s :=
  .inr ⟨w, h, rfl, .refl hs, hw⟩

theorem builds_cons (hs : h.cells.Sound) (ha : h.Spells a s) (hd : h.Spells d t) :
    h.Builds (cons a d) 1 (.pair s t) := by
  rcases cons_cases hs a d with ⟨hempty, hcons⟩ | ⟨w, h', hcons, hadds, hw, -, hlive, hread⟩
  · exact .inl ⟨by omega, h, 0, hcons, .refl hs⟩
  · refine .inr ⟨w, h', hcons, hadds, hw, hlive, ?_, ?_⟩
    · rw [hread]
      exact ha.kept hadds.kept
    · rw [hread]
      exact hd.kept hadds.kept

theorem builds_listOf {items : List Word} {ss : List Sketch} (hs : h.cells.Sound)
    (hitems : List.Forall₂ h.Spells items ss) : h.Builds (listOf items) items.length (.list ss) := by
  induction hitems with
  | nil => exact builds_pure hs rfl
  | cons hitem _ ih =>
    rw [listOf_cons]
    exact ih.bind fun w h' ha hw => builds_cons ha.sound (hitem.kept ha.kept) hw

theorem builds_lambdaExpr (hs : h.cells.Sound) (hparams : h.Spells a s) (hbody : h.Spells d t) :
    h.Builds (lambdaExpr a d) 2 (.lambda s t) :=
  (builds_cons hs hparams hbody).bind fun _ h' ha hw => builds_cons ha.sound (h'.reads_word _) hw

end Heap

/-! ## Clauses and what is built of them -/

def Clause.sketch (read : Word → Sketch) (c : Clause) : Word × Sketch := (c.name, read c.expr)

namespace Heap

variable {h h' : Heap} {w body : Word} {clauses : List Clause} {read : Word → Sketch} {s : Sketch}

theorem Reads.kept (hr : h.Reads read) (hk : h.cells.KeptBy h'.cells) : h'.Reads read := fun w => (hr w).kept hk

theorem builds_names (hs : h.cells.Sound) (clauses : List Clause) (read : Word → Sketch) :
    h.Builds (listOf (clauses.map (·.name))) clauses.length
      (.list ((clauses.map (Clause.sketch read)).map fun b => .word b.1)) := by
  have hnames : List.Forall₂ h.Spells (clauses.map (·.name))
      ((clauses.map (Clause.sketch read)).map fun b => .word b.1) := by
    rw [List.map_map, List.forall₂_map_left_iff, List.forall₂_map_right_iff]
    exact List.forall₂_same.2 fun _ _ => rfl
  simpa using builds_listOf hs hnames

theorem builds_exprs (hs : h.cells.Sound) (hr : h.Reads read) (clauses : List Clause) :
    h.Builds (listOf (clauses.map (·.expr))) clauses.length (.list ((clauses.map (Clause.sketch read)).map (·.2))) := by
  have hexprs : List.Forall₂ h.Spells (clauses.map (·.expr)) ((clauses.map (Clause.sketch read)).map (·.2)) := by
    rw [List.map_map, List.forall₂_map_left_iff, List.forall₂_map_right_iff]
    exact List.forall₂_same.2 fun c _ => hr c.expr
  simpa using builds_listOf hs hexprs

theorem builds_letExpr (hs : h.cells.Sound) (hr : h.Reads read) (hbody : h.Spells body s) (clauses : List Clause) :
    h.Builds (letExpr clauses body) (2 * clauses.length + 3) (.application (clauses.map (Clause.sketch read)) s) := by
  have hcount : 2 * clauses.length + 3 = clauses.length + (2 + (clauses.length + 1)) := by omega
  rw [hcount]
  refine (builds_names hs clauses read).bind fun params h₁ ha₁ hparams => ?_
  refine (builds_lambdaExpr ha₁.sound hparams (hbody.kept ha₁.kept)).bind fun lambda h₂ ha₂ hlambda => ?_
  refine (builds_exprs ha₂.sound (hr.kept (ha₁.trans ha₂).kept) clauses).bind fun values h₃ ha₃ hvalues => ?_
  exact builds_cons ha₃.sound (hlambda.kept ha₃.kept) hvalues

/-- Each clause is put around the body so far, which becomes a body of one expression. -/
theorem builds_nestClauses (hs : h.cells.Sound) (hr : h.Reads read) (hbody : h.Spells body s) (clauses : List Clause) :
    h.Builds (nestClauses clauses body) (6 * clauses.length)
      ((clauses.map (Clause.sketch read)).foldl (fun t b => .list [.application [b] t]) s) := by
  induction clauses generalizing h body s with
  | nil => exact builds_pure hs hbody
  | cons c clauses ih =>
    have hcount : 6 * (c :: clauses).length = 1 + (2 + (2 + (1 + 6 * clauses.length))) := by
      rw [List.length_cons]
      omega
    rw [hcount]
    refine (builds_cons hs (h.reads_word c.name) (h.reads_word .nil)).bind fun params h₁ ha₁ hparams => ?_
    refine (builds_lambdaExpr ha₁.sound hparams (hbody.kept ha₁.kept)).bind fun lambda h₂ ha₂ hlambda => ?_
    have hr₂ := hr.kept (ha₁.trans ha₂).kept
    refine (builds_listOf ha₂.sound (.cons hlambda (.cons (hr₂ c.expr) .nil))).bind fun application h₃ ha₃ happly => ?_
    refine (builds_cons ha₃.sound happly (h₃.reads_word .nil)).bind fun nested h₄ ha₄ hnested => ?_
    exact ih ha₄.sound (hr₂.kept (ha₃.trans ha₄).kept) hnested

def cellsToNest : Nat → Nat
  | 0 => 3
  | n + 1 => 6 * (n + 1)

theorem builds_letStarExpr (hs : h.cells.Sound) (hr : h.Reads read) (hbody : h.Spells body s) (clauses : List Clause) :
    h.Builds (letStarExpr clauses body) (cellsToNest clauses.length) (.nested (clauses.map (Clause.sketch read)) s) := by
  cases clauses with
  | nil =>
    show h.Builds (lambdaExpr .nil body >>= fun lambda => cons lambda .nil) (2 + 1) _
    refine (builds_lambdaExpr hs (h.reads_word .nil) hbody).bind fun lambda h₁ ha₁ hlambda => ?_
    exact builds_cons ha₁.sound hlambda (h₁.reads_word .nil)
  | cons c clauses =>
    have hnested := builds_nestClauses hs hr hbody (c :: clauses).reverse
    rw [List.map_reverse, List.foldl_reverse, List.map_cons, Sketch.foldr_application, List.length_reverse] at hnested
    refine hnested.bind (k := 0) fun w h₁ ha₁ hw => ?_
    have hcar : h₁.car w = .ok (h₁.cells.read w.payload).car := by
      rw [car, pairCell_of_isPair hw.1]
      rfl
    refine .inr ⟨_, h₁, (bind_of_ok (rfl : (get : HeapM Heap) h₁ = .ok h₁ h₁)).trans ?_, .refl ha₁.sound, hw.2.2.1⟩
    rw [hcar]
    rfl

/-! ## Operands -/

theorem listItems_eq_ok_iff (hs : h.cells.Sound) (operation : String) (items : List Word) :
    h.listItems w operation = .ok items.toArray ↔ ∃ nil, h.Lists w items nil ∧ nil.isNull := by
  constructor
  · intro hitems
    unfold listItems at hitems
    cases hspine : h.spine w with
    | none =>
      rw [hspine] at hitems
      cases hitems
    | some found =>
      rw [hspine] at hitems
      have hl := spine_lists hspine
      dsimp only at hitems
      split_ifs at hitems with hnull
      rw [Except.ok.inj hitems] at hl
      exact ⟨_, hl, hnull⟩
  · rintro ⟨nil, hl, hnull⟩
    have hne : nil ≠ .error := by
      rintro rfl
      exact absurd hnull (by decide)
    rw [listItems, hl.spine hs hne]
    exact if_pos hnull

def IsClause (h : Heap) (w : Word) (c : Clause) : Prop :=
  c.name.isSymbol ∧ ∃ nil, h.Lists w [c.name, c.expr] nil ∧ nil.isNull

theorem clauseOf_eq_ok_iff (hs : h.cells.Sound) (form : Form) (c : Clause) :
    clauseOf h form w = .ok c ↔ h.IsClause w c := by
  rw [IsClause, ← listItems_eq_ok_iff hs form.name]
  constructor
  · intro hc
    unfold clauseOf at hc
    dsimp only at hc
    split at hc
    next name expr hparts =>
      split_ifs at hc with hname
      cases hc
      refine ⟨hname, ?_⟩
      cases hitems : h.listItems w form.name with
      | error e =>
        rw [hitems] at hparts
        cases hparts
      | ok items =>
        rw [hitems] at hparts
        rw [← show items.toList = [name, expr] from hparts]
    next => cases hc
  · rintro ⟨hname, hitems⟩
    rw [clauseOf, hitems]
    exact if_pos hname

theorem clauseOf_error {form : Form} {e : Error} (hc : clauseOf h form w = .error e) :
    ∃ fault, e = .badSyntax form.name fault := by
  unfold clauseOf at hc
  dsimp only at hc
  split at hc
  · split_ifs at hc
    cases hc
    exact ⟨_, rfl⟩
  · cases hc
    exact ⟨_, rfl⟩

def Bindings (h : Heap) (w : Word) (clauses : List Clause) : Prop :=
  ∃ items nil, h.Lists w items nil ∧ nil.isNull ∧ List.Forall₂ h.IsClause items clauses

theorem mapM_clauseOf_eq_ok_iff (hs : h.cells.Sound) (form : Form) (items : List Word) (clauses : List Clause) :
    items.mapM (clauseOf h form) = .ok clauses ↔ List.Forall₂ h.IsClause items clauses := by
  induction items generalizing clauses with
  | nil =>
    rw [List.forall₂_nil_left_iff, List.mapM_nil]
    exact ⟨fun hc => (Except.ok.inj hc).symm, fun hc => hc ▸ rfl⟩
  | cons item items ih =>
    rw [List.forall₂_cons_left_iff, List.mapM_cons]
    constructor
    · intro hc
      cases hclause : clauseOf h form item with
      | error e =>
        rw [hclause] at hc
        cases hc
      | ok c =>
        rw [hclause] at hc
        cases hothers : items.mapM (clauseOf h form) with
        | error e =>
          rw [hothers] at hc
          cases hc
        | ok others =>
          rw [hothers] at hc
          cases hc
          exact ⟨c, others, (clauseOf_eq_ok_iff hs form c).1 hclause, (ih others).1 hothers, rfl⟩
    · rintro ⟨c, others, hclause, hothers, rfl⟩
      rw [(clauseOf_eq_ok_iff hs form c).2 hclause, (ih others).2 hothers]
      rfl

theorem mapM_clauseOf_error {form : Form} {items : List Word} {e : Error}
    (hc : items.mapM (clauseOf h form) = .error e) : ∃ fault, e = .badSyntax form.name fault := by
  induction items with
  | nil => cases hc
  | cons item items ih =>
    rw [List.mapM_cons] at hc
    cases hclause : clauseOf h form item with
    | error e' =>
      rw [hclause] at hc
      cases hc
      exact clauseOf_error hclause
    | ok c =>
      rw [hclause] at hc
      cases hothers : items.mapM (clauseOf h form) with
      | error e' =>
        rw [hothers] at hc
        cases hc
        exact ih hothers
      | ok others =>
        rw [hothers] at hc
        cases hc

theorem letClauses_eq_ok_iff (hs : h.cells.Sound) (form : Form) (clauses : List Clause) :
    letClauses h form w = .ok clauses ↔ h.Bindings w clauses := by
  constructor
  · intro hc
    unfold letClauses at hc
    cases hitems : h.listItems w form.name with
    | error e =>
      rw [hitems] at hc
      cases hc
    | ok items =>
      rw [hitems] at hc
      obtain ⟨nil, hl, hnull⟩ := (listItems_eq_ok_iff hs form.name items.toList).1 hitems
      exact ⟨_, nil, hl, hnull, (mapM_clauseOf_eq_ok_iff hs form _ clauses).1 hc⟩
  · rintro ⟨items, nil, hl, hnull, hclauses⟩
    rw [letClauses, (listItems_eq_ok_iff hs form.name items).2 ⟨nil, hl, hnull⟩]
    exact (mapM_clauseOf_eq_ok_iff hs form _ clauses).2 hclauses

theorem letClauses_error {form : Form} {e : Error} (hc : letClauses h form w = .error e) :
    ∃ fault, e = .badSyntax form.name fault := by
  unfold letClauses at hc
  cases hitems : h.listItems w form.name with
  | error e' =>
    rw [hitems] at hc
    cases hc
    exact ⟨_, rfl⟩
  | ok items =>
    rw [hitems] at hc
    exact mapM_clauseOf_error hc

/-- The operands of a binding form: bindings, and a body that is not empty. -/
structure BindingForm (h : Heap) (operands : Word) (clauses : List Clause) (body : List Word) (nil : Word) : Prop where
  operands : ∃ bindings, h.Lists operands (bindings :: body) nil ∧ h.Bindings bindings clauses
  proper : nil.isNull
  body : body ≠ []

end Heap

/-! ## Rewriting -/

/-- What becomes of a binding form: an expression of the given shape in the same environment, made of so many new cells,
if the operands are bindings and a body; a fault of syntax otherwise. -/
structure Rewrites (m : Machine) (run : Eval Step) (form : Form) (operands env : Word) (cells : Nat → Nat)
    (shape : List (Word × Sketch) → Sketch → Sketch) : Prop where
  proper : ∀ clauses body nil, m.heap.BindingForm operands clauses body nil →
    cells clauses.length ≤ m.heap.cells.freeCount →
      ∃ expr m', run m = .ok (.tail expr env) m' ∧ m.Adds m' (cells clauses.length) ∧
        ∀ read, m.heap.Reads read →
          m'.heap.Spells expr (shape (clauses.map (Clause.sketch read)) (.row (body.map read) (.word nil)))
  full : ∀ clauses body nil, m.heap.BindingForm operands clauses body nil →
    m.heap.cells.freeCount < cells clauses.length → ∃ m' n, run m = .error m.full m' ∧ m.Adds m' n
  improper : (∀ clauses body nil, ¬ m.heap.BindingForm operands clauses body nil) →
    ∃ fault, run m = .error (.error (.badSyntax form.name fault)) m

section Rewriting

variable {m : Machine} {operands env : Word}

/-- An expression is built on the machine's heap, or the machine has too few cells. -/
theorem Heap.Builds.onHeap {x : HeapM Word} {n : Nat} {s : Sketch} (hx : m.heap.Builds x n s) :
    (m.heap.cells.freeCount < n ∧ ∃ m' k, Eval.onHeap x m = .error m.full m' ∧ m.Adds m' k) ∨
      ∃ w m', Eval.onHeap x m = .ok w m' ∧ m.Adds m' n ∧ m'.heap.Spells w s := by
  unfold Eval.onHeap
  rcases hx with ⟨hfew, h', k, hx, ha⟩ | ⟨w, h', hx, ha, hw⟩
  · refine .inl ⟨hfew, _, k, ?_, ha.machine⟩
    rw [hx]
    rfl
  · refine .inr ⟨w, _, ?_, ha.machine, hw⟩
    rw [hx]

theorem clausesOf_of_ok {form : Form} {bindings : Word} {clauses : List Clause}
    (hc : letClauses m.heap form bindings = .ok clauses) : clausesOf form bindings m = .ok clauses m := by
  show Eval.ofExcept (letClauses m.heap form bindings) m = _
  rw [hc]
  rfl

theorem clausesOf_of_error {form : Form} {bindings : Word} {e : Error}
    (hc : letClauses m.heap form bindings = .error e) : clausesOf form bindings m = .error (.error e) m := by
  show Eval.ofExcept (letClauses m.heap form bindings) m = _
  rw [hc]
  rfl

/-- The body of a binding form is what follows the bindings. -/
theorem Heap.Lists.body_spells {h : Heap} {bindings nil : Word} {body : List Word} {read : Word → Sketch}
    (hs : h.cells.Sound) (hl : h.Lists operands (bindings :: body) nil) (hnull : nil.isNull) (hr : h.Reads read) :
    operands.isPair ∧ h.Spells (h.cells.read operands.payload).cdr (.row (body.map read) (.word nil)) := by
  have hne : nil ≠ .error := by
    rintro rfl
    exact absurd hnull (by decide)
  cases hl with
  | cons hp hrest => exact ⟨hp, hrest.spells hs hne hr⟩

/-- A form is rewritten if with bindings and a body it builds an expression, and it fails without. -/
theorem rewrites_of {run : Eval Step} {form : Form} {build : List Clause → Word → HeapM Word} {cells : Nat → Nat}
    {shape : List (Word × Sketch) → Sketch → Sketch} (hs : m.heap.cells.Sound)
    (hbuild : ∀ {read s body}, m.heap.Reads read → m.heap.Spells body s → ∀ clauses,
      m.heap.Builds (build clauses body) (cells clauses.length) (shape (clauses.map (Clause.sketch read)) s))
    (hrun : ∀ bindings body nil, m.heap.Lists operands (bindings :: body) nil → nil.isNull → body ≠ [] →
      run m = (do
        let clauses ← clausesOf form bindings
        let rest ← Eval.cdr operands
        let expr ← Eval.onHeap (build clauses rest)
        return .tail expr env : Eval Step) m)
    (hbad : (∀ bindings body nil, m.heap.Lists operands (bindings :: body) nil → nil.isNull → body = []) →
      ∃ fault, run m = .error (.error (.badSyntax form.name fault)) m) :
    Rewrites m run form operands env cells shape := by
  have hform : ∀ {clauses body nil read}, m.heap.BindingForm operands clauses body nil → m.heap.Reads read →
      (m.heap.cells.freeCount < cells clauses.length ∧ ∃ m' k, run m = .error m.full m' ∧ m.Adds m' k) ∨
        ∃ expr m', run m = .ok (.tail expr env) m' ∧ m.Adds m' (cells clauses.length) ∧
          m'.heap.Spells expr (shape (clauses.map (Clause.sketch read)) (.row (body.map read) (.word nil))) := by
    intro clauses body nil read hf hr
    obtain ⟨bindings, hl, hbindings⟩ := hf.operands
    obtain ⟨hp, hbody⟩ := hl.body_spells hs hf.proper hr
    rw [hrun _ _ _ hl hf.proper hf.body,
      bind_of_ok (clausesOf_of_ok ((Heap.letClauses_eq_ok_iff hs form clauses).2 hbindings)),
      bind_of_ok (evalCdr_of_isPair hp)]
    rcases (hbuild hr hbody clauses).onHeap with ⟨hfew, m', k, hx, ha⟩ | ⟨expr, m', hx, ha, hexpr⟩
    · exact .inl ⟨hfew, m', k, bind_of_error hx, ha⟩
    · exact .inr ⟨expr, m', bind_of_ok hx, ha, hexpr⟩
  refine ⟨fun clauses body nil hf hroom => ?_, fun clauses body nil hf hfew => ?_, fun hno => ?_⟩
  · rcases hform hf m.heap.reads_word with ⟨hfew, -⟩ | ⟨expr, m', hok, ha, -⟩
    · omega
    refine ⟨expr, m', hok, ha, fun read hr => ?_⟩
    rcases hform hf hr with ⟨hfew, -⟩ | ⟨expr', m'', hok', -, hexpr⟩
    · omega
    rw [hok] at hok'
    cases hok'
    exact hexpr
  · rcases hform hf m.heap.reads_word with ⟨-, m', n, herror, ha⟩ | ⟨_, m', -, ha, -⟩
    · exact ⟨m', n, herror, ha⟩
    · have := ha.free
      omega
  · by_cases hempty : ∀ bindings body nil, m.heap.Lists operands (bindings :: body) nil → nil.isNull → body = []
    · exact hbad hempty
    · push Not at hempty
      obtain ⟨bindings, body, nil, hl, hnull, hbody⟩ := hempty
      rw [hrun _ _ _ hl hnull hbody]
      cases hc : letClauses m.heap form bindings with
      | ok clauses =>
        exact absurd ⟨⟨bindings, hl, (Heap.letClauses_eq_ok_iff hs form clauses).1 hc⟩, hnull, hbody⟩ (hno _ _ _)
      | error e =>
        obtain ⟨fault, rfl⟩ := Heap.letClauses_error hc
        exact ⟨fault, bind_of_error (clausesOf_of_error hc)⟩

/-! ## The forms -/

theorem evalForm_of_error (ev : Evaluator) {form : Form} {e : Fault}
    (hitems : m.heap.listItems operands form.name = .error e) :
    evalForm ev form operands env m = .error (.error (.badSyntax form.name .improperOperands)) m := by
  unfold evalForm
  rw [bind_of_ok (rfl : (get : Eval Machine) m = .ok m m), hitems]
  rfl

theorem evalForm_bind (ev : Evaluator) {items : List Word}
    (hitems : m.heap.listItems operands Form.bind.name = .ok items.toArray) :
    evalForm ev .bind operands env m = evalBind items operands env m := by
  unfold evalForm
  rw [bind_of_ok (rfl : (get : Eval Machine) m = .ok m m), hitems]

theorem evalForm_bindInOrder (ev : Evaluator) {items : List Word}
    (hitems : m.heap.listItems operands Form.bindInOrder.name = .ok items.toArray) :
    evalForm ev .bindInOrder operands env m = evalBindInOrder items operands env m := by
  unfold evalForm
  rw [bind_of_ok (rfl : (get : Eval Machine) m = .ok m m), hitems]

/-- Without bindings and a body a form that wants two operands fails. -/
theorem evalForm_of_few {ev : Evaluator} {form : Form} {evalArgs : List Word → Eval Step} (hs : m.heap.cells.Sound)
    (heval : ∀ items : List Word, m.heap.listItems operands form.name = .ok items.toArray →
      evalForm ev form operands env m = evalArgs items m)
    (hfew : ∀ items : List Word, items.length < 2 →
      evalArgs items m = .error (.error (.badSyntax form.name .noBindingsOrBody)) m)
    (hempty : ∀ bindings body nil, m.heap.Lists operands (bindings :: body) nil → nil.isNull → body = []) :
    ∃ fault, evalForm ev form operands env m = .error (.error (.badSyntax form.name fault)) m := by
  cases hitems : m.heap.listItems operands form.name with
  | error e => exact ⟨_, evalForm_of_error ev hitems⟩
  | ok items =>
    obtain ⟨items⟩ := items
    refine ⟨_, (heval items hitems).trans (hfew items ?_)⟩
    obtain ⟨nil, hl, hnull⟩ := (Heap.listItems_eq_ok_iff hs _ _).1 hitems
    cases items with
    | nil => exact Nat.two_pos
    | cons bindings body =>
      obtain rfl := hempty bindings body nil hl hnull
      exact Nat.one_lt_two

theorem rewrites_bind (hs : m.heap.cells.Sound) (ev : Evaluator) (operands env : Word)
    (hfirst : ∀ first rest nil, m.heap.Lists operands (first :: rest) nil → ¬ first.isSymbol) :
    Rewrites m (evalForm ev .bind operands env) .bind operands env (fun n => 2 * n + 3) .application := by
  refine rewrites_of hs (Heap.builds_letExpr hs) (fun bindings body nil hl hnull hbody => ?_)
    (evalForm_of_few hs (fun _ => evalForm_bind ev) fun items hfew => ?_)
  · rw [evalForm_bind ev ((Heap.listItems_eq_ok_iff hs _ _).2 ⟨nil, hl, hnull⟩)]
    cases body with
    | nil => contradiction
    | cons first body => rw [evalBind, if_neg (hfirst _ _ _ hl)]
  · rcases items with _ | ⟨_, _ | _⟩
    · rfl
    · rfl
    · exact absurd hfew (by simp)

theorem rewrites_bindInOrder (hs : m.heap.cells.Sound) (ev : Evaluator) (operands env : Word) :
    Rewrites m (evalForm ev .bindInOrder operands env) .bindInOrder operands env Heap.cellsToNest .nested := by
  refine rewrites_of hs (Heap.builds_letStarExpr hs) (fun bindings body nil hl hnull hbody => ?_)
    (evalForm_of_few hs (fun _ => evalForm_bindInOrder ev) fun items hfew => ?_)
  · rw [evalForm_bindInOrder ev ((Heap.listItems_eq_ok_iff hs _ _).2 ⟨nil, hl, hnull⟩)]
    cases body with
    | nil => contradiction
    | cons first body => rfl
  · rcases items with _ | ⟨_, _ | _⟩
    · rfl
    · rfl
    · exact absurd hfew (by simp)

/-- A pair is a form or an application, by its first word. -/
theorem step_of_isPair (ev : Evaluator) (limit : Nat) {expr : Word} (hexpr : expr.isPair) :
    step ev limit expr env m = (Operation.formOf? (m.heap.cells.read expr.payload).car).elim
      (evalApplication ev limit (m.heap.cells.read expr.payload).car (m.heap.cells.read expr.payload).cdr env m)
      fun form => evalForm ev form (m.heap.cells.read expr.payload).cdr env m := by
  have hnull : ¬ expr.isNull := fun hnull => Word.not_isPair_of_isNull hnull hexpr
  have hsymbol : ¬ expr.isSymbol := fun hsymbol => Word.not_isPair_of_isSymbol hsymbol hexpr
  rw [step, if_neg hnull, if_neg hsymbol, if_pos hexpr, bind_of_ok (evalCar_of_isPair hexpr),
    bind_of_ok (evalCdr_of_isPair hexpr)]
  cases Operation.formOf? (m.heap.cells.read expr.payload).car <;> rfl

/-- An expression that starts with the symbol of a form is one, whatever the environment binds. -/
theorem step_form (ev : Evaluator) (limit : Nat) {expr : Word} {form : Form} (hexpr : expr.isPair)
    (hform : Operation.formOf? (m.heap.cells.read expr.payload).car = some form) :
    step ev limit expr env m = evalForm ev form (m.heap.cells.read expr.payload).cdr env m := by
  rw [step_of_isPair ev limit hexpr, hform, Option.elim_some]

/-- Bindings and a body are rewritten into an application that binds the names at once, or into nested ones that bind
them one after another; other operands are a fault of syntax. The expressions in front of it are `lambda` expressions in
every environment. -/
theorem binding_forms_rewrite (hs : m.heap.cells.Sound) (ev : Evaluator) (operands env : Word) :
    ((∀ first rest nil, m.heap.Lists operands (first :: rest) nil → ¬ first.isSymbol) →
      Rewrites m (evalForm ev .bind operands env) .bind operands env (fun n => 2 * n + 3) .application) ∧
    Rewrites m (evalForm ev .bindInOrder operands env) .bindInOrder operands env Heap.cellsToNest .nested ∧
    ∀ limit expr, expr.isPair → (m.heap.cells.read expr.payload).car = Operation.lambdaSymbol →
      step ev limit expr env m = evalForm ev .lambda (m.heap.cells.read expr.payload).cdr env m :=
  ⟨rewrites_bind hs ev operands env, rewrites_bindInOrder hs ev operands env,
    fun limit _ hexpr hcar => step_form ev limit hexpr (by rw [hcar]; decide)⟩

end Rewriting

namespace Heap

theorem exists_lists_of_room {h : Heap} {k : Nat} (items : List Word) (hs : h.cells.Sound)
    (hroom : h.cells.freeCount = k + items.length) :
    ∃ w h', h.Adds h' items.length ∧ h'.cells.freeCount = k ∧ h'.Lists w items .nil := by
  rcases listOf_cases hs items with ⟨hfew, -⟩ | ⟨w, h', -, ha, hl⟩
  · omega
  · exact ⟨w, h', ha, by have := ha.free; omega, hl⟩

/-- The operands `(((x 1) (y x)) y)` and as many free cells as `let*` needs for them. -/
theorem exists_bindingForm : ∃ (h : Heap) (operands : Word), h.cells.Sound ∧ h.cells.freeCount = 12 ∧
    h.BindingForm operands [⟨.symbol 70, .ofNat 1⟩, ⟨.symbol 71, .symbol 70⟩] [.symbol 71] .nil := by
  have hne : Word.nil ≠ .error := by decide
  have hnull : Word.nil.isNull := by decide
  let h : Heap := { (default : Heap) with cells := .fresh 20 }
  have hs : h.cells.Sound := .fresh (by decide)
  have hfree : h.cells.freeCount = 18 + 2 := by simp [h, Pool.freeCount, Pool.fresh]
  obtain ⟨first, h₁, ha₁, hfree₁, hfirst⟩ := exists_lists_of_room [.symbol 70, .ofNat 1] hs hfree
  obtain ⟨second, h₂, ha₂, hfree₂, hsecond⟩ := exists_lists_of_room [.symbol 71, .symbol 70] ha₁.sound hfree₁
  obtain ⟨bindings, h₃, ha₃, hfree₃, hbindings⟩ := exists_lists_of_room [first, second] ha₂.sound hfree₂
  obtain ⟨operands, h₄, ha₄, hfree₄, hoperands⟩ := exists_lists_of_room [bindings, .symbol 71] ha₃.sound hfree₃
  have hclauses : List.Forall₂ h₄.IsClause [first, second] [⟨.symbol 70, .ofNat 1⟩, ⟨.symbol 71, .symbol 70⟩] := by
    refine .cons ⟨by decide, .nil, ?_, hnull⟩ (.cons ⟨by decide, .nil, ?_, hnull⟩ .nil)
    · exact hfirst.kept ha₁.sound hne (ha₂.trans (ha₃.trans ha₄)).kept
    · exact hsecond.kept ha₂.sound hne (ha₃.trans ha₄).kept
  exact ⟨h₄, operands, ha₄.sound, hfree₄,
    ⟨bindings, hoperands, _, .nil, hbindings.kept ha₃.sound hne ha₄.kept, hnull, hclauses⟩, hnull, by decide⟩

end Heap

/-- Two bindings, the second of which uses the first; and no operands at all. -/
theorem binding_forms_rewrite_two : ∃ (m : Machine) (operands : Word), m.heap.cells.Sound ∧
    (∃ expr m', evalForm (fun _ _ => throw .unfinished) .bindInOrder operands .nil m = .ok (.tail expr .nil) m' ∧
      m'.heap.Spells expr (.list [.lambda (.list [.word (.symbol 70)]) (.list [
        .list [.lambda (.list [.word (.symbol 71)]) (.list [.word (.symbol 71)]), .word (.symbol 70)]]),
        .word (.ofNat 1)])) ∧
    ∃ fault, evalForm (fun _ _ => throw .unfinished) .bind .nil .nil m =
      .error (.error (.badSyntax Form.bind.name fault)) m := by
  obtain ⟨h, operands, hs, hfree, hform⟩ := Heap.exists_bindingForm
  let m : Machine := { (default : Machine) with heap := h }
  obtain ⟨-, hnested, -⟩ := binding_forms_rewrite (m := m) hs (fun _ _ => throw .unfinished) operands .nil
  obtain ⟨happlication, -, -⟩ := binding_forms_rewrite (m := m) hs (fun _ _ => throw .unfinished) .nil .nil
  have hnil : ∀ first rest nil, ¬ m.heap.Lists .nil (first :: rest) nil := by
    intro first rest nil hl
    cases hl with
    | cons hp _ => exact absurd hp (by decide)
  refine ⟨m, operands, hs, ?_, ?_⟩
  · obtain ⟨expr, m', hrun, -, hspells⟩ := hnested.proper _ _ _ hform hfree.ge
    exact ⟨expr, m', hrun, hspells .word m.heap.reads_word⟩
  · refine (happlication fun _ _ _ hl => absurd hl (hnil _ _ _)).improper fun _ _ _ hf => ?_
    obtain ⟨_, hl, -⟩ := hf.operands
    exact hnil _ _ _ hl

end BoxedScheme
