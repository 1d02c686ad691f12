import BoxedScheme.Proofs.Tracking

/-!
# Disciplined calls

Bodies, applications and operands under a discipline, given nested evaluations.

* `Entered D n through lent g m env body` : a body of which the rest is held, unless two calls of `apply` led to it;
* `Callable D n lent g m operator args through` : what holds an operator and its arguments;
* `Collecting D d n lent g m env operator last rest` : operands under evaluation, their values in the root at `n`;
* `tracks_evalBody`, `tracks_applyValues`, `tracks_evalOperands` : the loops, by induction on their limits;
* `tracks_evalApplication` : applications.
-/

namespace BoxedScheme

open Supervised (Halt Run check act plain embed)

/-! ## Bodies -/

section Bodies

variable {P : Policy} {E : Moment → Prop} {D : Discipline P E} {d n through : Nat} {hand : Hand} {lent : List Word}
  {g : D.Ghost} {m : Machine} {ev : Evaluator} {supervised : Supervised.Evaluator} {env body : Word}

/-- A body is to be evaluated with its environment in the root behind position `n`. Unless it was entered through two
calls of `apply`, the roots up to there hold it. -/
structure Entered (D : Discipline P E) (n through : Nat) (lent : List Word) (g : D.Ghost) (m : Machine)
    (env body : Word) : Prop where
  size : m.heap.roots.size = n + 2
  env : D.Held (n + 2) lent g m .env env
  fits : D.Fits g m (.operands .exprs) body
  holds : through < 2 → D.Holds (n + 1) lent g m body

theorem tracks_evalBodyWith {again : Word → Eval Step} {supervisedAgain : Word → Run Step}
    (hr : InHand D.toInvariant d hand g m) (hev : Evaluating D ev supervised)
    (hagain : ∀ rest g' m', InHand D.toInvariant d hand g' m' → Entered D n through hand.lent g' m' env rest →
      Tracks D d hand.lent g' m' (again rest m') (supervisedAgain rest m') D.Yields)
    (hen : Entered D n through hand.lent g m env body) :
    Tracks D d hand.lent g m (evalBodyWith ev env again body m)
      (Supervised.evalBodyWith P supervised hand env through supervisedAgain body m) D.Yields := by
  have hgrips := (hr.grips.hold hen.env.fits).hold hen.fits
  refine hr.bind ((obeys_car hr.good).act hr.good hgrips) ?_
  rintro expr g m hr - ⟨-, rfl, rfl, hp, rfl⟩
  refine hr.bind ((obeys_cdr hr.good).act hr.good hgrips) ?_
  rintro rest g m hr - ⟨-, rfl, rfl, -, rfl⟩
  obtain ⟨hexpr, hrest⟩ := D.operands hr.good hen.fits hp
  have hholds (ht : through < 2) : D.Holds (n + 1) hand.lent g m (m.heap.cells.read body.payload).cdr :=
    (D.holds_pair hen.fits (hen.holds ht) hp trivial).2
  generalize (m.heap.cells.read body.payload).cdr = rest at hrest hholds ⊢
  by_cases hlast : !rest.isPair
  · simp only [if_pos hlast]
    exact .pure hr ⟨hexpr, hen.env.fits⟩
  simp only [if_neg hlast]
  have hraised := hr.raise (hen.size ▸ hr.depth) (Nat.le_of_eq hen.size.symm)
  have hr₀ := hraised.hold hen.env trivial
  -- Nothing is certain to hold a body that two calls of `apply` led to, so its rest is lent meanwhile.
  by_cases ht : through < 2
  · have hheld : D.Held (n + 1) hand.lent g m (.operands .exprs) rest := ⟨hrest, hholds ht⟩
    have hmore := hr₀.hold (hheld.mono (Nat.le_succ _)) trivial
    rw [Hand.holdBody, if_pos ht]
    refine hr.bind (hev.tracks (hen.size ▸ hmore) hr.depth (List.Subset.refl _) hexpr hen.env.fits) ?_
    rintro v g' m' hr' - ⟨hn, -, hroots⟩
    rw [hen.size] at hn
    have hrest' := hheld.next (hn.lower (Nat.le_succ _)) trivial
    exact hagain rest g' m' hr' ⟨hroots ▸ hen.size, hen.env.next hn trivial, hrest'.fits, fun _ => hrest'.holds⟩
  · have hmore := hr₀.lend hrest
    rw [Hand.holdBody, if_neg ht]
    have hsub : hand.lent ⊆ rest :: hand.lent := List.subset_cons_self rest hand.lent
    refine hr.bind (hev.tracks (hen.size ▸ hmore) hr.depth hsub hexpr hen.env.fits) ?_
    rintro v g' m' hr' - ⟨hn, -, hroots⟩
    rw [hen.size] at hn
    have hlent : D.Held (n + 2) (rest :: hand.lent) g m (.operands .exprs) rest :=
      ⟨hrest, D.holds_lent hrest List.mem_cons_self⟩
    exact hagain rest g' m' hr' ⟨hroots ▸ hen.size, hen.env.next (hn.mono (Nat.le_refl _) hsub) trivial,
      (hlent.next hn trivial).fits, fun h => absurd h ht⟩

theorem tracks_evalBody (hr : InHand D.toInvariant d hand g m) (hev : Evaluating D ev supervised) (limit : Nat)
    (hen : Entered D n through hand.lent g m env body) :
    Tracks D d hand.lent g m (evalBody ev env limit body m)
      (Supervised.evalBody P supervised hand env through limit body m) D.Yields := by
  induction limit generalizing g m body with
  | zero => exact tracks_evalBodyWith hr hev (fun _ _ _ hr' _ => .throw hr') hen
  | succ limit ih => exact tracks_evalBodyWith hr hev (fun _ _ _ hr' hen' => ih hr' hen') hen

end Bodies

/-! ## The root stack -/

section Roots

variable {P : Policy} {E : Moment → Prop} {D : Discipline P E} {d : Nat} {hand : Hand} {lent : List Word} {g : D.Ghost}
  {m : Machine} {r : Role} {w : Word}

def Machine.push (w : Word) (m : Machine) : Machine := m.mapHeap fun h => { h with roots := h.roots.push w }

theorem Discipline.push (hm : D.Good g m) (hd : d ≤ m.heap.roots.size) (hw : D.Fits g m r w) :
    D.Next d lent g m g (m.push w) ∧ ∀ r v, D.Fits g m r v → D.Fits g (m.push w) r v := by
  refine D.withRoots hm (fun v hv => ?_) ?_
  · rcases Array.mem_push.1 hv with hv | rfl
    · exact .inl hv
    · exact .inr ⟨r, hw⟩
  · rw [Array.toList_push, List.take_append_of_le_length (Array.length_toList ▸ hd)]

theorem Discipline.truncateRoots (hm : D.Good g m) (d : Nat) :
    D.Next d lent g m g (m.mapHeap (·.truncateRoots d)) ∧
      ∀ r v, D.Fits g m r v → D.Fits g (m.mapHeap (·.truncateRoots d)) r v := by
  have hlist : (m.heap.roots.shrink d).toList = m.heap.roots.toList.take d := m.heap.toList_truncateRoots d
  refine D.withRoots hm (fun w hw => .inl ?_) ?_
  · rw [← Array.mem_toList_iff, hlist] at hw
    exact Array.mem_toList_iff.1 (List.mem_of_mem_take hw)
  · rw [hlist, List.take_take, Nat.min_self]

theorem tracks_pushRoot {more : Hand} (hr : InHand D.toInvariant d hand g m) (hmore : D.Grips g m more)
    (hw : D.Fits g m r w) :
    Tracks D d lent g m (Eval.onHeap (Heap.pushRoot w) m) (act P more (Eval.onHeap (Heap.pushRoot w)) m)
      fun slot g' m' => slot = m.heap.roots.size ∧ g' = g ∧ m' = m.push w := by
  refine .check .look hr.good hmore trivial (.inr ⟨rfl, ?_⟩)
  unfold Eval.onHeap
  by_cases hlt : m.heap.roots.size < m.heap.rootCapacity
  · rw [Heap.pushRoot_of_lt hlt]
    exact ⟨g, (D.push hr.good hr.depth hw).1, rfl, rfl, rfl⟩
  · rw [Heap.pushRoot_of_not_lt hlt]
    exact ⟨g, .refl hr.good d lent⟩

/-- The word that was pushed is held. -/
theorem Discipline.held_push (hm : D.Good g m) (hw : D.Fits g m r w) :
    D.Held (m.heap.roots.size + 1) lent g (m.push w) r w := by
  obtain ⟨-, hl⟩ : D.Next 0 lent g m g (m.push w) ∧ _ := D.push hm (Nat.zero_le _) hw
  refine ⟨hl _ _ hw, D.holds_root (i := m.heap.roots.size) ?_ (Nat.lt_succ_self _)⟩
  show (m.heap.roots.push w)[m.heap.roots.size]? = some w
  rw [Array.getElem?_push, if_pos rfl]

end Roots

/-! ## Application -/

section Apply

variable {P : Policy} {E : Moment → Prop} {D : Discipline P E} {d n through : Nat} {hand : Hand} {lent : List Word}
  {g : D.Ghost} {m : Machine} {ev : Evaluator} {supervised : Supervised.Evaluator} {r : Role}
  {closure operator args env : Word}

/-- A closure is entered with its arguments as data. -/
theorem tracks_enterClosure (hr : InHand D.toInvariant d hand g m) (hev : Evaluating D ev supervised)
    (hsize : m.heap.roots.size = n + 1) (hcl : D.Fits g m .data closure) (hargs : D.Fits g m .data args)
    (hholds : through < 2 → closure.isClosure → D.Holds (n + 1) hand.lent g m closure) :
    Tracks D d hand.lent g m (enterClosure ev closure args m)
      (Supervised.enterClosure P supervised hand through closure args m) D.Yields := by
  have hcalled := (hr.grips.hold hargs).hold hcl
  refine hr.bind ((obeys_inspect hr.good).act hr.good hcalled) ?_
  rintro parts g m hr - ⟨-, rfl, rfl, hparts⟩
  obtain ⟨henv, hparams, hbody⟩ := D.closureParts hr.good hcl hparts
  obtain ⟨hc, -, -⟩ := Heap.closureParts_eq_ok hparts
  have hheld (ht : through < 2) : D.Held (n + 1) hand.lent g m (.operands .exprs) parts.body :=
    ⟨hbody, D.holds_body hr.good hcl (hholds ht hc) hparts⟩
  have hcode := (hcalled.hold hbody).hold hparams
  refine hr.bind ((D.extend hr.good henv hparams hargs).act hr.good (hcode.hold henv)) ?_
  rintro env g₁ m₁ hr₁ - ⟨hf, henv₁⟩
  have hcode₁ := (hcode.later (hf.next 0 []).idle hf.later).hold henv₁
  have hsize₁ : m₁.heap.roots.size = n + 1 := by rw [hf.roots_eq, hsize]
  refine hr₁.bind (tracks_pushRoot hr₁ hcode₁ henv₁) ?_
  rintro _ g₁ m₂ hr₂ - ⟨rfl, rfl, rfl⟩
  obtain ⟨hn₂, hl₂⟩ : D.Next (n + 1) hand.lent g₁ m₁ g₁ (m₁.push env) ∧ _ :=
    D.push hr₁.good (Nat.le_of_eq hsize₁.symm) henv₁
  have henv₂ : D.Held (m₁.heap.roots.size + 1) hand.lent g₁ (m₁.push env) .env env := D.held_push hr₁.good henv₁
  rw [hsize₁] at henv₂
  have hen : Entered D n through hand.lent g₁ (m₁.push env) env parts.body :=
    ⟨(Array.size_push ..).trans (congrArg (· + 1) hsize₁), henv₂, hl₂ _ _ (hf.later _ _ hbody),
      fun ht => (((hheld ht).next (hf.next _ _) trivial).next hn₂ trivial).holds⟩
  have hleft := (hr₂.leave (hl₂ _ _ (hf.later _ _ hargs))).leave (hl₂ _ _ (hf.later _ _ hcl))
  exact .get_bind (tracks_evalBody hleft hev _ hen)

/-- What holds on to an operator and its arguments, by the number of calls of `apply` they came through: the root below
the one at `n`, the argument list of `apply` in the root at `n`, or nothing that is certain to last. -/
inductive Callable (D : Discipline P E) (n : Nat) (lent : List Word) (g : D.Ghost) (m : Machine)
    (operator args : Word) : Nat → Prop where
  | direct : D.Held n lent g m .data operator → D.Held (n + 1) lent g m (.args n) args →
    Callable D n lent g m operator args 0
  | applied : D.Fits g m .data operator → (operator.isClosure → D.Holds (n + 1) lent g m operator) →
    D.Fits g m .data args → Callable D n lent g m operator args 1
  | forwarded (through : Nat) : D.Fits g m .data operator → D.Fits g m .data args →
    Callable D n lent g m operator args (through + 2)

theorem Callable.fits_operator (hc : Callable D n lent g m operator args through) : D.Fits g m .data operator := by
  cases hc with
  | direct hop _ => exact hop.fits
  | applied hop _ _ => exact hop
  | forwarded _ hop _ => exact hop

theorem Callable.fits_args (hc : Callable D n lent g m operator args through) :
    ∃ r : Role, r.shown = .data ∧ D.Fits g m r args := by
  cases hc with
  | direct _ hargs => exact ⟨_, rfl, hargs.fits⟩
  | applied _ _ hargs => exact ⟨_, rfl, hargs⟩
  | forwarded _ _ hargs => exact ⟨_, rfl, hargs⟩

/-- The target of `apply` is held by the argument list of `apply`, if that is held. -/
theorem Callable.next {argv : Array Word} {tail list : Word} (hc : Callable D n lent g m operator args through)
    (hl : m.heap.Lists args argv.toList tail) (htarget : D.Fits g m .data (argv.getD 0 .unspecified))
    (hlist : D.Fits g m .data list) : Callable D n lent g m (argv.getD 0 .unspecified) list (through + 1) := by
  cases hc with
  | direct _ hargs =>
    refine .applied htarget (fun hcl => ?_) hlist
    obtain ⟨argv⟩ := argv
    cases hl with
    | nil => exact absurd hcl (by decide)
    | cons hp _ => exact (D.holds_pair hargs.fits hargs.holds hp (Nat.lt_succ_self n)).1
  | applied _ _ _ => exact .forwarded 0 htarget hlist
  | forwarded through _ _ => exact .forwarded (through + 1) htarget hlist

/-- The argument list of a closure becomes data, since the closure's parameters may hold on to it. -/
theorem tracks_enterCallable (hr : InHand D.toInvariant d hand g m) (hev : Evaluating D ev supervised) (hdn : d ≤ n)
    (hsize : m.heap.roots.size = n + 1) (hc : Callable D n hand.lent g m operator args through) :
    Tracks D d hand.lent g m (enterClosure ev operator args m)
      (Supervised.enterClosure P supervised hand through operator args m) D.Yields := by
  cases hc with
  | direct hop hargs =>
    -- The operator is held below `n`, where giving up the argument list changes nothing.
    obtain ⟨g', hn, hfits⟩ := D.settle n hr.good
    have hop' := hop.next (hn _) trivial
    have hargs' : D.Fits g' m .data args := by
      have hdata := hfits _ _ hargs.fits
      rwa [Role.settle, if_neg (Nat.lt_irrefl n)] at hdata
    have hnd := (hn hand.lent).lower hdn
    refine .after hnd (tracks_enterClosure (hr.next hnd) hev hsize hop'.fits hargs' fun _ _ => ?_)
    exact (hop'.mono (Nat.le_succ n)).holds
  | applied hop hholds hargs => exact tracks_enterClosure hr hev hsize hop hargs fun _ => hholds
  | forwarded through hop hargs => exact tracks_enterClosure hr hev hsize hop hargs fun h => absurd h (by omega)

theorem obeys_spreadArguments {list : Word} (hm : D.Good g m) :
    D.Obeys g m (spreadArguments list m) fun w g' m' => g' = g ∧ m' = m ∧ w = list := by
  refine (obeys_inspect hm).bind ?_
  rintro tail g m - ⟨rfl, rfl, -⟩
  split
  · exact ⟨g, .refl hm, rfl, rfl, rfl⟩
  · exact ⟨g, .refl hm⟩

theorem tracks_notCallable {called : Hand} (hm : D.Good g m) (hcalled : D.Grips g m called) :
    Tracks D d lent g m (notCallable operator m) (act P called (notCallable operator : Eval Step) m) D.Yields :=
  .check .look hm hcalled trivial (.inr ⟨rfl, g, .refl hm d lent⟩)

/-- The items of an argument list are data. -/
theorem Discipline.items {items : List Word} {list tail : Word} (hm : D.Good g m) (hrole : r.shown = .data)
    (hlist : D.Fits g m r list) (hl : m.heap.Lists list items tail) : ∀ a ∈ items, D.Fits g m .data a := by
  induction hl with
  | nil => simp
  | cons hp _ ih =>
    rw [List.forall_mem_cons]
    cases r with
    | data => exact ⟨(D.data hm hlist hp).1, ih (D.data hm hlist hp).2⟩
    | args n => exact ⟨(D.args hm hlist hp).1, ih (D.args hm hlist hp).2⟩
    | _ => cases hrole

/-- The procedures that evaluate take as many arguments as they look at. -/
theorem Operation.arity_apply_load {id : UInt32} {p : Primitive} {name : String} {arity : Arity}
    (h : Operation.entry? id = some ⟨.primitive p, name, arity⟩) :
    (p = .apply → arity = .exact 2) ∧ (p = .load → arity = .exact 1) := by
  have htable : ∀ entry ∈ Operation.table, (entry.operation = .primitive .apply → entry.arity = .exact 2) ∧
      (entry.operation = .primitive .load → entry.arity = .exact 1) := by decide
  obtain ⟨happly, hload⟩ := htable _ (Array.mem_of_getElem? h)
  exact ⟨fun hp => happly (hp ▸ rfl), fun hp => hload (hp ▸ rfl)⟩

theorem tracks_applyWith {again : Word → Word → Eval Step} {supervisedAgain : Word → Word → Run Step}
    (hr : InHand D.toInvariant d hand g m) (hev : Evaluating D ev supervised) (hdn : d ≤ n)
    (hsize : m.heap.roots.size = n + 1)
    (hagain : ∀ target list, Callable D n hand.lent g m target list (through + 1) →
      Tracks D d hand.lent g m (again target list m) (supervisedAgain target list m) D.Yields)
    (hc : Callable D n hand.lent g m operator args through) :
    Tracks D d hand.lent g m (applyWith ev again operator args m)
      (Supervised.applyWith P supervised hand through supervisedAgain operator args m) D.Yields := by
  have hop := hc.fits_operator
  obtain ⟨r, hrole, hargs⟩ := hc.fits_args
  have hcalled := (hr.grips.hold hargs).hold hop
  rw [hrole] at hcalled
  unfold applyWith Supervised.applyWith
  cases operator.kind with
  | closure _ => exact tracks_enterCallable hr hev hdn hsize hc
  | procedure id =>
    dsimp only
    generalize hentry : Operation.entry? id = entry
    match entry with
    | none | some ⟨.form _, _, _⟩ => exact tracks_notCallable hr.good hcalled
    | some ⟨.primitive p, name, arity⟩ =>
      refine hr.bind ((obeys_inspect hr.good).act hr.good hcalled) ?_
      rintro argv g m hr - ⟨-, rfl, rfl, hargv⟩
      obtain ⟨tail, hl⟩ := Heap.listItems_lists hargv
      have hdata := D.items hr.good hrole hargs hl
      have hget (i : Nat) : D.Fits g m .data (argv.getD i .unspecified) := by
        by_cases hi : i < argv.size
        · rw [Array.getD, dif_pos hi]
          exact hdata _ (Array.getElem_mem_toList hi)
        · rw [Array.getD, dif_neg hi]
          exact D.immediate (by decide)
      have hgiven := hcalled.holdAll hdata
      by_cases harity : arity.accepts argv.size
      · obtain ⟨happly, hload⟩ := Operation.arity_apply_load hentry
        simp only [harity, Bool.not_true, Bool.false_eq_true, if_false]
        cases p with
        | apply =>
          have hcount : argv.size = 2 := by simpa [happly rfl, Arity.accepts] using harity
          have hfirst : Deed.Possible m (.argument 0 argv.size) := by simp [Deed.Possible, hcount]
          have hsecond : Deed.Possible m (.argument 1 argv.size) := by simp [Deed.Possible, hcount]
          refine .check (.argument _ _) hr.good hgiven hfirst (.check (.argument _ _) hr.good hgiven hsecond ?_)
          refine hr.bind ((obeys_spreadArguments hr.good).act hr.good hgiven) ?_
          rintro list g m hr - ⟨-, rfl, rfl, rfl⟩
          exact hagain _ _ (hc.next hl (hget 0) (hget 1))
        | load =>
          have hcount : argv.size = 1 := by simpa [hload rfl, Arity.accepts] using harity
          have hfirst : Deed.Possible m (.argument 0 argv.size) := by simp [Deed.Possible, hcount]
          refine .check (.argument _ _) hr.good hgiven hfirst ?_
          have hleft := ((hr.leave hargs).leave hop).leaveAll hdata
          rw [hrole] at hleft
          refine hr.bind (tracks_load hleft hev name (hget 0)) fun value g' m' hr' _ hvalue => ?_
          exact .pure hr' hvalue
        | _ =>
          refine .supervised_get_bind ?_
          refine hr.bind ((D.call hr.good hdata).result.act hr.good hgiven) ?_
          rintro value g' m' hr' - ⟨hf, hcall, hvalue⟩
          have hgiven' := hgiven.later (hf.next 0 []).idle hf.later
          exact .allowed (D.allows_called hr.good hgiven hdata hcall hr'.good hgiven') (.pure hr' hvalue)
      · simp only [harity, Bool.not_false, if_true]
        exact tracks_raise hr
  | _ => exact tracks_notCallable hr.good hcalled

theorem tracks_applyValues (hr : InHand D.toInvariant d hand g m) (hev : Evaluating D ev supervised) (hdn : d ≤ n)
    (hsize : m.heap.roots.size = n + 1) (limit : Nat) (hc : Callable D n hand.lent g m operator args through) :
    Tracks D d hand.lent g m (applyValues ev limit operator args m)
      (Supervised.applyValues P supervised hand through limit operator args m) D.Yields := by
  induction limit generalizing through operator args with
  | zero => exact tracks_applyWith hr hev hdn hsize (fun _ _ _ => .throw hr) hc
  | succ limit ih => exact tracks_applyWith hr hev hdn hsize (fun _ _ => ih) hc

end Apply

/-! ## Operands -/

section Operands

variable {P : Policy} {E : Moment → Prop} {D : Discipline P E} {d n : Nat} {hand : Hand} {lent : List Word}
  {g g' : D.Ghost} {m m' : Machine} {ev : Evaluator} {supervised : Supervised.Evaluator}
  {operator operands env last rest cell head : Word}

/-- The root at `n` holds an argument list, and the one below holds the operator. -/
structure Collected (D : Discipline P E) (n : Nat) (lent : List Word) (g : D.Ghost) (m : Machine) (operator : Word) :
    Prop where
  size : m.heap.roots.size = n + 1
  operator : D.Held n lent g m .data operator
  list : D.Fits g m (.args n) (m.heap.root n)

/-- The operands `rest` are still to be evaluated, and `last` is the last cell of the argument list, if it has any. -/
structure Collecting (D : Discipline P E) (d n : Nat) (lent : List Word) (g : D.Ghost) (m : Machine)
    (env operator last rest : Word) : Prop extends Collected D n lent g m operator where
  env : D.Held d lent g m .env env
  rest : D.Held d lent g m (.operands .exprs) rest
  last : D.Held (n + 1) lent g m (.args n) last

theorem Collected.lt_size (hc : Collected D n lent g m operator) : n < m.heap.roots.size :=
  hc.size ▸ Nat.lt_succ_self n

theorem Collected.root (hc : Collected D n lent g m operator) : D.Held (n + 1) lent g m (.args n) (m.heap.root n) := by
  refine ⟨hc.list, D.holds_root (i := n) ?_ (Nat.lt_succ_self n)⟩
  rw [Heap.root, Array.getElem?_eq_getElem hc.lt_size, Option.getD_some]

/-- Evaluations above the argument list leave it alone. -/
theorem Collecting.next (hc : Collecting D d n lent g m env operator last rest) (hdn : d ≤ n)
    (hn : D.Next (n + 1) lent g m g' m') (hroots : m'.heap.roots = m.heap.roots) :
    Collecting D d n lent g' m' env operator last rest := by
  have hbelow := hn.lower (Nat.le_succ n)
  have hargs : (Role.args n).Fixed (n + 1) := Nat.lt_succ_self n
  refine ⟨⟨hroots ▸ hc.size, hc.operator.next hbelow trivial, ?_⟩, hc.env.next (hbelow.lower hdn) trivial,
    hc.rest.next (hbelow.lower hdn) trivial, hc.last.next hn hargs⟩
  rw [Heap.root, hroots]
  exact (hc.root.next hn hargs).fits

/-- The cell goes behind the last one, or into the root if it is the first. -/
theorem Collecting.tracks_appendCell (hr : InHand D.toInvariant d hand g m) (hdn : d ≤ n)
    (hc : Collecting D d n hand.lent g m env operator last rest) (hcell : D.Fits g m (.args n) cell) :
    Tracks D d hand.lent g m (appendCell n last cell m) (plain (appendCell n last cell) m) fun _ g' m' =>
      (∀ r w, D.Fits g m r w → D.Fits g' m' r w) ∧ Collecting D d n hand.lent g' m' env operator cell rest := by
  refine .inr ⟨rfl, ?_⟩
  unfold appendCell
  by_cases hnull : last.isNull
  · rw [if_pos hnull]
    obtain ⟨hn, hl⟩ : D.Next n hand.lent g m g (m.mapHeap (·.setRoot n cell)) ∧ _ := by
      refine D.withRoots hr.good (fun w hw => ?_) ?_
      · rcases Array.mem_or_eq_of_mem_setIfInBounds hw with hw | rfl
        · exact .inl hw
        · exact .inr ⟨_, hcell⟩
      · rw [Array.toList_setIfInBounds, List.take_set_of_le (Nat.le_refl n)]
    have hsize : (m.mapHeap (·.setRoot n cell)).heap.roots.size = n + 1 := Array.size_setIfInBounds.trans hc.size
    have hroot : (m.mapHeap (·.setRoot n cell)).heap.root n = cell := by
      simp [Machine.mapHeap, Heap.root, Heap.setRoot, hc.size]
    have hlist : Collected D n hand.lent g (m.mapHeap (·.setRoot n cell)) operator :=
      ⟨hsize, hc.operator.next hn trivial, hroot.symm ▸ hl _ _ hcell⟩
    have hlast := hlist.root
    rw [hroot] at hlast
    have hnd := hn.lower hdn
    exact ⟨g, hnd, hl, hlist, hc.env.next hnd trivial, hc.rest.next hnd trivial, hlast⟩
  · rw [if_neg hnull]
    unfold Eval.onHeap Heap.setCdr
    by_cases hp : last.isPair
    · rw [Heap.updatePair_of_isPair hp]
      obtain ⟨g', hn, hl, hholds⟩ := D.append hr.good hc.last hcell hp
      have hnd := (hn hand.lent).lower hdn
      exact ⟨g', hnd, hl, ⟨hc.size, hc.operator.next (hn _) trivial, hl _ _ hc.list⟩, hc.env.next hnd trivial,
        hc.rest.next hnd trivial, hl _ _ hcell, hholds⟩
    · rw [Heap.updatePair_of_not_isPair hp]
      exact ⟨g, .refl hr.good d _⟩

theorem tracks_evalOperandsWith {again : Word → Word → Eval Unit} {supervisedAgain : Word → Word → Run Unit}
    (hr : InHand D.toInvariant d hand g m) (hev : Evaluating D ev supervised) (hdn : d ≤ n)
    (hagain : ∀ last rest g' m', InHand D.toInvariant d hand g' m' →
      Collecting D d n hand.lent g' m' env operator last rest →
      Tracks D d hand.lent g' m' (again last rest m') (supervisedAgain last rest m') fun _ g' m' =>
        Collected D n hand.lent g' m' operator)
    (hc : Collecting D d n hand.lent g m env operator last rest) :
    Tracks D d hand.lent g m (evalOperandsWith ev env n again last rest m)
      (Supervised.evalOperandsWith P supervised hand env operator n supervisedAgain last rest m) fun _ g' m' =>
        Collected D n hand.lent g' m' operator := by
  unfold evalOperandsWith Supervised.evalOperandsWith
  by_cases hp : rest.isPair
  · simp only [if_pos hp]
    refine .supervised_get_bind ?_
    -- What a nested evaluation finds in hand is held by the roots up to the argument list.
    have hsize : m.heap.roots.size = n + 1 := hc.size
    have hargs : (Role.args n).Fixed (n + 1) := Nat.lt_succ_self n
    have hraised : InHand D.toInvariant (n + 1) hand g m := hr.raise (Nat.le_succ_of_le hdn) (Nat.le_of_eq hsize.symm)
    have hlists := (hraised.hold hc.last hargs).hold hc.root hargs
    have hr₀ := (hlists.hold (hc.operator.mono (Nat.le_succ n)) trivial).hold
      (hc.rest.mono (Nat.le_succ_of_le hdn)) trivial
    refine hr.bind ((obeys_car hr.good).act hr.good hr₀.grips) ?_
    rintro expr g m hr - ⟨-, rfl, rfl, -, rfl⟩
    obtain ⟨hexpr, -⟩ := D.operands hr.good hc.rest.fits hp
    have hnested := hev.tracks (hsize ▸ hr₀) hr.depth (List.Subset.refl _) hexpr hc.env.fits
    refine hr.bind hnested ?_
    rintro value g₁ m₁ hr₁ - ⟨hn, hvalue, hroots⟩
    rw [hsize] at hn
    have hc₁ := hc.next hdn hn hroots
    have hgrips₁ := (hr₀.next hn).grips
    refine hr₁.bind ((D.cons n hr₁.good hvalue).act hr₁.good (hgrips₁.hold hvalue)) ?_
    rintro cell g₂ m₂ hr₂ - ⟨hf, hcell⟩
    have hc₂ := hc₁.next hdn (hf.next _ _) hf.roots_eq
    have hgrips₂ := (hgrips₁.later (hf.next 0 []).idle hf.later).hold hcell
    refine .check (.slot n) hr₂.good hgrips₂ hc₂.lt_size ?_
    refine hr₂.bind (hc₂.tracks_appendCell hr₂ hdn hcell) ?_
    rintro _ g₃ m₃ hr₃ hn₃ ⟨hl₃, hc₃⟩
    refine hr₃.bind ((obeys_cdr hr₃.good).act hr₃.good (hgrips₂.later hn₃.idle hl₃)) ?_
    rintro rest' g₃ m₃ hr₃ - ⟨-, rfl, rfl, -, rfl⟩
    exact hagain _ _ _ _ hr₃ { hc₃ with rest := (hc₃.rest.operands hr₃.good hp).2 }
  · simp only [if_neg hp]
    by_cases hnull : rest.isNull
    · simp only [if_pos hnull]
      exact .pure hr hc.toCollected
    · simp only [if_neg hnull]
      exact tracks_raise hr

theorem tracks_evalOperands (hr : InHand D.toInvariant d hand g m) (hev : Evaluating D ev supervised) (hdn : d ≤ n)
    (limit : Nat) (hc : Collecting D d n hand.lent g m env operator last rest) :
    Tracks D d hand.lent g m (evalOperands ev env n limit last rest m)
      (Supervised.evalOperands P supervised hand env operator n limit last rest m) fun _ g' m' =>
        Collected D n hand.lent g' m' operator := by
  induction limit generalizing g m last rest with
  | zero => exact tracks_evalOperandsWith hr hev hdn (fun _ _ _ _ hr' _ => .throw hr') hc
  | succ limit ih => exact tracks_evalOperandsWith hr hev hdn (fun _ _ _ _ hr' hc' => ih hr' hc') hc

/-- The values of the operands end up in a list that is held by a new root. -/
theorem tracks_operandValues (hr : InHand D.toInvariant d hand g m) (hev : Evaluating D ev supervised)
    (hsize : m.heap.roots.size = n) (hop : D.Held n hand.lent g m .data operator)
    (hoperands : D.Held d hand.lent g m (.operands .exprs) operands) (henv : D.Held d hand.lent g m .env env) :
    Tracks D d hand.lent g m (operandValues ev operands env m)
      (Supervised.operandValues P supervised hand operator operands env m) fun args g' m' =>
        Callable D n hand.lent g' m' operator args 0 ∧ m'.heap.roots.size = n + 1 := by
  have hnil {g : D.Ghost} {m : Machine} {r : Role} : D.Fits g m r .nil := D.immediate (by decide)
  have hdn : d ≤ n := hsize ▸ hr.depth
  refine hr.bind (tracks_pushRoot hr (hr.grips.hold hop.fits) (hnil (r := .data))) ?_
  rintro _ g m' hr' hn ⟨rfl, rfl, rfl⟩
  obtain ⟨hpush, -⟩ : D.Next n hand.lent g m g (m.push .nil) ∧ _ :=
    D.push hr.good (Nat.le_of_eq hsize.symm) (hnil (r := .data))
  have hroot : (m.push .nil).heap.root n = .nil := by
    subst hsize
    simp [Machine.push, Machine.mapHeap, Heap.root]
  have hlist : Collected D n hand.lent g (m.push .nil) operator :=
    ⟨(Array.size_push ..).trans (congrArg (· + 1) hsize), hop.next hpush trivial, hroot.symm ▸ hnil⟩
  have hlast := hlist.root
  rw [hroot] at hlast
  refine .get_bind ?_
  rw [hsize]
  have hc := Collecting.mk hlist (henv.next hn trivial) (hoperands.next hn trivial) hlast
  refine hr'.bind (tracks_evalOperands hr' hev hdn _ hc) ?_
  rintro _ g₁ m₁ hr₁ - hc₁
  refine .check (.slot n) hr₁.good (hr₁.grips.hold hc₁.operator.fits) hc₁.lt_size (.get_bind ?_)
  exact .pure hr₁ ⟨.direct hc₁.operator hc₁.root, hc₁.size⟩

theorem tracks_evalApplication (hr : InHand D.toInvariant d hand g m) (hev : Evaluating D ev supervised) (limit : Nat)
    (hhead : D.Fits g m .expr head) (hoperands : D.Held d hand.lent g m (.operands .exprs) operands)
    (henv : D.Held d hand.lent g m .env env) :
    Tracks D d hand.lent g m (evalApplication ev limit head operands env m)
      (Supervised.evalApplication P supervised hand limit head operands env m) D.Yields := by
  refine hr.bind (hev.tracks_inHand hr hhead henv.fits) fun operator g₁ m₁ hr₁ hn₁ hop => ?_
  refine hr₁.bind (tracks_pushRoot hr₁ (hr₁.grips.hold hop) hop) ?_
  rintro _ g₁ m₂ hr₂ hn₂ ⟨rfl, rfl, rfl⟩
  have hn := hn₁.trans hn₂
  refine hr₂.bind (tracks_operandValues hr₂ hev (Array.size_push ..) (D.held_push hr₁.good hop)
    (hoperands.next hn trivial) (henv.next hn trivial)) ?_
  rintro args g₃ m₃ hr₃ - ⟨hcallable, hsize⟩
  exact tracks_applyValues hr₃ hev (Nat.le_succ_of_le hr₁.depth) hsize limit hcallable

end Operands

end BoxedScheme
