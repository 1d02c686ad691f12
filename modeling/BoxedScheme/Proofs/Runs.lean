import BoxedScheme.Proofs.Calls

/-!
# Disciplined runs

What programs do under a discipline, from single passes up to programs run one after another.

* `Registered D slot g m expr env` : the roots that hold an expression and its environment during a pass;
* `tracks_step`, `tracks_passes` : one pass, and all passes by induction on the budget;
* `Discipline.runAll_cases`, `Discipline.runAll_eq` : programs one after another.
-/

namespace BoxedScheme

open Supervised (Halt Run check act plain embed)

/-! ## Passes -/

section Passes

variable {P : Policy} {E : Moment → Prop} {D : Discipline P E} {d slot : Nat} {hand : Hand} {lent : List Word}
  {g g' : D.Ghost} {m m' : Machine} {ev : Evaluator} {supervised : Supervised.Evaluator} {expr env : Word}

theorem tracks_step (hr : InHand D.toInvariant d hand g m) (hev : Evaluating D ev supervised) (limit : Nat)
    (hexpr : D.Held d hand.lent g m .expr expr) (henv : D.Held d hand.lent g m .env env) :
    Tracks D d hand.lent g m (step ev limit expr env m) (Supervised.step P supervised hand limit expr env m)
      D.Yields := by
  have hr₀ := (hr.hold henv trivial).hold hexpr trivial
  unfold step Supervised.step
  by_cases hn : expr.isNull
  · simp only [if_pos hn]
    exact tracks_raise hr
  simp only [if_neg hn]
  by_cases hs : expr.isSymbol
  · simp only [if_pos hs]
    refine hr.bind ((D.lookup hr.good henv.fits).act hr.good hr₀.grips) fun value g₁ m₁ hr₁ _ hvalue => ?_
    exact .pure hr₁ hvalue.2
  simp only [if_neg hs]
  by_cases hp : expr.isPair
  · simp only [if_pos hp]
    refine hr₀.bind ((obeys_car hr.good).act hr.good hr₀.grips) ?_
    rintro head g m hr₀ - ⟨-, rfl, rfl, -, rfl⟩
    refine hr₀.bind ((obeys_cdr hr.good).act hr.good hr₀.grips) ?_
    rintro operands g m hr₀ - ⟨-, rfl, rfl, -, rfl⟩
    obtain ⟨hhead, hoperands⟩ := hexpr.expr hr.good hp
    have hr₁ := hr₀.hold hoperands trivial
    cases hform : Operation.formOf? (m.heap.cells.read expr.payload).car with
    | some form => exact tracks_evalForm hr₁ hev hform hoperands henv
    | none =>
      rw [Shape.ofHead, hform] at hoperands
      exact tracks_evalApplication hr₁ hev limit hhead.fits hoperands henv
  · simp only [if_neg hp]
    exact .pure hr (D.atom hexpr.fits hp)

/-- The roots at `slot` and behind it hold an expression and its environment. -/
structure Registered (D : Discipline P E) (slot : Nat) (g : D.Ghost) (m : Machine) (expr env : Word) : Prop where
  first : m.heap.roots[slot]? = some expr
  second : m.heap.roots[slot + 1]? = some env
  fits : D.Fits g m .expr expr
  env : D.Fits g m .env env

theorem Registered.le_size (hreg : Registered D slot g m expr env) : slot + 2 ≤ m.heap.roots.size := by
  obtain ⟨hlt, -⟩ := Array.getElem?_eq_some_iff.1 hreg.second
  exact hlt

theorem Registered.held_expr (hreg : Registered D slot g m expr env) : D.Held (slot + 2) lent g m .expr expr :=
  ⟨hreg.fits, D.holds_root hreg.first (by omega)⟩

theorem Registered.held_env (hreg : Registered D slot g m expr env) : D.Held (slot + 2) lent g m .env env :=
  ⟨hreg.env, D.holds_root hreg.second (by omega)⟩

theorem Registered.next (hreg : Registered D slot g m expr env) (hn : D.Next (slot + 2) lent g m g' m') :
    Registered D slot g' m' expr env := by
  have hroot {i : Nat} (hi : i < slot + 2) : m'.heap.roots[i]? = m.heap.roots[i]? := by
    have htake := congrArg (·[i]?) hn.roots
    simpa [List.getElem?_take_of_lt hi] using htake
  exact ⟨(hroot (by omega)).trans hreg.first, (hroot (by omega)).trans hreg.second,
    (hreg.held_expr.next hn trivial).fits, (hreg.held_env.next hn trivial).fits⟩

/-- Roots are dropped, and then a collection happens if that is due. -/
theorem tracks_startPass (hr : InHand D.toInvariant (slot + 2) hand g m) :
    Tracks D (slot + 2) hand.lent g m ((modify (beginPass slot) : Eval Unit) m) (Supervised.startPass P hand slot m)
      fun _ _ _ => True := by
  obtain ⟨hn₁, -⟩ : D.Next (slot + 2) hand.lent g m g (m.mapHeap (·.truncateRoots (slot + 2))) ∧ _ :=
    D.truncateRoots hr.good (slot + 2)
  have hr₁ := hr.next hn₁
  refine .check (.drop _) hr.good hr.grips hr.depth ?_
  show Tracks D _ _ g m _ ((check P hand .collect >>= fun _ => modify maybeCollect >>= fun _ => check P hand .look)
    (m.mapHeap (·.truncateRoots (slot + 2)))) _
  rcases D.collect hr₁ with ⟨hok, g₂, hn₂⟩ | ⟨hno, hexcused⟩
  · have hr₂ := hr₁.next hn₂
    rw [check_bind hok]
    refine .inr ⟨?_, g₂, hn₁.trans hn₂, trivial⟩
    show check P hand .look (beginPass slot m) = _
    unfold check
    exact if_pos (D.allows .look hr₂.good hr₂.grips trivial)
  · rw [check_bind_of_not hno]
    exact .inl ⟨_, _, rfl, hexcused⟩

theorem tracks_pushRoots (hr : InHand D.toInvariant d hand g m) (hexpr : D.Fits g m .expr expr)
    (henv : D.Fits g m .env env) :
    Tracks D d lent g m (Eval.onHeap (Heap.pushRoots expr env) m)
      (act P ((hand.hold .env env).hold .expr expr) (Eval.onHeap (Heap.pushRoots expr env)) m) fun slot g' m' =>
        slot = m.heap.roots.size ∧ Registered D slot g' m' expr env := by
  refine .check .look hr.good ((hr.grips.hold henv).hold hexpr) trivial (.inr ⟨rfl, ?_⟩)
  unfold Eval.onHeap Heap.pushRoots
  dsimp only
  by_cases hlt : m.heap.roots.size + 1 < m.heap.rootCapacity
  · rw [if_pos hlt]
    obtain ⟨hn₁, hl₁⟩ : D.Next d lent g m g (m.push expr) ∧ _ := D.push hr.good hr.depth hexpr
    obtain ⟨hn₂, hl₂⟩ : D.Next d lent g (m.push expr) g ((m.push expr).push env) ∧ _ :=
      D.push hn₁.good (Heap.le_size_of_take_eq hr.depth hn₁.roots) (hl₁ _ _ henv)
    refine ⟨g, hn₁.trans hn₂, rfl, ?_, ?_, hl₂ _ _ (hl₁ _ _ hexpr), hl₂ _ _ (hl₁ _ _ henv)⟩
    · show ((m.heap.roots.push expr).push env)[m.heap.roots.size]? = some expr
      rw [Array.getElem?_push, if_neg (by simp), Array.getElem?_push, if_pos rfl]
    · show ((m.heap.roots.push expr).push env)[m.heap.roots.size + 1]? = some env
      rw [Array.getElem?_push, if_pos (Array.size_push ..).symm]
  · rw [if_neg hlt]
    exact ⟨g, .refl hr.good d lent⟩

/-- The next expression and environment take the place of the last ones. -/
theorem tracks_handOver (hm : D.Good g m) (hsize : slot + 2 ≤ m.heap.roots.size) (hexpr : D.Fits g m .expr expr)
    (henv : D.Fits g m .env env) :
    Tracks D slot lent g m ((modify (handOver slot expr env) : Eval Unit) m)
      ((modify (handOver slot expr env) : Run Unit) m) fun _ g' m' => Registered D slot g' m' expr env := by
  obtain ⟨hn, hl⟩ : D.Next slot lent g m g (handOver slot expr env m) ∧ _ := by
    refine D.withRoots hm (fun w hw => ?_) ?_
    · rcases Array.mem_or_eq_of_mem_setIfInBounds hw with hw | rfl
      · rcases Array.mem_or_eq_of_mem_setIfInBounds hw with hw | rfl
        · exact .inl hw
        · exact .inr ⟨_, hexpr⟩
      · exact .inr ⟨_, henv⟩
    · rw [Array.toList_setIfInBounds, List.take_set_of_le (Nat.le_succ slot)]
      show (m.heap.roots.setIfInBounds slot expr).toList.take slot = _
      rw [Array.toList_setIfInBounds, List.take_set_of_le (Nat.le_refl slot)]
  refine .inr ⟨rfl, g, hn, ?_, ?_, hl _ _ hexpr, hl _ _ henv⟩
  · show ((m.heap.roots.setIfInBounds slot expr).setIfInBounds (slot + 1) env)[slot]? = _
    rw [Array.getElem?_setIfInBounds_ne (by omega), Array.getElem?_setIfInBounds_self_of_lt (by omega)]
  · show ((m.heap.roots.setIfInBounds slot expr).setIfInBounds (slot + 1) env)[slot + 1]? = _
    rw [Array.getElem?_setIfInBounds_self_of_lt (by rw [Array.size_setIfInBounds]; omega)]

/-- Dropping the roots of an evaluation leaves those that were there before. -/
theorem tracks_inRootScope {x : Eval Word} {X : Run Word} (hr : InHand D.toInvariant m.heap.roots.size hand g m)
    (h : Tracks D m.heap.roots.size hand.lent g m (x m) (X m) (D.Gives .data)) :
    Tracks D m.heap.roots.size hand.lent g m (Eval.inRootScope x m) (Supervised.inRootScope P hand X m) fun v g' m' =>
      D.Fits g' m' .data v ∧ m'.heap.roots = m.heap.roots := by
  unfold Eval.inRootScope Supervised.inRootScope
  rcases h with ⟨moment, m', hlost, hexcused⟩ | ⟨hsame, h⟩
  · rw [hlost]
    exact .inl ⟨moment, m', rfl, hexcused⟩
  rw [hsame]
  cases hx : x m with
  | error e m' =>
    rw [hx] at h
    obtain ⟨g', hn⟩ := h
    have hr' := hr.next hn
    refine .inr ⟨?_, g', hn.trans (D.truncateRoots hn.good _).1⟩
    show (check P hand (.drop m.heap.roots.size) >>= fun _ => _) m' = _
    exact (check_bind (D.allows (.drop _) hr'.good hr'.grips hr'.depth)).trans rfl
  | ok a m' =>
    rw [hx] at h
    obtain ⟨g', hn, hfits⟩ := h
    have hr' := hr.next hn
    obtain ⟨hn', hl'⟩ : D.Next m.heap.roots.size hand.lent g' m' g' _ ∧ _ := D.truncateRoots hn.good m.heap.roots.size
    have htake := hn.roots.trans (List.take_of_length_le (Nat.le_of_eq Array.length_toList))
    refine .inr ⟨?_, g', hn.trans hn', hl' _ _ hfits, Heap.roots_truncateRoots htake⟩
    show (check P (hand.hold .data a) (.drop m.heap.roots.size) >>= fun _ => _) m' = _
    exact (check_bind (D.allows (.drop _) hr'.good (hr'.grips.hold hfits) hr'.depth)).trans rfl

/-- Passes over a registered expression go on as supervised. -/
def PassesTrack (D : Discipline P E) (budget : Nat) : Prop :=
  ∀ (slot : Nat) (hand : Hand) (expr env : Word) (g : D.Ghost) (m : Machine), InHand D.toInvariant slot hand g m →
    Registered D slot g m expr env →
    Tracks D slot hand.lent g m (passes budget slot expr env m) (Supervised.passes P budget hand slot expr env m)
      (D.Gives .data)

theorem evaluating_enter {budget : Nat} (hpasses : PassesTrack D budget) :
    Evaluating D (enter (passes budget)) fun hand => Supervised.enter P hand (Supervised.passes P budget hand) := by
  intro hand expr env g m hr hexpr henv
  refine tracks_inRootScope hr (hr.bind (tracks_pushRoots hr hexpr henv) ?_)
  rintro slot g₁ m₁ hr₁ - ⟨rfl, hreg⟩
  exact hpasses _ _ expr env g₁ m₁ hr₁ hreg

theorem tracks_passes (budget : Nat) : PassesTrack D budget := by
  induction budget with
  | zero => exact fun _ _ _ _ _ _ hr _ => .throw hr
  | succ budget ih =>
    intro slot hand expr env g m hr hreg
    -- A pass runs above the two roots of its expression, and the next one puts its own in their place.
    have hle := Nat.le_add_right slot 2
    have hr₀ := ((hr.raise hle hreg.le_size).hold hreg.held_env trivial).hold hreg.held_expr trivial
    refine hr.bind ((tracks_startPass hr₀).lower hle (List.Subset.refl _)) ?_
    rintro _ g₁ m₁ hr₁ - ⟨hn₁, -⟩
    have hreg₁ := hreg.next hn₁
    have hstep := tracks_step (hr₁.raise hle hreg₁.le_size) (evaluating_enter ih) budget hreg₁.held_expr hreg₁.held_env
    refine hr₁.bind (hstep.lower hle (List.Subset.refl _)) ?_
    rintro s g₂ m₂ hr₂ - ⟨hn₂, hs⟩
    have hsize₂ := Heap.le_size_of_take_eq hreg₁.le_size hn₂.roots
    cases s with
    | done value => exact .check .look hr₂.good (hr₂.grips.hold hs) trivial (.pure hr₂ hs)
    | tail expr env =>
      refine .check (.slot _) hr₂.good ((hr₂.grips.hold hs.2).hold hs.1) hsize₂ ?_
      refine hr₂.bind (tracks_handOver hr₂.good hsize₂ hs.1 hs.2) fun _ g₃ m₃ hr₃ _ hreg₃ => ?_
      exact ih slot hand expr env g₃ m₃ hr₃ hreg₃

end Passes

/-! ## Programs -/

/-- A discipline can be supervised: whatever programs run on a machine that satisfies it, the supervised run is the run,
or ends in an excused breach of the policy. -/
theorem Discipline.runAll_cases {P : Policy} {E : Moment → Prop} (D : Discipline P E) {g : D.Ghost} {m : Machine}
    (hm : D.Good g m) (programs : List Program) :
    Supervised.runAll P programs m = .ok (runAll programs m) ∨
      ∃ moment, E moment ∧ Supervised.runAll P programs m = .error (.breach moment) := by
  induction programs generalizing g m with
  | nil => exact .inl rfl
  | cons p programs ih =>
    have hr : InHand D.toInvariant 0 {} g { m with files := p.files } :=
      ⟨D.withFiles p.files hm, Nat.zero_le _, by simp, by simp, by simp⟩
    have heval : Evaluating D (eval p.budget) (Supervised.eval P p.budget) := evaluating_enter (tracks_passes p.budget)
    unfold Supervised.runAll runAll Supervised.runSource runSource
    rcases tracks_runText hr heval p.source with ⟨moment, m', hlost, hexcused⟩ | ⟨hsame, hrun⟩
    · rw [hlost]
      exact .inr ⟨moment, hexcused, rfl⟩
    rw [hsame]
    cases hres : runText (eval p.budget) p.source { m with files := p.files } with
    | error reason m' =>
      rw [hres] at hrun
      obtain ⟨g', hn⟩ := hrun
      rcases ih hn.good with hrest | ⟨moment, hexcused, hrest⟩
      · exact .inl (by simp [embed, outcomeOf, hrest])
      · exact .inr ⟨moment, hexcused, by simp [embed, hrest]⟩
    | ok value m' =>
      rw [hres] at hrun
      obtain ⟨g', hn, -⟩ := hrun
      rcases ih hn.good with hrest | ⟨moment, hexcused, hrest⟩
      · exact .inl (by simp [embed, outcomeOf, hrest])
      · exact .inr ⟨moment, hexcused, by simp [embed, hrest]⟩

/-- Where nothing is excused, the policy is kept to. -/
theorem Discipline.runAll_eq {P : Policy} (D : Discipline P fun _ => False) {g : D.Ghost} {m : Machine}
    (hm : D.Good g m) (programs : List Program) : Supervised.runAll P programs m = .ok (runAll programs m) := by
  rcases D.runAll_cases hm programs with hsame | ⟨_, hexcused, _⟩
  · exact hsame
  · exact hexcused.elim

end BoxedScheme
