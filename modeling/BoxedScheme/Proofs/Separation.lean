import BoxedScheme.Proofs.RootStack
import BoxedScheme.Proofs.Runs
import BoxedScheme.Proofs.Safety

/-!
# Programs cannot touch their own code

Up to the first collection, what programs can get at by following pairs is apart from what the evaluator works with:
environments, frames, bindings, closures, and all code outside quoted constants.

* `Placed assumed m hand r w` : from the words in hand, the global environment and the closures, `w` is found in role
  `r`; where a binding without an expression leaves a role open, `assumed` decides;
* `Heap.Leads w v` : following pairs leads from `w` to `v`;
* `Apart` : from a place for data, pairs never lead to a cell that is placed in another role;
* `Spares` : such cells are as they were before a procedure was called;
* `colouring`, `separating` : every cell has a role, as an invariant and as a discipline for both;
* `runAll_separated` : whatever programs run on a new machine;
* `namedQuote_changes_body` : a `let` named `quote` hands out code that is no constant in the text.
-/

namespace BoxedScheme

/-! ## Places -/

/-- The expression of a binding; `assumed` where there is none. -/
def Heap.clauseValue (h : Heap) (assumed clause : Word) : Word :=
  let rest := (h.cells.read clause.payload).cdr
  if clause.isPair && rest.isPair then (h.cells.read rest.payload).car else assumed

/-- The roles of the words in a cell, by the role of the cell. In the bindings of a named `let` whose name is `let`,
the first expression decides what the others are, and a first binding without one leaves it open. -/
def Role.parts (h : Heap) (assumed : Word) (cell : Cell) : Role → Role × Role
  | .data => (.data, .data)
  | .inert => (.inert, .inert)
  | .expr => (.expr, .operands (.ofHead cell.car))
  | .operands s => (s.item, .operands (s.next cell.car))
  | .clauses s =>
    let next := s.next (h.clauseValue assumed cell.car)
    (.clause s next, .clauses next)
  | .clause s next => (.inert, .value s next)
  | .value s _ => (s.item, .inert)
  | .closure => (.env, .operands .headed)
  | .env => (.frame, .env)
  | .frame => (.binding, .frame)
  | .binding => (.inert, .data)
  | .args n => (.data, .args n)

/-- For every cell, the expression that is assumed where its binding has none. -/
abbrev Assumptions := UInt32 → Word

/-- The word is in hand, on the root stack, or in a live cell. -/
inductive Machine.Has (m : Machine) (hand : Hand) : Word → Prop where
  | hand {r : Role} {w : Word} : (r, w) ∈ hand.words → Has m hand w
  | root {w : Word} : w ∈ m.heap.roots → Has m hand w
  | car {i : UInt32} : m.heap.cells.IsLive i → Has m hand (m.heap.cells.read i).car
  | cdr {i : UInt32} : m.heap.cells.IsLive i → Has m hand (m.heap.cells.read i).cdr

def Heap.parts (h : Heap) (assumed : Assumptions) (r : Role) (w : Word) : Role × Role :=
  r.parts h (assumed w.payload) (h.cells.read w.payload)

/-- The word is found in a role: in hand, as the global environment, as the cell of some closure, or in a cell whose
own role says so. -/
inductive Placed (assumed : Assumptions) (m : Machine) (hand : Hand) : Role → Word → Prop where
  | hand {r : Role} {w : Word} : (r, w) ∈ hand.words → Placed assumed m hand r w
  | globalEnv : Placed assumed m hand .env m.globalEnv
  | closure {w : Word} : m.Has hand w → w.isClosure → Placed assumed m hand .closure (.pair w.payload)
  | car {r : Role} {w : Word} : Placed assumed m hand r w → w.isPair →
    Placed assumed m hand (m.heap.parts assumed r w).1 (m.heap.cells.read w.payload).car
  | cdr {r : Role} {w : Word} : Placed assumed m hand r w → w.isPair →
    Placed assumed m hand (m.heap.parts assumed r w).2 (m.heap.cells.read w.payload).cdr

inductive Heap.Leads (h : Heap) (w : Word) : Word → Prop where
  | refl : Leads h w w
  | car {v : Word} : Leads h w v → v.isPair → Leads h w (h.cells.read v.payload).car
  | cdr {v : Word} : Leads h w v → v.isPair → Leads h w (h.cells.read v.payload).cdr

/-- From what is placed as data, pairs never lead to a cell that is placed as something else. -/
def Apart (assumed : Assumptions) (m : Machine) (hand : Hand) : Prop :=
  ∀ ⦃d v : Word⦄, Placed assumed m hand .data d → m.heap.Leads d v → v.isPair →
    ∀ ⦃r : Role⦄ ⦃u : Word⦄, Placed assumed m hand r u → u.isPair → r ≠ .data → v.payload ≠ u.payload

/-- What was placed as something other than data before is unchanged. -/
def Spares (assumed : Assumptions) (before m : Machine) (hand : Hand) : Prop :=
  ∀ ⦃r : Role⦄ ⦃u : Word⦄, Placed assumed before hand r u → u.isPair → r ≠ .data →
    m.heap.cells.read u.payload = before.heap.cells.read u.payload

/-- Until something is collected, code and data are apart, and procedures that change pairs spare the code. -/
def separation : Policy := fun x =>
  x.machine.collections = 0 → (∃ assumed, Apart assumed x.machine x.hand) ∧
    ∀ p before, x.deed = .called p before → p = .setCar ∨ p = .setCdr →
      ∃ assumed, Apart assumed before x.hand ∧ Spares assumed before x.machine x.hand

/-! ## Colours -/

section Colours

variable {α : Type} {ρ ρ' : Roles} {h : Heap} {m m' : Machine} {hand : Hand}
  {assumed : Assumptions} {r : Role} {d u v w : Word}

/-- The cell of a binding that has an expression decides what comes behind it. -/
theorem Typed.next_eq (ht : Typed ρ h) {s next : Shape} {clause : Word} (hw : Fits ρ h (.clause s next) clause)
    (hp : clause.isPair) (hrest : (h.cells.read clause.payload).cdr.isPair) :
    next = s.next (h.cells.read (h.cells.read clause.payload).cdr.payload).car := by
  obtain ⟨_, _, hs, -, hcdr⟩ := ht.pair hw hp
  cases hs
  obtain ⟨_, _, hs, -, -⟩ := ht.pair hcdr hrest
  generalize (h.cells.read (h.cells.read clause.payload).cdr.payload).car = a at hs
  cases hs
  rfl

/-- The roles of the words in a cell are known but for what a binding without an expression leaves open. -/
theorem Typed.exists_parts (ht : Typed ρ h) (i : UInt32) : ∃ assumed, h.cells.IsLive i →
    Fits ρ h ((ρ i).parts h assumed (h.cells.read i)).1 (h.cells.read i).car ∧
      Fits ρ h ((ρ i).parts h assumed (h.cells.read i)).2 (h.cells.read i).cdr := by
  by_cases hi : h.cells.IsLive i
  swap
  · exact ⟨.nil, fun hlive => absurd hlive hi⟩
  obtain ⟨p, q, hs, ha, hb⟩ := ht.cell i hi
  generalize (h.cells.read i) = cell at hs ha hb ⊢
  obtain ⟨a, b⟩ := cell
  generalize ρ i = r at hs ⊢
  cases hs with
  | clauses s v a =>
    refine ⟨v, fun _ => ?_⟩
    have hnext : s.next (h.clauseValue v a) = s.next v := by
      unfold Heap.clauseValue
      dsimp only
      split
      next hpairs =>
        rw [Bool.and_eq_true] at hpairs
        exact (ht.next_eq ha hpairs.1 hpairs.2).symm
      next => rfl
    simp only [Role.parts, hnext]
    exact ⟨ha, hb⟩
  | _ => exact ⟨.nil, fun _ => ⟨ha, hb⟩⟩

/-- The assumptions under which all cells hold what their roles say. -/
def Suits (assumed : Assumptions) (ρ : Roles) (h : Heap) : Prop :=
  ∀ ⦃r : Role⦄ ⦃w : Word⦄, Fits ρ h r w → w.isPair →
    Fits ρ h (h.parts assumed r w).1 (h.cells.read w.payload).car ∧
      Fits ρ h (h.parts assumed r w).2 (h.cells.read w.payload).cdr

theorem Typed.exists_suits (ht : Typed ρ h) : ∃ assumed, Suits assumed ρ h := by
  choose assumed hparts using ht.exists_parts
  refine ⟨assumed, fun r w hw hp => ?_⟩
  have hcell := hparts w.payload (hw.live.cell (Word.hasCell_of_isPair hp))
  rwa [hw.pair hp] at hcell

structure Machine.Coloured (ρ : Roles) (m : Machine) : Prop where
  valid : m.Valid ρ
  roots : ∀ w ∈ m.heap.roots, ∃ r, Fits ρ m.heap r w

theorem Machine.Coloured.closure (hm : m.Coloured ρ) (hhand : ∀ x ∈ hand.words, Fits ρ m.heap x.1 x.2)
    (hw : m.Has hand w) (hc : w.isClosure) : Fits ρ m.heap .closure (.pair w.payload) := by
  have hfits : ∃ r, Fits ρ m.heap r w := by
    cases hw with
    | hand hmem => exact ⟨_, hhand _ hmem⟩
    | root hmem => exact hm.roots _ hmem
    | car hi =>
      obtain ⟨p, _, -, ha, -⟩ := hm.valid.typed.cell _ hi
      exact ⟨p, ha⟩
    | cdr hi =>
      obtain ⟨_, q, -, -, hb⟩ := hm.valid.typed.cell _ hi
      exact ⟨q, hb⟩
  obtain ⟨r, hfits⟩ := hfits
  have hcell : w.hasCell := by simp [Word.hasCell, hc]
  refine ⟨⟨fun _ => ?_, fun htext => ?_⟩, fun _ => ?_, fun hcl => ?_⟩
  · rw [Word.payload_pair]
    exact hfits.live.cell hcell
  · rw [Word.not_hasText_of_hasCell (Word.hasCell_pair _)] at htext
    cases htext
  · rw [Word.payload_pair]
    exact hfits.closure hc
  · simp [Word.isClosure] at hcl

/-- A place in a role has that role. -/
theorem Placed.fits (hm : m.Coloured ρ) (hsuits : Suits assumed ρ m.heap)
    (hhand : ∀ x ∈ hand.words, Fits ρ m.heap x.1 x.2) (hw : Placed assumed m hand r w) : Fits ρ m.heap r w := by
  induction hw with
  | hand hmem => exact hhand _ hmem
  | globalEnv => exact hm.valid.globalEnv
  | closure hhas hc => exact hm.closure hhand hhas hc
  | car _ hp ih => exact (hsuits ih hp).1
  | cdr _ hp ih => exact (hsuits ih hp).2

/-- Pairs lead from data to data. -/
theorem Typed.leads (ht : Typed ρ h) (hd : Fits ρ h .data d) (hl : h.Leads d v) : Fits ρ h .data v := by
  induction hl with
  | refl => exact hd
  | car _ hp ih => exact (ht.data ih hp).1
  | cdr _ hp ih => exact (ht.data ih hp).2

theorem Machine.Coloured.apart (hm : m.Coloured ρ) (hsuits : Suits assumed ρ m.heap)
    (hhand : ∀ x ∈ hand.words, Fits ρ m.heap x.1 x.2) : Apart assumed m hand := by
  intro d v hd hl hv r u hu hp hr heq
  have hdata := (hm.valid.typed.leads (hd.fits hm hsuits hhand) hl).pair hv
  have hother := (hu.fits hm hsuits hhand).pair hp
  rw [heq] at hdata
  exact hr (hother.symm.trans hdata)

/-- A change of a pair of data spares all other cells. -/
theorem Machine.Coloured.spares_update (hm : m.Coloured ρ) (hsuits : Suits assumed ρ m.heap)
    (hhand : ∀ x ∈ hand.words, Fits ρ m.heap x.1 x.2) (hw : Fits ρ m.heap .data w) (hp : w.isPair) (f : Cell → Cell) :
    Spares assumed m (m.mapHeap fun h => { h with cells := h.cells.update w.payload f }) hand := by
  intro r u hu hpu hr
  have hlive := hw.live.cell (Word.hasCell_of_isPair hp)
  refine (Pool.read_update hlive.lt f u.payload).trans (if_neg fun heq => ?_)
  have hother := (hu.fits hm hsuits hhand).pair hpu
  rw [heq, hw.pair hp] at hother
  exact hr hother.symm

/-- The procedures that change pairs change a pair of data. -/
theorem call_update {p : Primitive} {name : String} {argv : Array Word} {v : Word} (hset : p = .setCar ∨ p = .setCdr)
    (hcall : p.call name argv m = .ok v m') :
    (argv.getD 0 .unspecified).isPair ∧ ∃ f, m' = m.mapHeap fun h =>
      { h with cells := h.cells.update (argv.getD 0 .unspecified).payload f } := by
  have hupdate {operation : String} {f : Cell → Cell}
      (hres : (Eval.onHeap (Heap.updatePair (argv.getD 0 .unspecified) operation f) >>= fun _ =>
        (pure Word.unspecified : Eval Word)) m = .ok v m') :
      (argv.getD 0 .unspecified).isPair ∧ ∃ f, m' = m.mapHeap fun h =>
        { h with cells := h.cells.update (argv.getD 0 .unspecified).payload f } := by
    change EStateM.bind (Eval.onHeap (Heap.updatePair _ operation f)) _ m = _ at hres
    unfold EStateM.bind Eval.onHeap at hres
    by_cases hp : (argv.getD 0 .unspecified).isPair
    · rw [Heap.updatePair_of_isPair hp] at hres
      cases hres
      exact ⟨hp, f, rfl⟩
    · rw [Heap.updatePair_of_not_isPair hp] at hres
      cases hres
  rcases hset with rfl | rfl
  · exact hupdate hcall
  · exact hupdate hcall

end Colours

/-! ## The discipline -/

section Colouring

variable {α : Type} {ρ : Roles} {m m' : Machine} {w : Word}

/-- Roles as an invariant, which has nothing to say once something was collected. -/
def colouring : Invariant :=
  .lasting (fun ρ m => m.collections = 0 → m.Coloured ρ) fun ρ m r w => m.collections = 0 → Fits ρ m.heap r w

theorem Changes.colouring {Q : Roles → Machine → Prop} (hc : Changes m m') (hm : colouring.Good ρ m)
    (hdoes : m.collections = 0 → ∃ ρ', m'.Valid ρ' ∧ Later ρ m ρ' m' ∧ Q ρ' m') :
    ∃ ρ', colouring.Follows ρ m ρ' m' ∧ (m'.collections = 0 → Q ρ' m') := by
  have hroots := hc.roots.1
  have hcount : m'.collections = m.collections := congrArg (·.collections) hc.stats
  by_cases hzero : m.collections = 0
  · obtain ⟨ρ', hv, hl, hq⟩ := hdoes hzero
    refine ⟨ρ', Invariant.lasting_follows (fun _ => ⟨hv, fun w hw => ?_⟩) hroots fun r w hw _ => ?_, fun _ => hq⟩
    · rw [hroots] at hw
      obtain ⟨r, hfits⟩ := (hm hzero).roots w hw
      exact ⟨r, hfits.extend hl.heap⟩
    · exact (hw hzero).extend hl.heap
  · have hnot : m'.collections ≠ 0 := hcount ▸ hzero
    exact ⟨ρ, Invariant.lasting_follows (fun h => absurd h hnot) hroots fun _ _ _ h => absurd h hnot,
      fun h => absurd h hnot⟩

/-- What an action does with roles, it does under the invariant. -/
theorem Acts.obeys {x : Eval α} {Q : α → Roles → Machine → Prop} (hx : Acts x) (hm : colouring.Good ρ m)
    (hdoes : m.collections = 0 → Does ρ m (x m) Q) :
    colouring.Obeys ρ m (x m) fun a ρ' m' => m'.collections = 0 → Q a ρ' m' := by
  have hc := hx m
  unfold after at hc
  cases hxm : x m with
  | error e m' =>
    rw [hxm] at hc hdoes
    obtain ⟨ρ', hf, -⟩ := hc.colouring (Q := fun _ _ => True) hm fun hzero => by
      obtain ⟨ρ', hv, hl⟩ := hdoes hzero
      exact ⟨ρ', hv, hl, trivial⟩
    exact ⟨ρ', hf⟩
  | ok a m' =>
    rw [hxm] at hc hdoes
    exact hc.colouring hm hdoes

theorem Acts.obeys_step {x : Eval Step} (hx : Acts x) (hm : colouring.Good ρ m)
    (hdoes : m.collections = 0 → Does ρ m (x m) Step.Fits) : colouring.Obeys ρ m (x m) colouring.Yields := by
  refine (hx.obeys hm hdoes).imp fun s ρ' m' hs => ?_
  cases s with
  | done value => exact hs
  | tail expr env => exact ⟨fun h => (hs h).1, fun h => (hs h).2⟩

theorem Machine.Coloured.withRoots {roots : Array Word} (hm : m.Coloured ρ)
    (hroots : ∀ w ∈ roots, w ∈ m.heap.roots ∨ ∃ r, Fits ρ m.heap r w) :
    (m.mapHeap fun h => { h with roots }).Coloured ρ := by
  have hfits (w : Word) (hw : w ∈ roots) : ∃ r, Fits ρ m.heap r w := (hroots w hw).elim (hm.roots w) id
  have hlive (w : Word) (hw : w ∈ roots) : m.heap.LiveWord w := by
    obtain ⟨r, hr⟩ := hfits w hw
    exact hr.live
  have htake : roots.toList.take 0 = m.heap.roots.toList.take 0 := rfl
  refine ⟨(hm.valid.withRoots hlive htake).1, fun w hw => ?_⟩
  obtain ⟨r, hr⟩ := hfits w hw
  exact ⟨r, ⟨hr.live.cell, hr.live.text⟩, hr.pair, hr.closure⟩

/-- A step is counted, and a collection leaves nothing to say. -/
theorem colouring_maybeCollect {d : Nat} {lent : List Word} (hm : colouring.Good ρ m) :
    colouring.Next d lent ρ m ρ (maybeCollect m) := by
  unfold maybeCollect
  by_cases hdue : collectionDue m
  · rw [if_pos hdue]
    have hcount : ({ m with dispatches := 0 } : Machine).collect.2.collections ≠ 0 := Nat.succ_ne_zero _
    exact Invariant.lasting_next (fun hzero => absurd hzero hcount) rfl fun _ _ _ hzero => absurd hzero hcount
  · rw [if_neg hdue]
    refine Invariant.lasting_next (fun hzero => ⟨?_, (hm hzero).roots⟩) rfl fun _ _ hw => hw
    exact ⟨(hm hzero).valid.memory, (hm hzero).valid.roots, (hm hzero).valid.globalEnv, (hm hzero).valid.core⟩

theorem colouring_separation {hand : Hand} {deed : Deed} (hm : colouring.Good ρ m) (hh : colouring.Grips ρ m hand)
    (hdeed : ∀ p before, deed ≠ .called p before) : separation ⟨hand, deed, m⟩ := by
  intro hzero
  obtain ⟨assumed, hsuits⟩ := (hm hzero).valid.typed.exists_suits
  refine ⟨⟨assumed, (hm hzero).apart hsuits fun x hx => hh.words x hx hzero⟩, fun p before hcalled => ?_⟩
  exact absurd hcalled (hdeed p before)

def separating : Discipline separation fun _ => False where
  toInvariant := colouring
  immediate hw _ := .of_isImmediate hw
  atom hw hp hzero := (hw hzero).of_not_isPair hp
  idle hw := hw
  globalEnv hm hzero := (hm hzero).valid.globalEnv
  args hm hw hp :=
    ⟨fun hzero => ((hm hzero).valid.typed.data (hw hzero) hp).1,
      fun hzero => ((hm hzero).valid.typed.data (hw hzero) hp).2⟩
  data hm hw hp :=
    ⟨fun hzero => ((hm hzero).valid.typed.data (hw hzero) hp).1,
      fun hzero => ((hm hzero).valid.typed.data (hw hzero) hp).2⟩
  expr hm hw hp :=
    ⟨fun hzero => ((hm hzero).valid.typed.expr (hw hzero) hp).1,
      fun hzero => ((hm hzero).valid.typed.expr (hw hzero) hp).2⟩
  operands {ρ m s w} hm hw hp :=
    ⟨fun hzero => s.shown_item.symm ▸ ((hm hzero).valid.typed.operands (hw hzero) hp).1,
      fun hzero => ((hm hzero).valid.typed.operands (hw hzero) hp).2⟩
  closureParts hm hw hparts :=
    ⟨fun hzero => ((hm hzero).valid.typed.closureParts (hw hzero) hparts).1,
      fun hzero => ((hm hzero).valid.typed.closureParts (hw hzero) hparts).2.1,
      fun hzero => ((hm hzero).valid.typed.closureParts (hw hzero) hparts).2.2⟩
  holds_mono _ _ _ := trivial
  holds_root _ _ := trivial
  holds_lent _ _ := trivial
  holds_pair _ _ _ _ := ⟨trivial, trivial⟩
  holds_body _ _ _ _ := trivial
  allows {ρ m hand} deed hm hh hdeed := by
    refine colouring_separation hm hh ?_
    rintro p before rfl
    exact hdeed
  allows_called {ρ ρ' m m' hand p name argv v} hm hh hargs hcall hm' hh' hzero' := by
    have hzero : m.collections = 0 :=
      (congrArg (·.collections) ((acts_call p name argv).of_ok hcall).stats).symm.trans hzero'
    obtain ⟨assumed, hsuits⟩ := (hm hzero).valid.typed.exists_suits
    obtain ⟨assumed', hsuits'⟩ := (hm' hzero').valid.typed.exists_suits
    have hheld (x : Role × Word) (hx : x ∈ hand.words) := hh.words x hx hzero
    refine ⟨⟨assumed', (hm' hzero').apart hsuits' fun x hx => hh'.words x hx hzero'⟩, fun q before hcalled hset => ?_⟩
    cases hcalled
    obtain ⟨hp, f, rfl⟩ := call_update hset hcall
    have hfirst := Fits.getD (fun w hw => hargs w hw hzero) 0
    exact ⟨assumed, (hm hzero).apart hsuits hheld, (hm hzero).spares_update hsuits hheld hfirst hp f⟩
  collect {d ρ m hand} hr :=
    .inl ⟨colouring_separation hr.good hr.grips (by simp), ρ, colouring_maybeCollect hr.good⟩
  lookup hm henv := (acts_lookup _ _).obeys hm fun hzero => does_lookup (hm hzero).valid (henv hzero)
  define hm henv hs hval := ((acts_define _ _ _).obeys hm fun hzero =>
    does_define (hm hzero).valid (henv hzero) (hs hzero) (hval hzero)).imp fun _ _ _ _ => trivial
  extend hm henv hp ha := (acts_extend _ _ _).obeys hm fun hzero =>
    does_extend (hm hzero).valid (henv hzero) (hp hzero) (ha hzero)
  defineProcedure hm ht hop henv := ((acts_defineProcedure _ _ _).obeys hm fun hzero =>
    does_defineProcedure (hm hzero).valid (ht hzero) (hop hzero) (henv hzero)).imp fun _ _ _ _ => trivial
  lambda hm hop hl henv := (acts_evalLambda _ _ _).obeys_step hm fun hzero =>
    does_evalLambda (hm hzero).valid (hop hzero) hl (henv hzero)
  bind hm hop hl henv := (acts_evalBind _ _ _).obeys_step hm fun hzero =>
    does_evalBind (hm hzero).valid (hop hzero) hl (henv hzero)
  bindInOrder hm hop hl henv := (acts_evalBindInOrder _ _ _).obeys_step hm fun hzero =>
    does_evalBindInOrder (hm hzero).valid (hop hzero) hl (henv hzero)
  call hm hargs := (acts_call _ _ _).obeys hm fun hzero =>
    does_call (hm hzero).valid _ _ fun w hw => hargs w hw hzero
  readDatum hm := (acts_readDatum _).obeys hm fun hzero => does_readDatum (hm hzero).valid _
  cons _ hm hval := (acts_evalCons _ _).obeys hm fun hzero =>
    does_evalCons (hm hzero).valid (.data _) (hval hzero) .nil
  append {ρ m n lent last cell} hm hlast hcell hp := by
    have hset := (acts_setCdr last cell).obeys hm fun hzero => by
      refine does_updatePair (hm hzero).valid (hlast.fits hzero) (fun _ hr => hr) fun hp => ?_
      exact ⟨_, _, .data _, ((hm hzero).valid.typed.data (hlast.fits hzero) hp).1, hcell hzero⟩
    exact Invariant.lasting_append hp (hset.imp fun _ _ _ _ => trivial)
  settle n hm := Invariant.lasting_settle n hm
  withRoots {d lent ρ m roots} hm hroots htake := by
    have hfits (r : Role) (w : Word) (hw : m.collections = 0 → Fits ρ m.heap r w) (hzero : m.collections = 0) :
        Fits ρ (m.mapHeap fun h => { h with roots }).heap r w :=
      ⟨⟨(hw hzero).live.cell, (hw hzero).live.text⟩, (hw hzero).pair, (hw hzero).closure⟩
    refine ⟨Invariant.lasting_next (fun hzero => (hm hzero).withRoots fun w hw => ?_) htake hfits,
      fun r w hw => hfits r.shown w hw⟩
    exact (hroots w hw).imp_right fun ⟨r, hr⟩ => ⟨r.shown, hr hzero⟩
  withFiles _ hm hzero :=
    ⟨⟨(hm hzero).valid.memory, (hm hzero).valid.roots, (hm hzero).valid.globalEnv, (hm hzero).valid.core⟩,
      (hm hzero).roots⟩

end Colouring

/-! ## Programs -/

/-- Whatever programs run on a new machine, as long as nothing is collected: at every moment, from data that some
evaluation holds or that is bound in some frame, pairs lead to no part of an environment and to no code but quoted
constants, neither of the evaluations under way nor of any closure. The procedures that change pairs leave all that as
it is. The quoted constants are the operands of `quote` as evaluations meet them, so they include the initial values of
a `let` whose name is `quote`. -/
theorem runAll_separated {config : Config} {terminal : Terminal} {files : Files} {m : Machine}
    (hm : Machine.create config terminal files = .ok m) (programs : List Program) :
    Supervised.runAll separation programs m = .ok (runAll programs m) := by
  obtain ⟨ρ, hv⟩ := Machine.Valid.create hm
  have hempty := rootless_create hm
  have hgood : separating.Good ρ m := fun _ => ⟨hv, fun w hw => absurd (hempty ▸ hw) (Array.not_mem_empty w)⟩
  exact separating.runAll_eq hgood programs

/-- A closure that returns its own quoted constant, which is then changed, and an argument list that is changed. -/
theorem runAll_separated_constant :
    ∃ m, Machine.create { cells := 128, strings := 72, roots := 32 } .capturing {} = .ok m ∧
      let programs : List Program :=
        [⟨"(define (f . l) (set-cdr! l '()) (cons l '(1 2)))", 100, {}⟩, ⟨"(set-car! (cdr (f 3 4)) f) (f 5)", 100, {}⟩]
      Supervised.runAll separation programs m = .ok (runAll programs m) := by
  have hok : (Machine.create { cells := 128, strings := 72, roots := 32 } .capturing {}).toBool := by decide +kernel
  cases hm : Machine.create { cells := 128, strings := 72, roots := 32 } .capturing {} with
  | error e =>
    rw [hm] at hok
    cases hok
  | ok m => exact ⟨m, rfl, runAll_separated hm _⟩

/-! ## A form that is quoted by name -/

inductive Side where
  | car
  | cdr

/-- Follows a way into code as it is written. A list that starts with `quote` is a constant, and no way leads into it;
once a way has entered a list, `quote` may stand further behind. -/
def Heap.codeAt (h : Heap) : Bool → Word → List Side → Option Word
  | _, w, [] => some w
  | entered, w, side :: way =>
    let cell := h.cells.read w.payload
    if w.isPair && (entered || decide (Operation.formOf? cell.car ≠ some .quote)) then
      match side with
      | .car => h.codeAt false cell.car way
      | .cdr => h.codeAt true cell.cdr way
    else none

/-- The word is in the body of a closure, outside the constants that are written there. -/
def Heap.InBody (h : Heap) (closure w : Word) : Prop :=
  ∃ parts way, h.closureParts closure = .ok parts ∧ h.codeAt true parts.body way = some w

def Machine.global? (m : Machine) (name : Word) : Option Word :=
  match lookup m.globalEnv name m with
  | .ok value _ => some value
  | .error _ _ => none

/-- From global values, pairs lead to no part of the body of a closure but constants that are written there. -/
def Machine.BodiesApart (m : Machine) : Prop :=
  ∀ ⦃x y value closure v w : Word⦄, m.global? x = some value → m.heap.Leads value v → v.isPair →
    m.global? y = some closure → m.heap.InBody closure w → w.isPair → v.payload ≠ w.payload

/-- The call that this `let` is rewritten to is a `quote`, which returns the initial value unevaluated. -/
def namedQuote : List Program := [⟨"(define (g) (let quote ((x (car (list 1 2)))) x)) (define q (g))", 100, {}⟩]

def namedQuoteChange : List Program := [⟨"(set-car! q 'cdr)", 100, {}⟩]

/-- The initial value of a `let` named `quote` is no constant in the text of a closure, and programs can change it. -/
theorem namedQuote_changes_body :
    ∃ m, Machine.create { cells := 128, strings := 72, roots := 32 } .capturing {} = .ok m ∧
      let bound := (runAll namedQuote m).2
      let changed := (runAll namedQuoteChange bound).2
      changed.collections = 0 ∧ ¬ bound.BodiesApart ∧ ∃ name closure w, bound.global? name = some closure ∧
        bound.heap.InBody closure w ∧ w.isPair ∧ changed.heap.cells.read w.payload ≠ bound.heap.cells.read w.payload := by
  have hok : (Machine.create { cells := 128, strings := 72, roots := 32 } .capturing {}).toOption.any (fun m =>
      let bound := (runAll namedQuote m).2
      let changed := (runAll namedQuoteChange bound).2
      decide (changed.collections = 0 ∧ bound.global? (.symbol 64) = some (.closure 18) ∧
        bound.global? (.symbol 66) = some (.pair 6) ∧
        (bound.heap.closureParts (.closure 18)).toOption.map (·.body) = some (.pair 14) ∧
        bound.heap.codeAt true (.pair 14) [.car, .cdr, .cdr, .car, .car, .cdr, .car] = some (.pair 6) ∧
        changed.heap.cells.read 6 ≠ bound.heap.cells.read 6)) = true := by decide +kernel
  cases hm : Machine.create { cells := 128, strings := 72, roots := 32 } .capturing {} with
  | error e =>
    rw [hm] at hok
    cases hok
  | ok m =>
    rw [hm] at hok
    obtain ⟨hcount, hg, hq, hbody, hway, hchange⟩ := of_decide_eq_true hok
    have hpair : (Word.pair 6).isPair := by decide
    have hin : (runAll namedQuote m).2.heap.InBody (.closure 18) (.pair 6) := by
      cases hparts : (runAll namedQuote m).2.heap.closureParts (.closure 18) with
      | error e =>
        rw [hparts] at hbody
        cases hbody
      | ok parts =>
        rw [hparts] at hbody
        have hstart : parts.body = .pair 14 := Option.some.inj hbody
        exact ⟨parts, _, hparts, hstart ▸ hway⟩
    refine ⟨m, rfl, hcount, fun hapart => ?_, .symbol 64, .closure 18, .pair 6, hg, hin, hpair, ?_⟩
    · exact hapart hq .refl hpair hg hin hpair rfl
    · rw [Word.payload_pair]
      exact hchange

end BoxedScheme
