import BoxedScheme.Proofs.Anchors
import BoxedScheme.Proofs.Reading
import BoxedScheme.Proofs.Runs

/-!
# Collections are safe

An audit of the evaluator, as a policy: no word that an evaluation will still look at leads to a free slot, and before
a collection all those words are within reach of the roots, the symbols or the global environment. Evaluations keep to
it with one exception: a collection may free the rest of a body that `apply` entered by way of `apply`.

* `Moment.Safe`, `Moment.Loses` : the policy, and the one way in which it is not kept to;
* `anchoring`, `auditing` : roles and anchors as an invariant, and as a discipline for the policy;
* `Machine.Valid.create` : a new machine has a role for every cell;
* `runAll_audited` : programs one after another on a new machine.
-/

namespace BoxedScheme

/-! ## The audit -/

/-- Every slot that the word leads to is live. -/
def Heap.Intact (h : Heap) (w : Word) : Prop := ∀ v, h.Reaches [w] v → h.LiveWord v

/-- A collection would keep the word. -/
def Machine.Rooted (m : Machine) (w : Word) : Prop := m.heap.Reaches (m.heap.roots.toList ++ m.permanent) w

/-- What evaluations will look at leads to no free slot, and a collection that is due would keep it. -/
structure Moment.Safe (x : Moment) : Prop where
  held : ∀ y ∈ x.hand.held, x.machine.heap.Intact y.2
  lent : ∀ w ∈ x.hand.lent, x.machine.heap.Intact w
  collect : x.deed = .collect → collectionDue x.machine →
    (∀ y ∈ x.hand.held, x.machine.Rooted y.2) ∧ ∀ w ∈ x.hand.lent, x.machine.Rooted w

/-- A collection is due that would free what is left of a body. -/
structure Moment.Loses (x : Moment) : Prop where
  deed : x.deed = .collect
  due : collectionDue x.machine
  lent : ∃ w ∈ x.hand.lent, ¬ x.machine.Rooted w

/-! ## The discipline -/

def anchoring : Invariant where
  Ghost := Roles
  Good ρ m := m.Valid ρ
  Fits ρ m r w := Fits ρ m.heap r w
  Holds d lent ρ m w := Anchored d lent ρ m.heap w
  Idle _ _ _ _ := True

section Anchoring

variable {α : Type} {d : Nat} {lent : List Word} {hand : Hand} {deed : Deed} {ρ ρ' : Roles} {m m' : Machine} {w : Word}

theorem Keeps.next (hk : Keeps d lent ρ m.heap ρ' m'.heap) (hv : m'.Valid ρ') : anchoring.Next d lent ρ m ρ' m' where
  good := hv
  roots := hk.roots
  held e he lent' hlent r w hr hw := by
    have hk' := hk.mono he hlent
    exact ⟨hk'.fits hw.holds hw.fits hr, hk'.anchored hw.holds⟩
  idle _ _ _ := trivial

theorem Machine.Valid.follows (hv : m.Valid ρ) (hv' : m'.Valid ρ') (hl : Later ρ m ρ' m') :
    anchoring.Follows ρ m ρ' m' :=
  ⟨fun d _ => (hv.keeps (hl.heap d)).next hv', fun _ _ hw => hw.extend hl.heap⟩

theorem Does.obeys {r : EStateM.Result Stop Machine α} {Q : α → Roles → Machine → Prop} (hr : Does ρ m r Q)
    (hv : m.Valid ρ) : anchoring.Obeys ρ m r Q := by
  cases r with
  | error e m' =>
    obtain ⟨ρ', hv', hl⟩ := hr
    exact ⟨ρ', hv.follows hv' hl⟩
  | ok a m' =>
    obtain ⟨ρ', hv', hl, ha⟩ := hr
    exact ⟨ρ', hv.follows hv' hl, ha⟩

theorem Does.obeys_step {r : EStateM.Result Stop Machine Step} (hr : Does ρ m r Step.Fits) (hv : m.Valid ρ) :
    anchoring.Obeys ρ m r anchoring.Yields := by
  refine (hr.obeys hv).imp fun s ρ' m' hs => ?_
  cases s with
  | done value => exact hs
  | tail expr env => exact hs

/-- Where every live cell holds live words, live words lead to no free slot. -/
theorem Machine.Valid.safe (hv : m.Valid ρ) (hh : anchoring.Grips ρ m hand)
    (hcollect : deed = .collect → collectionDue m →
      (∀ y ∈ hand.held, m.Rooted y.2) ∧ ∀ w ∈ hand.lent, m.Rooted w) : Moment.Safe ⟨hand, deed, m⟩ := by
  have hintact {w : Word} (hw : m.heap.LiveWord w) : m.heap.Intact w := fun v hreach =>
    hreach.liveWord hv.typed.whole fun u hu => List.mem_singleton.1 hu ▸ hw
  refine ⟨fun y hy => ?_, fun w hw => hintact (hh.lent w hw).live, hcollect⟩
  obtain ⟨r, -, hw⟩ := hh.held y hy
  exact hintact hw.live

/-- A collection keeps what is held, unless it frees a lent word. -/
theorem InHand.safe_or_loses (hr : InHand anchoring d hand ρ m) :
    Moment.Safe ⟨hand, .collect, m⟩ ∧ (∃ ρ', anchoring.Next d hand.lent ρ m ρ' (BoxedScheme.maybeCollect m)) ∨
      ¬ Moment.Safe ⟨hand, .collect, m⟩ ∧ Moment.Loses ⟨hand, .collect, m⟩ := by
  have hv : m.Valid ρ := hr.good
  by_cases hlost : collectionDue m ∧ ∃ w ∈ hand.lent, ¬ m.Rooted w
  · obtain ⟨hdue, w, hmem, hw⟩ := hlost
    exact .inr ⟨fun hsafe => hw ((hsafe.collect rfl hdue).2 w hmem), rfl, hdue, w, hmem, hw⟩
  · have hlent (hdue : collectionDue m) : ∀ w ∈ hand.lent, m.Rooted w :=
      fun w hmem => by_contra fun hw => hlost ⟨hdue, w, hmem, hw⟩
    obtain ⟨hv', hk⟩ := hv.maybeCollect hlent
    refine .inl ⟨hv.safe hr.grips fun _ hdue => ⟨fun y hy => ?_, hlent hdue⟩, ρ, hk.next hv'⟩
    -- If the lent words are rooted, so is whatever they and the roots lead to.
    obtain ⟨r, -, -, hw⟩ := hr.held y hy
    exact hw.holds.reaches (hlent hdue)

/-- Another cell goes behind the last one of an argument list. -/
theorem Machine.Valid.append {n : Nat} {last cell : Word} (hv : m.Valid ρ)
    (hlast : anchoring.Held (n + 1) lent ρ m (.args n) last) (hcell : Fits ρ m.heap (.args n) cell)
    (hp : last.isPair) :
    let m' := m.mapHeap fun h => { h with cells := h.cells.update last.payload ({ · with cdr := cell }) }
    m'.Valid ρ ∧ Grows n ρ m.heap ρ m'.heap ∧ Anchored (n + 1) lent ρ m'.heap cell := by
  have hrole : ρ last.payload = .args n := hlast.fits.pair hp
  have hc := Word.hasCell_of_isPair hp
  have hlive := hlast.fits.live.cell hc
  have hsolid : (ρ last.payload).Solid (n + 1) := hrole ▸ Nat.lt_succ_self n
  obtain ⟨hcar, -⟩ := hv.typed.args hlast.fits hp
  have hnew : CellFits ρ m.heap (ρ last.payload) { m.heap.cells.read last.payload with cdr := cell } := by
    rw [hrole]
    exact ⟨_, _, .args n _, hcar, hcell⟩
  obtain ⟨hv', hg⟩ := hv.update hlive ({ · with cdr := cell }) hnew
  exact ⟨hv', hg n (hrole ▸ Nat.lt_irrefl n), hlast.holds.setCdr hc hsolid hlive⟩

def auditing : Discipline Moment.Safe Moment.Loses where
  toInvariant := anchoring
  immediate hw := .of_isImmediate hw
  atom hw hp := hw.of_not_isPair hp
  idle _ := trivial
  globalEnv hv := hv.globalEnv
  args hv hw hp := hv.typed.args hw hp
  data hv hw hp := hv.typed.data hw hp
  expr hv hw hp := hv.typed.expr hw hp
  operands hv hw hp := hv.typed.operands hw hp
  closureParts hv hw hparts := hv.typed.closureParts hw hparts
  holds_mono hw hde hlent := hw.mono hde hlent
  holds_root hw hi := .of_getElem? hw hi
  holds_lent hw hmem := .lent hmem hw.live
  holds_pair hw ha hp hr :=
    have hc := Word.hasCell_of_isPair hp
    have hsolid := (hw.pair hp).symm ▸ hr
    ⟨ha.car hc hsolid, ha.cdr hc hsolid⟩
  holds_body {d lent ρ m w parts} hv hw ha hparts := by
    obtain ⟨hc, hcode, rfl⟩ := Heap.closureParts_eq_ok hparts
    have hcode' := ha.cdr (by simp [Word.hasCell, hc]) (hw.closure hc ▸ trivial)
    obtain ⟨_, _, hs, -, hop⟩ := hv.typed.closure hw hc
    cases hs
    exact hcode'.cdr (Word.hasCell_of_isPair hcode) (hop.pair hcode ▸ trivial)
  allows {ρ m hand} deed hv hh hdeed := by
    refine hv.safe hh ?_
    rintro rfl
    exact hdeed.elim
  allows_called _ _ _ _ hv hh := hv.safe hh fun h => by cases h
  collect hr := hr.safe_or_loses
  lookup hv henv := (does_lookup hv henv).obeys hv
  define hv henv hs hval := (does_define hv henv hs hval).obeys hv
  extend hv henv hp ha := (does_extend hv henv hp ha).obeys hv
  defineProcedure hv ht hop henv := (does_defineProcedure hv ht hop henv).obeys hv
  lambda hv hop hl henv := (does_evalLambda hv hop hl henv).obeys_step hv
  bind hv hop hl henv := (does_evalBind hv hop hl henv).obeys_step hv
  bindInOrder hv hop hl henv := (does_evalBindInOrder hv hop hl henv).obeys_step hv
  call hv hargs := (does_call hv _ _ hargs).obeys hv
  readDatum hv := (does_readDatum hv _).obeys hv
  cons n hv hval := (does_evalCons hv (.args n _) hval .nil).obeys hv
  append {ρ m n lent last cell} hv hlast hcell hp := by
    obtain ⟨hv', hg, hheld⟩ := hv.append hlast hcell hp
    exact ⟨ρ, fun _ => (hv.keeps hg).next hv', fun _ _ hw => hw.update _ _, hheld⟩
  settle {ρ m} n hv := by
    obtain ⟨-, hg, hfits⟩ := hv.typed.settle n
    exact ⟨_, fun _ => (hv.keeps hg).next (hv.settle n), hfits⟩
  withRoots {d lent ρ m roots} hv hroots htake := by
    have hlive (w : Word) (hw : w ∈ roots) : m.heap.LiveWord w := by
      rcases hroots w hw with hw | ⟨r, hw⟩
      · exact hv.roots w hw
      · exact hw.live
    obtain ⟨hv', hg⟩ := hv.withRoots hlive htake
    exact ⟨(hv.keeps hg).next hv', fun _ _ hw => ⟨⟨hw.live.cell, hw.live.text⟩, hw.pair, hw.closure⟩⟩
  withFiles _ hv := ⟨hv.memory, hv.roots, hv.globalEnv, hv.core⟩

end Anchoring

/-! ## New machines -/

section Create

variable {ρ : Roles} {m m' : Machine}

theorem Memory.Valid.fresh (ρ : Roles) (cells strings roots : Nat) : (Memory.fresh cells strings roots).Valid ρ where
  typed := ⟨⟨.fresh (Nat.min_le_right ..), .fresh (Nat.min_le_right ..)⟩,
    fun i hi => absurd hi (Pool.not_isLive_fresh _ i)⟩
  symbols := by simp [Memory.fresh, SymbolTable.values]

/-- The names of operations become the symbols that have their numbers. -/
theorem internNames_ok {entries : List Operation.Entry} {id : Nat} (hv : m.toMemory.Valid ρ)
    (h : internNames id entries m = .ok () m') :
    ∃ ρ', m'.toMemory.Valid ρ' ∧ Later ρ m.toMemory ρ' m'.toMemory ∧
      ∀ k < entries.length, Word.symbol (.ofNat (id + k)) ∈ m'.symbols.values := by
  induction entries generalizing id m ρ with
  | nil =>
    cases h
    exact ⟨ρ, hv, .refl .., by simp⟩
  | cons entry entries ih =>
    have hintern := does_intern hv entry.name.toUTF8
    change EStateM.bind (Eval.onMemory (Memory.intern entry.name.toUTF8)) _ m = _ at h
    unfold EStateM.bind Eval.onMemory at h
    cases hres : Memory.intern entry.name.toUTF8 m.toMemory with
    | error e mem =>
      rw [hres] at h
      cases h
    | ok symbol mem =>
      rw [hres] at hintern h
      obtain ⟨ρ₁, hv₁, hl₁, hsymbol⟩ := hintern
      by_cases hid : symbol.payload.toNat = id
      · simp only [if_pos hid] at h
        obtain ⟨ρ₂, hv₂, hl₂, hnames⟩ := ih hv₁ h
        refine ⟨ρ₂, hv₂, hl₁.trans hl₂, fun k hk => ?_⟩
        cases k with
        | zero =>
          obtain ⟨i, rfl⟩ := hsymbol.eq_symbol
          rw [Word.payload_symbol] at hid
          rw [Nat.add_zero, ← hid, UInt32.ofNat_toNat]
          exact hl₂.names _ hsymbol.mem_values
        | succ k =>
          rw [Nat.add_comm k 1, ← Nat.add_assoc]
          exact hnames k (Nat.lt_of_succ_lt_succ hk)
      · simp only [if_neg hid] at h
        cases h

theorem initialEnvironment_ok {env : Word} (hv : m.toMemory.Valid ρ) (h : initialEnvironment m = .ok env m') :
    ∃ ρ', m'.toMemory.Valid ρ' ∧ m'.heap.roots = m.heap.roots ∧ Fits ρ' m'.heap .env env ∧
      ∀ w ∈ [Operation.lambdaSymbol, Operation.defineSymbol], w ∈ m'.symbols.values := by
  change EStateM.bind (internNames 0 Operation.table.toList) (fun _ => Eval.cons .nil .nil) m = _ at h
  unfold EStateM.bind at h
  cases hnames : internNames 0 Operation.table.toList m with
  | error e m₁ =>
    rw [hnames] at h
    cases h
  | ok _ m₁ =>
    rw [hnames] at h
    obtain ⟨ρ₁, hv₁, hl₁, hsymbols⟩ := internNames_ok hv hnames
    have hcons := does_cons hv₁.typed (.env .nil) .nil .nil
    change (Eval.onHeap (Heap.cons .nil .nil)) m₁ = _ at h
    unfold Eval.onHeap at h
    cases hres : Heap.cons .nil .nil m₁.heap with
    | error e h₂ =>
      rw [hres] at h
      cases h
    | ok pair h₂ =>
      rw [hres] at hcons h
      obtain ⟨ρ₂, ht₂, hl₂, hpair⟩ := hcons
      cases h
      refine ⟨ρ₂, hv₁.withHeap ht₂ hl₂.heap, hl₂.heap.roots.trans hl₁.heap.roots, hpair, ?_⟩
      have hlength : 7 < Operation.table.toList.length := by decide
      simp only [List.forall_mem_cons]
      exact ⟨hsymbols 6 (Nat.lt_of_succ_lt hlength), hsymbols 7 hlength, by simp⟩

/-- The cells of a new machine have roles. -/
theorem Machine.Valid.create {config : Config} {terminal : Terminal} {files : Files}
    (h : Machine.create config terminal files = .ok m) : ∃ ρ, m.Valid ρ := by
  unfold Machine.create at h
  dsimp only at h
  split at h
  next env m' hinit =>
    cases h
    obtain ⟨ρ, hv, hroots, henv, hcore⟩ := initialEnvironment_ok (.fresh (fun _ => .data) ..) hinit
    have hempty : m'.heap.roots = #[] := hroots
    refine ⟨ρ, hv, fun w hw => ?_, henv, hcore⟩
    exact absurd (hempty ▸ hw) (Array.not_mem_empty w)
  next => cases h

end Create

/-! ## Programs -/

/-- Whatever programs run on a new machine, and whenever it collects, nothing that an evaluation under way will look at
leads to a free slot, and no collection frees any of it. The one exception is a body that `apply` entered by way of
`apply`: its rest may be lost to a collection. -/
theorem runAll_audited {config : Config} {terminal : Terminal} {files : Files} {m : Machine}
    (hm : Machine.create config terminal files = .ok m) (programs : List Program) :
    Supervised.runAll Moment.Safe programs m = .ok (runAll programs m) ∨
      ∃ moment, moment.Loses ∧ Supervised.runAll Moment.Safe programs m = .error (.breach moment) := by
  obtain ⟨ρ, hv⟩ := Machine.Valid.create hm
  exact auditing.runAll_cases hv programs

/-- A machine that collects before every pass, and a list that drops its closure while `apply` runs it. -/
theorem runAll_audited_eager :
    ∃ m, Machine.create { cells := 64, strings := 72, roots := 32, collectEvery := 1 } .capturing {} = .ok m ∧
      let programs : List Program :=
        [⟨"(define l (list (lambda () (set-car! l #f) (list 1 2 3 4) 7) '()))", 100, {}⟩, ⟨"(apply apply l)", 100, {}⟩]
      Supervised.runAll Moment.Safe programs m = .ok (runAll programs m) ∨
        ∃ moment, moment.Loses ∧ Supervised.runAll Moment.Safe programs m = .error (.breach moment) := by
  have hok : (Machine.create { cells := 64, strings := 72, roots := 32, collectEvery := 1 } .capturing {}).toBool := by
    decide +kernel
  cases hm : Machine.create { cells := 64, strings := 72, roots := 32, collectEvery := 1 } .capturing {} with
  | error e =>
    rw [hm] at hok
    cases hok
  | ok m => exact ⟨m, rfl, runAll_audited hm _⟩

end BoxedScheme
