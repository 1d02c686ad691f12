import BoxedScheme.Proofs.Supervision

/-!
# Disciplines

An invariant says which machines are good, which words fit which roles, and which of them the roots hold on to, given a
ghost that the machine does not know of. A discipline for a policy is an invariant that every action of the evaluator
keeps, and that implies what the policy asks for, unless a breach of it is excused.

* `Invariant`, `Invariant.Held`, `Invariant.Next` : an invariant, and what holds between two states of an evaluation;
* `Invariant.Obeys` : the outcome of a single action;
* `Discipline P E` : what single actions have to satisfy, where `E` says which breaches of `P` are excused;
* `InHand d hand g m` : the state in which an evaluation above root `d` goes on;
* `Tracks d lent g m r R Q` : the supervised outcome `R` is excused, or is the outcome `r` and leaves a good state;
* `InHand.bind`, `Tracks.check`, `Invariant.Obeys.act` : one action after another, and actions under supervision;
* `Invariant.lasting` : invariants that do not depend on what the roots hold.
-/

namespace BoxedScheme

open Supervised (Halt Run check act plain embed)

/-! ## Invariants -/

/-- The role in which a word is in hand: there an argument list counts as data. -/
def Role.shown : Role → Role
  | .args _ => .data
  | r => r

theorem Role.shown_settle (r : Role) (n : Nat) : (r.settle n).shown = r.shown := by
  cases r with
  | args k =>
    show (if k < n then Role.args k else .data).shown = .data
    split <;> rfl
  | _ => rfl

theorem Shape.shown_item (s : Shape) : s.item.shown = s.item := by
  cases s <;> rfl

structure Invariant where
  /-- What there is to know about a machine beyond its state. -/
  Ghost : Type
  Good : Ghost → Machine → Prop
  Fits : Ghost → Machine → Role → Word → Prop
  /-- The first roots, so many of them, or the given words hold on to the word. -/
  Holds : Nat → List Word → Ghost → Machine → Word → Prop
  /-- What is known of a word that nothing may hold on to any more. -/
  Idle : Ghost → Machine → Role → Word → Prop

namespace Invariant

variable (I : Invariant)

/-- A word of the given role that the first `d` roots or the lent words hold on to. -/
structure Held (d : Nat) (lent : List Word) (g : I.Ghost) (m : Machine) (r : Role) (w : Word) : Prop where
  fits : I.Fits g m r w
  holds : I.Holds d lent g m w

/-- From one state an evaluation may come to the other, if it leaves alone the first `d` roots and what they and the
lent words hold on to. -/
structure Next (d : Nat) (lent : List Word) (g : I.Ghost) (m : Machine) (g' : I.Ghost) (m' : Machine) : Prop where
  good : I.Good g' m'
  roots : m'.heap.roots.toList.take d = m.heap.roots.toList.take d
  held : ∀ e ≤ d, ∀ lent' ⊆ lent, ∀ r w, r.Fixed e → I.Held e lent' g m r w → I.Held e lent' g' m' r w
  idle : ∀ r w, I.Idle g m r w → I.Idle g' m' r w

/-- From one state a single action may come to the other. -/
structure Follows (g : I.Ghost) (m : Machine) (g' : I.Ghost) (m' : Machine) : Prop where
  next : ∀ d lent, I.Next d lent g m g' m'
  later : ∀ r w, I.Fits g m r w → I.Fits g' m' r w

section Obeys

variable {α : Type}

/-- An action that was started in the given state leaves one that may follow, and its value satisfies `Q`. -/
def Obeys (g : I.Ghost) (m : Machine) (r : EStateM.Result Stop Machine α) (Q : α → I.Ghost → Machine → Prop) : Prop :=
  match r with
  | .ok a m' => ∃ g', I.Follows g m g' m' ∧ Q a g' m'
  | .error _ m' => ∃ g', I.Follows g m g' m'

def Gives (r : Role) (w : Word) (g : I.Ghost) (m : Machine) : Prop := I.Fits g m r w

def Yields : Step → I.Ghost → Machine → Prop
  | .done value, g, m => I.Fits g m .data value
  | .tail expr env, g, m => I.Fits g m .expr expr ∧ I.Fits g m .env env

end Obeys

variable {I} {d e : Nat} {lent lent' : List Word} {g g' g'' : I.Ghost} {m m' m'' : Machine} {r : Role} {w : Word}

theorem Next.refl (hm : I.Good g m) (d : Nat) (lent : List Word) : I.Next d lent g m g m :=
  ⟨hm, rfl, fun _ _ _ _ _ _ _ hw => hw, fun _ _ hw => hw⟩

theorem Next.trans (h : I.Next d lent g m g' m') (h' : I.Next d lent g' m' g'' m'') : I.Next d lent g m g'' m'' where
  good := h'.good
  roots := h'.roots.trans h.roots
  held e he lent' hl r w hr hw := h'.held e he lent' hl r w hr (h.held e he lent' hl r w hr hw)
  idle r w hw := h'.idle r w (h.idle r w hw)

theorem Next.mono (h : I.Next e lent' g m g' m') (hde : d ≤ e) (hlent : lent ⊆ lent') : I.Next d lent g m g' m' where
  good := h.good
  roots := by
    have htake := congrArg (List.take d) h.roots
    rwa [List.take_take, List.take_take, Nat.min_eq_left hde] at htake
  held k hk lent'' hl := h.held k (Nat.le_trans hk hde) lent'' fun _ hw => hlent (hl hw)
  idle := h.idle

theorem Next.lower (h : I.Next e lent g m g' m') (hde : d ≤ e) : I.Next d lent g m g' m' :=
  h.mono hde (List.Subset.refl lent)

theorem Held.next (hw : I.Held d lent g m r w) (hn : I.Next d lent g m g' m') (hr : r.Fixed d) :
    I.Held d lent g' m' r w := hn.held d (Nat.le_refl d) lent (List.Subset.refl lent) r w hr hw

theorem Follows.refl (hm : I.Good g m) : I.Follows g m g m := ⟨fun d lent => .refl hm d lent, fun _ _ hw => hw⟩

theorem Follows.trans (h : I.Follows g m g' m') (h' : I.Follows g' m' g'' m'') : I.Follows g m g'' m'' :=
  ⟨fun d lent => (h.next d lent).trans (h'.next d lent), fun r w hw => h'.later r w (h.later r w hw)⟩

theorem Follows.roots_eq (h : I.Follows g m g' m') : m'.heap.roots = m.heap.roots := by
  apply Array.ext'
  have htake := (h.next (max m'.heap.roots.size m.heap.roots.size) []).roots
  rwa [List.take_of_length_le, List.take_of_length_le] at htake
  · exact Array.length_toList ▸ Nat.le_max_right ..
  · exact Array.length_toList ▸ Nat.le_max_left ..

section Actions

variable {α β : Type} {Q Q' : α → I.Ghost → Machine → Prop} {R : β → I.Ghost → Machine → Prop}

theorem Obeys.imp {x : EStateM.Result Stop Machine α} (hx : I.Obeys g m x Q)
    (hq : ∀ a g' m', Q a g' m' → Q' a g' m') : I.Obeys g m x Q' := by
  cases x with
  | error e m' => exact hx
  | ok a m' =>
    obtain ⟨g', hf, ha⟩ := hx
    exact ⟨g', hf, hq a g' m' ha⟩

theorem Obeys.bind {x : Eval α} {f : α → Eval β} (hx : I.Obeys g m (x m) Q)
    (hf : ∀ a g' m', I.Follows g m g' m' → Q a g' m' → I.Obeys g' m' (f a m') R) :
    I.Obeys g m ((x >>= f) m) R := by
  show I.Obeys g m (EStateM.bind x f m) R
  unfold EStateM.bind
  cases hxm : x m with
  | error e m' =>
    rw [hxm] at hx
    exact hx
  | ok a m' =>
    rw [hxm] at hx
    obtain ⟨g', hn, ha⟩ := hx
    have hrest := hf a g' m' hn ha
    show I.Obeys g m (f a m') R
    cases hfm : f a m' with
    | error e m'' =>
      rw [hfm] at hrest
      obtain ⟨g'', hn'⟩ := hrest
      exact ⟨g'', hn.trans hn'⟩
    | ok b m'' =>
      rw [hfm] at hrest
      obtain ⟨g'', hn', hb⟩ := hrest
      exact ⟨g'', hn.trans hn', hb⟩

theorem Obeys.result {x : EStateM.Result Stop Machine α} (hx : I.Obeys g m x Q) :
    I.Obeys g m x fun a g' m' => x = .ok a m' ∧ Q a g' m' := by
  cases x with
  | error e m' => exact hx
  | ok a m' =>
    obtain ⟨g', hn, ha⟩ := hx
    exact ⟨g', hn, rfl, ha⟩

end Actions

/-- Every word in hand fits the role that it has there. -/
structure Grips (I : Invariant) (g : I.Ghost) (m : Machine) (hand : Hand) : Prop where
  held : ∀ x ∈ hand.held, ∃ r, r.shown = x.1 ∧ I.Fits g m r x.2
  lent : ∀ w ∈ hand.lent, I.Fits g m (.operands .exprs) w
  idle : ∀ x ∈ hand.idle, I.Idle g m x.1 x.2

end Invariant

/-! ## Disciplines -/

/-- What is used is there. -/
def Deed.Possible (m : Machine) : Deed → Prop
  | .look => True
  | .slot position => position < m.heap.roots.size
  | .drop depth => depth ≤ m.heap.roots.size
  | .argument position count => position < count
  | .token count => 0 < count
  | .collect | .called _ _ => False

/-- The state in which an evaluation above root `d` goes on: the words that it will look at are held. -/
structure InHand (I : Invariant) (d : Nat) (hand : Hand) (g : I.Ghost) (m : Machine) : Prop where
  good : I.Good g m
  depth : d ≤ m.heap.roots.size
  held : ∀ x ∈ hand.held, ∃ r : Role, r.shown = x.1 ∧ r.Fixed d ∧ I.Held d hand.lent g m r x.2
  lent : ∀ w ∈ hand.lent, I.Fits g m (.operands .exprs) w
  idle : ∀ x ∈ hand.idle, I.Idle g m x.1 x.2

theorem InHand.grips {I : Invariant} {d : Nat} {hand : Hand} {g : I.Ghost} {m : Machine} (hr : InHand I d hand g m) :
    I.Grips g m hand where
  held x hx := by
    obtain ⟨r, hshown, -, hw⟩ := hr.held x hx
    exact ⟨r, hshown, hw.fits⟩
  lent := hr.lent
  idle := hr.idle

/-- An invariant that the actions of the evaluator keep and that satisfies a policy, but for excused breaches. -/
structure Discipline (P : Policy) (E : Moment → Prop) extends Invariant where
  /-- A word that refers to nothing has every role, and only pairs tell roles apart. -/
  immediate : ∀ {g m r w}, w.isImmediate → Fits g m r w
  atom : ∀ {g m r r' w}, Fits g m r w → ¬ w.isPair → Fits g m r' w
  idle : ∀ {g m r w}, Fits g m r w → Idle g m r.shown w
  globalEnv : ∀ {g m}, Good g m → Fits g m .env m.globalEnv
  args : ∀ {g m n w}, Good g m → Fits g m (.args n) w → w.isPair →
    Fits g m .data (m.heap.cells.read w.payload).car ∧ Fits g m (.args n) (m.heap.cells.read w.payload).cdr
  data : ∀ {g m w}, Good g m → Fits g m .data w → w.isPair →
    Fits g m .data (m.heap.cells.read w.payload).car ∧ Fits g m .data (m.heap.cells.read w.payload).cdr
  expr : ∀ {g m w}, Good g m → Fits g m .expr w → w.isPair →
    Fits g m .expr (m.heap.cells.read w.payload).car ∧
      Fits g m (.operands (.ofHead (m.heap.cells.read w.payload).car)) (m.heap.cells.read w.payload).cdr
  operands : ∀ {g m s w}, Good g m → Fits g m (.operands s) w → w.isPair →
    Fits g m s.item (m.heap.cells.read w.payload).car ∧
      Fits g m (.operands (s.next (m.heap.cells.read w.payload).car)) (m.heap.cells.read w.payload).cdr
  closureParts : ∀ {g m w parts}, Good g m → Fits g m .data w → m.heap.closureParts w = .ok parts →
    Fits g m .env parts.env ∧ Fits g m .inert parts.params ∧ Fits g m (.operands .exprs) parts.body
  /-- What holds on to what. -/
  holds_mono : ∀ {d e lent lent' g m w}, Holds d lent g m w → d ≤ e → lent ⊆ lent' → Holds e lent' g m w
  holds_root : ∀ {d lent g m i w}, m.heap.roots[i]? = some w → i < d → Holds d lent g m w
  holds_lent : ∀ {d lent g m r w}, Fits g m r w → w ∈ lent → Holds d lent g m w
  holds_pair : ∀ {d lent g m r w}, Fits g m r w → Holds d lent g m w → w.isPair → r.Solid d →
    Holds d lent g m (m.heap.cells.read w.payload).car ∧ Holds d lent g m (m.heap.cells.read w.payload).cdr
  holds_body : ∀ {d lent g m w parts}, Good g m → Fits g m .data w → Holds d lent g m w →
    m.heap.closureParts w = .ok parts → Holds d lent g m parts.body
  /-- What the policy asks for. -/
  allows : ∀ {g m hand} deed, Good g m → toInvariant.Grips g m hand → deed.Possible m → P ⟨hand, deed, m⟩
  allows_called : ∀ {g g' m m' hand p name argv v}, Good g m → toInvariant.Grips g m hand →
    (∀ w ∈ argv.toList, Fits g m .data w) → Primitive.call p name argv m = .ok v m' → Good g' m' →
    toInvariant.Grips g' m' hand → P ⟨hand, .called p m, m'⟩
  collect : ∀ {d g m hand}, InHand toInvariant d hand g m →
    P ⟨hand, .collect, m⟩ ∧ (∃ g', toInvariant.Next d hand.lent g m g' (maybeCollect m)) ∨
      ¬ P ⟨hand, .collect, m⟩ ∧ E ⟨hand, .collect, m⟩
  /-- Environments. -/
  lookup : ∀ {g m env symbol}, Good g m → Fits g m .env env →
    toInvariant.Obeys g m (BoxedScheme.lookup env symbol m) (toInvariant.Gives .data)
  define : ∀ {g m env symbol value}, Good g m → Fits g m .env env → Fits g m .inert symbol → Fits g m .data value →
    toInvariant.Obeys g m (BoxedScheme.define env symbol value m) fun _ _ _ => True
  extend : ∀ {g m env params args}, Good g m → Fits g m .env env → Fits g m .inert params → Fits g m .data args →
    toInvariant.Obeys g m (BoxedScheme.extend env params args m) (toInvariant.Gives .env)
  /-- Special forms that evaluate nothing. -/
  defineProcedure : ∀ {g m target operands env}, Good g m → Fits g m .inert target →
    Fits g m (.operands .headed) operands → Fits g m .env env →
    toInvariant.Obeys g m (BoxedScheme.defineProcedure target operands env m) fun _ _ _ => True
  lambda : ∀ {g m args operands env tail}, Good g m → Fits g m (.operands .headed) operands →
    m.heap.Lists operands args tail → Fits g m .env env →
    toInvariant.Obeys g m (evalLambda args operands env m) toInvariant.Yields
  bind : ∀ {g m args operands env tail}, Good g m → Fits g m (.operands .named) operands →
    m.heap.Lists operands args tail → Fits g m .env env →
    toInvariant.Obeys g m (evalBind args operands env m) toInvariant.Yields
  bindInOrder : ∀ {g m args operands env tail}, Good g m → Fits g m (.operands (.scoped .exprs)) operands →
    m.heap.Lists operands args tail → Fits g m .env env →
    toInvariant.Obeys g m (evalBindInOrder args operands env m) toInvariant.Yields
  /-- Procedures and texts. -/
  call : ∀ {g m p name argv}, Good g m → (∀ w ∈ argv.toList, Fits g m .data w) →
    toInvariant.Obeys g m (Primitive.call p name argv m) (toInvariant.Gives .data)
  readDatum : ∀ {g m r}, Good g m →
    toInvariant.Obeys g m (Eval.readDatum r m) fun found g' m' => Fits g' m' .expr found.1
  /-- Argument lists: a new cell, a cell behind the last one, and a list that becomes data. -/
  cons : ∀ {g m value} n, Good g m → Fits g m .data value →
    toInvariant.Obeys g m (Eval.cons value .nil m) (toInvariant.Gives (.args n))
  append : ∀ {g m n lent last cell}, Good g m → toInvariant.Held (n + 1) lent g m (.args n) last →
    Fits g m (.args n) cell → last.isPair →
    ∃ g', let m' := m.mapHeap fun h => { h with cells := h.cells.update last.payload ({ · with cdr := cell }) }
      (∀ lent, toInvariant.Next n lent g m g' m') ∧ (∀ r w, Fits g m r w → Fits g' m' r w) ∧
        Holds (n + 1) lent g' m' cell
  settle : ∀ {g m} n, Good g m →
    ∃ g', (∀ lent, toInvariant.Next n lent g m g' m) ∧ ∀ r w, Fits g m r w → Fits g' m (r.settle n) w
  /-- What else happens to a machine. -/
  withRoots : ∀ {d lent g m roots}, Good g m → (∀ w ∈ roots, w ∈ m.heap.roots ∨ ∃ r, Fits g m r w) →
    roots.toList.take d = m.heap.roots.toList.take d →
    toInvariant.Next d lent g m g (m.mapHeap fun h => { h with roots }) ∧
      ∀ r w, Fits g m r w → Fits g (m.mapHeap fun h => { h with roots }) r w
  withFiles : ∀ {g m} files, Good g m → Good g { m with files }

/-! ## What is in hand -/

section InHand

variable {P : Policy} {E : Moment → Prop} {D : Discipline P E} {d e : Nat} {hand : Hand} {g g' : D.Ghost}
  {m m' : Machine} {r : Role} {w : Word} {words lent : List Word}

theorem Invariant.Held.mono (hw : D.Held d lent g m r w) (hde : d ≤ e) : D.Held e lent g m r w :=
  ⟨hw.fits, D.holds_mono hw.holds hde (List.Subset.refl lent)⟩

/-- The parts of an expression are held with it. -/
theorem Invariant.Held.expr (hw : D.Held d lent g m .expr w) (hm : D.Good g m) (hp : w.isPair) :
    D.Held d lent g m .expr (m.heap.cells.read w.payload).car ∧
      D.Held d lent g m (.operands (.ofHead (m.heap.cells.read w.payload).car)) (m.heap.cells.read w.payload).cdr := by
  obtain ⟨hcar, hcdr⟩ := D.expr hm hw.fits hp
  obtain ⟨hcar', hcdr'⟩ := D.holds_pair hw.fits hw.holds hp trivial
  exact ⟨⟨hcar, hcar'⟩, hcdr, hcdr'⟩

theorem Invariant.Held.operands {s : Shape} (hw : D.Held d lent g m (.operands s) w) (hm : D.Good g m)
    (hp : w.isPair) : D.Held d lent g m s.item (m.heap.cells.read w.payload).car ∧
      D.Held d lent g m (.operands (s.next (m.heap.cells.read w.payload).car)) (m.heap.cells.read w.payload).cdr := by
  obtain ⟨hcar, hcdr⟩ := D.operands hm hw.fits hp
  obtain ⟨hcar', hcdr'⟩ := D.holds_pair hw.fits hw.holds hp trivial
  exact ⟨⟨hcar, hcar'⟩, hcdr, hcdr'⟩

theorem Invariant.Held.exprs {operands tail : Word} {args : List Word}
    (hop : D.Held d lent g m (.operands .exprs) operands) (hm : D.Good g m) (hl : m.heap.Lists operands args tail) :
    ∀ a ∈ args, D.Held d lent g m .expr a := by
  induction hl with
  | nil => simp
  | cons hp _ ih =>
    obtain ⟨hcar, hcdr⟩ := hop.operands hm hp
    exact List.forall_mem_cons.2 ⟨hcar, ih hcdr⟩

theorem Invariant.Grips.hold (hh : D.Grips g m hand) (hw : D.Fits g m r w) : D.Grips g m (hand.hold r.shown w) :=
  ⟨List.forall_mem_cons.2 ⟨⟨r, rfl, hw⟩, hh.held⟩, hh.lent, hh.idle⟩

theorem Invariant.Grips.holdAll (hh : D.Grips g m hand) (hw : ∀ w ∈ words, D.Fits g m r w) :
    D.Grips g m (hand.holdAll r.shown words) :=
  ⟨List.forall_mem_append.2 ⟨List.forall_mem_map.2 fun w hmem => ⟨r, rfl, hw w hmem⟩, hh.held⟩, hh.lent, hh.idle⟩

theorem Invariant.Grips.later (hh : D.Grips g m hand) (hidle : ∀ r w, D.Idle g m r w → D.Idle g' m' r w)
    (hl : ∀ r w, D.Fits g m r w → D.Fits g' m' r w) : D.Grips g' m' hand where
  held x hx := by
    obtain ⟨r, hr, hw⟩ := hh.held x hx
    exact ⟨r, hr, hl r _ hw⟩
  lent w hw := hl _ w (hh.lent w hw)
  idle x hx := hidle _ _ (hh.idle x hx)

theorem InHand.hold (hr : InHand D.toInvariant d hand g m) (hw : D.Held d hand.lent g m r w) (hfixed : r.Fixed d) :
    InHand D.toInvariant d (hand.hold r.shown w) g m :=
  { hr with held := List.forall_mem_cons.2 ⟨⟨r, rfl, hfixed, hw⟩, hr.held⟩ }

theorem InHand.holdAll (hr : InHand D.toInvariant d hand g m) (hw : ∀ w ∈ words, D.Held d hand.lent g m r w)
    (hfixed : r.Fixed d) : InHand D.toInvariant d (hand.holdAll r.shown words) g m :=
  { hr with
    held := List.forall_mem_append.2 ⟨List.forall_mem_map.2 fun w hmem => ⟨r, rfl, hfixed, hw w hmem⟩, hr.held⟩ }

theorem InHand.leave (hr : InHand D.toInvariant d hand g m) (hw : D.Fits g m r w) :
    InHand D.toInvariant d (hand.leave r.shown w) g m :=
  { hr with idle := List.forall_mem_cons.2 ⟨D.idle hw, hr.idle⟩ }

theorem InHand.leaveAll (hr : InHand D.toInvariant d hand g m) (hw : ∀ w ∈ words, D.Fits g m r w) :
    InHand D.toInvariant d (hand.leaveAll r.shown words) g m :=
  { hr with idle := List.forall_mem_append.2 ⟨List.forall_mem_map.2 fun w hmem => D.idle (hw w hmem), hr.idle⟩ }

theorem InHand.lend (hr : InHand D.toInvariant d hand g m) (hw : D.Fits g m (.operands .exprs) w) :
    InHand D.toInvariant d { hand with lent := w :: hand.lent } g m where
  good := hr.good
  depth := hr.depth
  held x hx := by
    obtain ⟨r, hshown, hfixed, hx⟩ := hr.held x hx
    exact ⟨r, hshown, hfixed, hx.fits, D.holds_mono hx.holds (Nat.le_refl d) (List.subset_cons_self w hand.lent)⟩
  lent := List.forall_mem_cons.2 ⟨hw, hr.lent⟩
  idle := hr.idle

theorem InHand.raise (hr : InHand D.toInvariant d hand g m) (hde : d ≤ e) (he : e ≤ m.heap.roots.size) :
    InHand D.toInvariant e hand g m :=
  { hr with
    depth := he
    held := fun x hx => by
      obtain ⟨r, hshown, hfixed, hx⟩ := hr.held x hx
      exact ⟨r, hshown, hfixed.mono hde, hx.mono hde⟩ }

theorem InHand.next (hr : InHand D.toInvariant d hand g m) (hn : D.Next d hand.lent g m g' m') :
    InHand D.toInvariant d hand g' m' where
  good := hn.good
  depth := Heap.le_size_of_take_eq hr.depth hn.roots
  held x hx := by
    obtain ⟨r, hshown, hfixed, hx⟩ := hr.held x hx
    exact ⟨r, hshown, hfixed, hx.next hn hfixed⟩
  lent w hw := by
    have hheld : D.Held d hand.lent g m (.operands .exprs) w := ⟨hr.lent w hw, D.holds_lent (hr.lent w hw) hw⟩
    exact (hheld.next hn trivial).fits
  idle x hx := hn.idle _ _ (hr.idle x hx)

end InHand

/-! ## Tracking -/

section Tracks

variable {α β : Type} {P : Policy} {E : Moment → Prop} (D : Discipline P E)

def Excused (E : Moment → Prop) (R : EStateM.Result Halt Machine α) : Prop :=
  ∃ moment m', R = .error (.breach moment) m' ∧ E moment

/-- The supervised outcome `R` is excused, or is that of the evaluation. The state it leaves comes next, and its value
satisfies `Q`. -/
def Tracks (d : Nat) (lent : List Word) (g : D.Ghost) (m : Machine) (r : EStateM.Result Stop Machine α)
    (R : EStateM.Result Halt Machine α) (Q : α → D.Ghost → Machine → Prop) : Prop :=
  Excused E R ∨ R = embed r ∧
    match r with
    | .ok a m' => ∃ g', D.Next d lent g m g' m' ∧ Q a g' m'
    | .error _ m' => ∃ g', D.Next d lent g m g' m'

variable {D} {d e : Nat} {hand : Hand} {lent lent' : List Word} {g g' : D.Ghost} {m m' : Machine}
  {Q Q' : α → D.Ghost → Machine → Prop} {R : β → D.Ghost → Machine → Prop} {r : Role} {w : Word}

/-- The outcome as seen from another state, or by an evaluation that relies on less. -/
theorem Tracks.weaken {x : EStateM.Result Stop Machine α} {X : EStateM.Result Halt Machine α} {g₀ : D.Ghost}
    {m₀ : Machine} (h : Tracks D e lent' g m x X Q)
    (hn : ∀ (g' : D.Ghost) (m' : Machine), D.Next e lent' g m g' m' → D.Next d lent g₀ m₀ g' m')
    (hq : ∀ a g' m', D.Next e lent' g m g' m' → Q a g' m' → Q' a g' m') : Tracks D d lent g₀ m₀ x X Q' := by
  rcases h with hexcused | ⟨hsame, h⟩
  · exact .inl hexcused
  · refine .inr ⟨hsame, ?_⟩
    cases x with
    | error e m' =>
      obtain ⟨g', hnext⟩ := h
      exact ⟨g', hn g' m' hnext⟩
    | ok a m' =>
      obtain ⟨g', hnext, ha⟩ := h
      exact ⟨g', hn g' m' hnext, hq a g' m' hnext ha⟩

theorem Tracks.imp {x : EStateM.Result Stop Machine α} {X : EStateM.Result Halt Machine α}
    (h : Tracks D d lent g m x X Q) (hq : ∀ a g' m', Q a g' m' → Q' a g' m') : Tracks D d lent g m x X Q' :=
  h.weaken (fun _ _ hn => hn) fun a g' m' _ => hq a g' m'

/-- An evaluation above root `e` leaves alone what is held there, and so what is held below. -/
theorem Tracks.lower {x : EStateM.Result Stop Machine α} {X : EStateM.Result Halt Machine α}
    (h : Tracks D e lent' g m x X Q) (hde : d ≤ e) (hlent : lent ⊆ lent') :
    Tracks D d lent g m x X fun a g' m' => D.Next e lent' g m g' m' ∧ Q a g' m' :=
  h.weaken (fun _ _ hn => hn.mono hde hlent) fun _ _ _ hn hq => ⟨hn, hq⟩

/-- The outcome from a state that comes next. -/
theorem Tracks.after {x : EStateM.Result Stop Machine α} {X : EStateM.Result Halt Machine α}
    (hn : D.Next d lent g m g' m') (h : Tracks D d lent g' m' x X Q) : Tracks D d lent g m x X Q :=
  h.weaken (fun _ _ hn' => hn.trans hn') fun _ _ _ _ hq => hq

theorem InHand.bind {x : Eval α} {f : α → Eval β} {X : Run α} {F : α → Run β} (hr : InHand D.toInvariant d hand g m)
    (hx : Tracks D d hand.lent g m (x m) (X m) Q)
    (hf : ∀ a g' m', InHand D.toInvariant d hand g' m' → D.Next d hand.lent g m g' m' → Q a g' m' →
      Tracks D d hand.lent g' m' (f a m') (F a m') R) : Tracks D d hand.lent g m ((x >>= f) m) ((X >>= F) m) R := by
  show Tracks D d hand.lent g m (EStateM.bind x f m) (EStateM.bind X F m) R
  unfold EStateM.bind
  rcases hx with ⟨moment, m', hexcused, hE⟩ | ⟨hsame, hx⟩
  · rw [hexcused]
    exact .inl ⟨moment, m', rfl, hE⟩
  · rw [hsame]
    cases hxm : x m with
    | error e m' =>
      rw [hxm] at hx
      exact .inr ⟨rfl, hx⟩
    | ok a m' =>
      rw [hxm] at hx
      obtain ⟨g', hn, hq⟩ := hx
      exact (hf a g' m' (hr.next hn) hn hq).after hn

theorem Tracks.pure {a : α} (hr : InHand D.toInvariant d hand g m) (ha : Q a g m) :
    Tracks D d lent g m ((pure a : Eval α) m) ((pure a : Run α) m) Q :=
  .inr ⟨rfl, g, .refl hr.good d lent, ha⟩

theorem Tracks.throw {e : Stop} (hr : InHand D.toInvariant d hand g m) :
    Tracks D d lent g m ((throw e : Eval α) m) ((throw (.stop e) : Run α) m) Q :=
  .inr ⟨rfl, g, .refl hr.good d lent⟩

theorem tracks_raise {e : Error} (hr : InHand D.toInvariant d hand g m) :
    Tracks D d lent g m (Eval.raise e m) (plain (Eval.raise e : Eval α) m) Q := Tracks.throw hr

theorem Tracks.get_bind {f : Machine → Eval β} {F : Machine → Run β} (h : Tracks D d lent g m (f m m) (F m m) R) :
    Tracks D d lent g m ((get >>= f) m) ((get >>= F) m) R := h

theorem Tracks.supervised_get_bind {x : EStateM.Result Stop Machine β} {F : Machine → Run β}
    (h : Tracks D d lent g m x (F m' m') R) : Tracks D d lent g m x ((get >>= F) m') R := h

/-! ## Actions under supervision -/

theorem check_bind {X : Run α} {deed : Deed} (h : P ⟨hand, deed, m⟩) :
    (check P hand deed >>= fun _ => X) m = X m := by
  show EStateM.bind (check P hand deed) (fun _ => X) m = _
  unfold EStateM.bind check
  rw [if_pos h]

theorem check_bind_of_not {X : Run α} {deed : Deed} (h : ¬ P ⟨hand, deed, m⟩) :
    (check P hand deed >>= fun _ => X) m = .error (.breach ⟨hand, deed, m⟩) m := by
  show EStateM.bind (check P hand deed) (fun _ => X) m = _
  unfold EStateM.bind check
  rw [if_neg h]

theorem Tracks.allowed {x : EStateM.Result Stop Machine α} {X : Run α} {deed : Deed} (hok : P ⟨hand, deed, m⟩)
    (h : Tracks D e lent g m x (X m) Q) : Tracks D e lent g m x ((check P hand deed >>= fun _ => X) m) Q := by
  rw [check_bind hok]
  exact h

/-- Whatever is possible is allowed. -/
theorem Tracks.check {x : EStateM.Result Stop Machine α} {X : Run α} (deed : Deed) (hm : D.Good g m)
    (hh : D.Grips g m hand) (hdeed : deed.Possible m) (h : Tracks D e lent g m x (X m) Q) :
    Tracks D e lent g m x ((check P hand deed >>= fun _ => X) m) Q := .allowed (D.allows deed hm hh hdeed) h

theorem Invariant.Obeys.plain {x : Eval α} (hx : D.Obeys g m (x m) Q) :
    Tracks D d lent g m (x m) (plain x m) fun a g' m' => D.Follows g m g' m' ∧ Q a g' m' := by
  refine .inr ⟨rfl, ?_⟩
  cases hxm : x m with
  | error e m' =>
    rw [hxm] at hx
    obtain ⟨g', hf⟩ := hx
    exact ⟨g', hf.next d lent⟩
  | ok a m' =>
    rw [hxm] at hx
    obtain ⟨g', hf, ha⟩ := hx
    exact ⟨g', hf.next d lent, hf, ha⟩

theorem Invariant.Obeys.act {x : Eval α} (hx : D.Obeys g m (x m) Q) (hm : D.Good g m) (hh : D.Grips g m hand) :
    Tracks D d lent g m (x m) (act P hand x m) fun a g' m' => D.Follows g m g' m' ∧ Q a g' m' :=
  .check .look hm hh trivial hx.plain

/-- Looking at the heap changes nothing. -/
theorem obeys_inspect {f : Heap → Except Fault α} (hm : D.Good g m) :
    D.Obeys g m (Eval.inspect f m) fun a g' m' => g' = g ∧ m' = m ∧ f m.heap = .ok a := by
  unfold Eval.inspect
  cases hf : f m.heap with
  | error e => exact ⟨g, .refl hm⟩
  | ok a => exact ⟨g, .refl hm, rfl, rfl, rfl⟩

theorem obeys_car (hm : D.Good g m) :
    D.Obeys g m (Eval.car w m) fun a g' m' => g' = g ∧ m' = m ∧ w.isPair ∧ a = (m.heap.cells.read w.payload).car := by
  refine (obeys_inspect hm).imp ?_
  rintro a _ _ ⟨rfl, rfl, ha⟩
  by_cases hp : w.isPair
  · rw [Heap.car, Heap.pairCell_of_isPair hp] at ha
    cases ha
    exact ⟨rfl, rfl, hp, rfl⟩
  · rw [Heap.car, Heap.pairCell_of_not_isPair hp] at ha
    cases ha

theorem obeys_cdr (hm : D.Good g m) :
    D.Obeys g m (Eval.cdr w m) fun a g' m' => g' = g ∧ m' = m ∧ w.isPair ∧ a = (m.heap.cells.read w.payload).cdr := by
  refine (obeys_inspect hm).imp ?_
  rintro a _ _ ⟨rfl, rfl, ha⟩
  by_cases hp : w.isPair
  · rw [Heap.cdr, Heap.pairCell_of_isPair hp] at ha
    cases ha
    exact ⟨rfl, rfl, hp, rfl⟩
  · rw [Heap.cdr, Heap.pairCell_of_not_isPair hp] at ha
    cases ha

end Tracks

/-! ## Invariants that outlast collections -/

section Lasting

variable {G : Type} {Good : G → Machine → Prop} {Fits : G → Machine → Role → Word → Prop} {d : Nat} {hand : Hand}
  {lent : List Word} {g g' : G} {m m' : Machine}

/-- An invariant that does not ask what the roots hold, and under which argument lists are data from the start. -/
def Invariant.lasting (Good : G → Machine → Prop) (Fits : G → Machine → Role → Word → Prop) : Invariant where
  Ghost := G
  Good := Good
  Fits g m r w := Fits g m r.shown w
  Holds _ _ _ _ _ := True
  Idle := Fits

theorem Invariant.lasting_next (hm : Good g' m')
    (hroots : m'.heap.roots.toList.take d = m.heap.roots.toList.take d)
    (hl : ∀ r w, Fits g m r w → Fits g' m' r w) : (lasting Good Fits).Next d lent g m g' m' :=
  ⟨hm, hroots, fun _ _ _ _ r w _ hw => ⟨hl r.shown w hw.fits, trivial⟩, hl⟩

theorem Invariant.lasting_follows (hm : Good g' m') (hroots : m'.heap.roots = m.heap.roots)
    (hl : ∀ r w, Fits g m r w → Fits g' m' r w) : (lasting Good Fits).Follows g m g' m' :=
  ⟨fun _ _ => lasting_next hm (by rw [hroots]) hl, fun r w hw => hl r.shown w hw⟩

theorem Invariant.Grips.words (hh : (lasting Good Fits).Grips g m hand) : ∀ x ∈ hand.words, Fits g m x.1 x.2 := by
  intro x hx
  rw [Hand.words, List.mem_append, List.mem_append, List.mem_map] at hx
  rcases hx with (hx | ⟨w, hw, rfl⟩) | hx
  · obtain ⟨r, hshown, hfits⟩ := hh.held x hx
    exact hshown ▸ hfits
  · exact hh.lent w hw
  · exact hh.idle x hx

/-- Argument lists are data already. -/
theorem Invariant.lasting_settle (n : Nat) (hm : Good g m) :
    ∃ g', (∀ lent, (lasting Good Fits).Next n lent g m g' m) ∧
      ∀ (r : Role) (w : Word), Fits g m r.shown w → Fits g' m (r.settle n).shown w := by
  refine ⟨g, fun lent => .refl hm n lent, fun r w hw => ?_⟩
  rwa [Role.shown_settle]

theorem Invariant.lasting_append {n : Nat} {last cell : Word} (hp : last.isPair)
    (h : (lasting Good Fits).Obeys g m (Eval.onHeap (Heap.setCdr last cell) m) fun _ _ _ => True) :
    ∃ g', let m' := m.mapHeap fun h => { h with cells := h.cells.update last.payload ({ · with cdr := cell }) }
      (∀ lent, (lasting Good Fits).Next n lent g m g' m') ∧
        (∀ (r : Role) (w : Word), Fits g m r.shown w → Fits g' m' r.shown w) ∧ True := by
  unfold Eval.onHeap Heap.setCdr at h
  rw [Heap.updatePair_of_isPair hp] at h
  obtain ⟨g', hf, -⟩ := h
  exact ⟨g', fun lent => hf.next n lent, hf.later, trivial⟩

end Lasting

end BoxedScheme
