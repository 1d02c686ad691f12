import BoxedScheme.Proofs.Actions

/-!
# Words within bounds

Whether a slot is still in use is one question, whether it exists is another. Here a machine is asked only that its
words refer to slots that exist, so that free slots and slots that were handed out again do not matter.

* `Pool.Stocked`, `Pool.All` : the free slots of a pool are what they should be, and all items satisfy a predicate;
* `Word.Within b w`, `Contained b s` : the slot of a word, and all words of a state, are within the bounds `b`;
* `Stays b x Q` : the action stays within the bounds, and its value satisfies `Q`;
* `stays_cons`, ..., `stays_readDatum`, `stays_call` : the actions of the evaluator stay within the bounds.
-/

namespace BoxedScheme

/-! ## Pools -/

namespace Pool

variable {α : Type} {p : Pool α} {i : UInt32} {P : α → Prop}

/-- The free slots exist, are not live, and are listed once. -/
structure Stocked (p : Pool α) : Prop where
  capacity_le : p.capacity ≤ 0xffffffff
  nodup : p.free.toList.Nodup
  mem_free : ∀ i ∈ p.free, i.toNat < p.capacity ∧ ¬ p.IsLive i

def All (P : α → Prop) (p : Pool α) : Prop := ∀ a ∈ p.items, P a

theorem Sound.stocked [Inhabited α] (hp : p.Sound) : p.Stocked :=
  ⟨hp.capacity_le, hp.nodup, fun i => (hp.mem_free i).1⟩

theorem Stocked.freeCount_le (hp : p.Stocked) : p.freeCount ≤ p.capacity := by
  have hnodup : (p.free.toList.map UInt32.toNat).Nodup := hp.nodup.map fun _ _ h => UInt32.toNat_inj.1 h
  have hsubset : p.free.toList.map UInt32.toNat ⊆ List.range p.capacity := by
    intro k hk
    obtain ⟨i, hi, rfl⟩ := List.mem_map.1 hk
    exact List.mem_range.2 (hp.mem_free i (Array.mem_toList_iff.1 hi)).1
  have hlength := (List.subperm_of_subset hnodup hsubset).length_le
  rwa [List.length_map, List.length_range, Array.length_toList] at hlength

theorem Stocked.next_lt (hp : p.Stocked) (hi : p.next? = some i) : i.toNat < p.capacity :=
  (hp.mem_free i (Array.mem_of_back? hi)).1

theorem Stocked.fill (hp : p.Stocked) (hi : p.next? = some i) (a : α) : (p.fill i a).Stocked := by
  have hlt := hp.next_lt hi
  have hfree := free_eq_of_next hi
  have hnodup := hp.nodup
  rw [hfree, List.nodup_append] at hnodup
  refine ⟨by rw [capacity_fill]; exact hp.capacity_le, hnodup.1, fun j hj => ?_⟩
  have hrest : j ∈ p.free.pop.toList := Array.mem_toList_iff.2 hj
  have hmem : j ∈ p.free.toList := hfree ▸ List.mem_append_left _ hrest
  obtain ⟨hbound, hdead⟩ := hp.mem_free j (Array.mem_toList_iff.1 hmem)
  rw [capacity_fill, isLive_fill hlt]
  refine ⟨hbound, fun hlive => ?_⟩
  rcases hlive with rfl | hlive
  · exact hnodup.2.2 j hrest j (List.mem_singleton_self j) rfl
  · exact hdead hlive

theorem Stocked.update (hp : p.Stocked) (i : UInt32) (f : α → α) : (p.update i f).Stocked := by
  refine ⟨by rw [capacity_update]; exact hp.capacity_le, hp.nodup, fun j hj => ?_⟩
  rw [capacity_update]
  exact hp.mem_free j hj

theorem Stocked.release [Inhabited α] (hp : p.Stocked) (marks : Array Bool) :
    (p.release (p.garbage marks)).Stocked := by
  have hcap := hp.capacity_le
  refine ⟨by rw [capacity_release]; exact hcap, ?_, fun i hi => ?_⟩
  · show (p.free ++ p.garbage marks).toList.Nodup
    rw [Array.toList_append, List.nodup_append]
    refine ⟨hp.nodup, (garbage_ascending hcap).imp fun hlt => UInt32.ne_of_lt hlt, ?_⟩
    rintro i hi j hj rfl
    have hlive := ((mem_garbage hcap i).1 (Array.mem_toList_iff.1 hj)).1
    exact (hp.mem_free i (Array.mem_toList_iff.1 hi)).2 hlive
  · rw [capacity_release, isLive_release]
    rcases Array.mem_append.1 hi with hfree | hdead
    · obtain ⟨hlt, hnot⟩ := hp.mem_free i hfree
      exact ⟨hlt, fun hlive => hnot hlive.1⟩
    · exact ⟨((mem_garbage hcap i).1 hdead).1.lt, fun hlive => hlive.2 hdead⟩

theorem All.read [Inhabited α] (hp : p.All P) (hdefault : P default) (i : UInt32) : P (p.read i) := by
  unfold Pool.read
  split
  · exact hp _ (Array.getElem_mem _)
  · exact hdefault

theorem All.fill {a : α} (hp : p.All P) (ha : P a) (i : UInt32) : (p.fill i a).All P := by
  intro c hc
  rcases Array.mem_or_eq_of_mem_setIfInBounds hc with hmem | rfl
  · exact hp c hmem
  · exact ha

theorem All.update {f : α → α} (hp : p.All P) (hf : ∀ a, P a → P (f a)) (i : UInt32) : (p.update i f).All P := by
  intro c hc
  obtain ⟨k, hk⟩ := Array.mem_iff_getElem?.1 hc
  change (p.items.modify i.toNat f)[k]? = some c at hk
  rw [Array.getElem?_modify] at hk
  split at hk
  · obtain ⟨a, ha, rfl⟩ := Option.map_eq_some_iff.1 hk
    exact hf a (hp a (Array.mem_of_getElem? ha))
  · exact hp c (Array.mem_of_getElem? hk)

theorem All.release [Inhabited α] (hp : p.All P) (hdefault : P default) (indices : Array UInt32) :
    (p.release indices).All P := by
  intro c hc
  obtain ⟨k, hk⟩ := Array.mem_iff_getElem?.1 hc
  change (setAll default indices p.items)[k]? = some c at hk
  rw [getElem?_setAll] at hk
  split at hk
  · obtain ⟨a, -, rfl⟩ := Option.map_eq_some_iff.1 hk
    exact hdefault
  · exact hp c (Array.mem_of_getElem? hk)

end Pool

/-! ## Bounds -/

structure Bounds where
  cells : Nat
  strings : Nat

/-- The slot that the word refers to, if any, exists. -/
structure Word.Within (b : Bounds) (w : Word) : Prop where
  cell : w.hasCell → w.payload.toNat < b.cells
  text : w.hasText → w.payload.toNat < b.strings

structure Cell.Within (b : Bounds) (c : Cell) : Prop where
  car : c.car.Within b
  cdr : c.cdr.Within b

def Heap.bounds (h : Heap) : Bounds := ⟨h.cells.capacity, h.strings.capacity⟩

structure Heap.Contained (b : Bounds) (h : Heap) : Prop where
  bounds : h.bounds = b
  cells : h.cells.All (Cell.Within b)
  roots : ∀ w ∈ h.roots, w.Within b
  freeCells : h.cells.Stocked
  freeStrings : h.strings.Stocked

structure Memory.Contained (b : Bounds) (mem : Memory) : Prop where
  heap : mem.heap.Contained b
  symbols : ∀ w ∈ mem.symbols.values, w.Within b

structure Machine.Contained (b : Bounds) (m : Machine) : Prop where
  memory : m.toMemory.Contained b
  globalEnv : m.globalEnv.Within b
  core : ∀ w ∈ [Operation.lambdaSymbol, Operation.defineSymbol], w.Within b

class HasBounds (S : Type) where
  Contained : Bounds → S → Prop

instance : HasBounds Heap := ⟨Heap.Contained⟩

instance : HasBounds Memory := ⟨Memory.Contained⟩

instance : HasBounds Machine := ⟨Machine.Contained⟩

open HasBounds (Contained)

section Words

variable {b : Bounds} {w : Word} {i : UInt32}

theorem Word.Within.of_isImmediate (hw : w.isImmediate) : w.Within b := by
  simp only [Word.isImmediate, Bool.and_eq_true, Bool.not_eq_true'] at hw
  exact ⟨fun hc => absurd hc (by simp [hw.1]), fun ht => absurd ht (by simp [hw.2])⟩

theorem Word.Within.nil : Word.nil.Within b := .of_isImmediate (by decide)

theorem Word.Within.of_hasCell (hw : w.hasCell) (hi : w.payload.toNat < b.cells) : w.Within b := by
  refine ⟨fun _ => hi, fun ht => ?_⟩
  rw [Word.not_hasText_of_hasCell hw] at ht
  cases ht

theorem Word.Within.of_hasText (hw : w.hasText) (hi : w.payload.toNat < b.strings) : w.Within b := by
  refine ⟨fun hc => ?_, fun _ => hi⟩
  rw [Word.not_hasCell_of_hasText hw] at hc
  cases hc

theorem Word.within_pair (hi : i.toNat < b.cells) : (Word.pair i).Within b :=
  .of_hasCell (by simp) (by rwa [Word.payload_pair])

theorem Word.within_closure (hi : i.toNat < b.cells) : (Word.closure i).Within b :=
  .of_hasCell (by simp) (by rwa [Word.payload_closure])

theorem Word.within_string (hi : i.toNat < b.strings) : (Word.string i).Within b :=
  .of_hasText (by simp) (by rwa [Word.payload_string])

theorem Word.within_symbol (hi : i.toNat < b.strings) : (Word.symbol i).Within b :=
  .of_hasText (by simp) (by rwa [Word.payload_symbol])

theorem Cell.Within.default : (default : Cell).Within b := ⟨.of_isImmediate (by decide), .of_isImmediate (by decide)⟩

/-- The slot of a live word exists. -/
theorem Heap.LiveWord.within {h : Heap} (hw : h.LiveWord w) : w.Within h.bounds :=
  ⟨fun hc => (hw.cell hc).lt, fun ht => (hw.text ht).lt⟩

theorem Machine.Valid.contained {ρ : Roles} {m : Machine} (hv : m.Valid ρ) : m.Contained m.heap.bounds := by
  have hsound := hv.typed.sound
  refine ⟨⟨⟨rfl, fun c hc => ?_, fun w hw => (hv.roots w hw).within, hsound.cells.stocked, hsound.strings.stocked⟩,
    fun w hw => (hv.memory.symbols w hw).2.within⟩, hv.globalEnv.live.within, fun w hw => ?_⟩
  · obtain ⟨k, hk, rfl⟩ := Array.mem_iff_getElem.1 hc
    have hcap := hsound.cells.capacity_le
    have hindex : (UInt32.ofNat k).toNat = k := Pool.toNat_ofNat (Nat.lt_of_lt_of_le hk hcap)
    have hread : m.heap.cells.read (.ofNat k) = m.heap.cells.items[k] := by
      rw [Pool.read_eq, hindex, Array.getElem?_eq_getElem hk]
      rfl
    rw [← hread]
    by_cases hlive : m.heap.cells.IsLive (.ofNat k)
    · obtain ⟨_, _, -, hcar, hcdr⟩ := hv.typed.cell _ hlive
      exact ⟨hcar.live.within, hcdr.live.within⟩
    · rw [hsound.cells.read_dead _ hlive]
      exact .default
  · exact (hv.memory.symbols w (hv.core w hw)).2.within

end Words

/-! ## Actions -/

section Stays

variable {S ε α β : Type} [HasBounds S] {b : Bounds} {Q Q' : α → Prop} {R : β → Prop}

/-- Started within the bounds, the action stays within them, and its value satisfies `Q`. -/
def Stays (b : Bounds) (x : EStateM ε S α) (Q : α → Prop) : Prop :=
  ∀ s, Contained b s →
    match x s with
    | .ok a s' => Contained b s' ∧ Q a
    | .error _ s' => Contained b s'

theorem Stays.pure {a : α} (ha : Q a) : Stays b (pure a : EStateM ε S α) Q := fun _ hs => ⟨hs, ha⟩

theorem Stays.throw {e : ε} : Stays b (throw e : EStateM ε S α) Q := fun _ hs => hs

theorem Stays.bind {x : EStateM ε S α} {f : α → EStateM ε S β} (hx : Stays b x Q) (hf : ∀ a, Q a → Stays b (f a) R) :
    Stays b (x >>= f) R := by
  intro s hs
  have hxs := hx s hs
  show match EStateM.bind x f s with | .ok a s' => Contained b s' ∧ R a | .error _ s' => Contained b s'
  unfold EStateM.bind
  cases hres : x s with
  | error e s' =>
    rw [hres] at hxs
    exact hxs
  | ok a s' =>
    rw [hres] at hxs
    exact hf a hxs.2 s' hxs.1

theorem Stays.map {x : EStateM ε S α} {f : α → β} (hx : Stays b x Q) (hf : ∀ a, Q a → R (f a)) :
    Stays b (f <$> x) R := by
  intro s hs
  have hxs := hx s hs
  show match EStateM.map f x s with | .ok a s' => Contained b s' ∧ R a | .error _ s' => Contained b s'
  unfold EStateM.map
  cases hres : x s with
  | error e s' =>
    rw [hres] at hxs
    exact hxs
  | ok a s' =>
    rw [hres] at hxs
    exact ⟨hxs.1, hf a hxs.2⟩

theorem Stays.imp {x : EStateM ε S α} (hx : Stays b x Q) (hq : ∀ a, Q a → Q' a) : Stays b x Q' := by
  intro s hs
  have hxs := hx s hs
  cases hres : x s with
  | error e s' =>
    rw [hres] at hxs
    exact hxs
  | ok a s' =>
    rw [hres] at hxs
    exact ⟨hxs.1, hq a hxs.2⟩

theorem Stays.get_bind {f : S → EStateM ε S β} (hf : ∀ s, Contained b s → Stays b (f s) R) :
    Stays b (get >>= f) R := fun s hs => hf s hs s hs

theorem Stays.ite {c : Prop} [Decidable c] {x y : EStateM ε S α} (hx : Stays b x Q) (hy : Stays b y Q) :
    Stays b (if c then x else y) Q := by
  split
  · exact hx
  · exact hy

end Stays

/-! ## Heaps -/

section Heaps

variable {b : Bounds} {h : Heap} {a d w env code tail : Word} {items : List Word}

theorem Heap.Contained.read (hh : h.Contained b) (i : UInt32) : (h.cells.read i).Within b := hh.cells.read .default i

theorem Heap.Contained.capacity_cells (hh : h.Contained b) : h.cells.capacity = b.cells := congrArg (·.cells) hh.bounds

theorem Heap.Contained.capacity_strings (hh : h.Contained b) : h.strings.capacity = b.strings :=
  congrArg (·.strings) hh.bounds

theorem stays_allocCell {c : Cell} (hc : c.Within b) : Stays b (Heap.allocCell c) fun i => i.toNat < b.cells := by
  intro h hh
  rw [Heap.allocCell_apply]
  cases hnext : h.cells.next? with
  | none => exact hh
  | some i =>
    have hbounds : ({ h with cells := h.cells.fill i c } : Heap).bounds = h.bounds := by simp [Heap.bounds]
    refine ⟨⟨hbounds.trans hh.bounds, hh.cells.fill hc i, hh.roots, hh.freeCells.fill hnext c, hh.freeStrings⟩, ?_⟩
    exact hh.capacity_cells ▸ hh.freeCells.next_lt hnext

theorem stays_cons (ha : a.Within b) (hd : d.Within b) : Stays b (Heap.cons a d) (Word.Within b) :=
  (stays_allocCell ⟨ha, hd⟩).map fun _ hi => Word.within_pair hi

theorem stays_makeClosure (henv : env.Within b) (hcode : code.Within b) :
    Stays b (Heap.makeClosure env code) (Word.Within b) :=
  (stays_allocCell ⟨henv, hcode⟩).map fun _ hi => Word.within_closure hi

theorem stays_makeString (bytes : ByteArray) :
    Stays b (Heap.makeString bytes) fun w => w.Within b ∧ w.payload.toNat < b.strings := by
  intro h hh
  rw [Heap.makeString_apply]
  cases hnext : h.strings.next? with
  | none => exact hh
  | some i =>
    have hbounds : ({ h with strings := h.strings.fill i bytes } : Heap).bounds = h.bounds := by simp [Heap.bounds]
    have hi : i.toNat < b.strings := hh.capacity_strings ▸ hh.freeStrings.next_lt hnext
    refine ⟨⟨hbounds.trans hh.bounds, hh.cells, hh.roots, hh.freeCells, hh.freeStrings.fill hnext bytes⟩, ?_⟩
    exact ⟨Word.within_string hi, by rwa [Word.payload_string]⟩

theorem stays_updatePair {operation : String} {f : Cell → Cell} (hf : ∀ c, Cell.Within b c → (f c).Within b) :
    Stays b (Heap.updatePair w operation f) fun _ => True := by
  intro h hh
  by_cases hp : w.isPair
  · rw [Heap.updatePair_of_isPair hp]
    have hbounds : ({ h with cells := h.cells.update w.payload f } : Heap).bounds = h.bounds := by simp [Heap.bounds]
    refine ⟨⟨hbounds.trans hh.bounds, hh.cells.update hf _, hh.roots, hh.freeCells.update _ f, hh.freeStrings⟩, trivial⟩
  · rw [Heap.updatePair_of_not_isPair hp]
    exact hh

theorem stays_setCar (ha : a.Within b) : Stays b (Heap.setCar w a) fun _ => True :=
  stays_updatePair fun _ hc => ⟨ha, hc.cdr⟩

theorem stays_setCdr (hd : d.Within b) : Stays b (Heap.setCdr w d) fun _ => True :=
  stays_updatePair fun _ hc => ⟨hc.car, hd⟩

theorem stays_consAll (hitems : ∀ w ∈ items, w.Within b) (htail : tail.Within b) :
    Stays b (Heap.consAll items tail) (Word.Within b) := by
  induction items generalizing tail with
  | nil => exact .pure htail
  | cons item items ih =>
    obtain ⟨hitem, hrest⟩ := List.forall_mem_cons.1 hitems
    exact (stays_cons hitem htail).bind fun _ hpair => ih hrest hpair

theorem stays_listOf (hitems : ∀ w ∈ items, w.Within b) : Stays b (Heap.listOf items) (Word.Within b) :=
  stays_consAll (fun w hw => hitems w (List.mem_reverse.1 hw)) .nil

/-- The items of a list are within the bounds, and so is its end. -/
theorem Heap.Contained.lists (hh : h.Contained b) (hl : h.Lists w items tail) (hw : w.Within b) :
    (∀ v ∈ items, v.Within b) ∧ tail.Within b := by
  induction hl with
  | nil => exact ⟨by simp, hw⟩
  | cons _ _ ih =>
    obtain ⟨hrest, htail⟩ := ih (hh.read _).cdr
    exact ⟨List.forall_mem_cons.2 ⟨(hh.read _).car, hrest⟩, htail⟩

theorem Heap.Contained.listItems (hh : h.Contained b) {operation : String} {found : Array Word}
    (hl : h.listItems w operation = .ok found) (hw : w.Within b) : ∀ v ∈ found.toList, v.Within b := by
  obtain ⟨tail, hlists⟩ := Heap.listItems_lists hl
  exact (hh.lists hlists hw).1

theorem Heap.Contained.closureParts (hh : h.Contained b) {parts : Heap.ClosureParts}
    (hc : h.closureParts w = .ok parts) : parts.env.Within b ∧ parts.params.Within b ∧ parts.body.Within b := by
  obtain ⟨-, -, rfl⟩ := Heap.closureParts_eq_ok hc
  exact ⟨(hh.read _).car, (hh.read _).car, (hh.read _).cdr⟩

theorem Heap.Contained.car (hh : h.Contained b) {v : Word} (hv : h.car w = .ok v) : v.Within b := by
  unfold Heap.car Heap.pairCell at hv
  split at hv
  · cases hv
    exact (hh.read _).car
  · cases hv

theorem Heap.Contained.cdr (hh : h.Contained b) {v : Word} (hv : h.cdr w = .ok v) : v.Within b := by
  unfold Heap.cdr Heap.pairCell at hv
  split at hv
  · cases hv
    exact (hh.read _).cdr
  · cases hv

theorem Heap.Contained.collect (hh : h.Contained b) (extra : List Word) : (h.collect extra).2.Contained b := by
  refine ⟨?_, hh.cells.release .default _, hh.roots, hh.freeCells.release _, hh.freeStrings.release _⟩
  have hbounds : (h.collect extra).2.bounds = h.bounds := by simp [Heap.bounds, Heap.collect]
  exact hbounds.trans hh.bounds

end Heaps

/-! ## Binding forms -/

section Sugar

variable {b : Bounds} {h : Heap} {params body name : Word} {clauses : List Clause}

structure Clause.Within (b : Bounds) (c : Clause) : Prop where
  name : c.name.Within b
  expr : c.expr.Within b

theorem Clause.names_within (hc : ∀ c ∈ clauses, c.Within b) : ∀ w ∈ clauses.map (·.name), w.Within b :=
  List.forall_mem_map.2 fun c hmem => (hc c hmem).name

theorem Clause.exprs_within (hc : ∀ c ∈ clauses, c.Within b) : ∀ w ∈ clauses.map (·.expr), w.Within b :=
  List.forall_mem_map.2 fun c hmem => (hc c hmem).expr

theorem stays_lambdaExpr (hl : Operation.lambdaSymbol.Within b) (hp : params.Within b) (hb : body.Within b) :
    Stays b (lambdaExpr params body) (Word.Within b) :=
  (stays_cons hp hb).bind fun _ hcode => stays_cons hl hcode

theorem stays_letExpr (hl : Operation.lambdaSymbol.Within b) (hc : ∀ c ∈ clauses, c.Within b) (hb : body.Within b) :
    Stays b (letExpr clauses body) (Word.Within b) := by
  refine (stays_listOf (Clause.names_within hc)).bind fun params hp => ?_
  refine (stays_lambdaExpr hl hp hb).bind fun lambda hlambda => ?_
  exact (stays_listOf (Clause.exprs_within hc)).bind fun values hvalues => stays_cons hlambda hvalues

theorem stays_namedLetExpr (hl : Operation.lambdaSymbol.Within b) (hd : Operation.defineSymbol.Within b)
    (hn : name.Within b) (hc : ∀ c ∈ clauses, c.Within b) (hb : body.Within b) :
    Stays b (namedLetExpr name clauses body) (Word.Within b) := by
  refine (stays_listOf (Clause.names_within hc)).bind fun params hp => ?_
  refine (stays_lambdaExpr hl hp hb).bind fun procedure hprocedure => ?_
  refine (stays_listOf (by simp [hd, hn, hprocedure])).bind fun definition hdefinition => ?_
  refine (stays_listOf (Clause.exprs_within hc)).bind fun values hvalues => ?_
  refine (stays_cons hn hvalues).bind fun call hcall => ?_
  refine (stays_listOf (by simp [hdefinition, hcall])).bind fun outerBody houter => ?_
  exact (stays_lambdaExpr hl .nil houter).bind fun outer hlambda => stays_cons hlambda .nil

theorem stays_nestClauses (hl : Operation.lambdaSymbol.Within b) (hc : ∀ c ∈ clauses, c.Within b) (hb : body.Within b) :
    Stays b (nestClauses clauses body) (Word.Within b) := by
  induction clauses generalizing body with
  | nil => exact .pure hb
  | cons c clauses ih =>
    obtain ⟨hfirst, hrest⟩ := List.forall_mem_cons.1 hc
    refine (stays_cons hfirst.name .nil).bind fun params hp => ?_
    refine (stays_lambdaExpr hl hp hb).bind fun lambda hlambda => ?_
    refine (stays_listOf (by simp [hlambda, hfirst.expr])).bind fun application happlication => ?_
    exact (stays_cons happlication .nil).bind fun body' hbody => ih hrest hbody

theorem stays_letStarExpr (hl : Operation.lambdaSymbol.Within b) (hc : ∀ c ∈ clauses, c.Within b)
    (hb : body.Within b) : Stays b (letStarExpr clauses body) (Word.Within b) := by
  refine .ite ((stays_lambdaExpr hl .nil hb).bind fun lambda hlambda => stays_cons hlambda .nil) ?_
  refine (stays_nestClauses hl (fun c hmem => hc c (List.mem_reverse.1 hmem)) hb).bind fun nested hnested => ?_
  refine .get_bind fun h hh => ?_
  cases hcar : h.car nested with
  | error e => exact .throw
  | ok expr => exact .pure (Heap.Contained.car hh hcar)

/-- What a binding consists of is within the bounds. -/
theorem Heap.Contained.clauseOf (hh : h.Contained b) {form : Form} {w : Word} {c : Clause} (hw : w.Within b)
    (hc : BoxedScheme.clauseOf h form w = .ok c) : c.Within b := by
  unfold BoxedScheme.clauseOf at hc
  dsimp only at hc
  split at hc
  next name expr hparts =>
    split at hc
    · cases hc
      cases hitems : h.listItems w form.name with
      | error e =>
        rw [hitems] at hparts
        cases hparts
      | ok items =>
        rw [hitems] at hparts
        have hitem := hh.listItems hitems hw
        rw [show items.toList = [name, expr] from hparts] at hitem
        exact ⟨hitem name (by simp), hitem expr (by simp)⟩
    · cases hc
  next => cases hc

theorem Heap.Contained.clausesOf (hh : h.Contained b) {form : Form} {items : List Word}
    (hitems : ∀ w ∈ items, w.Within b) (hc : items.mapM (BoxedScheme.clauseOf h form) = .ok clauses) :
    ∀ c ∈ clauses, c.Within b := by
  induction items generalizing clauses with
  | nil =>
    cases hc
    simp
  | cons w items ih =>
    rw [List.mapM_cons] at hc
    obtain ⟨hfirst, hrest⟩ := List.forall_mem_cons.1 hitems
    cases hclause : BoxedScheme.clauseOf h form w with
    | error e =>
      rw [hclause] at hc
      cases hc
    | ok c =>
      rw [hclause] at hc
      cases hothers : items.mapM (BoxedScheme.clauseOf h form) with
      | error e =>
        rw [hothers] at hc
        cases hc
      | ok others =>
        rw [hothers] at hc
        cases hc
        exact List.forall_mem_cons.2 ⟨hh.clauseOf hfirst hclause, ih hrest hothers⟩

theorem Heap.Contained.letClauses (hh : h.Contained b) {form : Form} {bindings : Word} (hw : bindings.Within b)
    (hc : BoxedScheme.letClauses h form bindings = .ok clauses) : ∀ c ∈ clauses, c.Within b := by
  unfold BoxedScheme.letClauses at hc
  cases hitems : h.listItems bindings form.name with
  | error e =>
    rw [hitems] at hc
    cases hc
  | ok items =>
    rw [hitems] at hc
    exact hh.clausesOf (hh.listItems hitems hw) hc

end Sugar

/-! ## Memory and readers -/

section Reading

variable {b : Bounds} {α : Type} {Q : α → Prop}

theorem stays_memoryOnHeap {op : HeapM α} (hop : Stays b op Q) : Stays b (Memory.onHeap op) Q := by
  intro ⟨h, t⟩ hmem
  have hres := hop h hmem.heap
  unfold Memory.onHeap
  dsimp only
  cases hop : op h with
  | error e h' =>
    rw [hop] at hres
    exact ⟨hres, hmem.symbols⟩
  | ok a h' =>
    rw [hop] at hres
    exact ⟨⟨hres.1, hmem.symbols⟩, hres.2⟩

theorem Memory.Contained.insert {mem : Memory} {name : ByteArray} {w : Word} (hmem : mem.Contained b)
    (hw : w.Within b) : ({ mem with symbols := mem.symbols.insert name w } : Memory).Contained b :=
  ⟨hmem.heap, List.forall_mem_cons.2 ⟨hw, hmem.symbols⟩⟩

theorem Memory.Contained.symbol {mem : Memory} {name : ByteArray} {w : Word} (hmem : mem.Contained b)
    (hget : mem.symbols.get? name = some w) : w.Within b :=
  hmem.symbols w (SymbolTable.mem_values hget)

theorem stays_intern (name : ByteArray) : Stays b (Memory.intern name) (Word.Within b) := by
  intro mem hmem
  unfold Memory.intern
  cases hget : mem.symbols.get? name with
  | some symbol => exact ⟨hmem, hmem.symbol hget⟩
  | none =>
    have hres := stays_memoryOnHeap (stays_makeString name) mem hmem
    cases hmake : Memory.onHeap (Heap.makeString name) mem with
    | error e mem' =>
      rw [hmake] at hres
      simpa only [hmake] using hres
    | ok string mem' =>
      rw [hmake] at hres
      obtain ⟨hmem', -, hlt⟩ := hres
      exact ⟨hmem'.insert (Word.within_symbol hlt), Word.within_symbol hlt⟩

theorem stays_internValue {value : Word} (hw : value.Within b) :
    Stays b (Memory.internValue value) (Word.Within b) := by
  intro mem hmem
  unfold Memory.internValue
  cases hbytes : mem.heap.stringBytes value with
  | error e => exact hmem
  | ok name =>
    simp only
    cases hget : mem.symbols.get? name with
    | some symbol => exact ⟨hmem, hmem.symbol hget⟩
    | none =>
      -- Only strings and symbols have bytes, so the value has a string slot.
      have htext : value.hasText := by
        unfold Heap.stringBytes at hbytes
        split at hbytes
        next htext => simpa [Word.hasText, Bool.or_comm] using htext
        next => cases hbytes
      have hsymbol := Word.within_symbol (hw.text htext)
      exact ⟨hmem.insert hsymbol, hsymbol⟩

def Reader.Frame.Within (b : Bounds) : Reader.Frame → Prop
  | .quote _ => True
  | .list _ items | .dotted _ items _ => ∀ w ∈ items, w.Within b
  | .closing _ items tail => (∀ w ∈ items, w.Within b) ∧ tail.Within b

def Reader.Progress.Within (b : Bounds) : Reader.Progress → Prop
  | .more frames => ∀ f ∈ frames, f.Within b
  | .done datum => datum.Within b
  | .failed _ => True

variable {frames : List Reader.Frame} {datum : Word}

theorem stays_complete (hf : ∀ f ∈ frames, f.Within b) (start : Location) (hd : datum.Within b) :
    Stays b (Reader.complete frames start datum) (Reader.Progress.Within b) := by
  induction frames generalizing start datum with
  | nil => exact .pure hd
  | cons frame frames ih =>
    obtain ⟨hframe, hrest⟩ := List.forall_mem_cons.1 hf
    cases frame with
    | quote start =>
      refine (stays_intern _).bind fun quote hquote => ?_
      refine (stays_memoryOnHeap (stays_cons hd .nil)).bind fun tail htail => ?_
      exact (stays_memoryOnHeap (stays_cons hquote htail)).bind fun list hlist => ih hrest start hlist
    | list start items => exact .pure (List.forall_mem_cons.2 ⟨List.forall_mem_cons.2 ⟨hd, hframe⟩, hrest⟩)
    | dotted start items dot => exact .pure (List.forall_mem_cons.2 ⟨⟨hframe, hd⟩, hrest⟩)
    | closing start items tail => exact .pure trivial

theorem stays_close (loc : Location) (hf : ∀ f ∈ frames, f.Within b) :
    Stays b (Reader.close loc frames) (Reader.Progress.Within b) := by
  cases frames with
  | nil => exact .pure trivial
  | cons frame frames =>
    obtain ⟨hframe, hrest⟩ := List.forall_mem_cons.1 hf
    cases frame with
    | quote | dotted => exact .pure trivial
    | list start items =>
      exact (stays_memoryOnHeap (stays_consAll hframe .nil)).bind fun list hlist => stays_complete hrest start hlist
    | closing start items tail =>
      refine (stays_memoryOnHeap (stays_consAll hframe.1 hframe.2)).bind fun list hlist => ?_
      exact stays_complete hrest start hlist

theorem Reader.within_shiftDot (loc : Location) (hf : ∀ f ∈ frames, f.Within b) :
    (Reader.shiftDot loc frames).Within b := by
  unfold Reader.shiftDot
  split
  next => trivial
  next => trivial
  next => trivial
  next =>
    obtain ⟨hitems, hrest⟩ := List.forall_mem_cons.1 hf
    exact List.forall_mem_cons.2 ⟨hitems, hrest⟩
  next => trivial
  next => trivial

theorem Reader.within_finish (loc : Location) (frames : List Reader.Frame) : (Reader.finish loc frames).Within b := by
  unfold Reader.finish
  split
  next => exact .of_isImmediate (by decide)
  all_goals trivial

theorem stays_shift (hf : ∀ f ∈ frames, f.Within b) (lexeme : Lexeme) :
    Stays b (Reader.shift frames lexeme) (Reader.Progress.Within b) := by
  unfold Reader.shift
  refine .ite (.pure trivial) ?_
  cases lexeme.token with
  | endOfFile => exact .pure (Reader.within_finish _ _)
  | rightParen => exact stays_close _ hf
  | dot => exact .pure (Reader.within_shiftDot _ hf)
  | leftParen => exact .pure (List.forall_mem_cons.2 ⟨by simp [Reader.Frame.Within], hf⟩)
  | quote => exact .pure (List.forall_mem_cons.2 ⟨trivial, hf⟩)
  | boolean v => exact stays_complete hf _ (.of_isImmediate (Word.isImmediate_boolean v))
  | number x => exact stays_complete hf _ (.of_isImmediate (Word.isImmediate_number x))
  | char c => exact stays_complete hf _ (.of_isImmediate (Word.isImmediate_char c))
  | string text =>
    exact (stays_memoryOnHeap (stays_makeString _)).bind fun string hstring => stays_complete hf _ hstring.1
  | symbol name => exact (stays_intern _).bind fun symbol hsymbol => stays_complete hf _ hsymbol

theorem contained_readTokens (hf : ∀ f ∈ frames, f.Within b) (lexemes : List Lexeme) {mem : Memory}
    (hmem : mem.Contained b) :
    (Reader.readTokens frames lexemes mem).2.Contained b ∧
      ∀ datum, (Reader.readTokens frames lexemes mem).1.1 = .ok datum → datum.Within b := by
  induction lexemes generalizing frames mem with
  | nil =>
    refine ⟨hmem, fun datum hd => ?_⟩
    cases hd
    exact .of_isImmediate (by decide)
  | cons lexeme rest ih =>
    have hshift := stays_shift hf lexeme mem hmem
    unfold Reader.readTokens
    cases hres : Reader.shift frames lexeme mem with
    | error fault mem' =>
      rw [hres] at hshift
      exact ⟨hshift, fun datum hd => by cases hd⟩
    | ok progress mem' =>
      rw [hres] at hshift
      cases progress with
      | more frames' => exact ih hshift.2 hshift.1
      | failed e => exact ⟨hshift.1, fun datum hd => by cases hd⟩
      | done datum =>
        refine ⟨hshift.1, fun datum' hd => ?_⟩
        cases hd
        exact hshift.2

end Reading

/-! ## Actions on the machine -/

section Actions

variable {b : Bounds} {α : Type} {Q : α → Prop} {w v env symbol value params args body : Word}

theorem stays_raise (e : Error) : Stays b (Eval.raise e : Eval α) Q := .throw

theorem stays_ofExcept {x : Except Error α} (hx : ∀ a, x = .ok a → Q a) : Stays b (Eval.ofExcept x) Q := by
  intro m hm
  cases x with
  | error e => exact hm
  | ok a => exact ⟨hm, hx a rfl⟩

theorem stays_inspect {f : Heap → Except Fault α} (hf : ∀ h, Heap.Contained b h → ∀ a, f h = .ok a → Q a) :
    Stays b (Eval.inspect f) Q := by
  intro m hm
  unfold Eval.inspect
  cases hres : f m.heap with
  | error e => exact hm
  | ok a => exact ⟨hm, hf m.heap hm.memory.heap a hres⟩

theorem stays_onMemory {op : MemoryM α} (hop : Stays b op Q) : Stays b (Eval.onMemory op) Q := by
  intro m hm
  have hres := hop m.toMemory hm.memory
  unfold Eval.onMemory
  cases hop : op m.toMemory with
  | error e mem' =>
    rw [hop] at hres
    exact ⟨hres, hm.globalEnv, hm.core⟩
  | ok a mem' =>
    rw [hop] at hres
    exact ⟨⟨hres.1, hm.globalEnv, hm.core⟩, hres.2⟩

theorem stays_onHeap {op : HeapM α} (hop : Stays b op Q) : Stays b (Eval.onHeap op) Q := by
  intro m hm
  have hres := hop m.heap hm.memory.heap
  unfold Eval.onHeap
  cases hop : op m.heap with
  | error e h' =>
    rw [hop] at hres
    exact ⟨⟨hres, hm.memory.symbols⟩, hm.globalEnv, hm.core⟩
  | ok a h' =>
    rw [hop] at hres
    exact ⟨⟨⟨hres.1, hm.memory.symbols⟩, hm.globalEnv, hm.core⟩, hres.2⟩

theorem stays_car (w : Word) : Stays b (Eval.car w) (Word.Within b) := stays_inspect fun _ hh _ hv => hh.car hv

theorem stays_cdr (w : Word) : Stays b (Eval.cdr w) (Word.Within b) := stays_inspect fun _ hh _ hv => hh.cdr hv

theorem stays_evalCons (hv : v.Within b) (hw : w.Within b) : Stays b (Eval.cons v w) (Word.Within b) :=
  stays_onHeap (stays_cons hv hw)

theorem stays_print (piece : String) : Stays b (Eval.print piece) fun _ => True :=
  fun _ hm => ⟨⟨hm.memory, hm.globalEnv, hm.core⟩, trivial⟩

theorem stays_readDatum (r : Reader) : Stays b (Eval.readDatum r) fun found => found.1.Within b := by
  intro m hm
  obtain ⟨hmem, hdatum⟩ := contained_readTokens (List.forall_mem_nil (Reader.Frame.Within b)) r.pending hm.memory
  unfold Eval.readDatum Reader.read
  revert hmem hdatum
  rcases Reader.readTokens [] r.pending m.toMemory with ⟨⟨outcome, pending⟩, mem⟩
  intro hmem hdatum
  cases outcome with
  | error e => exact ⟨hmem, hm.globalEnv, hm.core⟩
  | ok datum => exact ⟨⟨hmem, hm.globalEnv, hm.core⟩, hdatum datum rfl⟩

/-! ## Environments -/

/-- A value found in a frame stands in some cell. -/
theorem exists_cell_of_lookupFrame {h : Heap} {limit : Nat} {bindings : Word}
    (hv : lookupFrame h symbol limit bindings = .ok (some v)) : ∃ i, v = (h.cells.read i).cdr := by
  induction limit using Nat.strongRecOn generalizing bindings with
  | ind limit ih =>
    unfold lookupFrame at hv
    by_cases hp : bindings.isPair
    · rw [if_pos hp] at hv
      by_cases hpc : (h.cells.read bindings.payload).car.isPair
      · simp only [Heap.pairCell_of_isPair hpc] at hv
        split at hv
        · cases hv
          exact ⟨_, rfl⟩
        · cases limit with
          | zero => cases hv
          | succ limit => exact ih limit (Nat.lt_succ_self limit) hv
      · simp only [Heap.pairCell_of_not_isPair hpc] at hv
        cases hv
    · rw [if_neg hp] at hv
      cases hv

theorem exists_cell_of_lookupFrames {h : Heap} {limit : Nat} {frames : Word}
    (hv : lookupFrames h symbol limit frames = .ok (some v)) : ∃ i, v = (h.cells.read i).cdr := by
  induction limit using Nat.strongRecOn generalizing frames with
  | ind limit ih =>
    unfold lookupFrames at hv
    by_cases hp : frames.isPair
    · rw [if_pos hp] at hv
      cases hframe : lookupFrame h symbol h.cells.capacity (h.cells.read frames.payload).car with
      | error e =>
        simp only [hframe] at hv
        cases hv
      | ok found =>
        simp only [hframe] at hv
        cases found with
        | some v =>
          cases hv
          exact exists_cell_of_lookupFrame hframe
        | none =>
          cases limit with
          | zero => cases hv
          | succ limit => exact ih limit (Nat.lt_succ_self limit) hv
    · rw [if_neg hp] at hv
      cases hv

theorem stays_lookup (env symbol : Word) : Stays b (lookup env symbol) (Word.Within b) := by
  intro m hm
  unfold lookup Heap.lookup
  cases hframes : lookupFrames m.heap symbol m.heap.cells.capacity env with
  | error e => exact hm
  | ok found =>
    cases found with
    | some value =>
      obtain ⟨i, rfl⟩ := exists_cell_of_lookupFrames hframes
      exact ⟨hm, (hm.memory.heap.read i).cdr⟩
    | none =>
      cases Operation.procedureOf? symbol with
      | none => exact hm
      | some entry => exact ⟨hm, .of_isImmediate (Word.isImmediate_procedure _)⟩

theorem stays_define (env : Word) (hs : symbol.Within b) (hv : value.Within b) :
    Stays b (define env symbol value) fun _ => True := by
  refine (stays_evalCons hs hv).bind fun binding hbinding => (stays_car env).bind fun frame hframe => ?_
  exact (stays_evalCons hbinding hframe).bind fun frame' hframe' => stays_onHeap (stays_setCar hframe')

theorem stays_bindTo {frame : Word} (hs : symbol.Within b) (hv : value.Within b) (hf : frame.Within b) :
    Stays b (bindTo symbol value frame) (Word.Within b) :=
  (stays_evalCons hs hv).bind fun _ hbinding => stays_evalCons hbinding hf

structure Bound.Within (b : Bounds) (bound : Bound) : Prop where
  params : bound.params.Within b
  args : bound.args.Within b
  frame : bound.frame.Within b

theorem stays_bindWith {again : Word → Word → Word → Eval Bound}
    (hagain : ∀ params args frame, Bound.Within b ⟨params, args, frame⟩ →
      Stays b (again params args frame) (Bound.Within b)) {params args frame : Word}
    (hb : Bound.Within b ⟨params, args, frame⟩) : Stays b (bindWith again params args frame) (Bound.Within b) := by
  refine .ite ?_ (.pure hb)
  refine (stays_car params).bind fun param hparam => (stays_car args).bind fun arg harg => ?_
  refine (stays_bindTo hparam harg hb.frame).bind fun frame' hframe => ?_
  refine (stays_cdr params).bind fun params' hparams => (stays_cdr args).bind fun args' hargs => ?_
  exact hagain params' args' frame' ⟨hparams, hargs, hframe⟩

theorem stays_bindInStep (limit : Nat) {params args frame : Word} (hb : Bound.Within b ⟨params, args, frame⟩) :
    Stays b (bindInStep limit params args frame) (Bound.Within b) := by
  induction limit generalizing params args frame with
  | zero => exact stays_bindWith (fun _ _ _ _ => .throw) hb
  | succ limit ih => exact stays_bindWith (fun _ _ _ => ih) hb

theorem stays_mismatch (params args : Word) {Q : Word → Prop} : Stays b (mismatch params args) Q := by
  have hlook {α : Type} {f : Heap → Except Fault α} : Stays b (Eval.inspect f) fun _ => True :=
    stays_inspect fun _ _ _ _ => trivial
  exact hlook.bind fun _ _ => hlook.bind fun _ _ => hlook.bind fun _ _ => stays_raise _

theorem stays_extend (henv : env.Within b) (hp : params.Within b) (ha : args.Within b) :
    Stays b (extend env params args) (Word.Within b) := by
  refine .get_bind fun m _ => (stays_bindInStep _ ⟨hp, ha, .nil⟩).bind fun bound hb => .ite ?_ (.ite ?_ ?_)
  · exact (stays_bindTo hb.params hb.args hb.frame).bind fun frame hframe => stays_evalCons hframe henv
  · exact stays_evalCons hb.frame henv
  · exact stays_mismatch params args

/-! ## Forms -/

theorem stays_makeLambda (hp : params.Within b) (hb : body.Within b) (henv : env.Within b) :
    Stays b (makeLambda params body env) (Word.Within b) := by
  refine .get_bind fun m _ => ?_
  split
  · exact .throw
  · refine .ite (stays_raise _) ?_
    refine (stays_inspect fun _ _ _ _ => trivial : Stays b _ fun _ => True).bind fun _ _ => .ite (stays_raise _) ?_
    exact (stays_evalCons hp hb).bind fun code hcode => stays_onHeap (stays_makeClosure henv hcode)

theorem stays_defineProcedure (target operands : Word) (henv : env.Within b) :
    Stays b (defineProcedure target operands env) fun _ => True := by
  refine (stays_car target).bind fun name hname => .ite (stays_raise _) ?_
  refine (stays_cdr target).bind fun formals hformals => (stays_cdr operands).bind fun body hbody => ?_
  exact (stays_makeLambda hformals hbody henv).bind fun closure hclosure => stays_define env hname hclosure

theorem stays_clausesOf {form : Form} {bindings : Word} (hw : bindings.Within b) :
    Stays b (clausesOf form bindings) fun clauses => ∀ c ∈ clauses, c.Within b :=
  .get_bind fun _ hm => stays_ofExcept fun _ hc => hm.memory.heap.letClauses hw hc

def Step.Within (b : Bounds) : Step → Prop
  | .done value => value.Within b
  | .tail expr env => expr.Within b ∧ env.Within b

variable {operands : Word} {operandList : List Word}

theorem stays_evalLambda (hl : ∀ w ∈ operandList, w.Within b) (henv : env.Within b) :
    Stays b (evalLambda operandList operands env) (Step.Within b) := by
  match operandList with
  | [] | [_] => exact stays_raise _
  | params :: _ :: _ =>
    refine (stays_cdr operands).bind fun body hbody => ?_
    exact (stays_makeLambda (hl params (by simp)) hbody henv).bind fun closure hclosure => .pure hclosure

theorem stays_evalBind (hcore : ∀ w ∈ [Operation.lambdaSymbol, Operation.defineSymbol], w.Within b)
    (hl : ∀ w ∈ operandList, w.Within b) (henv : env.Within b) :
    Stays b (evalBind operandList operands env) (Step.Within b) := by
  have hlambda := hcore Operation.lambdaSymbol (by simp)
  have hdefine := hcore Operation.defineSymbol (by simp)
  match operandList with
  | [] | [_] => exact stays_raise _
  | first :: second :: more =>
    have hfirst := hl first (by simp)
    have hsecond := hl second (by simp)
    refine .ite (.ite (stays_raise _) ?_) ?_
    · refine (stays_clausesOf hsecond).bind fun clauses hclauses => ?_
      refine (stays_cdr operands).bind fun rest _ => (stays_cdr rest).bind fun body hbody => ?_
      exact (stays_onHeap (stays_namedLetExpr hlambda hdefine hfirst hclauses hbody)).bind fun expr hexpr =>
        .pure ⟨hexpr, henv⟩
    · refine (stays_clausesOf hfirst).bind fun clauses hclauses => (stays_cdr operands).bind fun body hbody => ?_
      exact (stays_onHeap (stays_letExpr hlambda hclauses hbody)).bind fun expr hexpr => .pure ⟨hexpr, henv⟩

theorem stays_evalBindInOrder (hcore : ∀ w ∈ [Operation.lambdaSymbol, Operation.defineSymbol], w.Within b)
    (hl : ∀ w ∈ operandList, w.Within b) (henv : env.Within b) :
    Stays b (evalBindInOrder operandList operands env) (Step.Within b) := by
  match operandList with
  | [] | [_] => exact stays_raise _
  | bindings :: _ :: _ =>
    refine (stays_clausesOf (hl bindings (by simp))).bind fun clauses hclauses => ?_
    refine (stays_cdr operands).bind fun body hbody => ?_
    exact (stays_onHeap (stays_letStarExpr (hcore _ (by simp)) hclauses hbody)).bind fun expr hexpr =>
      .pure ⟨hexpr, henv⟩

/-! ## Procedures -/

theorem stays_found {x : Except Error Word} (hx : Immediate x) : Stays b (Eval.ofExcept x) (Word.Within b) :=
  stays_ofExcept fun v hv => .of_isImmediate (hx v hv)

theorem stays_newBytes (bytes : ByteArray) : Stays b (Eval.onHeap (Heap.makeString bytes)) (Word.Within b) :=
  (stays_onHeap (stays_makeString bytes)).imp fun _ hw => hw.1

theorem Word.Within.getD {args : Array Word} (hargs : ∀ w ∈ args.toList, w.Within b) (i : Nat) :
    (args.getD i .unspecified).Within b := by
  by_cases hi : i < args.size
  · rw [Array.getD, dif_pos hi]
    exact hargs _ (Array.getElem_mem_toList hi)
  · rw [Array.getD, dif_neg hi]
    exact .of_isImmediate (by decide)

theorem stays_call (p : Primitive) (name : String) {args : Array Word} (hargs : ∀ w ∈ args.toList, w.Within b) :
    Stays b (p.call name args) (Word.Within b) := by
  have hget (i : Nat) : (args.getD i .unspecified).Within b := .getD hargs i
  have hdone : Stays b (pure Word.unspecified : Eval Word) (Word.Within b) := .pure (.of_isImmediate (by decide))
  cases p with
  | car => exact stays_car _
  | cdr => exact stays_cdr _
  | cons => exact stays_evalCons (hget 0) (hget 1)
  | setCar => exact (stays_onHeap (stays_setCar (hget 1))).bind fun _ _ => hdone
  | setCdr => exact (stays_onHeap (stays_setCdr (hget 1))).bind fun _ _ => hdone
  | list => exact stays_onHeap (stays_listOf hargs)
  | length => exact .get_bind fun _ _ => stays_found (immediate_lengthOf _ _ _)
  | newline => exact (stays_print _).bind fun _ _ => hdone
  | display | write => exact .get_bind fun _ _ => (stays_print _).bind fun _ _ => hdone
  | numberToString =>
    exact (stays_ofExcept fun _ _ => trivial : Stays b _ fun _ => True).bind fun _ _ => stays_newBytes _
  | stringLength => exact .get_bind fun _ _ => stays_found (.bind fun _ => .pure (Word.isImmediate_number _))
  | stringRef => exact .get_bind fun _ _ => stays_found (immediate_charAt _ _ _ _)
  | stringToNumber => exact .get_bind fun _ _ => stays_found (immediate_toNumber _ _ _ _)
  | stringEq =>
    exact .get_bind fun _ _ => stays_found (.bind fun _ => .bind fun _ => .pure (Word.isImmediate_boolean _))
  | substring =>
    refine .get_bind fun _ _ => ?_
    exact (stays_ofExcept fun _ _ => trivial : Stays b _ fun _ => True).bind fun _ _ => stays_newBytes _
  | symbolToString =>
    dsimp only [Primitive.call, Primitive.callWith]
    cases (args.getD 0 .unspecified).symbolString? with
    | some string =>
      exact (stays_inspect fun _ _ _ _ => trivial : Stays b _ fun _ => True).bind fun _ _ => stays_newBytes _
    | none => exact stays_raise _
  | stringToSymbol =>
    refine .get_bind fun _ _ => (stays_ofExcept fun _ _ => trivial : Stays b _ fun _ => True).bind fun _ _ => ?_
    exact stays_onMemory (stays_internValue (hget 0))
  | apply | load => exact stays_raise _
  | isProcedure | isNull | isBoolean | isEof | isSymbol | isString | isPair | isChar | isNumber | not | isEq | isEqv =>
    exact .pure (.of_isImmediate (Word.isImmediate_boolean _))
  | add | mul | sub | div | quotient | modulo | max | min => exact stays_found (.map Word.isImmediate_number)
  | isZero | compareNumbers | compareChars => exact stays_found (.map Word.isImmediate_boolean)

end Actions

end BoxedScheme
