import BoxedScheme.Proofs.Roles
import BoxedScheme.Session

/-!
# Actions keep the roles of cells

Every action of the evaluator that does not evaluate leaves the live cells with their roles, adds cells with roles,
and changes nothing but data and environments.

* `Does ρ s r Q` : the outcome `r` of an action on a valid state `s` leaves a valid one, and its value satisfies `Q`;
* `Does.bind` : one action after another;
* `does_lookup`, `does_define`, `does_extend`, `does_makeLambda` : environments and closures;
* `does_letExpr`, `does_namedLetExpr`, `does_letStarExpr` : binding forms as applications;
* `does_evalLambda`, `does_evalBind`, `does_evalBindInOrder` : special forms that evaluate nothing;
* `does_call` : procedures take data to data.
-/

namespace BoxedScheme

/-! ## Valid states -/

class HasRoles (S : Type) where
  heap : S → Heap
  /-- The interned symbols. -/
  names : S → List Word
  Valid : Roles → S → Prop

structure Memory.Valid (ρ : Roles) (m : Memory) : Prop where
  typed : Typed ρ m.heap
  symbols : ∀ w ∈ m.symbols.values, (∃ i, w = .symbol i) ∧ m.heap.LiveWord w

structure Machine.Valid (ρ : Roles) (m : Machine) : Prop where
  memory : m.toMemory.Valid ρ
  roots : ∀ w ∈ m.heap.roots, m.heap.LiveWord w
  globalEnv : Fits ρ m.heap .env m.globalEnv
  core : ∀ w ∈ [Operation.lambdaSymbol, Operation.defineSymbol], w ∈ m.symbols.values

instance : HasRoles Heap := ⟨id, fun _ => [], Typed⟩

instance : HasRoles Memory := ⟨(·.heap), (·.symbols.values), Memory.Valid⟩

instance : HasRoles Machine := ⟨(·.heap), (·.symbols.values), Machine.Valid⟩

open HasRoles

section Does

variable {S ε α β : Type} [HasRoles S]

/-- Nothing was freed or forgotten between two states. -/
structure Later (ρ : Roles) (s : S) (ρ' : Roles) (s' : S) : Prop where
  heap : Extends ρ (heap s) ρ' (heap s')
  names : ∀ w ∈ names s, w ∈ names s'

def Does (ρ : Roles) (s : S) (r : EStateM.Result ε S α) (Q : α → Roles → S → Prop) : Prop :=
  match r with
  | .ok a s' => ∃ ρ', Valid ρ' s' ∧ Later ρ s ρ' s' ∧ Q a ρ' s'
  | .error _ s' => ∃ ρ', Valid ρ' s' ∧ Later ρ s ρ' s'

def Gives (r : Role) (w : Word) (ρ : Roles) (s : S) : Prop := Fits ρ (heap s) r w

variable {ρ ρ' ρ'' : Roles} {s s' s'' : S} {Q Q' : α → Roles → S → Prop} {R : β → Roles → S → Prop}

theorem Later.refl (ρ : Roles) (s : S) : Later ρ s ρ s := ⟨.refl _ _, fun _ hw => hw⟩

theorem Later.trans (h₁ : Later ρ s ρ' s') (h₂ : Later ρ' s' ρ'' s'') : Later ρ s ρ'' s'' :=
  ⟨h₁.heap.trans h₂.heap, fun w hw => h₂.names w (h₁.names w hw)⟩

theorem Does.pure {a : α} (hs : Valid ρ s) (ha : Q a ρ s) : Does ρ s ((pure a : EStateM ε S α) s) Q :=
  ⟨ρ, hs, .refl .., ha⟩

theorem Does.throw {e : ε} (hs : Valid ρ s) : Does ρ s ((throw e : EStateM ε S α) s) Q :=
  ⟨ρ, hs, .refl ..⟩

theorem Does.bind {x : EStateM ε S α} {f : α → EStateM ε S β} (hx : Does ρ s (x s) Q)
    (hf : ∀ a ρ' s', Valid ρ' s' → Later ρ s ρ' s' → Q a ρ' s' → Does ρ' s' (f a s') R) :
    Does ρ s ((x >>= f) s) R := by
  show Does ρ s (EStateM.bind x f s) R
  unfold EStateM.bind
  cases hxs : x s with
  | error e s' =>
    rw [hxs] at hx
    exact hx
  | ok a s' =>
    rw [hxs] at hx
    obtain ⟨ρ', hv', hl', hq⟩ := hx
    have hrest := hf a ρ' s' hv' hl' hq
    show Does ρ s (f a s') R
    cases hfs : f a s' with
    | error e s'' =>
      rw [hfs] at hrest
      obtain ⟨ρ'', hv'', hl''⟩ := hrest
      exact ⟨ρ'', hv'', hl'.trans hl''⟩
    | ok b s'' =>
      rw [hfs] at hrest
      obtain ⟨ρ'', hv'', hl'', hr⟩ := hrest
      exact ⟨ρ'', hv'', hl'.trans hl'', hr⟩

theorem Does.imp {r : EStateM.Result ε S α} (hr : Does ρ s r Q)
    (hq : ∀ a ρ' s', Later ρ s ρ' s' → Q a ρ' s' → Q' a ρ' s') : Does ρ s r Q' := by
  cases r with
  | error e s' => exact hr
  | ok a s' =>
    obtain ⟨ρ', hv, hl, ha⟩ := hr
    exact ⟨ρ', hv, hl, hq a ρ' s' hl ha⟩

theorem Does.get_bind {f : S → EStateM ε S β} (hf : Does ρ s (f s s) R) : Does ρ s ((get >>= f) s) R := hf

end Does

/-! ## Heaps -/

section Heaps

variable {ρ : Roles} {h : Heap} {r p q : Role} {a b env code : Word}

theorem does_consPair (ht : Typed ρ h) (hs : Splits r a p q) (ha : Fits ρ h p a) (hb : Fits ρ h q b) :
    Does ρ h (Heap.cons a b h) fun w ρ' h' => Fits ρ' h' r w ∧ w.isPair := by
  rw [Heap.cons_apply]
  cases hnext : h.cells.next? with
  | none => exact ⟨ρ, ht, .refl ..⟩
  | some i =>
    obtain ⟨hlt, -⟩ := ht.sound.cells.next_dead hnext
    obtain ⟨ht', hext⟩ := ht.fill hnext hs ha hb
    refine ⟨_, ht', ⟨hext, by simp [names]⟩, ⟨⟨fun _ => ?_, fun htext => ?_⟩, fun _ => ?_, fun hc => ?_⟩, ?_⟩
    · rw [Word.payload_pair]
      exact (Pool.isLive_fill hlt _ i).2 (.inl rfl)
    · rw [Word.not_hasText_of_hasCell (Word.hasCell_pair i)] at htext
      cases htext
    · rw [Word.payload_pair, Function.update_self]
    · simp [Word.isClosure] at hc
    · simp [Word.isPair]

theorem does_cons (ht : Typed ρ h) (hs : Splits r a p q) (ha : Fits ρ h p a) (hb : Fits ρ h q b) :
    Does ρ h (Heap.cons a b h) (Gives r) :=
  (does_consPair ht hs ha hb).imp fun _ _ _ _ hw => hw.1

theorem does_makeClosure (ht : Typed ρ h) (henv : Fits ρ h .env env) (hcode : Fits ρ h (.operands .headed) code) :
    Does ρ h (Heap.makeClosure env code h) (Gives r) := by
  rw [Heap.makeClosure_apply]
  cases hnext : h.cells.next? with
  | none => exact ⟨ρ, ht, .refl ..⟩
  | some i =>
    obtain ⟨hlt, -⟩ := ht.sound.cells.next_dead hnext
    obtain ⟨ht', hext⟩ := ht.fill hnext (.closure env) henv hcode
    refine ⟨_, ht', ⟨hext, by simp [names]⟩, ⟨⟨fun _ => ?_, fun htext => ?_⟩, fun hp => ?_, fun _ => ?_⟩⟩
    · rw [Word.payload_closure]
      exact (Pool.isLive_fill hlt _ i).2 (.inl rfl)
    · rw [Word.not_hasText_of_hasCell (Word.hasCell_closure i)] at htext
      cases htext
    · simp [Word.isPair] at hp
    · rw [Word.payload_closure, Function.update_self]

theorem Typed.fillString {i : UInt32} (ht : Typed ρ h) (hi : h.strings.next? = some i) (bytes : ByteArray) :
    Typed ρ { h with strings := h.strings.fill i bytes } ∧
      Extends ρ h ρ { h with strings := h.strings.fill i bytes } := by
  obtain ⟨hlt, -⟩ := ht.sound.strings.next_dead hi
  have hext : Extends ρ h ρ { h with strings := h.strings.fill i bytes } := fun d =>
    ⟨fun _ hj => hj, fun j hj => (Pool.isLive_fill hlt _ j).2 (.inr hj), fun _ _ _ => rfl, fun _ _ _ => rfl, rfl⟩
  exact ⟨⟨⟨ht.sound.cells, ht.sound.strings.fill hi bytes⟩, fun j hj => (ht.cell j hj).extend hext⟩, hext⟩

/-- A new string is live, and so is the symbol in its slot. -/
theorem does_makeString (ht : Typed ρ h) (bytes : ByteArray) :
    Does ρ h (Heap.makeString bytes h) fun w ρ' h' => Fits ρ' h' .data w ∧ h'.LiveWord (.symbol w.payload) := by
  rw [Heap.makeString_apply]
  cases hnext : h.strings.next? with
  | none => exact ⟨ρ, ht, .refl ..⟩
  | some i =>
    obtain ⟨hlt, -⟩ := ht.sound.strings.next_dead hnext
    obtain ⟨ht', hext⟩ := ht.fillString hnext bytes
    have hlive : (h.strings.fill i bytes).IsLive i := (Pool.isLive_fill hlt _ i).2 (.inl rfl)
    have hstring := Word.not_hasCell_of_hasText (Word.hasText_string i)
    have hsymbol := Word.not_hasCell_of_hasText (Word.hasText_symbol i)
    refine ⟨ρ, ht', ⟨hext, by simp [names]⟩, .of_not_hasCell ⟨fun hc => ?_, fun _ => ?_⟩ ?_, fun hc => ?_, fun _ => ?_⟩
    · rw [hstring] at hc
      cases hc
    · rw [Word.payload_string]
      exact hlive
    · rw [hstring]
      exact Bool.false_ne_true
    · rw [Word.payload_string, hsymbol] at hc
      cases hc
    · rw [Word.payload_symbol, Word.payload_string]
      exact hlive

theorem Heap.consAll_append (xs ys : List Word) (tail : Word) :
    consAll (xs ++ ys) tail = consAll xs tail >>= consAll ys := by
  induction xs generalizing tail with
  | nil => exact (pure_bind ..).symm
  | cons x xs ih =>
    show (cons x tail >>= fun w => consAll (xs ++ ys) w) = (cons x tail >>= fun w => consAll xs w) >>= consAll ys
    rw [bind_assoc]
    exact bind_congr fun w => ih w

theorem Heap.listOf_cons (x : Word) (xs : List Word) : listOf (x :: xs) = listOf xs >>= fun tail => cons x tail := by
  rw [listOf, List.reverse_cons, consAll_append]
  exact bind_congr fun tail => bind_pure _

theorem does_listOf {items : List Word} (ht : Typed ρ h) (hrow : ListFits ρ h r items) :
    Does ρ h (Heap.listOf items h) (Gives r) := by
  induction items generalizing r with
  | nil => exact ⟨ρ, ht, .refl .., .nil⟩
  | cons x xs ih =>
    obtain ⟨p, q, hs, hx, hrest⟩ := hrow
    rw [Heap.listOf_cons]
    exact (ih hrest).bind fun tail ρ' h' ht' hl htail => does_cons ht' hs (hx.extend hl.heap) htail

end Heaps

/-! ## Memory and machines -/

section Machines

variable {α : Type} {ρ ρ' : Roles} {mem mem' : Memory} {m : Machine} {r p q : Role} {w a b : Word}

theorem Memory.Valid.withHeap (hv : mem.Valid ρ) {h' : Heap} (ht : Typed ρ' h') (hx : Extends ρ mem.heap ρ' h') :
    Memory.Valid ρ' ⟨h', mem.symbols⟩ := by
  refine ⟨ht, fun w hw => ?_⟩
  obtain ⟨hs, hlive⟩ := hv.symbols w hw
  exact ⟨hs, hlive.grow (hx 0)⟩

theorem Machine.Valid.withMemory (hv : m.Valid ρ) (hmem : mem'.Valid ρ') (hl : Later ρ m.toMemory ρ' mem') :
    Machine.Valid ρ' { m with toMemory := mem' } where
  memory := hmem
  roots w hw := by
    have hroots : mem'.heap.roots = m.heap.roots := hl.heap.roots
    exact (hv.roots w (hroots ▸ hw)).grow (hl.heap 0)
  globalEnv := hv.globalEnv.extend hl.heap
  core w hw := hl.names w (hv.core w hw)

theorem Does.memoryOnHeap {op : HeapM α} {Q : α → Roles → Heap → Prop} (hv : mem.Valid ρ)
    (hop : Does ρ mem.heap (op mem.heap) Q) :
    Does ρ mem (Memory.onHeap op mem) fun a ρ' mem' => Q a ρ' mem'.heap := by
  obtain ⟨h, symbols⟩ := mem
  unfold Memory.onHeap
  dsimp only at hop ⊢
  cases hres : op h with
  | error e h' =>
    rw [hres] at hop
    obtain ⟨ρ', ht, hl⟩ := hop
    exact ⟨ρ', hv.withHeap ht hl.heap, hl.heap, fun _ hw => hw⟩
  | ok a h' =>
    rw [hres] at hop
    obtain ⟨ρ', ht, hl, hq⟩ := hop
    exact ⟨ρ', hv.withHeap ht hl.heap, ⟨hl.heap, fun _ hw => hw⟩, hq⟩

theorem Does.onMemory {op : MemoryM α} {Q : α → Roles → Memory → Prop} (hv : m.Valid ρ)
    (hop : Does ρ m.toMemory (op m.toMemory) Q) :
    Does ρ m (Eval.onMemory op m) fun a ρ' m' => Q a ρ' m'.toMemory := by
  unfold Eval.onMemory
  cases hres : op m.toMemory with
  | error e mem' =>
    rw [hres] at hop
    obtain ⟨ρ', hmem, hl⟩ := hop
    exact ⟨ρ', hv.withMemory hmem hl, hl.heap, hl.names⟩
  | ok a mem' =>
    rw [hres] at hop
    obtain ⟨ρ', hmem, hl, hq⟩ := hop
    exact ⟨ρ', hv.withMemory hmem hl, ⟨hl.heap, hl.names⟩, hq⟩

theorem Does.onHeap {op : HeapM α} {Q : α → Roles → Heap → Prop} (hv : m.Valid ρ)
    (hop : Does ρ m.heap (op m.heap) Q) : Does ρ m (Eval.onHeap op m) fun a ρ' m' => Q a ρ' m'.heap := by
  unfold Eval.onHeap
  cases hres : op m.heap with
  | error e h' =>
    rw [hres] at hop
    obtain ⟨ρ', ht, hl⟩ := hop
    exact ⟨ρ', hv.withMemory (hv.memory.withHeap ht hl.heap) ⟨hl.heap, fun _ hw => hw⟩, hl.heap, fun _ hw => hw⟩
  | ok a h' =>
    rw [hres] at hop
    obtain ⟨ρ', ht, hl, hq⟩ := hop
    refine ⟨ρ', hv.withMemory (hv.memory.withHeap ht hl.heap) ⟨hl.heap, fun _ hw => hw⟩, ⟨hl.heap, fun _ hw => hw⟩, hq⟩

theorem Does.inspect {f : Heap → Except Fault α} {Q : α → Roles → Machine → Prop} (hv : m.Valid ρ)
    (hq : ∀ a, f m.heap = .ok a → Q a ρ m) : Does ρ m (Eval.inspect f m) Q := by
  unfold Eval.inspect
  cases hf : f m.heap with
  | error e => exact ⟨ρ, hv, .refl ..⟩
  | ok a => exact ⟨ρ, hv, .refl .., hq a hf⟩

theorem Does.ofExcept {x : Except Error α} {Q : α → Roles → Machine → Prop} (hv : m.Valid ρ)
    (hq : ∀ a, x = .ok a → Q a ρ m) : Does ρ m (Eval.ofExcept x m) Q := by
  unfold Eval.ofExcept
  cases hx : x with
  | error e => exact ⟨ρ, hv, .refl ..⟩
  | ok a => exact ⟨ρ, hv, .refl .., hq a hx⟩

theorem does_raise {e : Error} {Q : α → Roles → Machine → Prop} (hv : m.Valid ρ) : Does ρ m (Eval.raise e m) Q :=
  Does.throw hv

/-- Reading a pair changes nothing. -/
theorem does_car (hv : m.Valid ρ) :
    Does ρ m (Eval.car w m) fun a ρ' m' => ρ' = ρ ∧ m' = m ∧ w.isPair ∧ a = (m.heap.cells.read w.payload).car := by
  refine .inspect hv fun a ha => ⟨rfl, rfl, ?_⟩
  by_cases hp : w.isPair
  · rw [Heap.car, Heap.pairCell_of_isPair hp] at ha
    cases ha
    exact ⟨hp, rfl⟩
  · rw [Heap.car, Heap.pairCell_of_not_isPair hp] at ha
    cases ha

theorem does_cdr (hv : m.Valid ρ) :
    Does ρ m (Eval.cdr w m) fun a ρ' m' => ρ' = ρ ∧ m' = m ∧ w.isPair ∧ a = (m.heap.cells.read w.payload).cdr := by
  refine .inspect hv fun a ha => ⟨rfl, rfl, ?_⟩
  by_cases hp : w.isPair
  · rw [Heap.cdr, Heap.pairCell_of_isPair hp] at ha
    cases ha
    exact ⟨hp, rfl⟩
  · rw [Heap.cdr, Heap.pairCell_of_not_isPair hp] at ha
    cases ha

theorem Machine.Valid.typed (hv : m.Valid ρ) : Typed ρ m.heap := hv.memory.typed

theorem does_evalCons (hv : m.Valid ρ) (hs : Splits r a p q) (ha : Fits ρ m.heap p a) (hb : Fits ρ m.heap q b) :
    Does ρ m (Eval.cons a b m) (Gives r) :=
  .onHeap hv (does_cons hv.typed hs ha hb)

/-- The content of a cell of data or of an environment may change. -/
theorem does_updatePair {operation : String} {f : Cell → Cell} (hv : m.Valid ρ) (hw : Fits ρ m.heap r w)
    (hr : ∀ d, ¬ r.Solid d) (hf : w.isPair → CellFits ρ m.heap r (f (m.heap.cells.read w.payload))) :
    Does ρ m (Eval.onHeap (Heap.updatePair w operation f) m) fun _ _ _ => True := by
  refine Does.onHeap (Q := fun _ _ _ => True) hv ?_
  by_cases hp : w.isPair
  · rw [Heap.updatePair_of_isPair hp]
    have hlive := hw.live.cell (Word.hasCell_of_isPair hp)
    obtain ⟨ht, hg⟩ := hv.typed.update hlive f (hw.pair hp ▸ hf hp)
    exact ⟨ρ, ht, ⟨fun d => hg d (hw.pair hp ▸ hr d), fun _ hw => hw⟩, trivial⟩
  · rw [Heap.updatePair_of_not_isPair hp]
    exact ⟨ρ, hv.typed, .refl ..⟩

theorem Machine.Valid.symbol (hv : m.Valid ρ) (hw : w ∈ [Operation.lambdaSymbol, Operation.defineSymbol]) :
    m.heap.LiveWord w := (hv.memory.symbols w (hv.core w hw)).2

end Machines

/-! ## Environments -/

section Environments

variable {ρ : Roles} {h : Heap} {m : Machine} {env symbol value frame params args body : Word}

theorem Typed.lookupFrame (ht : Typed ρ h) {limit : Nat} {bindings : Word} (hb : Fits ρ h .frame bindings)
    (hv : BoxedScheme.lookupFrame h symbol limit bindings = .ok (some value)) : Fits ρ h .data value := by
  induction limit using Nat.strongRecOn generalizing bindings with
  | ind limit ih =>
    unfold BoxedScheme.lookupFrame at hv
    by_cases hp : bindings.isPair
    · rw [if_pos hp] at hv
      obtain ⟨_, _, hs, hcar, hrest⟩ := ht.pair hb hp
      cases hs
      by_cases hpc : (h.cells.read bindings.payload).car.isPair
      · obtain ⟨_, _, hs, -, hvalue⟩ := ht.pair hcar hpc
        cases hs
        simp only [Heap.pairCell_of_isPair hpc] at hv
        split at hv
        · cases hv
          exact hvalue
        · cases limit with
          | zero => cases hv
          | succ limit => exact ih limit (Nat.lt_succ_self limit) hrest hv
      · simp only [Heap.pairCell_of_not_isPair hpc] at hv
        cases hv
    · rw [if_neg hp] at hv
      cases hv

theorem Typed.lookupFrames (ht : Typed ρ h) {limit : Nat} {frames : Word} (hf : Fits ρ h .env frames)
    (hv : BoxedScheme.lookupFrames h symbol limit frames = .ok (some value)) : Fits ρ h .data value := by
  induction limit using Nat.strongRecOn generalizing frames with
  | ind limit ih =>
    unfold BoxedScheme.lookupFrames at hv
    by_cases hp : frames.isPair
    · rw [if_pos hp] at hv
      obtain ⟨_, _, hs, hcar, hrest⟩ := ht.pair hf hp
      cases hs
      cases hframe : BoxedScheme.lookupFrame h symbol h.cells.capacity (h.cells.read frames.payload).car with
      | error e =>
        simp only [hframe] at hv
        cases hv
      | ok found =>
        simp only [hframe] at hv
        cases found with
        | some v =>
          cases hv
          exact ht.lookupFrame hcar hframe
        | none =>
          cases limit with
          | zero => cases hv
          | succ limit => exact ih limit (Nat.lt_succ_self limit) hrest hv
    · rw [if_neg hp] at hv
      cases hv

theorem Word.isImmediate_procedure (id : UInt32) : (Word.procedure id).isImmediate := by
  simp [Word.isImmediate, Word.hasCell, Word.hasText, Word.isPair, Word.isClosure, Word.isSymbol, Word.isString]

theorem Fits.procedure {ρ : Roles} {h : Heap} {r : Role} (id : UInt32) : Fits ρ h r (.procedure id) :=
  .of_isImmediate (Word.isImmediate_procedure id)

theorem does_lookup (hv : m.Valid ρ) (henv : Fits ρ m.heap .env env) :
    Does ρ m (lookup env symbol m) (Gives .data) := by
  have hfound : ∀ v, m.heap.lookup env symbol = .ok v → Fits ρ m.heap .data v := by
    intro v hlook
    unfold Heap.lookup at hlook
    cases hframes : lookupFrames m.heap symbol m.heap.cells.capacity env with
    | error e =>
      simp only [hframes] at hlook
      cases hlook
    | ok found =>
      simp only [hframes] at hlook
      cases found with
      | some value =>
        cases hlook
        exact hv.typed.lookupFrames henv hframes
      | none =>
        simp only at hlook
        split at hlook
        · cases hlook
          exact .procedure _
        · cases hlook
  unfold lookup
  cases hlook : m.heap.lookup env symbol with
  | error e => exact ⟨ρ, hv, .refl ..⟩
  | ok v => exact ⟨ρ, hv, .refl .., hfound v hlook⟩

theorem does_define (hv : m.Valid ρ) (henv : Fits ρ m.heap .env env) (hs : Fits ρ m.heap .inert symbol)
    (hval : Fits ρ m.heap .data value) : Does ρ m (define env symbol value m) fun _ _ _ => True := by
  refine (does_evalCons hv (.binding symbol) hs hval).bind fun binding ρ₁ m₁ hv₁ hl₁ hbinding => ?_
  refine (does_car hv₁).bind ?_
  rintro frame _ _ - - ⟨rfl, rfl, hp, rfl⟩
  have henv₁ := henv.extend hl₁.heap
  obtain ⟨_, _, hsplit, hframe, -⟩ := hv₁.typed.pair henv₁ hp
  cases hsplit
  refine (does_evalCons hv₁ (.frame binding) hbinding hframe).bind fun frame' ρ₂ m₂ hv₂ hl₂ hframe' => ?_
  have henv₂ := henv₁.extend hl₂.heap
  refine does_updatePair hv₂ henv₂ (fun _ hr => hr) fun hp => ?_
  obtain ⟨_, _, hsplit, -, hrest⟩ := hv₂.typed.pair henv₂ hp
  cases hsplit
  exact ⟨_, _, .env _, hframe', hrest⟩

theorem does_bindTo (hv : m.Valid ρ) (hs : Fits ρ m.heap .inert symbol) (hval : Fits ρ m.heap .data value)
    (hf : Fits ρ m.heap .frame frame) : Does ρ m (bindTo symbol value frame m) (Gives .frame) := by
  refine (does_evalCons hv (.binding symbol) hs hval).bind fun binding ρ' m' hv' hl hbinding => ?_
  exact does_evalCons hv' (.frame binding) hbinding (hf.extend hl.heap)

/-- What is left of parameters and arguments, and the frame so far. -/
structure Bound.Fits (ρ : Roles) (h : Heap) (b : Bound) : Prop where
  params : BoxedScheme.Fits ρ h .inert b.params
  args : BoxedScheme.Fits ρ h .data b.args
  frame : BoxedScheme.Fits ρ h .frame b.frame

theorem does_bindWith {again : Word → Word → Word → Eval Bound} (hv : m.Valid ρ)
    (hagain : ∀ params args frame ρ' m', m'.Valid ρ' → Bound.Fits ρ' m'.heap ⟨params, args, frame⟩ →
      Does ρ' m' (again params args frame m') fun b ρ'' m'' => b.Fits ρ'' m''.heap)
    (hb : Bound.Fits ρ m.heap ⟨params, args, frame⟩) :
    Does ρ m (bindWith again params args frame m) fun b ρ' m' => b.Fits ρ' m'.heap := by
  unfold bindWith
  by_cases hp : params.isPair && args.isPair
  · rw [if_pos hp]
    rw [Bool.and_eq_true] at hp
    obtain ⟨_, _, hsp, hparam, -⟩ := hv.typed.pair hb.params hp.1
    obtain ⟨_, _, hsa, harg, -⟩ := hv.typed.pair hb.args hp.2
    cases hsp
    cases hsa
    refine (does_car hv).bind ?_
    rintro param _ _ - - ⟨rfl, rfl, -, rfl⟩
    refine (does_car hv).bind ?_
    rintro arg _ _ - - ⟨rfl, rfl, -, rfl⟩
    refine (does_bindTo hv hparam harg hb.frame).bind fun frame' ρ' m' hv' hl hframe => ?_
    refine (does_cdr hv').bind ?_
    rintro rest _ _ - - ⟨rfl, rfl, hpp, rfl⟩
    refine (does_cdr hv').bind ?_
    rintro rest _ _ - - ⟨rfl, rfl, hpa, rfl⟩
    obtain ⟨_, _, hsp, -, hparams⟩ := hv'.typed.pair (hb.params.extend hl.heap) hpp
    obtain ⟨_, _, hsa, -, hargs⟩ := hv'.typed.pair (hb.args.extend hl.heap) hpa
    cases hsp
    cases hsa
    exact hagain _ _ _ _ _ hv' ⟨hparams, hargs, hframe⟩
  · rw [if_neg hp]
    exact .pure hv hb

theorem does_bindInStep (hv : m.Valid ρ) (limit : Nat) (hb : Bound.Fits ρ m.heap ⟨params, args, frame⟩) :
    Does ρ m (bindInStep limit params args frame m) fun b ρ' m' => b.Fits ρ' m'.heap := by
  induction limit generalizing ρ m params args frame with
  | zero => exact does_bindWith hv (fun _ _ _ _ _ hv' _ => .throw hv') hb
  | succ limit ih => exact does_bindWith hv (fun _ _ _ _ _ hv' hb' => ih hv' hb') hb

theorem does_mismatch {Q : Word → Roles → Machine → Prop} (hv : m.Valid ρ) (params args : Word) :
    Does ρ m (mismatch params args m) Q := by
  refine (Does.inspect hv fun _ _ => trivial : Does ρ m _ fun _ _ _ => True).bind fun _ ρ₁ m₁ hv₁ _ _ => ?_
  refine (Does.inspect hv₁ fun _ _ => trivial : Does ρ₁ m₁ _ fun _ _ _ => True).bind fun _ ρ₂ m₂ hv₂ _ _ => ?_
  refine (Does.inspect hv₂ fun _ _ => trivial : Does ρ₂ m₂ _ fun _ _ _ => True).bind fun _ _ _ hv₃ _ _ => ?_
  exact does_raise hv₃

theorem does_extend (hv : m.Valid ρ) (henv : Fits ρ m.heap .env env) (hp : Fits ρ m.heap .inert params)
    (ha : Fits ρ m.heap .data args) : Does ρ m (extend env params args m) (Gives .env) := by
  unfold extend
  refine .get_bind ?_
  refine (does_bindInStep hv m.heap.cells.freeCount ⟨hp, ha, .nil⟩).bind fun b ρ₁ m₁ hv₁ hl₁ hb => ?_
  have henv₁ := henv.extend hl₁.heap
  by_cases hsym : b.params.isSymbol
  · rw [if_pos hsym]
    refine (does_bindTo hv₁ hb.params hb.args hb.frame).bind fun frame ρ₂ m₂ hv₂ hl₂ hframe => ?_
    exact does_evalCons hv₂ (.env frame) hframe (henv₁.extend hl₂.heap)
  · rw [if_neg hsym]
    by_cases hend : b.params.isNull && b.args.isNull
    · rw [if_pos hend]
      exact does_evalCons hv₁ (.env b.frame) hb.frame henv₁
    · rw [if_neg hend]
      exact does_mismatch hv₁ params args

end Environments

/-! ## Closures -/

section Closures

variable {ρ : Roles} {h : Heap} {m : Machine} {closure env params body : Word} {r : Role}

theorem Heap.closureParts_eq_ok {parts : Heap.ClosureParts} (hc : h.closureParts closure = .ok parts) :
    closure.isClosure ∧ (h.cells.read closure.payload).cdr.isPair ∧
      parts = ⟨(h.cells.read closure.payload).car, (h.cells.read (h.cells.read closure.payload).cdr.payload).car,
        (h.cells.read (h.cells.read closure.payload).cdr.payload).cdr⟩ := by
  unfold Heap.closureParts Word.closurePair? at hc
  by_cases hcl : closure.isClosure
  · have hpair : (Word.pair closure.payload).isPair := by simp [Word.isPair]
    simp only [if_pos hcl, Heap.car, Heap.cdr, Heap.pairCell_of_isPair hpair, Word.payload_pair] at hc
    by_cases hcode : (h.cells.read closure.payload).cdr.isPair
    · simp only [Functor.map, Except.map, bind, Except.bind, Heap.pairCell_of_isPair hcode] at hc
      cases hc
      exact ⟨hcl, hcode, rfl⟩
    · simp only [Functor.map, Except.map, bind, Except.bind, Heap.pairCell_of_not_isPair hcode] at hc
      cases hc
  · simp only [if_neg hcl] at hc
    cases hc

/-- Environment, parameters and body of a closure have their roles. -/
theorem Typed.closureParts (ht : Typed ρ h) {parts : Heap.ClosureParts} (hw : Fits ρ h r closure)
    (hc : h.closureParts closure = .ok parts) :
    Fits ρ h .env parts.env ∧ Fits ρ h .inert parts.params ∧ Fits ρ h (.operands .exprs) parts.body := by
  obtain ⟨hcl, hcode, rfl⟩ := Heap.closureParts_eq_ok hc
  obtain ⟨_, _, hs, henv, hop⟩ := ht.closure hw hcl
  cases hs
  obtain ⟨hparams, hbody⟩ := ht.operands hop hcode
  exact ⟨henv, hparams, hbody⟩

theorem does_makeLambda (hv : m.Valid ρ) (hp : Fits ρ m.heap .inert params)
    (hb : Fits ρ m.heap (.operands .exprs) body) (henv : Fits ρ m.heap .env env) :
    Does ρ m (makeLambda params body env m) (Gives .data) := by
  unfold makeLambda
  refine .get_bind ?_
  cases parametersStop? m.heap m.heap.cells.capacity params with
  | some reason => exact .throw hv
  | none =>
    dsimp only
    split
    · exact does_raise hv
    refine (Does.inspect hv fun _ _ => ⟨rfl, rfl⟩ : Does ρ m _ fun _ ρ' m' => ρ' = ρ ∧ m' = m).bind ?_
    rintro tail _ _ - - ⟨rfl, rfl⟩
    split
    · exact does_raise hv
    refine (does_evalCons hv (.operands .headed params) hp hb).bind fun code ρ' m' hv' hl hcode => ?_
    exact .onHeap hv' (does_makeClosure hv'.typed (henv.extend hl.heap) hcode)

theorem does_defineProcedure {target operands : Word} (hv : m.Valid ρ) (ht : Fits ρ m.heap .inert target)
    (hop : Fits ρ m.heap (.operands .headed) operands) (henv : Fits ρ m.heap .env env) :
    Does ρ m (defineProcedure target operands env m) fun _ _ _ => True := by
  refine (does_car hv).bind ?_
  rintro name ρ m - - ⟨rfl, rfl, hp, rfl⟩
  obtain ⟨_, _, hs, hname, hformals⟩ := hv.typed.pair ht hp
  cases hs
  split
  · exact does_raise hv
  refine (does_cdr hv).bind ?_
  rintro formals ρ m - - ⟨rfl, rfl, -, rfl⟩
  refine (does_cdr hv).bind ?_
  rintro body ρ m - - ⟨rfl, rfl, hpo, rfl⟩
  obtain ⟨-, hbody⟩ := hv.typed.operands hop hpo
  refine (does_makeLambda hv hformals hbody henv).bind fun closure ρ' m' hv' hl hclosure => ?_
  exact does_define hv' (henv.extend hl.heap) (hname.extend hl.heap) hclosure

end Closures

/-! ## Binding forms -/

section Sugar

variable {ρ : Roles} {h : Heap} {m : Machine} {body bindings name : Word} {clauses : List Clause} {s : Shape}

/-- The names of bindings are inert, and their expressions are operands of a shape. -/
structure ClausesFit (ρ : Roles) (h : Heap) (s : Shape) (clauses : List Clause) : Prop where
  names : ∀ w ∈ clauses.map (·.name), Fits ρ h .inert w
  exprs : ListFits ρ h (.operands s) (clauses.map (·.expr))

theorem Typed.clauseOf (ht : Typed ρ h) {form : Form} {w : Word} {c : Clause} {next : Shape}
    (hw : Fits ρ h (.clause s next) w) (hc : BoxedScheme.clauseOf h form w = .ok c) :
    Fits ρ h .inert c.name ∧ Fits ρ h s.item c.expr ∧ next = s.next c.expr := by
  unfold BoxedScheme.clauseOf at hc
  cases hitems : h.listItems w form.name with
  | error e =>
    simp only [hitems] at hc
    cases hc
  | ok items =>
    simp only [hitems] at hc
    obtain ⟨tail, hl⟩ := Heap.listItems_lists hitems
    have hrow := ht.row hw hl
    match hlist : items.toList with
    | [] =>
      simp only [hlist] at hc
      cases hc
    | [_] =>
      simp only [hlist] at hc
      cases hc
    | _ :: _ :: _ :: _ =>
      simp only [hlist] at hc
      cases hc
    | [name, expr] =>
      rw [hlist] at hrow
      obtain ⟨_, _, hs, hname, _, _, hs', hexpr, -⟩ := hrow
      cases hs
      cases hs'
      simp only [hlist] at hc
      split at hc
      · cases hc
        exact ⟨hname, hexpr, rfl⟩
      · cases hc

theorem Typed.clausesOf (ht : Typed ρ h) {form : Form} {items : List Word} (hrow : ListFits ρ h (.clauses s) items)
    (hc : items.mapM (BoxedScheme.clauseOf h form) = .ok clauses) : ClausesFit ρ h s clauses := by
  induction items generalizing s clauses with
  | nil =>
    cases hc
    exact ⟨by simp, trivial⟩
  | cons w items ih =>
    obtain ⟨_, _, hs, hw, hrest⟩ := hrow
    cases hs with
    | clauses _ v =>
      rw [List.mapM_cons] at hc
      cases hclause : BoxedScheme.clauseOf h form w with
      | error e =>
        rw [hclause] at hc
        cases hc
      | ok c =>
        rw [hclause] at hc
        cases hothers : items.mapM (BoxedScheme.clauseOf h form) with
        | error e =>
          rw [hothers] at hc
          cases hc
        | ok others =>
          rw [hothers] at hc
          cases hc
          obtain ⟨hname, hexpr, hnext⟩ := ht.clauseOf hw hclause
          rw [hnext] at hrest
          obtain ⟨hnames, hexprs⟩ := ih hrest hothers
          exact ⟨List.forall_mem_cons.2 ⟨hname, hnames⟩, _, _, .operands s _, hexpr, hexprs⟩

theorem does_clausesOf (hv : m.Valid ρ) {form : Form} (hb : Fits ρ m.heap (.clauses s) bindings) :
    Does ρ m (clausesOf form bindings m) fun clauses ρ' m' => ρ' = ρ ∧ m' = m ∧ ClausesFit ρ m.heap s clauses := by
  unfold clausesOf
  refine .get_bind (.ofExcept hv fun clauses hc => ⟨rfl, rfl, ?_⟩)
  unfold letClauses at hc
  cases hitems : m.heap.listItems bindings form.name with
  | error e =>
    simp only [hitems] at hc
    cases hc
  | ok items =>
    simp only [hitems] at hc
    obtain ⟨tail, hl⟩ := Heap.listItems_lists hitems
    exact hv.typed.clausesOf (hv.typed.row hb hl) hc

theorem Fits.symbol {r : Role} {i : UInt32} (hw : h.LiveWord (.symbol i)) : Fits ρ h r (.symbol i) :=
  .of_not_hasCell hw (by simp [Word.not_hasCell_of_hasText (Word.hasText_symbol i)])

theorem ListFits.pairOf {a b : Word} {r p q p' q' : Role} (hs : Splits r a p q) (ha : Fits ρ h p a)
    (hs' : Splits q b p' q') (hb : Fits ρ h p' b) : ListFits ρ h r [a, b] := ⟨p, q, hs, ha, p', q', hs', hb, trivial⟩

theorem Shape.ofHead_of_isPair {w : Word} (hw : w.isPair) : ofHead w = .exprs := by
  refine ofHead_of_not_isSymbol fun hs => ?_
  simp only [Word.isPair, Word.isSymbol, decide_eq_true_eq] at hw hs
  rw [hw] at hs
  cases hs

/-- The application of an expression that is a pair. -/
theorem splits_application {w : Word} (hw : w.isPair) : Splits .expr w .expr (.operands .exprs) :=
  Shape.ofHead_of_isPair hw ▸ .expr w

theorem does_lambdaExpr {params : Word} (ht : Typed ρ h) (hl : h.LiveWord Operation.lambdaSymbol)
    (hp : Fits ρ h .inert params) (hb : Fits ρ h (.operands .exprs) body) :
    Does ρ h (lambdaExpr params body h) fun w ρ' h' => Fits ρ' h' .expr w ∧ w.isPair := by
  refine (does_cons ht (.operands .headed params) hp hb).bind fun code ρ' h' ht' hl' hcode => ?_
  exact does_consPair ht' (.expr Operation.lambdaSymbol) (.symbol (hl.grow (hl'.heap 0))) hcode

theorem does_letExpr (ht : Typed ρ h) (hl : h.LiveWord Operation.lambdaSymbol) (hc : ClausesFit ρ h .exprs clauses)
    (hb : Fits ρ h (.operands .exprs) body) : Does ρ h (letExpr clauses body h) (Gives .expr) := by
  refine (does_listOf ht (.inert hc.names)).bind fun params ρ₁ h₁ ht₁ hl₁ hparams => ?_
  refine (does_lambdaExpr ht₁ (hl.grow (hl₁.heap 0)) hparams (hb.extend hl₁.heap)).bind ?_
  intro lambda ρ₂ h₂ ht₂ hl₂ hlambda
  have hl₁₂ := hl₁.trans hl₂
  refine (does_listOf ht₂ (hc.exprs.extend hl₁₂.heap)).bind fun values ρ₃ h₃ ht₃ hl₃ hvalues => ?_
  exact does_cons ht₃ (splits_application hlambda.2) (hlambda.1.extend hl₃.heap) hvalues

theorem does_namedLetExpr (ht : Typed ρ h) (hl : h.LiveWord Operation.lambdaSymbol)
    (hd : h.LiveWord Operation.defineSymbol) (hn : Fits ρ h .inert name) (hs : name.isSymbol)
    (hc : ClausesFit ρ h (.ofHead name) clauses) (hb : Fits ρ h (.operands .exprs) body) :
    Does ρ h (namedLetExpr name clauses body h) (Gives .expr) := by
  refine (does_listOf ht (.inert hc.names)).bind fun params ρ₁ h₁ ht₁ hl₁ hparams => ?_
  refine (does_lambdaExpr ht₁ (hl.grow (hl₁.heap 0)) hparams (hb.extend hl₁.heap)).bind ?_
  intro procedure ρ₂ h₂ ht₂ hl₂ hproc
  replace hl₂ := hl₁.trans hl₂
  have hdefinition : ListFits ρ₂ h₂ .expr [Operation.defineSymbol, name, procedure] :=
    ⟨_, _, .expr _, .symbol (hd.grow (hl₂.heap 0)), .pairOf (.operands .headed name) (hn.extend hl₂.heap)
      (.operands .exprs procedure) hproc.1⟩
  refine (does_listOf ht₂ hdefinition).bind fun definition ρ₃ h₃ ht₃ hl₃ hdef => ?_
  replace hl₃ := hl₂.trans hl₃
  refine (does_listOf ht₃ (hc.exprs.extend hl₃.heap)).bind fun values ρ₄ h₄ ht₄ hl₄ hvalues => ?_
  have hname : Fits ρ₄ h₄ .expr name := (hn.extend (hl₃.trans hl₄).heap).of_isSymbol hs
  refine (does_cons ht₄ (.expr name) hname hvalues).bind fun call ρ₅ h₅ ht₅ hl₅ hcall => ?_
  have hbody : ListFits ρ₅ h₅ (.operands .exprs) [definition, call] :=
    .pairOf (.operands .exprs _) (hdef.extend (hl₄.trans hl₅).heap) (.operands .exprs _) hcall
  refine (does_listOf ht₅ hbody).bind fun outerBody ρ₆ h₆ ht₆ hl₆ houter => ?_
  replace hl₆ := hl₃.trans (hl₄.trans (hl₅.trans hl₆))
  refine (does_lambdaExpr ht₆ (hl.grow (hl₆.heap 0)) .nil houter).bind fun outer ρ₇ h₇ ht₇ _ houter => ?_
  exact does_cons ht₇ (splits_application houter.2) houter.1 .nil

theorem does_nestClauses (ht : Typed ρ h) (hl : h.LiveWord Operation.lambdaSymbol)
    (hc : ∀ c ∈ clauses, Fits ρ h .inert c.name ∧ Fits ρ h .expr c.expr) (hb : Fits ρ h (.operands .exprs) body) :
    Does ρ h (nestClauses clauses body h) (Gives (.operands .exprs)) := by
  induction clauses generalizing ρ h body with
  | nil => exact .pure ht hb
  | cons c clauses ih =>
    rw [List.forall_mem_cons] at hc
    refine (does_cons ht (.inert c.name) hc.1.1 .nil).bind fun params ρ₁ h₁ ht₁ hl₁ hparams => ?_
    refine (does_lambdaExpr ht₁ (hl.grow (hl₁.heap 0)) hparams (hb.extend hl₁.heap)).bind ?_
    intro lambda ρ₂ h₂ ht₂ hl₂ hlambda
    replace hl₂ := hl₁.trans hl₂
    have happlication : ListFits ρ₂ h₂ .expr [lambda, c.expr] :=
      .pairOf (splits_application hlambda.2) hlambda.1 (.operands .exprs _) (hc.1.2.extend hl₂.heap)
    refine (does_listOf ht₂ happlication).bind fun application ρ₃ h₃ ht₃ hl₃ happ => ?_
    refine (does_cons ht₃ (.operands .exprs application) happ .nil).bind fun body' ρ₄ h₄ ht₄ hl₄ hbody => ?_
    replace hl₄ := hl₂.trans (hl₃.trans hl₄)
    refine ih ht₄ (hl.grow (hl₄.heap 0)) (fun c' hc' => ?_) hbody
    obtain ⟨hname, hexpr⟩ := hc.2 c' hc'
    exact ⟨hname.extend hl₄.heap, hexpr.extend hl₄.heap⟩

theorem does_letStarExpr (ht : Typed ρ h) (hl : h.LiveWord Operation.lambdaSymbol) (hc : ClausesFit ρ h .exprs clauses)
    (hb : Fits ρ h (.operands .exprs) body) : Does ρ h (letStarExpr clauses body h) (Gives .expr) := by
  unfold letStarExpr
  split
  · refine (does_lambdaExpr ht hl .nil hb).bind fun lambda ρ₁ h₁ ht₁ _ hlambda => ?_
    exact does_cons ht₁ (splits_application hlambda.2) hlambda.1 .nil
  · have hclauses : ∀ c ∈ clauses.reverse, Fits ρ h .inert c.name ∧ Fits ρ h .expr c.expr := fun c hmem =>
      ⟨hc.names _ (List.mem_map_of_mem (List.mem_reverse.1 hmem)),
        hc.exprs.exprs _ (List.mem_map_of_mem (List.mem_reverse.1 hmem))⟩
    refine (does_nestClauses ht hl hclauses hb).bind fun nested ρ₁ h₁ ht₁ _ hnested => ?_
    refine .get_bind ?_
    by_cases hp : nested.isPair
    · obtain ⟨_, _, hs, hexpr, -⟩ := ht₁.pair hnested hp
      cases hs
      simp only [Heap.car, Heap.pairCell_of_isPair hp]
      exact .pure ht₁ hexpr
    · simp only [Heap.car, Heap.pairCell_of_not_isPair hp]
      exact .throw ht₁

end Sugar

/-! ## Special forms -/

section Forms

variable {ρ : Roles} {m : Machine} {operands env tail : Word} {args : List Word}

/-- A pass ends with data, or with an expression and its environment. -/
def Step.Fits : Step → Roles → Machine → Prop
  | .done value, ρ, m => BoxedScheme.Fits ρ m.heap .data value
  | .tail expr env, ρ, m => BoxedScheme.Fits ρ m.heap .expr expr ∧ BoxedScheme.Fits ρ m.heap .env env

theorem does_evalLambda (hv : m.Valid ρ) (hop : Fits ρ m.heap (.operands .headed) operands)
    (hl : m.heap.Lists operands args tail) (henv : Fits ρ m.heap .env env) :
    Does ρ m (evalLambda args operands env m) Step.Fits := by
  match args, hl with
  | [], _ | [_], _ => exact does_raise hv
  | _ :: _ :: _, .cons hp _ =>
    obtain ⟨hparams, hbody⟩ := hv.typed.operands hop hp
    refine (does_cdr hv).bind ?_
    rintro body ρ m - - ⟨rfl, rfl, -, rfl⟩
    exact (does_makeLambda hv hparams hbody henv).bind fun closure ρ' m' hv' _ hclosure => .pure hv' hclosure

theorem does_evalBind (hv : m.Valid ρ) (hop : Fits ρ m.heap (.operands .named) operands)
    (hl : m.heap.Lists operands args tail) (henv : Fits ρ m.heap .env env) :
    Does ρ m (evalBind args operands env m) Step.Fits := by
  match args, hl with
  | [], _ | [_], _ => exact does_raise hv
  | _ :: _ :: more, .cons hp (.cons hp' _) =>
    obtain ⟨hfirst, hrest⟩ := hv.typed.operands hop hp
    have hlambda := hv.symbol (by simp : Operation.lambdaSymbol ∈ _)
    unfold evalBind
    by_cases hsym : (m.heap.cells.read operands.payload).car.isSymbol
    · have hnext : Shape.named.next (m.heap.cells.read operands.payload).car =
          .scoped (.ofHead (m.heap.cells.read operands.payload).car) := if_pos hsym
      rw [hnext] at hrest
      obtain ⟨hsecond, hbody⟩ := hv.typed.operands hrest hp'
      simp only [if_pos hsym]
      split
      · exact does_raise hv
      refine (does_clausesOf hv hsecond).bind ?_
      rintro clauses ρ m - - ⟨rfl, rfl, hclauses⟩
      refine (does_cdr hv).bind ?_
      rintro rest ρ m - - ⟨rfl, rfl, -, rfl⟩
      refine (does_cdr hv).bind ?_
      rintro body ρ m - - ⟨rfl, rfl, -, rfl⟩
      have hdefine := hv.symbol (by simp : Operation.defineSymbol ∈ _)
      have hexpr := does_namedLetExpr hv.typed hlambda hdefine (hfirst.of_isSymbol hsym) hsym hclauses hbody
      exact (Does.onHeap hv hexpr).bind fun expr ρ' m' hv' hl hexpr => .pure hv' ⟨hexpr, henv.extend hl.heap⟩
    · have hnext : Shape.named.next (m.heap.cells.read operands.payload).car = .exprs := if_neg hsym
      rw [hnext] at hrest
      simp only [if_neg hsym]
      refine (does_clausesOf hv hfirst).bind ?_
      rintro clauses ρ m - - ⟨rfl, rfl, hclauses⟩
      refine (does_cdr hv).bind ?_
      rintro body ρ m - - ⟨rfl, rfl, -, rfl⟩
      have hexpr := does_letExpr hv.typed hlambda hclauses hrest
      exact (Does.onHeap hv hexpr).bind fun expr ρ' m' hv' hl hexpr => .pure hv' ⟨hexpr, henv.extend hl.heap⟩

theorem does_evalBindInOrder (hv : m.Valid ρ) (hop : Fits ρ m.heap (.operands (.scoped .exprs)) operands)
    (hl : m.heap.Lists operands args tail) (henv : Fits ρ m.heap .env env) :
    Does ρ m (evalBindInOrder args operands env m) Step.Fits := by
  match args, hl with
  | [], _ | [_], _ => exact does_raise hv
  | _ :: _ :: _, .cons hp _ =>
    obtain ⟨hbindings, hbody⟩ := hv.typed.operands hop hp
    refine (does_clausesOf hv hbindings).bind ?_
    rintro clauses ρ m - - ⟨rfl, rfl, hclauses⟩
    refine (does_cdr hv).bind ?_
    rintro body ρ m - - ⟨rfl, rfl, -, rfl⟩
    have hexpr := does_letStarExpr hv.typed (hv.symbol (by simp)) hclauses hbody
    exact (Does.onHeap hv hexpr).bind fun expr ρ' m' hv' hl hexpr => .pure hv' ⟨hexpr, henv.extend hl.heap⟩

end Forms

/-! ## Symbols -/

section Symbols

variable {ρ : Roles} {mem : Memory} {m : Machine} {w : Word}

theorem Memory.Valid.insert {i : UInt32} (hv : mem.Valid ρ) (name : ByteArray) (hlive : mem.heap.LiveWord (.symbol i)) :
    Memory.Valid ρ { mem with symbols := mem.symbols.insert name (.symbol i) } :=
  ⟨hv.typed, List.forall_mem_cons.2 ⟨⟨⟨i, rfl⟩, hlive⟩, hv.symbols⟩⟩

theorem SymbolTable.mem_values {t : SymbolTable} {name : ByteArray} (hw : t.get? name = some w) : w ∈ t.values := by
  obtain ⟨entries⟩ := t
  unfold get? at hw
  induction entries with
  | nil => cases hw
  | cons entry entries ih =>
    rw [List.lookup_cons] at hw
    split at hw
    · cases hw
      exact List.mem_cons_self
    · exact List.mem_cons_of_mem _ (ih hw)

structure Interned (w : Word) (ρ : Roles) (mem : Memory) : Prop where
  mem_values : w ∈ mem.symbols.values
  eq_symbol : ∃ i, w = .symbol i
  live : mem.heap.LiveWord w

theorem Memory.Valid.interned (hv : mem.Valid ρ) (hw : w ∈ mem.symbols.values) : Interned w ρ mem :=
  ⟨hw, (hv.symbols w hw).1, (hv.symbols w hw).2⟩

theorem does_intern (hv : mem.Valid ρ) (name : ByteArray) : Does ρ mem (Memory.intern name mem) Interned := by
  unfold Memory.intern
  cases hget : mem.symbols.get? name with
  | some symbol => exact ⟨ρ, hv, .refl .., hv.interned (SymbolTable.mem_values hget)⟩
  | none =>
    dsimp only
    have hmake := Does.memoryOnHeap hv (does_makeString hv.typed name)
    cases hres : Memory.onHeap (Heap.makeString name) mem with
    | error e mem' =>
      rw [hres] at hmake
      exact hmake
    | ok string mem' =>
      rw [hres] at hmake
      obtain ⟨ρ', hv', hl, -, hlive⟩ := hmake
      have hv'' := hv'.insert name hlive
      exact ⟨ρ', hv'', ⟨hl.heap, fun w hw => List.mem_cons_of_mem _ (hl.names w hw)⟩,
        hv''.interned List.mem_cons_self⟩

theorem Word.hasText_of_isSymbol {w : Word} (hw : w.isSymbol) : w.hasText := by simp [hasText, hw]

theorem Word.hasText_of_isString {w : Word} (hw : w.isString) : w.hasText := by simp [hasText, hw]

theorem does_internValue (hv : mem.Valid ρ) (hw : mem.heap.LiveWord w) :
    Does ρ mem (Memory.internValue w mem) Interned := by
  unfold Memory.internValue Heap.stringBytes
  by_cases htext : w.isString || w.isSymbol
  · simp only [if_pos htext]
    cases hget : mem.symbols.get? (mem.heap.strings.read w.payload) with
    | some symbol => exact ⟨ρ, hv, .refl .., hv.interned (SymbolTable.mem_values hget)⟩
    | none =>
      have hlive : mem.heap.LiveWord (.symbol w.payload) := by
        refine ⟨fun hc => ?_, fun _ => ?_⟩
        · rw [Word.not_hasCell_of_hasText (Word.hasText_symbol _)] at hc
          cases hc
        · rw [Word.payload_symbol]
          rw [Bool.or_eq_true] at htext
          exact hw.text (htext.elim Word.hasText_of_isString Word.hasText_of_isSymbol)
      have hv' := hv.insert (mem.heap.strings.read w.payload) hlive
      exact ⟨ρ, hv', ⟨.refl _ _, fun w hw => List.mem_cons_of_mem _ hw⟩, hv'.interned List.mem_cons_self⟩
  · simp only [if_neg htext]
    exact ⟨ρ, hv, .refl ..⟩

theorem Interned.fits {r : Role} (hw : Interned w ρ mem) : Fits ρ mem.heap r w := by
  obtain ⟨i, rfl⟩ := hw.eq_symbol
  exact .of_not_hasCell hw.live (by simp [Word.not_hasCell_of_hasText (Word.hasText_symbol i)])

end Symbols

/-! ## Procedures -/

section Procedures

variable {ρ : Roles} {m : Machine} {w : Word} {r : Role}

theorem Word.isImmediate_number (x : Double) : (number x).isImmediate := by
  have hne {t : UInt64} (ht : isReservedTag t) : (number x).tag ≠ t := tag_ne_of_isNumber (isNumber_number x) ht
  have hpair := hne (t := 0xfffc) (by decide)
  have hclosure := hne (t := 0xffff) (by decide)
  have hsymbol := hne (t := 0xfffa) (by decide)
  have hstring := hne (t := 0xfffb) (by decide)
  simp [isImmediate, hasCell, hasText, isPair, isClosure, isSymbol, isString, hpair, hclosure, hsymbol, hstring]

theorem Word.isImmediate_boolean (b : Bool) : (boolean b).isImmediate := by
  cases b <;> decide

theorem Word.isImmediate_char (c : Char) : (char c).isImmediate := by
  simp [isImmediate, hasCell, hasText, isPair, isClosure, isSymbol, isString]

def Immediate (x : Except Error Word) : Prop := ∀ v, x = .ok v → v.isImmediate

theorem Immediate.pure (hw : w.isImmediate) : Immediate (pure w) := by
  rintro v ⟨⟩
  exact hw

theorem Immediate.throw {e : Error} : Immediate (throw e) := by
  rintro v ⟨⟩

theorem Immediate.bind {α : Type} {x : Except Error α} {f : α → Except Error Word} (hf : ∀ a, Immediate (f a)) :
    Immediate (x >>= f) := by
  intro v hv
  cases hx : x with
  | error e =>
    rw [hx] at hv
    cases hv
  | ok a =>
    rw [hx] at hv
    exact hf a v hv

theorem Immediate.map {α : Type} {x : Except Error α} {f : α → Word} (hf : ∀ a, (f a).isImmediate) :
    Immediate (f <$> x) := by
  rintro v hv
  cases hx : x with
  | error e =>
    rw [hx] at hv
    cases hv
  | ok a =>
    rw [hx] at hv
    cases hv
    exact hf a

theorem immediate_lengthOf (h : Heap) (procedure : String) (list : Word) :
    Immediate (Primitive.lengthOf h procedure list) := by
  unfold Primitive.lengthOf
  refine .bind fun tail => ?_
  split
  · exact .bind fun _ => .bind fun _ => .pure (Word.isImmediate_number _)
  · exact .bind fun _ => .pure (Word.isImmediate_number _)

theorem immediate_charAt (h : Heap) (procedure : String) (string index : Word) :
    Immediate (Strings.charAt h procedure string index) := by
  refine .bind fun text => .bind fun k => ?_
  dsimp only
  generalize (if k < 0 then none else text.toList[k.toNat]?) = found
  cases found with
  | some c => exact .pure (Word.isImmediate_char c)
  | none => exact .throw

theorem immediate_toNumber (h : Heap) (procedure : String) (string : Word) (radix? : Option Word) :
    Immediate (Strings.toNumber h procedure string radix?) := by
  refine .bind fun text => ?_
  dsimp only
  split <;> refine .bind fun radix => ?_
  all_goals
    -- However the radix reads the text, the answer is a number or false.
    split_ifs
    all_goals
      refine .bind fun value => .pure ?_
      cases value with
      | some x => exact Word.isImmediate_number x
      | none => decide

theorem does_found {x : Except Error Word} (hv : m.Valid ρ) (hx : Immediate x) :
    Does ρ m (Eval.ofExcept x m) (Gives r) :=
  .ofExcept hv fun v hval => .of_isImmediate (hx v hval)

theorem does_newString (hv : m.Valid ρ) (text : String) : Does ρ m (Primitive.newString text m) (Gives .data) :=
  (Does.onHeap hv (does_makeString hv.typed _)).imp fun _ _ _ _ hw => hw.1

theorem does_print (hv : m.Valid ρ) (piece : String) :
    Does ρ m (Eval.print piece m) fun _ _ _ => True :=
  ⟨ρ, ⟨hv.memory, hv.roots, hv.globalEnv, hv.core⟩, ⟨.refl _ _, fun _ hw => hw⟩, trivial⟩

/-- A missing argument counts as unspecified. -/
theorem Fits.getD {h : Heap} {args : Array Word} (hargs : ∀ w ∈ args.toList, Fits ρ h .data w) (i : Nat) :
    Fits ρ h .data (args.getD i .unspecified) := by
  by_cases hi : i < args.size
  · rw [Array.getD, dif_pos hi]
    exact hargs _ (Array.getElem_mem_toList hi)
  · rw [Array.getD, dif_neg hi]
    exact .of_isImmediate (by decide)

/-- Procedures take data to data. -/
theorem does_call (hv : m.Valid ρ) (p : Primitive) (name : String) {args : Array Word}
    (hargs : ∀ w ∈ args.toList, Fits ρ m.heap .data w) : Does ρ m (p.call name args m) (Gives .data) := by
  have hget (i : Nat) : Fits ρ m.heap .data (args.getD i .unspecified) := .getD hargs i
  have hdone {m' : Machine} {ρ' : Roles} (hv' : m'.Valid ρ') :
      Does ρ' m' ((pure Word.unspecified : Eval Word) m') (Gives .data) := .pure hv' (.of_isImmediate (by decide))
  have hcell (hp : (args.getD 0 .unspecified).isPair) := hv.typed.pair (hget 0) hp
  cases p with
  | car =>
    refine (does_car hv).imp ?_
    rintro _ _ _ - ⟨rfl, rfl, hp, rfl⟩
    obtain ⟨_, _, hs, hcar, -⟩ := hcell hp
    cases hs
    exact hcar
  | cdr =>
    refine (does_cdr hv).imp ?_
    rintro _ _ _ - ⟨rfl, rfl, hp, rfl⟩
    obtain ⟨_, _, hs, -, hcdr⟩ := hcell hp
    cases hs
    exact hcdr
  | cons => exact does_evalCons hv (.data _) (hget 0) (hget 1)
  | setCar =>
    refine (does_updatePair hv (hget 0) (fun _ hr => hr) fun hp => ?_).bind fun _ _ _ hv' _ _ => hdone hv'
    obtain ⟨_, _, hs, -, hcdr⟩ := hcell hp
    cases hs
    exact ⟨_, _, .data _, hget 1, hcdr⟩
  | setCdr =>
    refine (does_updatePair hv (hget 0) (fun _ hr => hr) fun hp => ?_).bind fun _ _ _ hv' _ _ => hdone hv'
    obtain ⟨_, _, hs, hcar, -⟩ := hcell hp
    cases hs
    exact ⟨_, _, .data _, hcar, hget 1⟩
  | list => exact .onHeap hv (does_listOf hv.typed (.ofData hargs))
  | length => exact does_found hv (immediate_lengthOf _ _ _)
  | newline => exact (does_print hv _).bind fun _ _ _ hv' _ _ => hdone hv'
  | display | write => exact (does_print hv _).bind fun _ _ _ hv' _ _ => hdone hv'
  | numberToString =>
    refine (Does.ofExcept hv fun _ _ => trivial : Does ρ m _ fun _ _ _ => True).bind fun x ρ' m' hv' _ _ => ?_
    exact does_newString hv' _
  | stringLength => exact does_found hv (.bind fun _ => .pure (Word.isImmediate_number _))
  | stringRef => exact does_found hv (immediate_charAt _ _ _ _)
  | stringToNumber => exact does_found hv (immediate_toNumber _ _ _ _)
  | stringEq => exact does_found hv (.bind fun _ => .bind fun _ => .pure (Word.isImmediate_boolean _))
  | substring =>
    refine (Does.ofExcept hv fun _ _ => trivial : Does ρ m _ fun _ _ _ => True).bind fun x ρ' m' hv' _ _ => ?_
    exact does_newString hv' _
  | symbolToString =>
    dsimp only [Primitive.call, Primitive.callWith]
    cases (args.getD 0 .unspecified).symbolString? with
    | some string =>
      refine (Does.inspect hv fun _ _ => trivial : Does ρ m _ fun _ _ _ => True).bind fun x ρ' m' hv' _ _ => ?_
      exact (Does.onHeap hv' (does_makeString hv'.typed _)).imp fun _ _ _ _ hw => hw.1
    | none => exact does_raise hv
  | stringToSymbol =>
    refine (Does.ofExcept hv fun _ _ => ⟨rfl, rfl⟩ : Does ρ m _ fun _ ρ' m' => ρ' = ρ ∧ m' = m).bind ?_
    rintro _ _ _ - - ⟨rfl, rfl⟩
    exact (Does.onMemory hv (does_internValue hv.memory (hget 0).live)).imp fun _ _ _ _ hw => hw.fits
  | apply | load => exact does_raise hv
  | isProcedure | isNull | isBoolean | isEof | isSymbol | isString | isPair | isChar | isNumber | not | isEq | isEqv =>
    exact .pure hv (.of_isImmediate (Word.isImmediate_boolean _))
  | add | mul | sub | div | quotient | modulo | max | min => exact does_found hv (.map Word.isImmediate_number)
  | isZero | compareNumbers | compareChars => exact does_found hv (.map Word.isImmediate_boolean)

end Procedures

end BoxedScheme
