import BoxedScheme.Proofs.Room
import BoxedScheme.Reader

/-!
# What reading costs

Reading adds to memory and touches nothing that is there, whether it succeeds or not. What an open frame still owes is
set aside when its token is taken, so a fixed allowance for each token is enough.

* `Memory.Kept m m'` : everything that was live, rooted or named in `m` is the same in `m'`;
* `Memory.Affords m c s` : there are so many free cells and string slots;
* `Pays m r c s c' s'` : with an allowance of `c` cells and `s` strings an operation does not run out, and leaves the
  allowance `c'`, `s'`;
* `pays_shift` : two cells and a string for each token;
* `pays_readTokens` : reading keeps everything, and runs out of memory only where that allowance is not there.
-/

namespace BoxedScheme

/-! ## What is kept -/

namespace Memory

variable {m m' m'' : Memory}

/-- Everything that was there is there and the same. -/
structure Kept (m m' : Memory) : Prop where
  sound : m'.Sound
  cells : m.heap.cells.KeptBy m'.heap.cells
  strings : m.heap.strings.KeptBy m'.heap.strings
  capacity : m'.heap.cells.capacity = m.heap.cells.capacity
  /-- The root stack and everything else that is not in a pool. -/
  rest : m'.heap = { m.heap with cells := m'.heap.cells, strings := m'.heap.strings }
  names : m.Remembers m'

theorem Sound.kept (hm : m.Sound) : m.Kept m := ⟨hm, .refl _, .refl _, rfl, rfl, .refl _⟩

theorem Kept.trans (h : m.Kept m') (h' : m'.Kept m'') : m.Kept m'' where
  sound := h'.sound
  cells := h.cells.trans h'.cells
  strings := h.strings.trans h'.strings
  capacity := h'.capacity.trans h.capacity
  rest := by rw [h'.rest, h.rest]
  names := h.names.trans h'.names

theorem Sound.kept_fill_cell (hm : m.Sound) {i : UInt32} (hnext : m.heap.cells.next? = some i) (cell : Cell) :
    m.Kept ⟨{ m.heap with cells := m.heap.cells.fill i cell }, m.symbols⟩ where
  sound := ⟨⟨hm.heap.cells.fill hnext cell, hm.heap.strings⟩, hm.named.sameTexts ⟨rfl, rfl⟩⟩
  cells := hm.heap.cells.keptBy_fill hnext cell
  strings := .refl _
  capacity := Array.size_setIfInBounds
  rest := rfl
  names := .refl _

theorem Sound.kept_fill_string (hm : m.Sound) {i : UInt32} (hnext : m.heap.strings.next? = some i) (bytes : ByteArray) :
    m.Kept ⟨{ m.heap with strings := m.heap.strings.fill i bytes }, m.symbols⟩ where
  sound := ⟨⟨hm.heap.cells, hm.heap.strings.fill hnext bytes⟩, hm.named.fill_string hnext bytes⟩
  cells := .refl _
  strings := hm.heap.strings.keptBy_fill hnext bytes
  capacity := rfl
  rest := rfl
  names := .refl _

/-- A name that is interned in a new slot. -/
theorem Sound.kept_intern (hm : m.Sound) {i : UInt32} {name : ByteArray} (hnew : m.symbols.get? name = none)
    (hnext : m.heap.strings.next? = some i) :
    m.Kept ⟨{ m.heap with strings := m.heap.strings.fill i name }, m.symbols.insert name (.symbol i)⟩ := by
  have hok := intern_apply_new hnew
  rw [hnext] at hok
  exact { hm.kept_fill_string hnext name with
    sound := ⟨⟨hm.heap.cells, hm.heap.strings.fill hnext name⟩, hm.named.intern hok⟩
    names := fun _ _ => SymbolTable.get?_insert_of_get? hnew }

def Affords (m : Memory) (c s : Nat) : Prop := c ≤ m.heap.cells.freeCount ∧ s ≤ m.heap.strings.freeCount

end Memory

/-! ## Allowances -/

def Fault.IsExhaustion : Fault → Prop
  | .outOfCells _ => True
  | .outOfStrings _ => True
  | _ => False

/-- An operation keeps memory. Of an allowance of `c` cells and `s` strings it leaves at least `c'` and `s'`, and where
memory affords the allowance it does not fail. It fails only by running out of memory. -/
def Pays {α : Type} (m : Memory) (r : EStateM.Result Fault Memory α) (c s : Nat) (c' s' : α → Nat) : Prop :=
  match r with
  | .ok a m' => m.Kept m' ∧ m.heap.cells.freeCount + c' a ≤ m'.heap.cells.freeCount + c ∧
    m.heap.strings.freeCount + s' a ≤ m'.heap.strings.freeCount + s
  | .error fault m' => m.Kept m' ∧ fault.IsExhaustion ∧ ¬ m.Affords c s

section Pays

variable {α β : Type} {m : Memory} {c s : Nat} {c₁ s₁ : α → Nat} {c₂ s₂ : β → Nat}

theorem Pays.bind {x : MemoryM α} {f : α → MemoryM β} (hx : Pays m (x m) c s c₁ s₁)
    (hf : ∀ a m', m'.Sound → Pays m' (f a m') (c₁ a) (s₁ a) c₂ s₂) : Pays m ((x >>= f) m) c s c₂ s₂ := by
  show Pays m (EStateM.bind x f m) c s c₂ s₂
  unfold EStateM.bind
  cases hxm : x m with
  | error fault m' =>
    rw [hxm] at hx
    exact hx
  | ok a m' =>
    rw [hxm] at hx
    obtain ⟨hkept, hcells, hstrings⟩ := hx
    have hfa := hf a m' hkept.sound
    show Pays m (f a m') c s c₂ s₂
    cases hres : f a m' with
    | error fault m'' =>
      rw [hres] at hfa
      refine ⟨hkept.trans hfa.1, hfa.2.1, fun hroom => hfa.2.2 ⟨?_, ?_⟩⟩
      · exact Nat.le_of_add_le_add_left (Nat.le_trans hcells (Nat.add_comm c _ ▸ Nat.add_le_add_right hroom.1 _))
      · exact Nat.le_of_add_le_add_left (Nat.le_trans hstrings (Nat.add_comm s _ ▸ Nat.add_le_add_right hroom.2 _))
    | ok b m'' =>
      rw [hres] at hfa
      obtain ⟨hkept', hcells', hstrings'⟩ := hfa
      exact ⟨hkept.trans hkept', by omega, by omega⟩

theorem Pays.pure (hm : m.Sound) {a : α} (hc : c₁ a ≤ c) (hs : s₁ a ≤ s) :
    Pays m ((Pure.pure a : MemoryM α) m) c s c₁ s₁ :=
  ⟨hm.kept, Nat.add_le_add_left hc _, Nat.add_le_add_left hs _⟩

/-- A larger allowance is enough too. -/
theorem Pays.of_le {r : EStateM.Result Fault Memory α} {c₀ s₀ : Nat} (h : Pays m r c₀ s₀ c₁ s₁) (hc : c₀ ≤ c)
    (hs : s₀ ≤ s) : Pays m r c s c₁ s₁ := by
  cases r with
  | ok a m' =>
    obtain ⟨hkept, hcells, hstrings⟩ := h
    exact ⟨hkept, by omega, by omega⟩
  | error fault m' =>
    obtain ⟨hkept, hfault, hroom⟩ := h
    exact ⟨hkept, hfault, fun hall => hroom ⟨Nat.le_trans hc hall.1, Nat.le_trans hs hall.2⟩⟩

theorem pays_cons (hm : m.Sound) (a d : Word) :
    Pays m (Memory.onHeap (Heap.cons a d) m) (c + 1) s (fun _ => c) fun _ => s := by
  obtain ⟨h, symbols⟩ := m
  unfold Memory.onHeap
  simp only [Heap.cons_apply]
  cases hnext : h.cells.next? with
  | none =>
    refine ⟨hm.kept, trivial, fun hroom => ?_⟩
    obtain ⟨i, hi⟩ := Pool.exists_next (Nat.lt_of_lt_of_le (Nat.succ_pos c) hroom.1)
    rw [hnext] at hi
    cases hi
  | some i =>
    refine ⟨hm.kept_fill_cell hnext _, ?_, Nat.le_refl _⟩
    have hfree := Pool.freeCount_fill hnext (⟨a, d⟩ : Cell)
    dsimp only
    omega

theorem not_affords_of_next {h : Heap} {symbols : SymbolTable} (hnext : h.strings.next? = none) :
    ¬ Memory.Affords ⟨h, symbols⟩ c (s + 1) := by
  intro hroom
  obtain ⟨i, hi⟩ := Pool.exists_next (Nat.lt_of_lt_of_le (Nat.succ_pos s) hroom.2)
  rw [hnext] at hi
  cases hi

theorem pays_makeString (hm : m.Sound) (bytes : ByteArray) :
    Pays m (Memory.onHeap (Heap.makeString bytes) m) c (s + 1) (fun _ => c) fun _ => s := by
  obtain ⟨h, symbols⟩ := m
  unfold Memory.onHeap
  simp only [Heap.makeString_apply]
  cases hnext : h.strings.next? with
  | none => exact ⟨hm.kept, trivial, not_affords_of_next hnext⟩
  | some i =>
    refine ⟨hm.kept_fill_string hnext _, Nat.le_refl _, ?_⟩
    have hfree := Pool.freeCount_fill hnext bytes
    dsimp only
    omega

theorem pays_intern (hm : m.Sound) (name : ByteArray) :
    Pays m (Memory.intern name m) c (s + 1) (fun _ => c) fun _ => s := by
  cases hget : m.symbols.get? name with
  | some w =>
    rw [Memory.intern_of_get? hget]
    exact ⟨hm.kept, Nat.le_refl _, Nat.add_le_add_left (Nat.le_succ s) _⟩
  | none =>
    rw [Memory.intern_apply_new hget]
    cases hnext : m.heap.strings.next? with
    | none => exact ⟨hm.kept, trivial, not_affords_of_next hnext⟩
    | some i =>
      refine ⟨hm.kept_intern hget hnext, Nat.le_refl _, ?_⟩
      have hfree := Pool.freeCount_fill hnext name
      dsimp only
      omega

theorem pays_consAll (hm : m.Sound) (items : List Word) (tail : Word) :
    Pays m (Memory.onHeap (Heap.consAll items tail) m) (c + items.length) s (fun _ => c) fun _ => s := by
  induction items generalizing m tail with
  | nil => exact ⟨hm.kept, Nat.le_refl _, Nat.le_refl _⟩
  | cons item items ih =>
    have hsplit : Memory.onHeap (Heap.consAll (item :: items) tail) m =
        (Memory.onHeap (Heap.cons item tail) >>= fun pair => Memory.onHeap (Heap.consAll items pair)) m := by
      obtain ⟨h, symbols⟩ := m
      show _ = EStateM.bind _ _ _
      unfold EStateM.bind Memory.onHeap
      dsimp only
      rw [Heap.consAll_cons_apply]
      cases Heap.cons item tail h <;> rfl
    rw [hsplit]
    exact (pays_cons hm item tail).bind fun pair m' hm' => ih hm' pair

end Pays

/-! ## Reading -/

namespace Reader

/-- The cells that a frame will take: a quote takes two, a list one for each element. -/
def Frame.owedCells : Frame → Nat
  | .quote _ => 2
  | .list _ items => items.length
  | .dotted _ items _ => items.length
  | .closing _ items _ => items.length

/-- A quote may need a slot for the name `quote`. -/
def Frame.owedStrings : Frame → Nat
  | .quote _ => 1
  | _ => 0

def owedCells (frames : List Frame) : Nat := (frames.map Frame.owedCells).sum

def owedStrings (frames : List Frame) : Nat := (frames.map Frame.owedStrings).sum

def Progress.owed (owed : List Frame → Nat) : Progress → Nat
  | .more frames => owed frames
  | _ => 0

variable {m : Memory}

theorem pays_complete (hm : m.Sound) (frames : List Frame) (start : Location) (datum : Word) :
    Pays m (complete frames start datum m) (owedCells frames + 1) (owedStrings frames) (Progress.owed owedCells)
      (Progress.owed owedStrings) := by
  induction frames generalizing m start datum with
  | nil => exact .pure hm (Nat.zero_le _) (Nat.zero_le _)
  | cons frame frames ih =>
    simp only [owedCells, owedStrings, List.map_cons, List.sum_cons] at ih ⊢
    cases frame with
    | quote start' =>
      simp only [Frame.owedCells, Frame.owedStrings]
      refine ((pays_intern hm _).bind fun quote m₁ hm₁ => (pays_cons hm₁ datum .nil).bind fun tail m₂ hm₂ =>
        (pays_cons hm₂ quote tail).bind fun pair m₃ hm₃ => ih hm₃ start' pair).of_le ?_ ?_
      · omega
      · omega
    | list start' items =>
      refine .pure hm ?_ ?_
      · simp only [Progress.owed, owedCells, List.map_cons, List.sum_cons, Frame.owedCells, List.length_cons]
        omega
      · simp [Progress.owed, owedStrings, Frame.owedStrings]
    | dotted start' items dot =>
      refine .pure hm ?_ ?_
      · simp only [Progress.owed, owedCells, List.map_cons, List.sum_cons, Frame.owedCells]
        omega
      · simp [Progress.owed, owedStrings, Frame.owedStrings]
    | closing => exact .pure hm (Nat.zero_le _) (Nat.zero_le _)

theorem pays_close (hm : m.Sound) (loc : Location) (frames : List Frame) :
    Pays m (close loc frames m) (owedCells frames + 1) (owedStrings frames) (Progress.owed owedCells)
      (Progress.owed owedStrings) := by
  cases frames with
  | nil => exact .pure hm (Nat.zero_le _) (Nat.zero_le _)
  | cons frame frames =>
    have hbuild (start : Location) (items : List Word) (tail : Word) :
        Pays m ((Memory.onHeap (Heap.consAll items tail) >>= complete frames start) m)
          (items.length + owedCells frames + 1) (owedStrings frames) (Progress.owed owedCells)
          (Progress.owed owedStrings) := by
      refine ((pays_consAll hm items tail).bind fun w m' hm' => pays_complete hm' frames start w).of_le ?_ (Nat.le_refl _)
      omega
    simp only [owedCells, owedStrings, List.map_cons, List.sum_cons] at hbuild ⊢
    cases frame with
    | quote | dotted => exact .pure hm (Nat.zero_le _) (Nat.zero_le _)
    | list start items => exact (hbuild start items .nil).of_le (Nat.le_refl _) (Nat.le_add_left _ _)
    | closing start items tail => exact (hbuild start items tail).of_le (Nat.le_refl _) (Nat.le_add_left _ _)

theorem owed_finish (owed : List Frame → Nat) (loc : Location) (frames : List Frame) :
    (finish loc frames).owed owed = 0 := by
  unfold finish
  split <;> rfl

/-- A dot changes nothing about what is owed. -/
theorem owed_shiftDot (loc : Location) (frames : List Frame) :
    (shiftDot loc frames).owed owedCells ≤ owedCells frames ∧
      (shiftDot loc frames).owed owedStrings ≤ owedStrings frames := by
  unfold shiftDot
  split
  case h_4 => exact ⟨Nat.le_refl _, Nat.le_refl _⟩
  all_goals exact ⟨Nat.zero_le _, Nat.zero_le _⟩

theorem pays_shift (hm : m.Sound) (frames : List Frame) (lexeme : Lexeme) :
    Pays m (shift frames lexeme m) (owedCells frames + 2) (owedStrings frames + 1) (Progress.owed owedCells)
      (Progress.owed owedStrings) := by
  have hcomplete (start : Location) (w : Word) (m' : Memory) (hm' : m'.Sound) :
      Pays m' (complete frames start w m') (owedCells frames + 1) (owedStrings frames) (Progress.owed owedCells)
        (Progress.owed owedStrings) := pays_complete hm' frames start w
  unfold shift
  split
  · exact .pure hm (Nat.zero_le _) (Nat.zero_le _)
  generalize lexeme.token = token
  cases token with
  | endOfFile => exact .pure hm (owed_finish .. ▸ Nat.zero_le _) (owed_finish .. ▸ Nat.zero_le _)
  | rightParen => exact (pays_close hm _ frames).of_le (Nat.le_succ _) (Nat.le_succ _)
  | dot =>
    obtain ⟨hcells, hstrings⟩ := owed_shiftDot lexeme.location frames
    exact .pure hm (Nat.le_add_right_of_le hcells) (Nat.le_add_right_of_le hstrings)
  | leftParen =>
    refine .pure hm ?_ ?_
    · simp [Progress.owed, owedCells, Frame.owedCells]
    · simp [Progress.owed, owedStrings, Frame.owedStrings]
  | quote =>
    refine .pure hm ?_ ?_
    · simp [Progress.owed, owedCells, Frame.owedCells, Nat.add_comm]
    · simp [Progress.owed, owedStrings, Frame.owedStrings, Nat.add_comm]
  | boolean | number | char => exact (hcomplete _ _ m hm).of_le (Nat.le_succ _) (Nat.le_succ _)
  | string text =>
    exact ((pays_makeString hm _).bind fun w m' hm' => hcomplete _ w m' hm').of_le (Nat.le_succ _) (Nat.le_refl _)
  | symbol name =>
    exact ((pays_intern hm _).bind fun w m' hm' => hcomplete _ w m' hm').of_le (Nat.le_succ _) (Nat.le_refl _)

/-- Whatever comes of it, reading keeps what is there. It fails because of what it reads, or because memory does not
afford two cells and a string for each token on top of what is owed. -/
theorem pays_readTokens (hm : m.Sound) (frames : List Frame) (lexemes : List Lexeme) :
    m.Kept (readTokens frames lexemes m).2 ∧
      ∀ e, (readTokens frames lexemes m).1.1 = .error e → (∃ error, e = .read error) ∨
        (∃ fault : Fault, fault.IsExhaustion ∧ e = .ofFault fault) ∧
          ¬ m.Affords (owedCells frames + 2 * lexemes.length) (owedStrings frames + lexemes.length) := by
  induction lexemes generalizing frames m with
  | nil => exact ⟨hm.kept, fun e he => by cases he⟩
  | cons lexeme rest ih =>
    have hshift := pays_shift hm frames lexeme
    rw [List.length_cons]
    unfold readTokens
    cases hres : shift frames lexeme m with
    | error fault m' =>
      rw [hres] at hshift
      obtain ⟨hkept, hfault, hroom⟩ := hshift
      refine ⟨hkept, fun e he => .inr ⟨⟨fault, hfault, ?_⟩, fun hall => hroom ⟨?_, ?_⟩⟩⟩
      · exact (Except.error.inj he).symm
      · exact Nat.le_trans (by omega) hall.1
      · exact Nat.le_trans (by omega) hall.2
    | ok progress m' =>
      rw [hres] at hshift
      obtain ⟨hkept, hcells, hstrings⟩ := hshift
      cases progress with
      | done datum => exact ⟨hkept, fun e he => by cases he⟩
      | failed error => exact ⟨hkept, fun e he => .inl ⟨error, (Except.error.inj he).symm⟩⟩
      | more frames' =>
        obtain ⟨hkept', herror⟩ := ih hkept.sound frames'
        refine ⟨hkept.trans hkept', fun e he => (herror e he).imp_right ?_⟩
        rintro ⟨hfault, hroom⟩
        refine ⟨hfault, fun hall => hroom ⟨?_, ?_⟩⟩
        · have := hall.1
          simp only [Progress.owed] at hcells
          omega
        · have := hall.2
          simp only [Progress.owed] at hstrings
          omega

end Reader

end BoxedScheme
