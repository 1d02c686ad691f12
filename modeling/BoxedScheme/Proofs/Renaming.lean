import Mathlib.Algebra.Group.End
import BoxedScheme.Proofs.Heaps

/-!
# Heaps that differ in the names of their slots

* `Renaming` : one permutation of the cells and one of the string slots; it acts on words, cells and spines;
* `Link` : a renaming with the slots it has been fixed for, and `Link.Matches k h h'` : on those slots `h'` is
  `h` renamed;
* `Matches.alloc`, `Matches.update`, `Matches.makeString`, `Matches.follow` : each kind of access keeps the match,
  an allocation after extending the link by the two new slots.
-/

namespace BoxedScheme

/-! ## Renaming words -/

/-- New names for the slots of both pools. -/
structure Renaming where
  cells : Equiv.Perm UInt32
  strings : Equiv.Perm UInt32

namespace Word

def rename (ρ : Renaming) (w : Word) : Word :=
  if w.hasCell then w.withPayload (ρ.cells w.payload)
  else if w.hasText then w.withPayload (ρ.strings w.payload)
  else w

variable (ρ : Renaming) (w : Word)

@[simp] theorem tag_rename : (w.rename ρ).tag = w.tag := by
  unfold rename
  split_ifs <;> simp

@[simp] theorem isPair_rename : (w.rename ρ).isPair = w.isPair := by simp [isPair]
@[simp] theorem isClosure_rename : (w.rename ρ).isClosure = w.isClosure := by simp [isClosure]
@[simp] theorem isSymbol_rename : (w.rename ρ).isSymbol = w.isSymbol := by simp [isSymbol]
@[simp] theorem isString_rename : (w.rename ρ).isString = w.isString := by simp [isString]
@[simp] theorem isNull_rename : (w.rename ρ).isNull = w.isNull := by simp [isNull]

theorem typeName_ite {c : Prop} [Decidable c] {a a' b b' : Kind} (ha : a.typeName = a'.typeName)
    (hb : b.typeName = b'.typeName) : (if c then a else b).typeName = (if c then a' else b').typeName := by
  split
  · exact ha
  · exact hb

/-- The class of a word is told by its tag alone. -/
theorem typeName_congr {v w : Word} (h : v.tag = w.tag) : v.typeName = w.typeName := by
  unfold typeName kind isNumber
  rw [h]
  iterate 14 refine typeName_ite rfl ?_
  rfl

@[simp] theorem typeName_rename : (w.rename ρ).typeName = w.typeName := typeName_congr (tag_rename ρ w)

variable {ρ w}

theorem payload_rename_cell (h : w.hasCell) : (w.rename ρ).payload = ρ.cells w.payload := by
  rw [rename, if_pos h, payload_withPayload]

theorem payload_rename_text (h : w.hasText) : (w.rename ρ).payload = ρ.strings w.payload := by
  rw [rename, if_neg (by simp [not_hasCell_of_hasText h]), if_pos h, payload_withPayload]

theorem rename_of_isImmediate (h : w.isImmediate) : w.rename ρ = w := by
  simp only [isImmediate, Bool.and_eq_true, Bool.not_eq_true'] at h
  simp [rename, h]

theorem rename_pair (i : UInt32) : (pair i).rename ρ = pair (ρ.cells i) := by
  rw [rename, if_pos (hasCell_pair i), payload_pair]
  exact withPayload_tagged (by decide) i _

theorem rename_closure (i : UInt32) : (closure i).rename ρ = closure (ρ.cells i) := by
  rw [rename, if_pos (hasCell_closure i), payload_closure]
  exact withPayload_tagged (by decide) i _

theorem rename_string (i : UInt32) : (string i).rename ρ = string (ρ.strings i) := by
  rw [rename, if_neg (by simp [not_hasCell_of_hasText]), if_pos (hasText_string i), payload_string]
  exact withPayload_tagged (by decide) i _

theorem rename_one (w : Word) : w.rename ⟨1, 1⟩ = w := by
  unfold rename
  split_ifs
  · exact withPayload_payload w
  · exact withPayload_payload w
  · rfl

end Word

def Cell.rename (ρ : Renaming) (cell : Cell) : Cell := ⟨cell.car.rename ρ, cell.cdr.rename ρ⟩

def Heap.Spine.rename (ρ : Renaming) (s : Heap.Spine) : Heap.Spine := ⟨s.items.map (Word.rename ρ), s.tail.rename ρ⟩

/-! ## Links -/

/-- A renaming with the slots that it is fixed for. -/
structure Link extends Renaming where
  hasCell : UInt32 → Prop
  hasText : UInt32 → Prop

namespace Link

/-- The link is fixed for the slot that the word refers to, if any. -/
structure Covers (k : Link) (w : Word) : Prop where
  cell : w.hasCell → k.hasCell w.payload
  text : w.hasText → k.hasText w.payload

theorem Covers.of_isImmediate {k : Link} {w : Word} (h : w.isImmediate) : k.Covers w := by
  simp only [Word.isImmediate, Bool.and_eq_true, Bool.not_eq_true'] at h
  exact ⟨fun hc => absurd hc (by simp [h.1]), fun ht => absurd ht (by simp [h.2])⟩

/-- The second link is fixed for more slots and renames the first one's alike. -/
structure Extends (k k' : Link) : Prop where
  hasCell : ∀ i, k.hasCell i → k'.hasCell i
  hasText : ∀ i, k.hasText i → k'.hasText i
  cells : ∀ i, k.hasCell i → k'.cells i = k.cells i
  strings : ∀ i, k.hasText i → k'.strings i = k.strings i

theorem Extends.refl (k : Link) : k.Extends k := ⟨fun _ h => h, fun _ h => h, fun _ _ => rfl, fun _ _ => rfl⟩

theorem Extends.trans {k k' k'' : Link} (h : k.Extends k') (h' : k'.Extends k'') : k.Extends k'' where
  hasCell i hi := h'.hasCell i (h.hasCell i hi)
  hasText i hi := h'.hasText i (h.hasText i hi)
  cells i hi := (h'.cells i (h.hasCell i hi)).trans (h.cells i hi)
  strings i hi := (h'.strings i (h.hasText i hi)).trans (h.strings i hi)

theorem Covers.extend {k k' : Link} {w : Word} (hw : k.Covers w) (h : k.Extends k') : k'.Covers w :=
  ⟨fun hc => h.hasCell _ (hw.cell hc), fun ht => h.hasText _ (hw.text ht)⟩

/-- A covered word keeps its new name. -/
theorem Extends.rename {k k' : Link} (h : k.Extends k') {w : Word} (hw : k.Covers w) :
    w.rename k'.toRenaming = w.rename k.toRenaming := by
  unfold Word.rename
  split_ifs with hc ht
  · rw [h.cells _ (hw.cell hc)]
  · rw [h.strings _ (hw.text ht)]
  · rfl

theorem Extends.map_rename {k k' : Link} (h : k.Extends k') {ws : List Word} (hws : ∀ w ∈ ws, k.Covers w) :
    ws.map (Word.rename k'.toRenaming) = ws.map (Word.rename k.toRenaming) :=
  List.map_congr_left fun w hw => h.rename (hws w hw)

/-- On the slots of the link the second heap is the first one renamed. -/
structure Matches (k : Link) (h h' : Heap) : Prop where
  sound : h.Sound
  sound' : h'.Sound
  capacity : h'.cells.capacity = h.cells.capacity
  rootCapacity : h'.rootCapacity = h.rootCapacity
  /-- The second heap is not exhausted before the first. -/
  free : h.cells.freeCount ≤ h'.cells.freeCount
  freeText : h.strings.freeCount ≤ h'.strings.freeCount
  live : ∀ i, k.hasCell i → h.cells.IsLive i ∧ h'.cells.IsLive (k.cells i)
  read : ∀ i, k.hasCell i → h'.cells.read (k.cells i) = (h.cells.read i).rename k.toRenaming
  held : ∀ i, k.hasCell i → k.Covers (h.cells.read i).car ∧ k.Covers (h.cells.read i).cdr
  liveText : ∀ i, k.hasText i → h.strings.IsLive i ∧ h'.strings.IsLive (k.strings i)
  readText : ∀ i, k.hasText i → h'.strings.read (k.strings i) = h.strings.read i
  roots : h'.roots = h.roots.map (Word.rename k.toRenaming)
  rooted : ∀ w ∈ h.roots, k.Covers w

variable {k : Link} {h h' : Heap}

/-! ## Allocation -/

def withCell (k : Link) (i j : UInt32) : Link where
  cells := Equiv.swap (k.cells i) j * k.cells
  strings := k.strings
  hasCell n := n = i ∨ k.hasCell n
  hasText := k.hasText

def withText (k : Link) (i j : UInt32) : Link where
  cells := k.cells
  strings := Equiv.swap (k.strings i) j * k.strings
  hasCell := k.hasCell
  hasText n := n = i ∨ k.hasText n

/-- Exchanging two names that are not in use renames nothing that is. -/
theorem swap_apply_of_unused {σ : Equiv.Perm UInt32} {i j n : UInt32} (hi : n ≠ i) (hj : σ n ≠ j) :
    (Equiv.swap (σ i) j * σ) n = σ n := by
  rw [Equiv.Perm.mul_apply, Equiv.swap_apply_of_ne_of_ne (fun he => hi (σ.injective he)) hj]

theorem extends_withCell {i j : UInt32} (hi : ¬ k.hasCell i) (hj : ∀ n, k.hasCell n → k.cells n ≠ j) :
    k.Extends (k.withCell i j) where
  hasCell _ hn := .inr hn
  hasText _ hn := hn
  cells n hn := swap_apply_of_unused (fun he => hi (he ▸ hn)) (hj n hn)
  strings _ _ := rfl

theorem extends_withText {i j : UInt32} (hi : ¬ k.hasText i) (hj : ∀ n, k.hasText n → k.strings n ≠ j) :
    k.Extends (k.withText i j) where
  hasCell _ hn := hn
  hasText _ hn := .inr hn
  cells _ _ := rfl
  strings n hn := swap_apply_of_unused (fun he => hi (he ▸ hn)) (hj n hn)

theorem withCell_cells (i j : UInt32) : (k.withCell i j).cells i = j := by
  show (Equiv.swap (k.cells i) j * k.cells) i = j
  rw [Equiv.Perm.mul_apply, Equiv.swap_apply_left]

theorem withText_strings (i j : UInt32) : (k.withText i j).strings i = j := by
  show (Equiv.swap (k.strings i) j * k.strings) i = j
  rw [Equiv.Perm.mul_apply, Equiv.swap_apply_left]

theorem Extends.rename_cell {k k' : Link} (he : k.Extends k') {cell : Cell} (ha : k.Covers cell.car)
    (hd : k.Covers cell.cdr) : cell.rename k'.toRenaming = cell.rename k.toRenaming := by
  rw [Cell.rename, Cell.rename, he.rename ha, he.rename hd]

theorem Extends.rename_roots {k k' : Link} (he : k.Extends k') (hm : k.Matches h h') :
    h'.roots = h.roots.map (Word.rename k'.toRenaming) := by
  rw [hm.roots]
  refine Array.map_congr_left fun w hw => ?_
  exact (he.rename (hm.rooted w hw)).symm

/-- Two allocations of a cell and its renaming. -/
theorem Matches.alloc (hm : k.Matches h h') {c : Cell} (ha : k.Covers c.car) (hd : k.Covers c.cdr)
    {i j : UInt32} (hi : h.cells.next? = some i) (hj : h'.cells.next? = some j) :
    k.Extends (k.withCell i j) ∧ (k.withCell i j).Matches { h with cells := h.cells.fill i c }
      { h' with cells := h'.cells.fill j (c.rename k.toRenaming) } := by
  obtain ⟨hilt, hidead⟩ := hm.sound.cells.next_dead hi
  obtain ⟨hjlt, hjdead⟩ := hm.sound'.cells.next_dead hj
  have hold (n : UInt32) (hn : k.hasCell n) : n ≠ i := fun he => hidead (he ▸ (hm.live n hn).1)
  have hnew (n : UInt32) (hn : k.hasCell n) : k.cells n ≠ j := fun he => hjdead (he ▸ (hm.live n hn).2)
  have he : k.Extends (k.withCell i j) := extends_withCell (fun hn => hold i hn rfl) hnew
  have hroots := he.rename_roots hm
  refine ⟨he, ⟨hm.sound.cells.fill hi _, hm.sound.strings⟩, ⟨hm.sound'.cells.fill hj _, hm.sound'.strings⟩,
    ?_, hm.rootCapacity, ?_, hm.freeText, ?_, ?_, ?_, hm.liveText, hm.readText, hroots,
    fun w hw => (hm.rooted w hw).extend he⟩
  · simpa using hm.capacity
  · exact Pool.freeCount_fill_le hm.free
  · rintro n (rfl | hn)
    · rw [Pool.isLive_fill hilt, Pool.isLive_fill hjlt, withCell_cells]
      exact ⟨.inl rfl, .inl rfl⟩
    · rw [Pool.isLive_fill hilt, Pool.isLive_fill hjlt, he.cells n hn]
      exact ⟨.inr (hm.live n hn).1, .inr (hm.live n hn).2⟩
  · rintro n (rfl | hn)
    · rw [Pool.read_fill hilt, Pool.read_fill hjlt, withCell_cells, if_pos rfl, if_pos rfl, he.rename_cell ha hd]
    · rw [Pool.read_fill hilt, Pool.read_fill hjlt, he.cells n hn, if_neg (hold n hn), if_neg (hnew n hn),
        hm.read n hn, he.rename_cell (hm.held n hn).1 (hm.held n hn).2]
  · rintro n (rfl | hn)
    · rw [Pool.read_fill hilt, if_pos rfl]
      exact ⟨ha.extend he, hd.extend he⟩
    · rw [Pool.read_fill hilt, if_neg (hold n hn)]
      exact ⟨(hm.held n hn).1.extend he, (hm.held n hn).2.extend he⟩

/-- Two allocations of the same bytes. -/
theorem Matches.makeString (hm : k.Matches h h') (bytes : ByteArray) {i j : UInt32}
    (hi : h.strings.next? = some i) (hj : h'.strings.next? = some j) :
    k.Extends (k.withText i j) ∧ (k.withText i j).Matches { h with strings := h.strings.fill i bytes }
      { h' with strings := h'.strings.fill j bytes } := by
  obtain ⟨hilt, hidead⟩ := hm.sound.strings.next_dead hi
  obtain ⟨hjlt, hjdead⟩ := hm.sound'.strings.next_dead hj
  have hold (n : UInt32) (hn : k.hasText n) : n ≠ i := fun he => hidead (he ▸ (hm.liveText n hn).1)
  have hnew (n : UInt32) (hn : k.hasText n) : k.strings n ≠ j := fun he => hjdead (he ▸ (hm.liveText n hn).2)
  have he : k.Extends (k.withText i j) := extends_withText (fun hn => hold i hn rfl) hnew
  have hroots := he.rename_roots hm
  refine ⟨he, ⟨hm.sound.cells, hm.sound.strings.fill hi _⟩, ⟨hm.sound'.cells, hm.sound'.strings.fill hj _⟩,
    hm.capacity, hm.rootCapacity, hm.free, Pool.freeCount_fill_le hm.freeText, hm.live, ?_, ?_, ?_, ?_, hroots,
    fun w hw => (hm.rooted w hw).extend he⟩
  · intro n hn
    rw [he.rename_cell (hm.held n hn).1 (hm.held n hn).2]
    exact hm.read n hn
  · intro n hn
    exact ⟨(hm.held n hn).1.extend he, (hm.held n hn).2.extend he⟩
  · rintro n (rfl | hn)
    · rw [Pool.isLive_fill hilt, Pool.isLive_fill hjlt, withText_strings]
      exact ⟨.inl rfl, .inl rfl⟩
    · rw [Pool.isLive_fill hilt, Pool.isLive_fill hjlt, he.strings n hn]
      exact ⟨.inr (hm.liveText n hn).1, .inr (hm.liveText n hn).2⟩
  · rintro n (rfl | hn)
    · rw [Pool.read_fill hilt, Pool.read_fill hjlt, withText_strings, if_pos rfl, if_pos rfl]
    · rw [Pool.read_fill hilt, Pool.read_fill hjlt, he.strings n hn, if_neg (hold n hn), if_neg (hnew n hn),
        hm.readText n hn]

/-! ## Access -/

/-- Corresponding cells may be changed in corresponding ways. -/
theorem Matches.update (hm : k.Matches h h') {i : UInt32} (hi : k.hasCell i) {f g : Cell → Cell}
    (hfg : g ((h.cells.read i).rename k.toRenaming) = (f (h.cells.read i)).rename k.toRenaming)
    (ha : k.Covers (f (h.cells.read i)).car) (hd : k.Covers (f (h.cells.read i)).cdr) :
    k.Matches { h with cells := h.cells.update i f } { h' with cells := h'.cells.update (k.cells i) g } := by
  obtain ⟨hlive, hlive'⟩ := hm.live i hi
  refine ⟨⟨hm.sound.cells.update hlive f, hm.sound.strings⟩, ⟨hm.sound'.cells.update hlive' g, hm.sound'.strings⟩,
    ?_, hm.rootCapacity, hm.free, hm.freeText, ?_, ?_, ?_, hm.liveText, hm.readText, hm.roots, hm.rooted⟩
  · simpa using hm.capacity
  · intro n hn
    rw [Pool.isLive_update, Pool.isLive_update]
    exact hm.live n hn
  · intro n hn
    rw [Pool.read_update hlive.lt, Pool.read_update hlive'.lt]
    by_cases hni : n = i
    · rw [if_pos hni, if_pos (congrArg _ hni), hm.read i hi, hfg]
    · rw [if_neg hni, if_neg fun he => hni (k.cells.injective he), hm.read n hn]
  · intro n hn
    rw [Pool.read_update hlive.lt]
    split
    · exact ⟨ha, hd⟩
    · exact hm.held n hn

/-- The cells behind corresponding words. -/
theorem Matches.read_word (hm : k.Matches h h') {w : Word} (hw : k.Covers w) (hc : w.hasCell) :
    h'.cells.read (w.rename k.toRenaming).payload = (h.cells.read w.payload).rename k.toRenaming := by
  rw [Word.payload_rename_cell hc, hm.read _ (hw.cell hc)]

/-- Following a list and its counterpart finds corresponding items and ends. -/
theorem Matches.follow (hm : k.Matches h h') (limit : Nat) (items : Array Word) {w : Word} (hw : k.Covers w) :
    h'.follow limit (items.map (Word.rename k.toRenaming)) (w.rename k.toRenaming) =
      (h.follow limit items w).map (Heap.Spine.rename k.toRenaming) := by
  induction limit generalizing items w with
  | zero =>
    unfold Heap.follow
    rw [Word.isPair_rename]
    split <;> rfl
  | succ limit ih =>
    unfold Heap.follow
    rw [Word.isPair_rename]
    split
    case isFalse => rfl
    case isTrue hp =>
      have hc := Word.hasCell_of_isPair hp
      rw [hm.read_word hw hc, ← ih _ (hm.held _ (hw.cell hc)).2, Array.map_push]
      rfl

theorem Matches.covers_follow (hm : k.Matches h h') {limit : Nat} {items : Array Word} {w : Word} (hw : k.Covers w)
    (hitems : ∀ v ∈ items, k.Covers v) {s : Heap.Spine} (hs : h.follow limit items w = some s) :
    (∀ v ∈ s.items, k.Covers v) ∧ k.Covers s.tail := by
  induction limit generalizing items w with
  | zero =>
    unfold Heap.follow at hs
    split at hs
    case isTrue => cases hs
    case isFalse =>
      cases hs
      exact ⟨hitems, hw⟩
  | succ limit ih =>
    unfold Heap.follow at hs
    split at hs
    case isTrue hp =>
      obtain ⟨ha, hd⟩ := hm.held _ (hw.cell (Word.hasCell_of_isPair hp))
      refine ih hd (fun v hv => ?_) hs
      obtain hv | rfl := Array.mem_push.1 hv
      · exact hitems v hv
      · exact ha
    case isFalse =>
      cases hs
      exact ⟨hitems, hw⟩

theorem Matches.spine (hm : k.Matches h h') {w : Word} (hw : k.Covers w) :
    h'.spine (w.rename k.toRenaming) = (h.spine w).map (Heap.Spine.rename k.toRenaming) := by
  unfold Heap.spine
  rw [hm.capacity, ← hm.follow _ _ hw, Array.map_empty]

theorem Matches.covers_spine (hm : k.Matches h h') {w : Word} (hw : k.Covers w) {s : Heap.Spine}
    (hs : h.spine w = some s) : (∀ v ∈ s.items, k.Covers v) ∧ k.Covers s.tail :=
  hm.covers_follow hw (by simp) hs

/-! ## Roots -/

/-- The root stacks may be replaced by corresponding ones. -/
theorem Matches.withRoots (hm : k.Matches h h') {roots : Array Word} (hr : ∀ w ∈ roots, k.Covers w) :
    k.Matches { h with roots } { h' with roots := roots.map (Word.rename k.toRenaming) } :=
  { hm with
    sound := ⟨hm.sound.cells, hm.sound.strings⟩
    sound' := ⟨hm.sound'.cells, hm.sound'.strings⟩
    roots := rfl
    rooted := hr }

end Link

end BoxedScheme
