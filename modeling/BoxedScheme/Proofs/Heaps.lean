import BoxedScheme.Proofs.Collection

/-!
# Heap operations by what they do to the pools

Each operation is unfolded once here; later proofs use these equations. `Heap.LiveWord h w` : the slot that `w`
refers to, if it refers to one, is live. `Heap.Whole` : live cells hold such words only.
-/

namespace BoxedScheme.Heap

/-! ## Equations -/

theorem allocCell_apply (cell : Cell) (h : Heap) :
    allocCell cell h = match h.cells.next? with
      | none => .error (.outOfCells h.cells.capacity) h
      | some i => .ok i { h with cells := h.cells.fill i cell } := rfl

theorem cons_apply (a d : Word) (h : Heap) :
    cons a d h = match h.cells.next? with
      | none => .error (.outOfCells h.cells.capacity) h
      | some i => .ok (.pair i) { h with cells := h.cells.fill i ⟨a, d⟩ } := by
  show EStateM.map _ (allocCell _) h = _
  rw [EStateM.map, allocCell_apply]
  cases h.cells.next? <;> rfl

theorem makeClosure_apply (env code : Word) (h : Heap) :
    makeClosure env code h = match h.cells.next? with
      | none => .error (.outOfCells h.cells.capacity) h
      | some i => .ok (.closure i) { h with cells := h.cells.fill i ⟨env, code⟩ } := by
  show EStateM.map _ (allocCell _) h = _
  rw [EStateM.map, allocCell_apply]
  cases h.cells.next? <;> rfl

theorem makeString_apply (bytes : ByteArray) (h : Heap) :
    makeString bytes h = match h.strings.next? with
      | none => .error (.outOfStrings h.strings.capacity) h
      | some i => .ok (.string i) { h with strings := h.strings.fill i bytes } := rfl

theorem consAll_cons_apply (item : Word) (items : List Word) (tail : Word) (h : Heap) :
    consAll (item :: items) tail h = match cons item tail h with
      | .error f h => .error f h
      | .ok pair h => consAll items pair h := by
  show EStateM.bind (cons item tail) (consAll items) h = _
  rw [EStateM.bind]
  cases cons item tail h <;> rfl

theorem pairCell_of_isPair {h : Heap} {w : Word} (hw : w.isPair) (operation : String) :
    h.pairCell w operation = .ok (h.cells.read w.payload) := if_pos hw

theorem pairCell_of_not_isPair {h : Heap} {w : Word} (hw : ¬ w.isPair) (operation : String) :
    h.pairCell w operation = .error (.wrongType operation "pair" w.typeName) := if_neg hw

theorem updatePair_of_isPair {h : Heap} {w : Word} (hw : w.isPair) (operation : String) (f : Cell → Cell) :
    updatePair w operation f h = .ok () { h with cells := h.cells.update w.payload f } := if_pos hw

theorem updatePair_of_not_isPair {h : Heap} {w : Word} (hw : ¬ w.isPair) (operation : String) (f : Cell → Cell) :
    updatePair w operation f h = .error (.wrongType operation "pair" w.typeName) h := if_neg hw

theorem pushRoot_of_lt {h : Heap} (hlt : h.roots.size < h.rootCapacity) (w : Word) :
    pushRoot w h = .ok h.roots.size { h with roots := h.roots.push w } := if_pos hlt

theorem pushRoot_of_not_lt {h : Heap} (hlt : ¬ h.roots.size < h.rootCapacity) (w : Word) :
    pushRoot w h = .error (.rootOverflow h.rootCapacity) h := if_neg hlt

theorem truncateRoots_eq (h : Heap) (depth : Nat) :
    h.truncateRoots depth = { h with roots := h.roots.extract 0 depth } := by
  rw [truncateRoots, Array.shrink_eq_take, Array.take_eq_extract]

theorem toList_truncateRoots (h : Heap) (depth : Nat) :
    (h.truncateRoots depth).roots.toList = h.roots.toList.take depth := by
  rw [truncateRoots_eq, Array.toList_extract, List.extract_eq_take_drop, List.drop_zero, Nat.sub_zero]

/-- Dropping the roots behind those of before leaves those of before. -/
theorem roots_truncateRoots {h : Heap} {roots : Array Word}
    (htake : h.roots.toList.take roots.size = roots.toList) : (h.truncateRoots roots.size).roots = roots := by
  refine Array.toList_inj.1 ?_
  rw [toList_truncateRoots, htake]

theorem take_push_push (roots : Array Word) (v w : Word) :
    ((roots.push v).push w).toList.take roots.size = roots.toList := by
  rw [Array.toList_push, Array.toList_push, List.append_assoc, List.take_append_of_le_length (by simp)]
  exact List.take_of_length_le (by simp)

theorem le_size_of_take_eq {roots roots' : Array Word} {depth : Nat} (hle : depth ≤ roots.size)
    (htake : roots'.toList.take depth = roots.toList.take depth) : depth ≤ roots'.size := by
  have hlen := congrArg List.length htake
  simp only [List.length_take, Array.length_toList] at hlen
  omega

/-! ## Live words -/

/-- The slot that the word refers to, if any, is live. -/
structure LiveWord (h : Heap) (w : Word) : Prop where
  cell : w.hasCell → h.cells.IsLive w.payload
  text : w.hasText → h.strings.IsLive w.payload

theorem LiveWord.of_isImmediate {h : Heap} {w : Word} (hw : w.isImmediate) : h.LiveWord w := by
  simp only [Word.isImmediate, Bool.and_eq_true, Bool.not_eq_true'] at hw
  exact ⟨fun hc => absurd hc (by simp [hw.1]), fun ht => absurd ht (by simp [hw.2])⟩

instance (h : Heap) (w : Word) : Decidable (h.LiveWord w) :=
  decidable_of_iff ((w.hasCell → h.cells.IsLive w.payload) ∧ (w.hasText → h.strings.IsLive w.payload))
    ⟨fun hw => ⟨hw.1, hw.2⟩, fun hw => ⟨hw.cell, hw.text⟩⟩

/-- Live cells refer to live slots only. -/
def Whole (h : Heap) : Prop :=
  ∀ i, h.cells.IsLive i → h.LiveWord (h.cells.read i).car ∧ h.LiveWord (h.cells.read i).cdr

/-- In a whole heap live words reach live words only. -/
theorem Reaches.liveWord {h : Heap} {ws : List Word} {w : Word} (hw : h.Reaches ws w) (hh : h.Whole)
    (hws : ∀ v ∈ ws, h.LiveWord v) : h.LiveWord w := by
  induction hw with
  | root hmem => exact hws _ hmem
  | car _ hc ih => exact (hh _ (ih.cell hc)).1
  | cdr _ hc ih => exact (hh _ (ih.cell hc)).2

end BoxedScheme.Heap
