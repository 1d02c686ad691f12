import BoxedScheme.Operation
import BoxedScheme.Proofs.Heaps

/-!
# The roles of cells

What a live cell is used for. Programs change cells of data, and definitions change cells of environments; the
cells of code, frames, bindings and closures never change, and those of an argument list only while it is built.

* `Shape` : what the operands of a form are; `Shape.item`, `Shape.next` : the first operand and the others;
* `Splits r a p q` : a cell of role `r` whose first word is `a` holds words of roles `p` and `q`;
* `Fits ρ h r w` : the word `w` is live and has role `r`; `Typed ρ h` : every live cell holds what its role says;
* `Typed.data`, `Typed.args`, `Typed.expr`, `Typed.operands` : what a pair of such a role holds;
* `Grows d ρ h ρ' h'` : no cell is freed, and what is kept by evaluations above root `d` stays as it is;
* `Typed.fill`, `Typed.update`, `Typed.settle` : a new cell, a changed cell, and argument lists that become data.
-/

namespace BoxedScheme

/-! ## Roles -/

inductive Shape where
  /-- Expressions. -/
  | exprs
  /-- Data. -/
  | datum
  /-- A target or parameters, then expressions. -/
  | headed
  /-- A name with bindings and a body, or bindings and a body. -/
  | named
  /-- Bindings whose expressions are operands of the given shape, then a body. -/
  | scoped (values : Shape)
deriving DecidableEq

/-- What a cell is used for. -/
inductive Role where
  /-- Values of programs. -/
  | data
  /-- Names and parameter lists, which are neither evaluated nor handed to programs. -/
  | inert
  | expr
  | operands (shape : Shape)
  /-- Bindings whose expressions are operands of the given shape. -/
  | clauses (shape : Shape)
  /-- A binding whose expression is the first operand; the other operands have shape `next`. -/
  | clause (shape next : Shape)
  /-- A binding behind its name. -/
  | value (shape next : Shape)
  | closure
  | env
  | frame
  | binding
  /-- Arguments that are collected in the root at a position. -/
  | args (position : Nat)
deriving DecidableEq

namespace Shape

def ofHead (head : Word) : Shape :=
  match Operation.formOf? head with
  | some .quote => .datum
  | some .define | some .lambda => .headed
  | some .bind => .named
  | some .bindInOrder => .scoped .exprs
  | _ => .exprs

def item : Shape → Role
  | .exprs => .expr
  | .datum => .data
  | .headed => .inert
  | .named => .clauses .exprs
  | .scoped values => .clauses values

/-- The shape of the operands behind the first one. A named `let` is evaluated as a call of its name, so its initial
values are operands of what the name stands for: behind the name of a special form they are operands of that form, and
behind `quote` they are data. -/
def next : Shape → Word → Shape
  | .datum, _ => .datum
  | .named, first => if first.isSymbol then .scoped (.ofHead first) else .exprs
  | _, _ => .exprs

theorem ofHead_of_not_isSymbol {head : Word} (hw : ¬ head.isSymbol) : ofHead head = .exprs := by
  have hform : Operation.formOf? head = none := by
    unfold Operation.formOf?
    rw [if_neg]
    simp [hw]
  rw [ofHead, hform]

end Shape

/-- The roles of the words in a cell, by the role of the cell and its first word. -/
inductive Splits : Role → Word → Role → Role → Prop where
  | data (a : Word) : Splits .data a .data .data
  | inert (a : Word) : Splits .inert a .inert .inert
  | expr (a : Word) : Splits .expr a .expr (.operands (.ofHead a))
  | operands (s : Shape) (a : Word) : Splits (.operands s) a s.item (.operands (s.next a))
  | clauses (s : Shape) (v a : Word) : Splits (.clauses s) a (.clause s (s.next v)) (.clauses (s.next v))
  | clause (s next : Shape) (a : Word) : Splits (.clause s next) a .inert (.value s next)
  | value (s : Shape) (a : Word) : Splits (.value s (s.next a)) a s.item .inert
  | closure (a : Word) : Splits .closure a .env (.operands .headed)
  | env (a : Word) : Splits .env a .frame .env
  | frame (a : Word) : Splits .frame a .binding .frame
  | binding (a : Word) : Splits .binding a .inert .data
  | args (n : Nat) (a : Word) : Splits (.args n) a .data (.args n)

namespace Role

/-- Evaluations above root `d` do not give the cell another role. -/
def Fixed (d : Nat) : Role → Prop
  | .args n => n < d
  | _ => True

/-- Evaluations above root `d` do not change what the cell holds. -/
def Solid (d : Nat) : Role → Prop
  | .data | .env => False
  | r => r.Fixed d

/-- The role once the argument lists at root `d` and above it count as data. -/
def settle (d : Nat) : Role → Role
  | .args n => if n < d then .args n else .data
  | r => r

variable {d e : Nat} {r p q : Role} {a : Word}

theorem Solid.fixed (h : r.Solid d) : r.Fixed d := by
  cases r <;> first | exact h | trivial

theorem Fixed.mono (h : r.Fixed d) (hde : d ≤ e) : r.Fixed e := by
  cases r with
  | args n => exact Nat.lt_of_lt_of_le h hde
  | _ => trivial

theorem Solid.mono (h : r.Solid d) (hde : d ≤ e) : r.Solid e := by
  cases r with
  | args n => exact Nat.lt_of_lt_of_le h hde
  | _ => exact h

theorem Fixed.settle_eq (h : r.Fixed d) : r.settle d = r := by
  cases r with
  | args n => exact if_pos h
  | _ => rfl

theorem settle_item (d : Nat) (s : Shape) : s.item.settle d = s.item := by
  cases s <;> rfl

end Role

theorem Splits.settle {r p q : Role} {a : Word} (h : Splits r a p q) (d : Nat) :
    Splits (r.settle d) a (p.settle d) (q.settle d) := by
  cases h with
  | operands s =>
    rw [Role.settle_item]
    exact .operands s a
  | value s =>
    rw [Role.settle_item]
    exact .value s a
  | args n =>
    simp only [Role.settle]
    split
    · exact .args n a
    · exact .data a
  | _ => constructor

/-! ## Words and cells with roles -/

abbrev Roles := UInt32 → Role

/-- A live word of the given role. A word that refers to no cell has every role. -/
structure Fits (ρ : Roles) (h : Heap) (r : Role) (w : Word) : Prop where
  live : h.LiveWord w
  pair : w.isPair → ρ w.payload = r
  closure : w.isClosure → ρ w.payload = .closure

def CellFits (ρ : Roles) (h : Heap) (r : Role) (cell : Cell) : Prop :=
  ∃ p q, Splits r cell.car p q ∧ Fits ρ h p cell.car ∧ Fits ρ h q cell.cdr

structure Typed (ρ : Roles) (h : Heap) : Prop where
  sound : h.Sound
  cell : ∀ i, h.cells.IsLive i → CellFits ρ h (ρ i) (h.cells.read i)

/-- Between two heaps no slot was freed, and what evaluations above root `d` leave alone is as it was. -/
structure Grows (d : Nat) (ρ : Roles) (h : Heap) (ρ' : Roles) (h' : Heap) : Prop where
  cells : ∀ i, h.cells.IsLive i → h'.cells.IsLive i
  strings : ∀ i, h.strings.IsLive i → h'.strings.IsLive i
  fixed : ∀ i, h.cells.IsLive i → (ρ i).Fixed d → ρ' i = ρ i
  solid : ∀ i, h.cells.IsLive i → (ρ i).Solid d → h'.cells.read i = h.cells.read i
  roots : h'.roots.toList.take d = h.roots.toList.take d

/-- Nothing was freed, and only data and environments were changed. -/
def Extends (ρ : Roles) (h : Heap) (ρ' : Roles) (h' : Heap) : Prop := ∀ d, Grows d ρ h ρ' h'

section Basic

variable {d e : Nat} {ρ ρ' ρ'' : Roles} {h h' h'' : Heap} {r r' p q : Role} {w a b : Word} {i : UInt32}

theorem Fits.of_not_hasCell (hw : h.LiveWord w) (hc : ¬ w.hasCell) : Fits ρ h r w := by
  refine ⟨hw, fun hp => absurd (Word.hasCell_of_isPair hp) hc, fun hcl => absurd ?_ hc⟩
  simp [Word.hasCell, hcl]

theorem Fits.of_isImmediate (hw : w.isImmediate) : Fits ρ h r w := by
  refine .of_not_hasCell (.of_isImmediate hw) ?_
  simp only [Word.isImmediate, Bool.and_eq_true, Bool.not_eq_true'] at hw
  simp [hw.1]

theorem Fits.nil : Fits ρ h r .nil := .of_isImmediate (by decide)

/-- Only pairs tell roles apart. -/
theorem Fits.of_not_isPair (hw : Fits ρ h r w) (hp : ¬ w.isPair) : Fits ρ h r' w :=
  ⟨hw.live, fun h => absurd h hp, hw.closure⟩

theorem Fits.of_isSymbol (hw : Fits ρ h r w) (hs : w.isSymbol) : Fits ρ h r' w := by
  refine hw.of_not_isPair fun hp => ?_
  have htext : w.hasText := by simp [Word.hasText, hs]
  have hcell := Word.not_hasText_of_hasCell (Word.hasCell_of_isPair hp)
  rw [hcell] at htext
  cases htext

theorem Typed.whole (ht : Typed ρ h) : h.Whole := by
  intro i hi
  obtain ⟨p, q, -, ha, hd⟩ := ht.cell i hi
  exact ⟨ha.live, hd.live⟩

theorem Typed.pair (ht : Typed ρ h) (hw : Fits ρ h r w) (hp : w.isPair) :
    CellFits ρ h r (h.cells.read w.payload) := by
  rw [← hw.pair hp]
  exact ht.cell _ (hw.live.cell (Word.hasCell_of_isPair hp))

theorem Typed.closure (ht : Typed ρ h) (hw : Fits ρ h r w) (hc : w.isClosure) :
    CellFits ρ h .closure (h.cells.read w.payload) := by
  rw [← hw.closure hc]
  exact ht.cell _ (hw.live.cell (by simp [Word.hasCell, hc]))

/-! ## What cells hold -/

theorem Typed.data (ht : Typed ρ h) (hw : Fits ρ h .data w) (hp : w.isPair) :
    Fits ρ h .data (h.cells.read w.payload).car ∧ Fits ρ h .data (h.cells.read w.payload).cdr := by
  obtain ⟨_, _, hs, hcar, hcdr⟩ := ht.pair hw hp
  cases hs
  exact ⟨hcar, hcdr⟩

theorem Typed.args {n : Nat} (ht : Typed ρ h) (hw : Fits ρ h (.args n) w) (hp : w.isPair) :
    Fits ρ h .data (h.cells.read w.payload).car ∧ Fits ρ h (.args n) (h.cells.read w.payload).cdr := by
  obtain ⟨_, _, hs, hcar, hcdr⟩ := ht.pair hw hp
  cases hs
  exact ⟨hcar, hcdr⟩

theorem Typed.expr (ht : Typed ρ h) (hw : Fits ρ h .expr w) (hp : w.isPair) :
    Fits ρ h .expr (h.cells.read w.payload).car ∧
      Fits ρ h (.operands (.ofHead (h.cells.read w.payload).car)) (h.cells.read w.payload).cdr := by
  obtain ⟨_, _, hs, hcar, hcdr⟩ := ht.pair hw hp
  cases hs
  exact ⟨hcar, hcdr⟩

theorem Typed.operands {s : Shape} (ht : Typed ρ h) (hw : Fits ρ h (.operands s) w) (hp : w.isPair) :
    Fits ρ h s.item (h.cells.read w.payload).car ∧
      Fits ρ h (.operands (s.next (h.cells.read w.payload).car)) (h.cells.read w.payload).cdr := by
  obtain ⟨_, _, hs, hcar, hcdr⟩ := ht.pair hw hp
  cases hs
  exact ⟨hcar, hcdr⟩

/-! ## Growth -/

theorem Grows.refl (d : Nat) (ρ : Roles) (h : Heap) : Grows d ρ h ρ h :=
  ⟨fun _ hi => hi, fun _ hi => hi, fun _ _ _ => rfl, fun _ _ _ => rfl, rfl⟩

theorem Grows.trans (h₁ : Grows d ρ h ρ' h') (h₂ : Grows d ρ' h' ρ'' h'') : Grows d ρ h ρ'' h'' where
  cells i hi := h₂.cells i (h₁.cells i hi)
  strings i hi := h₂.strings i (h₁.strings i hi)
  fixed i hi hr := by
    have hsame := h₁.fixed i hi hr
    rw [h₂.fixed i (h₁.cells i hi) (hsame ▸ hr), hsame]
  solid i hi hr := by
    have hsame := h₁.fixed i hi hr.fixed
    rw [h₂.solid i (h₁.cells i hi) (hsame ▸ hr), h₁.solid i hi hr]
  roots := h₂.roots.trans h₁.roots

theorem Extends.refl (ρ : Roles) (h : Heap) : Extends ρ h ρ h := fun d => .refl d ρ h

theorem Extends.trans (h₁ : Extends ρ h ρ' h') (h₂ : Extends ρ' h' ρ'' h'') : Extends ρ h ρ'' h'' :=
  fun d => (h₁ d).trans (h₂ d)

theorem Extends.roots (hx : Extends ρ h ρ' h') : h'.roots = h.roots := by
  apply Array.ext'
  have htake := (hx (max h'.roots.size h.roots.size)).roots
  rwa [List.take_of_length_le, List.take_of_length_le] at htake
  · exact Array.length_toList ▸ Nat.le_max_right ..
  · exact Array.length_toList ▸ Nat.le_max_left ..

theorem Heap.LiveWord.grow (hw : h.LiveWord w) (hg : Grows d ρ h ρ' h') : h'.LiveWord w :=
  ⟨fun hc => hg.cells _ (hw.cell hc), fun ht => hg.strings _ (hw.text ht)⟩

theorem Fits.grow (hw : Fits ρ h r w) (hg : Grows d ρ h ρ' h') (hr : r.Fixed d) : Fits ρ' h' r w := by
  refine ⟨hw.live.grow hg, fun hp => ?_, fun hc => ?_⟩
  · have hrole := hw.pair hp
    rw [hg.fixed _ (hw.live.cell (Word.hasCell_of_isPair hp)) (hrole ▸ hr), hrole]
  · have hrole := hw.closure hc
    rw [hg.fixed _ (hw.live.cell (by simp [Word.hasCell, hc])) (hrole ▸ trivial), hrole]

/-- Every role is fixed below some root. -/
theorem Role.exists_fixed (r : Role) : ∃ d, r.Fixed d := by
  cases r with
  | args n => exact ⟨n + 1, Nat.lt_succ_self n⟩
  | _ => exact ⟨0, trivial⟩

theorem Fits.extend (hw : Fits ρ h r w) (hx : Extends ρ h ρ' h') : Fits ρ' h' r w := by
  obtain ⟨d, hd⟩ := r.exists_fixed
  exact hw.grow (hx d) hd

theorem CellFits.extend {cell : Cell} (hc : CellFits ρ h r cell) (hx : Extends ρ h ρ' h') :
    CellFits ρ' h' r cell := by
  obtain ⟨p, q, hs, ha, hd⟩ := hc
  exact ⟨p, q, hs, ha.extend hx, hd.extend hx⟩

/-! ## Changes -/

/-- The heap after cell `i` was handed out with the given content. -/
theorem Typed.fill (ht : Typed ρ h) (hi : h.cells.next? = some i) (hs : Splits r a p q) (ha : Fits ρ h p a)
    (hb : Fits ρ h q b) :
    Typed (Function.update ρ i r) { h with cells := h.cells.fill i ⟨a, b⟩ } ∧
      Extends ρ h (Function.update ρ i r) { h with cells := h.cells.fill i ⟨a, b⟩ } := by
  obtain ⟨hlt, hdead⟩ := ht.sound.cells.next_dead hi
  have hne {j : UInt32} (hj : h.cells.IsLive j) : j ≠ i := fun he => hdead (he ▸ hj)
  have hext : Extends ρ h (Function.update ρ i r) { h with cells := h.cells.fill i ⟨a, b⟩ } := by
    intro d
    refine ⟨fun j hj => ?_, fun j hj => hj, fun j hj _ => ?_, fun j hj _ => ?_, rfl⟩
    · exact (Pool.isLive_fill hlt _ j).2 (.inr hj)
    · exact Function.update_of_ne (hne hj) ..
    · exact (Pool.read_fill hlt _ j).trans (if_neg (hne hj))
  refine ⟨⟨⟨ht.sound.cells.fill hi _, ht.sound.strings⟩, fun j hj => ?_⟩, hext⟩
  show CellFits _ _ _ ((h.cells.fill i ⟨a, b⟩).read j)
  rw [Pool.read_fill hlt]
  rcases (Pool.isLive_fill hlt _ j).1 hj with rfl | hj
  · rw [if_pos rfl, Function.update_self]
    exact ⟨p, q, hs, ha.extend hext, hb.extend hext⟩
  · rw [if_neg (hne hj), Function.update_of_ne (hne hj)]
    exact (ht.cell j hj).extend hext

theorem Fits.update (hw : Fits ρ h r w) (i : UInt32) (f : Cell → Cell) :
    Fits ρ { h with cells := h.cells.update i f } r w :=
  ⟨⟨hw.live.cell, hw.live.text⟩, hw.pair, hw.closure⟩

/-- The heap after the content of cell `i` was changed to something of the same role. -/
theorem Typed.update (ht : Typed ρ h) (hi : h.cells.IsLive i) (f : Cell → Cell)
    (hf : CellFits ρ h (ρ i) (f (h.cells.read i))) :
    Typed ρ { h with cells := h.cells.update i f } ∧
      ∀ d, ¬ (ρ i).Solid d → Grows d ρ h ρ { h with cells := h.cells.update i f } := by
  have hread (j : UInt32) := Pool.read_update hi.lt f j
  refine ⟨⟨⟨ht.sound.cells.update hi f, ht.sound.strings⟩, fun j hj => ?_⟩, fun d hd => ?_⟩
  · have hcell : CellFits ρ h (ρ j) ((h.cells.update i f).read j) := by
      rw [hread]
      by_cases hij : j = i
      · rw [if_pos hij, hij]
        exact hf
      · rw [if_neg hij]
        exact ht.cell j hj
    obtain ⟨p, q, hs, ha, hb⟩ := hcell
    exact ⟨p, q, hs, ha.update i f, hb.update i f⟩
  · refine ⟨fun j hj => hj, fun j hj => hj, fun _ _ _ => rfl, fun j hj hr => ?_, rfl⟩
    refine (hread j).trans (if_neg ?_)
    rintro rfl
    exact hd hr

/-- Argument lists at root `d` and above it may count as data. -/
theorem Typed.settle (ht : Typed ρ h) (d : Nat) :
    Typed (fun i => (ρ i).settle d) h ∧ Grows d ρ h (fun i => (ρ i).settle d) h ∧
      ∀ r w, Fits ρ h r w → Fits (fun i => (ρ i).settle d) h (r.settle d) w := by
  have hfits (r : Role) (w : Word) (hw : Fits ρ h r w) :
      Fits (fun i => (ρ i).settle d) h (r.settle d) w := by
    refine ⟨hw.live, fun hp => ?_, fun hc => ?_⟩
    · rw [hw.pair hp]
    · rw [hw.closure hc]
      rfl
  refine ⟨⟨ht.sound, fun i hi => ?_⟩, ⟨fun _ hi => hi, fun _ hi => hi, ?_, fun _ _ _ => rfl, rfl⟩, hfits⟩
  · obtain ⟨p, q, hs, ha, hb⟩ := ht.cell i hi
    exact ⟨_, _, hs.settle d, hfits _ _ ha, hfits _ _ hb⟩
  · exact fun i _ hr => hr.settle_eq

end Basic

/-! ## Lists -/

/-- The pairs from a word on hold the given items, and end in `tail`. -/
inductive Heap.Lists (h : Heap) : Word → List Word → Word → Prop where
  | nil {w : Word} : ¬ w.isPair → Lists h w [] w
  | cons {w tail : Word} {items : List Word} : w.isPair → Lists h (h.cells.read w.payload).cdr items tail →
    Lists h w ((h.cells.read w.payload).car :: items) tail

/-- Items that a list of the given role can have. -/
def ListFits (ρ : Roles) (h : Heap) : Role → List Word → Prop
  | _, [] => True
  | r, a :: items => ∃ p q, Splits r a p q ∧ Fits ρ h p a ∧ ListFits ρ h q items

section Lists

variable {ρ ρ' : Roles} {h h' : Heap} {r : Role} {w tail : Word} {items : List Word}

theorem Heap.follow_lists {limit : Nat} {found : Array Word} {s : Heap.Spine}
    (hs : h.follow limit found w = some s) :
    ∃ items, s.items.toList = found.toList ++ items ∧ h.Lists w items s.tail := by
  induction limit generalizing found w with
  | zero =>
    by_cases hp : w.isPair
    · rw [Heap.follow, if_pos hp] at hs
      cases hs
    · rw [Heap.follow, if_neg hp] at hs
      cases hs
      exact ⟨[], (List.append_nil _).symm, .nil hp⟩
  | succ limit ih =>
    by_cases hp : w.isPair
    · rw [Heap.follow, if_pos hp] at hs
      obtain ⟨items, happ, hlists⟩ := ih hs
      refine ⟨_ :: items, ?_, .cons hp hlists⟩
      rw [happ, Array.toList_push, List.append_assoc]
      rfl
    · rw [Heap.follow, if_neg hp] at hs
      cases hs
      exact ⟨[], (List.append_nil _).symm, .nil hp⟩

theorem Heap.spine_lists {s : Heap.Spine} (hs : h.spine w = some s) : h.Lists w s.items.toList s.tail := by
  obtain ⟨items, happ, hlists⟩ := Heap.follow_lists hs
  rw [happ]
  exact hlists

theorem Heap.listItems_lists {operation : String} {found : Array Word} (hs : h.listItems w operation = .ok found) :
    ∃ tail, h.Lists w found.toList tail := by
  unfold Heap.listItems at hs
  cases hspine : h.spine w with
  | none =>
    rw [hspine] at hs
    cases hs
  | some s =>
    rw [hspine] at hs
    by_cases hn : s.tail.isNull
    · simp only [if_pos hn] at hs
      cases hs
      exact ⟨_, Heap.spine_lists hspine⟩
    · simp only [if_neg hn] at hs
      cases hs

theorem Typed.row (ht : Typed ρ h) (hw : Fits ρ h r w) (hl : h.Lists w items tail) : ListFits ρ h r items := by
  induction hl generalizing r with
  | nil => trivial
  | cons hp _ ih =>
    obtain ⟨p, q, hs, ha, hb⟩ := ht.pair hw hp
    exact ⟨p, q, hs, ha, ih hb⟩

theorem ListFits.extend (hrow : ListFits ρ h r items) (hx : Extends ρ h ρ' h') : ListFits ρ' h' r items := by
  induction items generalizing r with
  | nil => trivial
  | cons a items ih =>
    obtain ⟨p, q, hs, ha, hrest⟩ := hrow
    exact ⟨p, q, hs, ha.extend hx, ih hrest⟩

theorem ListFits.ofData (hitems : ∀ a ∈ items, Fits ρ h .data a) : ListFits ρ h .data items := by
  induction items with
  | nil => trivial
  | cons a items ih =>
    rw [List.forall_mem_cons] at hitems
    exact ⟨_, _, .data a, hitems.1, ih hitems.2⟩

theorem ListFits.inert (hitems : ∀ a ∈ items, Fits ρ h .inert a) : ListFits ρ h .inert items := by
  induction items with
  | nil => trivial
  | cons a items ih =>
    rw [List.forall_mem_cons] at hitems
    exact ⟨_, _, .inert a, hitems.1, ih hitems.2⟩

/-- Operands that are all expressions. -/
theorem ListFits.exprs (hrow : ListFits ρ h (.operands .exprs) items) : ∀ a ∈ items, Fits ρ h .expr a := by
  induction items with
  | nil => simp
  | cons a items ih =>
    obtain ⟨p, q, hs, ha, hrest⟩ := hrow
    cases hs
    exact List.forall_mem_cons.2 ⟨ha, ih hrest⟩

end Lists

end BoxedScheme
