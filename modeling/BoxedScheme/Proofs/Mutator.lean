import BoxedScheme.Proofs.Renaming

/-!
# A mutator does not notice a collection

A mutator sends requests to a heap. The operands of a request are immediates and words that the mutator knows: the
ones that it started with and the ones in earlier answers.

* `Request.perform`, `performAll` : the answers to one request and to a sequence of them;
* `Link.Matches.perform` : heaps that match answer a request alike and match again;
* `Link.Matches.performAll` : the same for a sequence, under one renaming;
* `collect_invisible` : a heap and the heap after a collection that kept what the mutator knows.
-/

namespace BoxedScheme

/-- A word that a request gives to the heap. -/
inductive Operand where
  | immediate (w : Word) (h : w.isImmediate)
  /-- A word that the mutator knows, by position. -/
  | known (n : Nat)

inductive Request where
  | cons (car cdr : Operand)
  | makeClosure (env code : Operand)
  | car (pair : Operand)
  | cdr (pair : Operand)
  | setCar (pair value : Operand)
  | setCdr (pair value : Operand)
  | closureParts (closure : Operand)
  | listOf (items : List Operand)
  | listItems (list : Operand) (operation : String)
  | listLength (list : Operand) (operation : String)
  | listTail (list : Operand)
  | makeString (bytes : ByteArray)
  | stringBytes (string : Operand)
  | pushRoot (value : Operand)
  | setRoot (position : Nat) (value : Operand)
  | truncateRoots (depth : Nat)

inductive Answer where
  | words (ws : List Word)
  | number (n : Nat)
  | bytes (b : ByteArray)
  | fault (f : Fault)

def Answer.learned : Answer → List Word
  | .words ws => ws
  | _ => []

def Answer.rename (ρ : Renaming) : Answer → Answer
  | .words ws => .words (ws.map (Word.rename ρ))
  | a => a

def Answer.isExhausted : Answer → Bool
  | .fault (.outOfCells _) | .fault (.outOfStrings _) => true
  | _ => false

def Operand.word (known : List Word) : Operand → Word
  | .immediate w _ => w
  | .known n => known.getD n default

/-! ## Answering -/

namespace Request

def change {α : Type} (answer : α → Answer) (x : HeapM α) (h : Heap) : Answer × Heap :=
  match x h with
  | .ok a h => (answer a, h)
  | .error f h => (.fault f, h)

def look {α : Type} (answer : α → Answer) (x : Except Fault α) (h : Heap) : Answer × Heap :=
  match x with
  | .ok a => (answer a, h)
  | .error f => (.fault f, h)

def answerParts (parts : Heap.ClosureParts) : Answer := .words [parts.env, parts.params, parts.body]

/-- Answers a request of a mutator that knows the given words. -/
def perform (known : List Word) (h : Heap) : Request → Answer × Heap
  | .cons a d => change (.words [·]) (Heap.cons (a.word known) (d.word known)) h
  | .makeClosure env code => change (.words [·]) (Heap.makeClosure (env.word known) (code.word known)) h
  | .car p => look (.words [·]) (h.car (p.word known)) h
  | .cdr p => look (.words [·]) (h.cdr (p.word known)) h
  | .setCar p v => change (fun _ => .words []) (Heap.setCar (p.word known) (v.word known)) h
  | .setCdr p v => change (fun _ => .words []) (Heap.setCdr (p.word known) (v.word known)) h
  | .closureParts c => look answerParts (h.closureParts (c.word known)) h
  | .listOf items => change (.words [·]) (Heap.listOf (items.map (Operand.word known))) h
  | .listItems l operation => look (.words ·.toList) (h.listItems (l.word known) operation) h
  | .listLength l operation => look .number (h.listLength (l.word known) operation) h
  | .listTail l => look (.words [·]) (h.listTail (l.word known)) h
  | .makeString bytes => change (.words [·]) (Heap.makeString bytes) h
  | .stringBytes s => look .bytes (h.stringBytes (s.word known)) h
  | .pushRoot v => change .number (Heap.pushRoot (v.word known)) h
  | .setRoot position v => (.words [], h.setRoot position (v.word known))
  | .truncateRoots depth => (.words [], h.truncateRoots depth)

end Request

/-- Answers the requests in order; what an answer tells is known from then on. -/
def performAll (known : List Word) (h : Heap) : List Request → List Answer × Heap
  | [] => ([], h)
  | request :: requests =>
    let first := request.perform known h
    let rest := performAll (known ++ first.1.learned) first.2 requests
    (first.1 :: rest.1, rest.2)

theorem performAll_cons (known : List Word) (h : Heap) (request : Request) (requests : List Request) :
    performAll known h (request :: requests) =
      ((request.perform known h).1 ::
          (performAll (known ++ (request.perform known h).1.learned) (request.perform known h).2 requests).1,
        (performAll (known ++ (request.perform known h).1.learned) (request.perform known h).2 requests).2) := rfl

/-! ## Corresponding answers -/

namespace Link

variable {k : Link} {h h' : Heap} {known : List Word}

/-- Two answers with the heaps they leave correspond under an extension of the link. -/
def Agrees (k : Link) (x y : Answer × Heap) : Prop :=
  ∃ k' : Link, k.Extends k' ∧ k'.Matches x.2 y.2 ∧ y.1 = x.1.rename k'.toRenaming ∧ ∀ w ∈ x.1.learned, k'.Covers w

theorem covers_default (k : Link) : k.Covers default := .of_isImmediate (by decide)

theorem covers_word (hk : ∀ w ∈ known, k.Covers w) (a : Operand) : k.Covers (a.word known) := by
  cases a with
  | immediate w hw => exact .of_isImmediate hw
  | known n =>
    show k.Covers (known.getD n default)
    rw [List.getD_eq_getElem?_getD]
    cases hn : known[n]? with
    | none => exact k.covers_default
    | some w => exact hk w (List.mem_of_getElem? hn)

theorem word_map_rename (ρ : Renaming) (a : Operand) :
    a.word (known.map (Word.rename ρ)) = (a.word known).rename ρ := by
  cases a with
  | immediate w hw => exact (Word.rename_of_isImmediate hw).symm
  | known n =>
    show (known.map (Word.rename ρ)).getD n default = (known.getD n default).rename ρ
    rw [List.getD_eq_getElem?_getD, List.getD_eq_getElem?_getD, List.getElem?_map]
    cases known[n]? with
    | none => exact (Word.rename_of_isImmediate (w := default) (by decide)).symm
    | some w => rfl

theorem learned_rename (ρ : Renaming) (a : Answer) : (a.rename ρ).learned = a.learned.map (Word.rename ρ) := by
  cases a <;> rfl

theorem Extends.rename_answer {k k' : Link} (he : k.Extends k') {a : Answer} (ha : ∀ w ∈ a.learned, k.Covers w) :
    a.rename k'.toRenaming = a.rename k.toRenaming := by
  cases a with
  | words ws => exact congrArg Answer.words (he.map_rename ha)
  | number | bytes | fault => rfl

/-! ### Looking -/

theorem Matches.pairCell (hm : k.Matches h h') {w : Word} (hw : k.Covers w) (operation : String) :
    h'.pairCell (w.rename k.toRenaming) operation = (h.pairCell w operation).map (Cell.rename k.toRenaming) := by
  by_cases hp : w.isPair
  · rw [Heap.pairCell_of_isPair hp, Heap.pairCell_of_isPair (by rwa [Word.isPair_rename]),
      hm.read_word hw (Word.hasCell_of_isPair hp)]
    rfl
  · rw [Heap.pairCell_of_not_isPair hp, Heap.pairCell_of_not_isPair (by rwa [Word.isPair_rename]),
      Word.typeName_rename]
    rfl

theorem Matches.car (hm : k.Matches h h') {w : Word} (hw : k.Covers w) :
    h'.car (w.rename k.toRenaming) = (h.car w).map (Word.rename k.toRenaming) := by
  unfold Heap.car
  rw [hm.pairCell hw]
  cases h.pairCell w "car" <;> rfl

theorem Matches.cdr (hm : k.Matches h h') {w : Word} (hw : k.Covers w) :
    h'.cdr (w.rename k.toRenaming) = (h.cdr w).map (Word.rename k.toRenaming) := by
  unfold Heap.cdr
  rw [hm.pairCell hw]
  cases h.pairCell w "cdr" <;> rfl

theorem Matches.covers_car (hm : k.Matches h h') {v w : Word} (hw : k.Covers w) (hv : h.car w = .ok v) :
    k.Covers v := by
  unfold Heap.car Heap.pairCell at hv
  split at hv
  case isTrue hp =>
    cases hv
    exact (hm.held _ (hw.cell (Word.hasCell_of_isPair hp))).1
  case isFalse => cases hv

theorem Matches.covers_cdr (hm : k.Matches h h') {v w : Word} (hw : k.Covers w) (hv : h.cdr w = .ok v) :
    k.Covers v := by
  unfold Heap.cdr Heap.pairCell at hv
  split at hv
  case isTrue hp =>
    cases hv
    exact (hm.held _ (hw.cell (Word.hasCell_of_isPair hp))).2
  case isFalse => cases hv

theorem closurePair_rename_none {w : Word} (hp : w.closurePair? = none) :
    (w.rename k.toRenaming).closurePair? = none := by
  unfold Word.closurePair? at hp ⊢
  rw [Word.isClosure_rename]
  split at hp
  case isTrue => cases hp
  case isFalse hc => rw [if_neg hc]

/-- The pair that stands for a closure corresponds as the closure does. -/
theorem covers_closurePair {w p : Word} (hw : k.Covers w) (hp : w.closurePair? = some p) :
    k.Covers p ∧ (w.rename k.toRenaming).closurePair? = some (p.rename k.toRenaming) := by
  unfold Word.closurePair? at hp
  split at hp
  case isTrue hc =>
    cases hp
    have hcell : w.hasCell := by simp [Word.hasCell, hc]
    refine ⟨⟨fun _ => ?_, fun ht => ?_⟩, ?_⟩
    · rw [Word.payload_pair]
      exact hw.cell hcell
    · rw [Word.not_hasText_of_hasCell (Word.hasCell_pair _)] at ht
      cases ht
    · rw [Word.closurePair?, if_pos (by rwa [Word.isClosure_rename]), Word.payload_rename_cell hcell, Word.rename_pair]
  case isFalse => cases hp

/-- What is found in the second heap is what is found in the first one, renamed. -/
theorem Matches.look (hm : k.Matches h h') {α : Type} {answer : α → Answer} {x y : Except Fault α} {f : α → α}
    (hy : y = x.map f) (hanswer : ∀ a, x = .ok a → answer (f a) = (answer a).rename k.toRenaming)
    (hx : ∀ a, x = .ok a → ∀ w ∈ (answer a).learned, k.Covers w) :
    k.Agrees (Request.look answer x h) (Request.look answer y h') := by
  subst hy
  cases x with
  | error e => exact ⟨k, .refl k, hm, rfl, by simp [Request.look, Answer.learned]⟩
  | ok a => exact ⟨k, .refl k, hm, hanswer a rfl, hx a rfl⟩

def renameParts (ρ : Renaming) (parts : Heap.ClosureParts) : Heap.ClosureParts :=
  ⟨parts.env.rename ρ, parts.params.rename ρ, parts.body.rename ρ⟩

theorem Matches.closureParts (hm : k.Matches h h') {w : Word} (hw : k.Covers w) :
    h'.closureParts (w.rename k.toRenaming) = (h.closureParts w).map (renameParts k.toRenaming) := by
  unfold Heap.closureParts
  cases hp : w.closurePair? with
  | none =>
    rw [closurePair_rename_none hp, Word.typeName_rename]
    rfl
  | some p =>
    obtain ⟨hcp, hp'⟩ := covers_closurePair hw hp
    simp only [hp', hm.car hcp, hm.cdr hcp]
    cases h.car p with
    | error f => rfl
    | ok env =>
      cases hcode : h.cdr p with
      | error f => rfl
      | ok code =>
        have hcc := hm.covers_cdr hcp hcode
        simp only [Except.map, bind, Except.bind, hm.car hcc, hm.cdr hcc]
        cases h.car code with
        | error f => rfl
        | ok params => cases h.cdr code <;> rfl

theorem Matches.covers_closureParts (hm : k.Matches h h') {w : Word} (hw : k.Covers w) {parts : Heap.ClosureParts}
    (hparts : h.closureParts w = .ok parts) : k.Covers parts.env ∧ k.Covers parts.params ∧ k.Covers parts.body := by
  unfold Heap.closureParts at hparts
  cases hp : w.closurePair? with
  | none => simp [hp, throw, throwThe, MonadExceptOf.throw] at hparts
  | some p =>
    obtain ⟨hcp, -⟩ := covers_closurePair hw hp
    simp only [hp, bind, Except.bind] at hparts
    cases henv : h.car p with
    | error f => simp [henv] at hparts
    | ok env =>
      cases hcode : h.cdr p with
      | error f => simp [henv, hcode] at hparts
      | ok code =>
        have hcc := hm.covers_cdr hcp hcode
        cases hparams : h.car code with
        | error f => simp [henv, hcode, hparams] at hparts
        | ok params =>
          cases hbody : h.cdr code with
          | error f => simp [henv, hcode, hparams, hbody] at hparts
          | ok body =>
            simp only [henv, hcode, hparams, hbody, pure, Except.pure, Except.ok.injEq] at hparts
            subst hparts
            exact ⟨hm.covers_car hcp henv, hm.covers_car hcc hparams, hm.covers_cdr hcc hbody⟩

theorem Matches.listItems (hm : k.Matches h h') {w : Word} (hw : k.Covers w) (operation : String) :
    h'.listItems (w.rename k.toRenaming) operation =
      (h.listItems w operation).map (Array.map (Word.rename k.toRenaming)) := by
  unfold Heap.listItems
  rw [hm.spine hw]
  cases h.spine w with
  | none => rfl
  | some s =>
    show (if (s.tail.rename k.toRenaming).isNull then _ else _) = _
    rw [Word.isNull_rename]
    simp only [Heap.Spine.rename, Word.typeName_rename]
    split <;> rfl

theorem Matches.covers_listItems (hm : k.Matches h h') {w : Word} (hw : k.Covers w) {operation : String}
    {items : Array Word} (hitems : h.listItems w operation = .ok items) : ∀ v ∈ items, k.Covers v := by
  unfold Heap.listItems at hitems
  cases hs : h.spine w with
  | none => simp [hs] at hitems
  | some s =>
    simp only [hs] at hitems
    split at hitems
    case isTrue =>
      cases hitems
      exact (hm.covers_spine hw hs).1
    case isFalse => cases hitems

theorem Matches.listLength (hm : k.Matches h h') {w : Word} (hw : k.Covers w) (operation : String) :
    h'.listLength (w.rename k.toRenaming) operation = (h.listLength w operation).map id := by
  unfold Heap.listLength
  rw [hm.spine hw]
  cases h.spine w with
  | none => rfl
  | some s => simp [Heap.Spine.rename, Except.map]

theorem Matches.listTail (hm : k.Matches h h') {w : Word} (hw : k.Covers w) :
    h'.listTail (w.rename k.toRenaming) = (h.listTail w).map (Word.rename k.toRenaming) := by
  unfold Heap.listTail
  rw [hm.spine hw]
  cases h.spine w <;> rfl

theorem Matches.covers_listTail (hm : k.Matches h h') {w v : Word} (hw : k.Covers w) (hv : h.listTail w = .ok v) :
    k.Covers v := by
  unfold Heap.listTail at hv
  cases hs : h.spine w with
  | none => simp [hs] at hv
  | some s =>
    simp only [hs, Except.ok.injEq] at hv
    exact hv ▸ (hm.covers_spine hw hs).2

theorem Matches.stringBytes (hm : k.Matches h h') {w : Word} (hw : k.Covers w) :
    h'.stringBytes (w.rename k.toRenaming) = (h.stringBytes w).map id := by
  unfold Heap.stringBytes
  rw [Word.isString_rename, Word.isSymbol_rename, Word.typeName_rename]
  split
  case isTrue ht =>
    have htext : w.hasText := by rwa [Word.hasText, Bool.or_comm]
    rw [Word.payload_rename_text htext, hm.readText _ (hw.text htext)]
    rfl
  case isFalse => rfl

/-! ### Changing -/

/-- The first heap is exhausted, or both heaps make corresponding words. -/
def Makes (k : Link) (x y : EStateM.Result Fault Heap Word) : Prop :=
  (∃ f h₁, x = .error f h₁ ∧ (Answer.fault f).isExhausted) ∨
    ∃ k' w h₁ h₁', x = .ok w h₁ ∧ y = .ok (w.rename k'.toRenaming) h₁' ∧ k.Extends k' ∧ k'.Matches h₁ h₁' ∧ k'.Covers w

theorem Makes.agrees {x y : HeapM Word} (hxy : k.Makes (x h) (y h'))
    (hfree : (Request.change (.words [·]) x h).1.isExhausted = false) :
    k.Agrees (Request.change (.words [·]) x h) (Request.change (.words [·]) y h') := by
  unfold Request.change at hfree ⊢
  obtain ⟨f, h₁, hx, hf⟩ | ⟨k', w, h₁, h₁', hx, hy, hext, hm, hw⟩ := hxy
  · simp [hx, hf] at hfree
  · rw [hx, hy]
    exact ⟨k', hext, hm, rfl, by simpa [Answer.learned] using hw⟩

theorem covers_newCell {i j : UInt32} {w : Word} (hw : w.payload = i) (hc : w.hasCell) : (k.withCell i j).Covers w :=
  ⟨fun _ => .inl hw, fun ht => by simp [Word.not_hasText_of_hasCell hc] at ht⟩

theorem Matches.cons (hm : k.Matches h h') {a d : Word} (ha : k.Covers a) (hd : k.Covers d) :
    k.Makes (Heap.cons a d h) (Heap.cons (a.rename k.toRenaming) (d.rename k.toRenaming) h') := by
  rw [Heap.cons_apply, Heap.cons_apply]
  cases hi : h.cells.next? with
  | none => exact .inl ⟨_, _, rfl, rfl⟩
  | some i =>
    obtain ⟨j, hj⟩ := Pool.exists_next_of_freeCount_le hm.free hi
    obtain ⟨hext, hm'⟩ := hm.alloc (c := ⟨a, d⟩) ha hd hi hj
    refine .inr ⟨k.withCell i j, .pair i, _, _, rfl, ?_, hext, hm',
      covers_newCell (Word.payload_pair i) (Word.hasCell_pair i)⟩
    rw [hj, Word.rename_pair, withCell_cells]
    rfl

theorem Matches.makeClosure (hm : k.Matches h h') {env code : Word} (he : k.Covers env) (hc : k.Covers code) :
    k.Makes (Heap.makeClosure env code h)
      (Heap.makeClosure (env.rename k.toRenaming) (code.rename k.toRenaming) h') := by
  rw [Heap.makeClosure_apply, Heap.makeClosure_apply]
  cases hi : h.cells.next? with
  | none => exact .inl ⟨_, _, rfl, rfl⟩
  | some i =>
    obtain ⟨j, hj⟩ := Pool.exists_next_of_freeCount_le hm.free hi
    obtain ⟨hext, hm'⟩ := hm.alloc (c := ⟨env, code⟩) he hc hi hj
    refine .inr ⟨k.withCell i j, .closure i, _, _, rfl, ?_, hext, hm',
      covers_newCell (Word.payload_closure i) (Word.hasCell_closure i)⟩
    rw [hj, Word.rename_closure, withCell_cells]
    rfl

theorem Matches.newString (hm : k.Matches h h') (bytes : ByteArray) :
    k.Makes (Heap.makeString bytes h) (Heap.makeString bytes h') := by
  rw [Heap.makeString_apply, Heap.makeString_apply]
  cases hi : h.strings.next? with
  | none => exact .inl ⟨_, _, rfl, rfl⟩
  | some i =>
    obtain ⟨j, hj⟩ := Pool.exists_next_of_freeCount_le hm.freeText hi
    obtain ⟨hext, hm'⟩ := hm.makeString bytes hi hj
    have hcov : (k.withText i j).Covers (.string i) :=
      ⟨fun hc => by simp [Word.not_hasCell_of_hasText] at hc, fun _ => .inl (Word.payload_string i)⟩
    refine .inr ⟨k.withText i j, .string i, _, _, rfl, ?_, hext, hm', hcov⟩
    rw [hj, Word.rename_string, withText_strings]

/-- A list is made cell by cell, each under an extension of the link before. -/
theorem Matches.consAll {items : List Word} {k : Link} {h h' : Heap} (hm : k.Matches h h') {tail : Word}
    (hitems : ∀ v ∈ items, k.Covers v) (htail : k.Covers tail) :
    k.Makes (Heap.consAll items tail h)
      (Heap.consAll (items.map (Word.rename k.toRenaming)) (tail.rename k.toRenaming) h') := by
  induction items generalizing k h h' tail with
  | nil => exact .inr ⟨k, tail, h, h', rfl, rfl, .refl k, hm, htail⟩
  | cons item items ih =>
    rw [List.forall_mem_cons] at hitems
    rw [List.map_cons, Heap.consAll_cons_apply, Heap.consAll_cons_apply]
    obtain ⟨f, h₁, hx, hf⟩ | ⟨k₁, w, h₁, h₁', hx, hy, hext, hm₁, hw⟩ := hm.cons hitems.1 htail
    · rw [hx]
      exact .inl ⟨f, h₁, rfl, hf⟩
    · rw [hx, hy, ← hext.map_rename hitems.2]
      obtain hex | ⟨k₂, w₂, h₂, h₂', hx₂, hy₂, hext₂, hrest⟩ := ih hm₁ (fun v hv => (hitems.2 v hv).extend hext) hw
      · exact .inl hex
      · exact .inr ⟨k₂, w₂, h₂, h₂', hx₂, hy₂, hext.trans hext₂, hrest⟩

theorem Matches.listOf (hm : k.Matches h h') {items : List Word} (hitems : ∀ v ∈ items, k.Covers v) :
    k.Makes (Heap.listOf items h) (Heap.listOf (items.map (Word.rename k.toRenaming)) h') := by
  unfold Heap.listOf
  have hnil : (Word.nil).isImmediate := by decide
  have hmake := hm.consAll (fun v hv => hitems v (List.mem_reverse.1 hv)) (.of_isImmediate hnil)
  rwa [Word.rename_of_isImmediate hnil, List.map_reverse] at hmake

/-- A change of the cell of a pair. -/
theorem Matches.updatePair (hm : k.Matches h h') {w : Word} (hw : k.Covers w) (operation : String) {f g : Cell → Cell}
    (hfg : ∀ c, g (c.rename k.toRenaming) = (f c).rename k.toRenaming)
    (hf : ∀ c : Cell, k.Covers c.car → k.Covers c.cdr → k.Covers (f c).car ∧ k.Covers (f c).cdr) :
    k.Agrees (Request.change (fun _ => .words []) (Heap.updatePair w operation f) h)
      (Request.change (fun _ => .words []) (Heap.updatePair (w.rename k.toRenaming) operation g) h') := by
  unfold Request.change
  by_cases hp : w.isPair
  · have hc := Word.hasCell_of_isPair hp
    have hcell := hw.cell hc
    obtain ⟨ha, hd⟩ := hm.held _ hcell
    obtain ⟨ha', hd'⟩ := hf _ ha hd
    rw [Heap.updatePair_of_isPair hp, Heap.updatePair_of_isPair (by rwa [Word.isPair_rename]),
      Word.payload_rename_cell hc]
    exact ⟨k, .refl k, hm.update hcell (hfg _) ha' hd', rfl, by simp [Answer.learned]⟩
  · rw [Heap.updatePair_of_not_isPair hp, Heap.updatePair_of_not_isPair (by rwa [Word.isPair_rename]),
      Word.typeName_rename]
    exact ⟨k, .refl k, hm, rfl, by simp [Answer.learned]⟩

theorem Matches.pushRoot (hm : k.Matches h h') {w : Word} (hw : k.Covers w) :
    k.Agrees (Request.change .number (Heap.pushRoot w) h)
      (Request.change .number (Heap.pushRoot (w.rename k.toRenaming)) h') := by
  have hsize : h'.roots.size = h.roots.size := by rw [hm.roots, Array.size_map]
  unfold Request.change
  by_cases hlt : h.roots.size < h.rootCapacity
  · rw [Heap.pushRoot_of_lt hlt, Heap.pushRoot_of_lt (by rwa [hsize, hm.rootCapacity]), hsize]
    have hroots : ∀ v ∈ h.roots.push w, k.Covers v := by
      intro v hv
      obtain hv | rfl := Array.mem_push.1 hv
      · exact hm.rooted v hv
      · exact hw
    have hm' := hm.withRoots hroots
    rw [Array.map_push, ← hm.roots] at hm'
    exact ⟨k, .refl k, hm', rfl, by simp [Answer.learned]⟩
  · rw [Heap.pushRoot_of_not_lt hlt, Heap.pushRoot_of_not_lt (by rwa [hsize, hm.rootCapacity]), hm.rootCapacity]
    exact ⟨k, .refl k, hm, rfl, by simp [Answer.learned]⟩

theorem Matches.setRoot (hm : k.Matches h h') {w : Word} (hw : k.Covers w) (position : Nat) :
    k.Matches (h.setRoot position w) (h'.setRoot position (w.rename k.toRenaming)) := by
  have hroots : ∀ v ∈ h.roots.setIfInBounds position w, k.Covers v := by
    intro v hv
    obtain hv | rfl := Array.mem_or_eq_of_mem_setIfInBounds hv
    · exact hm.rooted v hv
    · exact hw
  have hm' := hm.withRoots hroots
  rwa [Array.map_setIfInBounds, ← hm.roots] at hm'

theorem Matches.truncateRoots (hm : k.Matches h h') (depth : Nat) :
    k.Matches (h.truncateRoots depth) (h'.truncateRoots depth) := by
  have hroots : ∀ v ∈ h.roots.extract 0 depth, k.Covers v := by
    intro v hv
    obtain ⟨i, hi, rfl⟩ := Array.mem_extract_iff_getElem.1 hv
    exact hm.rooted _ (Array.getElem_mem _)
  have hm' := hm.withRoots hroots
  rwa [Array.map_extract, ← hm.roots, ← Heap.truncateRoots_eq, ← Heap.truncateRoots_eq] at hm'

/-! ## Runs -/

/-- Heaps that match answer a request alike, unless the first one is exhausted. -/
theorem Matches.perform (hm : k.Matches h h') (hk : ∀ w ∈ known, k.Covers w) (request : Request)
    (hfree : (request.perform known h).1.isExhausted = false) :
    k.Agrees (request.perform known h) (request.perform (known.map (Word.rename k.toRenaming)) h') := by
  have hcov := covers_word hk
  cases request with
  | cons a d =>
    simp only [Request.perform, word_map_rename] at hfree ⊢
    exact (hm.cons (hcov a) (hcov d)).agrees hfree
  | makeClosure env code =>
    simp only [Request.perform, word_map_rename] at hfree ⊢
    exact (hm.makeClosure (hcov env) (hcov code)).agrees hfree
  | car p =>
    simp only [Request.perform, word_map_rename]
    refine hm.look (hm.car (hcov p)) (fun _ _ => rfl) fun a ha => ?_
    simpa [Answer.learned] using hm.covers_car (hcov p) ha
  | cdr p =>
    simp only [Request.perform, word_map_rename]
    refine hm.look (hm.cdr (hcov p)) (fun _ _ => rfl) fun a ha => ?_
    simpa [Answer.learned] using hm.covers_cdr (hcov p) ha
  | setCar p v =>
    simp only [Request.perform, word_map_rename]
    exact hm.updatePair (hcov p) _ (fun _ => rfl) fun _ _ hd => ⟨hcov v, hd⟩
  | setCdr p v =>
    simp only [Request.perform, word_map_rename]
    exact hm.updatePair (hcov p) _ (fun _ => rfl) fun _ ha _ => ⟨ha, hcov v⟩
  | closureParts c =>
    simp only [Request.perform, word_map_rename]
    refine hm.look (hm.closureParts (hcov c)) (fun _ _ => rfl) fun parts hparts => ?_
    obtain ⟨henv, hparams, hbody⟩ := hm.covers_closureParts (hcov c) hparts
    simp [Request.answerParts, Answer.learned, henv, hparams, hbody]
  | listOf items =>
    simp only [Request.perform] at hfree ⊢
    have hitems : ∀ w ∈ items.map (Operand.word known), k.Covers w := by simpa using fun a _ => hcov a
    have hwords : Operand.word (known.map (Word.rename k.toRenaming)) = Word.rename k.toRenaming ∘ Operand.word known :=
      funext (word_map_rename k.toRenaming)
    rw [hwords, ← List.map_map]
    exact (hm.listOf hitems).agrees hfree
  | listItems l operation =>
    simp only [Request.perform, word_map_rename]
    refine hm.look (hm.listItems (hcov l) operation) (fun a _ => ?_) fun a ha => ?_
    · simp [Answer.rename]
    · simpa [Answer.learned] using hm.covers_listItems (hcov l) ha
  | listLength l operation =>
    simp only [Request.perform, word_map_rename]
    exact hm.look (hm.listLength (hcov l) operation) (fun _ _ => rfl) (by simp [Answer.learned])
  | listTail l =>
    simp only [Request.perform, word_map_rename]
    refine hm.look (hm.listTail (hcov l)) (fun _ _ => rfl) fun a ha => ?_
    simpa [Answer.learned] using hm.covers_listTail (hcov l) ha
  | makeString bytes => exact (hm.newString bytes).agrees hfree
  | stringBytes s =>
    simp only [Request.perform, word_map_rename]
    exact hm.look (hm.stringBytes (hcov s)) (fun _ _ => rfl) (by simp [Answer.learned])
  | pushRoot v =>
    simp only [Request.perform, word_map_rename]
    exact hm.pushRoot (hcov v)
  | setRoot position v =>
    simp only [Request.perform, word_map_rename]
    exact ⟨k, .refl k, hm.setRoot (hcov v) position, rfl, by simp [Answer.learned]⟩
  | truncateRoots depth => exact ⟨k, .refl k, hm.truncateRoots depth, rfl, by simp [Request.perform, Answer.learned]⟩

/-- A sequence of requests gets corresponding answers under one renaming, the link's where that is fixed. -/
theorem Matches.performAll {requests : List Request} {k : Link} {h h' : Heap} {known : List Word}
    (hm : k.Matches h h') (hk : ∀ w ∈ known, k.Covers w)
    (hfree : ∀ a ∈ (performAll known h requests).1, a.isExhausted = false) :
    ∃ k' : Link, k.Extends k' ∧ k'.Matches (performAll known h requests).2
        (performAll (known.map (Word.rename k.toRenaming)) h' requests).2 ∧
      (performAll (known.map (Word.rename k.toRenaming)) h' requests).1 =
        (performAll known h requests).1.map (Answer.rename k'.toRenaming) := by
  induction requests generalizing k h h' known with
  | nil => exact ⟨k, .refl k, hm, rfl⟩
  | cons request requests ih =>
    rw [performAll_cons] at hfree
    obtain ⟨hfirst, hrest⟩ := List.forall_mem_cons.1 hfree
    obtain ⟨k₁, hext, hm₁, hanswer, hlearned⟩ := hm.perform hk request hfirst
    -- What is known after the first answer is covered by the extended link, which renames the old words as before.
    have hk₁ : ∀ w ∈ known ++ (request.perform known h).1.learned, k₁.Covers w := by
      intro w hw
      obtain hw | hw := List.mem_append.1 hw
      · exact (hk w hw).extend hext
      · exact hlearned w hw
    obtain ⟨k₂, hext₂, hm₂, hanswers⟩ := ih hm₁ hk₁ hrest
    have hknown : known.map (Word.rename k.toRenaming) ++
        (request.perform (known.map (Word.rename k.toRenaming)) h').1.learned =
        (known ++ (request.perform known h).1.learned).map (Word.rename k₁.toRenaming) := by
      rw [List.map_append, hext.map_rename hk, hanswer, learned_rename]
    rw [performAll_cons, performAll_cons, hknown]
    refine ⟨k₂, hext.trans hext₂, hm₂, ?_⟩
    rw [List.map_cons, hanswers, hanswer, hext₂.rename_answer hlearned]

end Link

/-! ## Collecting -/

namespace Heap

variable {h : Heap}

/-- The slots that live on after a collection, under their old names. -/
def survivors (h : Heap) (extra : List Word) : Link where
  cells := 1
  strings := 1
  hasCell i := (h.collect extra).2.cells.IsLive i
  hasText i := (h.collect extra).2.strings.IsLive i

theorem rename_survivors (h : Heap) (extra : List Word) (w : Word) : w.rename (h.survivors extra).toRenaming = w :=
  Word.rename_one w

/-- In a whole heap the words that the roots reach survive. -/
theorem Sound.survives (hs : h.Sound) (hw : h.Whole) {extra : List Word}
    (hroots : ∀ w ∈ h.roots.toList ++ extra, h.LiveWord w) {w : Word}
    (hreach : h.Reaches (h.roots.toList ++ extra) w) : (h.survivors extra).Covers w := by
  have hc := hs.collected extra
  have hlive := hreach.liveWord hw hroots
  exact ⟨fun hcell => (hc.cells.isLive _).2 ⟨hlive.cell hcell, w, hreach, hcell, rfl⟩,
    fun htext => (hc.strings.isLive _).2 ⟨hlive.text htext, w, hreach, htext, rfl⟩⟩

/-- A whole heap and the heap after a collection match on the slots that survive. -/
theorem Sound.survivors_matches (hs : h.Sound) (hw : h.Whole) {extra : List Word}
    (hroots : ∀ w ∈ h.roots.toList ++ extra, h.LiveWord w) :
    (h.survivors extra).Matches h (h.collect extra).2 := by
  have hc := hs.collected extra
  refine ⟨hs, hs.collect extra, hc.cells.capacity, hc.rootCapacity, hc.cells.freeCount_le, hc.strings.freeCount_le,
    ?_, ?_, ?_, ?_, ?_, ?_, ?_⟩
  · intro i hi
    exact ⟨((hc.cells.isLive i).1 hi).1, hi⟩
  · intro i hi
    show (h.collect extra).2.cells.read i = ⟨_, _⟩
    rw [hc.cells.read_live i hi, rename_survivors, rename_survivors]
  · intro i hi
    obtain ⟨-, w, hreach, hcell, rfl⟩ := (hc.cells.isLive i).1 hi
    exact ⟨hs.survives hw hroots (hreach.car hcell), hs.survives hw hroots (hreach.cdr hcell)⟩
  · intro i hi
    exact ⟨((hc.strings.isLive i).1 hi).1, hi⟩
  · intro i hi
    exact hc.strings.read_live i hi
  · rw [hc.roots, funext (rename_survivors h extra), Array.map_id']
  · intro w hmem
    exact hs.survives hw hroots (.root (List.mem_append_left _ (Array.mem_toList_iff.2 hmem)))

/-- A mutator that knows only the root stack and the extra roots of a collection gets the same answers with and
without the collection, up to one renaming of cells and strings, unless the heap is exhausted without it. -/
theorem collect_invisible (hs : h.Sound) (hw : h.Whole) {extra : List Word}
    (hroots : ∀ w ∈ h.roots.toList ++ extra, h.LiveWord w) (requests : List Request)
    (hfree : ∀ a ∈ (performAll (h.roots.toList ++ extra) h requests).1, a.isExhausted = false) :
    ∃ ρ : Renaming, (∀ w ∈ h.roots.toList ++ extra, w.rename ρ = w) ∧
      (performAll (h.roots.toList ++ extra) (h.collect extra).2 requests).1 =
        (performAll (h.roots.toList ++ extra) h requests).1.map (Answer.rename ρ) ∧
      (performAll (h.roots.toList ++ extra) (h.collect extra).2 requests).2.roots =
        (performAll (h.roots.toList ++ extra) h requests).2.roots.map (Word.rename ρ) := by
  have hcov : ∀ w ∈ h.roots.toList ++ extra, (h.survivors extra).Covers w :=
    fun w hmem => hs.survives hw hroots (.root hmem)
  obtain ⟨k, hext, hm, hanswers⟩ := (hs.survivors_matches hw hroots).performAll hcov hfree
  rw [funext (rename_survivors h extra), List.map_id'] at hm hanswers
  refine ⟨k.toRenaming, fun w hmem => ?_, hanswers, hm.roots⟩
  rw [hext.rename (hcov w hmem), rename_survivors]

theorem isLive_ring {i : UInt32} (hi : ring.cells.IsLive i) : i = 2 ∨ i = 1 ∨ i = 0 := by
  unfold ring at hi
  rw [Pool.isLive_fill (by decide), Pool.isLive_fill (by decide), Pool.isLive_fill (by decide)] at hi
  obtain hi | hi | hi | hi := hi
  · exact .inl hi
  · exact .inr (.inl hi)
  · exact .inr (.inr hi)
  · exact absurd hi (Pool.not_isLive_fresh 4 i)

theorem whole_ring : ring.Whole := by
  intro i hi
  obtain rfl | rfl | rfl := isLive_ring hi
  · exact ⟨of_decide_eq_true (by cbv), of_decide_eq_true (by cbv)⟩
  · exact ⟨of_decide_eq_true (by cbv), of_decide_eq_true (by cbv)⟩
  · exact ⟨of_decide_eq_true (by cbv), of_decide_eq_true (by cbv)⟩

/-- Requests to a mutator of the ring: a new pair that holds the ring, put into the ring and read back. -/
def ringRequests : List Request :=
  [.cons (.known 0) (.immediate .nil (by decide)), .setCar (.known 0) (.known 1), .car (.known 0),
    .listLength (.known 0) "length"]

/-- The new pair gets cell 3 without a collection and the freed cell 2 after one. -/
theorem collect_invisible_ring :
    ring.Sound ∧ ring.Whole ∧ (∀ w ∈ ring.roots.toList ++ [], ring.LiveWord w) ∧
      (performAll [.pair 0] ring ringRequests).1 =
        [.words [.pair 3], .words [], .words [.pair 3], .fault (.circularList "length")] ∧
      ∃ ρ : Renaming, (Word.pair 0).rename ρ = .pair 0 ∧ (Word.pair 3).rename ρ = .pair 2 ∧
        (performAll [.pair 0] (ring.collect []).2 ringRequests).1 =
          (performAll [.pair 0] ring ringRequests).1.map (Answer.rename ρ) := by
  have hroots : ∀ w ∈ ring.roots.toList ++ [], ring.LiveWord w :=
    List.forall_mem_singleton.2 (of_decide_eq_true (by cbv))
  have hrun : (performAll [.pair 0] ring ringRequests).1 =
      [.words [.pair 3], .words [], .words [.pair 3], .fault (.circularList "length")] := by cbv
  have hrun' : (performAll [.pair 0] (ring.collect []).2 ringRequests).1 =
      [.words [.pair 2], .words [], .words [.pair 2], .fault (.circularList "length")] := by cbv
  have hfree : ∀ a ∈ (performAll [.pair 0] ring ringRequests).1, a.isExhausted = false := by
    rw [hrun]
    decide
  obtain ⟨ρ, hknown, hanswers, -⟩ := collect_invisible sound_ring whole_ring hroots ringRequests hfree
  refine ⟨sound_ring, whole_ring, hroots, hrun, ρ, hknown _ (by decide), ?_, hanswers⟩
  change (performAll [.pair 0] (ring.collect []).2 ringRequests).1 = _ at hanswers
  rw [hrun'] at hanswers
  change _ = (performAll [.pair 0] ring ringRequests).1.map _ at hanswers
  rw [hrun] at hanswers
  simpa [Answer.rename] using (List.cons.inj hanswers).1.symm

end Heap

end BoxedScheme
