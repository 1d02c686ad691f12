import BoxedScheme.Proofs.Actions

/-!
# What is read can be evaluated

A reader builds its data from new cells, and puts each of them into one place only. So the cells of a datum can be
given the roles of an expression's parts once the datum is complete, whatever these are.

* `Forest h ws cs` : the words `ws` are trees, which take up the cells `cs`;
* `Forest.paint` : the cells of trees can be given roles that fit any roles of the trees;
* `Built mem₀ ws mem` : since `mem₀` nothing changed but that the trees `ws` were built;
* `reads_complete`, `reads_close`, `reads_shift` : a token keeps the words in the open frames trees;
* `does_readDatum` : a datum that is read has the role of an expression.
-/

namespace BoxedScheme

/-! ## Trees -/

/-- The words are trees over the given cells, each of which is in one place of one tree. -/
inductive Forest (h : Heap) : List Word → List UInt32 → Prop where
  | nil : Forest h [] []
  | leaf {w : Word} {ws : List Word} {cs : List UInt32} : ¬ w.hasCell → h.LiveWord w → Forest h ws cs →
    Forest h (w :: ws) cs
  | node {w : Word} {ws : List Word} {cs : List UInt32} : w.isPair → h.cells.IsLive w.payload → w.payload ∉ cs →
    Forest h ((h.cells.read w.payload).cdr :: (h.cells.read w.payload).car :: ws) cs →
    Forest h (w :: ws) (w.payload :: cs)

/-- The next word of a tree decides what a binding's role must be. -/
def Role.Suits (h : Heap) : Role → Word → Prop
  | .clause s next, w => w.isPair → (h.cells.read w.payload).cdr.isPair →
    next = s.next (h.cells.read (h.cells.read w.payload).cdr.payload).car
  | .value s next, w => w.isPair → next = s.next (h.cells.read w.payload).car
  | _, _ => True

section Forest

variable {h h' : Heap} {v w : Word} {ws us : List Word} {cs : List UInt32} {r : Role}

theorem Role.suits_item (s : Shape) (h : Heap) (w : Word) : s.item.Suits h w := by
  cases s <;> trivial

theorem Role.Suits.splits (hr : r.Suits h w) (hw : w.isPair) :
    ∃ p q, Splits r (h.cells.read w.payload).car p q ∧ p.Suits h (h.cells.read w.payload).car ∧
      q.Suits h (h.cells.read w.payload).cdr := by
  cases r with
  | data => exact ⟨_, _, .data _, trivial, trivial⟩
  | inert => exact ⟨_, _, .inert _, trivial, trivial⟩
  | expr => exact ⟨_, _, .expr _, trivial, trivial⟩
  | operands s => exact ⟨_, _, .operands s _, suits_item s h _, trivial⟩
  | clauses s => exact ⟨_, _, .clauses s _ _, fun _ _ => rfl, trivial⟩
  | clause s next => exact ⟨_, _, .clause s next _, trivial, fun hcdr => hr hw hcdr⟩
  | value s next =>
    obtain rfl := hr hw
    exact ⟨_, _, .value s _, suits_item s h _, trivial⟩
  | closure => exact ⟨_, _, .closure _, trivial, trivial⟩
  | env => exact ⟨_, _, .env _, trivial, trivial⟩
  | frame => exact ⟨_, _, .frame _, trivial, trivial⟩
  | binding => exact ⟨_, _, .binding _, trivial, trivial⟩
  | args n => exact ⟨_, _, .args n _, trivial, trivial⟩

theorem Word.not_isClosure_of_isPair (hw : w.isPair) : ¬ w.isClosure := by
  intro hc
  simp only [isPair, isClosure, decide_eq_true_eq] at hw hc
  rw [hw] at hc
  cases hc

/-- Cells that are taken up once can be given roles from the top of each tree downwards. -/
theorem Forest.paint (hf : Forest h ws cs) {rs : List Role} (hrs : List.Forall₂ (Role.Suits h) rs ws) :
    ∃ paint : Roles, ∀ ρ : Roles, (∀ i ∈ cs, ρ i = paint i) →
      List.Forall₂ (Fits ρ h) rs ws ∧ ∀ i ∈ cs, CellFits ρ h (ρ i) (h.cells.read i) := by
  induction hf generalizing rs with
  | nil =>
    cases hrs
    exact ⟨fun _ => .data, fun _ _ => ⟨.nil, by simp⟩⟩
  | leaf hc hlive _ ih =>
    cases hrs with
    | cons hr hrs =>
      obtain ⟨paint, hpaint⟩ := ih hrs
      refine ⟨paint, fun ρ hρ => ?_⟩
      obtain ⟨hfits, hcells⟩ := hpaint ρ hρ
      exact ⟨.cons (.of_not_hasCell hlive hc) hfits, hcells⟩
  | @node w ws cs hp hlive hfresh _ ih =>
    cases hrs with
    | @cons r _ rs _ hr hrs =>
      obtain ⟨p, q, hs, hcar, hcdr⟩ := hr.splits hp
      obtain ⟨paint, hpaint⟩ := ih (.cons hcdr (.cons hcar hrs))
      refine ⟨Function.update paint w.payload r, fun ρ hρ => ?_⟩
      rw [List.forall_mem_cons, Function.update_self] at hρ
      have hother : ∀ i ∈ cs, ρ i = paint i := fun i hi => by
        rw [hρ.2 i hi, Function.update_of_ne fun (he : i = w.payload) => hfresh (he ▸ hi)]
      obtain ⟨hfits, hcells⟩ := hpaint ρ hother
      cases hfits with
      | cons hcdr hfits =>
        cases hfits with
        | cons hcar hfits =>
          have hw : Fits ρ h r w := by
            refine ⟨⟨fun _ => hlive, fun ht => ?_⟩, fun _ => hρ.1, fun hc => ?_⟩
            · rw [Word.not_hasText_of_hasCell (Word.hasCell_of_isPair hp)] at ht
              cases ht
            · exact absurd hc (Word.not_isClosure_of_isPair hp)
          refine ⟨.cons hw hfits, List.forall_mem_cons.2 ⟨?_, hcells⟩⟩
          rw [hρ.1]
          exact ⟨p, q, hs, hcar, hcdr⟩

theorem Forest.isLive (hf : Forest h ws cs) : ∀ i ∈ cs, h.cells.IsLive i := by
  induction hf with
  | nil => simp
  | leaf _ _ _ ih => exact ih
  | node _ hlive _ _ ih => exact List.forall_mem_cons.2 ⟨hlive, ih⟩

/-- Trees stay trees as long as their cells are left alone. -/
theorem Forest.grow (hf : Forest h ws cs) (hcells : ∀ i, h.cells.IsLive i → h'.cells.IsLive i)
    (hread : ∀ i, h.cells.IsLive i → h'.cells.read i = h.cells.read i)
    (hstrings : ∀ i, h.strings.IsLive i → h'.strings.IsLive i) : Forest h' ws cs := by
  induction hf with
  | nil => exact .nil
  | leaf hc hlive _ ih => exact .leaf hc ⟨fun hw => hcells _ (hlive.cell hw), fun hw => hstrings _ (hlive.text hw)⟩ ih
  | node hp hlive hfresh _ ih =>
    rw [← hread _ hlive] at ih
    exact .node hp (hcells _ hlive) hfresh ih

/-- A word without a cell can stand anywhere. -/
theorem Forest.insert {vs : List Word} (hf : Forest h vs cs) (hc : ¬ v.hasCell) (hlive : h.LiveWord v) :
    ∀ us ws, vs = us ++ ws → Forest h (us ++ v :: ws) cs := by
  induction hf with
  | nil =>
    intro us ws hvs
    obtain ⟨rfl, rfl⟩ := List.append_eq_nil_iff.1 hvs.symm
    exact .leaf hc hlive .nil
  | @leaf w vs cs hcw hlivew hf ih =>
    intro us ws hvs
    cases us with
    | nil =>
      cases hvs
      exact .leaf hc hlive (.leaf hcw hlivew hf)
    | cons u us =>
      cases hvs
      exact .leaf hcw hlivew (ih us ws rfl)
  | @node w vs cs hp hlivew hfresh hf ih =>
    intro us ws hvs
    cases us with
    | nil =>
      cases hvs
      exact .leaf hc hlive (.node hp hlivew hfresh hf)
    | cons u us =>
      cases hvs
      exact .node hp hlivew hfresh (ih (_ :: _ :: us) ws rfl)

end Forest

/-! ## Building trees -/

/-- Since `mem₀` nothing changed but that symbols were interned and the trees `ws` were built. -/
structure Built (mem₀ : Memory) (ws : List Word) (mem : Memory) : Prop where
  sound : mem.heap.Sound
  forest : ∃ cs, Forest mem.heap ws cs ∧ (∀ i ∈ cs, ¬ mem₀.heap.cells.IsLive i) ∧
    ∀ i, mem.heap.cells.IsLive i → mem₀.heap.cells.IsLive i ∨ i ∈ cs
  cells : ∀ i, mem₀.heap.cells.IsLive i → mem.heap.cells.IsLive i
  read : ∀ i, mem₀.heap.cells.IsLive i → mem.heap.cells.read i = mem₀.heap.cells.read i
  strings : ∀ i, mem₀.heap.strings.IsLive i → mem.heap.strings.IsLive i
  roots : mem.heap.roots = mem₀.heap.roots
  symbols : ∀ w ∈ mem.symbols.values, (∃ i, w = .symbol i) ∧ mem.heap.LiveWord w
  names : ∀ w ∈ mem₀.symbols.values, w ∈ mem.symbols.values

section Built

variable {mem₀ mem : Memory} {ρ : Roles} {ws : List Word} {item tail w : Word}

theorem Memory.Valid.built (hv : mem.Valid ρ) : Built mem [] mem where
  sound := hv.typed.sound
  forest := ⟨[], .nil, by simp, fun _ hi => .inl hi⟩
  cells _ hi := hi
  read _ _ := rfl
  strings _ hi := hi
  roots := rfl
  symbols := hv.symbols
  names _ hw := hw

/-- Once everything is built, the trees can have any roles. -/
theorem Built.paint (hb : Built mem₀ ws mem) (hv : mem₀.Valid ρ) {rs : List Role}
    (hrs : List.Forall₂ (Role.Suits mem.heap) rs ws) :
    ∃ ρ', mem.Valid ρ' ∧ Later ρ mem₀ ρ' mem ∧ List.Forall₂ (Fits ρ' mem.heap) rs ws := by
  classical
  obtain ⟨cs, hforest, hfresh, hlive⟩ := hb.forest
  obtain ⟨paint, hpaint⟩ := hforest.paint hrs
  let ρ' : Roles := fun i => if i ∈ cs then paint i else ρ i
  have hold {i : UInt32} (hi : mem₀.heap.cells.IsLive i) : ρ' i = ρ i := if_neg fun hmem => hfresh i hmem hi
  obtain ⟨hfits, hcells⟩ := hpaint ρ' fun i hi => if_pos hi
  have hext : Extends ρ mem₀.heap ρ' mem.heap := fun d =>
    ⟨hb.cells, hb.strings, fun i hi _ => hold hi, fun i hi _ => hb.read i hi, by rw [hb.roots]⟩
  refine ⟨ρ', ⟨⟨hb.sound, fun i hi => ?_⟩, hb.symbols⟩, ⟨hext, hb.names⟩, hfits⟩
  by_cases hmem : i ∈ cs
  · exact hcells i hmem
  · have hi₀ := (hlive i hi).resolve_right hmem
    rw [hold hi₀, hb.read i hi₀]
    exact (hv.typed.cell i hi₀).extend hext

/-- An operation that leaves trees behind whether it fails or not. -/
def Reads {α : Type} (mem₀ : Memory) (r : EStateM.Result Fault Memory α) (Q : α → Memory → Prop) : Prop :=
  match r with
  | .ok a mem => Q a mem
  | .error _ mem => ∃ ws, Built mem₀ ws mem

theorem Reads.bind {α β : Type} {x : MemoryM α} {f : α → MemoryM β} {Q : α → Memory → Prop} {R : β → Memory → Prop}
    (hx : Reads mem₀ (x mem) Q) (hf : ∀ a mem', Q a mem' → Reads mem₀ (f a mem') R) :
    Reads mem₀ ((x >>= f) mem) R := by
  show Reads mem₀ (EStateM.bind x f mem) R
  unfold EStateM.bind
  cases hxm : x mem with
  | error e mem' =>
    rw [hxm] at hx
    exact hx
  | ok a mem' =>
    rw [hxm] at hx
    exact hf a mem' hx

theorem Built.leaf (hb : Built mem₀ ws mem) (hc : ¬ w.hasCell) (hlive : mem.heap.LiveWord w) :
    Built mem₀ (w :: ws) mem := by
  obtain ⟨cs, hforest, hfresh⟩ := hb.forest
  exact { hb with forest := ⟨cs, .leaf hc hlive hforest, hfresh⟩ }

theorem Built.immediate (hb : Built mem₀ ws mem) (hw : w.isImmediate) : Built mem₀ (w :: ws) mem := by
  refine hb.leaf ?_ (.of_isImmediate hw)
  simp only [Word.isImmediate, Bool.and_eq_true, Bool.not_eq_true'] at hw
  simp [hw.1]

/-- A pair of the first two trees takes their place. -/
theorem Built.cons (hb : Built mem₀ (tail :: item :: ws) mem) :
    Reads mem₀ (Memory.onHeap (Heap.cons item tail) mem) fun w mem' =>
      Built mem₀ (w :: ws) mem' ∧ mem'.symbols = mem.symbols := by
  obtain ⟨h, symbols⟩ := mem
  unfold Memory.onHeap
  simp only [Heap.cons_apply]
  cases hnext : h.cells.next? with
  | none => exact ⟨_, hb⟩
  | some i =>
    obtain ⟨hlt, hdead⟩ := hb.sound.cells.next_dead hnext
    obtain ⟨cs, hforest, hfresh, hlive⟩ := hb.forest
    have hisLive (j : UInt32) := Pool.isLive_fill hlt (⟨item, tail⟩ : Cell) j
    have hcells (j : UInt32) (hj : h.cells.IsLive j) : (h.cells.fill i ⟨item, tail⟩).IsLive j := (hisLive j).2 (.inr hj)
    have hread (j : UInt32) (hj : h.cells.IsLive j) : (h.cells.fill i ⟨item, tail⟩).read j = h.cells.read j := by
      rw [Pool.read_fill hlt, if_neg]
      rintro rfl
      exact hdead hj
    have hself : (h.cells.fill i ⟨item, tail⟩).read i = ⟨item, tail⟩ := by rw [Pool.read_fill hlt, if_pos rfl]
    have hgrown : Forest { h with cells := h.cells.fill i ⟨item, tail⟩ } (tail :: item :: ws) cs :=
      hforest.grow hcells hread fun _ hj => hj
    have hnode : Forest { h with cells := h.cells.fill i ⟨item, tail⟩ } (.pair i :: ws) (i :: cs) := by
      have hnode := @Forest.node { h with cells := h.cells.fill i ⟨item, tail⟩ } (.pair i) ws cs
      rw [Word.payload_pair, hself] at hnode
      refine hnode ?_ ((hisLive i).2 (.inl rfl)) (fun hmem => hdead (hforest.isLive i hmem)) hgrown
      simp [Word.isPair]
    refine ⟨⟨⟨hb.sound.cells.fill hnext _, hb.sound.strings⟩, ⟨i :: cs, hnode, ?_, fun j hj => ?_⟩,
      fun j hj => hcells j (hb.cells j hj), fun j hj => (hread j (hb.cells j hj)).trans (hb.read j hj), hb.strings,
      hb.roots, fun w hw => ?_, hb.names⟩, rfl⟩
    · exact List.forall_mem_cons.2 ⟨fun hi => hdead (hb.cells i hi), hfresh⟩
    · rcases (hisLive j).1 hj with rfl | hj
      · exact .inr List.mem_cons_self
      · exact (hlive j hj).imp_right (List.mem_cons_of_mem _)
    · obtain ⟨hs, hw⟩ := hb.symbols w hw
      exact ⟨hs, fun hc => hcells _ (hw.cell hc), hw.text⟩

theorem Built.consAll {items : List Word} (hb : Built mem₀ (tail :: items ++ ws) mem) :
    Reads mem₀ (Memory.onHeap (Heap.consAll items tail) mem) fun w mem' => Built mem₀ (w :: ws) mem' := by
  induction items generalizing tail mem with
  | nil => exact hb
  | cons item items ih =>
    have hcons := Built.cons hb
    obtain ⟨h, symbols⟩ := mem
    unfold Memory.onHeap at hcons ⊢
    simp only [Heap.consAll_cons_apply] at hcons ⊢
    cases hres : Heap.cons item tail h with
    | error e h' =>
      simp only [hres] at hcons ⊢
      exact hcons
    | ok pair h' =>
      simp only [hres] at hcons ⊢
      exact ih hcons.1

/-- A new string stands for itself, and for the symbol in its slot. -/
theorem Built.makeString (hb : Built mem₀ ws mem) (bytes : ByteArray) :
    Reads mem₀ (Memory.onHeap (Heap.makeString bytes) mem) fun w mem' =>
      Built mem₀ ws mem' ∧ mem'.heap.LiveWord (.string w.payload) ∧ w = .string w.payload := by
  obtain ⟨h, symbols⟩ := mem
  unfold Memory.onHeap
  simp only [Heap.makeString_apply]
  cases hnext : h.strings.next? with
  | none => exact ⟨_, hb⟩
  | some i =>
    obtain ⟨hlt, -⟩ := hb.sound.strings.next_dead hnext
    have hstrings (j : UInt32) (hj : h.strings.IsLive j) : (h.strings.fill i bytes).IsLive j :=
      (Pool.isLive_fill hlt _ j).2 (.inr hj)
    obtain ⟨cs, hforest, hfresh⟩ := hb.forest
    have hgrown : Forest { h with strings := h.strings.fill i bytes } ws cs :=
      hforest.grow (fun _ hj => hj) (fun _ _ => rfl) hstrings
    refine ⟨⟨⟨hb.sound.cells, hb.sound.strings.fill hnext bytes⟩, ⟨cs, hgrown, hfresh⟩, hb.cells, hb.read,
      fun j hj => hstrings j (hb.strings j hj), hb.roots, fun w hw => ?_, hb.names⟩, ⟨fun hc => ?_, fun _ => ?_⟩, ?_⟩
    · obtain ⟨hs, hw⟩ := hb.symbols w hw
      exact ⟨hs, hw.cell, fun ht => hstrings _ (hw.text ht)⟩
    · rw [Word.not_hasCell_of_hasText (Word.hasText_string _)] at hc
      cases hc
    · rw [Word.payload_string, Word.payload_string]
      exact (Pool.isLive_fill hlt _ i).2 (.inl rfl)
    · rw [Word.payload_string]

theorem Built.intern (hb : Built mem₀ ws mem) (name : ByteArray) :
    Reads mem₀ (Memory.intern name mem) fun w mem' => Built mem₀ ws mem' ∧ w ∈ mem'.symbols.values := by
  unfold Memory.intern
  cases hget : mem.symbols.get? name with
  | some symbol => exact ⟨hb, SymbolTable.mem_values hget⟩
  | none =>
    dsimp only
    have hmake := hb.makeString name
    cases hres : Memory.onHeap (Heap.makeString name) mem with
    | error e mem' =>
      rw [hres] at hmake
      exact hmake
    | ok string mem' =>
      rw [hres] at hmake
      obtain ⟨hb', hlive, -⟩ := hmake
      have hsymbol : mem'.heap.LiveWord (.symbol string.payload) := by
        refine ⟨fun hc => ?_, fun _ => ?_⟩
        · rw [Word.not_hasCell_of_hasText (Word.hasText_symbol _)] at hc
          cases hc
        · have htext := hlive.text (Word.hasText_string _)
          rw [Word.payload_string] at htext
          rwa [Word.payload_symbol]
      refine ⟨{ hb' with symbols := ?_, names := fun w hw => List.mem_cons_of_mem _ (hb'.names w hw) },
        List.mem_cons_self⟩
      exact List.forall_mem_cons.2 ⟨⟨⟨_, rfl⟩, hsymbol⟩, hb'.symbols⟩

/-- An interned symbol can stand anywhere among the trees. -/
theorem Built.insert (us : List Word) (hb : Built mem₀ (us ++ ws) mem) (hw : w ∈ mem.symbols.values) :
    Built mem₀ (us ++ w :: ws) mem := by
  obtain ⟨⟨i, rfl⟩, hlive⟩ := hb.symbols w hw
  obtain ⟨cs, hforest, hfresh⟩ := hb.forest
  refine { hb with forest := ⟨cs, hforest.insert ?_ hlive us ws rfl, hfresh⟩ }
  simp [Word.not_hasCell_of_hasText (Word.hasText_symbol i)]

end Built

/-! ## Tokens -/

namespace Reader

def Frame.words : Frame → List Word
  | .quote _ => []
  | .list _ items => items
  | .dotted _ items _ => items
  | .closing _ items tail => tail :: items

/-- All trees are in the open frames, or in the datum that is complete. -/
def Progress.Built (mem₀ : Memory) : Progress → Memory → Prop
  | .more frames, mem => BoxedScheme.Built mem₀ (frames.flatMap Frame.words) mem
  | .done datum, mem => ∃ ws, BoxedScheme.Built mem₀ (datum :: ws) mem
  | .failed _, mem => ∃ ws, BoxedScheme.Built mem₀ ws mem

variable {mem₀ mem : Memory}

theorem reads_complete {frames : List Frame} {datum : Word} (start : Location)
    (hb : BoxedScheme.Built mem₀ (datum :: frames.flatMap Frame.words) mem) :
    Reads mem₀ (complete frames start datum mem) (Progress.Built mem₀) := by
  induction frames generalizing start datum mem with
  | nil => exact ⟨_, hb⟩
  | cons frame frames ih =>
    cases frame with
    | quote start' =>
      refine (hb.intern _).bind fun quote mem₁ ⟨hb₁, hquote⟩ => ?_
      refine (Built.cons (hb₁.immediate (by decide : Word.nil.isImmediate))).bind fun tail mem₂ ⟨hb₂, hsame⟩ => ?_
      have hpair := Built.insert [tail] hb₂ (hsame ▸ hquote)
      exact (Built.cons hpair).bind fun pair mem₃ ⟨hb₃, _⟩ => ih start' hb₃
    | list start' items => exact hb
    | dotted start' items dot => exact hb
    | closing start' items tail => exact ⟨_, hb⟩

theorem reads_close {frames : List Frame} (loc : Location)
    (hb : BoxedScheme.Built mem₀ (frames.flatMap Frame.words) mem) :
    Reads mem₀ (close loc frames mem) (Progress.Built mem₀) := by
  cases frames with
  | nil => exact ⟨_, hb⟩
  | cons frame frames =>
    cases frame with
    | quote start => exact ⟨_, hb⟩
    | list start items =>
      refine (Built.consAll (hb.immediate (by decide : Word.nil.isImmediate))).bind fun w mem' hb' => ?_
      exact reads_complete start hb'
    | dotted start items dot => exact ⟨_, hb⟩
    | closing start items tail => exact (Built.consAll hb).bind fun w mem' hb' => reads_complete start hb'

theorem built_shiftDot {frames : List Frame} (loc : Location)
    (hb : BoxedScheme.Built mem₀ (frames.flatMap Frame.words) mem) : (shiftDot loc frames).Built mem₀ mem := by
  match frames with
  | [] | .quote _ :: _ | .list _ [] :: _ | .dotted .. :: _ | .closing .. :: _ => exact ⟨_, hb⟩
  | .list _ (_ :: _) :: _ => exact hb

theorem built_finish {frames : List Frame} (loc : Location)
    (hb : BoxedScheme.Built mem₀ (frames.flatMap Frame.words) mem) : (finish loc frames).Built mem₀ mem := by
  match frames with
  | [] => exact ⟨_, hb.immediate (by decide)⟩
  | .quote _ :: _ | .list .. :: _ | .dotted .. :: _ | .closing .. :: _ => exact ⟨_, hb⟩

theorem reads_shift {frames : List Frame} (lexeme : Lexeme)
    (hb : BoxedScheme.Built mem₀ (frames.flatMap Frame.words) mem) :
    Reads mem₀ (shift frames lexeme mem) (Progress.Built mem₀) := by
  unfold shift
  by_cases hdeep : maxDepth < frames.length
  · simp only [if_pos hdeep]
    exact ⟨_, hb⟩
  · simp only [if_neg hdeep]
    cases lexeme.token with
    | endOfFile => exact built_finish _ hb
    | rightParen => exact reads_close _ hb
    | dot => exact built_shiftDot _ hb
    | leftParen => exact hb
    | quote => exact hb
    | boolean b => exact reads_complete _ (hb.immediate (Word.isImmediate_boolean b))
    | number x => exact reads_complete _ (hb.immediate (Word.isImmediate_number x))
    | char c => exact reads_complete _ (hb.immediate (Word.isImmediate_char c))
    | string s =>
      refine (hb.makeString _).bind fun w mem' ⟨hb', hlive, hw⟩ => reads_complete _ (hb'.leaf ?_ (hw ▸ hlive))
      rw [hw]
      simp [Word.not_hasCell_of_hasText (Word.hasText_string _)]
    | symbol name =>
      exact (hb.intern _).bind fun w mem' ⟨hb', hw⟩ => reads_complete _ (Built.insert [] hb' hw)

theorem built_readTokens (frames : List Frame) (lexemes : List Lexeme)
    (hb : BoxedScheme.Built mem₀ (frames.flatMap Frame.words) mem) :
    match readTokens frames lexemes mem with
    | ((.ok datum, _), mem') => ∃ ws, BoxedScheme.Built mem₀ (datum :: ws) mem'
    | ((.error _, _), mem') => ∃ ws, BoxedScheme.Built mem₀ ws mem' := by
  induction lexemes generalizing frames mem with
  | nil => exact ⟨_, hb.immediate (by decide)⟩
  | cons lexeme lexemes ih =>
    have hshift := reads_shift lexeme hb
    unfold readTokens
    cases hres : shift frames lexeme mem with
    | error e mem' =>
      rw [hres] at hshift
      exact hshift
    | ok progress mem' =>
      rw [hres] at hshift
      cases progress with
      | more frames' => exact ih frames' hshift
      | done datum => exact hshift
      | failed e => exact hshift

end Reader

/-- A datum that is read has the role of an expression. -/
theorem does_readDatum {ρ : Roles} {m : Machine} (hv : m.Valid ρ) (r : Reader) :
    Does ρ m (Eval.readDatum r m) fun found ρ' m' => Fits ρ' m'.heap .expr found.1 := by
  have hread := Reader.built_readTokens [] r.pending hv.memory.built
  unfold Eval.readDatum Reader.read
  revert hread
  rcases Reader.readTokens [] r.pending m.toMemory with ⟨⟨outcome, pending⟩, mem⟩
  have hsuits (ws : List Word) : List.Forall₂ (Role.Suits mem.heap) (ws.map fun _ => .data) ws := by
    induction ws with
    | nil => exact .nil
    | cons w ws ih => exact .cons trivial ih
  -- What was read is a forest of new cells, so its roles can be chosen after the fact.
  cases outcome with
  | error e =>
    rintro ⟨ws, hb⟩
    obtain ⟨ρ', hmem, hl, -⟩ := hb.paint hv.memory (hsuits ws)
    exact ⟨ρ', hv.withMemory hmem hl, hl.heap, hl.names⟩
  | ok datum =>
    rintro ⟨ws, hb⟩
    have hexpr : Role.Suits mem.heap .expr datum := trivial
    obtain ⟨ρ', hmem, hl, hfits⟩ := hb.paint hv.memory (.cons hexpr (hsuits ws))
    cases hfits with
    | cons hdatum _ => exact ⟨ρ', hv.withMemory hmem hl, ⟨hl.heap, hl.names⟩, hdatum⟩

end BoxedScheme
