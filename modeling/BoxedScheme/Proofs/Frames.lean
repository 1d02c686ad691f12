import BoxedScheme.Proofs.Data
import BoxedScheme.Proofs.Roles
import BoxedScheme.Proofs.Room
import BoxedScheme.Session

/-!
# Environments as linked frames

An environment is a list of links. A link holds a frame, a frame is a list of entries, and an entry holds a binding.
The cells of environments are of these three layers. Environments may share links, but no cell is of two layers, and
following the links or the entries comes to an end; so a cell that is written at one layer changes nothing that is read
at another.

* `Heap.Links h w is tail` : the pairs from `w` on are the cells `is`, and end in `tail`;
* `Heap.Occurs h parts l w` : following cells down from the given parts, `w` is met at the layer `l`;
* `Heap.Hosts h parts` : the cells met are live, each is of one layer, and lists end;
* `Heap.Hosts.lookup_eq` : the value of a symbol as a search through the bindings, frame after frame;
* `Heap.Hosts.cons`, `Heap.Hosts.reframes` : a new cell, and a new frame for a link;
* `Heap.Exposes h symbol env env'` : a binding of `symbol` in the frame of `env` counts in `env'`.
-/

namespace BoxedScheme

theorem Word.not_isPair_of_isSymbol {w : Word} (hw : w.isSymbol) : ¬ w.isPair := by
  simp only [Word.isSymbol, Word.isPair, decide_eq_true_eq] at hw ⊢
  simp [hw]

theorem Word.not_isPair_of_isNull {w : Word} (hw : w.isNull) : ¬ w.isPair := by
  simp only [Word.isNull, Word.isPair, decide_eq_true_eq] at hw ⊢
  simp [hw]

namespace Heap

variable {h h' : Heap} {w tail tail' : Word} {is js : List UInt32} {items : List Word}

/-! ## The cells of a list -/

theorem Lists.of_isPair (hl : h.Lists w items tail) (hw : w.isPair) :
    ∃ rest, items = (h.cells.read w.payload).car :: rest ∧ h.Lists (h.cells.read w.payload).cdr rest tail := by
  cases hl with
  | nil hw' => exact absurd hw hw'
  | cons _ hrest => exact ⟨_, rfl, hrest⟩

theorem Lists.of_not_isPair (hl : h.Lists w items tail) (hw : ¬ w.isPair) : items = [] ∧ tail = w := by
  cases hl with
  | nil => exact ⟨rfl, rfl⟩
  | cons hw' => exact absurd hw' hw

/-- The pairs from a word on are in these cells, and end in `tail`. -/
inductive Links (h : Heap) : Word → List UInt32 → Word → Prop where
  | nil {w : Word} : ¬ w.isPair → Links h w [] w
  | cons {w tail : Word} {is : List UInt32} : w.isPair → Links h (h.cells.read w.payload).cdr is tail →
    Links h w (w.payload :: is) tail

theorem Links.lists (hl : h.Links w is tail) : h.Lists w (is.map fun i => (h.cells.read i).car) tail := by
  induction hl with
  | nil hw => exact .nil hw
  | cons hw _ ih => exact .cons hw ih

theorem Lists.exists_links (hl : h.Lists w items tail) :
    ∃ is, h.Links w is tail ∧ items = is.map fun i => (h.cells.read i).car := by
  induction hl with
  | nil hw => exact ⟨[], .nil hw, rfl⟩
  | cons hw _ ih =>
    obtain ⟨is, hlinks, rfl⟩ := ih
    exact ⟨_, .cons hw hlinks, rfl⟩

theorem Links.unique (hl : h.Links w is tail) (hl' : h.Links w js tail') : is = js ∧ tail = tail' := by
  induction hl generalizing js with
  | nil hw =>
    cases hl' with
    | nil => exact ⟨rfl, rfl⟩
    | cons hw' => exact absurd hw' hw
  | cons hw _ ih =>
    cases hl' with
    | nil hw' => exact absurd hw hw'
    | cons _ hrest =>
      obtain ⟨rfl, rfl⟩ := ih hrest
      exact ⟨rfl, rfl⟩

/-- What follows a cell of a list is a list as well. -/
theorem Links.after {i : UInt32} (hl : h.Links w (is ++ i :: js) tail) : h.Links (h.cells.read i).cdr js tail := by
  induction is generalizing w with
  | nil =>
    cases hl with
    | cons _ hrest => exact hrest
  | cons j is ih =>
    cases hl with
    | cons _ hrest => exact ih hrest

/-- No list comes back to one of its cells. -/
theorem Links.nodup (hl : h.Links w is tail) : is.Nodup := by
  induction hl with
  | nil => exact List.nodup_nil
  | @cons w tail is _ hrest ih =>
    refine List.nodup_cons.2 ⟨fun hmem => ?_, ih⟩
    obtain ⟨xs, ys, rfl⟩ := List.append_of_mem hmem
    -- behind its second occurrence the cell would be followed by a shorter list
    have hlength := congrArg List.length (hrest.unique hrest.after).1
    simp only [List.length_append, List.length_cons] at hlength
    omega

/-- Links are read from the second halves of cells. -/
theorem Links.transport (hl : h.Links w is tail)
    (hcdr : ∀ i ∈ is, (h'.cells.read i).cdr = (h.cells.read i).cdr) : h'.Links w is tail := by
  induction hl with
  | nil hw => exact .nil hw
  | @cons w _ is hw _ ih =>
    refine .cons hw ?_
    rw [hcdr w.payload List.mem_cons_self]
    exact ih fun i hi => hcdr i (List.mem_cons_of_mem _ hi)

/-- A cell nobody uses ends no list but in the error word. -/
theorem Links.isLive (hs : h.cells.Sound) (hl : h.Links w is tail) (htail : tail ≠ .error) :
    ∀ i ∈ is, h.cells.IsLive i := by
  intro i hi
  obtain ⟨xs, ys, rfl⟩ := List.append_of_mem hi
  by_contra hdead
  have hrest := hl.after
  rw [hs.read_dead i hdead] at hrest
  exact htail (hrest.unique (.nil (by decide))).2

/-- A list whose cells exist has no more of them than there are. -/
theorem Links.length_le_of_lt (hl : h.Links w is tail) (hlt : ∀ i ∈ is, i.toNat < h.cells.capacity) :
    is.length ≤ h.cells.capacity := by
  have hnodup : (is.map UInt32.toNat).Nodup := hl.nodup.map fun _ _ => UInt32.toNat_inj.1
  have hsub : is.map UInt32.toNat ⊆ List.range h.cells.capacity := by
    intro k hk
    obtain ⟨i, hi, rfl⟩ := List.mem_map.1 hk
    exact List.mem_range.2 (hlt i hi)
  simpa using (hnodup.subperm hsub).length_le

theorem Links.length_le (hl : h.Links w is tail) (hlive : ∀ i ∈ is, h.cells.IsLive i) :
    is.length ≤ h.cells.capacity :=
  hl.length_le_of_lt fun i hi => (hlive i hi).lt

theorem Links.follow (hl : h.Links w is tail) {limit : Nat} (hlimit : is.length ≤ limit) (found : Array Word) :
    h.follow limit found w = some ⟨found ++ (is.map fun i => (h.cells.read i).car).toArray, tail⟩ := by
  induction hl generalizing limit found with
  | nil hw => cases limit <;> simp [Heap.follow, hw]
  | cons hw _ ih =>
    obtain ⟨limit, rfl⟩ : ∃ k, limit = k + 1 := ⟨limit - 1, by simp at hlimit; omega⟩
    rw [Heap.follow, if_pos hw]
    simp only [ih (Nat.le_of_succ_le_succ hlimit)]
    simp

theorem Links.spine (hl : h.Links w is tail) (hlive : ∀ i ∈ is, h.cells.IsLive i) :
    h.spine w = some ⟨(is.map fun i => (h.cells.read i).car).toArray, tail⟩ := by
  rw [Heap.spine, hl.follow (hl.length_le hlive), Array.empty_append]

/-- In a sound heap the walk along a list that ends finds its items. -/
theorem Lists.spine (hs : h.cells.Sound) (hl : h.Lists w items tail) (htail : tail ≠ .error) :
    h.spine w = some ⟨items.toArray, tail⟩ := by
  obtain ⟨is, hlinks, rfl⟩ := hl.exists_links
  exact hlinks.spine (hlinks.isLive hs htail)

theorem Lists.length_le (hs : h.cells.Sound) (hl : h.Lists w items tail) (htail : tail ≠ .error) :
    items.length ≤ h.cells.capacity := by
  obtain ⟨is, hlinks, rfl⟩ := hl.exists_links
  rw [List.length_map]
  exact hlinks.length_le (hlinks.isLive hs htail)

/-- Lists stay what they are while live cells do. -/
theorem Lists.kept (hs : h.cells.Sound) (hl : h.Lists w items tail) (htail : tail ≠ .error)
    (hk : h.cells.KeptBy h'.cells) : h'.Lists w items tail := by
  obtain ⟨is, hlinks, rfl⟩ := hl.exists_links
  have hread : ∀ i ∈ is, h'.cells.read i = h.cells.read i := fun i hi => (hk i (hlinks.isLive hs htail i hi)).2
  have hlinks' : h'.Links w is tail := hlinks.transport fun i hi => by rw [hread i hi]
  have hitems : is.map (fun i => (h'.cells.read i).car) = is.map fun i => (h.cells.read i).car :=
    List.map_congr_left fun i hi => by rw [hread i hi]
  exact hitems ▸ hlinks'.lists

/-! ## Layers -/

inductive Layer where
  /-- A frame and the environment around it. -/
  | link
  /-- A binding and the entries of the same frame behind it. -/
  | entry
  /-- A symbol and its value. -/
  | binding
deriving DecidableEq

namespace Layer

def car? : Layer → Option Layer
  | link => some entry
  | entry => some binding
  | binding => none

def cdr? : Layer → Option Layer
  | link => some link
  | entry => some entry
  | binding => none

theorem cdr?_eq_some {l k : Layer} : l.cdr? = some k ↔ l ≠ binding ∧ k = l := by
  cases l <;> simp [cdr?, eq_comm]

end Layer

variable {parts parts' : List (Layer × Word)} {l k : Layer} {v env symbol value : Word} {i : UInt32}

/-- Following cells down from the given parts, the word is met at the layer. -/
inductive Occurs (h : Heap) (parts : List (Layer × Word)) : Layer → Word → Prop where
  | part {l : Layer} {w : Word} : (l, w) ∈ parts → Occurs h parts l w
  | car {l k : Layer} {w : Word} : Occurs h parts l w → w.isPair → l.car? = some k →
    Occurs h parts k (h.cells.read w.payload).car
  | cdr {l k : Layer} {w : Word} : Occurs h parts l w → w.isPair → l.cdr? = some k →
    Occurs h parts k (h.cells.read w.payload).cdr

/-- The cells met from the parts on are live, each is of one layer, and lists of them end in the empty list. -/
structure Hosts (h : Heap) (parts : List (Layer × Word)) : Prop where
  sound : h.cells.Sound
  live : ∀ {l w}, h.Occurs parts l w → w.isPair → h.cells.IsLive w.payload
  unique : ∀ {l k v w}, h.Occurs parts l v → h.Occurs parts k w → v.isPair → w.isPair → v.payload = w.payload → l = k
  binding : ∀ {w}, h.Occurs parts .binding w → w.isPair
  ends : ∀ {l w}, h.Occurs parts l w → l ≠ .binding → ∃ is, h.Links w is .nil

theorem Occurs.trans (ho : h.Occurs parts l w) (hparts : ∀ l w, (l, w) ∈ parts → h.Occurs parts' l w) :
    h.Occurs parts' l w := by
  induction ho with
  | part hmem => exact hparts _ _ hmem
  | car _ hw hk ih => exact .car ih hw hk
  | cdr _ hw hk ih => exact .cdr ih hw hk

theorem Occurs.mono (ho : h.Occurs parts l w) (hsub : parts ⊆ parts') : h.Occurs parts' l w :=
  ho.trans fun _ _ hmem => .part (hsub hmem)

/-- What is met may be taken for a part. -/
theorem Hosts.of_occurs (hh : h.Hosts parts) (hparts : ∀ l w, (l, w) ∈ parts' → h.Occurs parts l w) :
    h.Hosts parts' where
  sound := hh.sound
  live ho := hh.live (ho.trans hparts)
  unique ho ho' := hh.unique (ho.trans hparts) (ho'.trans hparts)
  binding ho := hh.binding (ho.trans hparts)
  ends ho := hh.ends (ho.trans hparts)

theorem Hosts.mono (hh : h.Hosts parts) (hsub : parts' ⊆ parts) : h.Hosts parts' :=
  hh.of_occurs fun _ _ hmem => .part (hsub hmem)

theorem Hosts.skip {p q : Layer × Word} (hh : h.Hosts (p :: q :: parts)) : h.Hosts (p :: parts) :=
  hh.mono (List.cons_subset_cons _ (List.subset_cons_self ..))

theorem not_occurs_nil : ¬ h.Occurs [] l w := by
  intro ho
  induction ho with
  | part hmem => exact List.not_mem_nil hmem
  | car _ _ _ ih => exact ih
  | cdr _ _ _ ih => exact ih

theorem Hosts.empty (hs : h.cells.Sound) : h.Hosts [] where
  sound := hs
  live ho := absurd ho not_occurs_nil
  unique ho := absurd ho not_occurs_nil
  binding ho := absurd ho not_occurs_nil
  ends ho := absurd ho not_occurs_nil

theorem Hosts.insert (hh : h.Hosts parts) (ho : h.Occurs parts l w) : h.Hosts ((l, w) :: parts) := by
  refine hh.of_occurs fun k v hmem => ?_
  rcases List.mem_cons.1 hmem with heq | hmem
  · cases heq
    exact ho
  · exact .part hmem

/-- The cells of a list that is met are met, at the same layer. -/
theorem Occurs.links (ho : h.Occurs parts l w) (hl : l ≠ .binding) (hlinks : h.Links w is tail) :
    ∀ i ∈ is, ∃ v, h.Occurs parts l v ∧ v.isPair ∧ v.payload = i := by
  induction hlinks with
  | nil => simp
  | @cons w _ _ hw _ ih =>
    rw [List.forall_mem_cons]
    exact ⟨⟨w, ho, hw, rfl⟩, ih (.cdr ho hw (Layer.cdr?_eq_some.2 ⟨hl, rfl⟩))⟩

theorem Hosts.isLive_links (hh : h.Hosts parts) (ho : h.Occurs parts l w) (hl : l ≠ .binding)
    (hlinks : h.Links w is tail) : ∀ i ∈ is, h.cells.IsLive i := by
  intro i hi
  obtain ⟨v, hv, hp, rfl⟩ := ho.links hl hlinks i hi
  exact hh.live hv hp

/-! ## Bindings -/

def bindingOf (h : Heap) (i : UInt32) : Word × Word :=
  let binding := h.cells.read (h.cells.read i).car.payload
  (binding.car, binding.cdr)

/-- The bindings of the frame that a link holds. -/
def frameAt (h : Heap) (i : UInt32) : List (Word × Word) := frameBindings h (h.cells.read i).car

/-- The value of a symbol after the search through the frames: what was found, or else the procedure of that name. -/
def resolve (h : Heap) (symbol : Word) : Option Word → Except Stop Word
  | some value => .ok value
  | none =>
    match Operation.procedureOf? symbol with
    | some _ => .ok (.procedure symbol.payload)
    | none => .error (.error (.unboundVariable (h.display symbol)))

/-- The value that the first of these frames with a binding for the symbol gives to it. -/
def valueIn (frames : List (List (Word × Word))) (symbol : Word) : Option Word :=
  frames.findSome? (·.lookup symbol)

/-- An entry that is met holds a pair. -/
theorem Hosts.isPair_entry (hh : h.Hosts parts) (ho : h.Occurs parts .entry w) (hlinks : h.Links w is tail) :
    ∀ i ∈ is, (h.cells.read i).car.isPair := by
  intro i hi
  obtain ⟨v, hv, hp, rfl⟩ := ho.links (by decide) hlinks i hi
  exact hh.binding (.car hv hp rfl)

theorem frameBindings_of_links (hlinks : h.Links w is .nil) (hlive : ∀ i ∈ is, h.cells.IsLive i)
    (hpairs : ∀ i ∈ is, (h.cells.read i).car.isPair) : frameBindings h w = is.map h.bindingOf := by
  have hnull : Word.nil.isNull = true := by decide
  simp only [frameBindings, listItems, hlinks.spine hlive, hnull, if_true]
  rw [List.filterMap_map, ← List.filterMap_eq_map]
  refine List.filterMap_congr fun i hi => ?_
  simp only [Function.comp_apply, Heap.car, Heap.cdr, pairCell_of_isPair (hpairs i hi)]
  rfl

theorem Hosts.frameBindings_eq (hh : h.Hosts parts) (ho : h.Occurs parts .entry w) (hlinks : h.Links w is .nil) :
    frameBindings h w = is.map h.bindingOf :=
  frameBindings_of_links hlinks (hh.isLive_links ho (by decide) hlinks) (hh.isPair_entry ho hlinks)

theorem Hosts.lookupFrame_eq (hh : h.Hosts parts) (ho : h.Occurs parts .entry w) (hlinks : h.Links w is .nil)
    {limit : Nat} (hlimit : is.length ≤ limit) (symbol : Word) :
    lookupFrame h symbol limit w = .ok ((is.map h.bindingOf).lookup symbol) := by
  induction is generalizing w limit with
  | nil =>
    cases hlinks with
    | nil hw => cases limit <;> simp [lookupFrame, hw]
  | cons i is ih =>
    obtain ⟨limit, rfl⟩ : ∃ k, limit = k + 1 := ⟨limit - 1, by simp at hlimit; omega⟩
    have hpair := hh.isPair_entry ho hlinks i List.mem_cons_self
    cases hlinks with
    | cons hw hrest =>
      have hih := ih (.cdr ho hw rfl) hrest (Nat.le_of_succ_le_succ hlimit)
      rw [lookupFrame, if_pos hw]
      simp only [pairCell_of_isPair hpair, List.map_cons, hih, bindingOf, List.lookup_cons]
      by_cases heq : (h.cells.read (h.cells.read w.payload).car.payload).car = symbol
      · rw [if_pos heq, beq_iff_eq.2 heq.symm]
      · rw [if_neg heq, beq_eq_false_iff_ne.2 (Ne.symm heq)]

theorem Hosts.lookupFrames_eq (hh : h.Hosts parts) (ho : h.Occurs parts .link w) (hlinks : h.Links w is .nil)
    {limit : Nat} (hlimit : is.length ≤ limit) (symbol : Word) :
    lookupFrames h symbol limit w = .ok (valueIn (is.map h.frameAt) symbol) := by
  induction is generalizing w limit with
  | nil =>
    cases hlinks with
    | nil hw => cases limit <;> simp [lookupFrames, hw, valueIn]
  | cons i is ih =>
    obtain ⟨limit, rfl⟩ : ∃ k, limit = k + 1 := ⟨limit - 1, by simp at hlimit; omega⟩
    cases hlinks with
    | cons hw hrest =>
      have hframe : h.Occurs parts .entry (h.cells.read w.payload).car := .car ho hw rfl
      obtain ⟨js, hjs⟩ := hh.ends hframe (by decide)
      have hlength := hjs.length_le (hh.isLive_links hframe (by decide) hjs)
      have hih := ih (.cdr ho hw rfl) hrest (Nat.le_of_succ_le_succ hlimit)
      rw [lookupFrames, if_pos hw]
      simp only [hh.lookupFrame_eq hframe hjs hlength, ← hh.frameBindings_eq hframe hjs, valueIn, List.map_cons,
        List.findSome?_cons, frameAt]
      cases (frameBindings h (h.cells.read w.payload).car).lookup symbol with
      | none => exact hih
      | some value => rfl

/-- The value of a symbol is that of the first binding found, going through the frames from the innermost on. -/
theorem Hosts.lookup_eq (hh : h.Hosts parts) (ho : h.Occurs parts .link env) (hlinks : h.Links env is .nil)
    (symbol : Word) :
    h.lookup env symbol = h.resolve symbol (valueIn (is.map h.frameAt) symbol) := by
  have hlength := hlinks.length_le (hh.isLive_links ho (by decide) hlinks)
  rw [Heap.lookup, hh.lookupFrames_eq ho hlinks hlength]
  cases valueIn (is.map h.frameAt) symbol <;> rfl

/-! ## Heaps that retain environments -/

/-- The cells met from the parts on are live and the same in another heap. -/
def Retained (h h' : Heap) (parts : List (Layer × Word)) : Prop :=
  ∀ l w, h.Occurs parts l w → w.isPair → h'.cells.IsLive w.payload ∧ h'.cells.read w.payload = h.cells.read w.payload

theorem Hosts.retained_of_keptBy (hh : h.Hosts parts) (hk : h.cells.KeptBy h'.cells) : h.Retained h' parts :=
  fun _ _ ho hw => hk _ (hh.live ho hw)

theorem Retained.occurs (hr : h.Retained h' parts) (ho : h.Occurs parts l w) : h'.Occurs parts l w := by
  induction ho with
  | part hmem => exact .part hmem
  | car ho hw hk ih =>
    rw [← (hr _ _ ho hw).2]
    exact .car ih hw hk
  | cdr ho hw hk ih =>
    rw [← (hr _ _ ho hw).2]
    exact .cdr ih hw hk

theorem Retained.occurs_before (hr : h.Retained h' parts) (ho : h'.Occurs parts l w) : h.Occurs parts l w := by
  induction ho with
  | part hmem => exact .part hmem
  | car _ hw hk ih =>
    rw [(hr _ _ ih hw).2]
    exact .car ih hw hk
  | cdr _ hw hk ih =>
    rw [(hr _ _ ih hw).2]
    exact .cdr ih hw hk

theorem Retained.links (hr : h.Retained h' parts) (ho : h.Occurs parts l w) (hl : l ≠ .binding)
    (hlinks : h.Links w is tail) : h'.Links w is tail := by
  refine hlinks.transport fun i hi => ?_
  obtain ⟨v, hv, hp, rfl⟩ := ho.links hl hlinks i hi
  rw [(hr _ _ hv hp).2]

theorem Hosts.retained (hh : h.Hosts parts) (hr : h.Retained h' parts) (hs : h'.cells.Sound) : h'.Hosts parts where
  sound := hs
  live ho hw := (hr _ _ (hr.occurs_before ho) hw).1
  unique ho ho' := hh.unique (hr.occurs_before ho) (hr.occurs_before ho')
  binding ho := hh.binding (hr.occurs_before ho)
  ends ho hl := by
    have ho := hr.occurs_before ho
    obtain ⟨is, hlinks⟩ := hh.ends ho hl
    exact ⟨is, hr.links ho hl hlinks⟩

/-- The bindings of a frame are read from entries and bindings only. -/
theorem Hosts.frameBindings_congr (hh : h.Hosts parts) (ho : h.Occurs parts .entry w)
    (hsame : ∀ l v, h.Occurs parts l v → l ≠ .link → v.isPair →
      h'.cells.IsLive v.payload ∧ h'.cells.read v.payload = h.cells.read v.payload) :
    frameBindings h' w = frameBindings h w := by
  obtain ⟨is, hlinks⟩ := hh.ends ho (by decide)
  have hentry : ∀ i ∈ is, h'.cells.IsLive i ∧ h'.cells.read i = h.cells.read i := by
    intro i hi
    obtain ⟨v, hv, hp, rfl⟩ := ho.links (by decide) hlinks i hi
    exact hsame _ _ hv (by decide) hp
  have hlinks' : h'.Links w is .nil := hlinks.transport fun i hi => by rw [(hentry i hi).2]
  rw [hh.frameBindings_eq ho hlinks, frameBindings_of_links hlinks' fun i hi => (hentry i hi).1]
  · refine List.map_congr_left fun i hi => ?_
    obtain ⟨v, hv, hp, rfl⟩ := ho.links (by decide) hlinks i hi
    have hbinding : h.Occurs parts .binding (h.cells.read v.payload).car := .car hv hp rfl
    simp only [bindingOf, (hentry _ hi).2, (hsame _ _ hbinding (by decide) (hh.binding hbinding)).2]
  · intro i hi
    rw [(hentry i hi).2]
    exact hh.isPair_entry ho hlinks i hi

theorem Hosts.frameBindings_retained (hh : h.Hosts parts) (hr : h.Retained h' parts) (ho : h.Occurs parts .entry w) :
    frameBindings h' w = frameBindings h w :=
  hh.frameBindings_congr ho fun _ _ hv _ hp => hr _ _ hv hp

theorem Hosts.frames_retained (hh : h.Hosts parts) (hr : h.Retained h' parts) (ho : h.Occurs parts .link env)
    (hlinks : h.Links env is tail) : is.map h'.frameAt = is.map h.frameAt := by
  refine List.map_congr_left fun i hi => ?_
  obtain ⟨v, hv, hp, rfl⟩ := ho.links (by decide) hlinks i hi
  rw [frameAt, frameAt, (hr _ _ hv hp).2, hh.frameBindings_retained hr (.car hv hp rfl)]

/-- What is said about a symbol that no frame binds depends on its text only. -/
theorem resolve_congr (hsymbol : symbol.isSymbol) (htexts : h'.strings = h.strings) (found : Option Word) :
    h'.resolve symbol found = h.resolve symbol found := by
  have htag : symbol.tag = 0xfffa := by simpa [Word.isSymbol] using hsymbol
  have hnot : symbol.isPair = false := Bool.eq_false_iff.2 (Word.not_isPair_of_isSymbol hsymbol)
  have hkind : symbol.kind = .symbol symbol.payload := by simp [Word.kind, Word.isNumber, htag, Word.isReservedTag]
  cases found <;> simp [resolve, display, print, text_of_not_isPair _ _ hnot, Printer.atom, hkind, Printer.storedText,
    stringText, stringBytes, htexts]

theorem Hosts.lookup_retained (hh : h.Hosts parts) (hr : h.Retained h' parts) (hs : h'.cells.Sound)
    (htexts : h'.strings = h.strings) (ho : h.Occurs parts .link env) (hsymbol : symbol.isSymbol) :
    h'.lookup env symbol = h.lookup env symbol := by
  obtain ⟨is, hlinks⟩ := hh.ends ho (by decide)
  rw [hh.lookup_eq ho hlinks, (hh.retained hr hs).lookup_eq (hr.occurs ho) (hr.links ho (by decide) hlinks),
    hh.frames_retained hr ho hlinks, resolve_congr hsymbol htexts]

/-! ## New cells -/

/-- With one more part nothing else is met, if what it holds was met before. -/
theorem Retained.occurs_cons (hr : h.Retained h' parts)
    (ha : ∀ k, v.isPair → l.car? = some k → h.Occurs parts k (h'.cells.read v.payload).car)
    (hd : ∀ k, v.isPair → l.cdr? = some k → h.Occurs parts k (h'.cells.read v.payload).cdr)
    (ho : h'.Occurs ((l, v) :: parts) k w) : (k = l ∧ w = v) ∨ h.Occurs parts k w := by
  induction ho with
  | part hmem =>
    rcases List.mem_cons.1 hmem with heq | hmem
    · cases heq
      exact .inl ⟨rfl, rfl⟩
    · exact .inr (.part hmem)
  | car _ hw hk ih =>
    rcases ih with ⟨rfl, rfl⟩ | ih
    · exact .inr (ha _ hw hk)
    · rw [(hr _ _ ih hw).2]
      exact .inr (.car ih hw hk)
  | cdr _ hw hk ih =>
    rcases ih with ⟨rfl, rfl⟩ | ih
    · exact .inr (hd _ hw hk)
    · rw [(hr _ _ ih hw).2]
      exact .inr (.cdr ih hw hk)

/-- The end of a list is a list of links, and one of entries. -/
theorem Hosts.nil (hh : h.Hosts parts) (hl : l ≠ .binding) : h.Hosts ((l, .nil) :: parts) := by
  have hpair : ¬ Word.nil.isPair := by decide
  have hr : h.Retained h parts := fun _ _ ho hw => ⟨hh.live ho hw, rfl⟩
  have hcases : ∀ {k w}, h.Occurs ((l, .nil) :: parts) k w → (k = l ∧ w = .nil) ∨ h.Occurs parts k w :=
    hr.occurs_cons (fun _ hw => absurd hw hpair) fun _ hw => absurd hw hpair
  refine ⟨hh.sound, fun ho hw => ?_, fun ho ho' hw hw' heq => ?_, fun ho => ?_, fun ho hk => ?_⟩
  · rcases hcases ho with ⟨-, rfl⟩ | ho
    · exact absurd hw hpair
    · exact hh.live ho hw
  · rcases hcases ho with ⟨-, rfl⟩ | hold
    · exact absurd hw hpair
    · rcases hcases ho' with ⟨-, rfl⟩ | hold'
      · exact absurd hw' hpair
      · exact hh.unique hold hold' hw hw' heq
  · rcases hcases ho with ⟨rfl, -⟩ | ho
    · exact absurd rfl hl
    · exact hh.binding ho
  · rcases hcases ho with ⟨-, rfl⟩ | ho
    · exact ⟨[], .nil hpair⟩
    · exact hh.ends ho hk

/-- A cell that was not live and is filled with words of the right layers is one of an environment. -/
theorem Hosts.cons (hh : h.Hosts parts) {a d : Word} (ht : h.cells.Takes h'.cells i ⟨a, d⟩) (hs : h'.cells.Sound)
    (ha : ∀ k, l.car? = some k → h.Occurs parts k a) (hd : ∀ k, l.cdr? = some k → h.Occurs parts k d) :
    h'.Hosts ((l, .pair i) :: parts) := by
  have hread : h'.cells.read (Word.pair i).payload = ⟨a, d⟩ := by
    rw [Word.payload_pair]
    exact (ht.read i).trans (if_pos rfl)
  have hne : ∀ {k w}, h.Occurs parts k w → w.isPair → w.payload ≠ i := by
    rintro k w ho hw rfl
    exact ht.dead (hh.live ho hw)
  have hr : h.Retained h' parts := fun _ _ ho hw =>
    ⟨(ht.isLive _).2 (.inr (hh.live ho hw)), (ht.read _).trans (if_neg (hne ho hw))⟩
  have hpair : (Word.pair i).isPair := by simp [Word.isPair]
  have hcases : ∀ {k w}, h'.Occurs ((l, .pair i) :: parts) k w → (k = l ∧ w = .pair i) ∨ h.Occurs parts k w :=
    hr.occurs_cons (fun k _ hk => hread ▸ ha k hk) fun k _ hk => hread ▸ hd k hk
  refine ⟨hs, fun ho hw => ?_, fun ho ho' hw hw' heq => ?_, fun ho => ?_, fun ho hk => ?_⟩
  · rcases hcases ho with ⟨-, rfl⟩ | ho
    · rw [Word.payload_pair]
      exact (ht.isLive i).2 (.inl rfl)
    · exact (hr _ _ ho hw).1
  · rcases hcases ho with ⟨rfl, rfl⟩ | hold <;> rcases hcases ho' with ⟨rfl, rfl⟩ | hold'
    · rfl
    · exact absurd (heq.symm.trans (Word.payload_pair i)) (hne hold' hw')
    · exact absurd (heq.trans (Word.payload_pair i)) (hne hold hw)
    · exact hh.unique hold hold' hw hw' heq
  · rcases hcases ho with ⟨-, rfl⟩ | ho
    · exact hpair
    · exact hh.binding ho
  · rcases hcases ho with ⟨rfl, rfl⟩ | ho
    · have hod := hd _ (Layer.cdr?_eq_some.2 ⟨hk, rfl⟩)
      obtain ⟨is, hlinks⟩ := hh.ends hod hk
      have hlinks' : h'.Links (h'.cells.read (Word.pair i).payload).cdr is .nil := by
        rw [hread]
        exact hr.links hod hk hlinks
      exact ⟨_, .cons hpair hlinks'⟩
    · obtain ⟨is, hlinks⟩ := hh.ends ho hk
      exact ⟨is, hr.links ho hk hlinks⟩

/-! ## New frames for links -/

/-- The frame of a link is replaced. -/
structure Reframes (h h' : Heap) (i : UInt32) (frame : Word) : Prop where
  sound : h'.cells.Sound
  isLive : ∀ j, h'.cells.IsLive j ↔ h.cells.IsLive j
  read : ∀ j, h'.cells.read j = if j = i then { h.cells.read i with car := frame } else h.cells.read j

theorem Reframes.cdr {frame : Word} (hf : h.Reframes h' i frame) (j : UInt32) :
    (h'.cells.read j).cdr = (h.cells.read j).cdr := by
  rw [hf.read]
  by_cases hj : j = i
  · rw [if_pos hj, hj]
  · rw [if_neg hj]

section Reframes

variable {frame : Word} (hh : h.Hosts parts) (he : h.Occurs parts .link env) (hp : env.isPair)
  (hframe : h.Occurs parts .entry frame) (hf : h.Reframes h' env.payload frame)

include hh he hp hf

/-- No frame changes but the one replaced. -/
theorem Hosts.frameBindings_reframes (ho : h.Occurs parts .entry w) : frameBindings h' w = frameBindings h w := by
  refine hh.frameBindings_congr ho fun l v hv hl hvp => ⟨(hf.isLive _).2 (hh.live hv hvp), ?_⟩
  -- a link has no cell in common with entries and bindings
  exact (hf.read _).trans (if_neg fun heq => hl (hh.unique hv he hvp hp heq))

include hframe

theorem Hosts.occurs_reframes (ho : h'.Occurs parts l w) : h.Occurs parts l w := by
  induction ho with
  | part hmem => exact .part hmem
  | @car l k w _ hw hk ih =>
    rw [hf.read]
    by_cases hi : w.payload = env.payload
    · rw [if_pos hi]
      obtain rfl := hh.unique ih he hw hp hi
      cases hk
      exact hframe
    · rw [if_neg hi]
      exact .car ih hw hk
  | cdr _ hw hk ih =>
    rw [hf.cdr]
    exact .cdr ih hw hk

theorem Hosts.reframes : h'.Hosts parts where
  sound := hf.sound
  live ho hw := (hf.isLive _).2 (hh.live (hh.occurs_reframes he hp hframe hf ho) hw)
  unique ho ho' := hh.unique (hh.occurs_reframes he hp hframe hf ho) (hh.occurs_reframes he hp hframe hf ho')
  binding ho := hh.binding (hh.occurs_reframes he hp hframe hf ho)
  ends ho hl := by
    obtain ⟨is, hlinks⟩ := hh.ends (hh.occurs_reframes he hp hframe hf ho) hl
    exact ⟨is, hlinks.transport fun i _ => hf.cdr i⟩

theorem Hosts.frameAt_reframes (ho : h.Occurs parts .link w) (hw : w.isPair) :
    h'.frameAt w.payload = if w.payload = env.payload then frameBindings h frame else h.frameAt w.payload := by
  rw [frameAt, hf.read]
  by_cases hi : w.payload = env.payload
  · rw [if_pos hi, if_pos hi]
    exact hh.frameBindings_reframes he hp hf hframe
  · rw [if_neg hi, if_neg hi]
    exact hh.frameBindings_reframes he hp hf (.car ho hw rfl)

end Reframes

/-! ## Exposure -/

/-- The frame of one environment is among those of another, and no frame inside it binds the symbol. -/
def Exposes (h : Heap) (symbol env env' : Word) : Prop :=
  ∃ inner outer, h.Links env' (inner ++ env.payload :: outer) .nil ∧ ∀ i ∈ inner, ∀ b ∈ h.frameAt i, b.1 ≠ symbol

/-- An environment sees its own frame. -/
theorem Hosts.exposes_self (hh : h.Hosts parts) (ho : h.Occurs parts .link env) (hp : env.isPair) :
    h.Exposes symbol env env := by
  obtain ⟨is, hlinks⟩ := hh.ends ho (by decide)
  cases hlinks with
  | nil hnot => exact absurd hp hnot
  | cons _ hrest => exact ⟨[], _, .cons hp hrest, by simp⟩

/-- A frame that does not bind the symbol hides nothing. -/
theorem Exposes.inner (hexp : h.Exposes symbol env v) (hw : w.isPair) (hcdr : (h.cells.read w.payload).cdr = v)
    (hnot : ∀ b ∈ h.frameAt w.payload, b.1 ≠ symbol) : h.Exposes symbol env w := by
  obtain ⟨inner, outer, hlinks, hinner⟩ := hexp
  refine ⟨w.payload :: inner, outer, .cons hw ?_, List.forall_mem_cons.2 ⟨hnot, hinner⟩⟩
  rw [hcdr]
  exact hlinks

end Heap

section Values

variable {bindings : UInt32 → List (Word × Word)} {i : UInt32} {is inner outer : List UInt32} {symbol t value : Word}

theorem lookup_eq_none_of_forall {bs : List (Word × Word)} (hbs : ∀ b ∈ bs, b.1 ≠ symbol) : bs.lookup symbol = none :=
  List.lookup_eq_none_iff.2 fun b hb => by simpa using (hbs b hb).symm

/-- A new binding matters to its symbol only. -/
theorem Heap.valueIn_update_of_ne (ht : t ≠ symbol) :
    valueIn (is.map fun j => if j = i then (symbol, value) :: bindings j else bindings j) t =
      valueIn (is.map bindings) t := by
  induction is with
  | nil => rfl
  | cons j is ih =>
    have hfirst : (if j = i then (symbol, value) :: bindings j else bindings j).lookup t = (bindings j).lookup t := by
      split
      · rw [List.lookup_cons, beq_eq_false_iff_ne.2 ht]
      · rfl
    unfold valueIn at ih ⊢
    simp only [List.map_cons, List.findSome?_cons, hfirst, ih]

/-- A new binding is found behind frames without one. -/
theorem Heap.valueIn_update_append (hinner : ∀ j ∈ inner, ∀ b ∈ bindings j, b.1 ≠ symbol) :
    valueIn ((inner ++ i :: outer).map fun j => if j = i then (symbol, value) :: bindings j else bindings j) symbol =
      some value := by
  induction inner with
  | nil => simp [valueIn]
  | cons j inner ih =>
    rw [List.forall_mem_cons] at hinner
    have hrest := ih hinner.2
    unfold valueIn at hrest ⊢
    by_cases hj : j = i
    · simp [hj]
    · simp only [List.cons_append, List.map_cons, List.findSome?_cons, if_neg hj, lookup_eq_none_of_forall hinner.1,
        hrest]

/-- A new binding is not found behind one of the same symbol, nor where its frame is not. -/
theorem Heap.valueIn_update_of_hidden
    (hhidden : ∀ inner outer, is = inner ++ i :: outer → ¬ ∀ j ∈ inner, ∀ b ∈ bindings j, b.1 ≠ symbol) :
    valueIn (is.map fun j => if j = i then (symbol, value) :: bindings j else bindings j) symbol =
      valueIn (is.map bindings) symbol := by
  induction is with
  | nil => rfl
  | cons j is ih =>
    have hj : j ≠ i := by
      rintro rfl
      exact hhidden [] is rfl (by simp)
    unfold valueIn at ih ⊢
    simp only [List.map_cons, List.findSome?_cons, if_neg hj]
    cases hlook : (bindings j).lookup symbol with
    | some v => rfl
    | none =>
      refine ih fun inner outer heq hinner => ?_
      refine hhidden (j :: inner) outer (by rw [heq]; rfl) (List.forall_mem_cons.2 ⟨fun b hb heq => ?_, hinner⟩)
      have := List.lookup_eq_none_iff.1 hlook b hb
      simp [heq] at this

end Values

end BoxedScheme
