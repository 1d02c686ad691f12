import BoxedScheme.Proofs.BindingForms
import BoxedScheme.Proofs.Environments
import BoxedScheme.Proofs.Recursive

/-!
# What survives a pass

A collection may happen at the start of every pass. It leaves alone what the registered words reach: the expression and
the environment of each evaluation under way, and whatever these lead to.

* `Heap.Keeps h h' ws` : what the words reach in `h` is live and the same in `h'`;
* `Means m env values` : the symbols have these values in the environment;
* `Machine.Stands m roots limit room` : the state in which an evaluation goes on;
* `Machine.Stands.beginPass`, `Machine.Stands.enter` : the start of a pass, and of a nested evaluation;
* `enter_lambda` : a `lambda` expression makes a closure, whatever is collected on the way.
-/

namespace BoxedScheme

open Heap (Layer)

def Sketch.words : Sketch → List Word
  | .word w => [w]
  | .pair s t => s.words ++ t.words

@[simp] theorem Sketch.words_list (ss : List Sketch) : (list ss).words = ss.flatMap words ++ [.nil] := by
  induction ss with
  | nil => rfl
  | cons s ss ih =>
    rw [List.flatMap_cons, List.append_assoc, ← ih]
    rfl

namespace Heap

variable {h h' h'' : Heap} {ws vs : List Word} {w : Word} {s : Sketch} {parts : List (Layer × Word)}

/-! ## Cells that are kept -/

/-- The live cells that the words reach are live and the same in another heap. -/
def Keeps (h h' : Heap) (ws : List Word) : Prop :=
  ∀ w, h.Reaches ws w → w.hasCell → h.cells.IsLive w.payload →
    h'.cells.IsLive w.payload ∧ h'.cells.read w.payload = h.cells.read w.payload

theorem Keeps.of_keptBy (hk : h.cells.KeptBy h'.cells) (ws : List Word) : h.Keeps h' ws :=
  fun _ _ _ hlive => hk _ hlive

theorem Keeps.mono (hk : h.Keeps h' ws) (hvs : ∀ v ∈ vs, h.Reaches ws v) : h.Keeps h' vs :=
  fun w hw => hk w (hw.trans hvs)

theorem Keeps.keptBy (hk : h.Keeps h' ws) (hk' : h'.cells.KeptBy h''.cells) : h.Keeps h'' ws := by
  intro w hw hc hlive
  obtain ⟨hlive', hread⟩ := hk w hw hc hlive
  obtain ⟨hlive'', hread'⟩ := hk' _ hlive'
  exact ⟨hlive'', hread'.trans hread⟩

/-- The way to a cell leads over live cells, which are kept. -/
theorem Keeps.reaches (hk : h.Keeps h' ws) (hs : h.cells.Sound) (hw : h.Reaches ws w) (hc : w.hasCell) :
    h'.Reaches ws w := by
  have hlive : ∀ {v : Word}, (h.cells.read v.payload).car.hasCell ∨ (h.cells.read v.payload).cdr.hasCell →
      h.cells.IsLive v.payload := by
    intro v hv
    by_contra hdead
    rw [hs.read_dead _ hdead] at hv
    exact absurd hv (by decide)
  induction hw with
  | root hmem => exact .root hmem
  | car hv hvc ih =>
    rw [← (hk _ hv hvc (hlive (.inl hc))).2]
    exact (ih hvc).car hvc
  | cdr hv hvc ih =>
    rw [← (hk _ hv hvc (hlive (.inr hc))).2]
    exact (ih hvc).cdr hvc

theorem Keeps.trans (hk : h.Keeps h' ws) (hk' : h'.Keeps h'' ws) (hs : h.cells.Sound) : h.Keeps h'' ws := by
  intro w hw hc hlive
  obtain ⟨hlive', hread⟩ := hk w hw hc hlive
  obtain ⟨hlive'', hread'⟩ := hk' w (hk.reaches hs hw hc) hc hlive'
  exact ⟨hlive'', hread'.trans hread⟩

theorem Keeps.after (hk' : h'.Keeps h'' ws) (hk : h.cells.KeptBy h'.cells) (hs : h.cells.Sound) : h.Keeps h'' ws :=
  (Keeps.of_keptBy hk ws).trans hk' hs

theorem Spells.keeps (hw : h.Spells w s) (hk : h.Keeps h' ws) (hr : h.Reaches ws w) : h'.Spells w s := by
  induction s generalizing w with
  | word v => exact hw
  | pair s t ihs iht =>
    obtain ⟨hp, hlive, hcar, hcdr⟩ := hw
    have hc := Word.hasCell_of_isPair hp
    obtain ⟨hlive', hread⟩ := hk w hr hc hlive
    refine ⟨hp, hlive', ?_, ?_⟩
    · rw [hread]
      exact ihs hcar (hr.car hc)
    · rw [hread]
      exact iht hcdr (hr.cdr hc)

/-- The words of an expression are reached from it. -/
theorem Spells.reaches (hw : h.Spells w s) (hr : h.Reaches ws w) : ∀ v ∈ s.words, h.Reaches ws v := by
  induction s generalizing w with
  | word v =>
    obtain rfl : w = v := hw
    simpa [Sketch.words] using hr
  | pair s t ihs iht =>
    obtain ⟨hp, -, hcar, hcdr⟩ := hw
    have hc := Word.hasCell_of_isPair hp
    intro v hv
    rcases List.mem_append.1 hv with hv | hv
    · exact ihs hcar (hr.car hc) v hv
    · exact iht hcdr (hr.cdr hc) v hv

theorem Occurs.reaches {l : Layer} (ho : h.Occurs parts l w) (hparts : ∀ l v, (l, v) ∈ parts → h.Reaches ws v) :
    h.Reaches ws w := by
  induction ho with
  | part hmem => exact hparts _ _ hmem
  | car _ hw _ ih => exact ih.car (Word.hasCell_of_isPair hw)
  | cdr _ hw _ ih => exact ih.cdr (Word.hasCell_of_isPair hw)

theorem Hosts.retained_of_keeps (hh : h.Hosts parts) (hk : h.Keeps h' ws)
    (hparts : ∀ l v, (l, v) ∈ parts → h.Reaches ws v) : h.Retained h' parts :=
  fun _ w ho hw => hk w (ho.reaches hparts) (Word.hasCell_of_isPair hw) (hh.live ho hw)

end Heap

/-! ## Environments and the values of symbols -/

/-- The symbols have the given values in the environment. -/
structure Means (m : Machine) (env : Word) (values : Word → Option Word) : Prop where
  family : Family m [env]
  value : ∀ t, t.isSymbol → (m.heap.lookup env t).toOption = values t

theorem Heap.toOption_resolve (h h' : Heap) (symbol : Word) (found : Option Word) :
    (h'.resolve symbol found).toOption = (h.resolve symbol found).toOption := by
  cases found with
  | some value => rfl
  | none =>
    unfold Heap.resolve
    cases Operation.procedureOf? symbol <;> rfl

theorem Means.keeps {m m' : Machine} {env : Word} {values : Word → Option Word} {ws : List Word}
    (he : Means m env values) (hs : m'.heap.cells.Sound) (hk : m.heap.Keeps m'.heap ws)
    (hr : m.heap.Reaches ws env) : Means m' env values := by
  have hh := he.family.hosts
  have ho : m.heap.Occurs (linksOf [env]) .link env := occurs_linksOf List.mem_cons_self
  have hretained : m.heap.Retained m'.heap (linksOf [env]) := by
    refine hh.retained_of_keeps hk fun l v hmem => ?_
    obtain ⟨rfl, rfl⟩ : l = .link ∧ v = env := by simpa [linksOf] using hmem
    exact hr
  refine ⟨⟨hh.retained hretained hs, he.family.isPair⟩, fun t ht => ?_⟩
  obtain ⟨is, hlinks⟩ := hh.ends ho (by decide)
  rw [← he.value t ht, hh.lookup_eq ho hlinks, (hh.retained hretained hs).lookup_eq (hretained.occurs ho)
    (hretained.links ho (by decide) hlinks), hh.frames_retained hretained ho hlinks, Heap.toOption_resolve]

/-- A value that a frame gives to a symbol is reached from the environment. -/
theorem Heap.Hosts.reaches_valueIn {h : Heap} {env t value : Word} {is : List UInt32} (hh : h.Hosts (linksOf [env]))
    (hlinks : h.Links env is .nil) (hfound : Heap.valueIn (is.map h.frameAt) t = some value) :
    h.Reaches [env] value := by
  have hreach : ∀ {l w}, h.Occurs (linksOf [env]) l w → h.Reaches [env] w := fun ho =>
    ho.reaches fun l v hmem => .root (by simp_all [linksOf])
  obtain ⟨frame, hframe, hlookup⟩ := List.exists_of_findSome?_eq_some hfound
  obtain ⟨i, hi, rfl⟩ := List.mem_map.1 hframe
  obtain ⟨link, hlink, hp, rfl⟩ := (occurs_linksOf List.mem_cons_self).links (by decide) hlinks i hi
  have hentries : h.Occurs (linksOf [env]) .entry (h.cells.read link.payload).car := .car hlink hp rfl
  obtain ⟨js, hjs⟩ := hh.ends hentries (by decide)
  rw [Heap.frameAt, hh.frameBindings_eq hentries hjs] at hlookup
  obtain ⟨before, after, hbindings, -⟩ := List.lookup_eq_some_iff.1 hlookup
  obtain ⟨j, hj, hbinding⟩ := List.mem_map.1 (hbindings ▸ List.mem_append_right before List.mem_cons_self)
  obtain ⟨entry, hentry, hpe, rfl⟩ := hentries.links (by decide) hjs j hj
  have ho : h.Occurs (linksOf [env]) .binding (h.cells.read entry.payload).car := .car hentry hpe rfl
  have hvalue := (hreach ho).cdr (Word.hasCell_of_isPair (hh.binding ho))
  rwa [show (h.cells.read (h.cells.read entry.payload).car.payload).cdr = value from congrArg Prod.snd hbinding]
    at hvalue

namespace Means

variable {m : Machine} {env symbol value t : Word} {values : Word → Option Word}

theorem hosts (he : Means m env values) : m.heap.Hosts (linksOf [env]) := he.family.hosts

theorem exists_links (he : Means m env values) : ∃ is, m.heap.Links env is .nil :=
  he.hosts.ends (occurs_linksOf List.mem_cons_self) (by decide)

theorem isPair (he : Means m env values) : env.isPair := he.family.isPair env List.mem_cons_self

theorem hasCell (he : Means m env values) : env.hasCell := Word.hasCell_of_isPair he.isPair

theorem isLive (he : Means m env values) : m.heap.cells.IsLive env.payload :=
  he.hosts.live (occurs_linksOf List.mem_cons_self) he.isPair

theorem lookup_eq (he : Means m env values) (ht : t.isSymbol) (hvalue : values t = some value) :
    m.heap.lookup env t = .ok value := by
  have := he.value t ht
  rw [hvalue] at this
  cases hlookup : m.heap.lookup env t with
  | error e =>
    rw [hlookup] at this
    cases this
  | ok v =>
    rw [hlookup] at this
    cases this
    rfl

/-- Procedures apart, the value of a symbol is reached from the environment. -/
theorem reaches (he : Means m env values) (ht : t.isSymbol) (hvalue : values t = some value) (hc : value.hasCell) :
    m.heap.Reaches [env] value := by
  obtain ⟨is, hlinks⟩ := he.exists_links
  have hlookup := he.lookup_eq ht hvalue
  rw [he.hosts.lookup_eq (occurs_linksOf List.mem_cons_self) hlinks] at hlookup
  cases hfound : Heap.valueIn (is.map m.heap.frameAt) t with
  | some v =>
    rw [hfound] at hlookup
    cases hlookup
    exact he.hosts.reaches_valueIn hlinks hfound
  | none =>
    rw [hfound] at hlookup
    unfold Heap.resolve at hlookup
    cases hprocedure : Operation.procedureOf? t with
    | none =>
      rw [hprocedure] at hlookup
      cases hlookup
    | some entry =>
      rw [hprocedure] at hlookup
      cases hlookup
      simp [Word.hasCell, Word.isPair, Word.isClosure] at hc

/-- An empty frame changes no value, and takes a cell that was free. -/
theorem frame (he : Means m env values) (hroom : 0 < m.heap.cells.freeCount) :
    ∃ env' m', Eval.cons .nil env m = .ok env' m' ∧ m.Adds m' 1 ∧ ¬ m.heap.cells.IsLive env'.payload ∧
      m'.heap.cells.read env'.payload = ⟨.nil, env⟩ ∧ Means m' env' values := by
  obtain ⟨i, hnext⟩ := Pool.exists_next hroom
  have htakes := he.hosts.sound.takes hnext ⟨.nil, env⟩
  have hsound := he.hosts.sound.fill hnext ⟨.nil, env⟩
  have hkept := he.hosts.sound.keptBy_fill hnext ⟨.nil, env⟩
  let m' : Machine := { m with heap := { m.heap with cells := m.heap.cells.fill i ⟨.nil, env⟩ } }
  have hcons : Eval.cons .nil env m = .ok (.pair i) m' := by
    unfold Eval.cons Eval.onHeap
    rw [Heap.cons_apply, hnext]
  have hread : m'.heap.cells.read (Word.pair i).payload = ⟨.nil, env⟩ := by
    rw [Word.payload_pair]
    exact (htakes.read i).trans (if_pos rfl)
  have hpair : (Word.pair i).isPair := by simp [Word.isPair]
  have hhosts : m'.heap.Hosts (linksOf [.pair i]) := by
    refine ((he.hosts.nil (l := .entry) (by decide)).cons (l := .link) htakes hsound ?_ ?_).mono (by simp [linksOf])
    · rintro _ ⟨⟩
      exact .part List.mem_cons_self
    · rintro _ ⟨⟩
      exact .part (by simp [linksOf])
  refine ⟨.pair i, m', hcons, ⟨rfl, hsound, hkept, htakes.capacity, Pool.freeCount_fill hnext _⟩,
    by simpa using htakes.dead, hread, ⟨hhosts, by simpa using hpair⟩, fun t ht => ?_⟩
  obtain ⟨is, hlinks⟩ := he.exists_links
  have ho : m.heap.Occurs (linksOf [env]) .link env := occurs_linksOf List.mem_cons_self
  have hretained : m.heap.Retained m'.heap (linksOf [env]) := he.hosts.retained_of_keptBy hkept
  have hlinks' : m'.heap.Links (.pair i) ((Word.pair i).payload :: is) .nil := by
    refine .cons hpair ?_
    rw [hread]
    exact hretained.links ho (by decide) hlinks
  have hempty : m'.heap.frameAt (Word.pair i).payload = [] := by
    rw [Heap.frameAt, hread]
    exact Heap.frameBindings_of_links (.nil (by decide)) (by simp) (by simp)
  rw [← he.value t ht, he.hosts.lookup_eq ho hlinks, hhosts.lookup_eq (occurs_linksOf List.mem_cons_self) hlinks',
    List.map_cons, hempty, he.hosts.frames_retained hretained ho hlinks, Heap.toOption_resolve]
  rfl

/-- A definition gives the value to the symbol and takes two cells; no live cell changes but that of the environment. -/
theorem define (he : Means m env values) (hroom : 2 ≤ m.heap.cells.freeCount) (symbol value : Word) :
    ∃ m', define env symbol value m = .ok () m' ∧ Means m' env (Function.update values symbol (some value)) ∧
      m' = { m with heap := { m.heap with cells := m'.heap.cells } } ∧
      m.heap.cells.freeCount = m'.heap.cells.freeCount + 2 ∧
      (m'.heap.cells.read env.payload).cdr = (m.heap.cells.read env.payload).cdr ∧
      ∀ i, i ≠ env.payload → m.heap.cells.IsLive i →
        m'.heap.cells.IsLive i ∧ m'.heap.cells.read i = m.heap.cells.read i := by
  have hh := he.hosts
  have ho : m.heap.Occurs (linksOf [env]) .link env := occurs_linksOf List.mem_cons_self
  rw [define_eq hh ho he.isPair]
  rcases bindTo_cases hh (.car ho he.isPair rfl) symbol value with
    ⟨hfew, -⟩ | ⟨frame, m₁, hbind, ha, hh₁, -, hbindings⟩
  · omega
  have hlive₁ := (ha.kept _ (hh.live ho he.isPair)).1
  let m' : Machine := { m₁ with heap := { m₁.heap with
    cells := m₁.heap.cells.update env.payload fun cell => { cell with car := frame } } }
  have hr : m₁.heap.Reframes m'.heap env.payload frame :=
    ⟨ha.sound.update hlive₁ _, fun j => Iff.rfl, fun j => Pool.read_update hlive₁.lt _ j⟩
  have hlink : m₁.heap.Occurs ((.entry, frame) :: linksOf [env]) .link env := ha.occurs hh ho _
  have hstrings : m'.heap.strings = m.heap.strings := ha.strings
  have hh' := (hh₁.reframes hlink he.isPair (.part List.mem_cons_self) hr).mono (List.subset_cons_self ..)
  refine ⟨m', (bind_of_ok hbind).trans (setCar_of_isPair he.isPair frame), ⟨⟨hh', he.family.isPair⟩, fun t ht => ?_⟩,
    congrArg (fun x : Machine => { x with heap := { x.heap with cells := m'.heap.cells } }) ha.eq, ha.free,
    (hr.cdr _).trans (congrArg Cell.cdr (ha.kept _ (hh.live ho he.isPair)).2), fun i hi hlive => ?_⟩
  · obtain ⟨is, hlinks⟩ := he.exists_links
    rw [he.family.lookup_define List.mem_cons_self List.mem_cons_self ha hh₁ hbindings hstrings hr hlinks ht]
    by_cases hsame : t = symbol
    · subst hsame
      cases hlinks with
      | nil hnot => exact absurd he.isPair hnot
      | @cons _ _ is _ _ =>
        have hfound : Heap.valueIn (([] ++ env.payload :: is).map fun j =>
            if j = env.payload then (t, value) :: m.heap.frameAt j else m.heap.frameAt j) t = some value :=
          Heap.valueIn_update_append (by simp)
        rw [List.nil_append] at hfound
        rw [hfound, Function.update_self]
        rfl
    · rw [Heap.valueIn_update_of_ne hsame, Function.update_of_ne hsame, ← he.value t ht, hh.lookup_eq ho hlinks]
  · rw [hr.read, if_neg hi]
    exact ⟨(hr.isLive i).2 (ha.kept i hlive).1, (ha.kept i hlive).2⟩

end Means

/-! ## Machines that go on -/

/-- A sound machine with these roots, a limit for them, and at least so many free cells. -/
structure Machine.Stands (m : Machine) (roots : List Word) (limit room : Nat) : Prop where
  sound : m.heap.Sound
  roots : m.heap.roots.toList = roots
  limit : m.heap.rootCapacity = limit
  room : room ≤ m.heap.cells.freeCount

namespace Machine.Stands

variable {m m' : Machine} {roots below above : List Word} {limit room n : Nat} {expr env : Word}

/-- A machine that differs in the cells. -/
theorem recell (hm : m.Stands roots limit (room + n)) (hs : m'.heap.cells.Sound)
    (heq : m' = { m with heap := { m.heap with cells := m'.heap.cells } })
    (hfree : m.heap.cells.freeCount = m'.heap.cells.freeCount + n) : m'.Stands roots limit room where
  sound := ⟨hs, by rw [heq]; exact hm.sound.strings⟩
  roots := by rw [heq]; exact hm.roots
  limit := by rw [heq]; exact hm.limit
  room := by have := hm.room; omega

theorem adds (hm : m.Stands roots limit (room + n)) (ha : m.Adds m' n) : m'.Stands roots limit room :=
  hm.recell ha.sound ha.eq ha.free

/-- At the start of a pass what the roots reach is kept. -/
theorem maybeCollect (hm : m.Stands roots limit room) :
    (maybeCollect m).Stands roots limit room ∧ m.heap.Keeps (BoxedScheme.maybeCollect m).heap roots := by
  unfold BoxedScheme.maybeCollect
  split
  · have hcollected := hm.sound.collected (m.symbols.values ++ [m.globalEnv])
    refine ⟨⟨hm.sound.collect _, hm.roots, hm.limit, hm.room.trans hcollected.cells.freeCount_le⟩, ?_⟩
    intro w hw hc hlive
    have hreached : m.heap.ReachesCell (m.heap.roots.toList ++ (m.symbols.values ++ [m.globalEnv])) w.payload :=
      ⟨w, hw.mono fun v hv => List.mem_append_left _ (hm.roots ▸ hv), hc, rfl⟩
    have hlive' := (hcollected.cells.isLive _).2 ⟨hlive, hreached⟩
    exact ⟨hlive', hcollected.cells.read_live _ hlive'⟩
  · exact ⟨⟨hm.sound, hm.roots, hm.limit, hm.room⟩, .of_keptBy (.refl _) _⟩

/-- A machine that differs in the roots. -/
theorem reroot {roots' : List Word} (hm : m.Stands roots limit room) (hcells : m'.heap.cells = m.heap.cells)
    (hstrings : m'.heap.strings = m.heap.strings) (hlimit : m'.heap.rootCapacity = m.heap.rootCapacity)
    (hroots : m'.heap.roots.toList = roots') : m'.Stands roots' limit room where
  sound := ⟨hcells ▸ hm.sound.cells, hstrings ▸ hm.sound.strings⟩
  roots := hroots
  limit := hlimit.trans hm.limit
  room := hcells ▸ hm.room

theorem beginPass (hm : m.Stands (below ++ expr :: env :: above) limit room) :
    (beginPass below.length m).Stands (below ++ [expr, env]) limit room ∧
      m.heap.Keeps (BoxedScheme.beginPass below.length m).heap (below ++ [expr, env]) := by
  have hroots : (m.heap.truncateRoots (below.length + 2)).roots.toList = below ++ [expr, env] := by
    rw [Heap.toList_truncateRoots, hm.roots]
    simp [List.take_append, List.take_of_length_le]
  obtain ⟨hm', hk⟩ := maybeCollect (m := m.mapHeap (·.truncateRoots (below.length + 2))) (hm.reroot rfl rfl rfl hroots)
  exact ⟨hm', hk.after (.refl _) hm.sound.cells⟩

theorem handOver (hm : m.Stands (below ++ expr :: env :: above) limit room) (expr' env' : Word) :
    (handOver below.length expr' env' m).Stands (below ++ expr' :: env' :: above) limit room := by
  refine hm.reroot rfl rfl rfl ?_
  show ((m.heap.roots.setIfInBounds _ expr').setIfInBounds _ env').toList = _
  rw [Array.toList_setIfInBounds, Array.toList_setIfInBounds, hm.roots]
  simp

theorem pushRoot (hm : m.Stands roots limit room) (hlimit : roots.length < limit) (w : Word) :
    ∃ m', Eval.onHeap (Heap.pushRoot w) m = .ok roots.length m' ∧ m'.Stands (roots ++ [w]) limit room ∧
      m'.heap.cells = m.heap.cells := by
  have hsize : m.heap.roots.size = roots.length := by rw [← hm.roots, Array.length_toList]
  rw [onHeap_pushRoot, if_pos (by rw [hsize, hm.limit]; exact hlimit), hsize]
  refine ⟨_, rfl, hm.reroot rfl rfl rfl ?_, rfl⟩
  show (m.heap.roots.push w).toList = _
  rw [Array.toList_push, hm.roots]

theorem truncate (hm : m.Stands (roots ++ above) limit room) :
    (m.mapHeap (·.truncateRoots roots.length)).Stands roots limit room := by
  refine hm.reroot rfl rfl rfl ?_
  show (m.heap.truncateRoots _).roots.toList = _
  rw [Heap.toList_truncateRoots, hm.roots, List.take_left]

/-- A nested evaluation starts with a pass, which keeps what it is over, and drops its roots in the end. -/
theorem enter (hm : m.Stands roots limit room) (hlimit : roots.length + 1 < limit) (expr env : Word) :
    ∃ m₁, m₁.Stands (roots ++ [expr, env]) limit room ∧ m.heap.Keeps m₁.heap (roots ++ [expr, env]) ∧
      ∀ budget value m₂, step (enter (passes budget)) budget expr env m₁ = .ok (.done value) m₂ →
        BoxedScheme.enter (passes (budget + 1)) expr env m = .ok value (m₂.mapHeap (·.truncateRoots roots.length)) := by
  have hsize : m.heap.roots.size = roots.length := by rw [← hm.roots, Array.length_toList]
  let m₀ : Machine := withScratch m ⟨(m.heap.roots.push expr).push env, m.heap.stats, m.dispatches⟩
  have hm₀ : m₀.Stands (roots ++ [expr, env]) limit room := by
    refine hm.reroot rfl rfl rfl ?_
    show ((m.heap.roots.push expr).push env).toList = _
    rw [Array.toList_push, Array.toList_push, hm.roots, List.append_assoc]
    rfl
  obtain ⟨hm₁, hk⟩ := hm₀.beginPass
  refine ⟨BoxedScheme.beginPass roots.length m₀, hm₁, ?_, fun budget value m₂ hstep => ?_⟩
  · exact hk.after (.refl _) hm.sound.cells
  · rw [enter_apply, if_pos (by rw [hsize, hm.limit]; exact hlimit), hsize, passes_succ_apply, bind_of_ok hstep]
    rfl

end Machine.Stands

/-! ## Closures -/

namespace Heap

variable {h h' : Heap} {ws : List Word} {w env params body : Word} {names exprs : List Word} {ss : List Sketch}

theorem Spells.exists_lists (hw : h.Spells w (.list ss)) :
    ∃ items, h.Lists w items .nil ∧ List.Forall₂ h.Spells items ss := by
  induction ss generalizing w with
  | nil =>
    obtain rfl : w = .nil := hw
    exact ⟨[], .nil (by decide), .nil⟩
  | cons s ss ih =>
    obtain ⟨hp, -, hcar, hcdr⟩ := hw
    obtain ⟨items, hl, hitems⟩ := ih hcdr
    exact ⟨_, .cons hp hl, .cons hcar hitems⟩

theorem Spells.lists {items : List Word} (hw : h.Spells w (.list (items.map .word))) : h.Lists w items .nil := by
  obtain ⟨items', hl, hitems⟩ := hw.exists_lists
  rw [List.forall₂_map_right_iff] at hitems
  obtain rfl : items' = items := List.forall₂_eq_eq_eq ▸ hitems
  exact hl

theorem Lists.keeps {items : List Word} (hl : h.Lists w items .nil) (hs : h.cells.Sound) (hk : h.Keeps h' ws)
    (hr : h.Reaches ws w) : h'.Lists w items .nil :=
  Spells.lists ((hl.spells hs (by decide) h.reads_word).keeps hk hr)

structure IsLambda (h : Heap) (w params body : Word) (names exprs : List Word) : Prop where
  spells : h.Spells w (.lambda (.word params) (.word body))
  params : h.Lists params names .nil
  names : ∀ name ∈ names, name.isSymbol
  body : h.Lists body exprs .nil
  nonempty : exprs ≠ []

theorem Spells.exists_isLambda (hw : h.Spells w (.lambda (.list (names.map .word)) (.list ss)))
    (hnames : ∀ name ∈ names, name.isSymbol) (hss : ss ≠ []) :
    ∃ params body exprs, h.IsLambda w params body names exprs ∧ List.Forall₂ h.Spells exprs ss := by
  obtain ⟨hp, hlive, hhead, hp', hlive', hparams, hbody⟩ := hw
  obtain ⟨exprs, hl, hexprs⟩ := hbody.exists_lists
  refine ⟨_, _, exprs, ⟨⟨hp, hlive, hhead, hp', hlive', rfl, rfl⟩, hparams.lists, hnames, hl, ?_⟩, hexprs⟩
  rintro rfl
  cases hexprs
  exact hss rfl

/-- Parameters and body of a `lambda` expression are reached from it. -/
theorem IsLambda.reaches (hw : h.IsLambda w params body names exprs) (hr : h.Reaches ws w) :
    h.Reaches ws params ∧ h.Reaches ws body := by
  have hwords := hw.spells.reaches hr
  exact ⟨hwords params (by simp [Sketch.words, Sketch.lambda]), hwords body (by simp [Sketch.words, Sketch.lambda])⟩

theorem IsLambda.keeps (hw : h.IsLambda w params body names exprs) (hs : h.cells.Sound) (hk : h.Keeps h' ws)
    (hr : h.Reaches ws w) : h'.IsLambda w params body names exprs where
  spells := hw.spells.keeps hk hr
  params := hw.params.keeps hs hk (hw.reaches hr).1
  names := hw.names
  body := hw.body.keeps hs hk (hw.reaches hr).2
  nonempty := hw.nonempty

structure IsClosure (h : Heap) (w env params body : Word) : Prop where
  word : w = .closure w.payload
  live : h.cells.IsLive w.payload
  env : (h.cells.read w.payload).car = env
  isPair : (h.cells.read w.payload).cdr.isPair
  liveCode : h.cells.IsLive (h.cells.read w.payload).cdr.payload
  code : h.cells.read (h.cells.read w.payload).cdr.payload = ⟨params, body⟩

/-- The cell is none of the two of the closure. -/
def Apart (h : Heap) (closure : Word) (i : UInt32) : Prop :=
  i ≠ closure.payload ∧ i ≠ (h.cells.read closure.payload).cdr.payload

namespace IsClosure

variable (hw : h.IsClosure w env params body)

include hw

theorem hasCell : w.hasCell := by
  rw [hw.word]
  simp

theorem closureParts : h.closureParts w = .ok ⟨env, params, body⟩ := by
  have hpair : (Word.pair w.payload).isPair := by simp [Word.isPair]
  have hclosure : w.isClosure := by
    rw [hw.word]
    simp [Word.isClosure]
  have hcar : h.car (.pair w.payload) = .ok env := by
    rw [car, pairCell_of_isPair hpair, Word.payload_pair, ← hw.env]
    rfl
  have hcdr : h.cdr (.pair w.payload) = .ok (h.cells.read w.payload).cdr := by
    rw [cdr, pairCell_of_isPair hpair, Word.payload_pair]
    rfl
  have hparams : h.car (h.cells.read w.payload).cdr = .ok params := by
    rw [car, pairCell_of_isPair hw.isPair, hw.code]
    rfl
  have hbody : h.cdr (h.cells.read w.payload).cdr = .ok body := by
    rw [cdr, pairCell_of_isPair hw.isPair, hw.code]
    rfl
  rw [Heap.closureParts, Word.closurePair?, if_pos hclosure]
  dsimp only
  rw [hcar, hcdr]
  show (h.car _ >>= fun params => h.cdr _ >>= fun body => pure (⟨env, params, body⟩ : ClosureParts)) = _
  rw [hparams, hbody]
  rfl

theorem of_cells (hread : h'.cells.read w.payload = h.cells.read w.payload) (hlive : h'.cells.IsLive w.payload)
    (hcode : h'.cells.IsLive (h.cells.read w.payload).cdr.payload ∧
      h'.cells.read (h.cells.read w.payload).cdr.payload = h.cells.read (h.cells.read w.payload).cdr.payload) :
    h'.IsClosure w env params body where
  word := hw.word
  live := hlive
  env := hread ▸ hw.env
  isPair := hread ▸ hw.isPair
  liveCode := hread ▸ hcode.1
  code := by rw [hread, hcode.2, hw.code]

theorem kept_but {i : UInt32} (hi : h.Apart w i)
    (hk : ∀ j, j ≠ i → h.cells.IsLive j → h'.cells.IsLive j ∧ h'.cells.read j = h.cells.read j) :
    h'.IsClosure w env params body :=
  hw.of_cells (hk _ hi.1.symm hw.live).2 (hk _ hi.1.symm hw.live).1 (hk _ hi.2.symm hw.liveCode)

theorem keeps (hk : h.Keeps h' ws) (hr : h.Reaches ws w) : h'.IsClosure w env params body :=
  hw.of_cells (hk w hr hw.hasCell hw.live).2 (hk w hr hw.hasCell hw.live).1
    (hk _ (hr.cdr hw.hasCell) (Word.hasCell_of_isPair hw.isPair) hw.liveCode)

theorem kept (hk : h.cells.KeptBy h'.cells) : h'.IsClosure w env params body :=
  hw.of_cells (hk _ hw.live).2 (hk _ hw.live).1 (hk _ hw.liveCode)

/-- Parameters and body of a closure are reached from it. -/
theorem reaches (hr : h.Reaches ws w) : h.Reaches ws params ∧ h.Reaches ws body := by
  have hcode := hr.cdr hw.hasCell
  have hc := Word.hasCell_of_isPair hw.isPair
  have hparams := hcode.car hc
  have hbody := hcode.cdr hc
  rw [hw.code] at hparams hbody
  exact ⟨hparams, hbody⟩

end IsClosure

theorem exists_makeClosure (hs : h.cells.Sound) (hroom : 0 < h.cells.freeCount) (env code : Word) :
    ∃ i h', makeClosure env code h = .ok (.closure i) h' ∧ h.Adds h' 1 ∧ ¬ h.cells.IsLive i ∧ h'.cells.IsLive i ∧
      h'.cells.read i = ⟨env, code⟩ := by
  obtain ⟨i, hnext⟩ := Pool.exists_next hroom
  have htakes := hs.takes hnext ⟨env, code⟩
  rw [makeClosure_apply, hnext]
  exact ⟨i, _, rfl, ⟨rfl, hs.fill hnext _, hs.keptBy_fill hnext _, htakes.capacity, Pool.freeCount_fill hnext _⟩,
    htakes.dead, (htakes.isLive i).2 (.inl rfl), (htakes.read i).trans (if_pos rfl)⟩

end Heap

section Lambdas

variable {m : Machine} {roots : List Word} {limit room : Nat} {lam env params body : Word} {names exprs : List Word}

theorem Heap.Lists.parametersStop?_eq_none {h : Heap} (hl : h.Lists params names .nil)
    (hnames : ∀ name ∈ names, name.isSymbol) (hlimit : names.length ≤ limit) : parametersStop? h limit params = none := by
  induction names generalizing params limit with
  | nil =>
    cases hl
    cases limit <;> rfl
  | cons name names ih =>
    rw [List.forall_mem_cons] at hnames
    cases hl with
    | cons hp hl =>
      cases limit with
      | zero => simp at hlimit
      | succ limit =>
        simp only [parametersStop?, parametersStopWith, hp, hnames.1, Bool.not_true, Bool.false_eq_true, if_true, if_false]
        exact ih hl hnames.2 (Nat.le_of_succ_le_succ hlimit)

/-- A closure takes two cells that were free. -/
theorem exists_makeLambda (hs : m.heap.cells.Sound) (hroom : 2 ≤ m.heap.cells.freeCount)
    (hlam : m.heap.IsLambda lam params body names exprs) (env : Word) :
    ∃ closure m', makeLambda params body env m = .ok closure m' ∧ m.Adds m' 2 ∧
      m'.heap.IsClosure closure env params body ∧ ∀ i, m.heap.cells.IsLive i → m'.heap.Apart closure i := by
  have hne : Word.nil ≠ .error := by decide
  have hpair : body.isPair := by
    by_contra hnot
    exact hlam.nonempty (hlam.body.of_not_isPair hnot).1
  have hparams := hlam.params.parametersStop?_eq_none hlam.names (hlam.params.length_le hs hne)
  have htail : Eval.inspect (·.listTail body) m = .ok .nil m := by
    simp [Eval.inspect, Heap.listTail, hlam.body.spine hs hne]
  rcases Heap.cons_cases hs params body with ⟨hempty, -⟩ | ⟨code, h₁, hcons, ha, hp, hdead, hlive, hread⟩
  · omega
  have hfree := ha.free
  obtain ⟨i, h₂, hclosure, ha', hdead', hlive', hread'⟩ := Heap.exists_makeClosure ha.sound (by omega) env code
  have hcons' : Eval.cons params body m = .ok code { m with heap := h₁ } := by
    unfold Eval.cons Eval.onHeap
    rw [hcons]
  have hmake : Eval.onHeap (Heap.makeClosure env code) { m with heap := h₁ } =
      .ok (.closure i) { m with heap := h₂ } := by
    unfold Eval.onHeap
    rw [hclosure]
  have hcode := ha'.kept _ hlive
  have hcell : h₂.cells.read (Word.closure i).payload = ⟨env, code⟩ := by rw [Word.payload_closure, hread']
  refine ⟨.closure i, { m with heap := h₂ }, ?_, (ha.trans ha').machine,
    ⟨by simp, by simpa using hlive', ?_, ?_, ?_, ?_⟩,
    fun j hj => ⟨?_, ?_⟩⟩
  · unfold makeLambda
    rw [bind_of_ok (rfl : (get : Eval Machine) m = .ok m m), hparams]
    simp only [hpair, Bool.not_true, Bool.false_eq_true, if_false]
    rw [bind_of_ok htail]
    simp only [ne_eq, not_true_eq_false, if_false]
    exact (bind_of_ok hcons').trans hmake
  · exact congrArg Cell.car hcell
  · show (h₂.cells.read _).cdr.isPair = true
    rw [hcell]
    exact hp
  · show h₂.cells.IsLive (h₂.cells.read _).cdr.payload
    rw [hcell]
    exact hcode.1
  · show h₂.cells.read (h₂.cells.read _).cdr.payload = _
    rw [hcell]
    exact hcode.2.trans hread
  · rintro rfl
    exact hdead' (by simpa using (ha.kept _ hj).1)
  · show j ≠ (h₂.cells.read _).cdr.payload
    rw [hcell]
    rintro rfl
    exact hdead hj

/-- A pass over a `lambda` expression. -/
theorem exists_step_lambda (hs : m.heap.cells.Sound) (hroom : 2 ≤ m.heap.cells.freeCount)
    (hlam : m.heap.IsLambda lam params body names exprs) (env : Word) :
    ∃ closure m', (∀ ev budget, step ev budget lam env m = .ok (.done closure) m') ∧ m.Adds m' 2 ∧
      m'.heap.IsClosure closure env params body ∧ ∀ i, m.heap.cells.IsLive i → m'.heap.Apart closure i := by
  obtain ⟨closure, m', hmake, ha, hclosure, hapart⟩ := exists_makeLambda hs hroom hlam env
  refine ⟨closure, m', fun ev budget => ?_, ha, hclosure, hapart⟩
  obtain ⟨hp, -, hhead, hoperands, -, hparams, hbody⟩ := hlam.spells
  have hform : Operation.formOf? (m.heap.cells.read lam.payload).car = some .lambda := by
    rw [show (m.heap.cells.read lam.payload).car = Operation.lambdaSymbol from hhead]
    decide
  have hl := Heap.Lists.cons hoperands
    ((show (m.heap.cells.read (m.heap.cells.read lam.payload).cdr.payload).cdr = body from hbody) ▸ hlam.body)
  have hitems := (Heap.listItems_eq_ok_iff hs Form.lambda.name _).2 ⟨.nil, hl, by decide⟩
  rw [step_form ev budget hp hform, evalForm, bind_of_ok (rfl : (get : Eval Machine) m = .ok m m), hitems]
  cases hexprs : exprs with
  | nil => exact absurd hexprs hlam.nonempty
  | cons first rest =>
    refine (bind_of_ok (evalCdr_of_isPair hoperands)).trans ?_
    rw [show (m.heap.cells.read (m.heap.cells.read lam.payload).cdr.payload).car = params from hparams,
      show (m.heap.cells.read (m.heap.cells.read lam.payload).cdr.payload).cdr = body from hbody]
    exact bind_of_ok hmake

/-- A nested evaluation of a `lambda` expression. -/
theorem enter_lambda (hm : m.Stands roots limit (room + 2)) (hlimit : roots.length + 1 < limit)
    (hlam : m.heap.IsLambda lam params body names exprs) (env : Word) :
    ∃ closure m', (∀ budget, enter (passes (budget + 1)) lam env m = .ok closure m') ∧ m'.Stands roots limit room ∧
      m.heap.Keeps m'.heap (roots ++ [lam, env]) ∧ m'.heap.IsClosure closure env params body ∧
      ∀ w, m.heap.Reaches (roots ++ [lam, env]) w → w.hasCell → m.heap.cells.IsLive w.payload →
        m'.heap.Apart closure w.payload := by
  obtain ⟨m₁, hm₁, hk, hrun⟩ := hm.enter hlimit lam env
  have hlam₁ := hlam.keeps hm.sound.cells hk (.root (by simp))
  obtain ⟨closure, m₂, hstep, ha, hclosure, hapart⟩ :=
    exists_step_lambda hm₁.sound.cells (by have := hm₁.room; omega) hlam₁ env
  refine ⟨closure, _, fun budget => hrun budget closure m₂ (hstep _ _), (hm₁.adds ha).truncate,
    (hk.keptBy ha.kept).keptBy (.refl _), hclosure.kept (.refl _), fun w hw hc hlive => ?_⟩
  exact hapart _ (hk w hw hc hlive).1

end Lambdas

end BoxedScheme
