import BoxedScheme.Proofs.Binding
import BoxedScheme.Proofs.Safety

/-!
# What definitions and calls do to environments

Environments share their outer frames, so a definition is seen from every environment that has the frame, unless an
inner frame binds the symbol, and from no other. A call adds a frame and changes no cell that was live.

* `define_cases` : a definition changes the frame of one link, or nothing that was live;
* `Environments m es` : the environments `es` of `m` come from a new machine by extensions and definitions;
* `Environments.family` : what every step keeps, and so every run;
* `extend_binds` : the values of symbols in an extended environment;
* `define_exposed` : which environments see a definition.
-/

namespace BoxedScheme

open Heap (Layer)

section Definition

variable {m : Machine} {parts : List (Layer × Word)} {env symbol value : Word}

/-! ## Definition -/

/-- The cell that the binding takes is none of an environment, so the frame may be read before. -/
theorem define_eq (hh : m.heap.Hosts parts) (henv : m.heap.Occurs parts .link env) (hp : env.isPair)
    (symbol value : Word) :
    define env symbol value m = (bindTo symbol value (m.heap.cells.read env.payload).car >>= fun frame =>
      Eval.onHeap (Heap.setCar env frame)) m := by
  simp only [define, bindTo, bind_assoc]
  rcases evalCons_cases hh .binding (a := symbol) (d := value) nofun nofun with
    ⟨-, hcons⟩ | ⟨b, m₁, hcons, hadds, -⟩
  · rw [bind_of_error hcons, bind_of_error hcons]
  · rw [bind_of_ok hcons, bind_of_ok hcons, bind_of_ok (evalCar_of_isPair hp), (hadds.kept _ (hh.live henv hp)).2]

theorem setCar_of_isPair (hp : env.isPair) (frame : Word) :
    Eval.onHeap (Heap.setCar env frame) m = .ok () { m with heap := { m.heap with
      cells := m.heap.cells.update env.payload fun cell => { cell with car := frame } } } := by
  unfold Eval.onHeap Heap.setCar
  rw [Heap.updatePair_of_isPair hp]

/-- A definition gives a link a frame with one more binding, or there is no room for it. -/
theorem define_cases (hh : m.heap.Hosts parts) (henv : m.heap.Occurs parts .link env) (hp : env.isPair)
    (symbol value : Word) :
    (m.heap.cells.freeCount < 2 ∧ ∃ m' n, define env symbol value m = .error m.full m' ∧ m.Adds m' n) ∨
      2 ≤ m.heap.cells.freeCount ∧ ∃ m₁ m' frame, define env symbol value m = .ok () m' ∧ m.Adds m₁ 2 ∧
        m₁.heap.Hosts ((.entry, frame) :: parts) ∧
        frameBindings m₁.heap frame = (symbol, value) :: m.heap.frameAt env.payload ∧
        m'.heap.strings = m.heap.strings ∧ m₁.heap.Reframes m'.heap env.payload frame := by
  have hlive := hh.live henv hp
  rw [define_eq hh henv hp]
  rcases bindTo_cases hh (.car henv hp rfl) symbol value with
    ⟨hfew, m', n, hbind, hadds⟩ | ⟨frame, m₁, hbind, hadds, hh₁, hw, hbindings⟩
  · exact .inl ⟨hfew, m', n, bind_of_error hbind, hadds⟩
  · have hfree := hadds.free
    have hlive₁ := (hadds.kept _ hlive).1
    refine .inr ⟨by omega, m₁, _, frame, (bind_of_ok hbind).trans (setCar_of_isPair hp frame), hadds, hh₁, hbindings,
      hadds.strings, ?_⟩
    exact ⟨hadds.sound.update hlive₁ _, fun j => Iff.rfl, fun j => Pool.read_update hlive₁.lt _ j⟩

end Definition

/-! ## Families of environments -/

/-- The parts that are environments. -/
def linksOf (es : List Word) : List (Layer × Word) := es.map fun e => (.link, e)

/-- Environments of a machine that come from the global one by extensions and definitions. Whatever else happens leaves
their cells alone. -/
inductive Environments : Machine → List Word → Prop where
  | create {config : Config} {terminal : Terminal} {files : Files} {m : Machine} :
    Machine.create config terminal files = .ok m → Environments m [m.globalEnv]
  | extend {m m' : Machine} {es : List Word} {env params args env' : Word} : Environments m es → env ∈ es →
    extend env params args m = .ok env' m' → Environments m' (env' :: es)
  | extendFailed {m m' : Machine} {es : List Word} {env params args : Word} {e : Stop} : Environments m es → env ∈ es →
    extend env params args m = .error e m' → Environments m' es
  | define {m : Machine} {es : List Word} {env symbol value : Word} : Environments m es → env ∈ es →
    Environments (after (define env symbol value) m) es
  | other {m m' : Machine} {es es' : List Word} : Environments m es → es' ⊆ es → m'.heap.cells.Sound →
    m.heap.Retained m'.heap (linksOf es') → Environments m' es'

/-- What environments that are built have in common. -/
structure Family (m : Machine) (es : List Word) : Prop where
  hosts : m.heap.Hosts (linksOf es)
  isPair : ∀ e ∈ es, e.isPair

section Families

variable {m m' : Machine} {es : List Word} {env env' params args symbol value : Word} {n : Nat}

theorem occurs_linksOf {h : Heap} (henv : env ∈ es) : h.Occurs (linksOf es) .link env :=
  .part (List.mem_map_of_mem henv)

theorem Family.adds (hf : Family m es) (ha : m.Adds m' n) : Family m' es := ⟨ha.hosts hf.hosts, hf.isPair⟩

theorem Family.extend (hf : Family m es) (henv : env ∈ es) (hok : extend env params args m = .ok env' m') :
    Family m' (env' :: es) := by
  have hext := extended_extend hf.hosts (occurs_linksOf henv) params args
  rw [hok] at hext
  obtain ⟨_, _, -, hh, hp, -⟩ := hext
  exact ⟨hh, List.forall_mem_cons.2 ⟨hp, hf.isPair⟩⟩

theorem Family.extendFailed {e : Stop} (hf : Family m es) (henv : env ∈ es)
    (herr : BoxedScheme.extend env params args m = .error e m') : Family m' es := by
  have hext := extended_extend hf.hosts (occurs_linksOf henv) params args
  rw [herr] at hext
  obtain ⟨⟨_, hadds⟩, -⟩ := hext
  exact hf.adds hadds

theorem Family.define (hf : Family m es) (henv : env ∈ es) (symbol value : Word) :
    Family (after (define env symbol value) m) es := by
  have hp := hf.isPair env henv
  rcases define_cases hf.hosts (occurs_linksOf henv) hp symbol value with
    ⟨-, m', n, hdef, hadds⟩ | ⟨-, m₁, m', frame, hdef, -, hh₁, -, -, hr⟩
  · rw [after_of_error hdef]
    exact hf.adds hadds
  · rw [after_of_ok hdef]
    have hlink : m₁.heap.Occurs ((.entry, frame) :: linksOf es) .link env :=
      (occurs_linksOf henv).mono (List.subset_cons_self ..)
    have hh' := hh₁.reframes hlink hp (.part List.mem_cons_self) hr
    exact ⟨hh'.mono (List.subset_cons_self ..), hf.isPair⟩

/-- A new machine has one environment, and no bindings in it. -/
theorem globalEnv_of_create {config : Config} {terminal : Terminal} {files : Files}
    (hm : Machine.create config terminal files = .ok m) :
    Family m [m.globalEnv] ∧ m.heap.cells.read m.globalEnv.payload = ⟨.nil, .nil⟩ := by
  unfold Machine.create at hm
  dsimp only at hm
  split at hm
  next env m' hinit =>
    cases hm
    change (internNames 0 Operation.table.toList >>= fun _ => Eval.cons .nil .nil) _ = _ at hinit
    cases hnames : internNames 0 Operation.table.toList _ with
    | error e m₁ =>
      rw [bind_of_error hnames] at hinit
      cases hinit
    | ok _ m₁ =>
      rw [bind_of_ok hnames] at hinit
      obtain ⟨ρ, hv, -⟩ := internNames_ok (.fresh (fun _ => .data) ..) hnames
      have hh := ((Heap.Hosts.empty hv.typed.sound.cells).nil (l := .entry) (by decide)).nil (l := .link) (by decide)
      rcases evalCons_cases hh .link (a := .nil) (d := .nil) (by rintro _ ⟨⟩; exact .part (by simp))
        (by rintro _ ⟨⟩; exact .part (by simp)) with ⟨-, hcons⟩ | ⟨w, m₂, hcons, -, hh₂, hw, hread⟩
      · rw [hcons] at hinit
        cases hinit
      · rw [hcons] at hinit
        cases hinit
        exact ⟨⟨hh₂.mono (by simp [linksOf]), by simpa using hw⟩, hread⟩
  next => cases hm

theorem Family.create {config : Config} {terminal : Terminal} {files : Files}
    (hm : Machine.create config terminal files = .ok m) : Family m [m.globalEnv] := (globalEnv_of_create hm).1

theorem Environments.family (hb : Environments m es) : Family m es := by
  induction hb with
  | create hm => exact .create hm
  | extend _ henv hok ih => exact ih.extend henv hok
  | extendFailed _ henv herr ih => exact ih.extendFailed henv herr
  | define _ henv ih => exact ih.define henv _ _
  | other _ hsub hs hr ih =>
    exact ⟨(ih.hosts.mono (List.map_subset _ hsub)).retained hr hs, fun e he => ih.isPair e (hsub he)⟩

theorem Environments.adds (hes : Environments m es) (ha : m.Adds m' n) : Environments m' es :=
  .other hes (List.Subset.refl _) ha.sound (hes.family.hosts.retained_of_keptBy ha.kept)

/-- A list takes a cell for each item. -/
theorem exists_lists (items : List Word) (tail : Word) (hs : m.heap.cells.Sound) (htail : ¬ tail.isPair)
    (hne : tail ≠ .error) (hroom : items.length ≤ m.heap.cells.freeCount) :
    ∃ w m', m.Adds m' items.length ∧ m'.heap.Lists w items tail := by
  induction items with
  | nil => exact ⟨tail, m, .refl hs, .nil htail⟩
  | cons a items ih =>
    obtain ⟨d, m₁, ha, hl⟩ := ih (Nat.le_of_succ_le hroom)
    have hfree := ha.free
    rw [List.length_cons] at hroom
    rcases evalCons_cases (.empty ha.sound) .binding (a := a) (d := d) nofun nofun with
      ⟨hempty, -⟩ | ⟨w, m₂, -, ha', -, hw, hread⟩
    · omega
    · refine ⟨w, m₂, ha.trans ha', ?_⟩
      have hcons := Heap.Lists.cons hw (by rw [hread]; exact hl.kept ha.sound hne ha'.kept)
      rwa [hread] at hcons

theorem exists_created : ∃ config terminal files m, Machine.create config terminal files = .ok m ∧
    m.heap.rootCapacity = 32 ∧ 29 ≤ m.heap.cells.freeCount := by
  have hok : (Machine.create { cells := 64, strings := 72, roots := 32 } .capturing {}).toOption.any (fun m =>
      decide (m.heap.rootCapacity = 32 ∧ 29 ≤ m.heap.cells.freeCount)) = true := by decide +kernel
  cases hm : Machine.create { cells := 64, strings := 72, roots := 32 } .capturing {} with
  | error e =>
    rw [hm] at hok
    cases hok
  | ok m =>
    rw [hm] at hok
    exact ⟨_, _, _, m, hm, of_decide_eq_true hok⟩

theorem exists_environments : ∃ m, Environments m [m.globalEnv] ∧ 16 ≤ m.heap.cells.freeCount := by
  obtain ⟨_, _, _, m, hm, -, hfree⟩ := exists_created
  exact ⟨m, .create hm, by omega⟩

/-! ## What an extension binds -/

/-- The last of several bindings of a name counts. -/
theorem lookup_reverse_zip {names values : List Word} {k : Nat} {name : Word} (hname : names[k]? = some name)
    (hlast : ∀ j, k < j → names[j]? ≠ some name) (hvalue : values[k]? = some value) :
    (names.zip values).reverse.lookup name = some value := by
  induction names generalizing k values with
  | nil => simp at hname
  | cons a names ih =>
    cases values with
    | nil => simp at hvalue
    | cons b values =>
      rw [List.zip_cons_cons, List.reverse_cons, List.lookup_append]
      cases k with
      | zero =>
        obtain rfl : a = name := by simpa using hname
        obtain rfl : b = value := by simpa using hvalue
        have hnone : (names.zip values).reverse.lookup a = none := by
          refine lookup_eq_none_of_forall fun c hc heq => ?_
          obtain ⟨j, hj⟩ := List.mem_iff_getElem?.1 (List.of_mem_zip (List.mem_reverse.1 hc)).1
          exact hlast (j + 1) (Nat.succ_pos j) (by simpa [heq] using hj)
        simp [hnone]
      | succ k =>
        have hlast' : ∀ j, k < j → names[j]? ≠ some name := fun j hj => by simpa using hlast (j + 1) (by omega)
        have hih := ih (by simpa using hname) hlast' (by simpa using hvalue)
        simp [hih]

/-- In the new environment the name for the rest has the arguments behind the required ones, another parameter has the
argument at its last position, and every other symbol has the value that it has in the old one. -/
structure Binds (m : Machine) (env : Word) (names values : List Word) (rest nil : Word) (m' : Machine) (env' : Word) :
    Prop where
  remaining : rest.isSymbol → ∃ left, m'.heap.lookup env' rest = .ok left ∧
    m'.heap.Lists left (values.drop names.length) nil
  last : ∀ (k : Nat) name value, names[k]? = some name → (∀ j, k < j → names[j]? ≠ some name) →
    values[k]? = some value → name ≠ rest → m'.heap.lookup env' name = .ok value
  outer : ∀ symbol, symbol.isSymbol → symbol ∉ names → symbol ≠ rest →
    m'.heap.lookup env' symbol = m.heap.lookup env symbol

theorem Family.binds {names values : List Word} {rest nil left frame : Word} (hf : Family m es) (henv : env ∈ es)
    (ha : m.Adds m' n) (hh : m'.heap.Hosts ((.link, env') :: linksOf es)) (hp : env'.isPair)
    (hread : m'.heap.cells.read env'.payload = ⟨frame, env⟩)
    (hleft : m'.heap.Lists left (values.drop names.length) nil)
    (hframe : frameBindings m'.heap frame =
      (if rest.isSymbol then [(rest, left)] else []) ++ (names.zip values).reverse) :
    Binds m env names values rest nil m' env' := by
  have ho : m.heap.Occurs (linksOf es) .link env := occurs_linksOf henv
  have hr := hf.hosts.retained_of_keptBy ha.kept
  obtain ⟨is, hlinks⟩ := hf.hosts.ends ho (by decide)
  have hlinks' : m'.heap.Links env' (env'.payload :: is) .nil := by
    refine .cons hp ?_
    rw [hread]
    exact hr.links ho (by decide) hlinks
  have hfound : ∀ symbol value, (frameBindings m'.heap frame).lookup symbol = some value →
      m'.heap.lookup env' symbol = .ok value := by
    intro symbol value hvalue
    rw [hh.lookup_eq (.part List.mem_cons_self) hlinks', List.map_cons, Heap.valueIn, List.findSome?_cons, Heap.frameAt,
      hread, hvalue]
    rfl
  have hmissing : ∀ symbol, (frameBindings m'.heap frame).lookup symbol = none →
      m'.heap.lookup env' symbol = m'.heap.lookup env symbol := by
    intro symbol hnone
    rw [hh.lookup_eq (.part List.mem_cons_self) hlinks', List.map_cons, Heap.valueIn, List.findSome?_cons, Heap.frameAt,
      hread, hnone, (ha.hosts hf.hosts).lookup_eq (hr.occurs ho) (hr.links ho (by decide) hlinks)]
    rfl
  have hother : ∀ symbol, symbol ≠ rest →
      (frameBindings m'.heap frame).lookup symbol = (names.zip values).reverse.lookup symbol := by
    intro symbol hne
    rw [hframe]
    split
    · rw [List.singleton_append, List.lookup_cons, beq_eq_false_iff_ne.2 hne]
    · rw [List.nil_append]
  refine ⟨fun hsymbol => ⟨left, ?_, hleft⟩, fun k name value hname hlast hvalue hne => ?_,
    fun symbol hsymbol hnot hne => ?_⟩
  · refine hfound rest left ?_
    rw [hframe, if_pos hsymbol, List.singleton_append, List.lookup_cons, beq_self_eq_true]
  · refine hfound name value ?_
    rw [hother name hne, lookup_reverse_zip hname hlast hvalue]
  · rw [hmissing symbol, ha.lookup hf.hosts ho hsymbol]
    rw [hother symbol hne]
    refine lookup_eq_none_of_forall fun b hb heq => hnot ?_
    rw [← heq]
    exact (List.of_mem_zip (List.mem_reverse.1 hb)).1

/-- With the cells that it takes, an extension succeeds if the number of arguments is right, and then binds; otherwise
it reports both numbers. No live cell changes in any case, so the other environments are as before. -/
theorem extend_binds {names values : List Word} {rest nil : Word} (hes : Environments m es) (henv : env ∈ es)
    (hc : m.heap.Call params args names values rest nil) :
    m.heap.cells.KeptBy (after (extend env params args) m).heap.cells ∧
    (∀ e ∈ es, ∀ symbol, symbol.isSymbol →
      (after (extend env params args) m).heap.lookup e symbol = m.heap.lookup e symbol) ∧
    if m.heap.cells.freeCount < cellsToBind names.length rest values.length then
      ∃ m', extend env params args m = .error m.full m'
    else if Accepts names.length rest values.length then
      ∃ env' m', extend env params args m = .ok env' m' ∧ Binds m env names values rest nil m' env'
    else ∃ m', extend env params args m = .error (mismatchOf names.length rest values.length) m' := by
  have hf := hes.family
  have hext := extended_extend hf.hosts (occurs_linksOf henv) params args
  cases hr : extend env params args m with
  | error e m' =>
    rw [hr] at hext
    obtain ⟨⟨n, ha⟩, hcause⟩ := hext
    rw [after_of_error hr]
    refine ⟨ha.kept, fun e he symbol hsymbol => ha.lookup hf.hosts (occurs_linksOf he) hsymbol, ?_⟩
    have hcause := hcause _ _ _ _ hc
    split at hcause
    next hfew =>
      rw [if_pos hfew, hcause]
      exact ⟨m', rfl⟩
    next hroom =>
      obtain ⟨hnot, rfl⟩ := hcause
      rw [if_neg hroom, if_neg hnot]
      exact ⟨m', rfl⟩
  | ok env' m' =>
    rw [hr] at hext
    obtain ⟨n, frame, ha, hh, hp, hread, hbound⟩ := hext
    obtain ⟨haccepts, hcells, left, hleft, hframe⟩ := hbound _ _ _ _ hc
    rw [after_of_ok hr]
    refine ⟨ha.kept, fun e he symbol hsymbol => ha.lookup hf.hosts (occurs_linksOf he) hsymbol, ?_⟩
    have hfree := ha.free
    rw [if_neg (by omega), if_pos haccepts]
    exact ⟨env', m', rfl, hf.binds henv ha hh hp hread hleft hframe⟩

theorem extend_binds_repeated :
    ∃ m env params args, Environments m [env] ∧
      m.heap.Call params args [.symbol 70, .symbol 71, .symbol 70] [.ofNat 1, .ofNat 2, .ofNat 3, .ofNat 4]
        (.symbol 72) .nil ∧
      ∃ env' m', extend env params args m = .ok env' m' ∧ m'.heap.lookup env' (.symbol 70) = .ok (.ofNat 3) ∧
        m'.heap.lookup env' (.symbol 71) = .ok (.ofNat 2) ∧
        ∃ left, m'.heap.lookup env' (.symbol 72) = .ok left ∧ m'.heap.Lists left [.ofNat 4] .nil := by
  obtain ⟨m, hes, hfree⟩ := exists_environments
  obtain ⟨params, m₁, ha₁, hparams⟩ := exists_lists [.symbol 70, .symbol 71, .symbol 70] (.symbol 72)
    hes.family.hosts.sound (by decide) (by decide) (by simp; omega)
  have hfree₁ := ha₁.free
  obtain ⟨args, m₂, ha₂, hargs⟩ := exists_lists [.ofNat 1, .ofNat 2, .ofNat 3, .ofNat 4] .nil
    ha₁.sound (by decide) (by decide) (by simp at hfree₁ ⊢; omega)
  have hfree₂ := ha₂.free
  have hes₂ := (hes.adds ha₁).adds ha₂
  have hc : m₂.heap.Call params args [.symbol 70, .symbol 71, .symbol 70] [.ofNat 1, .ofNat 2, .ofNat 3, .ofNat 4]
      (.symbol 72) .nil := ⟨hparams.kept ha₁.sound (by decide) ha₂.kept, hargs, by decide, by decide⟩
  refine ⟨m₂, m.globalEnv, params, args, hes₂, hc, ?_⟩
  obtain ⟨-, -, hbinds⟩ := extend_binds hes₂ List.mem_cons_self hc
  have hcells : cellsToBind 3 (.symbol 72) 4 = 9 := by decide
  simp only [List.length_cons, List.length_nil, Nat.zero_add, Nat.reduceAdd, hcells] at hbinds hfree₁ hfree₂
  rw [if_neg (by omega), if_pos (by decide)] at hbinds
  obtain ⟨env', m', hext, hb⟩ := hbinds
  refine ⟨env', m', hext, hb.last 2 _ _ rfl ?_ rfl (by decide), hb.last 1 _ _ rfl ?_ rfl (by decide),
    hb.remaining (by decide)⟩
  · rintro (_ | _ | _ | j) hj <;> simp at hj ⊢
  · rintro (_ | _ | _ | j) hj <;> simp at hj ⊢
    decide

/-! ## Who sees a definition -/

/-- After a definition an environment has the same links, and one frame has one more binding. -/
theorem Family.lookup_define {m₁ : Machine} {e e' frame t : Word} {is : List UInt32} (hf : Family m es) (he : e ∈ es)
    (he' : e' ∈ es) (ha : m.Adds m₁ n) (hh₁ : m₁.heap.Hosts ((.entry, frame) :: linksOf es))
    (hframe : frameBindings m₁.heap frame = (symbol, value) :: m.heap.frameAt e.payload)
    (hstrings : m'.heap.strings = m.heap.strings) (hr : m₁.heap.Reframes m'.heap e.payload frame)
    (hlinks : m.heap.Links e' is .nil) (ht : t.isSymbol) :
    m'.heap.lookup e' t = m.heap.resolve t (Heap.valueIn (is.map fun i =>
      if i = e.payload then (symbol, value) :: m.heap.frameAt i else m.heap.frameAt i) t) := by
  have hp := hf.isPair e he
  have ho : m.heap.Occurs (linksOf es) .link e' := occurs_linksOf he'
  have hkept := hf.hosts.retained_of_keptBy ha.kept
  have hlinks₁ := hkept.links ho (by decide) hlinks
  have hocc : ∀ {v}, m.heap.Occurs (linksOf es) .link v → m₁.heap.Occurs ((.entry, frame) :: linksOf es) .link v :=
    fun hv => (hkept.occurs hv).mono (List.subset_cons_self ..)
  have hentry : m₁.heap.Occurs ((.entry, frame) :: linksOf es) .entry frame := .part List.mem_cons_self
  have hh' := hh₁.reframes (hocc (occurs_linksOf he)) hp hentry hr
  have hframes : is.map m'.heap.frameAt = is.map fun i =>
      if i = e.payload then (symbol, value) :: m.heap.frameAt i else m.heap.frameAt i := by
    refine List.map_congr_left fun i hi => ?_
    obtain ⟨v, hv, hvp, rfl⟩ := ho.links (by decide) hlinks i hi
    have hold : m₁.heap.frameAt v.payload = m.heap.frameAt v.payload :=
      List.map_inj_left.1 (hf.hosts.frames_retained hkept ho hlinks) _ hi
    rw [hh₁.frameAt_reframes (hocc (occurs_linksOf he)) hp hentry hr (hocc hv) hvp, hold]
    by_cases hi : v.payload = e.payload
    · rw [if_pos hi, if_pos hi, hframe, hi]
    · rw [if_neg hi, if_neg hi]
  rw [hh'.lookup_eq (.part (List.mem_cons_of_mem _ (List.mem_map_of_mem he'))) (hlinks₁.transport fun i _ => hr.cdr i),
    hframes, Heap.resolve_congr ht hstrings]

/-- A definition gives its value to the symbol in every environment in which its frame is, with no binding of the symbol
inside it, and changes no other value. Without room for it no value changes. -/
theorem define_exposed {e : Word} (hes : Environments m es) (he : e ∈ es) (symbol value : Word) :
    (m.heap.cells.freeCount < 2 → ∃ m', define e symbol value m = .error m.full m' ∧
      ∀ e' ∈ es, ∀ t, t.isSymbol → m'.heap.lookup e' t = m.heap.lookup e' t) ∧
    (2 ≤ m.heap.cells.freeCount → ∃ m', define e symbol value m = .ok () m' ∧ ∀ e' ∈ es, ∀ t, t.isSymbol →
      (t = symbol ∧ m.heap.Exposes symbol e e' → m'.heap.lookup e' t = .ok value) ∧
      (¬ (t = symbol ∧ m.heap.Exposes symbol e e') → m'.heap.lookup e' t = m.heap.lookup e' t)) := by
  have hf := hes.family
  rcases define_cases hf.hosts (occurs_linksOf he) (hf.isPair e he) symbol value with
    ⟨hfew, m', n, hdef, ha⟩ | ⟨hroom, m₁, m', frame, hdef, ha, hh₁, hframe, hstrings, hr⟩
  · exact ⟨fun _ => ⟨m', hdef, fun e' he' t ht => ha.lookup hf.hosts (occurs_linksOf he') ht⟩, fun hroom => by omega⟩
  refine ⟨fun hfew => by omega, fun _ => ⟨m', hdef, fun e' he' t ht => ?_⟩⟩
  have ho : m.heap.Occurs (linksOf es) .link e' := occurs_linksOf he'
  obtain ⟨is, hlinks⟩ := hf.hosts.ends ho (by decide)
  rw [hf.lookup_define he he' ha hh₁ hframe hstrings hr hlinks ht, hf.hosts.lookup_eq ho hlinks]
  constructor
  · rintro ⟨rfl, inner, outer, hlinks', hinner⟩
    obtain ⟨rfl, -⟩ := hlinks.unique hlinks'
    rw [Heap.valueIn_update_append hinner]
    rfl
  · intro hhidden
    by_cases hsame : t = symbol
    · subst hsame
      rw [Heap.valueIn_update_of_hidden]
      rintro inner outer rfl hinner
      exact hhidden ⟨rfl, inner, outer, hlinks, hinner⟩
    · rw [Heap.valueIn_update_of_ne hsame]

theorem define_exposed_outer :
    ∃ m env env', Environments m [env', env] ∧ m.heap.Exposes (.symbol 71) env env' ∧
      ∃ m', define env (.symbol 71) (.ofNat 5) m = .ok () m' ∧ m'.heap.lookup env' (.symbol 71) = .ok (.ofNat 5) ∧
        m'.heap.lookup env' (.symbol 70) = m.heap.lookup env' (.symbol 70) := by
  obtain ⟨m, hes, hfree⟩ := exists_environments
  have hc : m.heap.Call (.symbol 70) .nil [] [] (.symbol 70) .nil :=
    ⟨.nil (by decide), .nil (by decide), by decide, by decide⟩
  have hext := extended_extend hes.family.hosts (occurs_linksOf List.mem_cons_self) (.symbol 70) .nil
  have hcells : cellsToBind 0 (.symbol 70) 0 = 3 := by decide
  cases hr : extend m.globalEnv (.symbol 70) .nil m with
  | error e m₁ =>
    rw [hr] at hext
    have hcause := hext.2 _ _ _ _ hc
    rw [List.length_nil, hcells, if_neg (by omega)] at hcause
    exact absurd hcause.1 (by decide)
  | ok env' m₁ =>
    have hes₁ := Environments.extend hes List.mem_cons_self hr
    rw [hr] at hext
    obtain ⟨n, frame, ha, hh, hp, hread, hbound⟩ := hext
    obtain ⟨-, rfl, left, -, hframe⟩ := hbound _ _ _ _ hc
    have hfree₁ := ha.free
    rw [List.length_nil, hcells] at hfree₁
    have hexp : m₁.heap.Exposes (.symbol 71) m.globalEnv env' := by
      refine (hes₁.family.hosts.exposes_self (occurs_linksOf (by simp)) (hes.family.isPair _ (by simp))).inner hp
        (by rw [hread]) ?_
      rw [Heap.frameAt, hread, hframe]
      simp [Word.isSymbol]
      decide
    obtain ⟨m₂, hdef, heffect⟩ := (define_exposed hes₁ (List.mem_cons_of_mem _ List.mem_cons_self) _ _).2 (by omega)
    refine ⟨m₁, m.globalEnv, env', hes₁, hexp, m₂, hdef, ?_, ?_⟩
    · exact (heffect env' List.mem_cons_self _ (by decide)).1 ⟨rfl, hexp⟩
    · exact (heffect env' List.mem_cons_self _ (by decide)).2 fun hsame => absurd hsame.1 (by decide)

end Families

end BoxedScheme
