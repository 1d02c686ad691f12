import BoxedScheme.Proofs.Frames

/-!
# Binding parameters to arguments

Parameters and arguments are walked in step, and each pair of them puts a binding in front of a new frame. A symbol that
ends the parameters takes the arguments that are left; otherwise both lists must end together. All cells that this takes
were free before.

* `Machine.Adds m m' n` : from `m` to `m'` some `n` cells were taken, and nothing else was touched;
* `evalCons_cases`, `bindTo_cases` : a new cell of an environment and a new binding of a frame;
* `Heap.Call h params args names values rest nil` : the words are lists of these names and values;
* `InStep`, `inStep_bindInStep` : what binding in step leaves, a step and a whole run;
* `Extended`, `extended_extend` : what an extension leaves, whatever it is called with.
-/

namespace BoxedScheme

open Heap (Layer)

/-! ## Actions -/

theorem inspect_of_ok {α : Type} {f : Heap → Except Fault α} {m : Machine} {x : α} (hf : f m.heap = .ok x) :
    Eval.inspect f m = .ok x m := by
  rw [Eval.inspect, hf]

theorem inspect_of_error {α : Type} {f : Heap → Except Fault α} {m : Machine} {e : Fault} (hf : f m.heap = .error e) :
    Eval.inspect f m = .error (.error (.ofFault e)) m := by
  rw [Eval.inspect, hf]

theorem inspect_cases {α : Type} (f : Heap → Except Fault α) (m : Machine) :
    (∃ e, Eval.inspect f m = .error e m) ∨ ∃ a, Eval.inspect f m = .ok a m := by
  unfold Eval.inspect
  cases f m.heap with
  | error e => exact .inl ⟨_, rfl⟩
  | ok a => exact .inr ⟨a, rfl⟩

namespace Machine

def full (m : Machine) : Stop := .error (.outOfMemory .cell m.heap.cells.capacity)

/-- From one machine to another so many cells were taken, and nothing else was touched. -/
structure Adds (m m' : Machine) (n : Nat) : Prop where
  eq : m' = { m with heap := { m.heap with cells := m'.heap.cells } }
  sound : m'.heap.cells.Sound
  kept : m.heap.cells.KeptBy m'.heap.cells
  capacity : m'.heap.cells.capacity = m.heap.cells.capacity
  free : m.heap.cells.freeCount = m'.heap.cells.freeCount + n

variable {m m' m'' : Machine} {n n' : Nat}

theorem Adds.refl (hs : m.heap.cells.Sound) : m.Adds m 0 := ⟨rfl, hs, .refl _, rfl, rfl⟩

theorem Adds.trans (ha : m.Adds m' n) (ha' : m'.Adds m'' n') : m.Adds m'' (n + n') where
  eq := by rw [ha'.eq, ha.eq]
  sound := ha'.sound
  kept := ha.kept.trans ha'.kept
  capacity := ha'.capacity.trans ha.capacity
  free := by rw [ha.free, ha'.free]; omega

theorem Adds.strings (ha : m.Adds m' n) : m'.heap.strings = m.heap.strings := by rw [ha.eq]

theorem Adds.full (ha : m.Adds m' n) : m'.full = m.full := by rw [Machine.full, Machine.full, ha.capacity]

theorem Adds.hosts {parts : List (Layer × Word)} (ha : m.Adds m' n) (hh : m.heap.Hosts parts) : m'.heap.Hosts parts :=
  hh.retained (hh.retained_of_keptBy ha.kept) ha.sound

theorem Adds.occurs {parts : List (Layer × Word)} {l : Layer} {w : Word} (ha : m.Adds m' n) (hh : m.heap.Hosts parts)
    (ho : m.heap.Occurs parts l w) (p : Layer × Word) : m'.heap.Occurs (p :: parts) l w :=
  ((hh.retained_of_keptBy ha.kept).occurs ho).mono (List.subset_cons_self ..)

theorem Adds.lookup {parts : List (Layer × Word)} {env symbol : Word} (ha : m.Adds m' n) (hh : m.heap.Hosts parts)
    (ho : m.heap.Occurs parts .link env) (hsymbol : symbol.isSymbol) :
    m'.heap.lookup env symbol = m.heap.lookup env symbol :=
  hh.lookup_retained (hh.retained_of_keptBy ha.kept) ha.sound ha.strings ho hsymbol

end Machine

section Extension

variable {m : Machine} {parts : List (Layer × Word)} {env params args frame symbol value : Word}

/-! ## Cells -/

/-- A pair is stored as a part of an environment, or all cells are in use. -/
theorem evalCons_cases (hh : m.heap.Hosts parts) (l : Layer) {a d : Word}
    (ha : ∀ k, l.car? = some k → m.heap.Occurs parts k a) (hd : ∀ k, l.cdr? = some k → m.heap.Occurs parts k d) :
    (m.heap.cells.freeCount = 0 ∧ Eval.cons a d m = .error m.full m) ∨
      ∃ w m', Eval.cons a d m = .ok w m' ∧ m.Adds m' 1 ∧ m'.heap.Hosts ((l, w) :: parts) ∧ w.isPair ∧
        m'.heap.cells.read w.payload = ⟨a, d⟩ := by
  unfold Eval.cons Eval.onHeap
  rw [Heap.cons_apply]
  cases hnext : m.heap.cells.next? with
  | none =>
    refine .inl ⟨?_, rfl⟩
    by_contra hfree
    obtain ⟨i, hi⟩ := Pool.exists_next (Nat.pos_of_ne_zero hfree)
    rw [hnext] at hi
    cases hi
  | some i =>
    have htakes := hh.sound.takes hnext ⟨a, d⟩
    have hsound := hh.sound.fill hnext ⟨a, d⟩
    refine .inr ⟨_, _, rfl, ⟨rfl, hsound, hh.sound.keptBy_fill hnext _, htakes.capacity, Pool.freeCount_fill hnext _⟩,
      hh.cons htakes hsound ha hd, by simp [Word.isPair], ?_⟩
    rw [Word.payload_pair]
    exact (htakes.read i).trans (if_pos rfl)

theorem evalCar_of_isPair {w : Word} (hw : w.isPair) : Eval.car w m = .ok (m.heap.cells.read w.payload).car m := by
  simp only [Eval.car, Eval.inspect, Heap.car, Heap.pairCell_of_isPair hw]
  rfl

theorem evalCdr_of_isPair {w : Word} (hw : w.isPair) : Eval.cdr w m = .ok (m.heap.cells.read w.payload).cdr m := by
  simp only [Eval.cdr, Eval.inspect, Heap.cdr, Heap.pairCell_of_isPair hw]
  rfl

/-! ## Frames -/

/-- The bindings of a frame with a new entry in front. -/
theorem Heap.Hosts.frameBindings_cons {h : Heap} {w binding : Word} (hh : h.Hosts parts)
    (ho : h.Occurs parts .entry w) (hw : w.isPair) (hread : h.cells.read w.payload = ⟨binding, frame⟩)
    (hbinding : h.cells.read binding.payload = ⟨symbol, value⟩) :
    frameBindings h w = (symbol, value) :: frameBindings h frame := by
  have hrest : h.Occurs parts .entry frame := by
    have := Heap.Occurs.cdr ho hw rfl
    rwa [hread] at this
  obtain ⟨is, hlinks⟩ := hh.ends hrest (by decide)
  have hlinks' : h.Links w (w.payload :: is) .nil := .cons hw (by rw [hread]; exact hlinks)
  rw [hh.frameBindings_eq ho hlinks', hh.frameBindings_eq hrest hlinks, List.map_cons, Heap.bindingOf, hread, hbinding]

/-- A binding is put in front of a frame, or there is no room for it. -/
theorem bindTo_cases (hh : m.heap.Hosts parts) (hframe : m.heap.Occurs parts .entry frame) (symbol value : Word) :
    (m.heap.cells.freeCount < 2 ∧ ∃ m' n, bindTo symbol value frame m = .error m.full m' ∧ m.Adds m' n) ∨
      ∃ w m', bindTo symbol value frame m = .ok w m' ∧ m.Adds m' 2 ∧ m'.heap.Hosts ((.entry, w) :: parts) ∧ w.isPair ∧
        frameBindings m'.heap w = (symbol, value) :: frameBindings m.heap frame := by
  rcases evalCons_cases hh .binding (a := symbol) (d := value) nofun nofun with
    ⟨hfree, hcons⟩ | ⟨b, m₁, hcons, hadds, hh₁, hb, hread⟩
  · exact .inl ⟨by omega, m, 0, bind_of_error hcons, .refl hh.sound⟩
  have hframe₁ := hadds.occurs hh hframe (.binding, b)
  have hb₁ : m₁.heap.Occurs ((.binding, b) :: parts) .binding b := .part List.mem_cons_self
  rcases evalCons_cases hh₁ .entry (a := b) (d := frame) (by rintro _ ⟨⟩; exact hb₁)
    (by rintro _ ⟨⟩; exact hframe₁) with ⟨hfree, hcons'⟩ | ⟨w, m₂, hcons', hadds', hh₂, hw, hread'⟩
  · refine .inl ⟨?_, m₁, 1, (bind_of_ok hcons).trans (hadds.full ▸ hcons'), hadds⟩
    have := hadds.free
    omega
  · have hbindings : frameBindings m₂.heap frame = frameBindings m.heap frame :=
      hh.frameBindings_retained (hh.retained_of_keptBy (hadds.trans hadds').kept) hframe
    have hread₂ : m₂.heap.cells.read b.payload = ⟨symbol, value⟩ :=
      (hadds'.kept _ (hh₁.live hb₁ hb)).2.trans hread
    refine .inr ⟨w, m₂, (bind_of_ok hcons).trans hcons', hadds.trans hadds', hh₂.skip, hw, ?_⟩
    rw [hh₂.frameBindings_cons (.part List.mem_cons_self) hw hread' hread₂, hbindings]

/-! ## Parameters and arguments -/

/-- The parameters are a list that ends in the empty list or in a symbol, and the arguments are a proper list. -/
structure Heap.Call (h : Heap) (params args : Word) (names values : List Word) (rest nil : Word) : Prop where
  params : h.Lists params names rest
  args : h.Lists args values nil
  rest : rest.isNull ∨ rest.isSymbol
  nil : nil.isNull

theorem Heap.Call.rest_ne {h : Heap} {names values : List Word} {rest nil : Word}
    (hc : h.Call params args names values rest nil) : rest ≠ .error := by
  rintro rfl
  exact absurd hc.rest (by decide)

theorem Heap.Call.nil_ne {h : Heap} {names values : List Word} {rest nil : Word}
    (hc : h.Call params args names values rest nil) : nil ≠ .error := by
  rintro rfl
  exact absurd hc.nil (by decide)

theorem Machine.Adds.call {m' : Machine} {n : Nat} {names values : List Word} {rest nil : Word} (ha : m.Adds m' n)
    (hs : m.heap.cells.Sound) (hc : m.heap.Call params args names values rest nil) :
    m'.heap.Call params args names values rest nil :=
  ⟨hc.params.kept hs hc.rest_ne ha.kept, hc.args.kept hs hc.nil_ne ha.kept, hc.rest, hc.nil⟩

/-- What binding in step leaves: the cells run out, or parameters and arguments make up the frame in reverse, as far as
both go. -/
def InStep (m : Machine) (parts : List (Layer × Word)) (params args frame : Word) :
    EStateM.Result Stop Machine Bound → Prop
  | .error e m' => e = m.full ∧ (∃ n, m.Adds m' n) ∧
    ∀ names values rest nil, m.heap.Call params args names values rest nil →
      m.heap.cells.freeCount < 2 * min names.length values.length
  | .ok bound m' => ∃ pairs, m.Adds m' (2 * pairs.length) ∧ m'.heap.Hosts ((.entry, bound.frame) :: parts) ∧
    frameBindings m'.heap bound.frame = pairs.reverse ++ frameBindings m.heap frame ∧
    ∀ names values rest nil, m.heap.Call params args names values rest nil → pairs = names.zip values ∧
      m'.heap.Call bound.params bound.args (names.drop values.length) (values.drop names.length) rest nil

/-- Where parameters or arguments are at their end, nothing is left to bind. -/
theorem Heap.Call.at_end {h : Heap} {names values : List Word} {rest nil : Word}
    (hc : h.Call params args names values rest nil) (hend : ¬ (params.isPair && args.isPair)) :
    names.zip values = [] ∧ names.drop values.length = names ∧ values.drop names.length = values := by
  rw [Bool.and_eq_true, not_and_or] at hend
  rcases hend with hp | ha
  · obtain ⟨rfl, -⟩ := hc.params.of_not_isPair hp
    simp
  · obtain ⟨rfl, -⟩ := hc.args.of_not_isPair ha
    simp

/-- Where both go on, there are a first parameter and a first argument. -/
theorem Heap.Call.of_isPair {h : Heap} {names values : List Word} {rest nil : Word}
    (hc : h.Call params args names values rest nil) (hp : params.isPair) (ha : args.isPair) :
    ∃ names' values', names = (h.cells.read params.payload).car :: names' ∧
      values = (h.cells.read args.payload).car :: values' ∧
      h.Call (h.cells.read params.payload).cdr (h.cells.read args.payload).cdr names' values' rest nil := by
  obtain ⟨names', rfl, hparams⟩ := hc.params.of_isPair hp
  obtain ⟨values', rfl, hargs⟩ := hc.args.of_isPair ha
  exact ⟨names', values', rfl, rfl, hparams, hargs, hc.rest, hc.nil⟩

/-- What the rest of the binding leaves is left by all of it. -/
theorem InStep.bind {m₁ : Machine} {w : Word} {r : EStateM.Result Stop Machine Bound} (hs : m.heap.cells.Sound)
    (hadds : m.Adds m₁ 2) (hp : params.isPair) (ha : args.isPair)
    (hbindings : frameBindings m₁.heap w =
      ((m.heap.cells.read params.payload).car, (m.heap.cells.read args.payload).car) :: frameBindings m.heap frame)
    (hr : InStep m₁ ((.entry, w) :: parts) (m₁.heap.cells.read params.payload).cdr
      (m₁.heap.cells.read args.payload).cdr w r) :
    InStep m parts params args frame r := by
  have hfree := hadds.free
  have hcall : ∀ {names values rest nil}, m.heap.Call params args names values rest nil →
      ∃ names' values', names = (m.heap.cells.read params.payload).car :: names' ∧
        values = (m.heap.cells.read args.payload).car :: values' ∧
        m₁.heap.Call (m₁.heap.cells.read params.payload).cdr (m₁.heap.cells.read args.payload).cdr names' values' rest
          nil := by
    intro names values rest nil hc
    obtain ⟨names', values', hnames, hvalues, -⟩ := hc.of_isPair hp ha
    obtain ⟨_, _, hnames₁, hvalues₁, hc₁⟩ := (hadds.call hs hc).of_isPair hp ha
    obtain ⟨-, rfl⟩ := List.cons.inj (hnames₁.symm.trans hnames)
    obtain ⟨-, rfl⟩ := List.cons.inj (hvalues₁.symm.trans hvalues)
    exact ⟨_, _, hnames, hvalues, hc₁⟩
  cases r with
  | error e m' =>
    obtain ⟨rfl, ⟨n, hadds'⟩, hshort⟩ := hr
    refine ⟨hadds.full, ⟨2 + n, hadds.trans hadds'⟩, fun names values rest nil hc => ?_⟩
    obtain ⟨names', values', rfl, rfl, hc₁⟩ := hcall hc
    have hlt := hshort _ _ _ _ hc₁
    simp only [List.length_cons]
    omega
  | ok bound m' =>
    obtain ⟨pairs, hadds', hh', hpairs, hleft⟩ := hr
    refine ⟨((m.heap.cells.read params.payload).car, (m.heap.cells.read args.payload).car) :: pairs, ?_, ?_, ?_, ?_⟩
    · have hsum := hadds.trans hadds'
      rwa [show 2 + 2 * pairs.length = 2 * (pairs.length + 1) by omega] at hsum
    · exact hh'.skip
    · rw [hpairs, hbindings, List.reverse_cons, List.append_assoc]
      rfl
    · intro names values rest nil hc
      obtain ⟨names', values', rfl, rfl, hc₁⟩ := hcall hc
      obtain ⟨rfl, hc'⟩ := hleft _ _ _ _ hc₁
      exact ⟨rfl, hc'⟩

theorem inStep_bindWith {again : Word → Word → Word → Eval Bound} (hh : m.heap.Hosts parts)
    (hframe : m.heap.Occurs parts .entry frame) (params args : Word)
    (hagain : ∀ w m', m.Adds m' 2 → m'.heap.Hosts ((.entry, w) :: parts) → ∀ params args,
      InStep m' ((.entry, w) :: parts) params args w (again params args w m')) :
    InStep m parts params args frame (bindWith again params args frame m) := by
  unfold bindWith
  by_cases hboth : params.isPair && args.isPair
  · rw [if_pos hboth]
    obtain ⟨hp, ha⟩ := Bool.and_eq_true_iff.1 hboth
    rw [bind_of_ok (evalCar_of_isPair hp), bind_of_ok (evalCar_of_isPair ha)]
    rcases bindTo_cases hh hframe _ _ with ⟨hfree, m', n, hbind, hadds⟩ | ⟨w, m₁, hbind, hadds, hh₁, -, hbindings⟩
    · rw [bind_of_error hbind]
      refine ⟨rfl, ⟨n, hadds⟩, fun names values rest nil hc => ?_⟩
      obtain ⟨names', values', rfl, rfl, -⟩ := hc.of_isPair hp ha
      simp only [List.length_cons]
      omega
    · rw [bind_of_ok hbind, bind_of_ok (evalCdr_of_isPair hp), bind_of_ok (evalCdr_of_isPair ha)]
      exact (hagain w m₁ hadds hh₁ _ _).bind hh.sound hadds hp ha hbindings
  · rw [if_neg hboth]
    refine ⟨[], .refl hh.sound, hh.insert hframe, rfl, fun names values rest nil hc => ?_⟩
    obtain ⟨hzip, hnames, hvalues⟩ := hc.at_end hboth
    rw [hzip, hnames, hvalues]
    exact ⟨rfl, hc⟩

theorem inStep_bindInStep {limit : Nat} (hlimit : m.heap.cells.freeCount ≤ limit) (hh : m.heap.Hosts parts)
    (hframe : m.heap.Occurs parts .entry frame) (params args : Word) :
    InStep m parts params args frame (bindInStep limit params args frame m) := by
  induction limit generalizing m parts frame params args with
  | zero =>
    refine inStep_bindWith hh hframe params args fun w m' hadds => ?_
    have := hadds.free
    omega
  | succ limit ih =>
    refine inStep_bindWith hh hframe params args fun w m' hadds hh' params args => ?_
    have := hadds.free
    exact ih (by omega) hh' (.part List.mem_cons_self) params args

/-! ## Extension -/

/-- So many arguments can be bound: the required ones, and more of them if there is a name for the rest. -/
def Accepts (required : Nat) (rest : Word) (got : Nat) : Prop := (rest.isSymbol ∧ required ≤ got) ∨ got = required

instance (required : Nat) (rest : Word) (got : Nat) : Decidable (Accepts required rest got) :=
  inferInstanceAs (Decidable (_ ∨ _))

/-- The cells that binding takes: two for each binding, and one for the link. -/
def cellsToBind (required : Nat) (rest : Word) (got : Nat) : Nat :=
  2 * min required got + if Accepts required rest got then (if rest.isSymbol then 3 else 1) else 0

def mismatchOf (required : Nat) (rest : Word) (got : Nat) : Stop :=
  .error (.parameterMismatch (if rest.isSymbol then .atLeast required else .exact required) got)

theorem mismatch_eq {names values : List Word} {rest nil : Word} (hs : m.heap.cells.Sound)
    (hc : m.heap.Call params args names values rest nil) :
    mismatch params args m = .error (mismatchOf names.length rest values.length) m := by
  have hparams := hc.params.spine hs hc.rest_ne
  have hargs := hc.args.spine hs hc.nil_ne
  have hrequired : Eval.inspect (·.listLength params "lambda") m = .ok names.length m := by
    simp [Eval.inspect, Heap.listLength, hparams]
  have htail : Eval.inspect (·.listTail params) m = .ok rest m := by
    simp [Eval.inspect, Heap.listTail, hparams]
  have hgot : Eval.inspect (·.listLength args "apply") m = .ok values.length m := by
    simp [Eval.inspect, Heap.listLength, hargs]
  unfold mismatch
  rw [bind_of_ok hrequired, bind_of_ok htail, bind_of_ok hgot]
  rfl

/-- What an extension leaves: an environment with one more link, or an error; cells are only added. -/
def Extended (m : Machine) (parts : List (Layer × Word)) (env params args : Word) :
    EStateM.Result Stop Machine Word → Prop
  | .error e m' => (∃ n, m.Adds m' n) ∧ ∀ names values rest nil, m.heap.Call params args names values rest nil →
    if m.heap.cells.freeCount < cellsToBind names.length rest values.length then e = m.full
    else ¬ Accepts names.length rest values.length ∧ e = mismatchOf names.length rest values.length
  | .ok env' m' => ∃ n frame, m.Adds m' n ∧ m'.heap.Hosts ((.link, env') :: parts) ∧ env'.isPair ∧
    m'.heap.cells.read env'.payload = ⟨frame, env⟩ ∧
    ∀ names values rest nil, m.heap.Call params args names values rest nil →
      Accepts names.length rest values.length ∧ n = cellsToBind names.length rest values.length ∧
      ∃ left, m'.heap.Lists left (values.drop names.length) nil ∧
        frameBindings m'.heap frame = (if rest.isSymbol then [(rest, left)] else []) ++ (names.zip values).reverse

namespace Heap.Call

variable {h : Heap} {names values : List Word} {rest nil left : Word}

/-- Parameters that are at their end leave the word behind them, and there are arguments for all of them. -/
theorem of_params_end (hc : h.Call left args (names.drop values.length) (values.drop names.length) rest nil)
    (hleft : ¬ left.isPair) : rest = left ∧ names.length ≤ values.length := by
  obtain ⟨hnil, hrest⟩ := hc.params.of_not_isPair hleft
  exact ⟨hrest, List.drop_eq_nil_iff.1 hnil⟩

theorem of_args_end (hc : h.Call params left (names.drop values.length) (values.drop names.length) rest nil)
    (hleft : ¬ left.isPair) : values.length ≤ names.length :=
  List.drop_eq_nil_iff.1 (hc.args.of_not_isPair hleft).1

/-- Where neither a symbol takes what is left nor both lists end together, the numbers do not agree. -/
theorem not_accepts (hc : h.Call params args (names.drop values.length) (values.drop names.length) rest nil)
    (hsymbol : ¬ params.isSymbol) (hend : ¬ (params.isNull && args.isNull)) :
    ¬ Accepts names.length rest values.length := by
  by_cases hp : params.isPair
  · obtain ⟨items, hitems, -⟩ := hc.params.of_isPair hp
    have hlt : values.length < names.length := by
      by_contra hle
      rw [List.drop_eq_nil_of_le (by omega)] at hitems
      cases hitems
    rintro (⟨-, hle⟩ | heq) <;> omega
  · obtain ⟨rfl, -⟩ := hc.of_params_end hp
    have hnull : rest.isNull := hc.rest.resolve_right hsymbol
    have ha : args.isPair := by
      by_contra ha
      obtain ⟨-, rfl⟩ := hc.args.of_not_isPair ha
      exact hend (by rw [hnull, hc.nil]; rfl)
    obtain ⟨items, hitems, -⟩ := hc.args.of_isPair ha
    have hlt : names.length < values.length := by
      by_contra hle
      rw [List.drop_eq_nil_of_le (by omega)] at hitems
      cases hitems
    rintro (⟨hsym, -⟩ | heq)
    · exact hsymbol hsym
    · omega

end Heap.Call

/-- A wrong number of arguments changes nothing, whatever they are. -/
theorem mismatch_error (params args : Word) (m : Machine) : ∃ e, mismatch params args m = .error e m := by
  unfold mismatch
  rcases inspect_cases (·.listLength params "lambda") m with ⟨e, he⟩ | ⟨required, hrequired⟩
  · exact ⟨e, bind_of_error he⟩
  rw [bind_of_ok hrequired]
  rcases inspect_cases (·.listTail params) m with ⟨e, he⟩ | ⟨tail, htail⟩
  · exact ⟨e, bind_of_error he⟩
  rw [bind_of_ok htail]
  rcases inspect_cases (·.listLength args "apply") m with ⟨e, he⟩ | ⟨got, hgot⟩
  · exact ⟨e, bind_of_error he⟩
  exact ⟨_, bind_of_ok hgot⟩

/-- The last cell of an extension is the link to the frame. -/
theorem extended_link {m₁ : Machine} {n : Nat} (hh : m.heap.Hosts parts) (henv : m.heap.Occurs parts .link env)
    (hadds : m.Adds m₁ n) (hh₁ : m₁.heap.Hosts ((.entry, frame) :: parts))
    (hcall : ∀ names values rest nil, m.heap.Call params args names values rest nil →
      Accepts names.length rest values.length ∧ n + 1 = cellsToBind names.length rest values.length ∧
      ∃ left, m₁.heap.Lists left (values.drop names.length) nil ∧
        frameBindings m₁.heap frame = (if rest.isSymbol then [(rest, left)] else []) ++ (names.zip values).reverse) :
    Extended m parts env params args (Eval.cons frame env m₁) := by
  have hframe : m₁.heap.Occurs ((.entry, frame) :: parts) .entry frame := .part List.mem_cons_self
  have henv₁ := hadds.occurs hh henv (.entry, frame)
  have hfree := hadds.free
  rcases evalCons_cases hh₁ .link (a := frame) (d := env) (by rintro _ ⟨⟩; exact hframe)
    (by rintro _ ⟨⟩; exact henv₁) with ⟨hempty, hcons⟩ | ⟨env', m₂, hcons, hadds', hh₂, hp, hread⟩
  · rw [hcons]
    refine ⟨⟨n, hadds⟩, fun names values rest nil hc => ?_⟩
    obtain ⟨-, hcells, -⟩ := hcall _ _ _ _ hc
    rw [if_pos (by omega)]
    exact hadds.full
  · rw [hcons]
    refine ⟨n + 1, frame, hadds.trans hadds', hh₂.skip, hp, hread, ?_⟩
    intro names values rest nil hc
    obtain ⟨haccepts, hcells, left, hleft, hbindings⟩ := hcall _ _ _ _ hc
    refine ⟨haccepts, hcells, left, hleft.kept hadds.sound hc.nil_ne hadds'.kept, ?_⟩
    rw [hh₁.frameBindings_retained (hh₁.retained_of_keptBy hadds'.kept) hframe, hbindings]

theorem extended_extend (hh : m.heap.Hosts parts) (henv : m.heap.Occurs parts .link env) (params args : Word) :
    Extended m parts env params args (extend env params args m) := by
  have hh₀ := hh.nil (l := .entry) (by decide)
  have hstep := inStep_bindInStep (Nat.le_refl _) hh₀ (.part List.mem_cons_self) params args
  have hempty : frameBindings m.heap .nil = [] := hh₀.frameBindings_eq (.part List.mem_cons_self) (.nil (by decide))
  change Extended m parts env params args ((bindInStep m.heap.cells.freeCount params args .nil >>= _) m)
  cases hbind : bindInStep m.heap.cells.freeCount params args .nil m with
  | error e m₁ =>
    rw [hbind] at hstep
    obtain ⟨rfl, hadds, hshort⟩ := hstep
    rw [bind_of_error hbind]
    refine ⟨hadds, fun names values rest nil hc => ?_⟩
    have := hshort _ _ _ _ hc
    rw [if_pos (by unfold cellsToBind; omega)]
  | ok bound m₁ =>
    rw [hbind] at hstep
    obtain ⟨pairs, hadds, hh₁, hpairs, hleft⟩ := hstep
    rw [hempty, List.append_nil] at hpairs
    replace hh₁ := hh₁.skip
    have hfree := hadds.free
    rw [bind_of_ok hbind]
    by_cases hsymbol : bound.params.isSymbol
    · -- the symbol reached takes what is left of the arguments
      rw [if_pos hsymbol]
      have hcells : ∀ names values rest nil, m.heap.Call params args names values rest nil →
          rest = bound.params ∧ Accepts names.length rest values.length ∧ pairs = names.zip values ∧
            2 * pairs.length + 3 = cellsToBind names.length rest values.length ∧
            m₁.heap.Lists bound.args (values.drop names.length) nil := by
        intro names values rest nil hc
        obtain ⟨rfl, hc₁⟩ := hleft _ _ _ _ hc
        obtain ⟨rfl, hle⟩ := hc₁.of_params_end (Word.not_isPair_of_isSymbol hsymbol)
        have haccepts : Accepts names.length bound.params values.length := .inl ⟨hsymbol, hle⟩
        refine ⟨rfl, haccepts, rfl, ?_, hc₁.args⟩
        rw [cellsToBind, if_pos haccepts, if_pos hsymbol, List.length_zip]
      rcases bindTo_cases hh₁ (.part List.mem_cons_self) bound.params bound.args with
        ⟨hfew, m₂, n, hbind', hadds'⟩ | ⟨w, m₂, hbind', hadds', hh₂, -, hbindings⟩
      · rw [bind_of_error hbind']
        refine ⟨⟨_, hadds.trans hadds'⟩, fun names values rest nil hc => ?_⟩
        obtain ⟨-, -, -, hcells, -⟩ := hcells _ _ _ _ hc
        rw [if_pos (by omega)]
        exact hadds.full
      · rw [bind_of_ok hbind']
        refine extended_link hh henv (hadds.trans hadds') hh₂.skip ?_
        intro names values rest nil hc
        obtain ⟨rfl, haccepts, rfl, hcells, hargs⟩ := hcells _ _ _ _ hc
        refine ⟨haccepts, hcells, bound.args, hargs.kept hadds.sound hc.nil_ne hadds'.kept, ?_⟩
        rw [hbindings, hpairs, if_pos hsymbol]
        rfl
    · rw [if_neg hsymbol]
      by_cases hend : bound.params.isNull && bound.args.isNull
      · -- both lists end together
        rw [if_pos hend]
        obtain ⟨hp, ha⟩ := Bool.and_eq_true_iff.1 hend
        refine extended_link hh henv hadds hh₁ fun names values rest nil hc => ?_
        obtain ⟨rfl, hc₁⟩ := hleft _ _ _ _ hc
        obtain ⟨rfl, hle⟩ := hc₁.of_params_end (Word.not_isPair_of_isNull hp)
        have hge := hc₁.of_args_end (Word.not_isPair_of_isNull ha)
        have haccepts : Accepts names.length bound.params values.length := .inr (by omega)
        refine ⟨haccepts, ?_, bound.args, hc₁.args, ?_⟩
        · rw [cellsToBind, if_pos haccepts, if_neg hsymbol, List.length_zip]
        · rw [hpairs, if_neg hsymbol]
          rfl
      · rw [if_neg hend]
        obtain ⟨e, he⟩ := mismatch_error params args m₁
        rw [he]
        refine ⟨⟨_, hadds⟩, fun names values rest nil hc => ?_⟩
        obtain ⟨rfl, hc₁⟩ := hleft _ _ _ _ hc
        have hnot := hc₁.not_accepts hsymbol hend
        rw [mismatch_eq hadds.sound (hadds.call hh.sound hc)] at he
        cases he
        rw [List.length_zip] at hfree
        rw [if_neg (by rw [cellsToBind, if_neg hnot]; omega)]
        exact ⟨hnot, rfl⟩

end Extension

end BoxedScheme
