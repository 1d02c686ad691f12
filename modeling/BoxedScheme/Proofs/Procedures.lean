import BoxedScheme.Proofs.Encoding
import BoxedScheme.Proofs.ListWalks
import BoxedScheme.Proofs.Scanning
import BoxedScheme.Proofs.Terminals

/-!
# What procedures do to a machine

A procedure answers, and a few of them do one thing more: change one half of a pair, take cells, take a string slot,
intern a name, or print. Whatever else there is in the machine stays as it is, and a call that fails has changed
nothing, but for a list that finds too few cells.

* `Effect`, `Primitive.effect` : the one thing more, and which procedure does it;
* `Effect.Makes` : the machines that an effect leads to;
* `Primitive.call_results`, `Primitive.call_list` : what a call leaves, on success and on failure;
* `Effect.Frame` : what an effect does not touch;
* `Primitive.call_frame` : every call of every procedure;
* `number_text_roundTrip` : a number that becomes a string and a number again.
-/

namespace BoxedScheme

/-! ## Effects -/

/-- What a procedure does besides answering. -/
inductive Effect where
  | none
  | setFirst
  | setSecond
  | takeCells
  | takeString
  | intern
  | print
deriving DecidableEq

/-- The effect of each procedure; the evaluator's own two are not called. -/
def Primitive.effect : Primitive → Effect
  | .setCar => .setFirst
  | .setCdr => .setSecond
  | .cons | .list => .takeCells
  | .numberToString | .substring | .symbolToString => .takeString
  | .stringToSymbol => .intern
  | .newline | .display | .write => .print
  | _ => .none

namespace Effect

/-- What becomes of the cell of the given pair. -/
def edit (e : Effect) (value : Word) (cell : Cell) : Cell :=
  match e with
  | .setFirst => { cell with car := value }
  | .setSecond => { cell with cdr := value }
  | _ => cell

def edited (e : Effect) (pair value : Word) (m : Machine) : Machine :=
  m.mapHeap fun h => { h with cells := h.cells.update pair.payload (e.edit value) }

/-- The machines that an effect leads to, for a procedure whose first two arguments are `x` and `y`. -/
inductive Makes (x y : Word) (m : Machine) : Effect → Machine → Prop where
  | none : Makes x y m .none m
  | setFirst : x.isPair → Makes x y m .setFirst (edited .setFirst x y m)
  | setSecond : x.isPair → Makes x y m .setSecond (edited .setSecond x y m)
  | takeCells {m' : Machine} {n : Nat} : m.Adds m' n → Makes x y m .takeCells m'
  | takeString {i : UInt32} (bytes : ByteArray) : m.heap.strings.next? = some i →
    Makes x y m .takeString (m.mapHeap fun h => { h with strings := h.strings.fill i bytes })
  | known : Makes x y m .intern m
  | intern : m.symbols.get? (m.heap.strings.read x.payload) = Option.none →
    Makes x y m .intern
      { m with symbols := m.symbols.insert (m.heap.strings.read x.payload) (.symbol x.payload) }
  | print (piece : String) : Makes x y m .print { m with terminal := m.terminal.print piece }

/-- A call that succeeds has the effect, and one that fails has none. -/
def Results (e : Effect) (x y : Word) (m : Machine) : EStateM.Result Stop Machine Word → Prop
  | .ok _ m' => e.Makes x y m m'
  | .error _ m' => m' = m

section Results

variable {e : Effect} {x y : Word} {m : Machine}

theorem results_ofExcept (value : Except Error Word) : Effect.none.Results x y m (Eval.ofExcept value m) := by
  cases value with
  | error e => rfl
  | ok w => exact .none

theorem results_inspect (f : Heap → Except Fault Word) : Effect.none.Results x y m (Eval.inspect f m) := by
  rcases inspect_cases f m with ⟨e, he⟩ | ⟨w, hw⟩
  · rw [he]
    rfl
  · rw [hw]
    exact .none

/-- An argument that is looked at first, and reported if it is not what it should be. -/
theorem results_ofExcept_bind {α : Type} (value : Except Error α) {f : α → Eval Word}
    (hf : ∀ a, e.Results x y m (f a m)) : e.Results x y m ((Eval.ofExcept value >>= f) m) := by
  cases value with
  | error fault => rfl
  | ok a => exact hf a

theorem results_makeString (bytes : ByteArray) :
    Effect.takeString.Results x y m (Eval.onHeap (Heap.makeString bytes) m) := by
  unfold Eval.onHeap
  rw [Heap.makeString_apply]
  cases hnext : m.heap.strings.next? with
  | none => rfl
  | some i => exact .takeString bytes hnext

theorem results_cons (hs : m.heap.cells.Sound) (a d : Word) : Effect.takeCells.Results x y m (Eval.cons a d m) := by
  unfold Eval.cons Eval.onHeap
  rcases Heap.cons_cases hs a d with ⟨-, hcons⟩ | ⟨w, h', hcons, ha, -⟩
  · rw [hcons]
    rfl
  · rw [hcons]
    exact .takeCells ha.machine

/-- A half of a pair is changed once the word is known to be a pair. -/
theorem results_updatePair {operation : String} (hmakes : x.isPair → e.Makes x y m (e.edited x y m)) :
    e.Results x y m
      ((Eval.onHeap (Heap.updatePair x operation (e.edit y)) >>= fun _ => pure .unspecified) m) := by
  change Results e x y m (EStateM.bind (Eval.onHeap (Heap.updatePair x operation (e.edit y))) _ m)
  unfold EStateM.bind Eval.onHeap
  by_cases hx : x.isPair
  · rw [Heap.updatePair_of_isPair hx]
    exact hmakes hx
  · rw [Heap.updatePair_of_not_isPair hx]
    rfl

theorem results_symbolString (string : Word) :
    Effect.takeString.Results x y m
      ((Eval.inspect (·.stringBytes string) >>= fun bytes => Eval.onHeap (Heap.makeString bytes)) m) := by
  rcases inspect_cases (·.stringBytes string) m with ⟨e, he⟩ | ⟨bytes, hbytes⟩
  · rw [bind_of_error he]
    rfl
  · rw [bind_of_ok hbytes]
    exact results_makeString bytes

theorem results_internValue : Effect.intern.Results x y m (Eval.onMemory (Memory.internValue x) m) := by
  unfold Eval.onMemory
  rcases Memory.internValue_cases x m.toMemory with ⟨fault, herror, -⟩ | ⟨v, hold, -⟩ | ⟨-, hnew, hadopt⟩
  · rw [herror]
    rfl
  · rw [hold]
    exact .known
  · rw [hadopt]
    exact .intern hnew

end Results

end Effect

namespace Primitive

variable {p : Primitive} {m : Machine}

/-- A call other than that of `list` has the effect of the procedure, or fails and has none. -/
theorem call_results (hs : m.heap.Sound) (hlist : p ≠ .list) (name : String) (args : Array Word) :
    p.effect.Results (args.getD 0 .unspecified) (args.getD 1 .unspecified) m (p.call name args m) := by
  cases p with
  -- The evaluator takes these two on itself, and a call that gets here is refused.
  | load | apply => rfl
  | list => exact absurd rfl hlist
  | car => exact Effect.results_inspect (·.car _)
  | cdr => exact Effect.results_inspect (·.cdr _)
  | cons => exact Effect.results_cons hs.cells _ _
  | setCar => exact Effect.results_updatePair .setFirst
  | setCdr => exact Effect.results_updatePair .setSecond
  | newline => exact .print "\n"
  | display => exact .print _
  | write => exact .print _
  | numberToString => exact Effect.results_ofExcept_bind _ fun x => Effect.results_makeString _
  | substring => exact Effect.results_ofExcept_bind _ fun text => Effect.results_makeString _
  | symbolToString =>
    dsimp only [Primitive.call, Primitive.callWith]
    cases (args.getD 0 .unspecified).symbolString? with
    | none => rfl
    | some string => exact Effect.results_symbolString string
  | stringToSymbol => exact Effect.results_ofExcept_bind _ fun _ => Effect.results_internValue
  | length | stringLength | stringRef | stringToNumber | stringEq => exact Effect.results_ofExcept _
  | isProcedure | isNull | isBoolean | isEof | isSymbol | isString | isPair | isChar | isNumber | not | isEq | isEqv =>
    exact .none
  | add | mul | sub | div | quotient | modulo | max | min | isZero | compareNumbers | compareChars =>
    exact Effect.results_ofExcept _

/-- A list takes a cell for each item; one that finds too few keeps those it took. -/
theorem call_list (hs : m.heap.Sound) (name : String) (args : Array Word) :
    (m.heap.cells.freeCount < args.size ∧
        ∃ m' n, Primitive.list.call name args m = .error m.full m' ∧ m.Adds m' n) ∨
      ∃ w m', Primitive.list.call name args m = .ok w m' ∧ m.Adds m' args.size := by
  change (_ ∧ ∃ m' n, Eval.onHeap (Heap.listOf args.toList) m = _ ∧ _) ∨
    ∃ w m', Eval.onHeap (Heap.listOf args.toList) m = _ ∧ _
  unfold Eval.onHeap
  rcases Heap.listOf_cases hs.cells args.toList with ⟨hfew, h', n, hlist, ha⟩ | ⟨w, h', hlist, ha, -⟩
  · rw [hlist]
    exact .inl ⟨hfew, _, n, rfl, ha.machine⟩
  · rw [hlist]
    exact .inr ⟨w, _, rfl, ha.machine⟩

end Primitive

/-! ## What is left alone -/

namespace Effect

/-- What an effect on the arguments `x` and `y` leaves as it was. -/
structure Frame (e : Effect) (x y : Word) (m m' : Machine) : Prop where
  /-- The root stack, the global environment and all else but pools, symbols and terminal. -/
  eq : m' = { m with
    heap := { m.heap with cells := m'.heap.cells, strings := m'.heap.strings }
    symbols := m'.symbols
    terminal := m'.terminal }
  /-- Live cells stay live and keep their halves, but for one half of a given pair. -/
  cells : ∀ i, m.heap.cells.IsLive i → m'.heap.cells.IsLive i ∧
    m'.heap.cells.read i = if i = x.payload then e.edit y (m.heap.cells.read i) else m.heap.cells.read i
  strings : m.heap.strings.KeptBy m'.heap.strings
  pair : e = .setFirst ∨ e = .setSecond → x.isPair
  /-- No cell is taken, and nothing but the pair is changed, where an effect is not for taking cells. -/
  noCells : e ≠ .takeCells → m'.heap.cells = m.heap.cells.update x.payload (e.edit y)
  noString : e ≠ .takeString → m'.heap.strings = m.heap.strings
  /-- A symbol is added under a name that had none, for the string that was given. -/
  symbols : m'.symbols = m.symbols ∨
    e = .intern ∧ m.symbols.get? (m.heap.strings.read x.payload) = Option.none ∧
      m'.symbols = m.symbols.insert (m.heap.strings.read x.payload) (.symbol x.payload)
  noOutput : e ≠ .print → m'.terminal = m.terminal
  /-- A capturing terminal keeps what it had. -/
  output : m.terminal.echo = false →
    ∃ piece, m'.terminal = { m.terminal with text := m.terminal.text ++ piece }

variable {e : Effect} {x y : Word} {m m' : Machine}

theorem Makes.noCells (h : e.Makes x y m m') :
    e ≠ .takeCells → m'.heap.cells = m.heap.cells.update x.payload (e.edit y) := by
  cases h with
  | takeCells => simp
  | setFirst | setSecond => exact fun _ => rfl
  -- The other effects edit nothing, so that the update is none, whatever the payload of `x` is.
  | none | takeString | known | intern | print => exact fun _ => (Pool.update_id _ _).symm

theorem Makes.cells (h : e.Makes x y m m') (i : UInt32) (hlive : m.heap.cells.IsLive i) :
    m'.heap.cells.IsLive i ∧
      m'.heap.cells.read i = if i = x.payload then e.edit y (m.heap.cells.read i) else m.heap.cells.read i := by
  by_cases he : e = .takeCells
  · subst he
    cases h with
    | takeCells ha =>
      obtain ⟨hlive', hread⟩ := ha.kept i hlive
      exact ⟨hlive', hread.trans (ite_self _).symm⟩
  · rw [h.noCells he]
    exact ⟨hlive, Pool.read_update_of_isLive hlive _ _⟩

theorem Makes.noOutput (h : e.Makes x y m m') : e ≠ .print → m'.terminal = m.terminal := by
  cases h with
  | takeCells ha => exact fun _ => congrArg (·.terminal) ha.eq
  | print => simp
  | none | setFirst | setSecond | takeString | known | intern => exact fun _ => rfl

theorem Makes.frame (h : e.Makes x y m m') (hs : m.heap.Sound) : e.Frame x y m m' where
  eq := by
    cases h with
    | takeCells ha => rw [ha.eq]
    | none | setFirst | setSecond | takeString | known | intern | print => rfl
  cells := h.cells
  strings := by
    cases h with
    | takeCells ha =>
      rw [ha.eq]
      exact .refl _
    | takeString bytes hnext => exact hs.strings.keptBy_fill hnext bytes
    | none | setFirst | setSecond | known | intern | print => exact .refl _
  pair := by
    cases h with
    | setFirst hx | setSecond hx => exact fun _ => hx
    | none | takeCells | takeString | known | intern | print => simp
  noCells := h.noCells
  noString := by
    cases h with
    | takeCells ha => exact fun _ => congrArg (·.heap.strings) ha.eq
    | takeString => simp
    | none | setFirst | setSecond | known | intern | print => exact fun _ => rfl
  symbols := by
    cases h with
    | takeCells ha => exact .inl (congrArg (·.symbols) ha.eq)
    | intern hnew => exact .inr ⟨rfl, hnew, rfl⟩
    | none | setFirst | setSecond | takeString | known | print => exact .inl rfl
  noOutput := h.noOutput
  output := by
    intro hecho
    by_cases he : e = .print
    · subst he
      cases h with
      | print piece => exact ⟨piece, Terminal.print_of_not_echo hecho piece⟩
    · exact ⟨"", by rw [h.noOutput he, String.append_empty]⟩

end Effect

/-- Every call of a procedure touches what the procedure is for and no more, and a call that fails touches nothing: only
a list that found too few cells keeps those it took. -/
theorem Primitive.call_frame {m : Machine} (hs : m.heap.Sound) (p : Primitive) (name : String) (args : Array Word) :
    (∀ w m', p.call name args m = .ok w m' →
      p.effect.Frame (args.getD 0 .unspecified) (args.getD 1 .unspecified) m m') ∧
    ∀ e m', p.call name args m = .error e m' →
      m' = m ∨ p = .list ∧ e = m.full ∧ m.heap.cells.freeCount < args.size ∧ ∃ n, m.Adds m' n := by
  by_cases hlist : p = .list
  · subst hlist
    rcases call_list hs name args with ⟨hfew, m₁, n, hcall, ha⟩ | ⟨w, m₁, hcall, ha⟩
    · rw [hcall]
      refine ⟨fun w m' hok => (by cases hok), fun e m' herror => ?_⟩
      cases herror
      exact .inr ⟨rfl, rfl, hfew, n, ha⟩
    · rw [hcall]
      refine ⟨fun w m' hok => ?_, fun e m' herror => by cases herror⟩
      cases hok
      exact (Effect.Makes.takeCells ha).frame hs
  · have hresults := call_results hs hlist name args
    constructor
    · intro w m' hok
      rw [hok] at hresults
      exact Effect.Makes.frame hresults hs
    · intro e m' herror
      rw [herror] at hresults
      exact .inl hresults

/-- Two cells are free next to a live pair. -/
def twoCellsLeft : Machine where
  heap := { Heap.fresh 0 1 0 with cells := (Pool.fresh 3).fill 0 ⟨.true, .nil⟩ }
  symbols := {}
  globalEnv := .nil
  config := {}
  terminal := .capturing

theorem sound_twoCellsLeft : twoCellsLeft.heap.Sound :=
  { Heap.sound_fresh 0 1 0 with cells := (Pool.Sound.fresh (by decide)).fill (by cbv) _ }

/-- One half of the pair is changed, and a list of three items keeps two cells. -/
theorem Primitive.call_frame_twoCellsLeft :
    twoCellsLeft.heap.Sound ∧
    (∃ m', setCar.call "set-car!" #[.pair 0, .false] twoCellsLeft = .ok .unspecified m' ∧
      m'.heap.cells.read 0 = ⟨.false, .nil⟩ ∧ m'.terminal = twoCellsLeft.terminal) ∧
    ∃ m' n, list.call "list" #[.nil, .nil, .nil] twoCellsLeft = .error twoCellsLeft.full m' ∧
      m'.heap.cells.freeCount = 0 ∧ twoCellsLeft.Adds m' n := by
  have hs := sound_twoCellsLeft
  have hset := (call_frame hs .setCar "set-car!" #[.pair 0, .false]).1 _ _ rfl
  have hcall : list.call "list" #[.nil, .nil, .nil] twoCellsLeft = .error twoCellsLeft.full
      (twoCellsLeft.mapHeap fun h => { h with cells := (h.cells.fill 1 ⟨.nil, .nil⟩).fill 2 ⟨.nil, .pair 1⟩ }) := by
    cbv
  refine ⟨hs, ⟨_, rfl, (hset.cells 0 (by cbv)).2, hset.noOutput (by decide)⟩, ?_⟩
  rcases (call_frame hs .list "list" #[.nil, .nil, .nil]).2 _ _ hcall with hsame | ⟨-, -, -, n, ha⟩
  · exact absurd (congrArg (·.heap.cells.freeCount) hsame) (by cbv)
  · exact ⟨_, n, hcall, by cbv, ha⟩

/-! ## Numbers as strings -/

/-- Either the text starts like a number, or it is the name of an infinity. -/
theorem Numeral.looksNumeric_format {x : Double} (hnan : x.isNaN = false) :
    looksNumeric (format x).toList = true ∨ format x = "+inf.0" ∨ format x = "-inf.0" := by
  cases h : x.classify with
  | nan =>
    rw [Double.classify_nan h] at hnan
    cases hnan
  | infinite negative =>
    rw [format, h]
    cases negative with
    | false => exact .inr (.inl rfl)
    | true => exact .inr (.inr rfl)
  | finite negative m q =>
    obtain ⟨sign, cs, v, htext, hcs, -, -⟩ := format_finite h
    rw [htext]
    exact .inl (looksNumeric_signed sign hcs.digit)

/-- A string slot holds the text of the number. -/
theorem Primitive.call_numberToString {m : Machine} (hs : m.heap.Sound) (hroom : ¬ m.heap.strings.Full) {x : Double}
    (hnan : x.isNaN = false) (name : String) :
    ∃ i m', numberToString.call name #[.number x] m = .ok (.string i) m' ∧
      m'.heap.strings.read i = (Numeral.format x).toUTF8 := by
  have hargument : Argument.number name (.number x) = .ok x := by
    rw [Argument.number, Word.number?_number, Double.folded_of_isNaN hnan]
  have hcall : numberToString.call name #[.number x] m = newString (Numeral.format x) m := by
    change (Eval.ofExcept (Argument.number name (.number x)) >>= fun x => newString (Numeral.format x)) m = _
    rw [hargument]
    rfl
  have hmake := hs.allocates_makeString (Numeral.format x).toUTF8
  rw [hcall, newString, Eval.onHeap]
  cases hresult : Heap.makeString (Numeral.format x).toUTF8 m.heap with
  | error fault h' =>
    rw [hresult] at hmake
    exact absurd hmake.1 hroom
  | ok w h' =>
    rw [hresult] at hmake
    obtain ⟨-, i, rfl, htakes, -⟩ := hmake
    exact ⟨i, _, rfl, (htakes.read i).trans (if_pos rfl)⟩

/-- A string that spells a number is turned into it. -/
theorem Primitive.call_stringToNumber {m : Machine} {i : UInt32} {text : String}
    (hread : m.heap.strings.read i = text.toUTF8) {x : Double} (hparse : Numeral.parse? text.toList = some x)
    (name : String) : stringToNumber.call name #[.string i] m = .ok (.number x) m := by
  have hstring : (Word.string i).isString = true := by simp [Word.isString]
  have hbytes : m.heap.stringBytes (.string i) = .ok text.toUTF8 := by
    rw [Heap.stringBytes, hstring, Word.payload_string, hread]
    rfl
  have htext : Argument.text m.heap name (.string i) = .ok text := by
    rw [Argument.text, if_pos hstring, Heap.stringText, hbytes]
    exact congrArg Except.ok (ofBytes_toUTF8 text)
  have hnumber : Strings.toNumber m.heap name (.string i) none = .ok (.number x) := by
    simp [Strings.toNumber, htext, hparse, Bind.bind, Except.bind, Pure.pure, Except.pure]
  exact congrArg (Eval.ofExcept · m) hnumber

/-- The text of a number is read back as the number: by the reader of numerals, by the scanner, which finds nothing else
in it, and by the procedures that turn numbers into strings and strings into numbers. -/
theorem number_text_roundTrip {x : Double} (hnan : x.isNaN = false) (hzero : x ≠ Numeral.negativeZero) :
    Numeral.parse? (Numeral.format x).toList = some x ∧
    (Numeral.looksNumeric (Numeral.format x).toList = true ∨
      Numeral.format x = "+inf.0" ∨ Numeral.format x = "-inf.0") ∧
    (∃ lexemes, tokenize (Numeral.format x) = .ok lexemes ∧
      lexemes.toList.map (·.token) = [.number x, .endOfFile]) ∧
    (Word.number x).bits = x.bits ∧
    ∀ m : Machine, m.heap.Sound → ¬ m.heap.strings.Full → ∀ writer reader : String,
      ∃ string m', Primitive.numberToString.call writer #[.number x] m = .ok string m' ∧
        Primitive.stringToNumber.call reader #[string] m' = .ok (.number x) m' := by
  have hparse := Numeral.parse?_format hnan hzero
  have hscans := (scans_number hnan hzero).tokenize
  rw [String.ofList_toList] at hscans
  refine ⟨hparse, Numeral.looksNumeric_format hnan, hscans, by rw [Word.number_of_isNaN hnan], ?_⟩
  intro m hs hroom writer reader
  obtain ⟨i, m', hstring, hread⟩ := Primitive.call_numberToString hs hroom hnan writer
  exact ⟨.string i, m', hstring, Primitive.call_stringToNumber hread hparse reader⟩

/-- The smallest number above zero goes through a string and comes back. -/
theorem number_text_roundTrip_smallest :
    (⟨1⟩ : Double).isNaN = false ∧ (⟨1⟩ : Double) ≠ Numeral.negativeZero ∧
    Numeral.format ⟨1⟩ = "5e-324" ∧ Numeral.parse? "5e-324".toList = some ⟨1⟩ ∧
    ∃ string m', Primitive.numberToString.call "number->string" #[.number ⟨1⟩] twoCellsLeft = .ok string m' ∧
      Primitive.stringToNumber.call "string->number" #[string] m' = .ok (.number ⟨1⟩) m' := by
  have hnan : (⟨1⟩ : Double).isNaN = false := by decide
  have hzero : (⟨1⟩ : Double) ≠ Numeral.negativeZero := by decide
  have htext : Numeral.format ⟨1⟩ = "5e-324" := by decide +kernel
  have hroom : ¬ twoCellsLeft.heap.strings.Full := fun hfull =>
    Pool.not_isLive_fresh 1 0 (hfull 0 (by decide))
  obtain ⟨hparse, -, -, -, hcalls⟩ := number_text_roundTrip hnan hzero
  rw [htext] at hparse
  exact ⟨hnan, hzero, htext, hparse, hcalls twoCellsLeft sound_twoCellsLeft hroom "number->string" "string->number"⟩

end BoxedScheme
