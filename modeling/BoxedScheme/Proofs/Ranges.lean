import BoxedScheme.Proofs.Changes
import BoxedScheme.Proofs.Containment
import BoxedScheme.Proofs.Runs
import BoxedScheme.Proofs.Safety

/-!
# Nothing is looked for where nothing can be

Every slot, root, argument, token and character that the machine takes by its position is there.

* `Moment.InRange` : the slots of all words exist, and so does what is being used;
* `containing`, `ranging` : words within bounds as an invariant and as a discipline;
* `Primitive.callWith_eq` : procedures do not look at arguments that are not there;
* `Dispatches` : a procedure is carried out, whether it fails or not;
* `Strings.slice?_eq_some_iff` : parts of a text lie in the text;
* `runAll_inRange` : whatever programs run on a new machine.
-/

namespace BoxedScheme

/-! ## The policy -/

/-- The slots of all words exist, those that are handed out next included, no more slots are free than there are, and
what is being used is there. -/
structure Moment.InRange (x : Moment) : Prop where
  cells : ∀ c ∈ x.machine.heap.cells.items, c.Within x.machine.heap.bounds
  roots : ∀ w ∈ x.machine.heap.roots, w.Within x.machine.heap.bounds
  symbols : ∀ w ∈ x.machine.symbols.values, w.Within x.machine.heap.bounds
  globalEnv : x.machine.globalEnv.Within x.machine.heap.bounds
  hand : ∀ y ∈ x.hand.words, y.2.Within x.machine.heap.bounds
  nextCells : ∀ i ∈ x.machine.heap.cells.free, i.toNat < x.machine.heap.cells.capacity
  nextStrings : ∀ i ∈ x.machine.heap.strings.free, i.toNat < x.machine.heap.strings.capacity
  freeCells : x.machine.heap.cells.freeCount ≤ x.machine.heap.cells.capacity
  freeStrings : x.machine.heap.strings.freeCount ≤ x.machine.heap.strings.capacity
  deed : x.deed.Possible x.machine ∨ x.deed = .collect ∨ ∃ p before, x.deed = .called p before

theorem Machine.Contained.inRange {b : Bounds} {m : Machine} {hand : Hand} {deed : Deed} (hm : m.Contained b)
    (hhand : ∀ y ∈ hand.words, y.2.Within b)
    (hdeed : deed.Possible m ∨ deed = .collect ∨ ∃ p before, deed = .called p before) :
    Moment.InRange ⟨hand, deed, m⟩ := by
  have hheap := hm.memory.heap
  obtain rfl := hheap.bounds
  exact {
    cells := hheap.cells
    roots := hheap.roots
    symbols := hm.memory.symbols
    globalEnv := hm.globalEnv
    hand := hhand
    nextCells := fun i hi => (hheap.freeCells.mem_free i hi).1
    nextStrings := fun i hi => (hheap.freeStrings.mem_free i hi).1
    freeCells := hheap.freeCells.freeCount_le
    freeStrings := hheap.freeStrings.freeCount_le
    deed := hdeed }

/-! ## The discipline -/

section Containing

variable {α : Type} {b : Bounds} {m : Machine}

/-- Words within bounds as an invariant; roles do not matter. -/
def containing : Invariant := .lasting (fun b m => m.Contained b) fun b _ _ w => w.Within b

theorem Stays.obeys {x : Eval α} {Q : α → Prop} {R : α → Bounds → Machine → Prop} (hx : Stays b x Q) (ha : Acts x)
    (hm : m.Contained b) (hr : ∀ a m', Q a → R a b m') : containing.Obeys b m (x m) R := by
  have hxm := hx m hm
  have hroots := (ha m).roots.1
  unfold after at hroots
  cases hres : x m with
  | error e m' =>
    rw [hres] at hxm hroots
    exact ⟨b, Invariant.lasting_follows hxm hroots fun _ _ hw => hw⟩
  | ok a m' =>
    rw [hres] at hxm hroots
    exact ⟨b, Invariant.lasting_follows hxm.1 hroots fun _ _ hw => hw, hr a m' hxm.2⟩

theorem Stays.obeys_step {x : Eval Step} (hx : Stays b x (Step.Within b)) (ha : Acts x) (hm : m.Contained b) :
    containing.Obeys b m (x m) containing.Yields := by
  refine hx.obeys ha hm fun s m' hs => ?_
  cases s with
  | done value => exact hs
  | tail expr env => exact hs

theorem Machine.Contained.withRoots {roots : Array Word} (hm : m.Contained b) (hroots : ∀ w ∈ roots, w.Within b) :
    (m.mapHeap fun h => { h with roots }).Contained b :=
  have hheap := hm.memory.heap
  ⟨⟨⟨hheap.bounds, hheap.cells, hroots, hheap.freeCells, hheap.freeStrings⟩, hm.memory.symbols⟩, hm.globalEnv, hm.core⟩

theorem containing_maybeCollect {d : Nat} {lent : List Word} (hm : m.Contained b) :
    containing.Next d lent b m b (maybeCollect m) := by
  unfold maybeCollect
  split
  · refine Invariant.lasting_next ?_ rfl fun _ _ hw => hw
    exact ⟨⟨hm.memory.heap.collect _, hm.memory.symbols⟩, hm.globalEnv, hm.core⟩
  · exact Invariant.lasting_next ⟨hm.memory, hm.globalEnv, hm.core⟩ rfl fun _ _ hw => hw

def ranging : Discipline Moment.InRange fun _ => False where
  toInvariant := containing
  immediate hw := .of_isImmediate hw
  atom hw _ := hw
  idle hw := hw
  globalEnv hm := hm.globalEnv
  args hm _ _ := ⟨(hm.memory.heap.read _).car, (hm.memory.heap.read _).cdr⟩
  data hm _ _ := ⟨(hm.memory.heap.read _).car, (hm.memory.heap.read _).cdr⟩
  expr hm _ _ := ⟨(hm.memory.heap.read _).car, (hm.memory.heap.read _).cdr⟩
  operands hm _ _ := ⟨(hm.memory.heap.read _).car, (hm.memory.heap.read _).cdr⟩
  closureParts hm _ hparts := hm.memory.heap.closureParts hparts
  holds_mono _ _ _ := trivial
  holds_root _ _ := trivial
  holds_lent _ _ := trivial
  holds_pair _ _ _ _ := ⟨trivial, trivial⟩
  holds_body _ _ _ _ := trivial
  allows _ hm hh hdeed := hm.inRange hh.words (.inl hdeed)
  allows_called _ _ _ _ hm hh := hm.inRange hh.words (.inr (.inr ⟨_, _, rfl⟩))
  collect {d b m hand} hr :=
    .inl ⟨hr.good.inRange hr.grips.words (.inr (.inl rfl)), b, containing_maybeCollect hr.good⟩
  lookup hm _ := (stays_lookup _ _).obeys (acts_lookup _ _) hm fun _ _ hw => hw
  define hm _ hs hv := (stays_define _ hs hv).obeys (acts_define _ _ _) hm fun _ _ _ => trivial
  extend hm henv hp ha := (stays_extend henv hp ha).obeys (acts_extend _ _ _) hm fun _ _ hw => hw
  defineProcedure hm _ _ henv :=
    (stays_defineProcedure _ _ henv).obeys (acts_defineProcedure _ _ _) hm fun _ _ _ => trivial
  lambda hm hop hl henv :=
    (stays_evalLambda (hm.memory.heap.lists hl hop).1 henv).obeys_step (acts_evalLambda _ _ _) hm
  bind hm hop hl henv :=
    (stays_evalBind hm.core (hm.memory.heap.lists hl hop).1 henv).obeys_step (acts_evalBind _ _ _) hm
  bindInOrder hm hop hl henv :=
    (stays_evalBindInOrder hm.core (hm.memory.heap.lists hl hop).1 henv).obeys_step (acts_evalBindInOrder _ _ _) hm
  call hm hargs := (stays_call _ _ hargs).obeys (acts_call _ _ _) hm fun _ _ hw => hw
  readDatum hm := (stays_readDatum _).obeys (acts_readDatum _) hm fun _ _ hw => hw
  cons _ hm hv := (stays_evalCons hv .nil).obeys (acts_evalCons _ _) hm fun _ _ hw => hw
  append hm _ hc hp :=
    Invariant.lasting_append hp ((stays_onHeap (stays_setCdr hc)).obeys (acts_setCdr _ _) hm fun _ _ _ => trivial)
  settle n hm := Invariant.lasting_settle n hm
  withRoots hm hroots htake := by
    refine ⟨Invariant.lasting_next (hm.withRoots fun w hw => ?_) htake fun _ _ hw => hw, fun _ _ hw => hw⟩
    rcases hroots w hw with hmem | ⟨_, hfits⟩
    · exact hm.memory.heap.roots w hmem
    · exact hfits
  withFiles _ hm := ⟨hm.memory, hm.globalEnv, hm.core⟩

end Containing

/-! ## Arguments -/

/-- How many arguments a procedure looks at without asking whether they are there. -/
def Primitive.reads : Primitive → Nat
  | .newline | .add | .mul | .sub | .div | .list | .apply | .load => 0
  | .cons | .setCar | .setCdr | .isEq | .isEqv | .quotient | .modulo | .stringRef => 2
  | _ => 1

def Operation.reads : Operation → Nat
  | .form _ => 0
  | .primitive p => p.reads

def Arity.least : Arity → Nat
  | .exact n | .atLeast n | .between n _ => n

theorem Arity.least_le {a : Arity} {n : Nat} (h : a.accepts n) : a.least ≤ n := by
  cases a with
  | exact k =>
    have hn : n = k := of_decide_eq_true h
    exact Nat.le_of_eq hn.symm
  | atLeast k => exact of_decide_eq_true h
  | between low high =>
    rw [Arity.accepts, Bool.and_eq_true] at h
    exact of_decide_eq_true h.1

theorem Operation.reads_le_least : ∀ entry ∈ table.toList, entry.operation.reads ≤ entry.arity.least := by decide

/-- The arguments that a procedure looks at are there if their number is right. -/
theorem Operation.reads_le {id : UInt32} {p : Primitive} {name : String} {arity : Arity} {n : Nat}
    (hentry : entry? id = some ⟨.primitive p, name, arity⟩) (hn : arity.accepts n) : p.reads ≤ n :=
  Nat.le_trans (reads_le_least _ (Array.mem_toList_iff.2 (Array.mem_of_getElem? hentry))) (Arity.least_le hn)

/-- Whatever stands in for missing arguments, a procedure that has those it looks at does the same. -/
theorem Primitive.callWith_eq {p : Primitive} {args : Array Word} (h : p.reads ≤ args.size) (missing : Word)
    (name : String) : p.callWith missing name args = p.call name args := by
  have hget {i : Nat} (hi : i < args.size) : args.getD i missing = args.getD i .unspecified := by
    rw [Array.getD, Array.getD, dif_pos hi, dif_pos hi]
  cases p with
  | newline | add | mul | sub | div | list | apply | load => rfl
  | cons | setCar | setCdr | isEq | isEqv | quotient | modulo | stringRef =>
    have hsize : 2 ≤ args.size := h
    dsimp only [call, callWith]
    rw [hget (Nat.lt_of_succ_lt hsize), hget hsize]
  | _ =>
    have hsize : 1 ≤ args.size := h
    dsimp only [call, callWith]
    rw [hget hsize]

/-! ## Dispatch -/

section Dispatch

variable {α β : Type}

def Dispatched (x : Except Error α) : Prop := ∀ text, x ≠ .error (.notCallable text)

theorem Dispatched.ok (a : α) : Dispatched (.ok a : Except Error α) := nofun

theorem Dispatched.error {e : Error} (he : ∀ text, e ≠ .notCallable text) : Dispatched (.error e : Except Error α) :=
  fun text h => he text (Except.error.inj h)

theorem Dispatched.bind {x : Except Error α} {f : α → Except Error β} (hx : Dispatched x) (hf : ∀ a, Dispatched (f a)) :
    Dispatched (x >>= f) := by
  cases x with
  | error e => exact fun text h => hx text (congrArg Except.error (Except.error.inj h))
  | ok a => exact hf a

theorem Dispatched.map {x : Except Error α} (hx : Dispatched x) (f : α → β) : Dispatched (f <$> x) := by
  cases x with
  | error e => exact fun text h => hx text (congrArg Except.error (Except.error.inj h))
  | ok a => exact .ok (f a)

theorem ofFault_ne_notCallable (fault : Fault) (text : String) : Error.ofFault fault ≠ .notCallable text := by
  cases fault <;> exact nofun

theorem dispatched_mapError (x : Except Fault α) : Dispatched (x.mapError Error.ofFault) := by
  cases x with
  | error e => exact .error (ofFault_ne_notCallable e)
  | ok a => exact .ok a

theorem dispatched_number (name : String) (w : Word) : Dispatched (Argument.number name w) := by
  unfold Argument.number
  split
  · exact .ok _
  · exact .error nofun

theorem dispatched_char (name : String) (w : Word) : Dispatched (Argument.char name w) := by
  unfold Argument.char
  split
  · exact .ok _
  · exact .error nofun

theorem dispatched_numbers (name : String) (ws : List Word) : Dispatched (Argument.numbers name ws) := by
  unfold Argument.numbers
  induction ws with
  | nil => exact .ok _
  | cons w ws ih =>
    rw [List.mapM_cons]
    exact (dispatched_number name w).bind fun _ => ih.bind fun _ => .ok _

theorem dispatched_integer (name : String) (w : Word) : Dispatched (Argument.integer name w) := by
  refine (dispatched_number name w).bind fun x => ?_
  cases x.toInt? with
  | some n => exact .ok _
  | none => exact .error nofun

theorem dispatched_text (h : Heap) (name : String) (w : Word) : Dispatched (Argument.text h name w) := by
  unfold Argument.text
  split
  · cases h.stringText w with
    | ok s => exact .ok _
    | error e => exact .error (ofFault_ne_notCallable e)
  · exact .error nofun

theorem dispatched_lengthOf (h : Heap) (name : String) (list : Word) : Dispatched (Primitive.lengthOf h name list) := by
  refine (dispatched_mapError _).bind fun tail => ?_
  split
  · exact .error nofun
  · exact (dispatched_mapError _).bind fun _ => .ok _

theorem dispatched_chain {convert : Word → Except Error α} (hc : ∀ w, Dispatched (convert w)) (holds : α → α → Bool)
    (previous : α) (ws : List Word) : Dispatched (chain convert holds previous ws) := by
  induction ws generalizing previous with
  | nil => exact .ok _
  | cons w ws ih =>
    refine (hc w).bind fun x => ?_
    split
    · exact ih x
    · exact .ok _

theorem dispatched_compareAll {convert : Word → Except Error α} (hc : ∀ w, Dispatched (convert w))
    (holds : α → α → Bool) (first : Word) (others : List Word) :
    Dispatched (compareAll convert holds first others) :=
  (hc first).bind fun x => dispatched_chain hc holds x others

theorem dispatched_allEqual (h : Heap) (name first : String) (ws : List Word) :
    Dispatched (Strings.allEqual h name first ws) := by
  induction ws with
  | nil => exact .ok _
  | cons w ws ih =>
    refine (dispatched_text h name w).bind fun text => ?_
    split
    · exact ih
    · exact .ok _

theorem dispatched_charAt (h : Heap) (name : String) (string index : Word) :
    Dispatched (Strings.charAt h name string index) := by
  refine (dispatched_text h name string).bind fun text => (dispatched_integer name index).bind fun k => ?_
  dsimp only
  generalize (if k < 0 then none else text.toList[k.toNat]?) = found
  cases found with
  | some c => exact .ok _
  | none => exact .error nofun

/-- An argument that may be left out. -/
theorem dispatched_optional {name : String} {w? : Option Word} {default : Int} {f : Int → Except Error α}
    (hf : ∀ n, Dispatched (f n)) :
    Dispatched (match w? with | some w => Argument.integer name w >>= f | none => pure default >>= f) := by
  cases w? with
  | some w => exact (dispatched_integer name w).bind hf
  | none => exact hf default

theorem dispatched_substring (h : Heap) (name : String) (string : Word) (first? last? : Option Word) :
    Dispatched (Strings.substring h name string first? last?) := by
  refine (dispatched_text h name string).bind fun text => ?_
  refine dispatched_optional fun first => dispatched_optional fun last => ?_
  dsimp only
  cases Strings.slice? text.toList first last with
  | some part => exact .ok _
  | none => exact .error nofun

theorem dispatched_toNumber (h : Heap) (name : String) (string : Word) (radix? : Option Word) :
    Dispatched (Strings.toNumber h name string radix?) := by
  refine (dispatched_text h name string).bind fun text => dispatched_optional fun radix => ?_
  dsimp only
  split
  · exact .ok _
  · split
    · exact .ok _
    · exact .error nofun

theorem dispatched_division {c : Prop} [Decidable c] {name : String} {x : Double} :
    Dispatched (if c then .error (.divisionByZero name) else .ok x) := by
  split
  · exact .error nofun
  · exact .ok x

theorem dispatched_ratio (name : String) (xs : List Double) : Dispatched (Arithmetic.ratio name xs) := by
  have hparts (parts : Double × List Double) : Dispatched
      (if parts.2.any (·.isZero) then .error (.divisionByZero name) else .ok (parts.2.foldl .div parts.1)) :=
    dispatched_division
  exact hparts _

/-- The action may fail, but not because something cannot be called. -/
def Dispatches (x : Eval α) : Prop := ∀ m text m', x m ≠ .error (.error (.notCallable text)) m'

theorem Dispatches.pure (a : α) : Dispatches (pure a : Eval α) := nofun

theorem Dispatches.bind {x : Eval α} {f : α → Eval β} (hx : Dispatches x) (hf : ∀ a, Dispatches (f a)) :
    Dispatches (x >>= f) := by
  intro m text m' h
  change EStateM.bind x f m = _ at h
  unfold EStateM.bind at h
  cases hxm : x m with
  | error e m₁ =>
    rw [hxm] at h
    cases h
    exact hx m text m' hxm
  | ok a m₁ =>
    rw [hxm] at h
    exact hf a m₁ text m' h

theorem Dispatches.get_bind {f : Machine → Eval β} (hf : ∀ m, Dispatches (f m)) : Dispatches (get >>= f) :=
  fun m => hf m m

theorem Dispatched.ofExcept {x : Except Error α} (hx : Dispatched x) : Dispatches (Eval.ofExcept x) := by
  intro m text m' h
  cases x with
  | ok a => cases h
  | error e =>
    cases h
    exact hx text rfl

theorem dispatches_inspect (f : Heap → Except Fault α) : Dispatches (Eval.inspect f) := by
  intro m text m' h
  unfold Eval.inspect at h
  cases hf : f m.heap with
  | ok a =>
    rw [hf] at h
    cases h
  | error e =>
    rw [hf] at h
    injection h with he
    exact ofFault_ne_notCallable e text (Stop.error.inj he)

theorem dispatches_onMemory (op : MemoryM α) : Dispatches (Eval.onMemory op) := by
  intro m text m' h
  unfold Eval.onMemory at h
  cases hop : op m.toMemory with
  | ok a mem =>
    rw [hop] at h
    cases h
  | error e mem =>
    rw [hop] at h
    injection h with he
    exact ofFault_ne_notCallable e text (Stop.error.inj he)

theorem dispatches_onHeap (op : HeapM α) : Dispatches (Eval.onHeap op) := by
  intro m text m' h
  unfold Eval.onHeap at h
  cases hop : op m.heap with
  | ok a heap =>
    rw [hop] at h
    cases h
  | error e heap =>
    rw [hop] at h
    injection h with he
    exact ofFault_ne_notCallable e text (Stop.error.inj he)

theorem dispatches_print (piece : String) : Dispatches (Eval.print piece) := nofun

/-- Every procedure but those that evaluate is carried out. -/
theorem dispatches_call {p : Primitive} (happly : p ≠ .apply) (hload : p ≠ .load) (name : String)
    (args : Array Word) : Dispatches (p.call name args) := by
  cases p with
  | car => exact dispatches_inspect (·.car _)
  | cdr => exact dispatches_inspect (·.cdr _)
  | cons | list => exact dispatches_onHeap _
  | setCar | setCdr => exact (dispatches_onHeap _).bind fun _ => .pure _
  | newline => exact (dispatches_print _).bind fun _ => .pure _
  | display | write => exact .get_bind fun _ => (dispatches_print _).bind fun _ => .pure _
  | length => exact .get_bind fun _ => (dispatched_lengthOf _ _ _).ofExcept
  | stringLength => exact .get_bind fun _ => ((dispatched_text _ _ _).bind fun _ => .ok _).ofExcept
  | stringRef => exact .get_bind fun _ => (dispatched_charAt _ _ _ _).ofExcept
  | stringToNumber => exact .get_bind fun _ => (dispatched_toNumber _ _ _ _).ofExcept
  | stringEq =>
    refine .get_bind fun _ => Dispatched.ofExcept ?_
    exact (dispatched_text _ _ _).bind fun _ => (dispatched_allEqual _ _ _ _).bind fun _ => .ok _
  | numberToString => exact (dispatched_number _ _).ofExcept.bind fun _ => dispatches_onHeap _
  | substring => exact .get_bind fun _ => (dispatched_substring _ _ _ _ _).ofExcept.bind fun _ => dispatches_onHeap _
  | symbolToString =>
    show Dispatches (match (args.getD 0 .unspecified).symbolString? with | some string => _ | none => _ : Eval Word)
    cases (args.getD 0 .unspecified).symbolString? with
    | some string => exact (dispatches_inspect _).bind fun _ => dispatches_onHeap _
    | none => exact nofun
  | stringToSymbol => exact .get_bind fun _ => (dispatched_text _ _ _).ofExcept.bind fun _ => dispatches_onMemory _
  | apply => exact absurd rfl happly
  | load => exact absurd rfl hload
  | isProcedure | isNull | isBoolean | isEof | isSymbol | isString | isPair | isChar | isNumber | not | isEq | isEqv =>
    exact .pure _
  | add | mul | sub | max | min => exact (((dispatched_numbers _ _).map _).map _).ofExcept
  | div => exact (((dispatched_numbers _ _).bind fun _ => dispatched_ratio _ _).map _).ofExcept
  | quotient | modulo =>
    refine (Dispatched.map ?_ _).ofExcept
    exact (dispatched_number _ _).bind fun _ => (dispatched_number _ _).bind fun _ => dispatched_division
  | isZero => exact (((dispatched_number _ _).map _).map _).ofExcept
  | compareNumbers r => exact ((dispatched_compareAll (dispatched_number _) _ _ _).map _).ofExcept
  | compareChars fold r =>
    exact ((dispatched_compareAll (fun w => (dispatched_char _ w).map _) _ _ _).map _).ofExcept

end Dispatch

/-! ## Slices -/

/-- A part of a text starts and ends where it should, inside the text; and where that is possible there is one. -/
theorem Strings.slice?_eq_some_iff {cs part : List Char} {first last : Int} :
    slice? cs first last = some part ↔
      ∃ before after, cs = before ++ part ++ after ∧ (before.length : Int) = first ∧
        ((before ++ part).length : Int) = last := by
  unfold slice?
  constructor
  · intro h
    split at h
    next => cases h
    next hrange =>
      obtain rfl := Option.some.inj h
      refine ⟨cs.take first.toNat, cs.drop last.toNat, ?_, ?_, ?_⟩
      · have hlast : last.toNat = first.toNat + (last - first).toNat := by omega
        rw [hlast, ← List.drop_drop, List.append_assoc, List.take_append_drop, List.take_append_drop]
      · rw [List.length_take]
        omega
      · rw [List.length_append, List.length_take, List.length_take, List.length_drop]
        omega
  · rintro ⟨before, after, rfl, rfl, rfl⟩
    have hlengths : ((before ++ part).length : Int) - before.length = part.length := by
      rw [List.length_append]
      omega
    rw [if_neg (by simp only [List.length_append]; omega), hlengths, Int.toNat_natCast, Int.toNat_natCast,
      List.append_assoc, List.drop_left, List.take_left]

/-! ## Programs -/

/-- Whatever programs run on a new machine, however long, whatever fails and whatever is collected: at every moment
the slots of all words exist, in cells, among the roots, among the symbols and in the hands of the evaluations under
way; the free slots exist and are no more than there are slots; and every root, argument and token that is used is
there. Procedures do not look at arguments that they need not be given, and are all carried out. Parts of a text lie in
the text. -/
theorem runAll_inRange {config : Config} {terminal : Terminal} {files : Files} {m : Machine}
    (hm : Machine.create config terminal files = .ok m) :
    (∀ programs, Supervised.runAll Moment.InRange programs m = .ok (runAll programs m)) ∧
    (∀ id p name arity, Operation.entry? id = some ⟨.primitive p, name, arity⟩ → ∀ args, arity.accepts args.size →
      (∀ missing, p.callWith missing name args = p.call name args) ∧
        (p ≠ .apply → p ≠ .load → Dispatches (p.call name args))) ∧
    ∀ cs first last part, Strings.slice? cs first last = some part ↔
      ∃ before after, cs = before ++ part ++ after ∧ (before.length : Int) = first ∧
        ((before ++ part).length : Int) = last := by
  obtain ⟨ρ, hv⟩ := Machine.Valid.create hm
  refine ⟨fun programs => ranging.runAll_eq hv.contained programs, fun id p name arity hentry args hn => ⟨?_, ?_⟩,
    fun _ _ _ _ => Strings.slice?_eq_some_iff⟩
  · exact fun missing => Primitive.callWith_eq (Operation.reads_le hentry hn) missing name
  · exact fun happly hload => dispatches_call happly hload name args

/-- A machine that collects before every pass, with a body that is lost to a collection and an error, and the
procedure `substring` with one argument. -/
theorem runAll_inRange_eager :
    ∃ m, Machine.create { cells := 64, strings := 72, roots := 32, collectEvery := 1 } .capturing {} = .ok m ∧
      (let programs : List Program :=
        [⟨"(define l (list (lambda () (set-car! l #f) (list 1 2 3 4) 7) '()))", 100, {}⟩,
          ⟨"(apply apply l) (car (substring \"abc\" 1 9))", 100, {}⟩]
      Supervised.runAll Moment.InRange programs m = .ok (runAll programs m)) ∧
      (∀ missing, Primitive.substring.callWith missing "substring" #[.nil] =
        Primitive.substring.call "substring" #[.nil]) ∧
      Dispatches (Primitive.substring.call "substring" #[.nil]) := by
  have hok : (Machine.create { cells := 64, strings := 72, roots := 32, collectEvery := 1 } .capturing {}).toBool := by
    decide +kernel
  cases hm : Machine.create { cells := 64, strings := 72, roots := 32, collectEvery := 1 } .capturing {} with
  | error e =>
    rw [hm] at hok
    cases hok
  | ok m =>
    have hall := runAll_inRange hm
    obtain ⟨hmissing, hcarried⟩ := hall.2.1 57 .substring "substring" (.between 1 3) (by decide) #[.nil] (by decide)
    exact ⟨m, rfl, hall.1 _, hmissing, hcarried (by decide) (by decide)⟩

end BoxedScheme
