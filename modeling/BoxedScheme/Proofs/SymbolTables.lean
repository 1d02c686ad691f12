import BoxedScheme.Proofs.HeapRuns
import BoxedScheme.Session

/-!
# Symbols and their names

The symbol table holds one symbol for each name, and the string slot of that symbol holds the name, however names are
interned, strings are made and slots are swept. So symbols are told apart by their slots, and the symbols of the
machine's own operations are known by number.

* `Memory.Named` : every entry of the table is a live slot that holds its name, and no name has two entries;
* `Memory.Named.execute`, `Memory.Named.executeAll` : what one step and what a whole run keeps;
* `Memory.Reserved` : each operation's name has the operation's number as its slot;
* `executeAll_identity` : runs on the memory of a new machine.
-/

namespace BoxedScheme

/-! ## Tables -/

instance lawfulBEqByteArray : LawfulBEq ByteArray where
  eq_of_beq {a b} h := by
    obtain ⟨a⟩ := a
    obtain ⟨b⟩ := b
    exact congrArg ByteArray.mk (eq_of_beq (show (a == b) = true from h))
  rfl {a} := by
    obtain ⟨a⟩ := a
    exact beq_self_eq_true (a := a)

namespace SymbolTable

variable {t : SymbolTable} {name other : ByteArray} {w : Word}

theorem mem_of_get? (hw : t.get? name = some w) : (name, w) ∈ t.entries := by
  obtain ⟨entries⟩ := t
  unfold get? at hw
  induction entries with
  | nil => cases hw
  | cons entry entries ih =>
    rw [List.lookup_cons] at hw
    split at hw
    next heq =>
      cases hw
      rw [eq_of_beq heq]
      exact List.mem_cons_self
    next => exact List.mem_cons_of_mem _ (ih hw)

theorem not_mem_of_get? (hw : t.get? name = none) : name ∉ t.entries.map (·.1) := by
  obtain ⟨entries⟩ := t
  unfold get? at hw
  induction entries with
  | nil => simp
  | cons entry entries ih =>
    rw [List.lookup_cons] at hw
    split at hw
    next => cases hw
    next hne =>
      rw [List.map_cons, List.mem_cons, not_or]
      exact ⟨beq_eq_false_iff_ne.1 hne, ih hw⟩

theorem get?_of_mem (hnames : (t.entries.map (·.1)).Nodup) (hmem : (name, w) ∈ t.entries) : t.get? name = some w := by
  obtain ⟨entries⟩ := t
  unfold get?
  induction entries with
  | nil => cases hmem
  | cons entry entries ih =>
    rw [List.map_cons, List.nodup_cons] at hnames
    rw [List.lookup_cons]
    rcases List.mem_cons.1 hmem with rfl | hmem
    · simp
    · have hne : name ≠ entry.1 := by
        rintro rfl
        exact hnames.1 (List.mem_map.2 ⟨_, hmem, rfl⟩)
      rw [beq_eq_false_iff_ne.2 hne]
      exact ih hnames.2 hmem

@[simp] theorem get?_insert_self (t : SymbolTable) (name : ByteArray) (w : Word) :
    (t.insert name w).get? name = some w := by
  simp [get?, insert]

theorem get?_insert_of_ne {v : Word} (hne : other ≠ name) : (t.insert name v).get? other = t.get? other := by
  show List.lookup other ((name, v) :: t.entries) = t.entries.lookup other
  rw [List.lookup_cons, beq_eq_false_iff_ne.2 hne]

/-- A new name does not hide another one. -/
theorem get?_insert_of_get? {v : Word} (hnew : t.get? name = none) (hw : t.get? other = some w) :
    (t.insert name v).get? other = some w := by
  have hne : other ≠ name := by
    rintro rfl
    rw [hnew] at hw
    cases hw
  rw [get?_insert_of_ne hne, hw]

end SymbolTable

/-! ## Memory -/

namespace Memory

/-- The word is the symbol whose slot is live and holds the name. -/
def Names (h : Heap) (name : ByteArray) (w : Word) : Prop :=
  ∃ i, w = .symbol i ∧ h.strings.IsLive i ∧ h.strings.read i = name

/-- The symbol table and the string pool agree. -/
structure Named (m : Memory) : Prop where
  strings : m.heap.strings.Sound
  unmarked : Heap.Clear m.heap.cells.marks
  entry : ∀ name w, (name, w) ∈ m.symbols.entries → Names m.heap name w
  nodup : (m.symbols.entries.map (·.1)).Nodup

/-- No name was forgotten or given to another symbol. -/
def Remembers (m m' : Memory) : Prop := ∀ name w, m.symbols.get? name = some w → m'.symbols.get? name = some w

variable {m m' m'' : Memory} {name : ByteArray} {v w : Word}

theorem Remembers.refl (m : Memory) : m.Remembers m := fun _ _ hw => hw

theorem Remembers.trans (h₁ : m.Remembers m') (h₂ : m'.Remembers m'') : m.Remembers m'' :=
  fun name w hw => h₂ name w (h₁ name w hw)

theorem Named.names (hm : m.Named) (hw : m.symbols.get? name = some w) : Names m.heap name w :=
  hm.entry name w (SymbolTable.mem_of_get? hw)

/-- Two symbols of the table are one exactly if their names are. -/
theorem Named.eq_iff (hm : m.Named) {other : ByteArray} (hv : (name, v) ∈ m.symbols.entries)
    (hw : (other, w) ∈ m.symbols.entries) : v = w ↔ name = other := by
  constructor
  · rintro rfl
    obtain ⟨i, rfl, -, hi⟩ := hm.entry name v hv
    obtain ⟨j, hij, -, hj⟩ := hm.entry other (.symbol i) hw
    have hpayload := congrArg Word.payload hij
    rw [Word.payload_symbol, Word.payload_symbol] at hpayload
    rw [← hi, ← hj, hpayload]
  · rintro rfl
    have hboth := (SymbolTable.get?_of_mem hm.nodup hv).symm.trans (SymbolTable.get?_of_mem hm.nodup hw)
    exact Option.some_inj.1 hboth

/-- A change of the heap that keeps the slots of all symbols. -/
theorem Named.withHeap (hm : m.Named) {h' : Heap} (hstrings : h'.strings.Sound) (hunmarked : Heap.Clear h'.cells.marks)
    (hkeep : ∀ w ∈ m.symbols.values, ∀ i, w = .symbol i → m.heap.strings.IsLive i →
      h'.strings.IsLive i ∧ h'.strings.read i = m.heap.strings.read i) : Named ⟨h', m.symbols⟩ := by
  refine ⟨hstrings, hunmarked, fun name w hw => ?_, hm.nodup⟩
  obtain ⟨i, rfl, hlive, hread⟩ := hm.entry name w hw
  obtain ⟨hlive', hread'⟩ := hkeep _ (List.mem_map_of_mem hw) i rfl hlive
  exact ⟨i, rfl, hlive', hread'.trans hread⟩

/-- A new name for a slot that holds it. -/
theorem Named.insert (hm : m.Named) (hnew : m.symbols.get? name = none) (hw : Names m.heap name w) :
    Named { m with symbols := m.symbols.insert name w } := by
  refine ⟨hm.strings, hm.unmarked, fun other v hv => ?_, ?_⟩
  · rcases List.mem_cons.1 hv with heq | hv
    · cases heq
      exact hw
    · exact hm.entry other v hv
  · show (name :: m.symbols.entries.map (·.1)).Nodup
    exact List.nodup_cons.2 ⟨SymbolTable.not_mem_of_get? hnew, hm.nodup⟩

/-! ## Interning -/

theorem intern_of_get? (hw : m.symbols.get? name = some w) : intern name m = .ok w m := by
  unfold intern
  rw [hw]

theorem intern_apply_new (hnew : m.symbols.get? name = none) :
    intern name m = match m.heap.strings.next? with
      | none => .error (.outOfStrings m.heap.strings.capacity) m
      | some i => .ok (.symbol i)
        ⟨{ m.heap with strings := m.heap.strings.fill i name }, m.symbols.insert name (.symbol i)⟩ := by
  unfold intern
  rw [hnew]
  have hmake : onHeap (Heap.makeString name) m = match m.heap.strings.next? with
      | none => .error (.outOfStrings m.heap.strings.capacity) m
      | some i => .ok (.string i) ⟨{ m.heap with strings := m.heap.strings.fill i name }, m.symbols⟩ := by
    obtain ⟨h, symbols⟩ := m
    unfold onHeap Heap.makeString
    dsimp only
    cases h.strings.next? <;> rfl
  rw [hmake]
  cases m.heap.strings.next? with
  | none => rfl
  | some i => simp only [Word.payload_string]

/-- Interning fails without a trace, or gives the name a symbol for good. -/
theorem intern_cases (name : ByteArray) (m : Memory) :
    (∃ fault, intern name m = .error fault m) ∨
      ∃ w m', intern name m = .ok w m' ∧ m'.symbols.get? name = some w ∧ m.Remembers m' := by
  cases hget : m.symbols.get? name with
  | some w => exact .inr ⟨w, m, intern_of_get? hget, hget, .refl m⟩
  | none =>
    rw [intern_apply_new hget]
    cases m.heap.strings.next? with
    | none => exact .inl ⟨_, rfl⟩
    | some i =>
      exact .inr ⟨_, _, rfl, SymbolTable.get?_insert_self .., fun _ _ => SymbolTable.get?_insert_of_get? hget⟩

theorem Named.fill_string (hm : m.Named) {i : UInt32} (hi : m.heap.strings.next? = some i) (bytes : ByteArray) :
    Named ⟨{ m.heap with strings := m.heap.strings.fill i bytes }, m.symbols⟩ := by
  obtain ⟨hlt, hdead⟩ := hm.strings.next_dead hi
  refine hm.withHeap (hm.strings.fill hi bytes) hm.unmarked fun w _ j _ hlive => ?_
  have hne : j ≠ i := by
    rintro rfl
    exact hdead hlive
  exact ⟨(Pool.isLive_fill hlt _ j).2 (.inr hlive), (Pool.read_fill hlt _ j).trans (if_neg hne)⟩

theorem Named.intern (hm : m.Named) (hok : intern name m = .ok w m') : m'.Named := by
  cases hget : m.symbols.get? name with
  | some v =>
    rw [intern_of_get? hget] at hok
    cases hok
    exact hm
  | none =>
    rw [intern_apply_new hget] at hok
    cases hnext : m.heap.strings.next? with
    | none =>
      rw [hnext] at hok
      cases hok
    | some i =>
      rw [hnext] at hok
      cases hok
      obtain ⟨hlt, -⟩ := hm.strings.next_dead hnext
      refine (hm.fill_string hnext name).insert hget ⟨i, rfl, ?_, ?_⟩
      · exact (Pool.isLive_fill hlt _ i).2 (.inl rfl)
      · exact (Pool.read_fill hlt _ i).trans (if_pos rfl)

/-- A string or symbol whose bytes are new to the table lends its slot to the new symbol. -/
theorem internValue_cases (w : Word) (m : Memory) :
    (∃ fault, internValue w m = .error fault m ∧ ¬ w.hasText) ∨
      (∃ v, internValue w m = .ok v m ∧ m.symbols.get? (m.heap.strings.read w.payload) = some v) ∨
      w.hasText ∧ m.symbols.get? (m.heap.strings.read w.payload) = none ∧
        internValue w m = .ok (.symbol w.payload)
          { m with symbols := m.symbols.insert (m.heap.strings.read w.payload) (.symbol w.payload) } := by
  unfold internValue Heap.stringBytes
  by_cases htext : w.isString || w.isSymbol
  · simp only [if_pos htext]
    cases hget : m.symbols.get? (m.heap.strings.read w.payload) with
    | some v => exact .inr (.inl ⟨v, rfl, rfl⟩)
    | none => exact .inr (.inr ⟨by rwa [Word.hasText, Bool.or_comm], rfl, rfl⟩)
  · simp only [if_neg htext]
    exact .inl ⟨_, rfl, by rwa [Word.hasText, Bool.or_comm]⟩

theorem Named.internValue (hm : m.Named) (hw : w.hasText → m.heap.strings.IsLive w.payload)
    (hok : internValue w m = .ok v m') : m'.Named := by
  rcases internValue_cases w m with ⟨fault, herror, -⟩ | ⟨u, hold, -⟩ | ⟨htext, hnew, hadopt⟩
  · rw [herror] at hok
    cases hok
  · rw [hold] at hok
    cases hok
    exact hm
  · rw [hadopt] at hok
    cases hok
    exact hm.insert hnew ⟨w.payload, rfl, hw htext, rfl⟩

theorem internValue_remembers (hok : internValue w m = .ok v m') :
    m'.symbols.get? (m.heap.strings.read w.payload) = some v ∧ m.Remembers m' := by
  rcases internValue_cases w m with ⟨fault, herror, -⟩ | ⟨u, hold, hget⟩ | ⟨htext, hnew, hadopt⟩
  · rw [herror] at hok
    cases hok
  · rw [hold] at hok
    cases hok
    exact ⟨hget, .refl m⟩
  · rw [hadopt] at hok
    cases hok
    exact ⟨SymbolTable.get?_insert_self .., fun _ _ => SymbolTable.get?_insert_of_get? hnew⟩

/-! ## Instructions -/

inductive Instruction where
  | heap (i : Heap.Instruction)
  | intern (name : ByteArray)
  | internValue (w : Word)

def Instruction.execute : Instruction → Memory → Memory
  | .heap i => fun m => ⟨i.execute m.heap, m.symbols⟩
  | .intern name => after (Memory.intern name)
  | .internValue w => after (Memory.internValue w)

/-- The symbols are among the roots of every collection, and only live strings become symbols. -/
def Instruction.Proper (m : Memory) : Instruction → Prop
  | .heap (.collect extra) => ∀ w ∈ m.symbols.values, w ∈ extra
  | .internValue w => w.hasText → m.heap.strings.IsLive w.payload
  | _ => True

def executeAll : List Instruction → Memory → Memory
  | [], m => m
  | i :: is, m => executeAll is (i.execute m)

def ProperAll : List Instruction → Memory → Prop
  | [], _ => True
  | i :: is, m => i.Proper m ∧ ProperAll is (i.execute m)

/-! ## Steps and runs -/

/-- Neither the strings nor the marks of the cells were touched. -/
def SameTexts (h h' : Heap) : Prop := h'.strings = h.strings ∧ h'.cells.marks = h.cells.marks

theorem sameTexts_cons (a d : Word) (h : Heap) : SameTexts h (after (Heap.cons a d) h) := by
  unfold after
  rw [Heap.cons_apply]
  cases h.cells.next? <;> exact ⟨rfl, rfl⟩

theorem sameTexts_makeClosure (env code : Word) (h : Heap) : SameTexts h (after (Heap.makeClosure env code) h) := by
  unfold after
  rw [Heap.makeClosure_apply]
  cases h.cells.next? <;> exact ⟨rfl, rfl⟩

theorem sameTexts_consAll (items : List Word) (tail : Word) (h : Heap) :
    SameTexts h (after (Heap.consAll items tail) h) := by
  induction items generalizing h tail with
  | nil => exact ⟨rfl, rfl⟩
  | cons item items ih =>
    have hcons := sameTexts_cons item tail h
    obtain ⟨tail', heq | heq⟩ := Heap.after_consAll_cons item items tail h
    · rw [heq]
      exact hcons
    · rw [heq]
      have hrest := ih tail' (after (Heap.cons item tail) h)
      exact ⟨hrest.1.trans hcons.1, hrest.2.trans hcons.2⟩

theorem sameTexts_updatePair (pair : Word) (operation : String) (f : Cell → Cell) (h : Heap) :
    SameTexts h (after (Heap.updatePair pair operation f) h) := by
  unfold after Heap.updatePair
  by_cases hp : pair.isPair <;> simp only [hp] <;> exact ⟨rfl, rfl⟩

theorem Named.sameTexts (hm : m.Named) {h' : Heap} (hsame : SameTexts m.heap h') : Named ⟨h', m.symbols⟩ := by
  refine hm.withHeap (hsame.1 ▸ hm.strings) (hsame.2 ▸ hm.unmarked) fun w _ i _ hlive => ?_
  rw [hsame.1]
  exact ⟨hlive, rfl⟩

theorem Named.makeString (hm : m.Named) (bytes : ByteArray) :
    Named ⟨after (Heap.makeString bytes) m.heap, m.symbols⟩ := by
  unfold after
  rw [Heap.makeString_apply]
  cases hnext : m.heap.strings.next? with
  | none => exact hm
  | some i => exact hm.fill_string hnext bytes

/-- A collection keeps the slots of all symbols, as they are among its roots. -/
theorem Named.collect (hm : m.Named) {extra : List Word} (hextra : ∀ w ∈ m.symbols.values, w ∈ extra) :
    Named ⟨(m.heap.collect extra).2, m.symbols⟩ := by
  have hmarked : ∀ i, m.heap.strings.IsLive i →
      (Heap.Marked (m.heap.markFrom (m.heap.roots.toList ++ extra)).strings i ↔
        m.heap.ReachesText (m.heap.roots.toList ++ extra) i) := by
    intro i hi
    rw [Heap.marked_strings_markFrom hm.unmarked hm.strings.unmarked, and_iff_right hi.lt]
  have hswept := hm.strings.swept hmarked
  have hunmarked : Heap.Clear (m.heap.collect extra).2.cells.marks := fun k => by
    show (Array.replicate m.heap.cells.items.size false).getD k false = false
    rw [Array.getD_eq_getD_getElem?, Array.getElem?_replicate]
    split <;> rfl
  refine hm.withHeap (hm.strings.release_garbage _) hunmarked fun w hw i hi hlive => ?_
  have hreach : m.heap.ReachesText (m.heap.roots.toList ++ extra) i := by
    refine ⟨w, .root (List.mem_append_right _ (hextra w hw)), ?_, ?_⟩
    · rw [hi, Word.hasText_symbol]
    · rw [hi, Word.payload_symbol]
  have hlive' := (hswept.isLive i).2 ⟨hlive, hreach⟩
  exact ⟨hlive', hswept.read_live i hlive'⟩

theorem Named.heapInstruction (hm : m.Named) {i : Heap.Instruction} (hi : (Instruction.heap i).Proper m) :
    Named ⟨i.execute m.heap, m.symbols⟩ := by
  cases i with
  | cons a d => exact hm.sameTexts (sameTexts_cons a d _)
  | makeClosure env code => exact hm.sameTexts (sameTexts_makeClosure env code _)
  | listOf items => exact hm.sameTexts (sameTexts_consAll items.reverse .nil _)
  | makeString bytes => exact hm.makeString bytes
  | setCar pair value | setCdr pair value => exact hm.sameTexts (sameTexts_updatePair _ _ _ _)
  | pushRoot w =>
    obtain ⟨hcells, hstrings⟩ := Heap.after_pushRoot w m.heap
    exact hm.sameTexts ⟨hstrings, congrArg Pool.marks hcells⟩
  | pushRoots v w =>
    obtain ⟨hcells, hstrings⟩ := Heap.after_pushRoots v w m.heap
    exact hm.sameTexts ⟨hstrings, congrArg Pool.marks hcells⟩
  | setRoot position w => exact hm.sameTexts ⟨rfl, rfl⟩
  | truncateRoots depth => exact hm.sameTexts ⟨rfl, rfl⟩
  | collect extra => exact hm.collect hi

/-- One instruction keeps table and strings in agreement and forgets no name. -/
theorem Named.execute (hm : m.Named) {i : Instruction} (hi : i.Proper m) :
    (i.execute m).Named ∧ m.Remembers (i.execute m) := by
  cases i with
  | heap i => exact ⟨hm.heapInstruction hi, .refl m⟩
  | intern name =>
    show (after (Memory.intern name) m).Named ∧ m.Remembers (after (Memory.intern name) m)
    rcases intern_cases name m with ⟨fault, herror⟩ | ⟨w, m', hok, -, hrem⟩
    · rw [after_of_error herror]
      exact ⟨hm, .refl m⟩
    · rw [after_of_ok hok]
      exact ⟨hm.intern hok, hrem⟩
  | internValue w =>
    show (after (Memory.internValue w) m).Named ∧ m.Remembers (after (Memory.internValue w) m)
    rcases internValue_cases w m with ⟨fault, herror, -⟩ | ⟨v, hok, -⟩ | ⟨-, -, hok⟩
    · rw [after_of_error herror]
      exact ⟨hm, .refl m⟩
    · rw [after_of_ok hok]
      exact ⟨hm, .refl m⟩
    · rw [after_of_ok hok]
      exact ⟨hm.internValue hi hok, (internValue_remembers hok).2⟩

/-- A run keeps table and strings in agreement and forgets no name. -/
theorem Named.executeAll (hm : m.Named) {is : List Instruction} (his : ProperAll is m) :
    (executeAll is m).Named ∧ m.Remembers (executeAll is m) := by
  induction is generalizing m with
  | nil => exact ⟨hm, .refl m⟩
  | cons i is ih =>
    obtain ⟨hm', hrem⟩ := hm.execute his.1
    obtain ⟨hm'', hrem'⟩ := ih hm' his.2
    exact ⟨hm'', hrem.trans hrem'⟩

/-! ## Operations -/

/-- The name of each operation has the operation's number as its slot. -/
def Reserved (m : Memory) : Prop :=
  ∀ k entry, Operation.table[k]? = some entry → m.symbols.get? entry.name.toUTF8 = some (.symbol (.ofNat k))

theorem Reserved.remembers (hr : m.Reserved) (hrem : m.Remembers m') : m'.Reserved :=
  fun k entry hk => hrem _ _ (hr k entry hk)

theorem toNat_ofNat_table {k : Nat} {entry : Operation.Entry} (hk : Operation.table[k]? = some entry) :
    (UInt32.ofNat k).toNat = k := by
  obtain ⟨hlt, -⟩ := Array.getElem?_eq_some_iff.1 hk
  have hsize : Operation.table.size = 64 := by decide
  exact Pool.toNat_ofNat (by omega)

/-- The slot of a symbol is the number of an operation exactly if its name is the operation's. -/
theorem Named.entry_iff (hm : m.Named) (hr : m.Reserved) {i : UInt32} (hw : (name, .symbol i) ∈ m.symbols.entries)
    (entry : Operation.Entry) :
    Operation.entry? i = some entry ↔ entry ∈ Operation.table ∧ entry.name.toUTF8 = name := by
  have hget := SymbolTable.get?_of_mem hm.nodup hw
  constructor
  · intro hi
    have hmem := SymbolTable.mem_of_get? (hr i.toNat entry hi)
    rw [UInt32.ofNat_toNat] at hmem
    exact ⟨Array.mem_of_getElem? hi, (hm.eq_iff hmem hw).1 rfl⟩
  · rintro ⟨hmem, rfl⟩
    obtain ⟨k, hk⟩ := Array.getElem?_of_mem hmem
    have hsame := congrArg Word.payload (Option.some_inj.1 ((hr k entry hk).symm.trans hget))
    rw [Word.payload_symbol, Word.payload_symbol] at hsame
    rw [Operation.entry?, ← hsame, toNat_ofNat_table hk]
    exact hk

end Memory

namespace Operation

/-- The special forms come first in the table. -/
theorem isForm_iff {k : Nat} {entry : Entry} (hk : table[k]? = some entry) :
    (∃ f, entry.operation = .form f) ↔ k < formCount := by
  have hall : ∀ k : Fin table.size, (match table[k].operation with | .form _ => true | .primitive _ => false) =
      decide (k.val < formCount) := by decide
  obtain ⟨hlt, rfl⟩ := Array.getElem?_eq_some_iff.1 hk
  have hforms := hall ⟨k, hlt⟩
  rw [Fin.getElem_fin] at hforms
  cases hop : table[k].operation with
  | form f =>
    rw [hop] at hforms
    exact iff_of_true ⟨f, rfl⟩ (of_decide_eq_true hforms.symm)
  | primitive p =>
    rw [hop] at hforms
    refine iff_of_false ?_ (of_decide_eq_false hforms.symm)
    rintro ⟨f, hf⟩
    cases hf

theorem formOf?_symbol (i : UInt32) (f : Form) :
    formOf? (.symbol i) = some f ↔ ∃ entry, entry? i = some entry ∧ entry.operation = .form f := by
  have hsymbol : (Word.symbol i).isSymbol := by simp [Word.isSymbol]
  unfold formOf?
  rw [hsymbol, Bool.true_and, Word.payload_symbol]
  cases hentry : entry? i with
  | none => simp
  | some entry =>
    have hforms := isForm_iff hentry
    by_cases hlt : i.toNat < formCount
    · obtain ⟨g, hg⟩ := hforms.2 hlt
      obtain ⟨operation, name, arity⟩ := entry
      cases hg
      simp [hlt]
    · simp only [hlt, decide_false, Bool.false_eq_true, if_false, reduceCtorEq, false_iff]
      rintro ⟨_, heq, hf⟩
      cases heq
      exact hlt (hforms.1 ⟨f, hf⟩)

theorem procedureOf?_symbol (i : UInt32) (entry : Entry) :
    procedureOf? (.symbol i) = some entry ↔ entry? i = some entry ∧ ∃ p, entry.operation = .primitive p := by
  have hsymbol : (Word.symbol i).isSymbol := by simp [Word.isSymbol]
  unfold procedureOf?
  rw [hsymbol, Bool.true_and, Word.payload_symbol]
  by_cases hle : formCount ≤ i.toNat
  · simp only [hle, decide_true, if_true]
    refine ⟨fun hentry => ⟨hentry, ?_⟩, fun h => h.1⟩
    cases hop : entry.operation with
    | form f => exact absurd ((isForm_iff hentry).1 ⟨f, hop⟩) (Nat.not_lt.2 hle)
    | primitive p => exact ⟨p, rfl⟩
  · simp only [hle, decide_false, Bool.false_eq_true, if_false, reduceCtorEq, false_iff]
    rintro ⟨hentry, p, hp⟩
    obtain ⟨f, hf⟩ := (isForm_iff hentry).2 (Nat.not_le.1 hle)
    rw [hp] at hf
    cases hf

end Operation

/-! ## New machines -/

theorem Memory.named_fresh (cells strings roots : Nat) : (Memory.fresh cells strings roots).Named where
  strings := (Heap.sound_fresh cells strings roots).strings
  unmarked := (Heap.sound_fresh cells strings roots).cells.unmarked
  entry := by simp [Memory.fresh]
  nodup := by simp [Memory.fresh]

/-- Names that are interned one after another get the slots that were asked for. -/
theorem internNames_named {entries : List Operation.Entry} {id : Nat} {m m' : Machine} (hm : m.toMemory.Named)
    (h : internNames id entries m = .ok () m') :
    m'.toMemory.Named ∧ m.toMemory.Remembers m'.toMemory ∧ ∀ k entry, entries[k]? = some entry →
      m'.symbols.get? entry.name.toUTF8 = some (.symbol (.ofNat (id + k))) := by
  induction entries generalizing id m with
  | nil =>
    cases h
    exact ⟨hm, .refl _, by simp⟩
  | cons entry entries ih =>
    change EStateM.bind (Eval.onMemory (Memory.intern entry.name.toUTF8)) _ m = _ at h
    unfold EStateM.bind Eval.onMemory at h
    rcases Memory.intern_cases entry.name.toUTF8 m.toMemory with ⟨fault, herror⟩ | ⟨w, mem, hok, hget, hrem⟩
    · rw [herror] at h
      cases h
    · rw [hok] at h
      by_cases hid : w.payload.toNat = id
      · simp only [if_pos hid] at h
        have hmem := hm.intern hok
        obtain ⟨hm', hrem', hnames⟩ := ih (m := { m with toMemory := mem }) hmem h
        refine ⟨hm', hrem.trans hrem', fun k other hk => ?_⟩
        cases k with
        | zero =>
          cases hk
          obtain ⟨i, rfl, -, -⟩ := hmem.names hget
          rw [Word.payload_symbol] at hid
          rw [Nat.add_zero, ← hid, UInt32.ofNat_toNat]
          exact hrem' _ _ hget
        | succ k =>
          rw [Nat.add_comm k 1, ← Nat.add_assoc]
          exact hnames k other hk
      · simp only [if_neg hid] at h
        cases h

/-- In the memory of a new machine the operations have their numbers. -/
theorem create_named {config : Config} {terminal : Terminal} {files : Files} {m : Machine}
    (h : Machine.create config terminal files = .ok m) : m.toMemory.Named ∧ m.toMemory.Reserved := by
  unfold Machine.create at h
  dsimp only at h
  split at h
  next env m' hinit =>
    cases h
    change EStateM.bind (internNames 0 Operation.table.toList) (fun _ => Eval.cons .nil .nil) _ = _ at hinit
    unfold EStateM.bind at hinit
    cases hnames : internNames 0 Operation.table.toList _ with
    | error e m₁ =>
      rw [hnames] at hinit
      cases hinit
    | ok _ m₁ =>
      rw [hnames] at hinit
      obtain ⟨hm₁, -, hslots⟩ := internNames_named (Memory.named_fresh ..) hnames
      have hr₁ : m₁.toMemory.Reserved := fun k entry hk => by
        have hslot := hslots k entry (by rw [Array.getElem?_toList]; exact hk)
        rwa [Nat.zero_add] at hslot
      change Eval.onHeap (Heap.cons .nil .nil) m₁ = _ at hinit
      have hcons := hm₁.sameTexts (Memory.sameTexts_cons .nil .nil m₁.heap)
      unfold Eval.onHeap at hinit
      cases hres : Heap.cons .nil .nil m₁.heap with
      | error e h₂ =>
        rw [hres] at hinit
        cases hinit
      | ok pair h₂ =>
        rw [hres] at hinit
        rw [after_of_ok hres] at hcons
        cases hinit
        exact ⟨hcons, hr₁⟩
  next => cases h

/-! ## Identity -/

/-- Symbols stand for their names. -/
structure Memory.Distinguishes (m : Memory) : Prop where
  /-- A symbol of the table is a live slot that holds its name. -/
  entry : ∀ name w, (name, w) ∈ m.symbols.entries → Names m.heap name w
  /-- Equal words are equal names. -/
  eq_iff : ∀ name v other w, (name, v) ∈ m.symbols.entries → (other, w) ∈ m.symbols.entries → (v = w ↔ name = other)
  /-- The first slots hold the names of the operations in the order of the table. -/
  reserved : ∀ k entry, Operation.table[k]? = some entry →
    m.symbols.get? entry.name.toUTF8 = some (.symbol (.ofNat k)) ∧
      m.heap.strings.IsLive (.ofNat k) ∧ m.heap.strings.read (.ofNat k) = entry.name.toUTF8
  /-- A symbol is taken for a special form exactly if it has the name of one. -/
  form : ∀ name w, (name, w) ∈ m.symbols.entries → ∀ f, Operation.formOf? w = some f ↔
    ∃ entry ∈ Operation.table, entry.operation = .form f ∧ entry.name.toUTF8 = name
  /-- A symbol is taken for a procedure exactly if it has the name of one. -/
  procedure : ∀ name w, (name, w) ∈ m.symbols.entries → ∀ entry, Operation.procedureOf? w = some entry ↔
    entry ∈ Operation.table ∧ (∃ p, entry.operation = .primitive p) ∧ entry.name.toUTF8 = name

theorem Memory.Named.distinguishes {m : Memory} (hm : m.Named) (hr : m.Reserved) : m.Distinguishes where
  entry := hm.entry
  eq_iff _ _ _ _ hv hw := hm.eq_iff hv hw
  reserved k entry hk := by
    obtain ⟨i, heq, hlive, hread⟩ := hm.names (hr k entry hk)
    have hi := congrArg Word.payload heq
    rw [Word.payload_symbol, Word.payload_symbol] at hi
    rw [hi]
    exact ⟨heq ▸ hr k entry hk, hlive, hread⟩
  form name w hw f := by
    obtain ⟨i, rfl, -, -⟩ := hm.entry name w hw
    rw [Operation.formOf?_symbol]
    refine exists_congr fun entry => ?_
    rw [hm.entry_iff hr hw, and_assoc, and_comm (a := entry.name.toUTF8 = name)]
  procedure name w hw entry := by
    obtain ⟨i, rfl, -, -⟩ := hm.entry name w hw
    rw [Operation.procedureOf?_symbol, hm.entry_iff hr hw, and_assoc, and_comm (a := entry.name.toUTF8 = name)]

/-- Whatever is done with the memory of a new machine, as long as the symbols are roots of every collection and only
live strings become symbols: symbols stand for their names, a symbol that was given to a name once is given to it
forever, and interning that fails changes nothing. -/
theorem executeAll_identity {config : Config} {terminal : Terminal} {files : Files} {m₀ : Machine}
    (hm₀ : Machine.create config terminal files = .ok m₀) (is : List Memory.Instruction)
    (his : Memory.ProperAll is m₀.toMemory) :
    let m := Memory.executeAll is m₀.toMemory
    m.Distinguishes ∧
      (∀ name w, m.symbols.get? name = some w → ∀ more, Memory.ProperAll more m →
        Memory.intern name (Memory.executeAll more m) = .ok w (Memory.executeAll more m)) ∧
      (∀ name, (∃ fault, Memory.intern name m = .error fault m) ∨
        ∃ w m', Memory.intern name m = .ok w m' ∧ m'.symbols.get? name = some w) ∧
      ∀ value, (∃ fault, Memory.internValue value m = .error fault m) ∨
        ∃ w m', Memory.internValue value m = .ok w m' ∧
          m'.symbols.get? (m.heap.strings.read value.payload) = some w := by
  intro m
  obtain ⟨hnamed₀, hreserved₀⟩ := create_named hm₀
  obtain ⟨hnamed, hrem⟩ := hnamed₀.executeAll his
  refine ⟨hnamed.distinguishes (hreserved₀.remembers hrem), fun name w hw more hmore => ?_, fun name => ?_,
    fun value => ?_⟩
  · exact Memory.intern_of_get? ((hnamed.executeAll hmore).2 name w hw)
  · rcases Memory.intern_cases name m with herror | ⟨w, m', hok, hget, -⟩
    · exact .inl herror
    · exact .inr ⟨w, m', hok, hget⟩
  · rcases Memory.internValue_cases value m with ⟨fault, herror, -⟩ | ⟨w, hok, -⟩ | ⟨-, -, hok⟩
    · exact .inl ⟨fault, herror⟩
    · exact .inr ⟨w, m, hok, (Memory.internValue_remembers hok).1⟩
    · exact .inr ⟨_, _, hok, (Memory.internValue_remembers hok).1⟩

/-- A new name, the symbol of `define` once more as a value, and a collection with nothing but the symbols as further
roots. -/
theorem executeAll_identity_define :
    ∃ m₀, Machine.create { cells := 64, strings := 72, roots := 32 } .capturing {} = .ok m₀ ∧
      let interned := Memory.executeAll [.intern "twin".toUTF8, .internValue (.symbol 7)] m₀.toMemory
      let is : List Memory.Instruction :=
        [.intern "twin".toUTF8, .internValue (.symbol 7), .heap (.collect interned.symbols.values)]
      Memory.ProperAll is m₀.toMemory ∧ (Memory.executeAll is m₀.toMemory).Distinguishes := by
  have hok : (Machine.create { cells := 64, strings := 72, roots := 32 } .capturing {}).toBool := by decide +kernel
  cases hm₀ : Machine.create { cells := 64, strings := 72, roots := 32 } .capturing {} with
  | error e =>
    rw [hm₀] at hok
    cases hok
  | ok m₀ =>
    obtain ⟨hnamed, hreserved⟩ := create_named hm₀
    obtain ⟨hnamed', hrem⟩ := hnamed.execute (i := .intern "twin".toUTF8) trivial
    have hdefine := (hnamed'.distinguishes (hreserved.remembers hrem)).reserved 7 _ rfl
    have hproper : Memory.ProperAll [.intern "twin".toUTF8, .internValue (.symbol 7), .heap (.collect
        (Memory.executeAll [.intern "twin".toUTF8, .internValue (.symbol 7)] m₀.toMemory).symbols.values)]
        m₀.toMemory :=
      ⟨trivial, fun _ => hdefine.2.1, fun w hw => hw, trivial⟩
    exact ⟨m₀, rfl, hproper, (executeAll_identity hm₀ _ hproper).1⟩

end BoxedScheme
