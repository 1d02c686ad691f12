import BoxedScheme.Proofs.Room
import BoxedScheme.Proofs.Scanning
import BoxedScheme.Reader

/-!
# What is written reads back

The text of a datum reads as the datum, in any memory with room for it.

* `Heap.Represents.mono` : memory that keeps what is live keeps the data in it;
* `Datum.demand` : the slots that a datum takes;
* `Reader.Reads`, `Reader.reads_readsTail` : the tokens of a datum, whatever is open, build the datum and hand it on;
* `read_write` : writing and reading.
-/

namespace BoxedScheme

/-! ## Data in memory -/

section Represents

variable {h h' : Heap} {w : Word}

theorem Heap.Holds.mono (hstrings : h.strings.KeptBy h'.strings) {i : UInt32} {text : String} (hi : h.Holds i text) :
    h'.Holds i text := by
  obtain ⟨hlive, hread⟩ := hstrings i hi.1
  exact ⟨hlive, hread.trans hi.2⟩

theorem Heap.RepresentsAtom.mono (hstrings : h.strings.KeptBy h'.strings) {a : Atom} (hw : h.RepresentsAtom w a) :
    h'.RepresentsAtom w a := by
  cases a with
  | boolean b => exact hw
  | char c => exact hw
  | number x => exact hw
  | string s =>
    obtain ⟨i, rfl, hi⟩ := hw
    exact ⟨i, rfl, hi.mono hstrings⟩
  | symbol name =>
    obtain ⟨i, rfl, hi⟩ := hw
    exact ⟨i, rfl, hi.mono hstrings⟩

theorem Heap.Represents.mono (hcells : h.cells.KeptBy h'.cells) (hstrings : h.strings.KeptBy h'.strings) {d : Datum}
    (hw : h.Represents w d) : h'.Represents w d := by
  induction d generalizing w with
  | nil => exact hw
  | atom a => exact RepresentsAtom.mono hstrings hw
  | pair a d iha ihd =>
    obtain ⟨i, rfl, hlive, hcar, hcdr⟩ := hw
    obtain ⟨hlive', hread⟩ := hcells i hlive
    refine ⟨i, rfl, hlive', ?_, ?_⟩
    · rw [hread]
      exact iha hcar
    · rw [hread]
      exact ihd hcdr

theorem Memory.Takes.represents {m m' : Memory} {n : Demand} (ht : m.Takes m' n) {d : Datum}
    (hw : m.heap.Represents w d) : m'.heap.Represents w d :=
  hw.mono ht.cells ht.strings

end Represents

/-! ## Demands of data -/

/-- The atom that a token spells. A number is the one that is stored for it. -/
def Token.atom? : Token → Option Atom
  | .boolean b => some (.boolean b)
  | .char c => some (.char c)
  | .number x => some (.number ⟨(Word.number x).bits⟩)
  | .string s => some (.string s)
  | .symbol name => some (.symbol name)
  | _ => none

theorem Atom.atom?_token {a : Atom} (ha : a.Writable) : a.token.atom? = some a := by
  cases a with
  | number x => rw [token, Token.atom?, Word.number_of_isNaN ha.1]
  | boolean | char | string | symbol => rfl

def Atom.demand : Atom → Demand
  | string _ => { strings := 1 }
  | symbol name => { names := {name} }
  | _ => 0

namespace Datum

/-- A cell for each pair, a slot for each string, and the symbols. -/
def demand : Datum → Demand
  | nil => 0
  | atom a => a.demand
  | pair a d => .ofPairs 1 + a.demand + d.demand

/-- Elements, the last one first, in front of a tail. -/
def onto : List Datum → Datum → Datum
  | [], d => d
  | a :: ds, d => onto ds (pair a d)

end Datum

/-! ## Building lists -/

theorem Memory.onHeap_consAll_cons (item : Word) (items : List Word) (tail : Word) (m : Memory) :
    onHeap (Heap.consAll (item :: items) tail) m = match onHeap (Heap.cons item tail) m with
      | .error fault m => .error fault m
      | .ok pair m => onHeap (Heap.consAll items pair) m := by
  obtain ⟨h, symbols⟩ := m
  unfold onHeap
  dsimp only
  rw [Heap.consAll_cons_apply]
  cases Heap.cons item tail h <;> rfl

/-- The elements of a list, the last one first, were put in front of its tail. -/
structure Memory.Builds (m m' : Memory) (items : List Word) (tail w : Word) : Prop where
  takes : m.Takes m' (.ofPairs items.length)
  represents : ∀ ds d, List.Forall₂ m.heap.Represents items ds → m.heap.Represents tail d →
    m'.heap.Represents w (Datum.onto ds d)

theorem Memory.Sound.consAll {m : Memory} (hm : m.Sound) {items : List Word}
    (hroom : m.Provides (.ofPairs items.length)) (tail : Word) :
    ∃ w m', onHeap (Heap.consAll items tail) m = .ok w m' ∧ m.Builds m' items tail w := by
  induction items generalizing m tail with
  | nil =>
    refine ⟨tail, m, rfl, hm.takes_zero, ?_⟩
    rintro ds d (_ | _) htail
    exact htail
  | cons item items ih =>
    have hsplit : Demand.ofPairs (item :: items).length = .ofPairs 1 + .ofPairs items.length := by
      ext1 <;> simp [Demand.ofPairs, Nat.add_comm]
    rw [hsplit] at hroom
    obtain ⟨i, m₁, hcons, htakes₁, hlive, hread⟩ := hm.cons hroom.left item tail
    obtain ⟨w, m₂, hrest, htakes₂, hlist⟩ := ih htakes₁.sound (htakes₁.provides hroom) (.pair i)
    refine ⟨w, m₂, ?_, hsplit ▸ htakes₁.trans htakes₂, ?_⟩
    · rw [onHeap_consAll_cons, hcons]
      exact hrest
    · intro ds d hitems htail
      obtain ⟨a, ds, ha, hds, rfl⟩ := List.forall₂_cons_left_iff.1 hitems
      refine hlist ds (.pair a d) (hds.imp fun _ _ => htakes₁.represents) ⟨i, rfl, hlive, ?_, ?_⟩
      · rw [hread]
        exact htakes₁.represents ha
      · rw [hread]
        exact htakes₁.represents htail

/-! ## Reading -/

namespace Reader

variable {m m' : Memory} {frames : List Frame} {lexeme : Lexeme} {rest : List Lexeme}

/-- A finished datum is handed to the innermost frame, and reading goes on. -/
def handOn (frames : List Frame) (start : Location) (datum : Word) (rest : List Lexeme) (m : Memory) :
    (Except Error Word × List Lexeme) × Memory :=
  match complete frames start datum m with
  | .error fault m => ((.error (.ofFault fault), rest), m)
  | .ok (.failed error) m => ((.error (.read error), rest), m)
  | .ok (.done datum) m => ((.ok datum, rest), m)
  | .ok (.more frames) m => readTokens frames rest m

theorem readTokens_of_complete (htoken : lexeme.token ≠ .endOfFile) {start : Location} {w : Word}
    (hshift : shift frames lexeme m = complete frames start w m') :
    readTokens frames (lexeme :: rest) m = handOn frames start w rest m' := by
  rw [readTokens, hshift, behind, if_neg htoken]
  rfl

theorem readTokens_of_more {frames' : List Frame} (hshift : shift frames lexeme m = .ok (.more frames') m') :
    readTokens frames (lexeme :: rest) m = readTokens frames' rest m' := by
  rw [readTokens, hshift]

/-- A token that is an atom. -/
theorem shift_atom {a : Atom} (htoken : lexeme.token.atom? = some a) (hdepth : frames.length ≤ maxDepth)
    (hm : m.Sound) (hroom : m.Provides a.demand) :
    ∃ w m', shift frames lexeme m = complete frames lexeme.location w m' ∧ m.Takes m' a.demand ∧
      m'.heap.RepresentsAtom w a := by
  unfold shift
  rw [if_neg (Nat.not_lt.2 hdepth)]
  cases hlexeme : lexeme.token with
  | leftParen | rightParen | dot | quote | endOfFile =>
    rw [hlexeme] at htoken
    cases htoken
  | boolean | number | char =>
    rw [hlexeme] at htoken
    cases htoken
    exact ⟨_, m, rfl, hm.takes_zero, rfl⟩
  | string s =>
    rw [hlexeme] at htoken
    cases htoken
    obtain ⟨i, m', hmake, htakes, hlive, hread⟩ := hm.makeString hroom s
    refine ⟨_, m', ?_, htakes, i, rfl, hlive, hread⟩
    show EStateM.bind _ _ m = _
    rw [EStateM.bind, hmake]
  | symbol name =>
    rw [hlexeme] at htoken
    cases htoken
    obtain ⟨i, m', hintern, htakes, hlive, hread⟩ := hm.intern name hroom
    refine ⟨_, m', ?_, htakes, i, rfl, hlive, hread⟩
    show EStateM.bind _ _ m = _
    rw [EStateM.bind, hintern]

theorem readTokens_atom (rest : List Lexeme) {a : Atom} (htoken : lexeme.token.atom? = some a)
    (hdepth : frames.length ≤ maxDepth) (hm : m.Sound) (hroom : m.Provides a.demand) :
    ∃ w m', readTokens frames (lexeme :: rest) m = handOn frames lexeme.location w rest m' ∧ m.Takes m' a.demand ∧
      m'.heap.RepresentsAtom w a := by
  obtain ⟨w, m', hshift, htakes, hw⟩ := shift_atom htoken hdepth hm hroom
  have heof : lexeme.token ≠ .endOfFile := by
    intro hend
    rw [hend] at htoken
    cases htoken
  exact ⟨w, m', readTokens_of_complete heof hshift, htakes, hw⟩

theorem readTokens_leftParen (htoken : lexeme.token = .leftParen) (hdepth : frames.length ≤ maxDepth) :
    readTokens frames (lexeme :: rest) m = readTokens (.list lexeme.location [] :: frames) rest m := by
  apply readTokens_of_more
  unfold shift
  rw [if_neg (Nat.not_lt.2 hdepth), htoken]
  rfl

theorem readTokens_dot (htoken : lexeme.token = .dot) (hdepth : frames.length < maxDepth) (start : Location) (item : Word)
    (items : List Word) : readTokens (.list start (item :: items) :: frames) (lexeme :: rest) m =
      readTokens (.dotted start (item :: items) lexeme.location :: frames) rest m := by
  have hlength : (Frame.list start (item :: items) :: frames).length ≤ maxDepth := hdepth
  apply readTokens_of_more
  unfold shift
  rw [if_neg (Nat.not_lt.2 hlength), htoken]
  rfl

/-- A closing parenthesis behind the last element, or behind the dotted tail, builds the list. -/
theorem readTokens_rightParen (rest : List Lexeme) (htoken : lexeme.token = .rightParen) (hdepth : frames.length < maxDepth) (hm : m.Sound)
    {start : Location} {items : List Word} {tail : Word} {frame : Frame}
    (hframe : frame = .closing start items tail ∨ frame = .list start items ∧ tail = .nil)
    (hroom : m.Provides (.ofPairs items.length)) :
    ∃ w m', readTokens (frame :: frames) (lexeme :: rest) m = handOn frames start w rest m' ∧
      m.Builds m' items tail w := by
  obtain ⟨w, m', hcons, hbuilds⟩ := hm.consAll hroom tail
  have hlength : (frame :: frames).length ≤ maxDepth := hdepth
  refine ⟨w, m', ?_, hbuilds⟩
  have hshift : shift (frame :: frames) lexeme m = complete frames start w m' := by
    unfold shift
    rw [if_neg (Nat.not_lt.2 hlength), htoken]
    obtain rfl | ⟨rfl, rfl⟩ := hframe
    · show EStateM.bind _ _ m = _
      rw [EStateM.bind, hcons]
    · show EStateM.bind _ _ m = _
      rw [EStateM.bind, hcons]
  rw [readTokens, hshift, behind, if_neg (by rw [htoken]; exact Token.noConfusion)]
  rfl

/-! ### Data -/

/-- Whatever is open, the lexemes build the datum and hand it on. -/
def Reads (lexemes : List Lexeme) (d : Datum) : Prop :=
  ∀ frames rest m, frames.length + d.nesting < maxDepth → m.Sound → m.Provides d.demand →
    ∃ start w m', readTokens frames (lexemes ++ rest) m = handOn frames start w rest m' ∧ m.Takes m' d.demand ∧
      m'.heap.Represents w d

/-- Behind the first elements of a list, the lexemes build the list that goes on with the datum and hand it on. -/
def ReadsTail (lexemes : List Lexeme) (d : Datum) : Prop :=
  ∀ frames rest m start item items, frames.length + d.nesting < maxDepth → m.Sound →
    m.Provides (d.demand + .ofPairs (item :: items).length) →
    ∃ w m', readTokens (.list start (item :: items) :: frames) (lexemes ++ rest) m = handOn frames start w rest m' ∧
      m.Takes m' (d.demand + .ofPairs (item :: items).length) ∧
      ∀ ds, List.Forall₂ m.heap.Represents (item :: items) ds → m'.heap.Represents w (Datum.onto ds d)

section Data

variable {a : Atom} {c d : Datum} {first second third : Lexeme} {lexemes lexemes' : List Lexeme}

theorem handOn_list (start loc : Location) (items : List Word) (w : Word) :
    handOn (.list start items :: frames) loc w rest m = readTokens (.list start (w :: items) :: frames) rest m := rfl

theorem handOn_dotted (start loc dot : Location) (items : List Word) (w : Word) :
    handOn (.dotted start items dot :: frames) loc w rest m = readTokens (.closing start items w :: frames) rest m := rfl

theorem reads_nil (hfirst : first.token = .leftParen) (hsecond : second.token = .rightParen) :
    Reads [first, second] .nil := by
  intro frames rest m hdepth hm hroom
  obtain ⟨w, m', hclose, hbuilds⟩ := readTokens_rightParen rest hsecond hdepth hm
    (.inr ⟨rfl, rfl⟩ : Frame.list first.location [] = .closing first.location [] .nil ∨ _) hroom
  refine ⟨first.location, w, m', ?_, hbuilds.takes, hbuilds.represents [] .nil .nil rfl⟩
  exact (readTokens_leftParen hfirst (Nat.le_of_lt hdepth)).trans hclose

theorem reads_atom (ha : a.Writable) (hfirst : first.token = a.token) : Reads [first] (.atom a) := by
  intro frames rest m hdepth hm hroom
  obtain ⟨w, m', hread, htakes, hw⟩ :=
    readTokens_atom rest (hfirst ▸ Atom.atom?_token ha) (Nat.le_of_lt hdepth) hm hroom
  exact ⟨first.location, w, m', hread, htakes, hw⟩

theorem reads_pair (hfirst : first.token = .leftParen) (hcar : Reads lexemes c) (hcdr : ReadsTail lexemes' d) :
    Reads (first :: (lexemes ++ lexemes')) (.pair c d) := by
  intro frames rest m hdepth hm hroom
  simp only [Datum.nesting] at hdepth
  rw [Datum.demand, Demand.ofPairs_one_add] at hroom
  have hinside : (Frame.list first.location [] :: frames).length + c.nesting < maxDepth := by
    rw [List.length_cons]
    omega
  obtain ⟨start, v, m₁, hread₁, htakes₁, hv⟩ := hcar _ (lexemes' ++ rest) m hinside hm hroom.left
  obtain ⟨w, m₂, hread₂, htakes₂, hw⟩ :=
    hcdr frames rest m₁ first.location v [] (by omega) htakes₁.sound (htakes₁.provides hroom)
  refine ⟨first.location, w, m₂, ?_, ?_, hw [c] (.cons hv .nil)⟩
  · rw [List.cons_append, List.append_assoc, readTokens_leftParen hfirst (by omega), hread₁, handOn_list, hread₂]
  · rw [Datum.demand, Demand.ofPairs_one_add]
    exact htakes₁.trans htakes₂

theorem readsTail_nil (hfirst : first.token = .rightParen) : ReadsTail [first] .nil := by
  intro frames rest m start item items hdepth hm hroom
  rw [Datum.demand, Demand.zero_add_ofPairs] at hroom ⊢
  obtain ⟨w, m', hclose, hbuilds⟩ := readTokens_rightParen rest hfirst hdepth hm
    (.inr ⟨rfl, rfl⟩ : Frame.list start (item :: items) = .closing start (item :: items) .nil ∨ _) hroom
  exact ⟨w, m', hclose, hbuilds.takes, fun ds hds => hbuilds.represents ds .nil hds rfl⟩

theorem readsTail_atom (ha : a.Writable) (hfirst : first.token = .dot) (hsecond : second.token = a.token)
    (hthird : third.token = .rightParen) : ReadsTail [first, second, third] (.atom a) := by
  intro frames rest m start item items hdepth hm hroom
  rw [Datum.demand] at hroom ⊢
  obtain ⟨tail, m₁, hread, htakes, htail⟩ := readTokens_atom (third :: rest) (hsecond ▸ Atom.atom?_token ha)
    (show (Frame.dotted start (item :: items) first.location :: frames).length ≤ maxDepth from hdepth) hm hroom.left
  obtain ⟨w, m₂, hclose, hbuilds⟩ := readTokens_rightParen rest hthird hdepth htakes.sound
    (.inl rfl : Frame.closing start (item :: items) tail = .closing start (item :: items) tail ∨ _) (htakes.provides hroom)
  refine ⟨w, m₂, ?_, htakes.trans hbuilds.takes, ?_⟩
  · rw [handOn_dotted, hclose] at hread
    exact (readTokens_dot hfirst hdepth start item items).trans hread
  · intro ds hds
    exact hbuilds.represents ds (.atom a) (hds.imp fun _ _ => htakes.represents) htail

theorem readsTail_pair (hcar : Reads lexemes c) (hcdr : ReadsTail lexemes' d) :
    ReadsTail (lexemes ++ lexemes') (.pair c d) := by
  intro frames rest m start item items hdepth hm hroom
  simp only [Datum.nesting] at hdepth
  rw [Datum.demand, Demand.add_ofPairs_succ] at hroom ⊢
  have hinside : (Frame.list start (item :: items) :: frames).length + c.nesting < maxDepth := by
    rw [List.length_cons]
    omega
  obtain ⟨loc, v, m₁, hread₁, htakes₁, hv⟩ := hcar _ (lexemes' ++ rest) m hinside hm hroom.left
  obtain ⟨w, m₂, hread₂, htakes₂, hw⟩ :=
    hcdr frames rest m₁ start v (item :: items) (by omega) htakes₁.sound (htakes₁.provides hroom)
  refine ⟨w, m₂, ?_, htakes₁.trans htakes₂, ?_⟩
  · rw [List.append_assoc, hread₁, handOn_list, hread₂]
  · intro ds hds
    exact hw (c :: ds) (.cons hv (hds.imp fun _ _ => htakes₁.represents))

/-- The tokens of a datum read as the datum, and those of a list behind an element as the rest of the list. -/
theorem reads_readsTail (d : Datum) (hd : d.Writable) :
    (∀ lexemes, lexemes.map Lexeme.token = d.tokens → Reads lexemes d) ∧
      ∀ lexemes, lexemes.map Lexeme.token = d.tailTokens → ReadsTail lexemes d := by
  induction d with
  | nil =>
    constructor
    · intro lexemes htokens
      obtain ⟨first, _, rfl, hfirst, htokens⟩ := List.map_eq_cons_iff.1 htokens
      obtain ⟨second, _, rfl, hsecond, htokens⟩ := List.map_eq_cons_iff.1 htokens
      obtain rfl := List.map_eq_nil_iff.1 htokens
      exact reads_nil hfirst hsecond
    · intro lexemes htokens
      obtain ⟨first, _, rfl, hfirst, htokens⟩ := List.map_eq_cons_iff.1 htokens
      obtain rfl := List.map_eq_nil_iff.1 htokens
      exact readsTail_nil hfirst
  | atom a =>
    constructor
    · intro lexemes htokens
      obtain ⟨first, _, rfl, hfirst, htokens⟩ := List.map_eq_cons_iff.1 htokens
      obtain rfl := List.map_eq_nil_iff.1 htokens
      exact reads_atom hd hfirst
    · intro lexemes htokens
      obtain ⟨first, _, rfl, hfirst, htokens⟩ := List.map_eq_cons_iff.1 htokens
      obtain ⟨second, _, rfl, hsecond, htokens⟩ := List.map_eq_cons_iff.1 htokens
      obtain ⟨third, _, rfl, hthird, htokens⟩ := List.map_eq_cons_iff.1 htokens
      obtain rfl := List.map_eq_nil_iff.1 htokens
      exact readsTail_atom hd hfirst hsecond hthird
  | pair c d ihc ihd =>
    obtain ⟨-, hc, hd⟩ := hd
    constructor
    · intro lexemes htokens
      obtain ⟨first, _, rfl, hfirst, htokens⟩ := List.map_eq_cons_iff.1 htokens
      obtain ⟨as, ds, rfl, has, hds⟩ := List.map_eq_append_iff.1 htokens
      exact reads_pair hfirst ((ihc hc).1 as has) ((ihd hd).2 ds hds)
    · intro lexemes htokens
      obtain ⟨as, ds, rfl, has, hds⟩ := List.map_eq_append_iff.1 htokens
      exact readsTail_pair ((ihc hc).1 as has) ((ihd hd).2 ds hds)

end Data

end Reader

/-! ## Writing and reading -/

/-- What is written reads back: a datum within the limits of the writer is written as a text that reads, in any memory
with room for it, as the same datum, and nothing of the text is left. -/
theorem read_write {h : Heap} {w : Word} {d : Datum} {m : Memory} (hw : h.Represents w d) (hd : d.Writable)
    (hnesting : d.nesting ≤ Printer.maxDepth) (hm : m.Sound) (hroom : m.Provides d.demand) :
    ∃ r, Reader.ofSource (h.write w) = .ok r ∧ ∃ w' r' m', r.read m = ((.ok w', r'), m') ∧
      r'.pending.map Lexeme.token = [.endOfFile] ∧ m'.heap.Represents w' d := by
  obtain ⟨lexemes, htokenize, htokens⟩ := tokenize_chars hd
  have hsource : Reader.ofSource (h.write w) = .ok { pending := lexemes.toList } := by
    rw [write_eq hd hnesting hw, Reader.ofSource, htokenize]
  refine ⟨_, hsource, ?_⟩
  obtain ⟨datum, rest, hsplit, hdatum, hrest⟩ := List.map_eq_append_iff.1 htokens
  have hdepth : ([] : List Reader.Frame).length + d.nesting < Reader.maxDepth := by
    simp only [Printer.maxDepth, Reader.maxDepth, List.length_nil] at hnesting ⊢
    omega
  obtain ⟨start, w', m', hread, -, hw'⟩ := (Reader.reads_readsTail d hd).1 datum hdatum [] rest m hdepth hm hroom
  have hresult : Reader.read ⟨lexemes.toList, .start⟩ m =
      ((.ok w', ⟨rest, Reader.nextLocation ⟨lexemes.toList, .start⟩⟩), m') := by
    rw [Reader.read, hsplit, hread]
    rfl
  exact ⟨w', _, m', hresult, hrest, hw'⟩

/-- `(a #\space . "b\n")`. -/
def dotted : Datum := .pair (.atom (.symbol "a")) (.pair (.atom (.char ' ')) (.atom (.string "b\n")))

def dottedCells : List Heap.Instruction :=
  [.makeString "a".toUTF8, .makeString "b\n".toUTF8, .cons (.char ' ') (.string 1), .cons (.symbol 0) (.pair 0)]

/-- The list in a full heap, read into one that it fills. -/
theorem read_write_dotted :
    let h := Heap.executeAll dottedCells (.fresh 2 2 0)
    let m := Memory.fresh 2 2 0
    h.Represents (.pair 1) dotted ∧ dotted.Writable ∧ m.Sound ∧ m.Provides dotted.demand ∧
      ∃ r, Reader.ofSource (h.write (.pair 1)) = .ok r ∧ ∃ w' r' m', r.read m = ((.ok w', r'), m') ∧
        r'.pending.map Lexeme.token = [.endOfFile] ∧ m'.heap.Represents w' dotted := by
  intro h m
  have hw : h.Represents (.pair 1) dotted := by decide +kernel
  have hscans : Scans ['a'] [.symbol "a"] := scans_atom (by decide) (by decide) (by simp) rfl
  have ha : StandsAlone "a" := standsAlone_iff.2 hscans
  have hd : dotted.Writable := ⟨by decide, ha, by decide, trivial, trivial⟩
  have hm : m.Sound := ⟨Heap.sound_fresh 2 2 0, Memory.named_fresh 2 2 0⟩
  have hroom : m.Provides dotted.demand := by decide +kernel
  exact ⟨hw, hd, hm, hroom, read_write hw hd (by decide) hm hroom⟩

end BoxedScheme
