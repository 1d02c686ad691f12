import BoxedScheme.Proofs.Costs
import BoxedScheme.Proofs.RoundTrip

/-!
# The grammar of data

What a reader accepts, said without a reader: a datum is an atom, a list, a list with a dotted tail, or a quoted datum.

* `Derives n ts d` : the tokens `ts` spell the datum `d`, with no token inside more than `n` lists and quotes;
* `reads_derives` : whatever is open, tokens that spell a datum build it and hand it on, unless memory runs out;
* `Reader.Opens frames ts` : the tokens `ts` have left these frames open;
* `readTokens_derives` : where a reader answers a datum, it has taken tokens that spell one;
* `read_grammar` : the reader accepts the grammar, and nothing else.
-/

namespace BoxedScheme

/-! ## The grammar -/

/-- A quoted datum is a list of the symbol `quote` and the datum. -/
def Datum.quoted (d : Datum) : Datum := .pair (.atom (.symbol "quote")) (.pair d .nil)

def Datum.pairs : Datum → Nat
  | .pair a d => a.pairs + d.pairs + 1
  | _ => 0

mutual

/-- The tokens spell the datum, and each of them lies inside at most `n` lists and quotes. The parentheses and the dot
of a list lie inside that list, but for the first. -/
inductive Derives : Nat → List Token → Datum → Prop where
  | atom {n : Nat} {t : Token} {a : Atom} : t.atom? = some a → Derives n [t] (.atom a)
  | list {n : Nat} {ts : List Token} {ds : List Datum} : DerivesAll n ts ds →
    Derives (n + 1) (.leftParen :: (ts ++ [.rightParen])) (ds.foldr .pair .nil)
  | dotted {n : Nat} {ts us : List Token} {ds : List Datum} {d : Datum} : DerivesAll n ts ds → ds ≠ [] →
    Derives n us d → Derives (n + 1) (.leftParen :: (ts ++ .dot :: (us ++ [.rightParen]))) (ds.foldr .pair d)
  | quote {n : Nat} {ts : List Token} {d : Datum} : Derives n ts d → Derives (n + 1) (.quote :: ts) d.quoted

/-- The tokens spell the data, one after another. -/
inductive DerivesAll : Nat → List Token → List Datum → Prop where
  | nil {n : Nat} : DerivesAll n [] []
  | snoc {n : Nat} {ts us : List Token} {ds : List Datum} {d : Datum} : DerivesAll n ts ds → Derives n us d →
    DerivesAll n (ts ++ us) (ds ++ [d])

end

/-! ## What the grammar derives is read -/

namespace Reader

def RanOut (r : (Except Error Word × List Lexeme) × Memory) : Prop := ∃ fault : Fault, r.1.1 = .error (.ofFault fault)

variable {m m' : Memory} {frames : List Frame} {lexeme : Lexeme} {rest : List Lexeme}

/-! ### Operations without room -/

theorem not_next_of_freeCount {α : Type} {p : Pool α} (hfree : ¬ 0 < p.freeCount) : p.next? = none := by
  cases hnext : p.next? with
  | none => rfl
  | some i => exact absurd (Array.size_pos_of_mem (Array.mem_of_back? hnext)) hfree

theorem onHeap_of_error {α : Type} {op : HeapM α} {fault : Fault} {h : Heap} (hop : op m.heap = .error fault h) :
    Memory.onHeap op m = .error fault ⟨h, m.symbols⟩ := by
  obtain ⟨heap, symbols⟩ := m
  unfold Memory.onHeap
  dsimp only at hop ⊢
  rw [hop]

theorem provides_ofPairs {k : Nat} : m.Provides (.ofPairs k) ↔ k ≤ m.heap.cells.freeCount := by
  simp [Memory.Provides, Demand.ofPairs, Memory.missing]

theorem cons_fails (hroom : ¬ m.Provides (.ofPairs 1)) (a d : Word) :
    ∃ fault m', Memory.onHeap (Heap.cons a d) m = .error fault m' := by
  rw [provides_ofPairs] at hroom
  have hcons : Heap.cons a d m.heap = .error (.outOfCells m.heap.cells.capacity) m.heap := by
    rw [Heap.cons_apply, not_next_of_freeCount hroom]
  exact ⟨_, _, onHeap_of_error hcons⟩

theorem consAll_fails (hm : m.Sound) {items : List Word} (hroom : ¬ m.Provides (.ofPairs items.length)) (tail : Word) :
    ∃ fault m', Memory.onHeap (Heap.consAll items tail) m = .error fault m' := by
  induction items generalizing m tail with
  | nil => exact absurd (provides_ofPairs.2 (Nat.zero_le _)) hroom
  | cons item items ih =>
    rw [Memory.onHeap_consAll_cons]
    by_cases hone : m.Provides (.ofPairs 1)
    · obtain ⟨i, m', hcons, htakes, -⟩ := hm.cons hone item tail
      rw [hcons]
      refine ih htakes.sound (fun hrest => hroom ?_) _
      have hfree : m.heap.cells.freeCount = m'.heap.cells.freeCount + 1 := htakes.freeCells
      rw [provides_ofPairs] at hrest ⊢
      rw [List.length_cons]
      omega
    · obtain ⟨fault, m', hcons⟩ := cons_fails hone item tail
      exact ⟨fault, m', by rw [hcons]⟩

theorem makeString_fails (hroom : ¬ m.Provides { strings := 1 }) (bytes : ByteArray) :
    ∃ fault m', Memory.onHeap (Heap.makeString bytes) m = .error fault m' := by
  have hfree : ¬ 0 < m.heap.strings.freeCount := by
    intro hfree
    exact hroom ⟨Nat.zero_le _, by simpa [Memory.missing, Nat.succ_le_iff] using hfree⟩
  have hmake : Heap.makeString bytes m.heap = .error (.outOfStrings m.heap.strings.capacity) m.heap := by
    rw [Heap.makeString_apply, not_next_of_freeCount hfree]
  exact ⟨_, _, onHeap_of_error hmake⟩

theorem intern_fails {name : String} (hroom : ¬ m.Provides { names := {name} }) :
    ∃ fault m', Memory.intern name.toUTF8 m = .error fault m' := by
  have hmissing := m.missing_singleton name
  cases hget : m.symbols.get? name.toUTF8 with
  | some w =>
    rw [hget] at hmissing
    exact absurd ⟨Nat.zero_le _, by simp [hmissing]⟩ hroom
  | none =>
    rw [hget] at hmissing
    rw [Memory.intern_apply_new hget, not_next_of_freeCount]
    · exact ⟨_, _, rfl⟩
    · intro hfree
      exact hroom ⟨Nat.zero_le _, by simpa [hmissing, Nat.succ_le_iff] using hfree⟩

theorem readTokens_of_error {fault : Fault} (hshift : shift frames lexeme m = .error fault m') :
    RanOut (readTokens frames (lexeme :: rest) m) := by
  rw [readTokens, hshift]
  exact ⟨fault, rfl⟩

/-! ### Tokens -/

theorem atom_read (rest : List Lexeme) {a : Atom} (htoken : lexeme.token.atom? = some a)
    (hdepth : frames.length ≤ maxDepth) (hm : m.Sound) :
    RanOut (readTokens frames (lexeme :: rest) m) ∨
      ∃ w m', readTokens frames (lexeme :: rest) m = handOn frames lexeme.location w rest m' ∧ m.Takes m' a.demand ∧
        m'.heap.RepresentsAtom w a := by
  by_cases hroom : m.Provides a.demand
  · exact .inr (readTokens_atom rest htoken hdepth hm hroom)
  · left
    suffices hshift : ∃ fault m', shift frames lexeme m = .error fault m' by
      obtain ⟨fault, m', hshift⟩ := hshift
      exact readTokens_of_error hshift
    unfold shift
    rw [if_neg (Nat.not_lt.2 hdepth)]
    cases hlexeme : lexeme.token with
    | leftParen | rightParen | dot | quote | endOfFile =>
      rw [hlexeme] at htoken
      cases htoken
    | boolean | number | char =>
      rw [hlexeme] at htoken
      cases htoken
      exact absurd ⟨Nat.zero_le _, Nat.zero_le _⟩ hroom
    | string s =>
      rw [hlexeme] at htoken
      cases htoken
      obtain ⟨fault, m', hmake⟩ := makeString_fails hroom s.toUTF8
      exact ⟨fault, m', bind_of_error hmake⟩
    | symbol name =>
      rw [hlexeme] at htoken
      cases htoken
      obtain ⟨fault, m', hintern⟩ := intern_fails hroom
      exact ⟨fault, m', bind_of_error hintern⟩

theorem rightParen_read (rest : List Lexeme) (htoken : lexeme.token = .rightParen) (hdepth : frames.length < maxDepth)
    (hm : m.Sound) {start : Location} {items : List Word} {tail : Word} {frame : Frame}
    (hframe : frame = .closing start items tail ∨ frame = .list start items ∧ tail = .nil) :
    RanOut (readTokens (frame :: frames) (lexeme :: rest) m) ∨
      ∃ w m', readTokens (frame :: frames) (lexeme :: rest) m = handOn frames start w rest m' ∧
        m.Builds m' items tail w := by
  by_cases hroom : m.Provides (.ofPairs items.length)
  · exact .inr (readTokens_rightParen rest htoken hdepth hm hframe hroom)
  · left
    obtain ⟨fault, m', hcons⟩ := consAll_fails hm hroom tail
    have hlength : (frame :: frames).length ≤ maxDepth := hdepth
    have hshift : shift (frame :: frames) lexeme m = .error fault m' := by
      unfold shift
      rw [if_neg (Nat.not_lt.2 hlength), htoken]
      obtain rfl | ⟨rfl, rfl⟩ := hframe
      · exact bind_of_error hcons
      · exact bind_of_error hcons
    exact readTokens_of_error hshift

theorem readTokens_quote (htoken : lexeme.token = .quote) (hdepth : frames.length ≤ maxDepth) :
    readTokens frames (lexeme :: rest) m = readTokens (.quote lexeme.location :: frames) rest m := by
  apply readTokens_of_more
  unfold shift
  rw [if_neg (Nat.not_lt.2 hdepth), htoken]
  rfl

theorem handOn_of_error {loc : Location} {w : Word} {fault : Fault} (hcomplete : complete frames loc w m = .error fault m') :
    RanOut (handOn frames loc w rest m) := by
  rw [handOn, hcomplete]
  exact ⟨fault, rfl⟩

theorem handOn_of_complete {frames' : List Frame} {loc start : Location} {v w : Word}
    (hcomplete : complete frames loc v m = complete frames' start w m') :
    handOn frames loc v rest m = handOn frames' start w rest m' := by
  rw [handOn, hcomplete]
  rfl

/-- A datum that is handed to a quote is handed on as the quoted datum. -/
theorem handOn_quote (hm : m.Sound) {start loc : Location} {w : Word} {d : Datum} (hw : m.heap.Represents w d) :
    RanOut (handOn (.quote start :: frames) loc w rest m) ∨
      ∃ w' m' n, handOn (.quote start :: frames) loc w rest m = handOn frames start w' rest m' ∧ m.Takes m' n ∧
        n.pairs = 2 ∧ m'.heap.Represents w' d.quoted := by
  have hcomplete : complete (.quote start :: frames) loc w m =
      (Memory.intern "quote".toUTF8 >>= fun quote => Memory.onHeap (Heap.cons w .nil) >>= fun tail =>
        Memory.onHeap (Heap.cons quote tail) >>= complete frames start) m := rfl
  -- Each of the three operations runs out of memory, or goes on with what those before have built.
  by_cases hname : m.Provides { names := {"quote"} }
  case neg =>
    obtain ⟨fault, m', hintern⟩ := intern_fails hname
    exact .inl (handOn_of_error (hcomplete.trans (bind_of_error hintern)))
  obtain ⟨i, m₁, hintern, htakes₁, hlive, hread⟩ := hm.intern "quote" hname
  rw [bind_of_ok hintern] at hcomplete
  by_cases htail : m₁.Provides (.ofPairs 1)
  case neg =>
    obtain ⟨fault, m', hcons⟩ := cons_fails htail w .nil
    exact .inl (handOn_of_error (hcomplete.trans (bind_of_error hcons)))
  obtain ⟨j, m₂, hcons, htakes₂, hliveTail, hreadTail⟩ := htakes₁.sound.cons htail w .nil
  rw [bind_of_ok hcons] at hcomplete
  by_cases hpair : m₂.Provides (.ofPairs 1)
  case neg =>
    obtain ⟨fault, m', hcons'⟩ := cons_fails hpair (.symbol i) (.pair j)
    exact .inl (handOn_of_error (hcomplete.trans (bind_of_error hcons')))
  obtain ⟨k, m₃, hcons', htakes₃, hlivePair, hreadPair⟩ := htakes₂.sound.cons hpair (.symbol i) (.pair j)
  rw [bind_of_ok hcons'] at hcomplete
  refine .inr ⟨.pair k, m₃, _, handOn_of_complete hcomplete, (htakes₁.trans htakes₂).trans htakes₃, rfl,
    k, rfl, hlivePair, ?_, ?_⟩
  · rw [hreadPair]
    exact Heap.RepresentsAtom.mono (htakes₂.strings.trans htakes₃.strings) ⟨i, rfl, hlive, hread⟩
  · rw [hreadPair]
    refine htakes₃.represents ⟨j, rfl, hliveTail, ?_, ?_⟩
    · rw [hreadTail]
      exact (htakes₁.trans htakes₂).represents hw
    · rw [hreadTail]
      rfl

/-! ### Derivations -/

/-- Whatever is open, the lexemes build the datum and hand it on, unless memory runs out. -/
def Spell (n : Nat) (lexemes : List Lexeme) (d : Datum) : Prop :=
  ∀ frames rest m, frames.length + n ≤ maxDepth → m.Sound →
    RanOut (readTokens frames (lexemes ++ rest) m) ∨
      ∃ start w m' k, readTokens frames (lexemes ++ rest) m = handOn frames start w rest m' ∧ m.Takes m' k ∧
        k.pairs = d.pairs ∧ m'.heap.Represents w d

/-- At the start of a list, the lexemes become its first elements. -/
def SpellAll (n : Nat) (lexemes : List Lexeme) (ds : List Datum) : Prop :=
  ∀ frames rest m start, frames.length + n < maxDepth → m.Sound →
    RanOut (readTokens (.list start [] :: frames) (lexemes ++ rest) m) ∨
      ∃ items m' k, readTokens (.list start [] :: frames) (lexemes ++ rest) m =
          readTokens (.list start items :: frames) rest m' ∧ m.Takes m' k ∧ k.pairs = (ds.map Datum.pairs).sum ∧
        List.Forall₂ m'.heap.Represents items ds.reverse

section Spell

variable {n : Nat} {first last dot : Lexeme} {lexemes lexemes' : List Lexeme} {d : Datum} {ds : List Datum}

theorem onto_eq_foldl (ds : List Datum) (d : Datum) : Datum.onto ds d = ds.foldl (fun tail a => .pair a tail) d := by
  induction ds generalizing d with
  | nil => rfl
  | cons a ds ih => exact ih (.pair a d)

theorem onto_reverse (ds : List Datum) (d : Datum) : Datum.onto ds.reverse d = ds.foldr .pair d := by
  rw [onto_eq_foldl, List.foldl_reverse]

theorem pairs_foldr (ds : List Datum) (d : Datum) :
    (ds.foldr Datum.pair d).pairs = (ds.map Datum.pairs).sum + ds.length + d.pairs := by
  induction ds with
  | nil => simp
  | cons a ds ih =>
    simp only [List.foldr_cons, Datum.pairs, ih, List.map_cons, List.sum_cons, List.length_cons]
    omega

theorem spell_atom {a : Atom} (hfirst : first.token.atom? = some a) : Spell n [first] (.atom a) := by
  intro frames rest m hdepth hm
  refine (atom_read rest hfirst (by omega) hm).imp_right ?_
  rintro ⟨w, m', hread, htakes, hw⟩
  refine ⟨first.location, w, m', a.demand, hread, htakes, ?_, hw⟩
  cases a <;> rfl

theorem spell_quote (hfirst : first.token = .quote) (hd : Spell n lexemes d) :
    Spell (n + 1) (first :: lexemes) d.quoted := by
  intro frames rest m hdepth hm
  rw [List.cons_append, readTokens_quote hfirst (by omega)]
  have hinside : (Frame.quote first.location :: frames).length + n ≤ maxDepth := by
    rw [List.length_cons]
    omega
  obtain hout | ⟨loc, w, m₁, k, hread, htakes, hpairs, hw⟩ := hd _ rest m hinside hm
  · exact .inl hout
  · rw [hread]
    refine (handOn_quote htakes.sound hw).imp_right ?_
    rintro ⟨w', m₂, k', hquote, htakes', hpairs', hw'⟩
    refine ⟨first.location, w', m₂, k + k', hquote, htakes.trans htakes', ?_, hw'⟩
    rw [Demand.pairs_add, hpairs, hpairs', Datum.quoted]
    simp only [Datum.pairs]
    omega

theorem spell_list (hfirst : first.token = .leftParen) (hds : SpellAll n lexemes ds) (hlast : last.token = .rightParen) :
    Spell (n + 1) (first :: (lexemes ++ [last])) (ds.foldr .pair .nil) := by
  intro frames rest m hdepth hm
  rw [List.cons_append, List.append_assoc, readTokens_leftParen hfirst (by omega)]
  obtain hout | ⟨items, m₁, k, hread, htakes, hpairs, hitems⟩ := hds frames ([last] ++ rest) m first.location (by omega) hm
  · exact .inl hout
  · rw [hread]
    refine (rightParen_read rest hlast (by omega) htakes.sound (.inr ⟨rfl, rfl⟩ :
      Frame.list first.location items = .closing first.location items .nil ∨ _)).imp_right ?_
    rintro ⟨w, m₂, hclose, hbuilds⟩
    refine ⟨first.location, w, m₂, k + .ofPairs items.length, hclose, htakes.trans hbuilds.takes, ?_, ?_⟩
    · have hlength := hitems.length_eq
      rw [List.length_reverse] at hlength
      rw [Demand.pairs_add, hpairs, pairs_foldr, Demand.ofPairs, hlength]
      rfl
    · rw [← onto_reverse]
      exact hbuilds.represents ds.reverse .nil hitems rfl

theorem spell_dotted (hfirst : first.token = .leftParen) (hds : SpellAll n lexemes ds) (hne : ds ≠ [])
    (hdot : dot.token = .dot) (hd : Spell n lexemes' d) (hlast : last.token = .rightParen) :
    Spell (n + 1) (first :: (lexemes ++ dot :: (lexemes' ++ [last]))) (ds.foldr .pair d) := by
  intro frames rest m hdepth hm
  rw [List.cons_append, List.append_assoc, readTokens_leftParen hfirst (by omega)]
  obtain hout | ⟨items, m₁, k, hread, htakes, hpairs, hitems⟩ :=
    hds frames (dot :: (lexemes' ++ [last]) ++ rest) m first.location (by omega) hm
  · exact .inl hout
  have hlength := hitems.length_eq
  rw [List.length_reverse] at hlength
  obtain ⟨item, items, rfl⟩ : ∃ item more, items = item :: more := by
    refine List.exists_cons_of_ne_nil fun hnil => hne (List.length_eq_zero_iff.1 ?_)
    rw [← hlength, hnil]
    rfl
  rw [hread, List.cons_append, List.append_assoc, readTokens_dot hdot (by omega)]
  have hinside : (Frame.dotted first.location (item :: items) dot.location :: frames).length + n ≤ maxDepth := by
    rw [List.length_cons]
    omega
  obtain hout | ⟨loc, tail, m₂, k', hread', htakes', hpairs', htail⟩ := hd _ ([last] ++ rest) m₁ hinside htakes.sound
  · exact .inl hout
  rw [hread', handOn_dotted]
  refine (rightParen_read rest hlast (by omega) htakes'.sound (.inl rfl :
    Frame.closing first.location (item :: items) tail = .closing first.location (item :: items) tail ∨ _)).imp_right ?_
  rintro ⟨w, m₃, hclose, hbuilds⟩
  refine ⟨first.location, w, m₃, k + k' + .ofPairs (item :: items).length, hclose,
    (htakes.trans htakes').trans hbuilds.takes, ?_, ?_⟩
  · rw [Demand.pairs_add, Demand.pairs_add, hpairs, hpairs', pairs_foldr, Demand.ofPairs, hlength]
    exact Nat.add_right_comm _ _ _
  · rw [← onto_reverse]
    exact hbuilds.represents ds.reverse d (hitems.imp fun _ _ => htakes'.represents) htail

theorem spellAll_nil : SpellAll n [] [] := by
  intro frames rest m start hdepth hm
  exact .inr ⟨[], m, 0, rfl, hm.takes_zero, rfl, .nil⟩

theorem spellAll_snoc (hds : SpellAll n lexemes ds) (hd : Spell n lexemes' d) :
    SpellAll n (lexemes ++ lexemes') (ds ++ [d]) := by
  intro frames rest m start hdepth hm
  rw [List.append_assoc]
  obtain hout | ⟨items, m₁, k, hread, htakes, hpairs, hitems⟩ := hds frames (lexemes' ++ rest) m start hdepth hm
  · exact .inl hout
  · rw [hread]
    have hinside : (Frame.list start items :: frames).length + n ≤ maxDepth := by
      rw [List.length_cons]
      omega
    refine (hd _ rest m₁ hinside htakes.sound).imp_right ?_
    rintro ⟨loc, w, m₂, k', hread', htakes', hpairs', hw⟩
    refine ⟨w :: items, m₂, k + k', hread', htakes.trans htakes', ?_, ?_⟩
    · simp [hpairs, hpairs']
    · rw [List.reverse_append]
      exact .cons hw (hitems.imp fun _ _ => htakes'.represents)

end Spell

mutual

/-- Tokens that spell a datum build it. -/
theorem reads_derives {n : Nat} {ts : List Token} {d : Datum} :
    Derives n ts d → ∀ lexemes, lexemes.map Lexeme.token = ts → Spell n lexemes d
  | .atom ha, _, htokens => by
    obtain ⟨first, _, rfl, hfirst, htokens⟩ := List.map_eq_cons_iff.1 htokens
    obtain rfl := List.map_eq_nil_iff.1 htokens
    exact spell_atom (hfirst ▸ ha)
  | .list hds, _, htokens => by
    obtain ⟨first, _, rfl, hfirst, htokens⟩ := List.map_eq_cons_iff.1 htokens
    obtain ⟨inner, _, rfl, hinner, htokens⟩ := List.map_eq_append_iff.1 htokens
    obtain ⟨last, _, rfl, hlast, htokens⟩ := List.map_eq_cons_iff.1 htokens
    obtain rfl := List.map_eq_nil_iff.1 htokens
    exact spell_list hfirst (reads_derivesAll hds inner hinner) hlast
  | .dotted hds hne hd, _, htokens => by
    obtain ⟨first, _, rfl, hfirst, htokens⟩ := List.map_eq_cons_iff.1 htokens
    obtain ⟨inner, _, rfl, hinner, htokens⟩ := List.map_eq_append_iff.1 htokens
    obtain ⟨dot, _, rfl, hdot, htokens⟩ := List.map_eq_cons_iff.1 htokens
    obtain ⟨tail, _, rfl, htail, htokens⟩ := List.map_eq_append_iff.1 htokens
    obtain ⟨last, _, rfl, hlast, htokens⟩ := List.map_eq_cons_iff.1 htokens
    obtain rfl := List.map_eq_nil_iff.1 htokens
    exact spell_dotted hfirst (reads_derivesAll hds inner hinner) hne hdot (reads_derives hd tail htail) hlast
  | .quote hd, _, htokens => by
    obtain ⟨first, rest, rfl, hfirst, htokens⟩ := List.map_eq_cons_iff.1 htokens
    exact spell_quote hfirst (reads_derives hd rest htokens)

theorem reads_derivesAll {n : Nat} {ts : List Token} {ds : List Datum} :
    DerivesAll n ts ds → ∀ lexemes, lexemes.map Lexeme.token = ts → SpellAll n lexemes ds
  | .nil, _, htokens => by
    obtain rfl := List.map_eq_nil_iff.1 htokens
    exact spellAll_nil
  | .snoc hds hd, _, htokens => by
    obtain ⟨front, back, rfl, hfront, hback⟩ := List.map_eq_append_iff.1 htokens
    exact spellAll_snoc (reads_derivesAll hds front hfront) (reads_derives hd back hback)

end

/-! ## What is read the grammar derives -/

/-- The tokens have left the frames open: each list has data that are spelled behind its parenthesis, as deep as the
frames around it allow. -/
inductive Opens : List Frame → List Token → Prop where
  | nil : Opens [] []
  | quote {frames : List Frame} {ts : List Token} {start : Location} : Opens frames ts →
    Opens (.quote start :: frames) (ts ++ [.quote])
  | list {frames : List Frame} {ts us : List Token} {start : Location} {items : List Word} {ds : List Datum} :
    Opens frames ts → DerivesAll (maxDepth - (frames.length + 1)) us ds → items.length = ds.length →
    Opens (.list start items :: frames) (ts ++ .leftParen :: us)
  | dotted {frames : List Frame} {ts us : List Token} {start dot : Location} {items : List Word} {ds : List Datum} :
    Opens frames ts → DerivesAll (maxDepth - (frames.length + 1)) us ds → ds ≠ [] →
    Opens (.dotted start items dot :: frames) (ts ++ .leftParen :: (us ++ [.dot]))
  | closing {frames : List Frame} {ts us vs : List Token} {start : Location} {items : List Word} {tail : Word}
    {ds : List Datum} {d : Datum} : Opens frames ts → DerivesAll (maxDepth - (frames.length + 1)) us ds → ds ≠ [] →
    Derives (maxDepth - (frames.length + 1)) vs d →
    Opens (.closing start items tail :: frames) (ts ++ .leftParen :: (us ++ .dot :: vs))

/-- After the tokens reading goes on with frames that they have opened, or they spell a datum. -/
def Accounts (ts : List Token) : EStateM.Result Fault Memory Progress → Prop
  | .ok (.more frames) _ => Opens frames ts
  | .ok (.done _) _ => ∃ d, Derives maxDepth ts d
  | _ => True

theorem Accounts.bind {α : Type} {x : MemoryM α} {f : α → MemoryM Progress} {ts : List Token}
    (hf : ∀ a m', Accounts ts (f a m')) : Accounts ts ((x >>= f) m) := by
  cases hx : x m with
  | ok a m' =>
    rw [bind_of_ok hx]
    exact hf a m'
  | error fault m' =>
    rw [bind_of_error hx]
    trivial

/-- Around an open frame one level more is allowed than inside. -/
theorem level_succ {frame : Frame} (hdepth : (frame :: frames).length ≤ maxDepth) :
    maxDepth - (frames.length + 1) + 1 = maxDepth - frames.length := by
  rw [List.length_cons] at hdepth
  omega

theorem accounts_complete {ts us : List Token} {d : Datum} (ho : Opens frames ts) (hdepth : frames.length ≤ maxDepth)
    (hd : Derives (maxDepth - frames.length) us d) (start : Location) (w : Word) (m : Memory) :
    Accounts (ts ++ us) (complete frames start w m) := by
  induction ho generalizing us d start w m with
  | nil => exact ⟨d, hd⟩
  | @quote frames ts start' _ ih =>
    have hquote : Derives (maxDepth - frames.length) (.quote :: us) d.quoted := level_succ hdepth ▸ .quote hd
    rw [List.append_assoc]
    exact .bind fun quote m₁ => .bind fun tail m₂ => .bind fun pair m₃ => ih (Nat.le_of_succ_le hdepth) hquote start' pair m₃
  | @list frames ts vs start' items ds ho hds hlength ih =>
    rw [List.append_assoc]
    exact .list ho (.snoc hds hd) (by simp [hlength])
  | @dotted frames ts vs start' dot items ds ho hds hne ih =>
    rw [List.append_assoc, List.cons_append, List.append_assoc]
    exact .closing ho hds hne hd
  | closing => trivial

theorem accounts_close {ts : List Token} (ho : Opens frames ts) (hdepth : frames.length ≤ maxDepth) (loc : Location)
    (m : Memory) : Accounts (ts ++ [.rightParen]) (close loc frames m) := by
  cases ho with
  | nil => trivial
  | quote => trivial
  | dotted => trivial
  | @list frames ts us start items ds ho hds hlength =>
    have hlist : Derives (maxDepth - frames.length) (.leftParen :: (us ++ [.rightParen])) (ds.foldr .pair .nil) :=
      level_succ hdepth ▸ .list hds
    rw [List.append_assoc]
    exact .bind fun w m' => accounts_complete ho (Nat.le_of_succ_le hdepth) hlist start w m'
  | @closing frames ts us vs start items tail ds d ho hds hne hd =>
    have hlist : Derives (maxDepth - frames.length) (.leftParen :: (us ++ .dot :: (vs ++ [.rightParen])))
        (ds.foldr .pair d) := level_succ hdepth ▸ .dotted hds hne hd
    rw [List.append_assoc, List.cons_append, List.append_assoc]
    exact .bind fun w m' => accounts_complete ho (Nat.le_of_succ_le hdepth) hlist start w m'

theorem accounts_shiftDot {ts : List Token} (ho : Opens frames ts) (loc : Location) (m : Memory) :
    Accounts (ts ++ [.dot]) (.ok (shiftDot loc frames) m) := by
  cases ho with
  | nil => trivial
  | quote => trivial
  | dotted => trivial
  | closing => trivial
  | @list frames ts us start items ds ho hds hlength =>
    cases items with
    | nil => trivial
    | cons item items =>
      rw [List.append_assoc]
      refine .dotted ho hds ?_
      rintro rfl
      cases hlength

theorem accounts_shift {ts : List Token} (ho : Opens frames ts) (htoken : lexeme.token ≠ .endOfFile) (m : Memory) :
    Accounts (ts ++ [lexeme.token]) (shift frames lexeme m) := by
  unfold shift
  split
  · trivial
  rename_i hlt
  have hdepth : frames.length ≤ maxDepth := Nat.not_lt.1 hlt
  cases hlexeme : lexeme.token with
  | endOfFile => exact absurd hlexeme htoken
  | rightParen => exact accounts_close ho hdepth _ m
  | dot => exact accounts_shiftDot ho _ m
  | leftParen => exact .list ho .nil rfl
  | quote => exact .quote ho
  | boolean | number | char => exact accounts_complete ho hdepth (.atom rfl) _ _ m
  | string s => exact .bind fun w m' => accounts_complete ho hdepth (.atom rfl) _ w m'
  | symbol name => exact .bind fun w m' => accounts_complete ho hdepth (.atom rfl) _ w m'

/-- Where a reader answers a datum, it has taken tokens that spell one, or it stands at the end of the text. -/
theorem readTokens_derives {ts : List Token} {lexemes : List Lexeme} {w : Word} (ho : Opens frames ts)
    (hend : ∃ lexeme ∈ lexemes, lexeme.token = .endOfFile)
    (hread : readTokens frames lexemes m = ((.ok w, rest), m')) :
    (∃ d taken, lexemes = taken ++ rest ∧ Derives maxDepth (ts ++ taken.map Lexeme.token) d) ∨
      frames = [] ∧ ∃ lexeme more, lexemes = lexeme :: more ∧ lexeme.token = .endOfFile := by
  induction lexemes generalizing frames ts m with
  | nil =>
    obtain ⟨lexeme, hmem, -⟩ := hend
    cases hmem
  | cons lexeme lexemes ih =>
    rw [readTokens] at hread
    by_cases htoken : lexeme.token = .endOfFile
    · right
      cases frames with
      | nil => exact ⟨rfl, lexeme, lexemes, rfl, htoken⟩
      | cons frame frames =>
        exfalso
        have hshift : ∃ error, shift (frame :: frames) lexeme m = .ok (.failed error) m := by
          unfold shift
          rw [htoken]
          split
          · exact ⟨_, rfl⟩
          · cases frame <;> exact ⟨_, rfl⟩
        obtain ⟨error, hshift⟩ := hshift
        rw [hshift] at hread
        cases hread
    · have haccounts := accounts_shift ho htoken m
      cases hshift : shift frames lexeme m with
      | error fault m'' =>
        rw [hshift] at hread
        cases hread
      | ok progress m'' =>
        rw [hshift] at hread haccounts
        cases progress with
        | failed error => cases hread
        | done datum =>
          obtain ⟨d, hd⟩ := haccounts
          simp only [behind, if_neg htoken, Prod.mk.injEq] at hread
          exact .inl ⟨d, [lexeme], by rw [hread.1.2]; rfl, hd⟩
        | more frames' =>
          have hmore : ∃ lexeme ∈ lexemes, lexeme.token = .endOfFile := by
            obtain ⟨l, hmem, hl⟩ := hend
            refine ⟨l, (List.mem_cons.1 hmem).resolve_left ?_, hl⟩
            rintro rfl
            exact htoken hl
          obtain ⟨d, taken, rfl, hd⟩ | ⟨rfl, l, more, rfl, hl⟩ := ih haccounts hmore hread
          · refine .inl ⟨d, lexeme :: taken, rfl, ?_⟩
            rwa [List.append_assoc] at hd
          · -- Behind a token something is open.
            generalize hts : ts ++ [lexeme.token] = us at haccounts
            cases haccounts
            exact absurd hts (List.append_ne_nil_of_right_ne_nil ts (List.cons_ne_nil _ _))

end Reader

/-! ## No marks of the reader -/

/-- The word stands for a token that is not a datum. -/
def Word.isMarker (w : Word) : Bool := w.isDot || w.isRightParen || w.isEof

/-- Numbers are such as words hold. -/
def Datum.Stored : Datum → Prop
  | .atom (.number x) => (⟨x.bits⟩ : Word).isNumber
  | .pair a d => a.Stored ∧ d.Stored
  | _ => True

section Marks

variable {h : Heap} {w : Word} {d : Datum}

theorem stored_foldr {ds : List Datum} (hds : ∀ a ∈ ds, a.Stored) (hd : d.Stored) : (ds.foldr .pair d).Stored := by
  induction ds with
  | nil => exact hd
  | cons a ds ih =>
    rw [List.forall_mem_cons] at hds
    exact ⟨hds.1, ih hds.2⟩

mutual

theorem Derives.stored {n : Nat} {ts : List Token} {d : Datum} : Derives n ts d → d.Stored
  | @Derives.atom _ t a ha => by
    cases t with
    | number x =>
      cases ha
      exact Word.isNumber_number x
    | leftParen | rightParen | dot | quote | endOfFile => cases ha
    | boolean | char | string | symbol =>
      cases ha
      trivial
  | .list hds => stored_foldr hds.stored trivial
  | .dotted hds _ hd => stored_foldr hds.stored hd.stored
  | .quote hd => ⟨trivial, hd.stored, trivial⟩

theorem DerivesAll.stored {n : Nat} {ts : List Token} {ds : List Datum} : DerivesAll n ts ds → ∀ d ∈ ds, d.Stored
  | .nil => by simp
  | .snoc hds hd => by
    intro a ha
    rcases List.mem_append.1 ha with ha | ha
    · exact hds.stored a ha
    · rw [List.mem_singleton] at ha
      exact ha ▸ hd.stored

end

theorem Word.not_isMarker_of_isNumber (hw : w.isNumber) : ¬ w.isMarker ∧ ¬ w.hasCell := by
  have hne {t : UInt64} (ht : isReservedTag t) : w.tag ≠ t := tag_ne_of_isNumber hw ht
  have heof := hne (t := 0xfff4) (by decide)
  have hdot := hne (t := 0xfff5) (by decide)
  have hparen := hne (t := 0xfff6) (by decide)
  have hpair := hne (t := 0xfffc) (by decide)
  have hclosure := hne (t := 0xffff) (by decide)
  simp [isMarker, isDot, isRightParen, isEof, hasCell, isPair, isClosure, heof, hdot, hparen, hpair, hclosure]

theorem Heap.RepresentsAtom.not_isMarker {a : Atom} (hw : h.RepresentsAtom w a) (ha : (Datum.atom a).Stored) :
    ¬ w.isMarker ∧ ¬ w.hasCell := by
  cases a with
  | boolean b =>
    obtain rfl : w = .boolean b := hw
    cases b <;> decide
  | char c =>
    obtain rfl : w = .char c := hw
    simp [Word.isMarker, Word.isDot, Word.isRightParen, Word.isEof, Word.hasCell, Word.isPair, Word.isClosure]
  | number x =>
    obtain rfl : w = ⟨x.bits⟩ := hw
    exact Word.not_isMarker_of_isNumber ha
  | string s =>
    obtain ⟨i, rfl, -⟩ := hw
    simp [Word.isMarker, Word.isDot, Word.isRightParen, Word.isEof, Word.hasCell, Word.isPair, Word.isClosure]
  | symbol name =>
    obtain ⟨i, rfl, -⟩ := hw
    simp [Word.isMarker, Word.isDot, Word.isRightParen, Word.isEof, Word.hasCell, Word.isPair, Word.isClosure]

theorem Heap.Represents.not_isMarker (hw : h.Represents w d) (hd : d.Stored) : ¬ w.isMarker := by
  cases d with
  | nil =>
    obtain rfl : w = .nil := hw
    decide
  | atom a => exact (RepresentsAtom.not_isMarker hw hd).1
  | pair a d =>
    obtain ⟨i, rfl, -⟩ := hw
    simp [Word.isMarker, Word.isDot, Word.isRightParen, Word.isEof]

/-- The cell of a word that stands for a datum holds the parts of the datum. -/
theorem Heap.Represents.cell (hw : h.Represents w d) (hd : d.Stored) (hc : w.hasCell) :
    ∃ a d' : Datum, (a.Stored ∧ d'.Stored) ∧ h.Represents (h.cells.read w.payload).car a ∧
      h.Represents (h.cells.read w.payload).cdr d' := by
  cases d with
  | nil =>
    obtain rfl : w = .nil := hw
    cases hc
  | atom a => exact absurd hc (RepresentsAtom.not_isMarker hw hd).2
  | pair a d =>
    obtain ⟨i, rfl, -, hcar, hcdr⟩ := hw
    rw [Word.payload_pair]
    exact ⟨a, d, hd, hcar, hcdr⟩

/-- What a word leads to stands for a part of its datum. -/
theorem Heap.Represents.reaches (hw : h.Represents w d) (hd : d.Stored) {v : Word} (hv : h.Reaches [w] v) :
    ∃ c : Datum, c.Stored ∧ h.Represents v c := by
  induction hv with
  | root hmem => exact ⟨d, hd, List.mem_singleton.1 hmem ▸ hw⟩
  | car _ hc ih =>
    obtain ⟨c, hstored, hv⟩ := ih
    obtain ⟨a, d', hparts, hcar, -⟩ := hv.cell hstored hc
    exact ⟨a, hparts.1, hcar⟩
  | cdr _ hc ih =>
    obtain ⟨c, hstored, hv⟩ := ih
    obtain ⟨a, d', hparts, -, hcdr⟩ := hv.cell hstored hc
    exact ⟨d', hparts.2, hcdr⟩

end Marks

/-! ## The reader and the grammar -/

def Exhausted (outcome : Except Error Word) : Prop := ∃ pool capacity, outcome = .error (.outOfMemory pool capacity)

/-- The next tokens spell the datum, and leave `rest`. -/
def Reader.Starts (r : Reader) (d : Datum) (rest : List Lexeme) : Prop :=
  ∃ taken, r.pending = taken ++ rest ∧ Derives Reader.maxDepth (taken.map Lexeme.token) d

/-- What a reader with room in memory makes of its tokens. -/
structure Reader.Answers (r : Reader) (m : Memory) (outcome : Except Error Word) (r' : Reader) (m' : Memory) : Prop where
  /-- At the end of the text it answers so, and stays there. -/
  eof : r.atEnd → outcome = .ok .eof ∧ r'.pending = r.pending
  /-- Tokens that spell a datum are taken, and the datum is built from new cells, one for each pair. -/
  datum : ∀ d rest, r.Starts d rest → ∃ w, outcome = .ok w ∧ r'.pending = rest ∧ m'.heap.Represents w d ∧
    m'.heap.cells.inUse = m.heap.cells.inUse + d.pairs ∧ ∀ v, m'.heap.Reaches [w] v → ¬ v.isMarker
  /-- No other tokens are accepted. -/
  accepted : ¬ r.atEnd → ((∃ w, outcome = .ok w) ↔ ∃ d rest, r.Starts d rest)
  refused : ∀ e, outcome = .error e → ∃ error, e = .read error

theorem Reader.readTokens_atEnd {r : Reader} (hatEnd : r.atEnd) (hend : ∃ lexeme ∈ r.pending, lexeme.token = .endOfFile)
    (m : Memory) : Reader.readTokens [] r.pending m = ((.ok .eof, r.pending), m) := by
  unfold Reader.atEnd at hatEnd
  cases hpending : r.pending with
  | nil =>
    obtain ⟨lexeme, hmem, -⟩ := hend
    rw [hpending] at hmem
    cases hmem
  | cons lexeme rest =>
    rw [hpending] at hatEnd
    have htoken : lexeme.token = .endOfFile := of_decide_eq_true hatEnd
    have hshift : Reader.shift [] lexeme m = .ok (.done .eof) m := by
      have hdepth : ¬ Reader.maxDepth < ([] : List Reader.Frame).length := Nat.not_lt_zero _
      unfold Reader.shift
      rw [if_neg hdepth, htoken]
      rfl
    rw [Reader.readTokens, hshift, Reader.behind, if_pos htoken]

/-- Where the next tokens spell a datum, it is read, unless memory runs out. -/
theorem Reader.Starts.readTokens {r : Reader} {m : Memory} {d : Datum} {rest : List Lexeme} (hstarts : r.Starts d rest)
    (hm : m.Sound) : Reader.RanOut (Reader.readTokens [] r.pending m) ∨
      ∃ w m' k, Reader.readTokens [] r.pending m = ((.ok w, rest), m') ∧ m.Takes m' k ∧ k.pairs = d.pairs ∧
        m'.heap.Represents w d := by
  obtain ⟨taken, hpending, hd⟩ := hstarts
  rw [hpending]
  refine (Reader.reads_derives hd taken rfl [] rest m (Nat.le_of_eq (Nat.zero_add _)) hm).imp_right ?_
  rintro ⟨start, w, m', k, hread, htakes, hpairs, hw⟩
  exact ⟨w, m', k, hread, htakes, hpairs, hw⟩

/-- A reader accepts the grammar and nothing else, and leaves what is in memory as it is. Two free cells and a free
string for each token are enough. -/
theorem read_grammar {r : Reader} {m : Memory} (hm : m.Sound)
    (hend : ∃ lexeme ∈ r.pending, lexeme.token = .endOfFile) :
    m.Kept (r.read m).2 ∧
      (m.Affords (2 * r.pending.length) r.pending.length → ¬ Exhausted (r.read m).1.1) ∧
      (¬ Exhausted (r.read m).1.1 → r.Answers m (r.read m).1.1 (r.read m).1.2 (r.read m).2) := by
  obtain ⟨hkept, herror⟩ := Reader.pays_readTokens hm [] r.pending
  refine ⟨hkept, fun hroom hout => ?_, fun hout => ?_⟩
  · obtain ⟨pool, capacity, hout⟩ := hout
    obtain ⟨error, hread⟩ | ⟨-, hshort⟩ := herror _ hout
    · cases hread
    · refine hshort ?_
      simpa [Reader.owedCells, Reader.owedStrings] using hroom
  have hrefused : ∀ e, (r.read m).1.1 = .error e → ∃ error, e = .read error := by
    intro e he
    obtain hread | ⟨⟨fault, hfault, rfl⟩, -⟩ := herror e he
    · exact hread
    · cases fault with
      | outOfCells capacity => exact absurd ⟨_, _, he⟩ hout
      | outOfStrings capacity => exact absurd ⟨_, _, he⟩ hout
      | rootOverflow | wrongType | circularList => cases hfault
  have hdatum : ∀ d rest, r.Starts d rest → ∃ w, (r.read m).1.1 = .ok w ∧ (r.read m).1.2.pending = rest ∧
      (r.read m).2.heap.Represents w d ∧
      (r.read m).2.heap.cells.inUse = m.heap.cells.inUse + d.pairs ∧
      ∀ v, (r.read m).2.heap.Reaches [w] v → ¬ v.isMarker := by
    intro d rest hstarts
    have hstored : d.Stored := by
      obtain ⟨taken, -, hd⟩ := hstarts
      exact hd.stored
    obtain ⟨fault, hfault⟩ | ⟨w, m', k, hread, htakes, hpairs, hw⟩ := hstarts.readTokens hm
    · obtain ⟨error, herror⟩ := hrefused _ hfault
      cases fault <;> cases herror
    · have hresult : r.read m = ((.ok w, ⟨rest, r.nextLocation⟩), m') := by rw [Reader.read, hread]
      rw [hresult]
      refine ⟨w, rfl, rfl, hw, ?_, fun v hv => ?_⟩
      · have hcapacity := hkept.capacity
        have hfree := htakes.freeCells
        have hle := hm.heap.cells.freeCount_le
        rw [hread] at hcapacity
        dsimp only at hcapacity ⊢
        rw [Pool.inUse, Pool.inUse, hcapacity]
        omega
      · obtain ⟨c, hc, hv⟩ := hw.reaches hstored hv
        exact hv.not_isMarker hc
  refine ⟨fun hatEnd => ?_, hdatum, fun hmore => ⟨?_, ?_⟩, hrefused⟩
  · rw [Reader.read, Reader.readTokens_atEnd hatEnd hend]
    exact ⟨rfl, rfl⟩
  · rintro ⟨w, hw⟩
    have hread : Reader.readTokens [] r.pending m = ((.ok w, (r.read m).1.2.pending), (r.read m).2) :=
      Prod.ext (Prod.ext hw rfl) rfl
    obtain ⟨d, taken, hsplit, hd⟩ | ⟨-, lexeme, more, hpending, htoken⟩ := Reader.readTokens_derives .nil hend hread
    · exact ⟨d, _, taken, hsplit, hd⟩
    · refine absurd ?_ hmore
      rw [Reader.atEnd, hpending]
      exact decide_eq_true htoken
  · rintro ⟨d, rest, hstarts⟩
    obtain ⟨w, hw, -⟩ := hdatum d rest hstarts
    exact ⟨w, hw⟩

/-- `'(a . #t)`, and the end of the text. -/
def quotedPair : Reader where
  pending := [⟨.quote, .start⟩, ⟨.leftParen, .start⟩, ⟨.symbol "a", .start⟩, ⟨.dot, .start⟩, ⟨.boolean true, .start⟩,
    ⟨.rightParen, .start⟩, ⟨.endOfFile, .start⟩]

theorem read_grammar_quotedPair :
    let m := Memory.fresh 14 7 0
    let d := Datum.quoted (.pair (.atom (.symbol "a")) (.atom (.boolean true)))
    m.Sound ∧ m.Affords (2 * quotedPair.pending.length) quotedPair.pending.length ∧
      quotedPair.Starts d [⟨.endOfFile, .start⟩] ∧
      ∃ w, (quotedPair.read m).1.1 = .ok w ∧ (quotedPair.read m).2.heap.Represents w d ∧
        (quotedPair.read m).2.heap.cells.inUse = 3 := by
  intro m d
  have hm : m.Sound := ⟨Heap.sound_fresh 14 7 0, Memory.named_fresh 14 7 0⟩
  have hroom : m.Affords (2 * quotedPair.pending.length) quotedPair.pending.length := by
    constructor <;> decide +kernel
  have hstarts : quotedPair.Starts d [⟨.endOfFile, .start⟩] :=
    ⟨quotedPair.pending.take 6, rfl, .quote (.dotted (.snoc .nil (.atom rfl)) (List.cons_ne_nil _ _) (.atom rfl))⟩
  have hend : ∃ lexeme ∈ quotedPair.pending, lexeme.token = .endOfFile := by decide
  obtain ⟨-, hsuffices, hanswers⟩ := read_grammar hm hend
  obtain ⟨w, hw, -, hrepresents, hcells, -⟩ := (hanswers (hsuffices hroom)).datum d _ hstarts
  have hfresh : m.heap.cells.inUse = 0 := by decide +kernel
  rw [hfresh] at hcells
  exact ⟨hm, hroom, hstarts, w, hw, hrepresents, hcells⟩

end BoxedScheme
