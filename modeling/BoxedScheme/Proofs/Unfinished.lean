import BoxedScheme.Continuation
import BoxedScheme.Proofs.Scanning

/-!
# Unfinished input

Whether more lines have to follow is decided by a scan of its own, which knows strings, comments and characters but
no atoms. It keeps step with the splitting of the text into tokens, as long as no symbol looks to it like the start
of a comment or of a character.

* `misleads rest cs` : in the atom `cs` in front of `rest` the scan finds the start of a comment, or of a character
  that is not in the atom and that it should not have passed over;
* `leadingTokens loc cs` : the tokens in front of the place where a text ends or does not split any further;
* `scan_skipBlank`, `scan_string`, `scan_token` : blanks, strings and tokens, one after another;
* `scan_leadingTokens` : whole texts;
* `needsMore_agrees` : a text that splits is unfinished exactly if it has more opening than closing parentheses, and
  every text that ends inside a string or a block comment is.
-/

namespace BoxedScheme

/-! ## Tokens and faults -/

def Token.opens : Token → Int
  | .leftParen => 1
  | .rightParen => -1
  | _ => 0

def ScanFault.EndsInside : ScanFault → Prop
  | .endInString | .unterminatedString | .unterminatedComment => True
  | _ => False

/-- The tokens in front of the place where a text ends or does not split any further, each with what follows it. -/
def leadingTokens (loc : Location) (cs : List Char) : List (Token × List Char) :=
  match _hs : skipBlank .outside loc cs with
  | .error _ => []
  | .ok ⟨_, []⟩ => []
  | .ok ⟨loc, c :: rest⟩ =>
    match _ht : scanToken loc c rest with
    | .error _ => []
    | .ok (token, next) => (token, next.rest) :: leadingTokens next.location next.rest
termination_by cs.length
decreasing_by
  have h1 := length_rest_skipBlank_le _ _ _ _ _hs
  have h2 := length_rest_scanToken_le _ _ _ _ _ _ht
  simp only [List.length_cons] at h1
  omega

theorem leadingTokens_eq (loc : Location) (cs : List Char) :
    leadingTokens loc cs = match skipBlank .outside loc cs with
      | .error _ => []
      | .ok ⟨_, []⟩ => []
      | .ok ⟨loc, c :: rest⟩ => match scanToken loc c rest with
        | .error _ => []
        | .ok (token, next) => (token, next.rest) :: leadingTokens next.location next.rest := by
  rw [leadingTokens]
  split <;> simp_all
  split <;> simp_all

/-- A text that splits has its leading tokens and the end of the text. -/
theorem scanAll_leadingTokens {found lexemes : Array Lexeme} {loc : Location} {cs : List Char}
    (h : scanAll found loc cs = .ok lexemes) :
    lexemes.toList.map (·.token) =
      found.toList.map (·.token) ++ ((leadingTokens loc cs).map (·.1) ++ [.endOfFile]) := by
  fun_induction scanAll found loc cs with
  | case1 => cases h
  | case2 found loc cs loc' hs =>
    cases h
    rw [leadingTokens_eq, hs]
    simp
  | case3 => cases h
  | case4 found loc cs loc' c rest hs token next ht ih =>
    rw [leadingTokens_eq, hs]
    dsimp only
    rw [ht, ih h]
    simp

/-- The lists that are left open are counted by their parentheses. -/
theorem sum_opens (ts : List Token) :
    (ts.map Token.opens).sum = (ts.count .leftParen : Int) - ts.count .rightParen := by
  induction ts with
  | nil => rfl
  | cons t ts ih =>
    rw [List.map_cons, List.sum_cons, ih]
    cases t <;> simp [Token.opens] <;> omega

/-! ## Atoms without a hash -/

section Hashes

variable {cs : List Char}

/-- Whatever is read as a sequence of digits has digits only. -/
theorem digitValue_lt_of_foldl {base n : Nat} {found : Option Nat}
    (h : cs.foldl (fun acc c => acc.bind fun n =>
      if Numeral.digitValue c < base then some (n * base + Numeral.digitValue c) else none) found = some n) :
    found.isSome ∧ ∀ c ∈ cs, Numeral.digitValue c < base := by
  induction cs generalizing found with
  | nil =>
    rw [List.foldl_nil] at h
    simp [h]
  | cons c cs ih =>
    obtain ⟨hfound, hcs⟩ := ih h
    cases found with
    | none => cases hfound
    | some k =>
      have hc : Numeral.digitValue c < base := by
        by_contra hc
        simp [hc] at hfound
      exact ⟨rfl, List.forall_mem_cons.2 ⟨hc, hcs⟩⟩

theorem not_mem_of_digits? {base n : Nat} (hbase : base ≤ 36) (h : Numeral.digits? base cs = some n) : '#' ∉ cs := by
  intro hmem
  rw [Numeral.digits?, if_neg (by simpa using List.ne_nil_of_mem hmem)] at h
  have hlt := (digitValue_lt_of_foldl h).2 '#' hmem
  have hvalue : Numeral.digitValue '#' = 36 := by decide
  omega

theorem not_mem_of_splitSign (h : '#' ∉ (Numeral.splitSign cs).2) : '#' ∉ cs := by
  rw [Numeral.splitSign.eq_def] at h
  split at h <;> simp_all

theorem not_mem_of_integer? {base : Nat} {n : Int} (hbase : base ≤ 36) (h : Numeral.integer? base cs = some n) :
    '#' ∉ cs := by
  cases hdigits : Numeral.digits? base (Numeral.splitSign cs).2 with
  | none => simp [Numeral.integer?, hdigits] at h
  | some k => exact not_mem_of_splitSign (not_mem_of_digits? hbase hdigits)

theorem not_mem_of_radixNumber? {base : Nat} {x : Double} (hbase : base ≤ 36) (h : radixNumber? base cs = some x) :
    '#' ∉ cs := by
  obtain ⟨n, hn, -⟩ := Option.map_eq_some_iff.1 h
  exact not_mem_of_integer? hbase (Option.filter_eq_some_iff.1 hn).1

theorem not_mem_of_exponent? {n : Int} (h : Numeral.exponent? cs = some n) : '#' ∉ cs := by
  cases cs with
  | nil => exact List.not_mem_nil
  | cons c cs =>
    rw [Numeral.exponent?] at h
    split at h
    · next hc =>
      have hcs := not_mem_of_integer? (by decide) h
      rcases hc with rfl | rfl <;> simpa using hcs
    · cases h

/-- Behind its leading digits a text has a hash if it has one at all. -/
theorem mem_dropWhile_isDigit (h : '#' ∈ cs) : '#' ∈ cs.dropWhile Char.isDigit := by
  rw [← List.takeWhile_append_dropWhile (p := Char.isDigit) (l := cs), List.mem_append] at h
  refine h.resolve_left fun hmem => ?_
  exact absurd (List.mem_takeWhile_imp hmem) (by decide)

theorem not_mem_of_decimal? {x : Double.Decimal} (h : Numeral.decimal? cs = some x) : '#' ∉ cs := by
  -- The hash would stand behind the digits before the point and behind those after it, and there is the exponent.
  intro hmem
  have hrest := mem_dropWhile_isDigit hmem
  unfold Numeral.decimal? at h
  dsimp only at h
  split at h
  · next hexponent =>
    split at hexponent
    · next rest hpoint =>
      rw [hpoint] at hrest
      have hbehind := mem_dropWhile_isDigit (List.mem_of_ne_of_mem (by decide) hrest)
      exact not_mem_of_exponent? hexponent hbehind
    · exact not_mem_of_exponent? hexponent hrest
  · cases h

theorem not_mem_of_parse? {x : Double} (h : Numeral.parse? cs = some x) : '#' ∉ cs := by
  rw [Numeral.parse?, Option.or_eq_some_iff] at h
  obtain hnamed | ⟨-, h⟩ := h
  · unfold Numeral.named? at hnamed
    split_ifs at hnamed with hcs hcs hcs
    · rw [hcs]
      decide
    · rw [hcs]
      decide
    · rcases hcs with hcs | hcs
      all_goals
        rw [hcs]
        decide
  · split at h
    · obtain ⟨k, hk, -⟩ := Option.map_eq_some_iff.1 h
      exact not_mem_of_splitSign (not_mem_of_decimal? hk)
    · cases h

theorem not_mem_of_charOfHex? {e : Char} (h : charOfHex? cs = some e) : '#' ∉ cs := by
  unfold charOfHex? at h
  obtain ⟨n, hn, -⟩ := Option.bind_eq_some_iff.1 h
  have hdigits := not_mem_of_digits? (by decide) hn
  split at hdigits
  · simpa using hdigits
  · exact hdigits

theorem not_mem_of_namedChar? {e : Char} (h : namedChar? cs = some e) : '#' ∉ cs := by
  intro hmem
  have hlower : '#' ∈ cs.map Char.toLower := List.mem_map.2 ⟨'#', hmem, by decide⟩
  unfold namedChar? at h
  dsimp only at h
  split at h
  · next f hlookup =>
    have hnames : ∀ entry ∈ charNames, '#' ∉ entry.1.toList := by decide
    obtain ⟨before, after, hentries, -⟩ := List.lookup_eq_some_iff.1 hlookup
    have hname := hnames (.ofList (cs.map Char.toLower), f) (by rw [hentries]; simp)
    rw [String.toList_ofList] at hname
    exact hname hlower
  · split at h
    · next ds hds =>
      rw [hds] at hlower
      exact not_mem_of_charOfHex? h (by simpa using hlower)
    · cases h

theorem not_endsInside_hashToken {fault : ScanFault} (h : hashToken cs = .error fault) : ¬ fault.EndsInside := by
  unfold hashToken at h
  dsimp only at h
  repeat' split at h
  all_goals cases h
  all_goals exact id

theorem not_endsInside_atomToken {fault : ScanFault} (h : atomToken cs = .error fault) : ¬ fault.EndsInside := by
  rw [atomToken.eq_def] at h
  split at h
  · cases h
  · exact not_endsInside_hashToken h
  · split at h
    · cases h
    · split_ifs at h
      cases h
      exact id

end Hashes

/-! ## Ends of atoms -/

theorem Delimited.head?_ne {rest : List Char} (hrest : Delimited rest) {e : Char} (he : isDelimiter e = false) :
    rest.head? ≠ some e := by
  cases rest with
  | nil => simp
  | cons r rest =>
    have hr : isDelimiter r = true := hrest
    rintro ⟨⟩
    rw [hr] at he
    cases he

theorem delimited_afterAtom (cs : List Char) : Delimited (afterAtom cs) := by
  unfold afterAtom
  cases hdrop : cs.dropWhile (!isDelimiter ·) with
  | nil => trivial
  | cons c rest =>
    have hc := List.head_dropWhile_not (!isDelimiter ·) (by rw [hdrop]; exact List.cons_ne_nil c rest)
    simp only [hdrop, List.head_cons, Bool.not_eq_false'] at hc
    exact hc

namespace Continuation

variable {d : Int} {loc start : Location} {c : Char} {cs rest read : List Char} {t : Token} {next : Cursor}

/-! ## Single characters -/

theorem scan_line : scan .line d (c :: cs) = scan (if c = '\n' then .code else .line) d cs := rfl

theorem scan_hash_slash : scan .code d ('#' :: '\\' :: c :: cs) = scan .code d cs := rfl

theorem scan_code (hchar : ∀ e es, c = '#' → cs ≠ '\\' :: e :: es) (hblock : ∀ es, c = '#' → cs ≠ '|' :: es) :
    scan .code d (c :: cs) =
      if c = '"' then scan .string d cs
      else if c = ';' then scan .line d cs
      else if c = '(' ∨ c = '[' then scan .code (d + 1) cs
      else if c = ')' ∨ c = ']' then scan .code (d - 1) cs
      else scan .code d cs := by
  rw [scan]
  · exact hchar
  · exact hblock

theorem scan_of_ne_hash (hc : c ≠ '#') :
    scan .code d (c :: cs) =
      if c = '"' then scan .string d cs
      else if c = ';' then scan .line d cs
      else if c = '(' ∨ c = '[' then scan .code (d + 1) cs
      else if c = ')' ∨ c = ']' then scan .code (d - 1) cs
      else scan .code d cs :=
  scan_code (fun _ _ h => absurd h hc) fun _ h => absurd h hc

theorem scan_hash (hslash : cs.head? ≠ some '\\') (hbar : cs.head? ≠ some '|') :
    scan .code d ('#' :: cs) = scan .code d cs := by
  rw [scan_code (fun e es _ hcs => hslash (by rw [hcs]; rfl)) fun es _ hcs => hbar (by rw [hcs]; rfl)]
  simp

theorem scan_undelimited (hc : isDelimiter c = false) (hhash : c ≠ '#') :
    scan .code d (c :: cs) = scan .code d cs := by
  simp only [isDelimiter, Bool.or_eq_false_iff, decide_eq_false_iff_not] at hc
  rw [scan_of_ne_hash hhash]
  simp [hc]

theorem scan_space (hc : Text.isSpace c = true) : scan .code d (c :: cs) = scan .code d cs := by
  have hne : ∀ e, Text.isSpace e = false → c ≠ e := by
    rintro e he rfl
    rw [hc] at he
    cases he
  rw [scan_of_ne_hash (hne '#' (by decide)), if_neg (hne '"' (by decide)), if_neg (hne ';' (by decide)),
    if_neg (not_or.2 ⟨hne '(' (by decide), hne '[' (by decide)⟩),
    if_neg (not_or.2 ⟨hne ')' (by decide), hne ']' (by decide)⟩)]

theorem scan_block_other {inner : Nat} (hclose : ∀ es, c = '|' → cs ≠ '#' :: es)
    (hopen : ∀ es, c = '#' → cs ≠ '|' :: es) :
    scan (.block inner) d (c :: cs) = scan (.block inner) d cs := by
  rw [scan]
  · exact fun es _ h => hclose es h
  · exact fun _ es _ h => hclose es h
  · exact hopen

/-! ## Blanks -/

def Mode.ofBlank : Blank → Mode
  | .outside => .code
  | .line => .line
  | .block _ depth => .block depth

/-- Behind blanks and comments the scan is where the splitting is; it does not end inside a comment unnoticed. -/
theorem scan_skipBlank (d : Int) (mode : Blank) (loc : Location) (cs : List Char) :
    match skipBlank mode loc cs with
    | .ok next => scan (.ofBlank mode) d cs = scan .code d next.rest
    | .error _ => scan (.ofBlank mode) d cs = true := by
  fun_induction skipBlank mode loc cs with
  | case1 start depth => rfl
  | case2 mode loc hmode =>
    cases mode with
    | outside | line => rfl
    | block start depth => exact (hmode start depth rfl).elim
  | case3 loc cs ih => exact ih
  | case4 loc c cs _ hspace ih =>
    rw [Mode.ofBlank, scan_space hspace]
    exact ih
  | case5 loc cs _ hspace ih => exact ih
  | case6 loc c cs => rfl
  | case7 loc c cs ih =>
    have hmode : (if c = '\n' then Mode.code else .line) = .ofBlank (if c = '\n' then .outside else .line) := by
      split <;> rfl
    rw [Mode.ofBlank, scan_line, hmode]
    exact ih
  | case8 start loc cs loc' ih => exact ih
  | case9 start loc cs loc' depth ih => exact ih
  | case10 start depth loc cs ih => exact ih
  | case11 start depth loc c cs hclose hopen ih =>
    rw [Mode.ofBlank, scan_block_other hclose hopen]
    exact ih

theorem scan_of_skipBlank (hs : skipBlank .outside loc cs = .ok next) : scan .code d cs = scan .code d next.rest := by
  have hblank := scan_skipBlank d .outside loc cs
  rw [hs] at hblank
  exact hblank

theorem scan_of_skipBlank_error {e : ScanError} (hs : skipBlank .outside loc cs = .error e) :
    scan .code d cs = true := by
  have hblank := scan_skipBlank d .outside loc cs
  rw [hs] at hblank
  exact hblank

/-! ## Strings -/

/-- The scan of a token goes on behind it, with the lists that the token opens. Where the text ends inside the
token, it finds that out. -/
def KeepsStep (d : Int) (value : Bool) : Except ScanError (Token × Cursor) → Prop
  | .ok (t, next) => value = scan .code (d + t.opens) next.rest
  | .error e => e.fault.EndsInside → value = true

theorem scan_string_other (hquote : c ≠ '"') (hslash : ∀ e es, c = '\\' → cs ≠ e :: es) :
    scan .string d (c :: cs) = scan .string d cs := by
  rw [scan, if_neg hquote]
  exact hslash

theorem scan_string : KeepsStep d (scan .string d cs) (scanString start loc read cs) := by
  fun_induction scanString start loc read cs with
  | case1 => exact fun _ => rfl
  | case2 loc read cs =>
    show scan .code d cs = scan .code (d + 0) cs
    rw [Int.add_zero]
  | case3 loc read => exact fun _ => rfl
  | case4 loc read c cs loc' e hc ih => exact ih
  | case5 loc read c cs loc' hc ih => exact ih
  | case6 loc read c cs loc' hc => exact False.elim
  | case7 loc read c cs hquote hend hslash ih =>
    rw [scan_string_other hquote]
    · exact ih
    · exact hslash

/-! ## Atoms -/

/-- Characters that mean something to the scan by themselves. -/
def isTelling (c : Char) : Bool := c ∈ ['(', ')', '[', ']', '"', ';']

/-- In the atom, in front of `rest`, the scan finds the start of a block comment, or of a character that is not in the
atom and means something by itself. -/
def misleads (rest : List Char) : List Char → Bool
  | [] => false
  | '#' :: '|' :: _ => true
  | ['#', '\\'] => rest.head?.any isTelling
  | '#' :: '\\' :: _ :: cs => misleads rest cs
  | _ :: cs => misleads rest cs

theorem misleads_of_not_mem (hcs : '#' ∉ cs) : misleads rest cs = false := by
  fun_induction misleads rest cs <;> simp_all

theorem scan_of_not_isTelling (hc : isTelling c = false) (hhash : c ≠ '#') :
    scan .code d (c :: cs) = scan .code d cs := by
  rw [scan_of_ne_hash hhash]
  simp only [isTelling, List.mem_cons, List.not_mem_nil, or_false, decide_eq_false_iff_not, not_or] at hc
  simp [hc]

/-- The scan passes over an atom that does not mislead it. -/
theorem scan_atom (hplain : Numeral.Undelimited cs) (hcs : misleads rest cs = false) (hrest : Delimited rest) :
    scan .code d (cs ++ rest) = scan .code d rest := by
  fun_induction misleads rest cs with
  | case1 => rfl
  | case2 => cases hcs
  | case3 =>
    cases rest with
    | nil => rfl
    | cons r rest =>
      have hr : r ≠ '#' := by
        rintro rfl
        exact absurd hrest (by decide : ¬ isDelimiter '#' = true)
      show scan .code d ('#' :: '\\' :: r :: rest) = _
      rw [scan_hash_slash, scan_of_not_isTelling hcs hr]
  | case4 e cs ih => exact ih (fun f hf => hplain f (by simp [hf])) hcs
  | case5 c cs hbar hend hslash ih =>
    have hcs' := ih (fun f hf => hplain f (List.mem_cons_of_mem c hf)) hcs
    by_cases hc : c = '#'
    · -- The character behind the hash is in the atom, or ends it.
      have hnext {e : Char} (he : isDelimiter e = false) (hne : ∀ es, cs ≠ e :: es) : (cs ++ rest).head? ≠ some e := by
        cases cs with
        | nil => exact hrest.head?_ne he
        | cons f cs =>
          rintro ⟨⟩
          exact hne cs rfl
      rw [hc, List.cons_append, scan_hash (hnext (by decide) ?_) (hnext (by decide) fun es => hbar es hc), hcs']
      intro es hes
      cases es with
      | nil => exact hend hc hes
      | cons f es => exact hslash f es hc hes
    · rw [List.cons_append, scan_undelimited (hplain c List.mem_cons_self) hc, hcs']

/-! ### Atoms other than symbols -/

theorem misleads_hash (hbar : c ≠ '|') (hslash : c ≠ '\\') :
    misleads rest ('#' :: c :: cs) = misleads rest (c :: cs) := by
  rw [misleads]
  · rintro es - ⟨⟩
    exact hbar rfl
  · rintro - ⟨⟩
    exact hslash rfl
  · rintro e es - ⟨⟩
    exact hslash rfl

/-- A number behind a hash and a letter for its base. -/
theorem literal_cases {value : Option Double} {fault : ScanFault} (hc : c ∉ ['#', '|', '\\'])
    (hvalue : ∀ x, value = some x → '#' ∉ cs)
    (h : (match value with | some x => Except.ok (Token.number x) | none => .error fault) = .ok t) :
    t.opens = 0 ∧ misleads rest ('#' :: c :: cs) = false := by
  simp only [List.mem_cons, not_or] at hc
  obtain ⟨hhash, hbar, hslash, -⟩ := hc
  split at h
  · next x =>
    cases h
    refine ⟨rfl, ?_⟩
    rw [misleads_hash hbar hslash]
    exact misleads_of_not_mem (List.not_mem_cons_of_ne_of_not_mem (Ne.symm hhash) (hvalue x rfl))
  · cases h

theorem hashToken_cases (h : hashToken cs = .ok t) : t.opens = 0 ∧ misleads rest ('#' :: cs) = false := by
  unfold hashToken at h
  dsimp only at h
  split_ifs at h with htrue hfalse
  · cases h
    rcases htrue with rfl | rfl <;> exact ⟨rfl, rfl⟩
  · cases h
    rcases hfalse with rfl | rfl <;> exact ⟨rfl, rfl⟩
  · cases cs with
    | nil => cases h
    | cons c ds =>
      dsimp only at h
      split_ifs at h with hx hb ho hd
      · exact literal_cases (by rcases hx with rfl | rfl <;> decide) (fun _ => not_mem_of_radixNumber? (by decide)) h
      · exact literal_cases (by rcases hb with rfl | rfl <;> decide) (fun _ => not_mem_of_radixNumber? (by decide)) h
      · exact literal_cases (by rcases ho with rfl | rfl <;> decide) (fun _ => not_mem_of_radixNumber? (by decide)) h
      · exact literal_cases (by rcases hd with rfl | rfl <;> decide) (fun _ => not_mem_of_parse?) h

/-- No atom opens a list, and no atom but a symbol misleads the scan. -/
theorem atomToken_cases (h : atomToken cs = .ok t) :
    t.opens = 0 ∧ (misleads rest cs = false ∨ t = .symbol (.ofList cs)) := by
  rw [atomToken.eq_def] at h
  split at h
  · cases h
    exact ⟨rfl, .inl rfl⟩
  · obtain ⟨hopens, hcs⟩ := hashToken_cases h
    exact ⟨hopens, .inl hcs⟩
  · split at h
    · next x hparse =>
      cases h
      exact ⟨rfl, .inl (misleads_of_not_mem (not_mem_of_parse? hparse))⟩
    · split_ifs at h
      cases h
      exact ⟨rfl, .inr rfl⟩

/-! ## Tokens -/

/-- The scan passes over an atom at the start of a text. -/
theorem scan_afterAtom (hatom : misleads (afterAtom cs) (atomOf cs) = false) :
    scan .code d cs = scan .code d (afterAtom cs) := by
  have hsplit : cs = atomOf cs ++ afterAtom cs := List.takeWhile_append_dropWhile.symm
  rw [← scan_atom (undelimited_atomOf cs) hatom (delimited_afterAtom cs), ← hsplit]

/-- A character literal, whose text after `#\` is `cs`. -/
theorem scan_char : KeepsStep d (scan .code d ('#' :: '\\' :: cs)) (scanChar start loc cs) := by
  cases cs with
  | nil => exact False.elim
  | cons c cs =>
    have hnext (hcs : '#' ∉ atomOf cs) : scan .code d ('#' :: '\\' :: c :: cs) = scan .code (d + 0) (afterAtom cs) := by
      rw [scan_hash_slash, Int.add_zero]
      exact scan_afterAtom (misleads_of_not_mem hcs)
    unfold scanChar
    dsimp only
    split_ifs with hlength
    · refine hnext ?_
      rw [List.length_eq_zero_iff.1 (Nat.succ.inj hlength)]
      exact List.not_mem_nil
    · split
      · next hname => exact hnext fun hmem => not_mem_of_namedChar? hname (List.mem_cons_of_mem c hmem)
      · exact False.elim

/-- One token, of any kind. -/
theorem scan_token (d : Int) (loc : Location) (cs : List Char) (hspace : Text.isSpace c = false) (hcomment : c ≠ ';')
    (hplain : ∀ name next, scanToken loc c cs = .ok (.symbol name, next) → misleads next.rest name.toList = false) :
    KeepsStep d (scan .code d (c :: cs)) (scanToken loc c cs) := by
  unfold scanToken at hplain ⊢
  dsimp only at hplain ⊢
  split_ifs at hplain ⊢ with hleft hright hquote hstring hquasi hchar
  · show scan .code d (c :: cs) = scan .code (d + 1) cs
    rcases hleft with rfl | rfl <;> rfl
  · show scan .code d (c :: cs) = scan .code (d - 1) cs
    rcases hright with rfl | rfl <;> rfl
  · show scan .code d (c :: cs) = scan .code (d + 0) cs
    rw [hquote, Int.add_zero]
    rfl
  · rw [hstring]
    exact scan_string
  · exact False.elim
  · obtain ⟨rfl, hhead⟩ := hchar
    obtain ⟨ds, rfl⟩ := List.head?_eq_some_iff.1 hhead
    exact scan_char
  · have hc : isDelimiter c = false := by
      simp [isDelimiter, hspace, hcomment, hquote, hstring, not_or.1 hleft, not_or.1 hright]
    cases htoken : atomToken (c :: atomOf cs) with
    | error fault =>
      exact fun hfault => absurd hfault (not_endsInside_atomToken htoken)
    | ok token =>
      obtain ⟨hopens, hatom⟩ := atomToken_cases htoken
      rw [htoken] at hplain
      have hatom' : misleads (afterAtom cs) (c :: atomOf cs) = false := by
        rcases hatom with hatom | rfl
        · exact hatom
        · have hname := hplain _ _ rfl
          rwa [String.toList_ofList] at hname
      have hfirst : atomOf (c :: cs) = c :: atomOf cs ∧ afterAtom (c :: cs) = afterAtom cs := by
        simp [atomOf, afterAtom, hc]
      show scan .code d (c :: cs) = scan .code (d + token.opens) (afterAtom cs)
      rw [hopens, Int.add_zero, ← hfirst.2]
      exact scan_afterAtom (by rw [hfirst.1, hfirst.2]; exact hatom')

/-! ## Whole texts -/

/-- The scan counts the lists that the tokens of a text open, and finds out where the text ends inside one. -/
theorem scan_leadingTokens (d : Int) (found : Array Lexeme)
    (hplain : ∀ name rest, (.symbol name, rest) ∈ leadingTokens loc cs → misleads rest name.toList = false) :
    match scanAll found loc cs with
    | .ok _ => scan .code d cs = decide (0 < d + (((leadingTokens loc cs).map (·.1)).map Token.opens).sum)
    | .error e => e.fault.EndsInside → scan .code d cs = true := by
  fun_induction scanAll found loc cs generalizing d with
  | case1 found loc cs e hs => exact fun _ => scan_of_skipBlank_error hs
  | case2 found loc cs loc' hs =>
    rw [leadingTokens_eq, hs, List.map_nil, List.map_nil, List.sum_nil, Int.add_zero, scan_of_skipBlank hs, scan]
  | case3 found loc cs loc' c rest hs e ht =>
    obtain ⟨hspace, hcomment⟩ := skipBlank_head _ _ _ hs
    have htoken := scan_token d loc' rest hspace hcomment (by rw [ht]; simp)
    rw [ht] at htoken
    rw [scan_of_skipBlank hs]
    exact htoken
  | case4 found loc cs loc' c rest hs token next ht ih =>
    obtain ⟨hspace, hcomment⟩ := skipBlank_head _ _ _ hs
    have htokens : leadingTokens loc cs = (token, next.rest) :: leadingTokens next.location next.rest := by
      rw [leadingTokens_eq, hs]
      dsimp only
      rw [ht]
    rw [htokens] at hplain
    have htoken := scan_token d loc' rest hspace hcomment (by
      rw [ht]
      rintro name next ⟨⟩
      exact hplain name _ List.mem_cons_self)
    rw [ht] at htoken
    have hrest := ih (d + token.opens) fun name rest hname => hplain name rest (List.mem_cons_of_mem _ hname)
    rw [htokens, List.map_cons, List.map_cons, List.sum_cons, ← Int.add_assoc, scan_of_skipBlank hs, htoken]
    exact hrest

/-- Unless a symbol misleads it, the scan for unfinished input agrees with the splitting into tokens. A text that splits
is unfinished exactly if it has more opening than closing parentheses; a text that ends inside a string or a block
comment is unfinished. -/
theorem needsMore_agrees (source : String)
    (hplain : ∀ name rest, (.symbol name, rest) ∈ leadingTokens .start source.toList →
      misleads rest name.toList = false) :
    (∀ lexemes, tokenize source = .ok lexemes →
      (needsMore source = true ↔
        (lexemes.toList.map (·.token)).count .rightParen < (lexemes.toList.map (·.token)).count .leftParen)) ∧
      ∀ e, tokenize source = .error e → e.fault.EndsInside → needsMore source = true := by
  have hscan := scan_leadingTokens 0 #[] hplain
  constructor
  · intro lexemes htokenize
    have htokens := scanAll_leadingTokens htokenize
    rw [tokenize] at htokenize
    rw [htokenize] at hscan
    dsimp only at hscan
    rw [needsMore, hscan, htokens, decide_eq_true_iff, sum_opens]
    simp
  · intro e htokenize
    rw [tokenize] at htokenize
    rw [htokenize] at hscan
    exact hscan

/-- Hashes in symbols, and parentheses in a character, a string and comments; one list is open. -/
def oneOpen : String := "(a#\\b c#d #\\( \"(\" #| ( #| |# ) |# [e] ; )"

theorem needsMore_agrees_oneOpen :
    (∀ name rest, (.symbol name, rest) ∈ leadingTokens .start oneOpen.toList → misleads rest name.toList = false) ∧
      ∃ lexemes, tokenize oneOpen = .ok lexemes ∧ needsMore oneOpen = true ∧
        (lexemes.toList.map (·.token)).count .rightParen < (lexemes.toList.map (·.token)).count .leftParen := by
  have hall : ((leadingTokens .start oneOpen.toList).all fun entry =>
      match entry.1 with
      | .symbol name => !misleads entry.2 name.toList
      | _ => true) = true := by
    decide +kernel
  have hplain : ∀ name rest, (.symbol name, rest) ∈ leadingTokens .start oneOpen.toList →
      misleads rest name.toList = false := by
    intro name rest hmem
    simpa using List.all_eq_true.1 hall _ hmem
  have hopen : needsMore oneOpen = true := by decide +kernel
  have hsplits : (tokenize oneOpen).toBool = true := by decide +kernel
  cases htokenize : tokenize oneOpen with
  | error e =>
    rw [htokenize] at hsplits
    cases hsplits
  | ok lexemes =>
    exact ⟨hplain, lexemes, rfl, hopen, ((needsMore_agrees oneOpen hplain).1 lexemes htokenize).1 hopen⟩

-- A symbol that misleads the scan: nothing is open, and it waits for the end of a comment.
example : needsMore "a#|b" = true ∧ leadingTokens .start "a#|b".toList = [(.symbol "a#|b", [])] := by decide +kernel

end Continuation

end BoxedScheme
