import Mathlib.Data.List.TakeWhile
import BoxedScheme.Proofs.Data

/-!
# Splitting the text of a datum

Whatever follows the text of a datum, as long as it does not run on into it, the text splits into the tokens of the
datum.

* `Delimited rest` : the text is at its end, or at a character that ends an atom;
* `Scans cs ts` : in front of such a rest, the text `cs` splits into the tokens `ts`;
* `scans_atom`, `scans_string`, `scans_char` : one token;
* `standsAlone_iff` : a name that is one token by itself is one in any text;
* `scans_chars_tailChars`, `tokenize_chars` : the text of a datum.
-/

namespace BoxedScheme

open Numeral (Undelimited)

/-! ## Steps -/

section Steps

variable {found : Array Lexeme} {loc : Location} {c : Char} {cs : List Char}

theorem scanAll_eq (found : Array Lexeme) (loc : Location) (cs : List Char) :
    scanAll found loc cs = match skipBlank .outside loc cs with
      | .error e => .error e
      | .ok ⟨loc, []⟩ => .ok (found.push ⟨.endOfFile, loc⟩)
      | .ok ⟨loc, c :: rest⟩ => match scanToken loc c rest with
        | .error e => .error e
        | .ok (token, next) => scanAll (found.push ⟨token, loc⟩) next.location next.rest := by
  rw [scanAll]
  split <;> simp_all
  split <;> simp_all

theorem skipBlank_space (hc : Text.isSpace c = true) :
    skipBlank .outside loc (c :: cs) = skipBlank .outside (loc.after c) cs := by
  have hhash : c ≠ '#' := by
    rintro rfl
    exact absurd hc (by decide)
  rw [skipBlank.eq_def]
  split <;> simp_all

theorem skipBlank_token (hspace : Text.isSpace c = false) (hcomment : c ≠ ';') (hhash : c = '#' → cs.head? ≠ some '|') :
    skipBlank .outside loc (c :: cs) = .ok ⟨loc, c :: cs⟩ := by
  rw [skipBlank.eq_def]
  split <;> simp_all

theorem scanAll_space (hc : Text.isSpace c = true) :
    scanAll found loc (c :: cs) = scanAll found (loc.after c) cs := by
  rw [scanAll_eq, skipBlank_space hc, ← scanAll_eq]

theorem scanAll_nil : scanAll found loc [] = .ok (found.push ⟨.endOfFile, loc⟩) := by
  rw [scanAll_eq]
  rfl

theorem scanAll_token {token : Token} {next : Cursor} (hskip : skipBlank .outside loc (c :: cs) = .ok ⟨loc, c :: cs⟩)
    (htoken : scanToken loc c cs = .ok (token, next)) :
    scanAll found loc (c :: cs) = scanAll (found.push ⟨token, loc⟩) next.location next.rest := by
  rw [scanAll_eq, hskip]
  dsimp only
  rw [htoken]

end Steps

/-! ## Stretches of text -/

/-- The text is at its end, or at a character that ends an atom. -/
def Delimited : List Char → Prop
  | [] => True
  | c :: _ => isDelimiter c = true

/-- In front of a rest that does not run on into it, the text splits into the tokens. -/
def Scans (cs : List Char) (ts : List Token) : Prop :=
  ∀ rest, Delimited rest → ∀ found loc, ∃ lexemes : List Lexeme, ∃ loc', lexemes.map (·.token) = ts ∧
    scanAll found loc (cs ++ rest) = scanAll (found ++ lexemes.toArray) loc' rest

section Stretches

variable {c : Char} {cs ds rest : List Char} {t : Token} {ts us : List Token}

theorem atomOf_append (hcs : Undelimited cs) (hrest : Delimited rest) : atomOf (cs ++ rest) = cs := by
  have hplain : ∀ c ∈ cs, (!isDelimiter c) = true := fun c hc => by rw [hcs c hc]; rfl
  rw [atomOf, List.takeWhile_append_of_pos hplain]
  cases rest with
  | nil => simp
  | cons d rest =>
    have hd : isDelimiter d = true := hrest
    simp [hd]

theorem afterAtom_append (hcs : Undelimited cs) (hrest : Delimited rest) : afterAtom (cs ++ rest) = rest := by
  have hplain : ∀ c ∈ cs, (!isDelimiter c) = true := fun c hc => by rw [hcs c hc]; rfl
  rw [afterAtom, List.dropWhile_append_of_pos hplain]
  cases rest with
  | nil => simp
  | cons d rest =>
    have hd : isDelimiter d = true := hrest
    simp [hd]

/-- One token, from what the scanner does at its first character. -/
theorem scans_token (hspace : Text.isSpace c = false) (hcomment : c ≠ ';') (hhash : c = '#' → ∃ d ds, cs = d :: ds ∧ d ≠ '|')
    (hscan : ∀ rest, Delimited rest → ∀ loc, ∃ loc', scanToken loc c (cs ++ rest) = .ok (t, ⟨loc', rest⟩)) :
    Scans (c :: cs) [t] := by
  intro rest hrest found loc
  obtain ⟨loc', htoken⟩ := hscan rest hrest loc
  have hblock : c = '#' → (cs ++ rest).head? ≠ some '|' := by
    intro hc
    obtain ⟨d, ds, rfl, hd⟩ := hhash hc
    simpa using hd
  refine ⟨[⟨t, loc⟩], loc', rfl, ?_⟩
  rw [List.cons_append, scanAll_token (skipBlank_token hspace hcomment hblock) htoken]
  rfl

theorem Scans.append (hcs : Scans cs ts) (hds : Scans ds us) (hstart : ∀ rest, Delimited (ds ++ rest)) :
    Scans (cs ++ ds) (ts ++ us) := by
  intro rest hrest found loc
  obtain ⟨first, loc₁, rfl, hfirst⟩ := hcs (ds ++ rest) (hstart rest) found loc
  obtain ⟨second, loc₂, rfl, hsecond⟩ := hds rest hrest (found ++ first.toArray) loc₁
  refine ⟨first ++ second, loc₂, List.map_append, ?_⟩
  rw [List.append_assoc, hfirst, hsecond]
  simp

/-- The stretch as a whole text. -/
theorem Scans.tokenize (hcs : Scans cs ts) :
    ∃ lexemes, tokenize (.ofList cs) = .ok lexemes ∧ lexemes.toList.map (·.token) = ts ++ [.endOfFile] := by
  obtain ⟨lexemes, loc, htokens, hscan⟩ := hcs [] trivial #[] .start
  refine ⟨lexemes.toArray.push ⟨.endOfFile, loc⟩, ?_, ?_⟩
  · rw [BoxedScheme.tokenize, String.toList_ofList, ← List.append_nil cs, hscan, scanAll_nil, Array.empty_append]
  · simp [htokens]

theorem Scans.space (hcs : Scans cs ts) : Scans (' ' :: cs) ts := by
  intro rest hrest found loc
  obtain ⟨lexemes, loc', htokens, hscan⟩ := hcs rest hrest found (loc.after ' ')
  refine ⟨lexemes, loc', htokens, ?_⟩
  rw [List.cons_append, scanAll_space (by decide), hscan]

theorem Scans.leftParen (hcs : Scans cs ts) : Scans ('(' :: cs) (.leftParen :: ts) := by
  intro rest hrest found loc
  obtain ⟨lexemes, loc', htokens, hscan⟩ := hcs rest hrest (found.push ⟨.leftParen, loc⟩) (loc.after '(')
  refine ⟨⟨.leftParen, loc⟩ :: lexemes, loc', by rw [List.map_cons, htokens], ?_⟩
  have hskip : skipBlank .outside loc ('(' :: (cs ++ rest)) = .ok ⟨loc, '(' :: (cs ++ rest)⟩ :=
    skipBlank_token (by decide) (by decide) (by simp)
  rw [List.cons_append, scanAll_token hskip rfl, hscan]
  simp

theorem scans_rightParen : Scans [')'] [.rightParen] :=
  scans_token (by decide) (by decide) (by simp) fun _ _ loc => ⟨loc.after ')', rfl⟩

/-- An atom that is neither a character nor a comment, from the token it is as a whole. -/
theorem scans_atom (hplain : Undelimited (c :: cs)) (hquasi : c ≠ '`' ∧ c ≠ ',')
    (hhash : c = '#' → ∃ d ds, cs = d :: ds ∧ d ≠ '|' ∧ d ≠ '\\') (ht : atomToken (c :: cs) = .ok t) :
    Scans (c :: cs) [t] := by
  have hc : isDelimiter c = false := hplain c List.mem_cons_self
  have hcs : Undelimited cs := fun d hd => hplain d (List.mem_cons_of_mem c hd)
  simp only [isDelimiter, Bool.or_eq_false_iff, decide_eq_false_iff_not] at hc
  refine scans_token hc.1.1.1.1.1.1.1 hc.1.2 ?_ ?_
  · intro heq
    obtain ⟨d, ds, hds, hd, -⟩ := hhash heq
    exact ⟨d, ds, hds, hd⟩
  · intro rest hrest loc
    have hchar : ¬(c = '#' ∧ (cs ++ rest).head? = some '\\') := by
      rintro ⟨heq, hhead⟩
      obtain ⟨d, ds, rfl, -, hd⟩ := hhash heq
      exact hd (by simpa using hhead)
    refine ⟨loc.afterAll (c :: cs), ?_⟩
    rw [scanToken]
    simp only [hc, hquasi, hchar, atomOf_append hcs hrest, afterAtom_append hcs hrest, ht, or_self, if_false]

end Stretches

/-! ## Atoms -/

section Atoms

theorem scans_dot : Scans ['.'] [.dot] :=
  scans_atom (by decide) (by decide) (by simp) rfl

theorem scans_boolean (b : Bool) : Scans (Atom.boolean b).chars [.boolean b] := by
  cases b with
  | true =>
    show Scans ['#', 't'] [.boolean true]
    exact scans_atom (by decide) (by decide) (fun _ => ⟨'t', [], rfl, by decide, by decide⟩) rfl
  | false =>
    show Scans ['#', 'f'] [.boolean false]
    exact scans_atom (by decide) (by decide) (fun _ => ⟨'f', [], rfl, by decide, by decide⟩) rfl

/-- An atom with the value of a number is that number, unless its first character claims it. -/
theorem atomToken_number {c : Char} {cs : List Char} {x : Double} (hstart : c.isDigit = true ∨ c = '-' ∨ c = '+')
    (hparse : Numeral.parse? (c :: cs) = some x) : atomToken (c :: cs) = .ok (.number x) := by
  have hdot : c ≠ '.' := by rintro rfl; exact absurd hstart (by decide)
  have hhash : c ≠ '#' := by rintro rfl; exact absurd hstart (by decide)
  rw [atomToken.eq_def]
  split
  · rename_i heq
    cases heq
    exact absurd rfl hdot
  · rename_i heq
    cases heq
    exact absurd rfl hhash
  · rw [hparse]

theorem scans_number {x : Double} (hnan : x.isNaN = false) (hzero : x ≠ Numeral.negativeZero) :
    Scans (Numeral.format x).toList [.number x] := by
  obtain ⟨c, cs, htext, hplain, hstart⟩ := Numeral.format_start x
  have hparse := Numeral.parse?_format hnan hzero
  rw [htext] at hparse ⊢
  have hhash : c ≠ '#' := by rintro rfl; exact absurd hstart (by decide)
  refine scans_atom hplain ?_ (fun hc => absurd hc hhash) (atomToken_number hstart hparse)
  constructor
  · rintro rfl
    exact absurd hstart (by decide)
  · rintro rfl
    exact absurd hstart (by decide)

/-! ### Strings -/

theorem scanString_escaped (start loc : Location) (read cs rest : List Char) :
    ∃ loc', scanString start loc read (cs.flatMap Printer.escaped ++ '"' :: rest) =
      .ok (.string (.ofList (read.reverse ++ cs)), ⟨loc', rest⟩) := by
  induction cs generalizing loc read with
  | nil => exact ⟨loc.after '"', by simp [scanString]⟩
  | cons c cs ih =>
    -- Every character reads back as itself: behind a backslash by `unescape?`, and otherwise as it stands.
    have hstep : ∃ loc', scanString start loc read ((c :: cs).flatMap Printer.escaped ++ '"' :: rest) =
        scanString start loc' (c :: read) (cs.flatMap Printer.escaped ++ '"' :: rest) := by
      rw [List.flatMap_cons, Printer.escaped, List.append_assoc]
      split_ifs with hquote hslash hnewline htab hreturn
      · exact ⟨_, by rw [hquote]; rfl⟩
      · exact ⟨_, by rw [hslash]; rfl⟩
      · exact ⟨_, by rw [hnewline]; rfl⟩
      · exact ⟨_, by rw [htab]; rfl⟩
      · exact ⟨_, by rw [hreturn]; rfl⟩
      · refine ⟨loc.after c, ?_⟩
        rw [List.singleton_append, scanString]
        · exact hquote
        · exact fun h => absurd h hslash
        · exact fun _ _ h => absurd h hslash
    obtain ⟨loc₁, hstep⟩ := hstep
    obtain ⟨loc₂, hrest⟩ := ih loc₁ (c :: read)
    refine ⟨loc₂, ?_⟩
    rw [hstep, hrest, List.reverse_cons, List.append_assoc, List.singleton_append]

theorem scans_string (s : String) : Scans (Printer.stringLiteral s).toList [.string s] := by
  rw [Printer.stringLiteral, String.toList_ofList, List.cons_append]
  refine scans_token (by decide) (by decide) (by simp) fun rest _ loc => ?_
  obtain ⟨loc', hscan⟩ := scanString_escaped loc (loc.after '"') [] s.toList rest
  refine ⟨loc', ?_⟩
  rw [List.append_assoc, List.singleton_append]
  simpa [scanToken] using hscan

/-! ### Characters -/

/-- A character literal, from its first character and the rest of its name. -/
theorem scans_charLiteral_of_name {c d : Char} {cs : List Char} (hplain : Undelimited cs)
    (hname : cs = [] ∧ d = c ∨ cs ≠ [] ∧ namedChar? (d :: cs) = some c) : Scans ('#' :: '\\' :: d :: cs) [.char c] := by
  refine scans_token (by decide) (by decide) (fun _ => ⟨'\\', d :: cs, rfl, by decide⟩) fun rest hrest loc => ?_
  refine ⟨((loc.after '#').after '\\').afterAll (d :: cs), ?_⟩
  have hscan : scanToken loc '#' ('\\' :: d :: cs ++ rest) =
      scanChar loc ((loc.after '#').after '\\') (d :: (cs ++ rest)) := by
    rw [scanToken]
    simp
  rw [hscan, scanChar]
  simp only [atomOf_append hplain hrest, afterAtom_append hplain hrest]
  obtain ⟨rfl, rfl⟩ | ⟨hcs, hname⟩ := hname
  · rw [if_pos List.length_singleton]
  · rw [if_neg (by simpa using hcs), hname]

/-- The writer's names are among the reader's. -/
theorem charName?_mem {c : Char} {name : String} (h : Printer.charName? c = some name) : (name, c) ∈ charNames := by
  simp only [Printer.charName?, ite_eq_iff, Option.some.injEq, reduceCtorEq] at h
  simp only [charNames, List.mem_cons, Prod.mk.injEq]
  grind

theorem namedChar?_name : ∀ entry ∈ charNames, Undelimited entry.1.toList ∧ 1 < entry.1.toList.length ∧
    namedChar? entry.1.toList = some entry.2 := by
  decide +kernel

/-- No name starts like a code. -/
theorem lookup_charNames (cs : List Char) : charNames.lookup (.ofList ('x' :: cs)) = none := by
  have hnames : ∀ entry ∈ charNames, entry.1.toList.head? ≠ some 'x' := by decide
  rw [List.lookup_eq_none_iff]
  intro entry hentry
  rw [bne_iff_ne]
  intro hname
  apply hnames entry hentry
  rw [← hname, String.toList_ofList]
  rfl

theorem hexDigit_cases (d : Fin 16) : isDelimiter (Nat.digitChar d) = false ∧
    (Nat.digitChar d).toLower = Nat.digitChar d ∧ Nat.digitChar d ≠ '+' ∧ Numeral.digitValue (Nat.digitChar d) = d := by
  revert d
  decide

theorem mem_toDigits {n : Nat} {c : Char} (hc : c ∈ Nat.toDigits 16 n) : ∃ d : Fin 16, c = Nat.digitChar d := by
  induction n using Nat.strongRecOn with
  | ind n ih =>
    by_cases hn : n < 16
    · rw [Nat.toDigits_of_lt_base hn, List.mem_singleton] at hc
      exact ⟨⟨n, hn⟩, hc⟩
    · rw [Nat.toDigits_of_base_le (by decide) (by omega), List.mem_append, List.mem_singleton] at hc
      obtain hc | hc := hc
      · exact ih (n / 16) (by omega) hc
      · exact ⟨⟨n % 16, by omega⟩, hc⟩

theorem digits?_concat {cs : List Char} {d : Char} {n : Nat} (hcs : Numeral.digits? 16 cs = some n)
    (hd : Numeral.digitValue d < 16) : Numeral.digits? 16 (cs ++ [d]) = some (n * 16 + Numeral.digitValue d) := by
  unfold Numeral.digits? at hcs ⊢
  split at hcs
  · cases hcs
  · rw [if_neg (by simp), List.foldl_append, hcs, List.foldl_cons, List.foldl_nil, Option.bind_some, if_pos hd]

theorem digits?_toDigits (n : Nat) : Numeral.digits? 16 (Nat.toDigits 16 n) = some n := by
  induction n using Nat.strongRecOn with
  | ind n ih =>
    by_cases hn : n < 16
    · obtain ⟨-, -, -, hvalue⟩ := hexDigit_cases ⟨n, hn⟩
      dsimp only at hvalue
      rw [Nat.toDigits_of_lt_base hn]
      simp [Numeral.digits?, hvalue, hn]
    · obtain ⟨-, -, -, hvalue⟩ := hexDigit_cases ⟨n % 16, by omega⟩
      dsimp only at hvalue
      rw [Nat.toDigits_of_base_le (by decide) (by omega), digits?_concat (ih (n / 16) (by omega)) (by omega), hvalue]
      congr 1
      omega

theorem undelimited_toDigits (n : Nat) : Undelimited (Nat.toDigits 16 n) := by
  intro c hc
  obtain ⟨d, rfl⟩ := mem_toDigits hc
  exact (hexDigit_cases d).1

theorem map_toLower_toDigits (n : Nat) : (Nat.toDigits 16 n).map Char.toLower = Nat.toDigits 16 n := by
  have hlower : ∀ c ∈ Nat.toDigits 16 n, c.toLower = id c := by
    intro c hc
    obtain ⟨d, rfl⟩ := mem_toDigits hc
    exact (hexDigit_cases d).2.1
  rw [List.map_congr_left hlower, List.map_id]

theorem charOfHex?_toDigits (c : Char) : charOfHex? (Nat.toDigits 16 c.toNat) = some c := by
  have hsign : ∀ cs, Nat.toDigits 16 c.toNat ≠ '+' :: cs := by
    intro cs hcs
    obtain ⟨d, hd⟩ := mem_toDigits (hcs ▸ List.mem_cons_self : '+' ∈ Nat.toDigits 16 c.toNat)
    exact (hexDigit_cases d).2.2.1 hd.symm
  unfold charOfHex?
  split
  · rename_i cs heq
    exact absurd heq (hsign cs)
  · dsimp only
    rw [digits?_toDigits, Option.bind_some]
    exact dif_pos c.valid

/-- The code of a character in base sixteen is a name for it. -/
theorem namedChar?_code (c : Char) : namedChar? ('x' :: Nat.toDigits 16 c.toNat) = some c := by
  have hlower : ('x' :: Nat.toDigits 16 c.toNat).map Char.toLower = 'x' :: Nat.toDigits 16 c.toNat := by
    rw [List.map_cons, map_toLower_toDigits]
    rfl
  simp only [namedChar?, hlower, lookup_charNames, charOfHex?_toDigits]

theorem scans_char (c : Char) : Scans (Printer.charLiteral c).toList [.char c] := by
  rw [Printer.charLiteral]
  cases hname : Printer.charName? c with
  | some name =>
    obtain ⟨hplain, hlength, hvalue⟩ := namedChar?_name (name, c) (charName?_mem hname)
    simp only [String.toList_append]
    generalize name.toList = cs at hplain hlength hvalue
    obtain ⟨d, ds, rfl⟩ := List.exists_cons_of_length_pos (by omega : 0 < cs.length)
    have hds : ds ≠ [] := by
      rintro rfl
      exact absurd hlength (by simp)
    exact scans_charLiteral_of_name (fun e he => hplain e (List.mem_cons_of_mem d he)) (.inr ⟨hds, hvalue⟩)
  | none =>
    dsimp only
    split_ifs with hcontrol
    · have hne : Nat.toDigits 16 c.toNat ≠ [] := List.length_pos_iff.1 Nat.length_toDigits_pos
      have htext : ("#\\x" ++ String.ofList (Nat.toDigits 16 c.toNat)).toList =
          '#' :: '\\' :: 'x' :: Nat.toDigits 16 c.toNat := by
        simp only [String.toList_append, String.toList_ofList]
        rfl
      rw [htext]
      exact scans_charLiteral_of_name (undelimited_toDigits c.toNat) (.inr ⟨hne, namedChar?_code c⟩)
    · have hplain : Undelimited [] := fun _ h => nomatch h
      rw [String.toList_append, String.toList_singleton]
      exact scans_charLiteral_of_name hplain (.inl ⟨rfl, rfl⟩)

/-! ### Symbols -/

theorem skipBlank_head (mode : Blank) (loc : Location) (cs : List Char) {loc' : Location} {c : Char} {rest : List Char}
    (h : skipBlank mode loc cs = .ok ⟨loc', c :: rest⟩) : Text.isSpace c = false ∧ c ≠ ';' := by
  fun_induction skipBlank mode loc cs <;> grind

theorem prefix_scanAll {found lexemes : Array Lexeme} {loc : Location} {cs : List Char}
    (h : scanAll found loc cs = .ok lexemes) : found.toList <+: lexemes.toList := by
  fun_induction scanAll found loc cs with
  | case1 => cases h
  | case2 =>
    cases h
    simp
  | case3 => cases h
  | case4 found loc cs loc' c rest _ token next _ ih =>
    have hprefix := ih h
    rw [Array.toList_push] at hprefix
    exact (List.prefix_append _ _).trans hprefix

theorem hashToken_ne_symbol {cs : List Char} {name : String} : hashToken cs ≠ .ok (.symbol name) := by
  intro h
  unfold hashToken at h
  dsimp only at h
  repeat' split at h
  all_goals cases h

/-- Only a whole atom is a symbol, and it is its own name. -/
theorem atomToken_symbol {cs : List Char} {name : String} (h : atomToken cs = .ok (.symbol name)) :
    name = .ofList cs ∧ cs.head? ≠ some '#' := by
  rw [atomToken.eq_def] at h
  split at h
  · cases h
  · exact absurd h hashToken_ne_symbol
  · rename_i hhash
    refine ⟨by grind, ?_⟩
    intro hhead
    obtain ⟨ds, rfl⟩ := List.head?_eq_some_iff.1 hhead
    exact hhash ds rfl

theorem scanString_ne_symbol {start loc : Location} {read cs : List Char} {name : String} {next : Cursor} :
    scanString start loc read cs ≠ .ok (.symbol name, next) := by
  fun_induction scanString start loc read cs <;> grind

theorem scanChar_ne_symbol {start loc : Location} {cs : List Char} {name : String} {next : Cursor} :
    scanChar start loc cs ≠ .ok (.symbol name, next) := by
  cases cs <;> grind [scanChar]

theorem scanToken_symbol {loc : Location} {c : Char} {cs : List Char} {name : String} {next : Cursor}
    (hspace : Text.isSpace c = false) (hcomment : c ≠ ';') (h : scanToken loc c cs = .ok (.symbol name, next)) :
    isDelimiter c = false ∧ (c ≠ '`' ∧ c ≠ ',') ∧ atomToken (c :: atomOf cs) = .ok (.symbol name) := by
  simp only [scanToken] at h
  split_ifs at h with hleft hright hquote hstring hquasi hchar
  · cases h
  · cases h
  · cases h
  · exact absurd h scanString_ne_symbol
  · exact absurd h scanChar_ne_symbol
  · refine ⟨?_, not_or.1 hquasi, by grind⟩
    simp [isDelimiter, hspace, hcomment, hquote, hstring, not_or.1 hleft, not_or.1 hright]

theorem undelimited_atomOf (cs : List Char) : Undelimited (atomOf cs) := by
  intro c hc
  simpa using List.mem_takeWhile_imp hc

/-- A name that stands alone is one atom, and stands alone in any text. -/
theorem scans_symbol {name : String} (h : StandsAlone name) : Scans name.toList [.symbol name] := by
  obtain ⟨lexemes, hscan, htokens⟩ := h
  rw [tokenize, scanAll_eq] at hscan
  split at hscan
  · cases hscan
  · cases hscan
    simp at htokens
  · rename_i loc c rest hskip
    obtain ⟨hspace, hcomment⟩ := skipBlank_head _ _ _ hskip
    split at hscan
    · cases hscan
    · rename_i token next htoken
      obtain ⟨others, hlexemes⟩ := prefix_scanAll hscan
      obtain rfl : token = .symbol name := by
        rw [← hlexemes] at htokens
        simpa using And.left (List.cons.inj htokens)
      obtain ⟨hc, hquasi, hatom⟩ := scanToken_symbol hspace hcomment htoken
      obtain ⟨hname, hhash⟩ := atomToken_symbol hatom
      have htext : name.toList = c :: atomOf rest := by rw [hname, String.toList_ofList]
      rw [htext]
      refine scans_atom (Numeral.undelimited_cons hc (undelimited_atomOf rest)) hquasi ?_ hatom
      rintro rfl
      exact absurd rfl hhash

theorem standsAlone_iff {name : String} : StandsAlone name ↔ Scans name.toList [.symbol name] := by
  constructor
  · exact scans_symbol
  · intro hscans
    obtain ⟨lexemes, htokenize, htokens⟩ := hscans.tokenize
    rw [String.ofList_toList] at htokenize
    exact ⟨lexemes, htokenize, htokens⟩

theorem scans_atom_chars {a : Atom} (ha : a.Writable) : Scans a.chars [a.token] := by
  cases a with
  | boolean b => exact scans_boolean b
  | char c => exact scans_char c
  | number x => exact scans_number ha.1 ha.2
  | string s => exact scans_string s
  | symbol name => exact scans_symbol ha

end Atoms

/-! ## Data -/

theorem delimited_tailChars (d : Datum) (rest : List Char) : Delimited (d.tailChars ++ rest) := by
  cases d with
  | nil => exact (by decide : isDelimiter ')' = true)
  | atom a => exact (by decide : isDelimiter ' ' = true)
  | pair a d => exact (by decide : isDelimiter ' ' = true)

/-- The text of a datum splits into its tokens, and so does the text of a list behind an element. -/
theorem scans_chars_tailChars (d : Datum) (hd : d.Writable) :
    Scans d.chars d.tokens ∧ Scans d.tailChars d.tailTokens := by
  have hclosed : ∀ rest, Delimited ([')'] ++ rest) := fun _ => (by decide : isDelimiter ')' = true)
  induction d with
  | nil =>
    rw [Datum.chars, Datum.tokens, Datum.tailChars, Datum.tailTokens]
    exact ⟨scans_rightParen.leftParen, scans_rightParen⟩
  | atom a =>
    rw [Datum.chars, Datum.tokens, Datum.tailChars, Datum.tailTokens]
    have ha := scans_atom_chars (a := a) hd
    have hspace : ∀ rest, Delimited (' ' :: (a.chars ++ [')']) ++ rest) := fun _ => (by decide : isDelimiter ' ' = true)
    exact ⟨ha, (scans_dot.append (ha.append scans_rightParen hclosed).space hspace).space⟩
  | pair a d iha ihd =>
    obtain ⟨-, ha, hd⟩ := hd
    rw [Datum.chars, Datum.tokens, Datum.tailChars, Datum.tailTokens]
    have hitems := (iha ha).1.append (ihd hd).2 (delimited_tailChars d)
    exact ⟨hitems.leftParen, hitems.space⟩

/-- The text of a datum by itself splits into its tokens and the end of the text. -/
theorem tokenize_chars {d : Datum} (hd : d.Writable) :
    ∃ lexemes, tokenize (.ofList d.chars) = .ok lexemes ∧
      lexemes.toList.map (·.token) = d.tokens ++ [.endOfFile] :=
  (scans_chars_tailChars d hd).1.tokenize

end BoxedScheme
