import BoxedScheme.Proofs.Unfinished

/-!
# Texts line by line

A newline ends whatever is being read, except inside a string or a block comment. So a text that splits into tokens can
be split apart from the lines behind it, whose tokens stand where they stand in a text of their own, only further down.

* `Location.down`, `Lexeme.down`, `ScanError.down` : the same column so many lines further down;
* `skipBlank_down`, `scanToken_down`, `scanAll_down` : the splitting does not depend on the line it starts on;
* `Cursor.Behind next loc cs` : the place of what is left is the one behind the characters taken from `cs`;
* `skipBlank_newline`, `scanToken_newline`, `scanAll_newline` : what a newline and more text behind a text change;
* `tokenize_newline` : the tokens of a text, a newline and another text.
-/

namespace BoxedScheme

/-! ## Further down -/

/-- The place in the same column, so many lines further down. -/
def Location.down (n : Nat) (l : Location) : Location := ⟨l.line + n, l.column⟩

def Lexeme.down (n : Nat) (x : Lexeme) : Lexeme := ⟨x.token, x.location.down n⟩

def ScanError.down (n : Nat) (e : ScanError) : ScanError := ⟨e.fault, e.location.down n⟩

def Cursor.down (n : Nat) (c : Cursor) : Cursor := ⟨c.location.down n, c.rest⟩

def Blank.down (n : Nat) : Blank → Blank
  | .outside => .outside
  | .line => .line
  | .block start depth => .block (start.down n) depth

/-- An outcome so many lines further down, where `f` says what this means for a value. -/
def outcomeDown {α : Type} (n : Nat) (f : α → α) : Except ScanError α → Except ScanError α
  | .ok a => .ok (f a)
  | .error e => .error (e.down n)

section Down

variable {loc start : Location} {c : Char} {cs : List Char}

theorem Location.after_down (n : Nat) (loc : Location) (c : Char) : (loc.down n).after c = (loc.after c).down n := by
  unfold after down
  split
  · rw [Nat.add_right_comm]
  · rfl

theorem Location.afterAll_down (n : Nat) (loc : Location) (cs : List Char) :
    (loc.down n).afterAll cs = (loc.afterAll cs).down n := by
  induction cs generalizing loc with
  | nil => rfl
  | cons c cs ih =>
    show ((loc.down n).after c).afterAll cs = _
    rw [after_down, ih]
    rfl

/-- In a block comment only its brackets count. -/
theorem skipBlank_block {depth : Nat} (hclose : ∀ es, c = '|' → cs ≠ '#' :: es)
    (hopen : ∀ es, c = '#' → cs ≠ '|' :: es) :
    skipBlank (.block start depth) loc (c :: cs) = skipBlank (.block start depth) (loc.after c) cs := by
  rw [skipBlank.eq_def]
  split <;> grind

theorem skipBlank_down (n : Nat) (mode : Blank) (loc : Location) (cs : List Char) :
    skipBlank (mode.down n) (loc.down n) cs = outcomeDown n (Cursor.down n) (skipBlank mode loc cs) := by
  fun_induction skipBlank mode loc cs with
  | case1 start depth => rfl
  | case2 mode loc hmode =>
    cases mode with
    | outside | line => rfl
    | block start depth => exact (hmode start depth rfl).elim
  | case3 loc cs ih =>
    rw [← ih, ← Location.after_down, ← Location.after_down]
    rfl
  | case4 loc c cs _ hspace ih => rw [← ih, Blank.down, skipBlank_space hspace, Location.after_down]
  | case5 loc cs _ hspace ih =>
    rw [← ih, ← Location.after_down]
    rfl
  | case6 loc c cs hblock hspace hcomment =>
    rw [Blank.down, skipBlank_token (Bool.eq_false_iff.2 hspace) hcomment]
    · rfl
    · intro hc hhead
      obtain ⟨es, rfl⟩ := List.head?_eq_some_iff.1 hhead
      exact hblock es hc rfl
  | case7 loc c cs ih =>
    rw [← ih, ← Location.after_down]
    by_cases hc : c = '\n'
    · subst hc
      rfl
    · show skipBlank (if c = '\n' then .outside else .line) _ cs = _
      rw [if_neg hc]
      rfl
  | case8 start loc cs loc' ih =>
    rw [← ih, ← Location.after_down, ← Location.after_down]
    rfl
  | case9 start loc cs loc' depth ih =>
    rw [← ih, ← Location.after_down, ← Location.after_down]
    rfl
  | case10 start depth loc cs ih =>
    rw [← ih, ← Location.after_down, ← Location.after_down]
    rfl
  | case11 start depth loc c cs hclose hopen ih =>
    rw [← ih, Blank.down, skipBlank_block hclose hopen, Location.after_down]

theorem scanString_down (n : Nat) (start loc : Location) (read cs : List Char) :
    scanString (start.down n) (loc.down n) read cs =
      outcomeDown n (Prod.map id (Cursor.down n)) (scanString start loc read cs) := by
  fun_induction scanString start loc read cs with
  | case1 => rfl
  | case2 loc read cs =>
    rw [scanString, Location.after_down]
    rfl
  | case3 loc read =>
    rw [scanString, Location.after_down]
    rfl
  | case4 loc read c cs loc' e hc ih =>
    rw [← ih, scanString, Location.after_down, Location.after_down, hc]
  | case5 loc read c cs loc' hc ih =>
    rw [← ih, scanString, Location.after_down, Location.after_down, hc]
  | case6 loc read c cs loc' hc =>
    rw [scanString, Location.after_down, Location.after_down, hc]
    rfl
  | case7 loc read c cs hquote hend hslash ih =>
    rw [← ih, scanString, Location.after_down]
    · exact hquote
    · exact hend
    · exact hslash

theorem scanChar_down (n : Nat) (start loc : Location) (cs : List Char) :
    scanChar (start.down n) (loc.down n) cs =
      outcomeDown n (Prod.map id (Cursor.down n)) (scanChar start loc cs) := by
  cases cs with
  | nil => rfl
  | cons c cs =>
    simp only [scanChar, Location.afterAll_down]
    split
    · rfl
    · split <;> rfl

theorem scanToken_down (n : Nat) (loc : Location) (c : Char) (cs : List Char) :
    scanToken (loc.down n) c cs = outcomeDown n (Prod.map id (Cursor.down n)) (scanToken loc c cs) := by
  simp only [scanToken, Location.after_down, Location.afterAll_down, scanString_down, scanChar_down]
  split_ifs
  · rfl
  · rfl
  · rfl
  · rfl
  · rfl
  · rfl
  · split <;> rfl

theorem scanAll_down (n : Nat) (found : Array Lexeme) (loc : Location) (cs : List Char) :
    scanAll (found.map (Lexeme.down n)) (loc.down n) cs =
      outcomeDown n (Array.map (Lexeme.down n)) (scanAll found loc cs) := by
  have hskip := skipBlank_down n .outside
  rw [Blank.down] at hskip
  fun_induction scanAll found loc cs with
  | case1 found loc cs e hs =>
    rw [scanAll_eq, hskip, hs]
    rfl
  | case2 found loc cs loc' hs =>
    rw [scanAll_eq, hskip, hs]
    show Except.ok ((found.map _).push _) = Except.ok ((found.push _).map _)
    rw [Array.map_push]
    rfl
  | case3 found loc cs loc' c rest hs e ht =>
    rw [scanAll_eq, hskip, hs]
    dsimp only [outcomeDown, Cursor.down]
    rw [scanToken_down, ht]
    rfl
  | case4 found loc cs loc' c rest hs token next ht ih =>
    rw [← ih, scanAll_eq, hskip, hs]
    dsimp only [outcomeDown, Cursor.down]
    rw [scanToken_down, ht, Array.map_push]
    rfl

end Down

/-- What was found before stands in front of what is found. -/
theorem scanAll_append (before found : Array Lexeme) (loc : Location) (cs : List Char) :
    scanAll (before ++ found) loc cs = (before ++ ·) <$> scanAll found loc cs := by
  fun_induction scanAll found loc cs with
  | case1 found loc cs e hs =>
    rw [scanAll_eq, hs]
    rfl
  | case2 found loc cs loc' hs =>
    rw [scanAll_eq, hs]
    show Except.ok ((before ++ found).push _) = Except.ok (before ++ found.push _)
    rw [Array.append_push]
  | case3 found loc cs loc' c rest hs e ht =>
    rw [scanAll_eq, hs]
    dsimp only
    rw [ht]
    rfl
  | case4 found loc cs loc' c rest hs token next ht ih =>
    rw [← ih, scanAll_eq, hs]
    dsimp only
    rw [ht, Array.append_push]

/-! ## Where a text ends -/

/-- What is left of a text is at the place behind the characters taken from it. -/
def Cursor.Behind (next : Cursor) (loc : Location) (cs : List Char) : Prop :=
  ∃ read, cs = read ++ next.rest ∧ next.location = loc.afterAll read

section Places

variable {loc start : Location} {c : Char} {cs read : List Char} {mode : Blank} {next : Cursor} {t : Token}

theorem Cursor.Behind.cons (hn : next.Behind (loc.after c) cs) : next.Behind loc (c :: cs) := by
  obtain ⟨read, rfl, hloc⟩ := hn
  exact ⟨c :: read, rfl, hloc⟩

/-- The text ends where what is left of it ends. -/
theorem Cursor.Behind.afterAll (hn : next.Behind loc cs) : next.location.afterAll next.rest = loc.afterAll cs := by
  obtain ⟨read, rfl, hloc⟩ := hn
  rw [hloc]
  exact List.foldl_append.symm

theorem behind_skipBlank (hs : skipBlank mode loc cs = .ok next) : next.Behind loc cs := by
  fun_induction skipBlank mode loc cs with
  | case1 => cases hs
  | case2 =>
    cases hs
    exact ⟨[], rfl, rfl⟩
  | case3 loc cs ih => exact (ih hs).cons.cons
  | case4 loc c cs _ _ ih => exact (ih hs).cons
  | case5 loc cs _ _ ih => exact (ih hs).cons
  | case6 =>
    cases hs
    exact ⟨[], rfl, rfl⟩
  | case7 loc c cs ih => exact (ih hs).cons
  | case8 start loc cs loc' ih => exact (ih hs).cons.cons
  | case9 start loc cs loc' depth ih => exact (ih hs).cons.cons
  | case10 start depth loc cs ih => exact (ih hs).cons.cons
  | case11 start depth loc c cs _ _ ih => exact (ih hs).cons

theorem behind_scanString (hs : scanString start loc read cs = .ok (t, next)) : next.Behind loc cs := by
  fun_induction scanString start loc read cs with
  | case1 => cases hs
  | case2 loc read cs =>
    cases hs
    exact ⟨['"'], rfl, rfl⟩
  | case3 => cases hs
  | case4 loc read c cs loc' e hc ih => exact (ih hs).cons.cons
  | case5 loc read c cs loc' hc ih => exact (ih hs).cons.cons
  | case6 => cases hs
  | case7 loc read c cs _ _ _ ih => exact (ih hs).cons

theorem atomOf_append_afterAtom (cs : List Char) : atomOf cs ++ afterAtom cs = cs := List.takeWhile_append_dropWhile

theorem behind_afterAtom (loc : Location) (c : Char) (cs : List Char) :
    (⟨loc.afterAll (c :: atomOf cs), afterAtom cs⟩ : Cursor).Behind loc (c :: cs) :=
  ⟨c :: atomOf cs, by rw [List.cons_append, atomOf_append_afterAtom], rfl⟩

theorem behind_scanChar (hs : scanChar start loc cs = .ok (t, next)) : next.Behind loc cs := by
  cases cs with
  | nil => cases hs
  | cons c cs =>
    unfold scanChar at hs
    dsimp only at hs
    split_ifs at hs
    · cases hs
      exact behind_afterAtom loc c cs
    · split at hs
      · cases hs
        exact behind_afterAtom loc c cs
      · cases hs

theorem behind_scanToken (hs : scanToken loc c cs = .ok (t, next)) : next.Behind loc (c :: cs) := by
  have hone : (⟨loc.after c, cs⟩ : Cursor).Behind loc (c :: cs) := ⟨[c], rfl, rfl⟩
  unfold scanToken at hs
  dsimp only at hs
  split_ifs at hs with hleft hright hquote hstring hquasi hchar
  · cases hs
    exact hone
  · cases hs
    exact hone
  · cases hs
    exact hone
  · exact (behind_scanString hs).cons
  · obtain ⟨-, hhead⟩ := hchar
    obtain ⟨ds, rfl⟩ := List.head?_eq_some_iff.1 hhead
    exact (behind_scanChar hs).cons.cons
  · split at hs
    · cases hs
      exact behind_afterAtom loc c cs
    · cases hs

end Places

/-! ## What a newline ends -/

section Joints

variable {loc start : Location} {c : Char} {cs ds read : List Char} {mode : Blank} {next : Cursor} {t : Token}

/-- A newline is none of the characters that go with the one before. -/
theorem append_newline_ne {e : Char} (he : '\n' ≠ e) (hcs : ∀ es, cs ≠ e :: es) (es : List Char) :
    cs ++ '\n' :: ds ≠ e :: es := by
  cases cs with
  | nil =>
    rintro ⟨⟩
    exact he rfl
  | cons d cs =>
    rintro ⟨⟩
    exact hcs cs rfl

/-- Behind what was skipped, more text is skipped only if nothing was left, from the end of the line on. -/
theorem skipBlank_newline (ds : List Char) (hs : skipBlank mode loc cs = .ok next) :
    skipBlank mode loc (cs ++ '\n' :: ds) =
      if next.rest = [] then skipBlank .outside (next.location.after '\n') ds
      else .ok ⟨next.location, next.rest ++ '\n' :: ds⟩ := by
  fun_induction skipBlank mode loc cs with
  | case1 => cases hs
  | case2 mode loc hmode =>
    cases hs
    rw [if_pos rfl]
    cases mode with
    | outside => exact skipBlank_space (by decide)
    | line => rfl
    | block start depth => exact (hmode start depth rfl).elim
  | case3 loc cs ih => exact ih hs
  | case4 loc c cs _ hspace ih => exact (skipBlank_space hspace).trans (ih hs)
  | case5 loc cs _ _ ih => exact ih hs
  | case6 loc c cs hblock hspace hcomment =>
    cases hs
    rw [if_neg (List.cons_ne_nil c cs)]
    refine skipBlank_token (Bool.eq_false_iff.2 hspace) hcomment fun hc hhead => ?_
    obtain ⟨es, hes⟩ := List.head?_eq_some_iff.1 hhead
    exact append_newline_ne (by decide) (fun es => hblock es hc) es hes
  | case7 loc c cs ih => exact ih hs
  | case8 start loc cs loc' ih => exact ih hs
  | case9 start loc cs loc' depth ih => exact ih hs
  | case10 start depth loc cs ih => exact ih hs
  | case11 start depth loc c cs hclose hopen ih =>
    rw [List.cons_append, skipBlank_block]
    · exact ih hs
    · exact fun es hc => append_newline_ne (by decide) (fun es => hclose es hc) es
    · exact fun es hc => append_newline_ne (by decide) (fun es => hopen es hc) es

/-- A string ends at its closing quote, whatever follows. -/
theorem scanString_append (ds : List Char) (hs : scanString start loc read cs = .ok (t, next)) :
    scanString start loc read (cs ++ ds) = .ok (t, ⟨next.location, next.rest ++ ds⟩) := by
  fun_induction scanString start loc read cs with
  | case1 => cases hs
  | case2 loc read cs =>
    cases hs
    rfl
  | case3 => cases hs
  | case4 loc read c cs loc' e hc ih =>
    rw [List.cons_append, List.cons_append, scanString, hc]
    exact ih hs
  | case5 loc read c cs loc' hc ih =>
    rw [List.cons_append, List.cons_append, scanString, hc]
    exact ih hs
  | case6 => cases hs
  | case7 loc read c cs hquote hend hslash ih =>
    cases cs with
    | nil => cases hs
    | cons d cs =>
      rw [List.cons_append, scanString]
      · exact ih hs
      · exact hquote
      · simp
      · rintro e es rfl ⟨⟩
        exact hslash d cs rfl rfl

theorem Delimited.append (hcs : Delimited cs) (hds : Delimited ds) : Delimited (cs ++ ds) := by
  cases cs with
  | nil => exact hds
  | cons c cs => exact hcs

/-- An atom ends where it ended before, if what follows the text does not run on into it. -/
theorem atom_append (cs : List Char) (hds : Delimited ds) :
    atomOf (cs ++ ds) = atomOf cs ∧ afterAtom (cs ++ ds) = afterAtom cs ++ ds := by
  have hsplit : cs ++ ds = atomOf cs ++ (afterAtom cs ++ ds) := by rw [← List.append_assoc, atomOf_append_afterAtom]
  have hrest := (delimited_afterAtom cs).append hds
  rw [hsplit]
  exact ⟨atomOf_append (undelimited_atomOf cs) hrest, afterAtom_append (undelimited_atomOf cs) hrest⟩

theorem scanChar_append (hds : Delimited ds) (hs : scanChar start loc cs = .ok (t, next)) :
    scanChar start loc (cs ++ ds) = .ok (t, ⟨next.location, next.rest ++ ds⟩) := by
  cases cs with
  | nil => cases hs
  | cons c cs =>
    obtain ⟨hatom, hafter⟩ := atom_append cs hds
    unfold scanChar at hs
    rw [List.cons_append, scanChar, hatom, hafter]
    dsimp only at hs ⊢
    split_ifs at hs ⊢
    · cases hs
      rfl
    · split at hs
      · cases hs
        rfl
      · cases hs

/-- A token in front of a newline ends there at the latest, unless it is a string. -/
theorem scanToken_newline (ds : List Char) (hs : scanToken loc c cs = .ok (t, next)) :
    scanToken loc c (cs ++ '\n' :: ds) = .ok (t, ⟨next.location, next.rest ++ '\n' :: ds⟩) := by
  have hds : Delimited ('\n' :: ds) := (by decide : isDelimiter '\n' = true)
  obtain ⟨hatom, hafter⟩ := atom_append cs hds
  have hhead : (cs ++ '\n' :: ds).head? = some '\\' ↔ cs.head? = some '\\' := by
    cases cs <;> simp
  unfold scanToken at hs ⊢
  simp only [hhead, hatom, hafter] at hs ⊢
  split_ifs at hs ⊢ with hleft hright hquote hstring hquasi hchar
  · cases hs
    rfl
  · cases hs
    rfl
  · cases hs
    rfl
  · exact scanString_append _ hs
  · obtain ⟨es, rfl⟩ := List.head?_eq_some_iff.1 hchar.2
    exact scanChar_append hds hs
  · split at hs
    · cases hs
      rfl
    · cases hs

/-- A text that splits has its tokens and the end of the text behind them. With a newline and more text behind it, the
splitting goes on from the next line, behind the same tokens. -/
theorem scanAll_newline (ds : List Char) {found lexemes : Array Lexeme} (hs : scanAll found loc cs = .ok lexemes) :
    ∃ tokens, lexemes = tokens.push ⟨.endOfFile, loc.afterAll cs⟩ ∧
      scanAll found loc (cs ++ '\n' :: ds) = scanAll tokens ((loc.afterAll cs).after '\n') ds := by
  fun_induction scanAll found loc cs with
  | case1 => cases hs
  | case2 found loc cs loc' hskip =>
    cases hs
    have hend : loc' = loc.afterAll cs := (behind_skipBlank hskip).afterAll
    rw [← hend]
    refine ⟨found, rfl, ?_⟩
    rw [scanAll_eq, skipBlank_newline ds hskip, if_pos rfl, ← scanAll_eq]
  | case3 => cases hs
  | case4 found loc cs loc' c rest hskip token next ht ih =>
    obtain ⟨tokens, hlexemes, hscan⟩ := ih hs
    have hend := (behind_scanToken ht).afterAll.trans (behind_skipBlank hskip).afterAll
    rw [hend] at hlexemes hscan
    refine ⟨tokens, hlexemes, ?_⟩
    rw [scanAll_eq, skipBlank_newline ds hskip, if_neg (List.cons_ne_nil c rest)]
    dsimp only [List.cons_append]
    rw [scanToken_newline ds ht]
    exact hscan

end Joints

/-! ## Lines -/

theorem Location.line_afterAll (loc : Location) (cs : List Char) :
    (loc.afterAll cs).line = loc.line + cs.count '\n' := by
  induction cs generalizing loc with
  | nil => rfl
  | cons c cs ih =>
    show ((loc.after c).afterAll cs).line = _
    rw [ih, List.count_cons, after]
    by_cases hc : c = '\n'
    · simp [hc]
      omega
    · simp [hc]

/-- The place of the character behind a text and a newline is the start of a line. -/
theorem afterAll_start_newline (cs : List Char) :
    (Location.start.afterAll cs).after '\n' = Location.start.down (cs.count '\n' + 1) := by
  show Location.mk ((Location.start.afterAll cs).line + 1) 1 = _
  rw [Location.line_afterAll]
  rfl

/-- A text that splits is split apart from the lines behind it: with a newline and another text behind it, it has its own
tokens without the end of the text, and then those of the other text, so many lines further down as it has newlines and
one more. If the other text does not split, its error is reported, as far down. -/
theorem tokenize_newline {s : String} {lexemes : Array Lexeme} (hs : tokenize s = .ok lexemes) (t : String) :
    ∃ tokens loc, lexemes = tokens.push ⟨.endOfFile, loc⟩ ∧
      (∀ more, tokenize t = .ok more →
        tokenize (s ++ "\n" ++ t) = .ok (tokens ++ more.map (Lexeme.down (s.toList.count '\n' + 1)))) ∧
      ∀ e, tokenize t = .error e → tokenize (s ++ "\n" ++ t) = .error (e.down (s.toList.count '\n' + 1)) := by
  obtain ⟨tokens, hlexemes, hjoint⟩ := scanAll_newline t.toList hs
  have htext : (s ++ "\n" ++ t).toList = s.toList ++ '\n' :: t.toList := by
    rw [String.toList_append, String.toList_append, List.append_assoc]
    rfl
  have hboth : tokenize (s ++ "\n" ++ t) = (tokens ++ ·) <$>
      outcomeDown (s.toList.count '\n' + 1) (Array.map (Lexeme.down (s.toList.count '\n' + 1))) (tokenize t) := by
    rw [tokenize, htext, hjoint, afterAll_start_newline, tokenize, ← scanAll_down, ← scanAll_append]
    simp
  refine ⟨tokens, _, hlexemes, fun more ht => ?_, fun e ht => ?_⟩
  · rw [hboth, ht]
    rfl
  · rw [hboth, ht]
    rfl

/-- Both kinds of comment, a string that goes on in the next line, and a character at the end; three newlines. -/
def fourLines : String := "(a ; b\n#|\n|# \"c\\\nd\" #\\e"

theorem tokenize_newline_fourLines :
    (tokenize fourLines).toBool = true ∧ fourLines.toList.count '\n' = 3 ∧
      (∃ tokens : Array Lexeme, tokenize (fourLines ++ "\n" ++ "e)") =
        .ok (tokens ++ #[⟨.symbol "e", ⟨5, 1⟩⟩, ⟨.rightParen, ⟨5, 2⟩⟩, ⟨.endOfFile, ⟨5, 3⟩⟩])) ∧
      tokenize (fourLines ++ "\n" ++ "#t\n`") = .error ⟨.quasiquote, ⟨6, 1⟩⟩ := by
  have hsplits : (tokenize fourLines).toBool = true := by decide +kernel
  have hcount : fourLines.toList.count '\n' = 3 := by decide +kernel
  have hmore : tokenize "e)" =
      .ok #[⟨.symbol "e", ⟨1, 1⟩⟩, ⟨.rightParen, ⟨1, 2⟩⟩, ⟨.endOfFile, ⟨1, 3⟩⟩] := by decide +kernel
  have hfault : tokenize "#t\n`" = .error ⟨.quasiquote, ⟨2, 1⟩⟩ := by decide +kernel
  cases htokenize : tokenize fourLines with
  | error e =>
    rw [htokenize] at hsplits
    cases hsplits
  | ok lexemes =>
    obtain ⟨tokens, -, -, hok, -⟩ := tokenize_newline htokenize "e)"
    obtain ⟨-, -, -, -, herror⟩ := tokenize_newline htokenize "#t\n`"
    refine ⟨rfl, hcount, ⟨tokens, (hok _ hmore).trans ?_⟩, (herror _ hfault).trans ?_⟩
    · rw [hcount, List.map_toArray]
      rfl
    · rw [hcount]
      rfl

end BoxedScheme
