import BoxedScheme.Proofs.Lines

/-!
# Where the tokens of a text stand

The scanner keeps line and column as it goes, over strings and comments of several lines. They come out as if they were
counted from the start of the text: every token is reported at the place of its first character, and between two tokens
there is nothing but blanks and complete comments.

* `placeAt cs n` : the place `n` characters into a text, by counting;
* `Closes`, `Separates` : the rest of a block comment, and what stands between two tokens;
* `skipBlank_completes`, `scanToken_lexeme` : what the scanner passes over, and what it makes a token of;
* `ScanError.Within` : the error is reported at a place in the text;
* `Stretch`, `TokenLayout` : the lexemes of a text by their first and last characters, and what holds of them;
* `scanAll_layout`, `tokenize_places` : the layout of every text that splits into tokens, and the place of an error.
-/

namespace BoxedScheme

/-! ## Places by counting -/

/-- The place `n` characters into a text: one line further for each newline before it, and one column further for each
character since the last of them. -/
def placeAt (cs : List Char) (n : Nat) : Location :=
  ⟨1 + (cs.take n).count '\n', 1 + ((cs.take n).reverse.takeWhile (· ≠ '\n')).length⟩

theorem Location.afterAll_append (loc : Location) (cs ds : List Char) :
    loc.afterAll (cs ++ ds) = (loc.afterAll cs).afterAll ds := List.foldl_append

theorem Location.column_afterAll (cs : List Char) :
    (Location.start.afterAll cs).column = 1 + (cs.reverse.takeWhile (· ≠ '\n')).length := by
  induction cs using List.reverseRecOn with
  | nil => rfl
  | append_singleton cs c ih =>
    rw [afterAll_append, List.reverse_append, List.reverse_singleton, List.singleton_append, List.takeWhile_cons]
    show ((Location.start.afterAll cs).after c).column = _
    by_cases hc : c = '\n'
    · simp [after, hc]
    · simp [after, hc, ih]
      omega

theorem placeAt_eq (cs : List Char) (n : Nat) : placeAt cs n = Location.start.afterAll (cs.take n) := by
  have hline := Location.line_afterAll .start (cs.take n)
  have hcolumn := Location.column_afterAll (cs.take n)
  rw [placeAt, ← hcolumn, show 1 + (cs.take n).count '\n' = _ from hline.symm]

theorem placeAt_append (before rest : List Char) :
    placeAt (before ++ rest) before.length = Location.start.afterAll before := by
  rw [placeAt_eq, List.take_left]

/-! ## Between two tokens -/

/-- In a block comment and `depth` further ones inside it: the text closes all of them, the outermost at its end. Two
characters that open or close a comment are never taken for anything else. -/
inductive Closes : Nat → List Char → Prop where
  | last : Closes 0 ['|', '#']
  | close {depth : Nat} {cs : List Char} : Closes depth cs → Closes (depth + 1) ('|' :: '#' :: cs)
  | nest {depth : Nat} {cs : List Char} : Closes (depth + 1) cs → Closes depth ('#' :: '|' :: cs)
  | other {depth : Nat} {c : Char} {cs : List Char} : (c = '|' → cs.head? ≠ some '#') →
    (c = '#' → cs.head? ≠ some '|') → Closes depth cs → Closes depth (c :: cs)

/-- Blanks and complete comments in front of `rest`. A comment that runs to the end of its line has the newline with
it, unless the text ends there. -/
inductive Separates (rest : List Char) : List Char → Prop where
  | nil : Separates rest []
  | space {c : Char} {cs : List Char} : Text.isSpace c = true → Separates rest cs → Separates rest (c :: cs)
  | line {body cs : List Char} : '\n' ∉ body → Separates rest cs → Separates rest (';' :: (body ++ '\n' :: cs))
  | lastLine {body : List Char} : rest = [] → '\n' ∉ body → Separates rest (';' :: body)
  | block {body cs : List Char} : Closes 0 body → Separates rest cs → Separates rest ('#' :: '|' :: (body ++ cs))

/-- The text completes what stands between two tokens, from the given point of it on. -/
def Blank.Completes (rest : List Char) : Blank → List Char → Prop
  | .outside, read => Separates rest read
  | .line, read => (∃ body cs, read = body ++ '\n' :: cs ∧ '\n' ∉ body ∧ Separates rest cs) ∨ rest = [] ∧ '\n' ∉ read
  | .block _ depth, read => ∃ body cs, read = body ++ cs ∧ Closes depth body ∧ Separates rest cs

section Blanks

variable {loc : Location} {c : Char} {cs rest read : List Char} {mode : Blank} {next : Cursor}

/-- A further character of a comment that runs to the end of its line. -/
theorem Blank.Completes.line_cons (hc : c ≠ '\n') (h : Blank.line.Completes rest read) :
    Blank.line.Completes rest (c :: read) := by
  rcases h with ⟨body, cs, rfl, hbody, hcs⟩ | ⟨hrest, hread⟩
  · exact .inl ⟨c :: body, cs, rfl, by simp [hc.symm, hbody], hcs⟩
  · exact .inr ⟨hrest, by simp [hc.symm, hread]⟩

/-- What is passed over in front of a token are blanks and complete comments. -/
theorem skipBlank_completes (hs : skipBlank mode loc cs = .ok next) :
    ∃ read, cs = read ++ next.rest ∧ next.location = loc.afterAll read ∧ mode.Completes next.rest read := by
  fun_induction skipBlank mode loc cs with
  | case1 => cases hs
  | case2 mode loc hmode =>
    cases hs
    refine ⟨[], rfl, rfl, ?_⟩
    cases mode with
    | outside => exact .nil
    | line => exact .inr ⟨rfl, List.not_mem_nil⟩
    | block start depth => exact (hmode start depth rfl).elim
  | case3 loc cs ih =>
    obtain ⟨read, hcs, hloc, body, tail, rfl, hbody, htail⟩ := ih hs
    exact ⟨'#' :: '|' :: (body ++ tail), by rw [hcs]; rfl, hloc, .block hbody htail⟩
  | case4 loc c cs _ hspace ih =>
    obtain ⟨read, hcs, hloc, hread⟩ := ih hs
    exact ⟨c :: read, by rw [hcs]; rfl, hloc, .space hspace hread⟩
  | case5 loc cs _ _ ih =>
    obtain ⟨read, hcs, hloc, hread⟩ := ih hs
    refine ⟨';' :: read, by rw [hcs]; rfl, hloc, ?_⟩
    rcases hread with ⟨body, tail, rfl, hbody, htail⟩ | ⟨hend, hread⟩
    · exact .line hbody htail
    · exact .lastLine hend hread
  | case6 =>
    cases hs
    exact ⟨[], rfl, rfl, .nil⟩
  | case7 loc c cs ih =>
    obtain ⟨read, hcs, hloc, hread⟩ := ih hs
    refine ⟨c :: read, by rw [hcs]; rfl, hloc, ?_⟩
    by_cases hc : c = '\n'
    · rw [if_pos hc] at hread
      exact .inl ⟨[], read, by rw [hc]; rfl, List.not_mem_nil, hread⟩
    · rw [if_neg hc] at hread
      exact hread.line_cons hc
  | case8 start loc cs loc' ih =>
    obtain ⟨read, hcs, hloc, hread⟩ := ih hs
    exact ⟨'|' :: '#' :: read, by rw [hcs]; rfl, hloc, ['|', '#'], read, rfl, .last, hread⟩
  | case9 start loc cs loc' depth ih =>
    obtain ⟨read, hcs, hloc, body, tail, rfl, hbody, htail⟩ := ih hs
    exact ⟨'|' :: '#' :: (body ++ tail), by rw [hcs]; rfl, hloc, '|' :: '#' :: body, tail, rfl, .close hbody, htail⟩
  | case10 start depth loc cs ih =>
    obtain ⟨read, hcs, hloc, body, tail, rfl, hbody, htail⟩ := ih hs
    exact ⟨'#' :: '|' :: (body ++ tail), by rw [hcs]; rfl, hloc, '#' :: '|' :: body, tail, rfl, .nest hbody, htail⟩
  | case11 start depth loc c cs hclose hopen ih =>
    obtain ⟨read, hcs, hloc, body, tail, rfl, hbody, htail⟩ := ih hs
    -- The body is not empty, so what follows the character in it is what follows it in the text.
    have hhead {e : Char} (he : body.head? = some e) : ∃ es, cs = e :: es := by
      obtain ⟨es, rfl⟩ := List.head?_eq_some_iff.1 he
      exact ⟨es ++ tail ++ next.rest, hcs⟩
    refine ⟨c :: (body ++ tail), by rw [hcs]; rfl, hloc, c :: body, tail, rfl, .other ?_ ?_ hbody, htail⟩
    · intro hc he
      obtain ⟨es, hes⟩ := hhead he
      exact hclose es hc hes
    · intro hc he
      obtain ⟨es, hes⟩ := hhead he
      exact hopen es hc hes

/-- A token starts with neither a blank nor a comment. -/
theorem skipBlank_stops {loc' : Location} (hs : skipBlank mode loc cs = .ok ⟨loc', c :: rest⟩) :
    Text.isSpace c = false ∧ c ≠ ';' ∧ ∀ es, c = '#' → rest ≠ '|' :: es := by
  refine ⟨(skipBlank_head _ _ _ hs).1, (skipBlank_head _ _ _ hs).2, ?_⟩
  fun_induction skipBlank mode loc cs with
  | case1 => cases hs
  | case2 => cases hs
  | case3 loc cs ih => exact ih hs
  | case4 loc c cs _ _ ih => exact ih hs
  | case5 loc cs _ _ ih => exact ih hs
  | case6 loc c cs hblock =>
    cases hs
    exact hblock
  | case7 loc c cs ih => exact ih hs
  | case8 start loc cs loc' ih => exact ih hs
  | case9 start loc cs loc' depth ih => exact ih hs
  | case10 start depth loc cs ih => exact ih hs
  | case11 start depth loc c cs _ _ ih => exact ih hs

end Blanks

/-! ## Lexemes -/

/-- Tokens whose last character ends them, whatever follows. -/
def Token.closesItself : Token → Bool
  | .leftParen | .rightParen | .quote | .string _ => true
  | _ => false

section Lexemes

variable {start loc : Location} {c : Char} {cs read : List Char} {t : Token} {next : Cursor}

/-- The characters of a string literal are the same literal wherever they stand and whatever follows. -/
theorem scanString_lexeme (hs : scanString start loc read cs = .ok (t, next)) :
    (∃ s, t = .string s) ∧ ∃ taken, cs = taken ++ next.rest ∧
      ∀ start' loc' rest, ∃ loc'', scanString start' loc' read (taken ++ rest) = .ok (t, ⟨loc'', rest⟩) := by
  fun_induction scanString start loc read cs with
  | case1 => cases hs
  | case2 loc read cs =>
    cases hs
    exact ⟨⟨_, rfl⟩, ['"'], rfl, fun _ loc' _ => ⟨loc'.after '"', rfl⟩⟩
  | case3 => cases hs
  | case4 loc read c cs loc' d hc ih =>
    obtain ⟨ht, taken, rfl, hscan⟩ := ih hs
    refine ⟨ht, '\\' :: c :: taken, rfl, fun start' loc' rest => ?_⟩
    rw [List.cons_append, List.cons_append, scanString, hc]
    exact hscan start' _ rest
  | case5 loc read c cs loc' hc ih =>
    obtain ⟨ht, taken, rfl, hscan⟩ := ih hs
    refine ⟨ht, '\\' :: c :: taken, rfl, fun start' loc' rest => ?_⟩
    rw [List.cons_append, List.cons_append, scanString, hc]
    exact hscan start' _ rest
  | case6 => cases hs
  | case7 loc read c cs hquote hend hslash ih =>
    obtain ⟨ht, taken, rfl, hscan⟩ := ih hs
    have hc : c ≠ '\\' := by
      intro hc
      cases hrest : taken ++ next.rest with
      | nil => exact hend hc hrest
      | cons d ds => exact hslash d ds hc hrest
    refine ⟨ht, c :: taken, rfl, fun start' loc' rest => ?_⟩
    rw [List.cons_append, scanString]
    · exact hscan start' _ rest
    · exact hquote
    · exact fun h => absurd h hc
    · exact fun _ _ h => absurd h hc

/-- A character literal is its first character and the atom behind it. -/
theorem scanChar_lexeme (hs : scanChar start loc cs = .ok (t, next)) :
    ∃ d ds e, cs = d :: ds ∧ next.rest = afterAtom ds ∧ t = .char e ∧
      (atomOf ds = [] ∧ d = e ∨ atomOf ds ≠ [] ∧ namedChar? (d :: atomOf ds) = some e) := by
  cases cs with
  | nil => cases hs
  | cons d ds =>
    unfold scanChar at hs
    dsimp only at hs
    split_ifs at hs with hlength
    · cases hs
      exact ⟨d, ds, d, rfl, rfl, rfl, .inl ⟨by simpa using hlength, rfl⟩⟩
    · split at hs
      · next e hname =>
        cases hs
        exact ⟨d, ds, e, rfl, rfl, rfl, .inr ⟨by simpa using hlength, hname⟩⟩
      · cases hs

theorem hashToken_ne_endOfFile : hashToken cs ≠ .ok .endOfFile := by
  intro h
  unfold hashToken at h
  dsimp only at h
  repeat' split at h
  all_goals cases h

theorem atomToken_ne_endOfFile : atomToken cs ≠ .ok .endOfFile := by
  intro h
  rw [atomToken.eq_def] at h
  split at h
  · cases h
  · exact hashToken_ne_endOfFile h
  · split at h
    · cases h
    · split_ifs at h
      cases h

/-- An atom that is a token and starts with a hash goes on, and neither as a comment nor as a character. -/
theorem atom_hash (ht : atomToken (c :: atomOf cs) = .ok t) (hblock : ∀ es, c = '#' → cs ≠ '|' :: es)
    (hchar : ¬ (c = '#' ∧ cs.head? = some '\\')) (hc : c = '#') :
    ∃ d ds, atomOf cs = d :: ds ∧ d ≠ '|' ∧ d ≠ '\\' := by
  subst hc
  cases hatom : atomOf cs with
  | nil =>
    rw [hatom] at ht
    cases ht
  | cons d ds =>
    have hcs : cs = d :: (ds ++ afterAtom cs) := by
      rw [← List.cons_append, ← hatom, atomOf_append_afterAtom]
    refine ⟨d, ds, rfl, ?_, ?_⟩
    · rintro rfl
      exact hblock _ rfl hcs
    · rintro rfl
      exact hchar ⟨rfl, by rw [hcs]; rfl⟩

/-- What a token is made of: characters that are this token wherever they stand, and either close it themselves or are
followed by one that does. -/
structure Token.SpeltBy (t : Token) (lexeme rest : List Char) : Prop where
  nonempty : lexeme ≠ []
  real : t ≠ .endOfFile
  scans : Scans lexeme [t]
  closed : t.closesItself = true ∨ Delimited rest

theorem scanToken_lexeme (hs : scanToken loc c cs = .ok (t, next)) (hspace : Text.isSpace c = false)
    (hcomment : c ≠ ';') (hblock : ∀ es, c = '#' → cs ≠ '|' :: es) :
    ∃ taken, cs = taken ++ next.rest ∧ t.SpeltBy (c :: taken) next.rest := by
  have hone {u : Token} (hu : ∀ loc rest, scanToken loc c rest = .ok (u, ⟨loc.after c, rest⟩)) (hc : c ≠ '#') :
      Scans [c] [u] := scans_token hspace hcomment (fun h => absurd h hc) fun rest _ loc => ⟨_, hu loc rest⟩
  unfold scanToken at hs
  dsimp only at hs
  split_ifs at hs with hleft hright hquote hstring hquasi hchar
  · cases hs
    refine ⟨[], rfl, List.cons_ne_nil _ _, by simp, hone (fun _ _ => if_pos hleft) ?_, .inl rfl⟩
    rintro rfl
    exact absurd hleft (by decide)
  · cases hs
    have hscan : ∀ loc rest, scanToken loc c rest = .ok (.rightParen, ⟨loc.after c, rest⟩) := fun loc rest => by
      rw [scanToken, if_neg hleft, if_pos hright]
    refine ⟨[], rfl, List.cons_ne_nil _ _, by simp, hone hscan ?_, .inl rfl⟩
    rintro rfl
    exact absurd hright (by decide)
  · cases hs
    subst hquote
    exact ⟨[], rfl, List.cons_ne_nil _ _, by simp, hone (fun _ _ => rfl) (by decide), .inl rfl⟩
  · subst hstring
    obtain ⟨⟨s, rfl⟩, taken, hcs, hscan⟩ := scanString_lexeme hs
    refine ⟨taken, hcs, List.cons_ne_nil _ _, by simp, ?_, .inl rfl⟩
    exact scans_token hspace hcomment (by simp) fun rest _ loc => hscan loc (loc.after '"') rest
  · obtain ⟨rfl, hhead⟩ := hchar
    obtain ⟨ds, rfl⟩ := List.head?_eq_some_iff.1 hhead
    obtain ⟨d, ds, e, rfl, hrest, rfl, hname⟩ := scanChar_lexeme hs
    refine ⟨'\\' :: d :: atomOf ds, ?_, List.cons_ne_nil _ _, by simp,
      scans_charLiteral_of_name (undelimited_atomOf ds) hname, .inr (hrest ▸ delimited_afterAtom ds)⟩
    rw [hrest, List.cons_append, List.cons_append, atomOf_append_afterAtom]
  · cases ht : atomToken (c :: atomOf cs) with
    | error fault =>
      rw [ht] at hs
      cases hs
    | ok u =>
      rw [ht] at hs
      cases hs
      have hc : isDelimiter c = false := by
        simp [isDelimiter, hspace, hcomment, hquote, hstring, not_or.1 hleft, not_or.1 hright]
      refine ⟨atomOf cs, (atomOf_append_afterAtom cs).symm, List.cons_ne_nil _ _, ?_, ?_, .inr (delimited_afterAtom cs)⟩
      · rintro rfl
        exact atomToken_ne_endOfFile ht
      · exact scans_atom (Numeral.undelimited_cons hc (undelimited_atomOf cs)) (not_or.1 hquasi)
          (atom_hash ht hblock hchar) ht

end Lexemes

/-! ## Errors -/

/-- The error is reported at a place that is reached over characters of the text, or at its end. -/
def ScanError.Within (e : ScanError) (loc : Location) (cs : List Char) : Prop :=
  ∃ read, read <+: cs ∧ e.location = loc.afterAll read

section Errors

variable {e : ScanError} {start loc : Location} {c : Char} {cs read : List Char} {mode : Blank} {next : Cursor}

theorem ScanError.Within.of_eq (h : e.location = loc) : e.Within loc cs := ⟨[], List.nil_prefix, h⟩

theorem ScanError.Within.cons (h : e.Within (loc.after c) cs) : e.Within loc (c :: cs) := by
  obtain ⟨read, hread, hloc⟩ := h
  exact ⟨c :: read, List.cons_prefix_cons.2 ⟨rfl, hread⟩, hloc⟩

theorem Cursor.Behind.within (hn : next.Behind loc cs) (h : e.Within next.location next.rest) : e.Within loc cs := by
  obtain ⟨before, rfl, hbefore⟩ := hn
  obtain ⟨read, hread, hloc⟩ := h
  refine ⟨before ++ read, (List.prefix_append_right_inj before).2 hread, ?_⟩
  rw [hloc, hbefore, Location.afterAll_append]

/-- A comment that is not closed is reported where it was opened, which may be before the text that is left. -/
theorem within_skipBlank (hs : skipBlank mode loc cs = .error e) :
    (∃ depth, mode = .block e.location depth) ∨ e.Within loc cs := by
  fun_induction skipBlank mode loc cs with
  | case1 start depth =>
    cases hs
    exact .inl ⟨depth, rfl⟩
  | case2 => cases hs
  | case3 loc cs ih =>
    rcases ih hs with ⟨depth, hmode⟩ | hwithin
    · cases hmode
      exact .inr (.of_eq rfl)
    · exact .inr hwithin.cons.cons
  | case4 loc c cs _ _ ih => exact .inr ((ih hs).resolve_left (by simp)).cons
  | case5 loc cs _ _ ih => exact .inr ((ih hs).resolve_left (by simp)).cons
  | case6 => cases hs
  | case7 loc c cs ih => exact .inr ((ih hs).resolve_left (by split <;> simp)).cons
  | case8 start loc cs loc' ih => exact .inr ((ih hs).resolve_left (by simp)).cons.cons
  | case9 start loc cs loc' depth ih =>
    rcases ih hs with ⟨d, hmode⟩ | hwithin
    · cases hmode
      exact .inl ⟨_, rfl⟩
    · exact .inr hwithin.cons.cons
  | case10 start depth loc cs ih =>
    rcases ih hs with ⟨d, hmode⟩ | hwithin
    · cases hmode
      exact .inl ⟨_, rfl⟩
    · exact .inr hwithin.cons.cons
  | case11 start depth loc c cs _ _ ih => exact (ih hs).imp_right ScanError.Within.cons

theorem within_scanString (hs : scanString start loc read cs = .error e) :
    e.location = start ∨ e.Within loc cs := by
  fun_induction scanString start loc read cs with
  | case1 =>
    cases hs
    exact .inl rfl
  | case2 => cases hs
  | case3 loc read =>
    cases hs
    exact .inr ⟨['\\'], List.prefix_rfl, rfl⟩
  | case4 loc read c cs loc' d hc ih => exact (ih hs).imp_right fun h => h.cons.cons
  | case5 loc read c cs loc' hc ih => exact (ih hs).imp_right fun h => h.cons.cons
  | case6 loc read c cs loc' hc =>
    cases hs
    exact .inr ⟨['\\', c], List.prefix_append ['\\', c] cs, rfl⟩
  | case7 loc read c cs _ _ _ ih => exact (ih hs).imp_right ScanError.Within.cons

theorem location_scanChar (hs : scanChar start loc cs = .error e) : e.location = start := by
  cases cs with
  | nil =>
    cases hs
    rfl
  | cons c cs =>
    unfold scanChar at hs
    dsimp only at hs
    split_ifs at hs
    split at hs
    · cases hs
    · cases hs
      rfl

theorem within_scanToken (hs : scanToken loc c cs = .error e) : e.Within loc (c :: cs) := by
  unfold scanToken at hs
  dsimp only at hs
  split_ifs at hs with hleft hright hquote hstring hquasi hchar
  · rcases within_scanString hs with hstart | hwithin
    · exact .of_eq hstart
    · exact hwithin.cons
  · cases hs
    exact .of_eq rfl
  · exact .of_eq (location_scanChar hs)
  · split at hs
    · cases hs
    · cases hs
      exact .of_eq rfl

theorem within_scanAll {found : Array Lexeme} (hs : scanAll found loc cs = .error e) : e.Within loc cs := by
  fun_induction scanAll found loc cs with
  | case1 found loc cs e' hskip =>
    cases hs
    exact (within_skipBlank hskip).resolve_left (by simp)
  | case2 => cases hs
  | case3 found loc cs loc' c rest hskip e' ht =>
    cases hs
    exact (behind_skipBlank hskip).within (within_scanToken ht)
  | case4 found loc cs loc' c rest hskip token next ht ih =>
    exact (behind_skipBlank hskip).within ((behind_scanToken ht).within (ih hs))

end Errors

/-! ## Layouts -/

/-- A stretch of a text, from the character at `start` up to the one at `stop`, which is not part of it. -/
structure Stretch where
  start : Nat
  stop : Nat

/-- The end of a text, where its last token stands. -/
def Stretch.atEnd (cs : List Char) : Stretch := ⟨cs.length, cs.length⟩

/-- The token stands in the text at this stretch, which is its lexeme. -/
inductive Stretch.Carries (cs : List Char) (s : Stretch) : Lexeme → Prop where
  | token {t : Token} : s.stop ≤ cs.length → t.SpeltBy (cs.extract s.start s.stop) (cs.drop s.stop) →
    Carries cs s ⟨t, placeAt cs s.start⟩
  | endOfFile : s = .atEnd cs → Carries cs s ⟨.endOfFile, placeAt cs s.start⟩

/-- From the end of one stretch to the start of the next there are blanks and complete comments only. -/
structure Stretch.Apart (cs : List Char) (s t : Stretch) : Prop where
  le : s.stop ≤ t.start
  separates : Separates (cs.drop t.start) (cs.extract s.stop t.start)

/-- The stretches at which the tokens of a text stand: one for each token, each starting behind the one before, and
nothing but blanks and comments in front of them and between them. The last one is the end of the text. -/
structure TokenLayout (cs : List Char) (stretches : List Stretch) (lexemes : List Lexeme) : Prop where
  increasing : (stretches.map Stretch.start).Pairwise (· < ·)
  carries : List.Forall₂ (Stretch.Carries cs) stretches lexemes
  apart : List.IsChain (Stretch.Apart cs) (⟨0, 0⟩ :: stretches)
  last : stretches.getLast? = some (.atEnd cs)

theorem extract_append (before mid rest : List Char) :
    (before ++ mid ++ rest).extract before.length (before ++ mid).length = mid := by
  rw [List.extract_eq_take_drop, List.append_assoc, List.drop_left, List.length_append, Nat.add_sub_cancel_left,
    List.take_left]

section Layouts

variable {before cs text : List Char} {loc : Location} {found lexemes : Array Lexeme}

/-- The tokens of what is left of a text, as they stand in the whole text. The induction is on the tokens; `before` is
the part of the text that is behind the scanner, and the place is the one behind it. -/
theorem scanAll_layout (hs : scanAll found loc cs = .ok lexemes) (htext : text = before ++ cs)
    (hloc : loc = Location.start.afterAll before) :
    ∃ stretches more, lexemes.toList = found.toList ++ more ∧ List.Forall₂ (Stretch.Carries text) stretches more ∧
      (stretches.map Stretch.start).Pairwise (· < ·) ∧ (∀ s ∈ stretches, before.length ≤ s.start) ∧
      stretches.getLast? = some (.atEnd text) ∧
      ∀ first : Stretch, first.stop = before.length → List.IsChain (Stretch.Apart text) (first :: stretches) := by
  fun_induction scanAll found loc cs generalizing before with
  | case1 => cases hs
  | case2 found loc cs loc' hskip =>
    cases hs
    obtain ⟨gap, hcs, hgap, hsep⟩ := skipBlank_completes hskip
    dsimp only at hcs hgap hsep
    rw [List.append_nil] at hcs
    subst hcs htext hloc
    have hplace : loc' = placeAt (before ++ cs) (before ++ cs).length := by
      rw [hgap, placeAt_eq, List.take_length, Location.afterAll_append]
    refine ⟨[.atEnd _], [⟨.endOfFile, loc'⟩], Array.toList_push, ?_, List.pairwise_singleton _ _, ?_, rfl, ?_⟩
    · rw [hplace]
      exact .cons (.endOfFile rfl) .nil
    · simp [Stretch.atEnd]
    · intro first hfirst
      refine List.isChain_pair.2 ⟨?_, ?_⟩
      · simp [Stretch.atEnd, hfirst]
      · have hmid := extract_append before cs []
        rw [List.append_nil] at hmid
        rw [Stretch.atEnd, hfirst, hmid, List.drop_length]
        exact hsep
  | case3 => cases hs
  | case4 found loc cs loc' c rest hskip token next ht ih =>
    obtain ⟨gap, hcs, hgap, hsep⟩ := skipBlank_completes hskip
    obtain ⟨hspace, hcomment, hblock⟩ := skipBlank_stops hskip
    obtain ⟨taken, hrest, hspelt⟩ := scanToken_lexeme ht hspace hcomment hblock
    dsimp only at hcs hgap hsep
    have htext' : text = before ++ gap ++ (c :: taken) ++ next.rest := by
      rw [htext, hcs, hrest]
      simp
    have hplace : loc' = placeAt text (before ++ gap).length := by
      rw [htext', List.append_assoc _ (c :: taken), placeAt_append, hgap, hloc, Location.afterAll_append]
    have hnext : next.location = Location.start.afterAll (before ++ gap ++ (c :: taken)) := by
      obtain ⟨read, hread, hlocation⟩ := behind_scanToken ht
      rw [hrest, ← List.cons_append] at hread
      rw [hlocation, ← List.append_cancel_right hread, Location.afterAll_append, Location.afterAll_append, ← hloc, hgap]
    obtain ⟨stretches, more, hlexemes, hcarries, hincreasing, hbehind, hlast, hapart⟩ := ih hs htext' hnext
    let stretch : Stretch := ⟨(before ++ gap).length, (before ++ gap ++ (c :: taken)).length⟩
    refine ⟨stretch :: stretches, ⟨token, loc'⟩ :: more, ?_, ?_, ?_, ?_, ?_, ?_⟩
    · rw [hlexemes]
      simp
    · rw [hplace]
      refine .cons (.token (s := stretch) ?_ ?_) hcarries
      · rw [htext']
        simp [stretch]
      · have hdrop : text.drop stretch.stop = next.rest := by rw [htext', List.drop_left]
        rw [hdrop, htext', extract_append]
        exact hspelt
    · rw [List.map_cons, List.pairwise_cons]
      refine ⟨fun n hn => ?_, hincreasing⟩
      obtain ⟨s, hs, rfl⟩ := List.mem_map.1 hn
      have hle := hbehind s hs
      rw [List.length_append, List.length_cons] at hle
      show (before ++ gap).length < s.start
      omega
    · intro s hs
      rcases List.mem_cons.1 hs with rfl | hs
      · simp [stretch]
      · have hle := hbehind s hs
        simp only [List.length_append] at hle
        omega
    · rw [List.getLast?_cons, hlast]
      rfl
    · intro first hfirst
      refine List.isChain_cons_cons.2 ⟨⟨?_, ?_⟩, hapart stretch rfl⟩
      · simp [stretch, hfirst]
      · have hdrop : text.drop stretch.start = c :: rest := by
          rw [htext', List.append_assoc _ (c :: taken), List.drop_left, hrest]
          rfl
        rw [hdrop, hfirst, htext', List.append_assoc _ (c :: taken), extract_append]
        exact hsep

/-- In every text that splits into tokens these stand in order, each at the place of its first character by the newlines
and characters before it, the end of the file at the end of the text. Each of them is made of its own characters alone,
and what stands between them are blanks and complete comments. If a text does not split, the error is reported at one of
its characters or at its end. -/
theorem tokenize_places (source : String) :
    (∀ lexemes, tokenize source = .ok lexemes → ∃ stretches, TokenLayout source.toList stretches lexemes.toList) ∧
      ∀ e, tokenize source = .error e → ∃ n ≤ source.toList.length, e.location = placeAt source.toList n := by
  constructor
  · intro lexemes hs
    have htext : source.toList = [] ++ source.toList := rfl
    obtain ⟨stretches, more, hmore, hcarries, hincreasing, -, hlast, hapart⟩ := scanAll_layout hs htext rfl
    rw [List.nil_append] at hmore
    rw [hmore]
    exact ⟨stretches, hincreasing, hcarries, hapart ⟨0, 0⟩ rfl, hlast⟩
  · intro e hs
    obtain ⟨read, hread, hloc⟩ := within_scanAll hs
    refine ⟨read.length, hread.length_le, ?_⟩
    rw [hloc, placeAt_eq, ← List.prefix_iff_eq_take.1 hread]

/-- Both kinds of comment and a string over two lines, and an escape that does not exist, on the second line: the error
is behind its fifth and last character. -/
theorem tokenize_places_fourLines :
    (∃ lexemes, tokenize fourLines = .ok lexemes ∧
        ∃ stretches, TokenLayout fourLines.toList stretches lexemes.toList) ∧
      tokenize "a\n\"\\q" = .error ⟨.unknownEscape 'q', ⟨2, 4⟩⟩ ∧
      ∃ n ≤ 5, (⟨2, 4⟩ : Location) = placeAt "a\n\"\\q".toList n := by
  have hsplits : (tokenize fourLines).toBool = true := by decide +kernel
  have hfault : tokenize "a\n\"\\q" = .error ⟨.unknownEscape 'q', ⟨2, 4⟩⟩ := by decide +kernel
  cases hlexemes : tokenize fourLines with
  | error e =>
    rw [hlexemes] at hsplits
    cases hsplits
  | ok lexemes =>
    exact ⟨⟨lexemes, rfl, (tokenize_places fourLines).1 lexemes hlexemes⟩, hfault,
      (tokenize_places "a\n\"\\q").2 _ hfault⟩

end Layouts

end BoxedScheme
