import Mathlib.Tactic.IntervalCases
import BoxedScheme.Token.Scan
import BoxedScheme.Proofs.Rounding

/-!
# Numerals are read back

The text of every double but not-a-number and negative zero is a numeral that is read as that double.

* `digits?_eq`, `decimal?_plain`, `decimal?_point` : what digits, with a point among them or not, are read as;
* `spells_positional`, `spells_scientific` : both layouts of a decimal have its value;
* `parse?_format` : the text of a number is read as that number.
-/

namespace BoxedScheme.Numeral

open Double (Decimal digitChars)

/-! ## Digits -/

def AllDigits (cs : List Char) : Prop := ∀ c ∈ cs, c.isDigit = true

theorem allDigits_append {cs ds : List Char} : AllDigits (cs ++ ds) ↔ AllDigits cs ∧ AllDigits ds := List.forall_mem_append

theorem allDigits_digitChars (n : Nat) : AllDigits (digitChars n) :=
  fun _ hc => Nat.isDigit_of_mem_toDigits (by decide) (by decide) hc

theorem allDigits_replicate (n : Nat) : AllDigits (List.replicate n '0') := by
  intro c hc
  rw [List.eq_of_mem_replicate hc]
  rfl

theorem digitChars_ne_nil (n : Nat) : digitChars n ≠ [] := List.length_pos_iff.1 Nat.length_toDigits_pos

theorem digitValue_of_isDigit {c : Char} (hc : c.isDigit = true) : digitValue c = c.toNat - '0'.toNat := if_pos hc

theorem digitValue_lt {c : Char} (hc : c.isDigit = true) : digitValue c < 10 := by
  rw [digitValue_of_isDigit hc]
  simp only [Char.isDigit, Bool.and_eq_true, decide_eq_true_eq] at hc
  have := UInt32.le_iff_toNat_le.1 hc.2
  simp only [Char.toNat] at *
  simp at *
  omega

theorem digits?_eq {cs : List Char} (hne : cs ≠ []) (hcs : AllDigits cs) :
    digits? 10 cs = some (Nat.ofDigitChars 10 cs 0) := by
  have hfold (n : Nat) : cs.foldl (fun acc c => acc.bind fun n =>
      if digitValue c < 10 then some (n * 10 + digitValue c) else none) (some n) =
      some (Nat.ofDigitChars 10 cs n) := by
    clear hne
    induction cs generalizing n with
    | nil => rfl
    | cons c cs ih =>
      have hc : c.isDigit = true := hcs c List.mem_cons_self
      rw [List.foldl_cons, Option.bind_some, if_pos (digitValue_lt hc), ih (fun d hd => hcs d (List.mem_cons_of_mem c hd)),
        Nat.ofDigitChars_cons, digitValue_of_isDigit hc, Nat.mul_comm]
  rw [digits?, if_neg (by simpa using hne)]
  exact hfold 0

theorem ofDigitChars_digitChars (n : Nat) : Nat.ofDigitChars 10 (digitChars n) 0 = n := by
  simp [digitChars]

/-! ## Signs and exponents -/

def StartsWithDigit : List Char → Prop
  | [] => False
  | c :: _ => c.isDigit = true

theorem startsWithDigit_append {cs : List Char} (hne : cs ≠ []) (hcs : AllDigits cs) (rest : List Char) :
    StartsWithDigit (cs ++ rest) := by
  cases cs with
  | nil => exact absurd rfl hne
  | cons c cs => exact hcs c List.mem_cons_self

theorem splitSign_of_digit {cs : List Char} (h : StartsWithDigit cs) : splitSign cs = (false, cs) := by
  cases cs with
  | nil => cases h
  | cons c cs =>
    unfold splitSign
    split
    next heq =>
      cases heq
      exact absurd (show Char.isDigit '+' = true from h) (by decide)
    next heq =>
      cases heq
      exact absurd (show Char.isDigit '-' = true from h) (by decide)
    next => rfl

theorem splitSign_signed (negative : Bool) {cs : List Char} (h : StartsWithDigit cs) :
    splitSign (if negative then '-' :: cs else cs) = (negative, cs) := by
  cases negative with
  | false => exact splitSign_of_digit h
  | true => rfl

theorem integer?_signed (n : Int) : integer? 10 (Decimal.signed n) = some n := by
  have hdigits := allDigits_digitChars n.natAbs
  have hne := digitChars_ne_nil n.natAbs
  have hstart : StartsWithDigit (digitChars n.natAbs) := by simpa using startsWithDigit_append hne hdigits []
  have hsigned : Decimal.signed n = if decide (n < 0) then '-' :: digitChars n.natAbs else digitChars n.natAbs := by
    rw [Decimal.signed]
    split <;> simp_all
  rw [integer?, hsigned, splitSign_signed _ hstart]
  dsimp only
  rw [digits?_eq hne hdigits, ofDigitChars_digitChars]
  show some (if decide (n < 0) = true then -(n.natAbs : Int) else n.natAbs) = some n
  congr 1
  split
  next hneg =>
    have := of_decide_eq_true hneg
    omega
  next hneg =>
    have := of_decide_eq_false (Bool.not_eq_true _ ▸ hneg)
    omega

theorem exponent?_signed (n : Int) : exponent? ('e' :: Decimal.signed n) = some n := integer?_signed n

/-! ## Decimals -/

/-- The text does not start with a digit. -/
def StartsElsewhere : List Char → Prop
  | [] => True
  | c :: _ => c.isDigit = false

theorem takeWhile_digits {cs rest : List Char} (hcs : AllDigits cs) (hrest : StartsElsewhere rest) :
    (cs ++ rest).takeWhile Char.isDigit = cs := by
  rw [List.takeWhile_append_of_pos hcs]
  cases rest with
  | nil => simp
  | cons c rest => rw [List.takeWhile_cons_of_neg (by rw [hrest]; decide), List.append_nil]

theorem dropWhile_digits {cs rest : List Char} (hcs : AllDigits cs) (hrest : StartsElsewhere rest) :
    (cs ++ rest).dropWhile Char.isDigit = rest := by
  rw [List.dropWhile_append_of_pos hcs]
  cases rest with
  | nil => rfl
  | cons c rest => rw [List.dropWhile_cons_of_neg (by rw [hrest]; decide)]

/-- Digits without a point. -/
theorem decimal?_plain {whole rest : List Char} {e : Int} (hne : whole ≠ []) (hwhole : AllDigits whole)
    (hrest : StartsElsewhere rest) (hpoint : rest.head? ≠ some '.') (he : exponent? rest = some e) :
    decimal? (whole ++ rest) = some ⟨Nat.ofDigitChars 10 whole 0, e⟩ := by
  rw [decimal?, takeWhile_digits hwhole hrest, dropWhile_digits hwhole hrest]
  split
  next frac rest' heq =>
    split at heq
    next => exact absurd rfl hpoint
    next =>
      cases heq
      rw [List.append_nil, digits?_eq hne hwhole, he]
      simp

/-- Digits with a point among them. -/
theorem decimal?_point {whole frac rest : List Char} {e : Int} (hne : whole ++ frac ≠ []) (hwhole : AllDigits whole)
    (hfrac : AllDigits frac) (hrest : StartsElsewhere rest) (he : exponent? rest = some e) :
    decimal? (whole ++ '.' :: (frac ++ rest)) = some ⟨Nat.ofDigitChars 10 (whole ++ frac) 0, e - frac.length⟩ := by
  have hdot : StartsElsewhere ('.' :: (frac ++ rest)) := show Char.isDigit '.' = false by decide
  rw [decimal?, takeWhile_digits hwhole hdot, dropWhile_digits hwhole hdot]
  simp only [takeWhile_digits hfrac hrest, dropWhile_digits hfrac hrest,
    digits?_eq hne (allDigits_append.2 ⟨hwhole, hfrac⟩), he]

/-! ## Layouts -/

/-- No character ends an atom. -/
def Undelimited (cs : List Char) : Prop := ∀ c ∈ cs, isDelimiter c = false

instance (cs : List Char) : Decidable (Undelimited cs) := List.decidableBAll _ cs

theorem undelimited_append {cs ds : List Char} : Undelimited (cs ++ ds) ↔ Undelimited cs ∧ Undelimited ds :=
  List.forall_mem_append

theorem undelimited_cons {c : Char} {cs : List Char} (hc : isDelimiter c = false) (hcs : Undelimited cs) :
    Undelimited (c :: cs) := List.forall_mem_cons.2 ⟨hc, hcs⟩

theorem AllDigits.undelimited {cs : List Char} (hcs : AllDigits cs) : Undelimited cs := by
  intro c hc
  have hdigit := hcs c hc
  have hrange : 48 ≤ c.toNat ∧ c.toNat ≤ 57 := by
    simp only [Char.isDigit, Bool.and_eq_true, decide_eq_true_eq, UInt32.le_iff_toNat_le] at hdigit
    exact hdigit
  rw [← Char.ofNat_toNat c]
  obtain ⟨hlow, hhigh⟩ := hrange
  interval_cases c.toNat <;> decide

theorem undelimited_signed (n : Int) : Undelimited (Decimal.signed n) := by
  rw [Decimal.signed]
  split
  · exact undelimited_cons (by decide) (allDigits_digitChars _).undelimited
  · exact (allDigits_digitChars _).undelimited

/-- The text is an unsigned numeral with the given value. -/
structure Spells (cs : List Char) (v : ℚ) : Prop where
  digit : StartsWithDigit cs
  undelimited : Undelimited cs
  decimal : ∃ d, decimal? cs = some d ∧ d.value = v

theorem spells_integer (n : Nat) : Spells (digitChars n) n := by
  have hdigits := allDigits_digitChars n
  have hne := digitChars_ne_nil n
  have hstart := startsWithDigit_append hne hdigits []
  have hdecimal := decimal?_plain hne hdigits (show StartsElsewhere [] from trivial) (by simp) rfl
  rw [List.append_nil] at hstart hdecimal
  exact ⟨hstart, hdigits.undelimited, _, hdecimal, by rw [ofDigitChars_digitChars, Decimal.value, zpow_zero, mul_one]⟩

/-- Zeros fill the places up to the point. -/
theorem spells_padded (n k : Nat) : Spells (digitChars n ++ List.replicate k '0') (n * 10 ^ k) := by
  have hdigits := allDigits_digitChars n
  have hne := digitChars_ne_nil n
  have hall := allDigits_append.2 ⟨hdigits, allDigits_replicate k⟩
  have hdecimal := decimal?_plain (by simp [hne]) hall (show StartsElsewhere [] from trivial) (by simp) rfl
  rw [List.append_nil] at hdecimal
  refine ⟨startsWithDigit_append hne hdigits _, hall.undelimited, _, hdecimal, ?_⟩
  rw [Nat.ofDigitChars_append, ofDigitChars_digitChars, Nat.ofDigitChars_replicate_zero, Decimal.value, zpow_zero,
    mul_one, Nat.cast_mul, Nat.cast_pow, mul_comm]
  rfl

/-- The point stands among the digits. -/
theorem spells_split (n : Nat) {k : Nat} (hk : 0 < k) :
    Spells ((digitChars n).take k ++ '.' :: (digitChars n).drop k)
      (Decimal.value ⟨n, -((digitChars n).length - k : Nat)⟩) := by
  have hdigits := allDigits_digitChars n
  have htake := List.take_append_drop k (digitChars n)
  have hparts := allDigits_append.1 (htake.symm ▸ hdigits)
  have hne : (digitChars n).take k ≠ [] := by
    have hpos := List.length_pos_iff.2 (digitChars_ne_nil n)
    rw [← List.length_pos_iff, List.length_take]
    omega
  have hdecimal := decimal?_point (List.append_ne_nil_of_left_ne_nil hne _) hparts.1 hparts.2 (show StartsElsewhere [] from trivial) rfl
  rw [List.append_nil, htake, ofDigitChars_digitChars, List.length_drop, zero_sub] at hdecimal
  have hplain := undelimited_append.2
    ⟨hparts.1.undelimited, undelimited_cons (c := '.') (by decide) hparts.2.undelimited⟩
  exact ⟨startsWithDigit_append hne hparts.1 _, hplain, _, hdecimal, rfl⟩

/-- The point stands in front of all digits, behind a zero. -/
theorem spells_leading (n k : Nat) :
    Spells ('0' :: '.' :: List.replicate k '0' ++ digitChars n) (Decimal.value ⟨n, -(k + (digitChars n).length : Nat)⟩) := by
  have hfrac := allDigits_append.2 ⟨allDigits_replicate k, allDigits_digitChars n⟩
  have hzero : AllDigits ['0'] := by simp [AllDigits]
  have hdecimal := decimal?_point (by simp) hzero hfrac (show StartsElsewhere [] from trivial) rfl
  rw [List.append_nil] at hdecimal
  have hplain := undelimited_cons (c := '0') (by decide) (undelimited_cons (c := '.') (by decide) hfrac.undelimited)
  refine ⟨rfl, hplain, _, hdecimal, ?_⟩
  rw [List.cons_append, List.nil_append, Nat.ofDigitChars_cons, Nat.ofDigitChars_append, Nat.ofDigitChars_replicate_zero]
  simp only [Nat.mul_zero, Nat.sub_self, Nat.zero_add, ofDigitChars_digitChars, List.length_append, List.length_replicate,
    zero_sub]

theorem spells_positional (d : Decimal) : Spells d.positional d.value := by
  rw [Decimal.positional]
  dsimp only
  split
  next hexp =>
    have hvalue : d.value = d.digits * 10 ^ d.exp.toNat := by
      rw [Decimal.value, ← zpow_natCast, Int.toNat_of_nonneg hexp]
    rw [hvalue]
    exact spells_padded d.digits d.exp.toNat
  next hexp =>
    split
    next hlt =>
      have hsplit := spells_split d.digits (k := (digitChars d.digits).length - (-d.exp).toNat) (by omega)
      have hexp' : -((digitChars d.digits).length - ((digitChars d.digits).length - (-d.exp).toNat) : Nat) = d.exp := by
        omega
      rwa [hexp'] at hsplit
    next hle =>
      have hleading := spells_leading d.digits ((-d.exp).toNat - (digitChars d.digits).length)
      have hexp' : -((-d.exp).toNat - (digitChars d.digits).length + (digitChars d.digits).length : Nat) = d.exp := by
        omega
      rwa [hexp'] at hleading

theorem spells_scientific (d : Decimal) : Spells d.scientific d.value := by
  have hdigits := allDigits_digitChars d.digits
  have hvalue := ofDigitChars_digitChars d.digits
  have hexpPlain (n : Int) := undelimited_cons (c := 'e') (by decide) (undelimited_signed n)
  have hexp : StartsElsewhere ('e' :: Decimal.signed d.exp) := show Char.isDigit 'e' = false by decide
  rw [Decimal.scientific]
  split
  next heq => exact absurd heq (digitChars_ne_nil d.digits)
  next c heq =>
    rw [heq] at hdigits hvalue
    have hdecimal := decimal?_plain (by simp) hdigits hexp (by simp) (exponent?_signed d.exp)
    have hplain := undelimited_append.2 ⟨hdigits.undelimited, hexpPlain d.exp⟩
    exact ⟨hdigits c List.mem_cons_self, hplain, _, hdecimal, by rw [hvalue]⟩
  next c cs hne heq =>
    rw [heq] at hdigits hvalue
    have hparts := allDigits_append.1 (show AllDigits ([c] ++ cs) from hdigits)
    have hexp' : StartsElsewhere ('e' :: Decimal.signed (d.exp + cs.length)) := show Char.isDigit 'e' = false by decide
    have hdecimal := decimal?_point (by simp) hparts.1 hparts.2 hexp' (exponent?_signed (d.exp + cs.length))
    have hplain := undelimited_append.2 ⟨hparts.1.undelimited, undelimited_cons (c := '.') (by decide)
      (undelimited_append.2 ⟨hparts.2.undelimited, hexpPlain (d.exp + cs.length)⟩)⟩
    refine ⟨hdigits c List.mem_cons_self, hplain, _, hdecimal, ?_⟩
    rw [List.cons_append, List.nil_append, hvalue, Int.add_sub_cancel]

/-! ## Numbers -/

theorem named?_signed (negative : Bool) {cs : List Char} (h : StartsWithDigit cs) :
    named? (if negative then '-' :: cs else cs) = none := by
  have hplus : "+inf.0".toList = ['+', 'i', 'n', 'f', '.', '0'] := rfl
  have hminus : "-inf.0".toList = ['-', 'i', 'n', 'f', '.', '0'] := rfl
  have hplusNaN : "+nan.0".toList = ['+', 'n', 'a', 'n', '.', '0'] := rfl
  have hminusNaN : "-nan.0".toList = ['-', 'n', 'a', 'n', '.', '0'] := rfl
  cases cs with
  | nil => cases h
  | cons c cs =>
    have hne {d : Char} (hd : d.isDigit = false) : c ≠ d := by
      rintro rfl
      exact absurd (show c.isDigit = true from h) (by rw [hd]; decide)
    have h₁ : c ≠ '+' := hne rfl
    have h₂ : c ≠ '-' := hne rfl
    have h₃ : c ≠ 'i' := hne rfl
    have h₄ : c ≠ 'n' := hne rfl
    rw [named?, hplus, hminus, hplusNaN, hminusNaN]
    cases negative <;> simp [h₁, h₂, h₃, h₄]

theorem looksNumeric_signed (negative : Bool) {cs : List Char} (h : StartsWithDigit cs) :
    looksNumeric (if negative then '-' :: cs else cs) = true := by
  cases cs with
  | nil => cases h
  | cons c cs =>
    have hc : c.isDigit = true := h
    have hdot : c ≠ '.' := by
      rintro rfl
      exact absurd hc (by decide)
    cases negative with
    | false => rcases cs with _ | ⟨d, _ | ⟨e, cs⟩⟩ <;> simp [looksNumeric, hc]
    | true => rcases cs with _ | ⟨d, cs⟩ <;> simp [looksNumeric, hc, hdot]

theorem Spells.parse? {cs : List Char} {v : ℚ} (h : Spells cs v) (negative : Bool) :
    ∃ d : Decimal, d.value = v ∧
      parse? (if negative then '-' :: cs else cs) = some (.ofDecimal negative d.digits d.exp) := by
  obtain ⟨d, hd, hv⟩ := h.decimal
  refine ⟨d, hv, ?_⟩
  rw [Numeral.parse?, named?_signed negative h.digit, looksNumeric_signed negative h.digit, if_pos rfl,
    splitSign_signed negative h.digit]
  dsimp only
  rw [hd]
  rfl

/-- The integer that a finite double equals. -/
theorem toInt?_finite {x : Double} {negative : Bool} {m : Nat} {q n : Int} (h : x.classify = .finite negative m q)
    (hn : x.toInt? = some n) : (n.natAbs : ℚ) = m * 2 ^ q ∧ (m ≠ 0 → decide (n < 0) = negative) ∧ (m = 0 → n = 0) := by
  rw [Double.toInt?, h] at hn
  dsimp only at hn
  split at hn
  next hdvd =>
    have hq := Double.zpow_eq_div (a := 2) (by decide) q
    have hden := Double.pow_pos' (a := 2) (by decide) (-q).toNat
    generalize Nat.pow 2 (-q).toNat = den at hn hdvd hq hden
    generalize hpow : Nat.pow 2 q.toNat = pow at hn hq
    have hpowpos : 0 < pow := hpow ▸ Nat.pow_pos (by decide)
    have hm : m = m / den * den := (Nat.div_mul_cancel (Nat.dvd_of_mod_eq_zero hdvd)).symm
    have hvalue : ((m / den * pow : Nat) : ℚ) = m * 2 ^ q := by
      rw [Nat.cast_ofNat] at hq
      have hcast : (m : ℚ) = ((m / den : Nat) : ℚ) * den := by exact_mod_cast hm
      rw [hq, hcast, Nat.cast_mul]
      field_simp
    have hne : m ≠ 0 → m / den * pow ≠ 0 := by
      intro hm0 h0
      rcases Nat.mul_eq_zero.1 h0 with h0 | h0
      · rw [h0, Nat.zero_mul] at hm
        exact hm0 hm
      · omega
    generalize hN : m / den * pow = N at hn hvalue hne
    have hzero : m = 0 → N = 0 := by
      rintro rfl
      rw [← hN, Nat.zero_div, Nat.zero_mul]
    cases hn
    refine ⟨?_, fun hm0 => ?_, fun hm0 => ?_⟩
    · rw [← hvalue]
      cases negative <;> simp
    · have hpos := Nat.pos_of_ne_zero (hne hm0)
      cases negative with
      | false => simp
      | true => simpa using hpos
    · rw [hzero hm0]
      cases negative <;> rfl
  next => cases hn

/-- A sign and an unsigned numeral that rounds to the magnitude. Zero has no sign. -/
def Writes (text : List Char) (negative : Bool) (m : Nat) (q : Int) : Prop :=
  ∃ (sign : Bool) (cs : List Char) (v : ℚ), text = (if sign then '-' :: cs else cs) ∧ Spells cs v ∧
    (m = 0 → sign = false ∧ v = 0) ∧ (m ≠ 0 → sign = negative ∧ Double.RoundsTo m q v)

theorem writes_shortest {negative : Bool} {m : Nat} {q : Int} (hm : m ≠ 0) {cs : List Char}
    (hcs : Spells cs (Double.magnitudeDecimal m q).value) : Writes (if negative then '-' :: cs else cs) negative m q := by
  refine ⟨negative, cs, _, rfl, hcs, fun h0 => absurd h0 hm, fun _ => ⟨rfl, ?_⟩⟩
  rw [Double.magnitudeDecimal, if_neg hm]
  exact Double.roundsTo_shortest (Nat.pos_of_ne_zero hm) q

theorem writes_integer {x : Double} {negative : Bool} {m : Nat} {q n : Int} (h : x.classify = .finite negative m q)
    (hn : x.toInt? = some n) : Writes (Decimal.signed n) negative m q := by
  obtain ⟨hvalue, hsign, hzero⟩ := toInt?_finite h hn
  refine ⟨decide (n < 0), _, _, ?_, spells_integer n.natAbs, fun hm => ?_, fun hm => ⟨hsign hm, ?_⟩⟩
  · rw [Decimal.signed]
    simp only [decide_eq_true_eq]
  · rw [hzero hm]
    exact ⟨rfl, by simp⟩
  · rw [hvalue]
    exact Double.roundsTo_self (Nat.pos_of_ne_zero hm) q

theorem format_finite {x : Double} {negative : Bool} {m : Nat} {q : Int} (h : x.classify = .finite negative m q) :
    Writes (format x).toList negative m q := by
  rw [format, h]
  dsimp only
  split
  next n hn =>
    obtain ⟨-, -, hzero⟩ := toInt?_finite h hn
    split
    next hlt =>
      rw [String.toList_ofList]
      exact writes_integer h hn
    next hlt =>
      rw [String.toList_ofList]
      refine writes_shortest (fun hm => hlt ?_) (spells_scientific _)
      rw [hzero hm]
      decide
  next hn =>
    have hm : m ≠ 0 := by
      rintro rfl
      rw [Double.toInt?, h] at hn
      dsimp only at hn
      rw [if_pos (Nat.zero_mod _)] at hn
      cases hn
    split
    · rw [String.toList_ofList]
      exact writes_shortest hm (spells_scientific _)
    · rw [String.toList_ofList]
      exact writes_shortest hm (spells_positional _)

/-- Negative zero, whose text has no sign. -/
def negativeZero : Double := .ofMagnitude true 0

/-- The text of a number is read as that number. -/
theorem parse?_format {x : Double} (hnan : x.isNaN = false) (hzero : x ≠ negativeZero) :
    parse? (format x).toList = some x := by
  cases h : x.classify with
  | nan =>
    rw [Double.classify_nan h] at hnan
    cases hnan
  | infinite negative =>
    rw [format, h, Double.classify_infinite h]
    cases negative <;> rfl
  | finite negative m q =>
    obtain ⟨sign, cs, v, htext, hspells, hm0, hm1⟩ := format_finite h
    obtain ⟨hneg, hmagnitude, hcases⟩ := Double.classify_finite h
    obtain ⟨d, hd, hparse⟩ := hspells.parse? sign
    rw [htext, hparse, ← Double.ofMagnitude_magnitude x]
    congr 1
    rcases hcases with ⟨hm, hx⟩ | hr
    · obtain ⟨rfl, rfl⟩ := hm0 hm
      have hdigits : d.digits = 0 := by
        have := (mul_eq_zero.1 hd).resolve_right (by positivity)
        exact_mod_cast this
      have hsign : x.negative = false := by
        by_contra hne
        rw [Bool.not_eq_false] at hne
        refine hzero ?_
        rw [← Double.ofMagnitude_magnitude x, hx, hne]
        rfl
      rw [Double.ofDecimal, if_pos hdigits, hx, hsign]
    · obtain ⟨rfl, hrounds⟩ := hm1 hr.pos.ne'
      rw [Double.ofDecimal_eq hr sign (hd.symm ▸ hrounds), hmagnitude, hneg]

/-- The text of a number is an atom that starts with a digit or a sign. -/
theorem format_start (x : Double) : ∃ c cs, (format x).toList = c :: cs ∧ Undelimited (c :: cs) ∧
    (c.isDigit = true ∨ c = '-' ∨ c = '+') := by
  cases h : x.classify with
  | nan =>
    have htext : format x = "+nan.0" := by rw [format, h]
    rw [htext]
    exact ⟨'+', ['n', 'a', 'n', '.', '0'], rfl, by decide, .inr (.inr rfl)⟩
  | infinite negative =>
    have htext : format x = if negative then "-inf.0" else "+inf.0" := by rw [format, h]
    rw [htext]
    cases negative with
    | false => exact ⟨'+', ['i', 'n', 'f', '.', '0'], rfl, by decide, .inr (.inr rfl)⟩
    | true => exact ⟨'-', ['i', 'n', 'f', '.', '0'], rfl, by decide, .inr (.inl rfl)⟩
  | finite negative m q =>
    obtain ⟨sign, cs, v, htext, hspells, -, -⟩ := format_finite h
    rw [htext]
    cases sign with
    | true => exact ⟨'-', cs, rfl, undelimited_cons (by decide) hspells.undelimited, .inr (.inl rfl)⟩
    | false =>
      cases cs with
      | nil => cases hspells.digit
      | cons c cs => exact ⟨c, cs, rfl, hspells.undelimited, .inl hspells.digit⟩

end BoxedScheme.Numeral
