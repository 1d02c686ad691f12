import Mathlib.Algebra.Order.Field.Power
import Mathlib.Data.Rat.Cast.Order
import Mathlib.Tactic.Positivity
import Mathlib.Tactic.Linarith
import Mathlib.Tactic.FieldSimp
import Mathlib.Tactic.NormNum
import Mathlib.Tactic.Ring
import BoxedScheme.Double.Notation

/-!
# Rounding to doubles

The reals that round to the double `m * 2 ^ q` are those at most half a unit away, a quarter below a power of two;
the ends belong to them if `m` is even. Whatever ratio of natural numbers lies among them is rounded to that double,
and the shortest decimal of the double lies among them.

* `Regular m q` : significand and exponent as a finite double other than zero has them;
* `RoundsTo m q v` : the ratio `v` lies among the reals that round to `m * 2 ^ q`;
* `nearestMagnitude_eq` : it is rounded to that double;
* `roundsTo_shortest` : the shortest decimal lies there;
* `ofDecimal_eq` : decimals that lie there are read as that double.
-/

namespace BoxedScheme.Double

/-! ## Powers -/

theorem zpow_eq_div {a : ℕ} (ha : 0 < a) (e : ℤ) :
    (a : ℚ) ^ e = ((Nat.pow a e.toNat : ℕ) : ℚ) / ((Nat.pow a (-e).toNat : ℕ) : ℚ) := by
  have ha' : (a : ℚ) ≠ 0 := by exact_mod_cast ha.ne'
  simp only [Nat.pow_eq, Nat.cast_pow]
  rw [← zpow_natCast, ← zpow_natCast, ← zpow_sub₀ ha']
  congr 1
  omega

theorem pow_pos' {a : ℕ} (ha : 0 < a) (n : ℕ) : (0 : ℚ) < ((Nat.pow a n : ℕ) : ℚ) := by
  exact_mod_cast Nat.pow_pos ha

/-- Two numbers with signed powers are compared in natural numbers. -/
theorem scaled_le_iff {a b : ℕ} (ha : 0 < a) (hb : 0 < b) (c n : ℕ) (e q : ℤ) :
    c * Nat.pow a e.toNat * Nat.pow b (-q).toNat ≤ n * Nat.pow b q.toNat * Nat.pow a (-e).toNat ↔
      (c : ℚ) * (a : ℚ) ^ e ≤ n * (b : ℚ) ^ q := by
  rw [zpow_eq_div ha, zpow_eq_div hb, ← mul_div_assoc, ← mul_div_assoc,
    div_le_div_iff₀ (pow_pos' ha _) (pow_pos' hb _)]
  exact_mod_cast Iff.rfl

theorem decimalLe_iff (c : ℕ) (e : ℤ) (n : ℕ) (q : ℤ) :
    decimalLe c e n q = true ↔ (c : ℚ) * 10 ^ e ≤ n * 2 ^ q := by
  rw [decimalLe, decide_eq_true_iff]
  exact_mod_cast scaled_le_iff (a := 10) (b := 2) (by norm_num) (by norm_num) c n e q

theorem binaryLe_iff (n : ℕ) (q : ℤ) (c : ℕ) (e : ℤ) :
    binaryLe n q c e = true ↔ (n : ℚ) * 2 ^ q ≤ c * 10 ^ e := by
  rw [binaryLe, decide_eq_true_iff]
  exact_mod_cast scaled_le_iff (a := 2) (b := 10) (by norm_num) (by norm_num) n c q e

/-! ## Integers -/

/-- An integer that is at most half away, and less if it is odd, is the nearest one; everything is doubled. -/
theorem roundHalfEven_eq_of_doubled {n d m : ℕ} (hd : 0 < d) (hlow : 2 * (m * d) ≤ 2 * n + d)
    (hhigh : 2 * n ≤ 2 * (m * d) + d) (hodd : m % 2 = 1 → 2 * (m * d) < 2 * n + d ∧ 2 * n < 2 * (m * d) + d) :
    roundHalfEven n d = m := by
  have hdiv := Nat.div_add_mod n d
  have hmod := Nat.mod_lt n hd
  -- The integer is the quotient or the next one.
  have hcases : m = n / d ∨ m = n / d + 1 := by
    rcases Nat.lt_trichotomy m (n / d) with hlt | heq | hgt
    · have := Nat.mul_le_mul_right d hlt
      rw [Nat.succ_mul, Nat.mul_comm (n / d)] at this
      omega
    · exact .inl heq
    · rcases Nat.eq_or_lt_of_le hgt with heq | hlt
      · exact .inr heq.symm
      · have := Nat.mul_le_mul_right d hlt
        rw [Nat.succ_mul, Nat.succ_mul, Nat.mul_comm (n / d)] at this
        omega
  rw [roundHalfEven]
  rcases hcases with heq | heq
  · rw [heq, Nat.mul_comm (n / d)] at hlow hhigh hodd
    split_ifs <;> omega
  · rw [heq, Nat.add_mul, Nat.one_mul, Nat.mul_comm (n / d)] at hlow hhigh hodd
    split_ifs <;> omega

theorem roundHalfEven_eq {n d m : ℕ} (hd : 0 < d) (hlow : (m : ℚ) - 1 / 2 ≤ n / d) (hhigh : (n : ℚ) / d ≤ m + 1 / 2)
    (hodd : m % 2 = 1 → (m : ℚ) - 1 / 2 < n / d ∧ (n : ℚ) / d < m + 1 / 2) : roundHalfEven n d = m := by
  have hd' : (0 : ℚ) < d := by exact_mod_cast hd
  rw [le_div_iff₀ hd'] at hlow
  rw [div_le_iff₀ hd'] at hhigh
  have hlow' : (2 * (m * d) : ℚ) ≤ 2 * n + d := by linarith
  have hhigh' : (2 * n : ℚ) ≤ 2 * (m * d) + d := by linarith
  refine roundHalfEven_eq_of_doubled hd (by exact_mod_cast hlow') (by exact_mod_cast hhigh') ?_
  intro hm
  obtain ⟨hl, hh⟩ := hodd hm
  rw [lt_div_iff₀ hd'] at hl
  rw [div_lt_iff₀ hd'] at hh
  have hl' : (2 * (m * d) : ℚ) < 2 * n + d := by linarith
  have hh' : (2 * n : ℚ) < 2 * (m * d) + d := by linarith
  exact ⟨by exact_mod_cast hl', by exact_mod_cast hh'⟩

/-! ## The unit in the last place -/

theorem scaleDown_div (num : ℕ) {den : ℕ} (hden : 0 < den) (q : ℤ) :
    ((scaleDown num den q).1 : ℚ) / (scaleDown num den q).2 = (num : ℚ) / den / 2 ^ q := by
  have hden' : (den : ℚ) ≠ 0 := by exact_mod_cast hden.ne'
  have hpos := pow_pos' (a := 2) (by norm_num) q.toNat
  have hneg := pow_pos' (a := 2) (by norm_num) (-q).toNat
  have hq := zpow_eq_div (a := 2) (by norm_num) q
  simp only [Nat.cast_ofNat] at hq
  rw [hq, scaleDown]
  push_cast at hpos hneg ⊢
  field_simp

theorem scaleDown_pos (num : ℕ) {den : ℕ} (hden : 0 < den) (q : ℤ) : 0 < (scaleDown num den q).2 :=
  Nat.mul_pos hden (Nat.pow_pos (by norm_num))

/-- The power of two that is worth one unit in the last place of a double near `v`. -/
structure IsLastPlace (v : ℚ) (q : ℤ) : Prop where
  min : -1074 ≤ q
  lt : v < 2 * exponentUnit * 2 ^ q
  le : q = -1074 ∨ exponentUnit * 2 ^ q ≤ v

/-- There is at most one such power. -/
theorem IsLastPlace.le_of_isLastPlace {v : ℚ} {q q' : ℤ} (h : IsLastPlace v q) (h' : IsLastPlace v q') : q' ≤ q := by
  by_contra! hlt
  rcases h'.le with heq | hle
  · have := h.min
    omega
  · have hmono : (2 : ℚ) ^ (q + 1) ≤ 2 ^ q' := zpow_le_zpow_right₀ (by norm_num) (by omega)
    rw [zpow_add_one₀ (by norm_num)] at hmono
    have hv := h.lt
    have : (exponentUnit : ℚ) * (2 ^ q * 2) ≤ exponentUnit * 2 ^ q' := by gcongr
    linarith

theorem IsLastPlace.unique {v : ℚ} {q q' : ℤ} (h : IsLastPlace v q) (h' : IsLastPlace v q') : q = q' :=
  le_antisymm (h'.le_of_isLastPlace h) (h.le_of_isLastPlace h')

theorem div_lt_zpow_log2 {num den : ℕ} (hden : 0 < den) :
    (num : ℚ) / den < 2 ^ ((num.log2 : ℤ) - den.log2 + 1) := by
  have hden' : (0 : ℚ) < den := by exact_mod_cast hden
  have hlt : (num : ℚ) < 2 ^ (num.log2 + 1) := by exact_mod_cast Nat.lt_log2_self
  have hle : (2 : ℚ) ^ den.log2 ≤ den := by exact_mod_cast Nat.log2_self_le hden.ne'
  rw [div_lt_iff₀ hden']
  calc (num : ℚ) < 2 ^ (num.log2 + 1) := hlt
    _ = 2 ^ ((num.log2 : ℤ) - den.log2 + 1) * 2 ^ den.log2 := by
      rw [← zpow_natCast, ← zpow_natCast, ← zpow_add₀ (by norm_num)]
      congr 1
      omega
    _ ≤ 2 ^ ((num.log2 : ℤ) - den.log2 + 1) * den := by gcongr

theorem zpow_log2_lt_div {num den : ℕ} (hnum : 0 < num) (hden : 0 < den) :
    (2 : ℚ) ^ ((num.log2 : ℤ) - den.log2 - 1) < (num : ℚ) / den := by
  have hden' : (0 : ℚ) < den := by exact_mod_cast hden
  have hle : (2 : ℚ) ^ num.log2 ≤ num := by exact_mod_cast Nat.log2_self_le hnum.ne'
  have hlt : (den : ℚ) < 2 ^ (den.log2 + 1) := by exact_mod_cast Nat.lt_log2_self
  rw [lt_div_iff₀ hden']
  calc (2 : ℚ) ^ ((num.log2 : ℤ) - den.log2 - 1) * den
      < 2 ^ ((num.log2 : ℤ) - den.log2 - 1) * 2 ^ (den.log2 + 1) := by gcongr
    _ = 2 ^ num.log2 := by
      rw [← zpow_natCast, ← zpow_natCast, ← zpow_add₀ (by norm_num)]
      congr 1
      omega
    _ ≤ num := hle

theorem exponentUnit_eq : (exponentUnit : ℚ) = 2 ^ (52 : ℤ) := by norm_num [exponentUnit]

theorem isLastPlace_unitExponent {num den : ℕ} (hnum : 0 < num) (hden : 0 < den) :
    IsLastPlace ((num : ℚ) / den) (unitExponent num den) := by
  rw [unitExponent]
  have hupper : (num : ℚ) / den < _ := div_lt_zpow_log2 hden
  have hlower := zpow_log2_lt_div hnum hden
  generalize hv : (num : ℚ) / den = v at hupper hlower ⊢
  generalize ((num.log2 : ℤ) - den.log2) = l at hupper hlower
  dsimp only
  generalize hq : max (l - 53) (-1074) = q
  have hmin : -1074 ≤ q := hq ▸ le_max_right _ _
  have htwo : (2 : ℚ) ^ q ≠ 0 := by positivity
  -- The quotient by the first guess is below four times the leading bit.
  have hfour : v < 2 * exponentUnit * 2 ^ (q + 1) := by
    refine lt_of_lt_of_le hupper ?_
    rw [exponentUnit_eq, ← zpow_one_add₀ (by norm_num), ← zpow_add₀ (by norm_num)]
    exact zpow_le_zpow_right₀ (by norm_num) (by omega)
  have hle : (2 * exponentUnit ≤ (scaleDown num den q).1 / (scaleDown num den q).2) ↔
      2 * (exponentUnit : ℚ) * 2 ^ q ≤ v := by
    have hd : (0 : ℚ) < (scaleDown num den q).2 := by exact_mod_cast scaleDown_pos num hden q
    rw [Nat.le_div_iff_mul_le (scaleDown_pos num hden q), ← le_div_iff₀ (by positivity), ← hv,
      ← scaleDown_div num hden q, le_div_iff₀ hd]
    exact_mod_cast Iff.rfl
  split
  next hbig =>
    rw [hle] at hbig
    refine ⟨by omega, hfour, .inr ?_⟩
    rw [zpow_add_one₀ (by norm_num)]
    linarith
  next hsmall =>
    rw [hle, not_le] at hsmall
    refine ⟨hmin, hsmall, ?_⟩
    rcases max_cases (l - 53) (-1074) with ⟨heq, -⟩ | ⟨heq, -⟩
    · refine .inr (le_trans (le_of_eq ?_) hlower.le)
      rw [exponentUnit_eq, ← zpow_add₀ (by norm_num), ← hq, heq]
      congr 1
      omega
    · exact .inl (hq ▸ heq)

/-! ## The reals that round to a double -/

/-- Significand and exponent, as a finite double other than zero has them. -/
structure Regular (m : ℕ) (q : ℤ) : Prop where
  pos : 0 < m
  lt : m < 2 * exponentUnit
  min : -1074 ≤ q
  max : q ≤ 971
  leading : q = -1074 ∨ exponentUnit ≤ m

/-- Four times the lower end of the reals that round to `m * 2 ^ q`, in units of the last place. -/
def lowEnd (m : ℕ) (q : ℤ) : ℕ := if m = exponentUnit ∧ -1074 < q then 4 * m - 1 else 4 * m - 2

/-- The ratio lies among the reals that round to `m * 2 ^ q`. -/
structure RoundsTo (m : ℕ) (q : ℤ) (v : ℚ) : Prop where
  low : lowEnd m q * 2 ^ (q - 2) ≤ v
  high : v ≤ (4 * m + 2) * 2 ^ (q - 2)
  odd : m % 2 = 1 → lowEnd m q * 2 ^ (q - 2) < v ∧ v < (4 * m + 2) * 2 ^ (q - 2)

theorem readsBack_iff (m : ℕ) (q : ℤ) (c : ℕ) (e : ℤ) :
    readsBack m q c e = true ↔ RoundsTo m q ((c : ℚ) * 10 ^ e) := by
  have hhigh : ((4 * m + 2 : ℕ) : ℚ) = 4 * m + 2 := by push_cast; rfl
  rw [readsBack]
  show (if m % 2 = 0 then binaryLe (lowEnd m q) (q - 2) c e && decimalLe c e (4 * m + 2) (q - 2)
    else !decimalLe c e (lowEnd m q) (q - 2) && !binaryLe (4 * m + 2) (q - 2) c e) = true ↔ _
  split
  next heven =>
    rw [Bool.and_eq_true, binaryLe_iff, decimalLe_iff, hhigh]
    exact ⟨fun ⟨hl, hh⟩ => ⟨hl, hh, fun hodd => by omega⟩, fun h => ⟨h.low, h.high⟩⟩
  next hodd =>
    rw [Bool.and_eq_true, Bool.not_eq_true', Bool.not_eq_true', ← Bool.not_eq_true, ← Bool.not_eq_true,
      binaryLe_iff, decimalLe_iff, hhigh, not_le, not_le]
    exact ⟨fun ⟨hl, hh⟩ => ⟨hl.le, hh.le, fun _ => ⟨hl, hh⟩⟩, fun h => h.odd (by omega)⟩

/-- The ratio in quarters of the last place. -/
theorem RoundsTo.quarters {m : ℕ} {q : ℤ} {v : ℚ} (h : RoundsTo m q v) :
    ∃ y, v = y * 2 ^ (q - 2) ∧ lowEnd m q ≤ y ∧ y ≤ 4 * m + 2 ∧ (m % 2 = 1 → lowEnd m q < y ∧ y < 4 * m + 2) := by
  have hpos : (0 : ℚ) < 2 ^ (q - 2) := by positivity
  refine ⟨v / 2 ^ (q - 2), (div_mul_cancel₀ v hpos.ne').symm, ?_, ?_, fun hodd => ?_⟩
  · rw [le_div_iff₀ hpos]
    exact h.low
  · rw [div_le_iff₀ hpos]
    exact h.high
  · rw [lt_div_iff₀ hpos, div_lt_iff₀ hpos]
    exact h.odd hodd

theorem le_lowEnd (m : ℕ) (q : ℤ) : 4 * (m : ℚ) - 2 ≤ lowEnd m q := by
  have hle : 4 * m ≤ lowEnd m q + 2 := by
    unfold lowEnd
    split <;> omega
  have : (4 * m : ℚ) ≤ lowEnd m q + 2 := by exact_mod_cast hle
  linarith

theorem lowEnd_of_ne {m : ℕ} {q : ℤ} (hpos : 0 < m) (hne : m ≠ exponentUnit) : (lowEnd m q : ℚ) = 4 * m - 2 := by
  have heq : lowEnd m q + 2 = 4 * m := by
    unfold lowEnd
    split <;> omega
  have : (lowEnd m q + 2 : ℚ) = 4 * m := by exact_mod_cast heq
  linarith

theorem lowEnd_exponentUnit {q : ℤ} (hq : -1074 < q) : (lowEnd exponentUnit q : ℚ) = 4 * exponentUnit - 1 := by
  norm_num [lowEnd, hq, exponentUnit]

theorem zpow_quarters (q : ℤ) : (2 : ℚ) ^ q = 4 * 2 ^ (q - 2) := by
  rw [show (4 : ℚ) = 2 ^ (2 : ℤ) by norm_num, ← zpow_add₀ (by norm_num)]
  congr 1
  omega

section Nearest

variable {m num den : ℕ} {q : ℤ} (hr : Regular m q) (hden : 0 < den)

include hr hden

theorem nearestMagnitude_of_isLastPlace {k : ℕ} {u : ℤ} (hu : IsLastPlace ((num : ℚ) / den) u) (hnum : num ≠ 0)
    (hk : roundHalfEven (scaleDown num den u).1 (scaleDown num den u).2 = k)
    (hsum : (u + 1074).toNat * exponentUnit + k = (q + 1074).toNat * exponentUnit + m) :
    nearestMagnitude num den = (q + 1074).toNat * exponentUnit + m := by
  have hunit := (isLastPlace_unitExponent (Nat.pos_of_ne_zero hnum) hden).unique hu
  rw [nearestMagnitude, if_neg hnum]
  dsimp only
  rw [hunit, hk, hsum]
  refine min_eq_left ?_
  have hlt := hr.lt
  have hmax := hr.max
  simp only [infinityMagnitude, exponentUnit] at hlt ⊢
  omega

/-- A ratio with the last place of the double, in quarters of that place. -/
theorem nearestMagnitude_of_quarters {y : ℚ} (hy : (num : ℚ) / den = y * 2 ^ (q - 2)) (hnum : num ≠ 0)
    (hunit : q = -1074 ∨ 4 * (exponentUnit : ℚ) ≤ y) (hlow : 4 * m - 2 ≤ y) (hhigh : y ≤ 4 * m + 2)
    (hodd : m % 2 = 1 → 4 * m - 2 < y ∧ y < 4 * m + 2) :
    nearestMagnitude num den = (q + 1074).toNat * exponentUnit + m := by
  have hpos : (0 : ℚ) < 2 ^ (q - 2) := by positivity
  have hu : IsLastPlace ((num : ℚ) / den) q := by
    have hm : (m : ℚ) + 1 ≤ 2 * exponentUnit := by exact_mod_cast hr.lt
    refine ⟨hr.min, ?_, hunit.imp id fun hle => ?_⟩
    · rw [hy, zpow_quarters q, ← mul_assoc]
      exact mul_lt_mul_of_pos_right (by linarith) hpos
    · rw [hy, zpow_quarters q, ← mul_assoc]
      exact mul_le_mul_of_nonneg_right (by linarith) hpos.le
  have hx := scaleDown_div num hden q
  rw [hy, zpow_quarters q, mul_div_mul_right _ _ hpos.ne'] at hx
  refine nearestMagnitude_of_isLastPlace hr hden hu hnum (roundHalfEven_eq (scaleDown_pos num hden q) ?_ ?_ ?_) rfl
  · rw [hx]
    linarith
  · rw [hx]
    linarith
  · intro ho
    obtain ⟨hl, hh⟩ := hodd ho
    rw [hx]
    exact ⟨by linarith, by linarith⟩

omit hr in
/-- A ratio just below a power of two: its last place is worth half that of the power, to which a carry leads. -/
theorem nearestMagnitude_of_below {y : ℚ} (hr : Regular exponentUnit q) (hy : (num : ℚ) / den = y * 2 ^ (q - 2))
    (hnum : num ≠ 0) (hq : -1074 < q) (hlow : 4 * (exponentUnit : ℚ) - 1 ≤ y) (hlt : y < 4 * exponentUnit) :
    nearestMagnitude num den = (q + 1074).toNat * exponentUnit + exponentUnit := by
  have hpos : (0 : ℚ) < 2 ^ (q - 2) := by positivity
  have hhalf : (2 : ℚ) ^ (q - 1) = 2 * 2 ^ (q - 2) := by
    rw [← zpow_one_add₀ (by norm_num)]
    congr 1
    omega
  have hu : IsLastPlace ((num : ℚ) / den) (q - 1) := by
    have hunit : (1 : ℚ) ≤ exponentUnit := by norm_num [exponentUnit]
    refine ⟨by omega, ?_, .inr ?_⟩
    · rw [hy, hhalf, ← mul_assoc]
      exact mul_lt_mul_of_pos_right (by linarith) hpos
    · rw [hy, hhalf, ← mul_assoc]
      exact mul_le_mul_of_nonneg_right (by linarith) hpos.le
  have hx := scaleDown_div num hden (q - 1)
  rw [hy, hhalf, mul_div_mul_right _ _ hpos.ne'] at hx
  refine nearestMagnitude_of_isLastPlace hr hden (k := 2 * exponentUnit) hu hnum
    (roundHalfEven_eq (scaleDown_pos num hden _) ?_ ?_ fun ho => ?_) ?_
  · rw [hx, Nat.cast_mul, Nat.cast_ofNat]
    generalize (exponentUnit : ℚ) = unit at hlow ⊢
    linarith
  · rw [hx, Nat.cast_mul, Nat.cast_ofNat]
    generalize (exponentUnit : ℚ) = unit at hlt ⊢
    linarith
  · omega
  · simp only [exponentUnit]
    omega

/-- A ratio among the reals that round to a double is rounded to it. The exponent field and the fraction of the
double are one number. -/
theorem nearestMagnitude_eq (hv : RoundsTo m q ((num : ℚ) / den)) :
    nearestMagnitude num den = (q + 1074).toNat * exponentUnit + m := by
  obtain ⟨y, hy, hlow, hhigh, hodd⟩ := hv.quarters
  have hend := le_lowEnd m q
  have hnum : num ≠ 0 := by
    rintro rfl
    have hm : (1 : ℚ) ≤ m := by exact_mod_cast hr.pos
    have hpos : (0 : ℚ) < y * 2 ^ (q - 2) := mul_pos (by linarith) (by positivity)
    rw [← hy, Nat.cast_zero, zero_div] at hpos
    exact lt_irrefl _ hpos
  by_cases hunit : q = -1074 ∨ 4 * (exponentUnit : ℚ) ≤ y
  · refine nearestMagnitude_of_quarters hr hden hy hnum hunit (by linarith) hhigh fun ho => ?_
    obtain ⟨hl, hh⟩ := hodd ho
    exact ⟨by linarith, hh⟩
  · push Not at hunit
    obtain ⟨hmin, hlt⟩ := hunit
    have hm : m = exponentUnit := by
      by_contra hne
      rw [lowEnd_of_ne hr.pos hne] at hlow
      have hle : (exponentUnit : ℚ) + 1 ≤ m := by
        have := hr.leading.resolve_left hmin
        exact_mod_cast (by omega : exponentUnit + 1 ≤ m)
      linarith
    subst hm
    have hq : -1074 < q := lt_of_le_of_ne hr.min (Ne.symm hmin)
    rw [lowEnd_exponentUnit hq] at hlow
    exact nearestMagnitude_of_below hden hr hy hnum hq hlow hlt

end Nearest

/-! ## Decimals -/

def Decimal.value (d : Decimal) : ℚ := d.digits * 10 ^ d.exp

theorem Decimal.value_strip (limit : ℕ) (d : Decimal) : (d.strip limit).value = d.value := by
  induction limit generalizing d with
  | zero => rfl
  | succ limit ih =>
    rw [strip]
    split
    next h =>
      rw [ih, value, value, zpow_add_one₀ (by norm_num)]
      have hdigits : d.digits = d.digits / 10 * 10 := by omega
      have hcast : (d.digits : ℚ) = ((d.digits / 10 : ℕ) : ℚ) * 10 := by exact_mod_cast hdigits
      rw [hcast]
      ring
    next => rfl

theorem value_exactDecimal (m : ℕ) (q : ℤ) : (exactDecimal m q).value = m * 2 ^ q := by
  unfold exactDecimal Decimal.value
  split
  next hq =>
    rw [zpow_zero, mul_one, Nat.cast_mul, Nat.pow_eq, Nat.cast_pow, ← zpow_natCast, Int.toNat_of_nonneg hq]
    rfl
  next hq =>
    rw [Nat.cast_mul, Nat.pow_eq, Nat.cast_pow, ← zpow_natCast, Int.toNat_of_nonneg (by omega), mul_assoc, zpow_neg,
      ← inv_zpow, ← mul_zpow]
    norm_num

/-- A double rounds to itself. -/
theorem roundsTo_self {m : ℕ} (hm : 0 < m) (q : ℤ) : RoundsTo m q (m * 2 ^ q) := by
  have hpos : (0 : ℚ) < 2 ^ (q - 2) := by positivity
  have hlow : (lowEnd m q : ℚ) < 4 * m := by
    have : lowEnd m q < 4 * m := by
      unfold lowEnd
      split <;> omega
    exact_mod_cast this
  have hlt : lowEnd m q * 2 ^ (q - 2) < (m : ℚ) * 2 ^ q := by
    rw [zpow_quarters q, ← mul_assoc]
    exact mul_lt_mul_of_pos_right (by linarith) hpos
  have hlt' : (m : ℚ) * 2 ^ q < (4 * m + 2) * 2 ^ (q - 2) := by
    rw [zpow_quarters q, ← mul_assoc]
    exact mul_lt_mul_of_pos_right (by linarith) hpos
  exact ⟨hlt.le, hlt'.le, fun _ => ⟨hlt, hlt'⟩⟩

theorem readsBack_of_neighbour? {m : ℕ} {q e : ℤ} {c : ℕ} (h : neighbour? m q e = some c) :
    readsBack m q c e = true := by
  -- Whichever neighbour is tried first.
  have htried (p : ℕ × ℕ) (hp : (if readsBack m q p.1 e then some p.1
      else if readsBack m q p.2 e then some p.2 else none) = some c) : readsBack m q c e = true := by
    split_ifs at hp with hfirst hsecond
    · cases hp
      exact hfirst
    · cases hp
      exact hsecond
  exact htried _ h

/-- The shortest decimal of a double lies among the reals that round to it. -/
theorem roundsTo_shortest {m : ℕ} (hm : 0 < m) (q : ℤ) : RoundsTo m q (shortest m q).value := by
  rw [shortest]
  dsimp only
  rw [Decimal.value_strip]
  generalize hfound : List.findSome? _ _ = found
  cases found with
  | none =>
    rw [Option.getD_none, value_exactDecimal]
    exact roundsTo_self hm q
  | some d =>
    obtain ⟨n, -, hn⟩ := List.exists_of_findSome?_eq_some hfound
    obtain ⟨c, hc, rfl⟩ := Option.map_eq_some_iff.1 hn
    exact (readsBack_iff m q c _).1 (readsBack_of_neighbour? hc)

/-! ## Reading decimals -/

theorem two_pow_le_ten_pow (n : ℕ) : (2 : ℚ) ^ (3 * n) ≤ 10 ^ n := by
  rw [pow_mul]
  exact pow_le_pow_left₀ (by norm_num) (by norm_num) n

theorem ten_zpow_neg_le (n : ℕ) : (10 : ℚ) ^ (-n : ℤ) ≤ 2 ^ (-(3 * n : ℕ) : ℤ) := by
  rw [zpow_neg, zpow_neg, zpow_natCast, zpow_natCast]
  exact inv_anti₀ (by positivity) (two_pow_le_ten_pow n)

section Reading

variable {m : ℕ} {q : ℤ} (hr : Regular m q)

include hr

theorem Regular.bounds {v : ℚ} (hv : RoundsTo m q v) : (2 : ℚ) ^ (-1075 : ℤ) ≤ v ∧ v < 2 ^ (1024 : ℤ) := by
  have hend := le_lowEnd m q
  have hm : (1 : ℚ) ≤ m := by exact_mod_cast hr.pos
  have hm' : (m : ℚ) + 1 ≤ 2 * exponentUnit := by exact_mod_cast hr.lt
  have hmin : (2 : ℚ) ^ (-1076 : ℤ) ≤ 2 ^ (q - 2) := zpow_le_zpow_right₀ (by norm_num) (by linarith [hr.min])
  have hmax : (2 : ℚ) ^ (q - 2) ≤ 2 ^ (969 : ℤ) := zpow_le_zpow_right₀ (by norm_num) (by linarith [hr.max])
  have hpos : (0 : ℚ) < 2 ^ (q - 2) := by positivity
  refine ⟨?_, ?_⟩
  · calc (2 : ℚ) ^ (-1075 : ℤ) = 2 * 2 ^ (-1076 : ℤ) := by rw [← zpow_one_add₀ (by norm_num)]; norm_num
      _ ≤ lowEnd m q * 2 ^ (q - 2) := by
        refine mul_le_mul (by linarith) hmin (by positivity) (by linarith)
      _ ≤ v := hv.low
  · calc v ≤ (4 * m + 2) * 2 ^ (q - 2) := hv.high
      _ < 8 * exponentUnit * 2 ^ (q - 2) := mul_lt_mul_of_pos_right (by linarith) hpos
      _ ≤ 8 * exponentUnit * 2 ^ (969 : ℤ) := by gcongr
      _ = 2 ^ (1024 : ℤ) := by
        rw [exponentUnit_eq, show (8 : ℚ) = 2 ^ (3 : ℤ) by norm_num, ← zpow_add₀ (by norm_num), ← zpow_add₀ (by norm_num)]
        rfl

omit hr in
theorem Decimal.exp_le {d : Decimal} (hdigits : d.digits ≠ 0) (hlt : d.value < 2 ^ (1024 : ℤ)) : d.exp ≤ 400 := by
  by_contra! hexp
  have hone : (1 : ℚ) ≤ d.digits := by exact_mod_cast Nat.one_le_iff_ne_zero.2 hdigits
  have hten : (10 : ℚ) ^ d.exp ≤ d.value := le_mul_of_one_le_left (by positivity) hone
  have hbig : (2 : ℚ) ^ (1024 : ℤ) ≤ 10 ^ d.exp := calc
    (2 : ℚ) ^ (1024 : ℤ) ≤ 2 ^ ((3 * 400 : ℕ) : ℤ) := zpow_le_zpow_right₀ (by norm_num) (by norm_num)
    _ ≤ 10 ^ ((400 : ℕ) : ℤ) := by
      rw [zpow_natCast, zpow_natCast]
      exact two_pow_le_ten_pow 400
    _ ≤ 10 ^ d.exp := zpow_le_zpow_right₀ (by norm_num) (by push_cast; omega)
  linarith

omit hr in
theorem Decimal.le_exp_add_log2 {d : Decimal} (hle : (2 : ℚ) ^ (-1075 : ℤ) ≤ d.value) :
    -400 ≤ d.exp + d.digits.log2 := by
  by_contra! hsum
  have hlog : (d.digits : ℚ) < 2 ^ (d.digits.log2 + 1) := by exact_mod_cast Nat.lt_log2_self
  obtain ⟨n, hn⟩ : ∃ n : ℕ, d.exp = -n := ⟨(-d.exp).toNat, by omega⟩
  have hsmall : d.value < 2 ^ (-1075 : ℤ) := calc
    d.value < 2 ^ (d.digits.log2 + 1) * 10 ^ d.exp := mul_lt_mul_of_pos_right hlog (by positivity)
    _ ≤ 2 ^ (d.digits.log2 + 1) * 2 ^ (-(3 * n : ℕ) : ℤ) := by
      rw [hn]
      exact mul_le_mul_of_nonneg_left (ten_zpow_neg_le n) (by positivity)
    _ = 2 ^ ((d.digits.log2 + 1 : ℕ) + -(3 * n : ℕ) : ℤ) := by rw [zpow_add₀ (by norm_num), zpow_natCast]
    _ ≤ 2 ^ (-1075 : ℤ) := zpow_le_zpow_right₀ (by norm_num) (by omega)
  linarith

/-- A decimal among the reals that round to a double is read as it: no such decimal is far outside the range of
doubles. -/
theorem ofDecimal_eq (negative : Bool) {d : Decimal} (hv : RoundsTo m q d.value) :
    ofDecimal negative d.digits d.exp = ofMagnitude negative ((q + 1074).toNat * exponentUnit + m) := by
  obtain ⟨hlow, hhigh⟩ := hr.bounds hv
  have hdigits : d.digits ≠ 0 := by
    intro hzero
    rw [Decimal.value, hzero, Nat.cast_zero, zero_mul] at hlow
    exact absurd hlow (not_le.2 (by positivity))
  have hden : 0 < Nat.pow 10 (-d.exp).toNat := Nat.pow_pos (by norm_num)
  rw [ofDecimal, if_neg hdigits, if_neg (not_lt.2 (Decimal.exp_le hdigits hhigh)),
    if_neg (not_lt.2 (Decimal.le_exp_add_log2 hlow)), nearest, nearestMagnitude_eq hr hden]
  have hq := zpow_eq_div (a := 10) (by norm_num) d.exp
  rw [Decimal.value] at hv
  simp only [Nat.cast_ofNat] at hq
  rw [hq, ← mul_div_assoc] at hv
  rwa [Nat.cast_mul]

end Reading

/-! ## The fields of a pattern -/

theorem ofMagnitude_magnitude (x : Double) : ofMagnitude x.negative x.magnitude = x := by
  have hlt := x.bits.toNat_lt
  have hsum : x.magnitude + (if x.negative then signUnit else 0) = x.bits.toNat := by
    simp only [magnitude, negative, signUnit, decide_eq_true_eq]
    split <;> omega
  rw [ofMagnitude, hsum, UInt64.ofNat_toNat]

theorem exponent_fraction (x : Double) :
    exponentUnit * x.exponent + x.fraction = x.magnitude ∧ x.fraction < exponentUnit ∧ x.exponent ≤ 0x7ff := by
  refine ⟨Nat.div_add_mod x.magnitude exponentUnit, Nat.mod_lt _ (by norm_num [exponentUnit]), ?_⟩
  have : x.magnitude < signUnit := Nat.mod_lt _ (by norm_num [signUnit])
  simp only [exponent, signUnit, exponentUnit] at this ⊢
  omega

theorem classify_nan {x : Double} (h : x.classify = .nan) : x.isNaN = true := by
  obtain ⟨hsplit, -, -⟩ := x.exponent_fraction
  rw [classify] at h
  split_ifs at h with hinf hzero
  rw [isNaN, decide_eq_true_iff, infinityMagnitude]
  rw [hinf] at hsplit
  omega

theorem classify_infinite {x : Double} {negative : Bool} (h : x.classify = .infinite negative) :
    x = infinity negative := by
  obtain ⟨hsplit, -, -⟩ := x.exponent_fraction
  rw [classify] at h
  split_ifs at h with hinf hzero
  cases h
  rw [hinf, hzero, Nat.add_zero, Nat.mul_comm] at hsplit
  rw [infinity, infinityMagnitude, hsplit, ofMagnitude_magnitude]

/-- What the fields of a finite double are worth. -/
theorem classify_finite {x : Double} {negative : Bool} {m : ℕ} {q : ℤ} (h : x.classify = .finite negative m q) :
    negative = x.negative ∧ (q + 1074).toNat * exponentUnit + m = x.magnitude ∧
      (m = 0 ∧ x.magnitude = 0 ∨ Regular m q) := by
  obtain ⟨hsplit, hfraction, hexponent⟩ := x.exponent_fraction
  rw [classify] at h
  split_ifs at h with hinf hzero hsub
  · cases h
    rw [hsub, Nat.mul_zero, Nat.zero_add] at hsplit
    refine ⟨rfl, by simpa using hsplit, ?_⟩
    rcases Nat.eq_zero_or_pos x.fraction with hm | hm
    · exact .inl ⟨hm, hsplit ▸ hm⟩
    · exact .inr ⟨hm, by omega, by norm_num, by norm_num, .inl rfl⟩
  · cases h
    refine ⟨rfl, ?_, .inr ⟨?_, ?_, ?_, ?_, .inr ?_⟩⟩ <;> simp only [exponentUnit] at * <;> omega

end BoxedScheme.Double
