import Mathlib
import BoxedScheme.Word

/-!
# Words: tags, payloads and what a word refers to

* `tag_tagged`, `payload_tagged` : a tag and a payload are read back from the word made of them;
* `hasCell`, `hasText` : the word refers to a cell (pairs, closures) or to a string slot (symbols, strings);
* `isImmediate` : the word refers to nothing;
* `withPayload` : the same word with another payload, and what it leaves alone.
-/

namespace BoxedScheme.Word

/-! ## Tags and payloads -/

theorem toNat_tag (w : Word) : w.tag.toNat = w.bits.toNat / 2 ^ 48 := by
  simp [tag, Nat.shiftRight_eq_div_pow]

theorem toNat_payload (w : Word) : w.payload.toNat = w.bits.toNat % 2 ^ 32 := by
  simp [payload]

theorem toNat_bits_tagged {t : UInt64} (h : t < 0x10000) (p : UInt32) :
    (tagged t p).bits.toNat = t.toNat * 2 ^ 48 + p.toNat := by
  have ht : t.toNat < 65536 := h
  have hp := p.toNat_lt
  have hor := Nat.two_pow_add_eq_or_of_lt (i := 48) (b := p.toNat) (by omega) t.toNat
  simp only [tagged, UInt64.toNat_or, UInt64.toNat_shiftLeft, UInt32.toNat_toUInt64, UInt64.reduceToNat,
    Nat.reduceMod, Nat.shiftLeft_eq]
  rw [Nat.mod_eq_of_lt (by omega), Nat.mul_comm, ← hor]

theorem tag_tagged {t : UInt64} (h : t < 0x10000) (p : UInt32) : (tagged t p).tag = t := by
  have hp := p.toNat_lt
  apply UInt64.toNat_inj.1
  rw [toNat_tag, toNat_bits_tagged h]
  omega

@[simp] theorem payload_tagged (t : UInt64) (p : UInt32) : (tagged t p).payload = p := by
  simp only [payload, tagged]
  apply UInt32.eq_of_toBitVec_eq
  simp

@[simp] theorem tag_symbol (i : UInt32) : (symbol i).tag = 0xfffa := tag_tagged (by decide) i
@[simp] theorem tag_string (i : UInt32) : (string i).tag = 0xfffb := tag_tagged (by decide) i
@[simp] theorem tag_pair (i : UInt32) : (pair i).tag = 0xfffc := tag_tagged (by decide) i
@[simp] theorem tag_char (c : Char) : (char c).tag = 0xfffd := tag_tagged (by decide) c.val
@[simp] theorem tag_procedure (i : UInt32) : (procedure i).tag = 0xfffe := tag_tagged (by decide) i
@[simp] theorem tag_closure (i : UInt32) : (closure i).tag = 0xffff := tag_tagged (by decide) i

@[simp] theorem payload_symbol (i : UInt32) : (symbol i).payload = i := payload_tagged _ i
@[simp] theorem payload_string (i : UInt32) : (string i).payload = i := payload_tagged _ i
@[simp] theorem payload_pair (i : UInt32) : (pair i).payload = i := payload_tagged _ i
@[simp] theorem payload_char (c : Char) : (char c).payload = c.val := payload_tagged _ c.val
@[simp] theorem payload_procedure (i : UInt32) : (procedure i).payload = i := payload_tagged _ i
@[simp] theorem payload_closure (i : UInt32) : (closure i).payload = i := payload_tagged _ i

/-! ## Kinds -/

@[simp] theorem kind_nil : nil.kind = .emptyList := by decide

@[simp] theorem kind_boolean (b : Bool) : (boolean b).kind = .boolean b := by
  cases b <;> decide

@[simp] theorem kind_symbol (i : UInt32) : (symbol i).kind = .symbol i := by
  simp [kind, isNumber, isReservedTag]

@[simp] theorem kind_string (i : UInt32) : (string i).kind = .string i := by
  simp [kind, isNumber, isReservedTag]

@[simp] theorem kind_pair (i : UInt32) : (pair i).kind = .pair i := by
  simp [kind, isNumber, isReservedTag]

@[simp] theorem kind_char (c : Char) : (char c).kind = .char c := by
  have hvalid : c.val.isValidChar := c.valid
  simp [kind, isNumber, isReservedTag, charOfCode, hvalid]

@[simp] theorem kind_procedure (i : UInt32) : (procedure i).kind = .procedure i := by
  simp [kind, isNumber, isReservedTag]

@[simp] theorem kind_closure (i : UInt32) : (closure i).kind = .closure i := by
  simp [kind, isNumber, isReservedTag]

/-- A number that is no not-a-number keeps its pattern as a word. -/
theorem isReservedTag_of_isNaN {x : Double} (hx : x.isNaN = Bool.false) :
    isReservedTag (x.bits >>> 48) = Bool.false := by
  have hlt := x.bits.toNat_lt
  have htag := toNat_tag ⟨x.bits⟩
  simp only [tag] at htag
  have hle : x.bits.toNat % Double.signUnit ≤ 0x7ff * Double.exponentUnit := Nat.not_lt.1 (of_decide_eq_false hx)
  simp only [Double.signUnit, Double.exponentUnit] at hle
  simp only [isReservedTag, Bool.or_eq_false_iff, Bool.and_eq_false_iff, decide_eq_false_iff_not, UInt64.le_iff_toNat_le,
    UInt64.reduceToNat, htag]
  omega

theorem number_of_isNaN {x : Double} (hx : x.isNaN = Bool.false) : number x = ⟨x.bits⟩ := by
  rw [number, isReservedTag_of_isNaN hx]
  rfl

theorem isNumber_number (x : Double) : (number x).isNumber = Bool.true := by
  unfold number
  by_cases hx : isReservedTag (x.bits >>> 48)
  · rw [if_pos hx]
    decide
  · rw [if_neg hx]
    exact congrArg Bool.not (Bool.eq_false_iff.2 hx)

theorem kind_number {x : Double} (hx : x.isNaN = Bool.false) : (number x).kind = .number x := by
  rw [kind, isNumber_number, number_of_isNaN hx]
  rfl

/-- A word with a tag of its own is no number. -/
theorem tag_ne_of_isNumber {w : Word} (hw : w.isNumber = Bool.true) {t : UInt64} (ht : isReservedTag t = Bool.true) :
    w.tag ≠ t := by
  rintro rfl
  rw [isNumber, ht] at hw
  cases hw

/-! ## References -/

def hasCell (w : Word) : Bool := w.isPair || w.isClosure

def hasText (w : Word) : Bool := w.isSymbol || w.isString

def isImmediate (w : Word) : Bool := !w.hasCell && !w.hasText

@[simp] theorem hasCell_pair (i : UInt32) : (pair i).hasCell = Bool.true := by simp [hasCell, isPair]

@[simp] theorem hasCell_closure (i : UInt32) : (closure i).hasCell = Bool.true := by simp [hasCell, isClosure]

@[simp] theorem hasText_symbol (i : UInt32) : (symbol i).hasText = Bool.true := by simp [hasText, isSymbol]

@[simp] theorem hasText_string (i : UInt32) : (string i).hasText = Bool.true := by simp [hasText, isString]

theorem hasCell_of_isPair {w : Word} (h : w.isPair) : w.hasCell := by simp [hasCell, h]

theorem not_hasText_of_hasCell {w : Word} (h : w.hasCell) : w.hasText = Bool.false := by
  simp only [hasCell, isPair, isClosure, Bool.or_eq_true, decide_eq_true_eq] at h
  rcases h with h | h <;> simp [hasText, isSymbol, isString, h]

theorem not_hasCell_of_hasText {w : Word} (h : w.hasText) : w.hasCell = Bool.false := by
  cases hc : w.hasCell with
  | false => rfl
  | true => rw [not_hasText_of_hasCell hc] at h; cases h

/-! ## Another payload -/

/-- The word with its low 32 bits replaced. -/
def withPayload (w : Word) (p : UInt32) : Word := ⟨w.bits >>> 32 <<< 32 ||| p.toUInt64⟩

theorem toNat_bits_withPayload (w : Word) (p : UInt32) :
    (w.withPayload p).bits.toNat = w.bits.toNat / 2 ^ 32 * 2 ^ 32 + p.toNat := by
  have hw := w.bits.toNat_lt
  have hp := p.toNat_lt
  have hor := Nat.two_pow_add_eq_or_of_lt (i := 32) (b := p.toNat) (by omega) (w.bits.toNat / 2 ^ 32)
  simp only [withPayload, UInt64.toNat_or, UInt64.toNat_shiftLeft, UInt64.toNat_shiftRight, UInt64.reduceToNat,
    Nat.reduceMod, UInt32.toNat_toUInt64, Nat.shiftRight_eq_div_pow, Nat.shiftLeft_eq]
  rw [Nat.mod_eq_of_lt (by omega), Nat.mul_comm, ← hor]

@[simp] theorem payload_withPayload (w : Word) (p : UInt32) : (w.withPayload p).payload = p := by
  have hp := p.toNat_lt
  apply UInt32.toNat_inj.1
  rw [toNat_payload, toNat_bits_withPayload]
  omega

@[simp] theorem tag_withPayload (w : Word) (p : UInt32) : (w.withPayload p).tag = w.tag := by
  have hp := p.toNat_lt
  apply UInt64.toNat_inj.1
  rw [toNat_tag, toNat_tag, toNat_bits_withPayload]
  omega

theorem ext_bits {v w : Word} (h : v.bits.toNat = w.bits.toNat) : v = w := by
  obtain ⟨v⟩ := v
  obtain ⟨w⟩ := w
  rw [Word.mk.injEq]
  exact UInt64.toNat_inj.1 h

theorem withPayload_payload (w : Word) : w.withPayload w.payload = w := by
  apply ext_bits
  rw [toNat_bits_withPayload, toNat_payload]
  omega

theorem withPayload_tagged {t : UInt64} (h : t < 0x10000) (p q : UInt32) :
    (tagged t p).withPayload q = tagged t q := by
  have hp := p.toNat_lt
  apply ext_bits
  rw [toNat_bits_withPayload, toNat_bits_tagged h, toNat_bits_tagged h]
  omega

end BoxedScheme.Word
