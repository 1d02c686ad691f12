import BoxedScheme.Proofs.Words

/-!
# Words as encoded kinds

Three mechanisms classify a word: the tests for single classes, the decoded kind, and the decoders of payloads. They
agree on every one of the `2 ^ 64` patterns, and what an encoder put into a word is what comes out of it.

* `WordClass` : the fourteen classes; `Kind.wordClass` the class of a kind, `Word.isOf` the test for a class;
* `isOf_iff` : a word is in the class of its kind and in no other one;
* `Kind.encode` : the word that the encoder of a kind makes;
* `Double.folded`, `Kind.folded` : what remains of a number whose pattern is taken by a tag;
* `kind_encode`, `encode_eq_iff` : decoding an encoded kind, and when two encoded kinds are the same word;
* `word_encoding_exact` : all of this together.
-/

namespace BoxedScheme

/-! ## Classes -/

inductive WordClass where
  | number
  | emptyList
  | boolean
  | endOfFile
  | dot
  | rightParen
  | unspecified
  | error
  | symbol
  | string
  | pair
  | char
  | procedure
  | closure
deriving DecidableEq

def Kind.wordClass : Kind → WordClass
  | .number _ => .number
  | .emptyList => .emptyList
  | .boolean _ => .boolean
  | .endOfFile => .endOfFile
  | .dot => .dot
  | .rightParen => .rightParen
  | .unspecified => .unspecified
  | .error => .error
  | .symbol _ => .symbol
  | .string _ => .string
  | .pair _ => .pair
  | .char _ => .char
  | .procedure _ => .procedure
  | .closure _ => .closure

namespace Word

def isOf (w : Word) : WordClass → Bool
  | .number => w.isNumber
  | .emptyList => w.isNull
  | .boolean => w.isBoolean
  | .endOfFile => w.isEof
  | .dot => w.isDot
  | .rightParen => w.isRightParen
  | .unspecified => w.isUnspecified
  | .error => w.isError
  | .symbol => w.isSymbol
  | .string => w.isString
  | .pair => w.isPair
  | .char => w.isChar
  | .procedure => w.isProcedure
  | .closure => w.isClosure

/-! ### Only the tag counts -/

section Tags

variable {v w : Word} {c : WordClass}

theorem isOf_congr (h : v.tag = w.tag) : v.isOf c = w.isOf c := by
  cases c <;> simp only [isOf, isNumber, isNull, isBoolean, isEof, isDot, isRightParen, isUnspecified, isError,
    isSymbol, isString, isPair, isChar, isProcedure, isClosure, h]

theorem wordClass_congr (h : v.tag = w.tag) : v.kind.wordClass = w.kind.wordClass := by
  unfold kind isNumber
  simp only [apply_ite Kind.wordClass, h]
  rfl

/-- The tags that stand for something other than a number: `fff0` and `fff8` are not among them. -/
def reservedTags : List UInt64 :=
  [0xfff1, 0xfff2, 0xfff3, 0xfff4, 0xfff5, 0xfff6, 0xfff7, 0xfff9, 0xfffa, 0xfffb, 0xfffc, 0xfffd, 0xfffe, 0xffff]

/-- What the range test for tags lets through, with its two holes. -/
theorem tag_mem_reservedTags (hw : w.isNumber = Bool.false) : w.tag ∈ reservedTags := by
  have hlt := w.bits.toNat_lt
  have htag := w.toNat_tag
  simp only [isNumber, isReservedTag, Bool.not_eq_false', Bool.or_eq_true, Bool.and_eq_true, decide_eq_true_eq,
    UInt64.le_iff_toNat_le, UInt64.reduceToNat] at hw
  simp only [reservedTags, List.mem_cons, List.not_mem_nil, or_false, ← UInt64.toNat_inj, UInt64.reduceToNat]
  omega

/-- Every test but the one for numbers asks for a tag that is reserved. -/
theorem not_isNumber_of_isOf (hc : c ≠ .number) (hw : w.isOf c = Bool.true) : w.isNumber = Bool.false := by
  rw [isNumber, Bool.not_eq_false']
  cases c <;> simp only [isOf, isNull, isBoolean, isEof, isDot, isRightParen, isUnspecified, isError, isSymbol,
    isString, isPair, isChar, isProcedure, isClosure, Bool.or_eq_true, decide_eq_true_eq, ne_eq,
    not_true_eq_false] at hc hw
  case boolean => rcases hw with hw | hw <;> rw [hw] <;> decide
  all_goals
    rw [hw]
    decide

theorem lt_of_mem_reservedTags : ∀ t ∈ reservedTags, t < 0x10000 := by
  simp [reservedTags]

theorem isOf_tagged : ∀ t ∈ reservedTags, (tagged t 0).isOf c = Bool.true ↔ (tagged t 0).kind.wordClass = c := by
  simp only [reservedTags, List.forall_mem_cons, List.not_mem_nil, false_imp_iff, implies_true, and_true]
  cases c <;> decide +kernel

end Tags

/-- A word passes the test for a class exactly if its kind names that class. -/
theorem isOf_iff (w : Word) (c : WordClass) : w.isOf c = Bool.true ↔ w.kind.wordClass = c := by
  cases hw : w.isNumber with
  | true =>
    have hkind : w.kind.wordClass = .number := by
      rw [kind, if_pos hw]
      rfl
    rw [hkind]
    constructor
    · intro hc
      by_contra hne
      rw [not_isNumber_of_isOf (Ne.symm hne) hc] at hw
      cases hw
    · rintro rfl
      exact hw
  | false =>
    have hmem := tag_mem_reservedTags hw
    have htag : w.tag = (tagged w.tag 0).tag := (tag_tagged (lt_of_mem_reservedTags _ hmem) 0).symm
    rw [isOf_congr htag, wordClass_congr htag]
    exact isOf_tagged _ hmem

end Word

/-! ## Numbers -/

/-- The number as a word keeps it: a not-a-number whose pattern is taken by a tag becomes the one that stands for all of
them. -/
def Double.folded (x : Double) : Double :=
  if x.isNaN && Word.isReservedTag (x.bits >>> 48) then ⟨0xfff8000000000000⟩ else x

theorem Double.folded_of_isNaN {x : Double} (hx : x.isNaN = false) : x.folded = x := by
  rw [folded, hx]
  rfl

namespace Word

theorem number_eq_folded (x : Double) : number x = ⟨x.folded.bits⟩ := by
  cases hx : x.isNaN with
  | false => rw [number_of_isNaN hx, Double.folded_of_isNaN hx]
  | true =>
    rw [number, Double.folded, hx, Bool.true_and, apply_ite Double.bits, apply_ite Word.mk]
    rfl

theorem number?_number (x : Double) : (number x).number? = some x.folded := by
  rw [number?, if_pos (isNumber_number x), number_eq_folded]

end Word

theorem Double.folded_folded (x : Double) : x.folded.folded = x.folded := by
  by_cases hx : (x.isNaN && Word.isReservedTag (x.bits >>> 48)) = true
  · have hfolded : x.folded = ⟨0xfff8000000000000⟩ := if_pos hx
    rw [hfolded]
    decide
  · have hfolded : x.folded = x := if_neg hx
    rw [hfolded, hfolded]

/-! ## Kinds -/

namespace Kind

def encode : Kind → Word
  | .number x => .number x
  | .emptyList => .nil
  | .boolean b => .boolean b
  | .endOfFile => .eof
  | .dot => .dot
  | .rightParen => .rightParen
  | .unspecified => .unspecified
  | .error => .error
  | .symbol i => .symbol i
  | .string i => .string i
  | .pair i => .pair i
  | .char c => .char c
  | .procedure i => .procedure i
  | .closure i => .closure i

/-- What is left of a kind in a word: a number is folded. -/
def folded : Kind → Kind
  | .number x => .number x.folded
  | k => k

theorem encode_folded (k : Kind) : k.folded.encode = k.encode := by
  cases k with
  | number x =>
    show Word.number x.folded = Word.number x
    rw [Word.number_eq_folded, Word.number_eq_folded, Double.folded_folded]
  | emptyList | boolean | endOfFile | dot | rightParen | unspecified | error => rfl
  | symbol | string | pair | char | procedure | closure => rfl

theorem kind_encode (k : Kind) : k.encode.kind = k.folded := by
  cases k with
  | number x =>
    show (Word.number x).kind = _
    rw [Word.kind, if_pos (Word.isNumber_number x), Word.number_eq_folded]
    rfl
  | emptyList => exact Word.kind_nil
  | boolean b => exact Word.kind_boolean b
  | endOfFile | dot | rightParen | unspecified | error => decide
  | symbol i => exact Word.kind_symbol i
  | string i => exact Word.kind_string i
  | pair i => exact Word.kind_pair i
  | char c => exact Word.kind_char c
  | procedure i => exact Word.kind_procedure i
  | closure i => exact Word.kind_closure i

/-- Two encoders make the same word exactly if they are the same and what a word keeps of their payloads is. -/
theorem encode_eq_iff (k l : Kind) : k.encode = l.encode ↔ k.folded = l.folded := by
  constructor
  · intro h
    rw [← kind_encode, ← kind_encode, h]
  · intro h
    rw [← encode_folded, h, encode_folded]

theorem isTruthy_encode (k : Kind) : k.encode.isTruthy = false ↔ k = .boolean false := by
  have hfalse : k.encode.isTruthy = false ↔ k.encode = encode (.boolean false) := by
    rw [Word.isTruthy, decide_eq_false_iff_not, not_not]
    rfl
  rw [hfalse, encode_eq_iff]
  cases k <;> simp [folded]

end Kind

theorem Word.char?_char (c : Char) : (Word.char c).char? = some c := by
  have hchar : (Word.char c).isChar = Bool.true := decide_eq_true (Word.tag_char c)
  have hvalid : (Word.char c).payload.isValidChar := by
    rw [Word.payload_char]
    exact c.valid
  rw [Word.char?, dif_pos ⟨hchar, hvalid⟩]
  exact congrArg some (Char.ext (Word.payload_char c))

/-- Every word is in exactly one of the fourteen classes, the one of its kind. A number keeps its bits, unless it is a
not-a-number whose pattern is a tag; then it is the one not-a-number for all of these. What an encoder puts into a word,
the decoders find there. So two encoders make the same word only if they are the same and were given the same, and of
all encoded words only the one of false is not true. -/
theorem word_encoding_exact :
    (∀ (w : Word) (c : WordClass), w.isOf c = true ↔ w.kind.wordClass = c) ∧
    (∀ x : Double, (Word.number x).isNumber = true ∧ (Word.number x).number? =
      some (if x.isNaN && Word.isReservedTag (x.bits >>> 48) then ⟨0xfff8000000000000⟩ else x)) ∧
    (∀ k : Kind, k.encode.kind = k.folded) ∧
    (∀ c : Char, (Word.char c).payload = c.val ∧ (Word.char c).char? = some c) ∧
    (∀ i : UInt32, (Word.symbol i).payload = i ∧ (Word.string i).payload = i ∧ (Word.pair i).payload = i ∧
      (Word.procedure i).payload = i ∧ (Word.closure i).payload = i) ∧
    (∀ k l : Kind, k.encode = l.encode ↔ k.folded = l.folded) ∧
    ∀ k : Kind, k.encode.isTruthy = false ↔ k = .boolean false :=
  ⟨Word.isOf_iff, fun x => ⟨Word.isNumber_number x, Word.number?_number x⟩, Kind.kind_encode,
    fun c => ⟨Word.payload_char c, Word.char?_char c⟩,
    fun i => ⟨Word.payload_symbol i, Word.payload_string i, Word.payload_pair i, Word.payload_procedure i,
      Word.payload_closure i⟩,
    Kind.encode_eq_iff, Kind.isTruthy_encode⟩

end BoxedScheme
