/-!
# Doubles as bit patterns

Every number of the language is a double, and the machine keeps it as its 64 bits. This module reads
the three fields of the pattern, rounds an exact ratio of natural numbers to the nearest double, and
takes integer parts, all in exact `Nat` and `Int` arithmetic. Sums, products and comparisons are those
of `Float`.

* `Double.classify`: not a number, infinite, or a signed `m * 2 ^ q`.
* `Double.nearest`: the double closest to `num / den`, a tie going to the even significand.
* `Double.ofNat`, `Double.ofInt`, `Double.ofDecimal`: exact values on their way in.
* `Double.toInt?`, `Double.trunc`, `Double.floor`: exact values on their way out.
-/

namespace BoxedScheme

/-- A double, kept as its 64 bits, so that two patterns of not-a-number stay apart. -/
structure Double where
  bits : UInt64
deriving DecidableEq, Inhabited

namespace Double

/-- What the bits of a double stand for. -/
inductive Class where
  | nan
  | infinite (negative : Bool)
  /-- The value `m * 2 ^ q`, negated if `negative`. -/
  | finite (negative : Bool) (m : Nat) (q : Int)
deriving DecidableEq

/-- What the sign bit is worth in a pattern. -/
abbrev signUnit : Nat := 0x8000000000000000

/-- What the lowest bit of the exponent is worth in a pattern, and the leading bit of a value in units of its
last place. -/
abbrev exponentUnit : Nat := 0x10000000000000

/-- The sign bit. -/
def negative (x : Double) : Bool := signUnit ≤ x.bits.toNat

/-- The pattern without its sign bit. -/
def magnitude (x : Double) : Nat := x.bits.toNat % signUnit

/-- The eleven bits of the exponent. -/
def exponent (x : Double) : Nat := x.magnitude / exponentUnit

/-- The fifty-two bits below the exponent. -/
def fraction (x : Double) : Nat := x.magnitude % exponentUnit

/-- The magnitude of the infinities. -/
def infinityMagnitude : Nat := 0x7ff * exponentUnit

/-- The double of a sign and the 63 bits below it. -/
def ofMagnitude (negative : Bool) (magnitude : Nat) : Double :=
  ⟨.ofNat (magnitude + if negative then signUnit else 0)⟩

def classify (x : Double) : Class :=
  if x.exponent = 0x7ff then
    if x.fraction = 0 then .infinite x.negative else .nan
  else if x.exponent = 0 then
    .finite x.negative x.fraction (-1074)
  else
    .finite x.negative (exponentUnit + x.fraction) ((x.exponent : Int) - 1075)

def isNaN (x : Double) : Bool := infinityMagnitude < x.magnitude

def isFinite (x : Double) : Bool := x.magnitude < infinityMagnitude

def infinity (negative : Bool) : Double := ofMagnitude negative infinityMagnitude

/-- The pattern that a literal not-a-number reads as. -/
def nan : Double := ⟨0x7ff8000000000000⟩

/-! ## Rounding -/

/-- The integer nearest to `num / den`, a half going to the even neighbour. -/
def roundHalfEven (num den : Nat) : Nat :=
  let q := num / den
  let r := num % den
  if 2 * r < den then q
  else if den < 2 * r then q + 1
  else if q % 2 = 0 then q else q + 1

/-- Numerator and denominator of `num / den / 2 ^ q`. -/
def scaleDown (num den : Nat) (q : Int) : Nat × Nat :=
  (num * Nat.pow 2 (-q).toNat, den * Nat.pow 2 q.toNat)

/-- The power of two that one unit in the last place of a double near `num / den` is worth: the
quotient by it has at most 53 bits, and exactly 53 unless the value is subnormal. -/
def unitExponent (num den : Nat) : Int :=
  let q := max ((num.log2 : Int) - den.log2 - 53) (-1074)
  let (n, d) := scaleDown num den q
  if 2 * exponentUnit ≤ n / d then q + 1 else q

/-- The magnitude of the double nearest to `num / den`. The exponent field and the fraction are one
number, so a carry out of the fraction raises the exponent and ends at the infinity. -/
def nearestMagnitude (num den : Nat) : Nat :=
  if num = 0 then 0
  else
    let q := unitExponent num den
    let (n, d) := scaleDown num den q
    min ((q + 1074).toNat * exponentUnit + roundHalfEven n d) infinityMagnitude

/-- The double nearest to `num / den`, negated if `negative`. -/
def nearest (negative : Bool) (num den : Nat) : Double :=
  ofMagnitude negative (nearestMagnitude num den)

def ofNat (n : Nat) : Double := nearest false n 1

def ofInt (n : Int) : Double := nearest (n < 0) n.natAbs 1

/-- The double nearest to `digits * 10 ^ exp`. Exponents far outside the range of doubles are decided
without computing the power. -/
def ofDecimal (negative : Bool) (digits : Nat) (exp : Int) : Double :=
  if digits = 0 then ofMagnitude negative 0
  else if 400 < exp then infinity negative
  else if exp + digits.log2 < -400 then ofMagnitude negative 0
  else nearest negative (digits * Nat.pow 10 exp.toNat) (Nat.pow 10 (-exp).toNat)

/-! ## Integer parts -/

/-- The integer that the double equals, if it is one. -/
def toInt? (x : Double) : Option Int :=
  match x.classify with
  | .finite neg m q =>
    let den := Nat.pow 2 (-q).toNat
    if m % den = 0 then
      let n := Int.ofNat (m / den * Nat.pow 2 q.toNat)
      some (if neg then -n else n)
    else none
  | _ => none

/-- The integer part, toward zero; the sign is kept, so a small negative value gives negative zero. -/
def trunc (x : Double) : Double :=
  match x.classify with
  | .finite neg m q => if 0 ≤ q then x else nearest neg (m / Nat.pow 2 (-q).toNat) 1
  | _ => x

/-- The greatest integer not above the value. -/
def floor (x : Double) : Double :=
  match x.classify with
  | .finite neg m q =>
    let den := Nat.pow 2 (-q).toNat
    if m % den = 0 then x
    else nearest neg (m / den + if neg then 1 else 0) 1
  | _ => x

/-! ## Arithmetic -/

def toFloat (x : Double) : Float := .ofBits x.bits

def ofFloat (x : Float) : Double := ⟨x.toBits⟩

def add (x y : Double) : Double := ofFloat (x.toFloat + y.toFloat)

def sub (x y : Double) : Double := ofFloat (x.toFloat - y.toFloat)

def mul (x y : Double) : Double := ofFloat (x.toFloat * y.toFloat)

def div (x y : Double) : Double := ofFloat (x.toFloat / y.toFloat)

/-- The value with its sign flipped. -/
def neg (x : Double) : Double := ofMagnitude (!x.negative) x.magnitude

/-- Equality of numbers: not-a-number differs from itself, and the two zeros are equal. -/
def eq (x y : Double) : Bool := x.toFloat == y.toFloat

def lt (x y : Double) : Bool := x.toFloat < y.toFloat

def le (x y : Double) : Bool := x.toFloat ≤ y.toFloat

def isZero (x : Double) : Bool := x.magnitude = 0

end Double

end BoxedScheme
