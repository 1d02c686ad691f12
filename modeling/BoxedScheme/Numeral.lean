import BoxedScheme.Double.Notation

/-!
# Numerals

The text of a number, both ways. `Numeral.format` writes integers below `10 ^ 16` plainly, values at or
above it and below the double nearest to `10 ^ -7` in exponent form, and the rest positionally, always with
the fewest digits that read back. `Numeral.parse?` accepts decimals with an optional sign, point and
exponent, and the named infinities and not-a-number.
-/

namespace BoxedScheme.Numeral

/-! ## Writing -/

/-- The least magnitude of a fraction that is written positionally: the double nearest to `10 ^ -7`. -/
def positionalFrom : Double := ⟨0x3e7ad7f29abcaf48⟩

def format (x : Double) : String :=
  match x.classify with
  | .nan => "+nan.0"
  | .infinite neg => if neg then "-inf.0" else "+inf.0"
  | .finite neg m q =>
    let sign (cs : List Char) : String := .ofList (if neg then '-' :: cs else cs)
    match x.toInt? with
    | some n =>
      if n.natAbs < 10000000000000000 then .ofList (Double.Decimal.signed n)
      else sign (Double.magnitudeDecimal m q).scientific
    | none =>
      if x.magnitude < positionalFrom.magnitude then sign (Double.magnitudeDecimal m q).scientific
      else sign (Double.magnitudeDecimal m q).positional

/-! ## Reading -/

/-- The value of a character as a digit, letters counting from ten. -/
def digitValue (c : Char) : Nat :=
  if c.isDigit then c.toNat - '0'.toNat
  else if 'a' ≤ c ∧ c ≤ 'z' then c.toNat - 'a'.toNat + 10
  else if 'A' ≤ c ∧ c ≤ 'Z' then c.toNat - 'A'.toNat + 10
  else 36

/-- The value of a digit sequence in the given base, which must not be empty. -/
def digits? (base : Nat) (cs : List Char) : Option Nat :=
  if cs.isEmpty then none
  else cs.foldl (fun acc c => acc.bind fun n =>
    if digitValue c < base then some (n * base + digitValue c) else none) (some 0)

/-- An optional sign and what follows it. -/
def splitSign : List Char → Bool × List Char
  | '+' :: cs => (false, cs)
  | '-' :: cs => (true, cs)
  | cs => (false, cs)

/-- A signed integer in the given base. -/
def integer? (base : Nat) (cs : List Char) : Option Int :=
  let (neg, ds) := splitSign cs
  (digits? base ds).map fun n => if neg then -(n : Int) else n

/-- A signed integer in the given base that fits in 64 bits. -/
def word64? (base : Nat) (cs : List Char) : Option Int :=
  (integer? base cs).filter fun n => -0x8000000000000000 ≤ n ∧ n < 0x8000000000000000

/-- The power of ten behind a significand: nothing, or `e` and a signed integer. -/
def exponent? : List Char → Option Int
  | [] => some 0
  | c :: cs => if c = 'e' ∨ c = 'E' then integer? 10 cs else none

/-- An unsigned decimal: digits with at most one point among them and an optional exponent. -/
def decimal? (cs : List Char) : Option Double.Decimal :=
  let whole := cs.takeWhile Char.isDigit
  let (frac, rest) := match cs.dropWhile Char.isDigit with
    | '.' :: rest => (rest.takeWhile Char.isDigit, rest.dropWhile Char.isDigit)
    | rest => ([], rest)
  match digits? 10 (whole ++ frac), exponent? rest with
  | some n, some e => some ⟨n, e - frac.length⟩
  | _, _ => none

/-- An atom that starts like a number: a digit, possibly behind a sign, a point, or both. -/
def looksNumeric : List Char → Bool
  | c :: d :: e :: _ =>
    if c.isDigit then true
    else if (c = '+' ∨ c = '-') ∧ d = '.' then e.isDigit
    else (c = '+' ∨ c = '-' ∨ c = '.') ∧ d.isDigit
  | [c, d] => c.isDigit || (c = '+' ∨ c = '-' ∨ c = '.') && d.isDigit
  | [c] => c.isDigit
  | [] => false

/-- The infinities and not-a-number by name. -/
def named? (cs : List Char) : Option Double :=
  if cs = "+inf.0".toList then some (.infinity false)
  else if cs = "-inf.0".toList then some (.infinity true)
  else if cs = "+nan.0".toList ∨ cs = "-nan.0".toList then some .nan
  else none

/-- The number that a text stands for, if it is one. -/
def parse? (cs : List Char) : Option Double :=
  (named? cs).or <|
    if looksNumeric cs then
      let (neg, body) := splitSign cs
      (decimal? body).map fun d => .ofDecimal neg d.digits d.exp
    else none

end BoxedScheme.Numeral
