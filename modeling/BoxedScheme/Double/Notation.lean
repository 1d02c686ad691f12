import BoxedScheme.Double.Shortest

/-!
# Decimal notation

Two ways to lay out the shortest decimal of a finite double: positionally, with as many zeros as it
takes, and in exponent form, with one digit before the point.
-/

namespace BoxedScheme.Double

/-- The digits of a natural number in base ten. -/
def digitChars (n : Nat) : List Char := Nat.toDigits 10 n

namespace Decimal

/-- All digits written out: zeros fill the places up to the point on either side. -/
def positional (d : Decimal) : List Char :=
  let ds := digitChars d.digits
  if 0 ≤ d.exp then ds ++ List.replicate d.exp.toNat '0'
  else
    let places := (-d.exp).toNat
    if places < ds.length then
      ds.take (ds.length - places) ++ '.' :: ds.drop (ds.length - places)
    else '0' :: '.' :: List.replicate (places - ds.length) '0' ++ ds

/-- A decimal integer with a minus sign when it is negative. -/
def signed (n : Int) : List Char :=
  if n < 0 then '-' :: digitChars n.natAbs else digitChars n.natAbs

/-- One digit, the others behind a point, and the power of ten behind `e`. -/
def scientific (d : Decimal) : List Char :=
  match digitChars d.digits with
  | [] => []
  | [c] => c :: 'e' :: signed d.exp
  | c :: cs => c :: '.' :: cs ++ 'e' :: signed (d.exp + cs.length)

end Decimal

/-- The shortest decimal of a finite magnitude; zero has the single digit zero. -/
def magnitudeDecimal (m : Nat) (q : Int) : Decimal :=
  if m = 0 then ⟨0, 0⟩ else shortest m q

/-- The layout used in diagnostics: always positional, a negative zero with its sign. -/
def diagnostic (x : Double) : String :=
  match x.classify with
  | .nan => "NaN"
  | .infinite neg => if neg then "-inf" else "inf"
  | .finite neg m q =>
    let text := (magnitudeDecimal m q).positional
    .ofList (if neg then '-' :: text else text)

end BoxedScheme.Double
