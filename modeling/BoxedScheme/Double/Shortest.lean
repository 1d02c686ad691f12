import BoxedScheme.Double

/-!
# The fewest digits that read back

The reals that round to a given double form an interval around it, whose ends belong to it exactly
when the significand is even. `shortest` looks for the coarsest power of ten with a multiple inside that
interval and takes the multiple nearest to the value, a tie going up. Every test is a comparison of
natural numbers.
-/

namespace BoxedScheme.Double

/-- The decimal `digits * 10 ^ exp`. -/
structure Decimal where
  digits : Nat
  exp : Int
deriving DecidableEq, Repr

namespace Decimal

/-- Drops trailing zeros, at most `limit` of them. -/
def strip : Nat → Decimal → Decimal
  | 0, d => d
  | limit + 1, d =>
    if d.digits % 10 = 0 ∧ d.digits ≠ 0 then strip limit ⟨d.digits / 10, d.exp + 1⟩ else d

end Decimal

/-- `c * 10 ^ e ≤ n * 2 ^ q`. -/
def decimalLe (c : Nat) (e : Int) (n : Nat) (q : Int) : Bool :=
  c * Nat.pow 10 e.toNat * Nat.pow 2 (-q).toNat ≤ n * Nat.pow 2 q.toNat * Nat.pow 10 (-e).toNat

/-- `n * 2 ^ q ≤ c * 10 ^ e`. -/
def binaryLe (n : Nat) (q : Int) (c : Nat) (e : Int) : Bool :=
  n * Nat.pow 2 q.toNat * Nat.pow 10 (-e).toNat ≤ c * Nat.pow 10 e.toNat * Nat.pow 2 (-q).toNat

/-- The decimal `c * 10 ^ e` lies among the reals that round to `m * 2 ^ q`. Below a power of two the
neighbour is half as far away as above it. -/
def readsBack (m : Nat) (q : Int) (c : Nat) (e : Int) : Bool :=
  let low := if m = exponentUnit ∧ -1074 < q then 4 * m - 1 else 4 * m - 2
  let high := 4 * m + 2
  if m % 2 = 0 then
    binaryLe low (q - 2) c e && decimalLe c e high (q - 2)
  else
    !decimalLe c e low (q - 2) && !binaryLe high (q - 2) c e

/-- The least `k` with `m * 2 ^ q < 10 ^ k`, for `m` positive. -/
def decimalScale (m : Nat) (q : Int) : Int :=
  let guess := ((m.log2 + q) * 1233).fdiv 4096
  if !decimalLe 1 guess m q then guess
  else if !decimalLe 1 (guess + 1) m q then guess + 1
  else guess + 2

/-- The multiple of `10 ^ e` nearest to `m * 2 ^ q` that reads back, if one of the two neighbours does. -/
def neighbour? (m : Nat) (q e : Int) : Option Nat :=
  let num := m * Nat.pow 2 q.toNat * Nat.pow 10 (-e).toNat
  let den := Nat.pow 2 (-q).toNat * Nat.pow 10 e.toNat
  let below := num / den
  let above := below + 1
  let preferAbove := den ≤ 2 * (num % den)
  let (first, second) := if preferAbove then (above, below) else (below, above)
  if readsBack m q first e then some first
  else if readsBack m q second e then some second
  else none

/-- The exact decimal value of `m * 2 ^ q`. -/
def exactDecimal (m : Nat) (q : Int) : Decimal :=
  if 0 ≤ q then ⟨m * Nat.pow 2 q.toNat, 0⟩ else ⟨m * Nat.pow 5 (-q).toNat, q⟩

/-- The shortest decimal that reads back as the positive value `m * 2 ^ q`. Seventeen digits are enough
for every double; the exact value stands in beyond them. -/
def shortest (m : Nat) (q : Int) : Decimal :=
  let k := decimalScale m q
  let found := (List.range 17).findSome? fun n =>
    let e := k - Int.ofNat (n + 1)
    (neighbour? m q e).map (Decimal.mk · e)
  (found.getD (exactDecimal m q)).strip 400

end BoxedScheme.Double
