import BoxedScheme.Operation
import BoxedScheme.Primitive.Arguments

/-!
# Arithmetic

Sums, products, differences and quotients over any number of arguments, extremes, and chains of comparisons.
A zero divisor is an error. A chain of comparisons looks at its arguments from the left and stops at the
first pair that is out of order.
-/

namespace BoxedScheme.Arithmetic

def zero : Double := .ofNat 0

def one : Double := .ofNat 1

def sum (xs : List Double) : Double := xs.foldl .add zero

def product (xs : List Double) : Double := xs.foldl .mul one

/-- One argument is negated; of several, the others are subtracted from the first. -/
def difference : List Double → Double
  | [] => zero
  | [x] => x.neg
  | x :: xs => xs.foldl .sub x

/-- One argument is inverted; of several, the first is divided by the others. -/
def ratio (procedure : String) (xs : List Double) : Except Error Double :=
  let (dividend, divisors) := match xs with
    | [] => (one, [])
    | [x] => (one, [x])
    | x :: xs => (x, xs)
  if divisors.any (·.isZero) then .error (.divisionByZero procedure)
  else .ok (divisors.foldl .div dividend)

/-- The quotient without its fraction. -/
def quotient (procedure : String) (x y : Double) : Except Error Double :=
  if y.isZero then .error (.divisionByZero procedure) else .ok (x.div y).trunc

/-- The remainder with the sign of the divisor. -/
def modulo (procedure : String) (x y : Double) : Except Error Double :=
  if y.isZero then .error (.divisionByZero procedure)
  else .ok (x.sub (y.mul (x.div y).floor))

/-- The greater of two numbers, and of equal ones the second; one that is not a number does not count. -/
def greater (x y : Double) : Double := if y.lt x || y.isNaN then x else y

/-- The smaller of two numbers, and of equal ones the second; one that is not a number does not count. -/
def smaller (x y : Double) : Double := if x.lt y || y.isNaN then x else y

/-- The extreme of one or more numbers. -/
def extreme (pick : Double → Double → Double) : List Double → Double
  | [] => zero
  | x :: xs => xs.foldl pick x

end BoxedScheme.Arithmetic

namespace BoxedScheme.Relation

/-- The relation between two numbers. -/
def holdsNumber (r : Relation) (x y : Double) : Bool :=
  match r with
  | .lt => x.lt y
  | .gt => y.lt x
  | .le => x.le y
  | .ge => y.le x
  | .eq => x.eq y

/-- The relation between two characters, by their codes. -/
def holdsChar (r : Relation) (c d : Char) : Bool :=
  match r with
  | .lt => c.toNat < d.toNat
  | .gt => d.toNat < c.toNat
  | .le => c.toNat ≤ d.toNat
  | .ge => d.toNat ≤ c.toNat
  | .eq => c = d

end BoxedScheme.Relation

namespace BoxedScheme

variable {α : Type}

/-- Each argument is related to the next; `convert` is applied to the arguments as they are reached. -/
def chain (convert : Word → Except Error α) (holds : α → α → Bool) :
    α → List Word → Except Error Bool
  | _, [] => .ok true
  | previous, w :: ws => do
    let x ← convert w
    if holds previous x then chain convert holds x ws else return false

/-- A chain of comparisons over all arguments. -/
def compareAll (convert : Word → Except Error α) (holds : α → α → Bool) (first : Word) (others : List Word) :
    Except Error Bool := do
  chain convert holds (← convert first) others

end BoxedScheme
