import BoxedScheme.Primitive.Arguments
import BoxedScheme.Token.Scan

/-!
# Strings

Strings are indexed by character. What these functions find is a text or a word; storing a new string is
up to the caller.
-/

namespace BoxedScheme.Strings

/-- All strings are equal to the first; they are looked at from the left. -/
def allEqual (h : Heap) (procedure : String) (first : String) : List Word → Except Error Bool
  | [] => .ok true
  | w :: ws => do
    if (← Argument.text h procedure w) = first then allEqual h procedure first ws
    else return false

/-- The character at an index. -/
def charAt (h : Heap) (procedure : String) (string index : Word) : Except Error Word := do
  let text ← Argument.text h procedure string
  let k ← Argument.integer procedure index
  let c := if k < 0 then none else text.toList[k.toNat]?
  match c with
  | some c => return .char c
  | none => throw (.invalidArgument procedure (.indexOutOfRange (Argument.shown index)))

/-- The characters from `first` up to but not including `last`, if the bounds are in order. -/
def slice? (cs : List Char) (first last : Int) : Option (List Char) :=
  if first < 0 ∨ last < first ∨ cs.length < last then none
  else some ((cs.drop first.toNat).take (last - first).toNat)

/-- The part of a string between two bounds; without a bound, from its start or to its end. -/
def substring (h : Heap) (procedure : String) (string : Word) (first? last? : Option Word) :
    Except Error String := do
  let cs := (← Argument.text h procedure string).toList
  let first ← match first? with
    | some w => Argument.integer procedure w
    | none => pure 0
  let last ← match last? with
    | some w => Argument.integer procedure w
    | none => pure (cs.length : Int)
  match slice? cs first last with
  | some part => return .ofList part
  | none =>
    let shown (bound : Option Word) (value : Int) : String :=
      match bound with
      | some w => Argument.shown w
      | none => toString value
    throw (.invalidArgument procedure (.badRange (shown first? first) (shown last? last) cs.length))

/-- The number that a string spells in a base, or false. -/
def toNumber (h : Heap) (procedure : String) (string : Word) (radix? : Option Word) :
    Except Error Word := do
  let text ← Argument.text h procedure string
  let radix ← match radix? with
    | some w => Argument.integer procedure w
    | none => pure 10
  let value ←
    if radix = 10 then pure (Numeral.parse? text.toList)
    else if radix = 2 ∨ radix = 8 ∨ radix = 16 then pure (radixNumber? radix.toNat text.toList)
    else throw (.invalidArgument procedure (.badRadix radix))
  return match value with
    | some x => .number x
    | none => .false

end BoxedScheme.Strings
