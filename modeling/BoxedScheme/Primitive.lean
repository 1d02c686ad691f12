import BoxedScheme.Primitive.Numbers
import BoxedScheme.Primitive.Strings

/-!
# Procedures

What each procedure does with arguments whose number is already checked. `apply` and `load` are not among
them: they evaluate, and belong to the evaluator.
-/

namespace BoxedScheme.Primitive

/-- The number of elements of a proper list. -/
def lengthOf (h : Heap) (procedure : String) (list : Word) : Except Error Word := do
  let fault {α : Type} (x : Except Fault α) : Except Error α := x.mapError .ofFault
  if (← fault (h.listTail list)) ≠ .nil then
    throw (.wrongType procedure "list" list.typeName)
  return .ofNat (← fault (h.listLength list procedure))

/-- Words that are the same, or numbers that are equal. -/
def equivalent (x y : Word) : Bool :=
  x = y || match x.number?, y.number? with
    | some a, some b => a.eq b
    | _, _ => false

/-- A new string with the given text. -/
def newString (text : String) : Eval Word := Eval.onHeap (Heap.makeString text.toUTF8)

/-- The value of a procedure of the given name at its arguments; `missing` stands in for one that is not there. -/
def callWith (p : Primitive) (missing : Word) (name : String) (args : Array Word) : Eval Word :=
  let x := args.getD 0 missing
  let y := args.getD 1 missing
  let all := args.toList
  let others := all.drop 1
  let test (b : Bool) : Eval Word := pure (.boolean b)
  let found (value : Except Error Word) : Eval Word := Eval.ofExcept value
  let number (value : Except Error Double) : Eval Word := found (Word.number <$> value)
  let truth (value : Except Error Bool) : Eval Word := found (Word.boolean <$> value)
  let inHeap (f : Heap → Except Error Word) : Eval Word := do found (f (← get).heap)
  match p with
  | .car => Eval.car x
  | .cdr => Eval.cdr x
  | .cons => Eval.cons x y
  | .setCar => do
    Eval.onHeap (Heap.setCar x y)
    return .unspecified
  | .setCdr => do
    Eval.onHeap (Heap.setCdr x y)
    return .unspecified
  | .list => Eval.onHeap (Heap.listOf all)
  | .length => inHeap (lengthOf · name x)
  | .isProcedure => test x.isCallable
  | .isNull => test x.isNull
  | .isBoolean => test x.isBoolean
  | .isEof => test x.isEof
  | .isSymbol => test x.isSymbol
  | .isString => test x.isString
  | .isPair => test x.isPair
  | .isChar => test x.isChar
  | .isNumber => test x.isNumber
  | .not => test (!x.isTruthy)
  | .isEq => test (x = y)
  | .isEqv => test (equivalent x y)
  | .newline => do
    Eval.print "\n"
    return .unspecified
  | .display => do
    Eval.print ((← get).heap.display x)
    return .unspecified
  | .write => do
    Eval.print ((← get).heap.write x)
    return .unspecified
  | .add => number (Arithmetic.sum <$> Argument.numbers name all)
  | .mul => number (Arithmetic.product <$> Argument.numbers name all)
  | .sub => number (Arithmetic.difference <$> Argument.numbers name all)
  | .div => number (do Arithmetic.ratio name (← Argument.numbers name all))
  | .quotient => number do
    Arithmetic.quotient name (← Argument.number name x) (← Argument.number name y)
  | .modulo => number do
    Arithmetic.modulo name (← Argument.number name x) (← Argument.number name y)
  | .max => number (Arithmetic.extreme Arithmetic.greater <$> Argument.numbers name (x :: others))
  | .min => number (Arithmetic.extreme Arithmetic.smaller <$> Argument.numbers name (x :: others))
  | .isZero => truth (Double.isZero <$> Argument.number name x)
  | .numberToString => do newString (Numeral.format (← Eval.ofExcept (Argument.number name x)))
  | .compareNumbers r => truth (compareAll (Argument.number name) r.holdsNumber x others)
  | .compareChars fold r =>
    let convert (w : Word) : Except Error Char :=
      (if fold then Text.lower else id) <$> Argument.char name w
    truth (compareAll convert r.holdsChar x others)
  | .stringLength => inHeap fun h => do return .ofNat (← Argument.text h name x).length
  | .stringEq => inHeap fun h => do
    return .boolean (← Strings.allEqual h name (← Argument.text h name x) others)
  | .stringRef => inHeap (Strings.charAt · name x y)
  | .substring => do
    let h := (← get).heap
    newString (← Eval.ofExcept (Strings.substring h name x args[1]? args[2]?))
  | .symbolToString =>
    match x.symbolString? with
    | some string => do
      let bytes ← Eval.inspect (·.stringBytes string)
      Eval.onHeap (Heap.makeString bytes)
    | none => Eval.raise (.wrongType name "symbol" x.typeName)
  | .stringToSymbol => do
    let h := (← get).heap
    let _ ← Eval.ofExcept (Argument.text h name x)
    Eval.onMemory (Memory.internValue x)
  | .stringToNumber => inHeap (Strings.toNumber · name x args[1]?)
  | .apply | .load => Eval.raise (.notCallable s!"#<procedure {name}>")

/-- The value of a procedure of the given name at its arguments. -/
def call (p : Primitive) (name : String) (args : Array Word) : Eval Word := p.callWith .unspecified name args

end BoxedScheme.Primitive
