import BoxedScheme.Machine
import BoxedScheme.Text.Lower

/-!
# Arguments of procedures

What a procedure expects of an argument, and the error when the argument is something else.
-/

namespace BoxedScheme.Argument

def number (procedure : String) (w : Word) : Except Error Double :=
  match w.number? with
  | some x => .ok x
  | none => .error (.wrongType procedure "number" w.typeName)

def char (procedure : String) (w : Word) : Except Error Char :=
  match w.char? with
  | some c => .ok c
  | none => .error (.wrongType procedure "char" w.typeName)

/-- Every argument is a number; the first that is not is reported. -/
def numbers (procedure : String) (ws : List Word) : Except Error (List Double) :=
  ws.mapM (number procedure)

/-- The nearest 64-bit integer. -/
def clamp64 (n : Int) : Int := max (-0x8000000000000000) (min n 0x7fffffffffffffff)

/-- A number without a fraction, as far as 64 bits go. -/
def integer (procedure : String) (w : Word) : Except Error Int := do
  let x ← number procedure w
  match x.toInt? with
  | some n => return clamp64 n
  | none => throw (.invalidArgument procedure (.notInteger (Numeral.format x)))

/-- The text of a string. -/
def text (h : Heap) (procedure : String) (w : Word) : Except Error String :=
  if w.isString then
    match h.stringText w with
    | .ok s => .ok s
    | .error e => .error (.ofFault e)
  else .error (.wrongType procedure "string" w.typeName)

/-- A numeric argument as messages show it. -/
def shown (w : Word) : String :=
  match w.number? with
  | some x => Numeral.format x
  | none => ""

end BoxedScheme.Argument
