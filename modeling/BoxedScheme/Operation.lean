import BoxedScheme.Word

/-!
# Special forms and procedures

Every name the machine knows by itself has a number: special forms first, procedures after them. The names
are interned in this order before anything else, so the number of an operation is the string slot of its
symbol, and recognising it is a comparison of numbers.
-/

namespace BoxedScheme

/-- How many operands an operation takes. -/
inductive Arity where
  | exact (n : Nat)
  | atLeast (n : Nat)
  | between (low high : Nat)
deriving DecidableEq

namespace Arity

def accepts (a : Arity) (count : Nat) : Bool :=
  match a with
  | .exact n => count = n
  | .atLeast n => n ≤ count
  | .between low high => low ≤ count && count ≤ high

def describe : Arity → String
  | .exact n => s!"exactly {n}"
  | .atLeast n => s!"at least {n}"
  | .between low high => s!"between {low} and {high}"

end Arity

/-- The forms with evaluation rules of their own. -/
inductive Form where
  | branch
  | disjunction
  | bind
  | conjunction
  | bindInOrder
  | quote
  | lambda
  | define
deriving DecidableEq

/-- How two neighbours in a chain of comparisons are related. -/
inductive Relation where
  | lt | gt | le | ge | eq
deriving DecidableEq

/-- The procedures. -/
inductive Primitive where
  | newline
  | car
  | cdr
  | isProcedure
  | isNull
  | isBoolean
  | isEof
  | isSymbol
  | isString
  | isPair
  | isChar
  | isNumber
  | length
  | display
  | load
  | isZero
  | stringLength
  | numberToString
  | isEq
  | isEqv
  | apply
  | max
  | cons
  | setCar
  | setCdr
  | modulo
  | quotient
  | add
  | sub
  | mul
  | div
  | write
  | compareNumbers (r : Relation)
  /-- Characters, the case folded if `fold`. -/
  | compareChars (fold : Bool) (r : Relation)
  | stringEq
  | stringRef
  | substring
  | not
  | list
  | min
  | symbolToString
  | stringToSymbol
  | stringToNumber
deriving DecidableEq

inductive Operation where
  | form (f : Form)
  | primitive (p : Primitive)
deriving DecidableEq

namespace Operation

/-- An operation with its name and the operands it takes. -/
structure Entry where
  operation : Operation
  name : String
  arity : Arity
deriving DecidableEq

/-- All operations; the position is the number. -/
def table : Array Entry := #[
  ⟨.form .branch, "if", .between 2 3⟩,
  ⟨.form .disjunction, "or", .atLeast 0⟩,
  ⟨.form .bind, "let", .atLeast 2⟩,
  ⟨.form .conjunction, "and", .atLeast 0⟩,
  ⟨.form .bindInOrder, "let*", .atLeast 2⟩,
  ⟨.form .quote, "quote", .exact 1⟩,
  ⟨.form .lambda, "lambda", .atLeast 2⟩,
  ⟨.form .define, "define", .atLeast 1⟩,
  ⟨.primitive .newline, "newline", .exact 0⟩,
  ⟨.primitive .car, "car", .exact 1⟩,
  ⟨.primitive .cdr, "cdr", .exact 1⟩,
  ⟨.primitive .isProcedure, "procedure?", .exact 1⟩,
  ⟨.primitive .isNull, "null?", .exact 1⟩,
  ⟨.primitive .isBoolean, "boolean?", .exact 1⟩,
  ⟨.primitive .isEof, "eof-object?", .exact 1⟩,
  ⟨.primitive .isSymbol, "symbol?", .exact 1⟩,
  ⟨.primitive .isString, "string?", .exact 1⟩,
  ⟨.primitive .isPair, "pair?", .exact 1⟩,
  ⟨.primitive .isChar, "char?", .exact 1⟩,
  ⟨.primitive .isNumber, "number?", .exact 1⟩,
  ⟨.primitive .length, "length", .exact 1⟩,
  ⟨.primitive .display, "display", .exact 1⟩,
  ⟨.primitive .load, "load", .exact 1⟩,
  ⟨.primitive .isZero, "zero?", .exact 1⟩,
  ⟨.primitive .stringLength, "string-length", .exact 1⟩,
  ⟨.primitive .numberToString, "number->string", .exact 1⟩,
  ⟨.primitive .isEq, "eq?", .exact 2⟩,
  ⟨.primitive .isEqv, "eqv?", .exact 2⟩,
  ⟨.primitive .apply, "apply", .exact 2⟩,
  ⟨.primitive .max, "max", .atLeast 1⟩,
  ⟨.primitive .cons, "cons", .exact 2⟩,
  ⟨.primitive .setCar, "set-car!", .exact 2⟩,
  ⟨.primitive .setCdr, "set-cdr!", .exact 2⟩,
  ⟨.primitive .modulo, "modulo", .exact 2⟩,
  ⟨.primitive .quotient, "quotient", .exact 2⟩,
  ⟨.primitive .add, "+", .atLeast 0⟩,
  ⟨.primitive .sub, "-", .atLeast 1⟩,
  ⟨.primitive .mul, "*", .atLeast 0⟩,
  ⟨.primitive .div, "/", .atLeast 1⟩,
  ⟨.primitive .write, "write", .exact 1⟩,
  ⟨.primitive (.compareNumbers .lt), "<", .atLeast 1⟩,
  ⟨.primitive (.compareNumbers .gt), ">", .atLeast 1⟩,
  ⟨.primitive (.compareNumbers .le), "<=", .atLeast 1⟩,
  ⟨.primitive (.compareNumbers .ge), ">=", .atLeast 1⟩,
  ⟨.primitive (.compareNumbers .eq), "=", .atLeast 1⟩,
  ⟨.primitive (.compareChars false .lt), "char<?", .atLeast 1⟩,
  ⟨.primitive (.compareChars false .gt), "char>?", .atLeast 1⟩,
  ⟨.primitive (.compareChars false .le), "char<=?", .atLeast 1⟩,
  ⟨.primitive (.compareChars false .ge), "char>=?", .atLeast 1⟩,
  ⟨.primitive (.compareChars false .eq), "char=?", .atLeast 1⟩,
  ⟨.primitive (.compareChars true .lt), "char-ci<?", .atLeast 1⟩,
  ⟨.primitive (.compareChars true .gt), "char-ci>?", .atLeast 1⟩,
  ⟨.primitive (.compareChars true .le), "char-ci<=?", .atLeast 1⟩,
  ⟨.primitive (.compareChars true .ge), "char-ci>=?", .atLeast 1⟩,
  ⟨.primitive (.compareChars true .eq), "char-ci=?", .atLeast 1⟩,
  ⟨.primitive .stringEq, "string=?", .atLeast 1⟩,
  ⟨.primitive .stringRef, "string-ref", .exact 2⟩,
  ⟨.primitive .substring, "substring", .between 1 3⟩,
  ⟨.primitive .not, "not", .exact 1⟩,
  ⟨.primitive .list, "list", .atLeast 0⟩,
  ⟨.primitive .min, "min", .atLeast 1⟩,
  ⟨.primitive .symbolToString, "symbol->string", .exact 1⟩,
  ⟨.primitive .stringToSymbol, "string->symbol", .exact 1⟩,
  ⟨.primitive .stringToNumber, "string->number", .between 1 2⟩]

/-- The number of special forms; they come first. -/
def formCount : Nat := 8

/-- The operation with the given number. -/
def entry? (id : UInt32) : Option Entry := table[id.toNat]?

/-- The special form that a symbol names. -/
def formOf? (symbol : Word) : Option Form :=
  if symbol.isSymbol && symbol.payload.toNat < formCount then
    match entry? symbol.payload with
    | some ⟨.form f, _, _⟩ => some f
    | _ => none
  else none

/-- The procedure that a symbol names. -/
def procedureOf? (symbol : Word) : Option Entry :=
  if symbol.isSymbol && formCount ≤ symbol.payload.toNat then entry? symbol.payload else none

/-- The symbol of `define`. -/
def defineSymbol : Word := .symbol 7

/-- The symbol of `lambda`. -/
def lambdaSymbol : Word := .symbol 6

end Operation

namespace Form

/-- The name of a special form, as messages about its syntax give it. -/
def name : Form → String
  | .branch => "if"
  | .disjunction => "or"
  | .bind => "let"
  | .conjunction => "and"
  | .bindInOrder => "let*"
  | .quote => "quote"
  | .lambda => "lambda"
  | .define => "define"

end Form

end BoxedScheme
