import BoxedScheme.Double.Notation
import BoxedScheme.Text.Quoted

/-!
# Words

Every value of the language is one 64-bit word. A double is its own pattern; everything else uses a
pattern in the region of the negative quiet not-a-numbers, where the upper 16 bits are a tag and the low
32 bits a payload: a pool index, the code of a character, or the number of a procedure.

| upper 16 bits | meaning |
|---|---|
| `fff1` ... `fff7` | empty list, true, false, end of file, dot, right parenthesis, unspecified |
| `fff9` | error |
| `fffa` ... `ffff` | symbol, string, pair, character, procedure, closure, each with a payload |

The tags `fff0` (negative infinity) and `fff8` (a not-a-number) stay numbers. A double whose pattern would
be a tag is folded into `fff8000000000000` when it becomes a word.

* `Word.kind`: the decoded view, one constructor for each class of words.
* `Word.number`, `Word.pair`, ...: the encoders.
-/

namespace BoxedScheme

/-- A value in one machine word. -/
structure Word where
  bits : UInt64
deriving DecidableEq

/-- What a word stands for. -/
inductive Kind where
  | number (value : Double)
  | emptyList
  | boolean (value : Bool)
  | endOfFile
  | dot
  | rightParen
  | unspecified
  | error
  /-- A symbol, by the string slot that holds its name. -/
  | symbol (slot : UInt32)
  | string (slot : UInt32)
  | pair (cell : UInt32)
  | char (value : Char)
  | procedure (id : UInt32)
  /-- A closure, by the cell that holds its environment and code. -/
  | closure (cell : UInt32)
deriving DecidableEq

/-- The class of words as error messages name it. -/
def Kind.typeName : Kind → String
  | .number _ => "number"
  | .emptyList => "empty list"
  | .boolean _ => "boolean"
  | .endOfFile => "eof-object"
  | .dot | .rightParen => "reader marker"
  | .unspecified => "unspecified"
  | .error => "error"
  | .symbol _ => "symbol"
  | .string _ => "string"
  | .pair _ => "pair"
  | .char _ => "char"
  | .procedure _ => "procedure"
  | .closure _ => "closure"

namespace Word

/-- The upper 16 bits. -/
def tag (w : Word) : UInt64 := w.bits >>> 48

/-- The low 32 bits. -/
def payload (w : Word) : UInt32 := w.bits.toUInt32

/-- The word of a tag and a payload. -/
def tagged (tag : UInt64) (payload : UInt32) : Word := ⟨tag <<< 48 ||| payload.toUInt64⟩

/-- Tags that stand for something other than a number. -/
def isReservedTag (tag : UInt64) : Bool := (0xfff1 ≤ tag && tag ≤ 0xfff7) || 0xfff9 ≤ tag

/-! ## Encoders -/

def nil : Word := tagged 0xfff1 0
def true : Word := tagged 0xfff2 0
def false : Word := tagged 0xfff3 0
def eof : Word := tagged 0xfff4 0
def dot : Word := tagged 0xfff5 0
def rightParen : Word := tagged 0xfff6 0
def unspecified : Word := tagged 0xfff7 0
def error : Word := tagged 0xfff9 0

/-- The not-a-number that stands for every pattern taken by a tag. -/
def foldedNaN : Word := ⟨0xfff8000000000000⟩

def number (x : Double) : Word :=
  if isReservedTag (x.bits >>> 48) then foldedNaN else ⟨x.bits⟩

def boolean (b : Bool) : Word := if b then true else false
def symbol (slot : UInt32) : Word := tagged 0xfffa slot
def string (slot : UInt32) : Word := tagged 0xfffb slot
def pair (cell : UInt32) : Word := tagged 0xfffc cell
def char (c : Char) : Word := tagged 0xfffd c.val
def procedure (id : UInt32) : Word := tagged 0xfffe id
def closure (cell : UInt32) : Word := tagged 0xffff cell

/-- The number of a count. -/
def ofNat (n : Nat) : Word := number (.ofNat n)

instance : Inhabited Word := ⟨unspecified⟩

/-! ## Classes -/

def isNumber (w : Word) : Bool := !isReservedTag w.tag
def isNull (w : Word) : Bool := w.tag = 0xfff1
def isBoolean (w : Word) : Bool := w.tag = 0xfff2 || w.tag = 0xfff3
def isEof (w : Word) : Bool := w.tag = 0xfff4
def isDot (w : Word) : Bool := w.tag = 0xfff5
def isRightParen (w : Word) : Bool := w.tag = 0xfff6
def isUnspecified (w : Word) : Bool := w.tag = 0xfff7
def isError (w : Word) : Bool := w.tag = 0xfff9
def isSymbol (w : Word) : Bool := w.tag = 0xfffa
def isString (w : Word) : Bool := w.tag = 0xfffb
def isPair (w : Word) : Bool := w.tag = 0xfffc
def isChar (w : Word) : Bool := w.tag = 0xfffd
def isProcedure (w : Word) : Bool := w.tag = 0xfffe
def isClosure (w : Word) : Bool := w.tag = 0xffff

/-- Words that can be applied. -/
def isCallable (w : Word) : Bool := w.isProcedure || w.isClosure

/-- Only the word of false counts as false. -/
def isTruthy (w : Word) : Bool := w ≠ false

/-! ## Decoders -/

/-- The character with the given code, or the replacement character if no character has it. -/
def charOfCode (code : UInt32) : Char :=
  if h : code.isValidChar then ⟨code, h⟩ else '�'

def kind (w : Word) : Kind :=
  if w.isNumber then .number ⟨w.bits⟩
  else if w.tag = 0xfff1 then .emptyList
  else if w.tag = 0xfff2 then .boolean .true
  else if w.tag = 0xfff3 then .boolean .false
  else if w.tag = 0xfff4 then .endOfFile
  else if w.tag = 0xfff5 then .dot
  else if w.tag = 0xfff6 then .rightParen
  else if w.tag = 0xfff7 then .unspecified
  else if w.tag = 0xfffa then .symbol w.payload
  else if w.tag = 0xfffb then .string w.payload
  else if w.tag = 0xfffc then .pair w.payload
  else if w.tag = 0xfffd then .char (charOfCode w.payload)
  else if w.tag = 0xfffe then .procedure w.payload
  else if w.tag = 0xffff then .closure w.payload
  else .error

def number? (w : Word) : Option Double := if w.isNumber then some ⟨w.bits⟩ else none

def char? (w : Word) : Option Char :=
  if h : w.isChar ∧ w.payload.isValidChar then some ⟨w.payload, h.2⟩ else none

/-- A closure's cell as a pair of environment and code. -/
def closurePair? (w : Word) : Option Word := if w.isClosure then some (pair w.payload) else none

/-- A symbol's name as a string in the same slot. -/
def symbolString? (w : Word) : Option Word := if w.isSymbol then some (string w.payload) else none

/-- The class of a word as error messages name it. -/
def typeName (w : Word) : String := w.kind.typeName

/-- The word as diagnostics show it: its kind and payload. -/
def diagnostic (w : Word) : String :=
  match w.kind with
  | .number x => s!"Number({x.diagnostic})"
  | .emptyList => "EmptyList"
  | .boolean .true => "Boolean(true)"
  | .boolean .false => "Boolean(false)"
  | .endOfFile => "EndOfFile"
  | .dot => "Dot"
  | .rightParen => "RightParen"
  | .unspecified => "Unspecified"
  | .error => "Error"
  | .symbol i => s!"Symbol(#{i.toNat})"
  | .string i => s!"String(#{i.toNat})"
  | .pair i => s!"Pair(#{i.toNat})"
  | .char c => s!"Char({Text.quoteChar c})"
  | .procedure i => s!"Procedure({i.toNat})"
  | .closure i => s!"Closure(#{i.toNat})"

end Word

end BoxedScheme
