import BoxedScheme.Memory
import BoxedScheme.Operation
import BoxedScheme.Token

/-!
# Errors

Everything that can go wrong while a text is read and evaluated, as causes; `Error.message` has the wording.
-/

namespace BoxedScheme

/-- Why tokens do not form a datum. -/
inductive ReadFault where
  | scan (fault : ScanFault)
  | unexpectedClose
  | unexpectedDot
  | tooDeep
  | quoteWithoutDatum
  | unterminatedList
  | dotWithoutElement
  | dotWithoutDatum
  | unclosedTail
deriving DecidableEq

def ReadFault.message : ReadFault → String
  | .scan fault => fault.message
  | .unexpectedClose => "unexpected ')'"
  | .unexpectedDot => "unexpected '.'"
  | .tooDeep => "nesting too deep"
  | .quoteWithoutDatum => "expected a datum after quote"
  | .unterminatedList => "unterminated list"
  | .dotWithoutElement => "'.' must follow at least one element"
  | .dotWithoutDatum => "expected a datum after '.'"
  | .unclosedTail => "expected ')' after dotted tail"

structure ReadError where
  fault : ReadFault
  location : Location
deriving DecidableEq

def ReadError.message (e : ReadError) : String :=
  s!"Read error at {e.location.words}: {e.fault.message}"

/-- What is wrong with the shape of a form. -/
inductive SyntaxFault where
  | improperOperands
  | oneOperand
  | branchOperands (count : Nat)
  | missingName
  | nameAndExpression
  | nameNotSymbol
  | badTarget
  | noParametersOrBody
  | parameterNotSymbol
  | badParameters
  | badBody
  | bindingsNotList
  | badBinding (text : String)
  | noBindingsOrBody
  | noNamedBindingsOrBody
deriving DecidableEq

def SyntaxFault.message : SyntaxFault → String
  | .improperOperands => "operands must form a proper list"
  | .oneOperand => "expects exactly one operand"
  | .branchOperands count => s!"expects 2 or 3 operands, got {count}"
  | .missingName => "missing name"
  | .nameAndExpression => "expects a name and exactly one expression"
  | .nameNotSymbol => "procedure name must be a symbol"
  | .badTarget => "target must be a symbol or (name . formals)"
  | .noParametersOrBody => "expects parameters and a body"
  | .parameterNotSymbol => "parameters must be symbols"
  | .badParameters => "parameters must be a symbol or a list of symbols"
  | .badBody => "body must be a non-empty list"
  | .bindingsNotList => "bindings must form a list"
  | .badBinding text => s!"bad binding {text}"
  | .noBindingsOrBody => "expects bindings and a body"
  | .noNamedBindingsOrBody => "named let expects bindings and a body"

/-- What is wrong with an argument of the right type. -/
inductive ArgumentFault where
  | circularList
  | notInteger (text : String)
  | indexOutOfRange (text : String)
  | badRange (first last : String) (length : Nat)
  | badRadix (radix : Int)
  | misplacedName (name : String) (slot expected : Nat)
deriving DecidableEq

def ArgumentFault.message : ArgumentFault → String
  | .circularList => "circular list"
  | .notInteger text => s!"needs an integer, got {text}"
  | .indexOutOfRange text => s!"index {text} out of range"
  | .badRange first last length => s!"range {first}..{last} invalid for length {length}"
  | .badRadix radix => s!"unsupported radix {radix}"
  | .misplacedName name slot expected =>
    s!"{name} interned at slot {slot} instead of {expected}"

/-- The two pools of the heap. -/
inductive PoolName where
  | cell
  | string
deriving DecidableEq

def PoolName.text : PoolName → String
  | .cell => "cell"
  | .string => "string"

inductive Error where
  | outOfMemory (pool : PoolName) (capacity : Nat)
  | wrongType (procedure expected got : String)
  | unboundVariable (name : String)
  | arityMismatch (procedure : String) (expected : Arity) (got : Nat)
  | parameterMismatch (expected : Arity) (got : Nat)
  | badSyntax (form : String) (fault : SyntaxFault)
  | notCallable (value : String)
  | divisionByZero (procedure : String)
  | stackOverflow (capacity : Nat)
  | emptyApplication
  | invalidArgument (procedure : String) (fault : ArgumentFault)
  | read (error : ReadError)
  | unreadable (path reason : String)
deriving DecidableEq

namespace Error

def message : Error → String
  | .outOfMemory pool capacity => s!"out of memory: {pool.text} pool exhausted ({capacity} slots)"
  | .wrongType procedure expected got => s!"{procedure}: needs a {expected}, got {got}"
  | .unboundVariable name => s!"unbound variable: {name}"
  | .arityMismatch procedure expected got =>
    s!"{procedure}: expected {expected.describe} argument(s), got {got}"
  | .parameterMismatch expected got =>
    s!"parameter/argument mismatch: expected {expected.describe}, got {got} argument(s)"
  | .badSyntax form fault => s!"bad {form} syntax: {fault.message}"
  | .notCallable value => s!"attempt to apply non-procedure {value}"
  | .divisionByZero procedure => s!"{procedure}: division by zero"
  | .stackOverflow capacity => s!"stack overflow: root stack full ({capacity} entries)"
  | .emptyApplication => "cannot evaluate the empty list"
  | .invalidArgument procedure fault => s!"{procedure}: {fault.message}"
  | .read error => error.message
  | .unreadable path reason => s!"cannot read {path}: {reason}"

/-- A fault of the heap as an error of the program that caused it. -/
def ofFault : Fault → Error
  | .outOfCells capacity => .outOfMemory .cell capacity
  | .outOfStrings capacity => .outOfMemory .string capacity
  | .rootOverflow capacity => .stackOverflow capacity
  | .wrongType operation expected got => .wrongType operation expected got
  | .circularList operation => .invalidArgument operation .circularList

/-- The place of an error, for those that have one. -/
def location? : Error → Option Location
  | .read error => some error.location
  | _ => none

end Error

end BoxedScheme
