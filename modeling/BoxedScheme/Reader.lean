import BoxedScheme.Error
import BoxedScheme.Token.Scan

/-!
# Reading data

A reader takes tokens one at a time and builds the data they spell in memory: symbols are interned, strings
get a new slot, and the pairs of a list are built from its end once the list is closed. What is still open
(lists, quotes and dotted tails that wait for more tokens) stands on a stack of frames, whose height is the
nesting depth.

* `Reader.shift`: one token on top of the open frames.
* `Reader.read`: the next datum, the end-of-file word at the end of the text, or an error. The reader behind
  the tokens it took comes back in every case, as does the memory.
-/

namespace BoxedScheme

/-- A place in a token sequence that ends with the end of file. -/
structure Reader where
  pending : List Lexeme
  /-- The place of the first token of the datum read last. -/
  lastLocation : Location := .start

namespace Reader

/-- The deepest nesting of lists and quotes that is read. -/
def maxDepth : Nat := 512

/-- Something that waits for more tokens; items stand in reverse. -/
inductive Frame where
  /-- A quote waits for its datum. -/
  | quote (start : Location)
  /-- A list waits for an element, a dot or its end. -/
  | list (start : Location) (items : List Word)
  /-- A list waits for the datum behind its dot. -/
  | dotted (start : Location) (items : List Word) (dot : Location)
  /-- A list waits for its end behind the dotted tail. -/
  | closing (start : Location) (items : List Word) (tail : Word)

/-- Where a datum stands after one more token. -/
inductive Progress where
  | more (frames : List Frame)
  | done (datum : Word)
  | failed (error : ReadError)

def fail (fault : ReadFault) (location : Location) : Progress := .failed ⟨fault, location⟩

/-- Hands a finished datum that started at `start` to the innermost frame. A quote is finished with it and
hands on the list of the symbol `quote` and the datum. -/
def complete : List Frame → Location → Word → MemoryM Progress
  | [], _, datum => pure (.done datum)
  | .quote start :: frames, _, datum => do
    let quote ← Memory.intern "quote".toUTF8
    let tail ← Memory.onHeap (Heap.cons datum .nil)
    complete frames start (← Memory.onHeap (Heap.cons quote tail))
  | .list start items :: frames, _, datum => pure (.more (.list start (datum :: items) :: frames))
  | .dotted start items _ :: frames, _, datum => pure (.more (.closing start items datum :: frames))
  | .closing .. :: _, start, _ => pure (fail .unclosedTail start)

/-- A closing parenthesis at `loc`. -/
def close (loc : Location) : List Frame → MemoryM Progress
  | [] => pure (fail .unexpectedClose loc)
  | .quote start :: _ => pure (fail .quoteWithoutDatum start)
  | .list start items :: frames => do
    complete frames start (← Memory.onHeap (Heap.consAll items .nil))
  | .dotted _ _ dot :: _ => pure (fail .dotWithoutDatum dot)
  | .closing start items tail :: frames => do
    complete frames start (← Memory.onHeap (Heap.consAll items tail))

/-- A dot at `loc`. -/
def shiftDot (loc : Location) : List Frame → Progress
  | [] => fail .unexpectedDot loc
  | .quote start :: _ => fail .quoteWithoutDatum start
  | .list _ [] :: _ => fail .dotWithoutElement loc
  | .list start items :: frames => .more (.dotted start items loc :: frames)
  | .dotted _ _ dot :: _ => fail .dotWithoutDatum dot
  | .closing .. :: _ => fail .unclosedTail loc

/-- The end of the text at `loc`. -/
def finish (loc : Location) : List Frame → Progress
  | [] => .done .eof
  | .quote start :: _ => fail .quoteWithoutDatum start
  | .list start _ :: _ => fail .unterminatedList start
  | .dotted _ _ dot :: _ => fail .dotWithoutDatum dot
  | .closing .. :: _ => fail .unclosedTail loc

/-- One token on top of the open frames. -/
def shift (frames : List Frame) (lexeme : Lexeme) : MemoryM Progress :=
  let loc := lexeme.location
  if maxDepth < frames.length then pure (fail .tooDeep loc)
  else match lexeme.token with
    | .endOfFile => pure (finish loc frames)
    | .rightParen => close loc frames
    | .dot => pure (shiftDot loc frames)
    | .leftParen => pure (.more (.list loc [] :: frames))
    | .quote => pure (.more (.quote loc :: frames))
    | .boolean b => complete frames loc (.boolean b)
    | .number x => complete frames loc (.number x)
    | .char c => complete frames loc (.char c)
    | .string s => do complete frames loc (← Memory.onHeap (Heap.makeString s.toUTF8))
    | .symbol name => do complete frames loc (← Memory.intern name.toUTF8)

/-- The tokens behind a lexeme; the end of file stays in place. -/
def behind (lexeme : Lexeme) (rest : List Lexeme) : List Lexeme :=
  if lexeme.token = .endOfFile then lexeme :: rest else rest

/-- Takes tokens until the innermost frame is finished or something is wrong. -/
def readTokens : List Frame → List Lexeme → Memory → (Except Error Word × List Lexeme) × Memory
  | _, [], m => ((.ok .eof, []), m)
  | frames, lexeme :: rest, m =>
    match shift frames lexeme m with
    | .error fault m => ((.error (.ofFault fault), behind lexeme rest), m)
    | .ok (.failed error) m => ((.error (.read error), behind lexeme rest), m)
    | .ok (.done datum) m => ((.ok datum, behind lexeme rest), m)
    | .ok (.more frames) m => readTokens frames rest m

/-- The place of the next token. -/
def nextLocation (r : Reader) : Location :=
  match r.pending with
  | lexeme :: _ => lexeme.location
  | [] => .start

/-- Nothing but the end of file is left. -/
def atEnd (r : Reader) : Bool :=
  match r.pending with
  | lexeme :: _ => lexeme.token = .endOfFile
  | [] => true

/-- A reader of a whole text. What does not split into tokens is reported here. -/
def ofSource (source : String) : Except ReadError Reader :=
  match tokenize source with
  | .ok lexemes => .ok { pending := lexemes.toList }
  | .error e => .error ⟨.scan e.fault, e.location⟩

/-- Reads the next datum. -/
def read (r : Reader) (m : Memory) : (Except Error Word × Reader) × Memory :=
  let ((outcome, pending), m) := readTokens [] r.pending m
  ((outcome, ⟨pending, r.nextLocation⟩), m)

end Reader

end BoxedScheme
