import BoxedScheme.Numeral
import BoxedScheme.Text.Space
import BoxedScheme.Token

/-!
# Splitting a text into tokens

Blanks and comments separate tokens. A parenthesis, bracket or quote is a token by itself, a string runs to
its closing quote, and every other token is an atom: a run of characters up to a blank or one of
`( ) [ ] " ; '`. Block comments `#| ... |#` nest.

* `skipBlank`: drops blanks and comments.
* `scanToken`: one token from its first character on.
* `tokenize`: the whole text, closed by the end-of-file token.
-/

namespace BoxedScheme

/-- The rest of a text and the place where it starts. -/
structure Cursor where
  location : Location
  rest : List Char

/-- Characters that end an atom. -/
def isDelimiter (c : Char) : Bool :=
  Text.isSpace c || c = '(' || c = ')' || c = '[' || c = ']' || c = '"' || c = ';' || c = '\''

/-! ## Blanks and comments -/

/-- Where a blank stretch currently is. -/
inductive Blank where
  | outside
  | line
  /-- In a block comment opened at `start`, inside `depth` further ones. -/
  | block (start : Location) (depth : Nat)

/-- Drops blanks and comments. Fails if the text ends inside a block comment. -/
def skipBlank : Blank → Location → List Char → Except ScanError Cursor
  | .block start _, _, [] => .error ⟨.unterminatedComment, start⟩
  | _, loc, [] => .ok ⟨loc, []⟩
  | .outside, loc, '#' :: '|' :: cs => skipBlank (.block loc 0) ((loc.after '#').after '|') cs
  | .outside, loc, c :: cs =>
    if Text.isSpace c then skipBlank .outside (loc.after c) cs
    else if c = ';' then skipBlank .line (loc.after c) cs
    else .ok ⟨loc, c :: cs⟩
  | .line, loc, c :: cs => skipBlank (if c = '\n' then .outside else .line) (loc.after c) cs
  | .block start depth, loc, '|' :: '#' :: cs =>
    let loc := (loc.after '|').after '#'
    match depth with
    | 0 => skipBlank .outside loc cs
    | depth + 1 => skipBlank (.block start depth) loc cs
  | .block start depth, loc, '#' :: '|' :: cs =>
    skipBlank (.block start (depth + 1)) ((loc.after '#').after '|') cs
  | .block start depth, loc, c :: cs => skipBlank (.block start depth) (loc.after c) cs

/-! ## Atoms -/

/-- The atom at the start of `cs`, as far as it goes. -/
def atomOf (cs : List Char) : List Char := cs.takeWhile (!isDelimiter ·)

/-- What is left behind that atom. -/
def afterAtom (cs : List Char) : List Char := cs.dropWhile (!isDelimiter ·)

/-- A number written in a base other than ten, as its literal has it. -/
def radixNumber? (base : Nat) (cs : List Char) : Option Double :=
  (Numeral.word64? base cs).map .ofInt

/-- The fault or token of an atom that starts with `#`; `cs` is what follows. -/
def hashToken (cs : List Char) : Except ScanFault Token :=
  let text := String.ofList ('#' :: cs)
  let number (value : Option Double) : Except ScanFault Token :=
    match value with
    | some x => .ok (.number x)
    | none => .error (.invalidNumber text)
  if cs = ['t'] ∨ cs = "true".toList then .ok (.boolean true)
  else if cs = ['f'] ∨ cs = "false".toList then .ok (.boolean false)
  else match cs with
    | [] => .error (.unknownHash text)
    | c :: ds =>
      if c = 'x' ∨ c = 'X' then number (radixNumber? 16 ds)
      else if c = 'b' ∨ c = 'B' then number (radixNumber? 2 ds)
      else if c = 'o' ∨ c = 'O' then number (radixNumber? 8 ds)
      else if c = 'd' ∨ c = 'D' then number (Numeral.parse? ds)
      else .error (.unknownHash text)

/-- The fault or token of a whole atom. -/
def atomToken : List Char → Except ScanFault Token
  | ['.'] => .ok .dot
  | '#' :: cs => hashToken cs
  | cs =>
    match Numeral.parse? cs with
    | some x => .ok (.number x)
    | none =>
      if Numeral.looksNumeric cs then .error (.invalidNumber (.ofList cs))
      else .ok (.symbol (.ofList cs))

/-! ## Characters -/

/-- The characters that have names. -/
def charNames : List (String × Char) :=
  [("space", ' '), ("newline", '\n'), ("linefeed", '\n'), ("tab", '\t'), ("return", '\r'),
    ("nul", '\x00'), ("null", '\x00'), ("alarm", '\x07'), ("backspace", '\x08'),
    ("escape", '\x1b'), ("altmode", '\x1b'), ("delete", '\x7f'), ("rubout", '\x7f')]

/-- The character with a code written in base sixteen, an optional plus sign in front. -/
def charOfHex? (cs : List Char) : Option Char :=
  let digits := match cs with
    | '+' :: cs => cs
    | cs => cs
  (Numeral.digits? 16 digits).bind fun n =>
    if h : n.isValidChar then some (Char.ofNatAux n h) else none

/-- The character behind a name of two or more characters; case does not matter. -/
def namedChar? (cs : List Char) : Option Char :=
  let cs := cs.map Char.toLower
  match charNames.lookup (.ofList cs) with
  | some c => some c
  | none =>
    match cs with
    | 'x' :: ds => charOfHex? ds
    | _ => none

/-- The character literal whose text after `#\` is `cs`. -/
def scanChar (start loc : Location) : List Char → Except ScanError (Token × Cursor)
  | [] => .error ⟨.endInChar, start⟩
  | c :: cs =>
    let name := c :: atomOf cs
    let next : Cursor := ⟨loc.afterAll name, afterAtom cs⟩
    if name.length = 1 then .ok (.char c, next)
    else match namedChar? name with
      | some c => .ok (.char c, next)
      | none => .error ⟨.unknownCharName (.ofList name), start⟩

/-! ## Strings -/

/-- What an escape stands for: a newline for nothing, a letter for a character. -/
def unescape? (c : Char) : Option (Option Char) :=
  if c = 'n' then some '\n'
  else if c = 't' then some '\t'
  else if c = 'r' then some '\r'
  else if c = 'a' then some '\x07'
  else if c = '0' then some '\x00'
  else if c = '\\' then some '\\'
  else if c = '"' then some '"'
  else if c = '\n' then some none
  else none

/-- The string literal whose text after the opening quote is the given one; `read` holds the characters
so far, the last one first. -/
def scanString (start : Location) :
    Location → List Char → List Char → Except ScanError (Token × Cursor)
  | _, _, [] => .error ⟨.unterminatedString, start⟩
  | loc, read, '"' :: cs => .ok (.string (.ofList read.reverse), ⟨loc.after '"', cs⟩)
  | loc, _, ['\\'] => .error ⟨.endInString, loc.after '\\'⟩
  | loc, read, '\\' :: c :: cs =>
    let loc := (loc.after '\\').after c
    match unescape? c with
    | some (some d) => scanString start loc (d :: read) cs
    | some none => scanString start loc read cs
    | none => .error ⟨.unknownEscape c, loc⟩
  | loc, read, c :: cs => scanString start (loc.after c) (c :: read) cs

/-! ## Tokens -/

/-- The token that starts with `c` at `loc`, where `cs` follows. -/
def scanToken (loc : Location) (c : Char) (cs : List Char) : Except ScanError (Token × Cursor) :=
  let next : Cursor := ⟨loc.after c, cs⟩
  if c = '(' ∨ c = '[' then .ok (.leftParen, next)
  else if c = ')' ∨ c = ']' then .ok (.rightParen, next)
  else if c = '\'' then .ok (.quote, next)
  else if c = '"' then scanString loc next.location [] cs
  else if c = '`' ∨ c = ',' then .error ⟨.quasiquote, loc⟩
  else if c = '#' ∧ cs.head? = some '\\' then
    scanChar loc (next.location.after '\\') cs.tail
  else
    let atom := c :: atomOf cs
    match atomToken atom with
    | .ok token => .ok (token, ⟨loc.afterAll atom, afterAtom cs⟩)
    | .error fault => .error ⟨fault, loc⟩

/-! ### What is left is never longer -/

theorem length_afterAtom_le (cs : List Char) : (afterAtom cs).length ≤ cs.length :=
  (List.dropWhile_sublist _).length_le

theorem length_rest_skipBlank_le (mode : Blank) (loc : Location) (cs : List Char) (next : Cursor)
    (h : skipBlank mode loc cs = .ok next) : next.rest.length ≤ cs.length := by
  fun_induction skipBlank mode loc cs <;> grind

theorem length_rest_scanString_le (start loc : Location) (read cs : List Char) (token : Token)
    (next : Cursor) (h : scanString start loc read cs = .ok (token, next)) :
    next.rest.length ≤ cs.length := by
  fun_induction scanString start loc read cs <;> grind

theorem length_rest_scanChar_le (start loc : Location) (cs : List Char) (token : Token)
    (next : Cursor) (h : scanChar start loc cs = .ok (token, next)) :
    next.rest.length ≤ cs.length := by
  cases cs with
  | nil => simp [scanChar] at h
  | cons c cs =>
    have := length_afterAtom_le cs
    simp only [scanChar] at h
    split at h
    · simp only [Except.ok.injEq, Prod.mk.injEq] at h
      rw [← h.2]
      exact Nat.le_succ_of_le this
    · split at h
      · simp only [Except.ok.injEq, Prod.mk.injEq] at h
        rw [← h.2]
        exact Nat.le_succ_of_le this
      · cases h

theorem length_rest_scanToken_le (loc : Location) (c : Char) (cs : List Char) (token : Token)
    (next : Cursor) (h : scanToken loc c cs = .ok (token, next)) :
    next.rest.length ≤ cs.length := by
  simp only [scanToken] at h
  repeat' split at h
  · simp only [Except.ok.injEq, Prod.mk.injEq] at h
    simp [← h.2]
  · simp only [Except.ok.injEq, Prod.mk.injEq] at h
    simp [← h.2]
  · simp only [Except.ok.injEq, Prod.mk.injEq] at h
    simp [← h.2]
  · exact length_rest_scanString_le _ _ _ _ _ _ h
  · cases h
  · have := length_rest_scanChar_le _ _ _ _ _ h
    simp only [List.length_tail] at this
    omega
  · simp only [Except.ok.injEq, Prod.mk.injEq] at h
    rw [← h.2]
    exact length_afterAtom_le cs
  · cases h

/-! ## Whole texts -/

/-- The tokens of a text from a place on, behind those already found. -/
def scanAll (found : Array Lexeme) (loc : Location) (cs : List Char) :
    Except ScanError (Array Lexeme) :=
  match _hs : skipBlank .outside loc cs with
  | .error e => .error e
  | .ok ⟨loc, []⟩ => .ok (found.push ⟨.endOfFile, loc⟩)
  | .ok ⟨loc, c :: rest⟩ =>
    match _ht : scanToken loc c rest with
    | .error e => .error e
    | .ok (token, next) => scanAll (found.push ⟨token, loc⟩) next.location next.rest
termination_by cs.length
decreasing_by
  have h1 := length_rest_skipBlank_le _ _ _ _ _hs
  have h2 := length_rest_scanToken_le _ _ _ _ _ _ht
  simp only [List.length_cons] at h1
  omega

/-- All tokens of a text, the last one being the end of file. -/
def tokenize (source : String) : Except ScanError (Array Lexeme) :=
  scanAll #[] .start source.toList

end BoxedScheme
