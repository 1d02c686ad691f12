/-!
# Places in a source text

Lines and columns count from one, in characters; a newline ends its line.
-/

namespace BoxedScheme

structure Location where
  line : Nat
  column : Nat
deriving DecidableEq, Inhabited

namespace Location

/-- The place of the first character. -/
def start : Location := ⟨1, 1⟩

/-- The place of the character after `c`. -/
def after (l : Location) (c : Char) : Location :=
  if c = '\n' then ⟨l.line + 1, 1⟩ else ⟨l.line, l.column + 1⟩

/-- The place of the character after all of `cs`. -/
def afterAll (l : Location) (cs : List Char) : Location := cs.foldl after l

/-- Line and column with a colon between them. -/
def text (l : Location) : String := s!"{l.line}:{l.column}"

/-- Line and column in words, as error messages begin. -/
def words (l : Location) : String := s!"line {l.line}, column {l.column}"

end Location

end BoxedScheme
