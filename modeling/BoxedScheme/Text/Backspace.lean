import BoxedScheme.Text.Cluster

/-!
# Backspaces in a line

What a line comes to when every backspace in it takes back the cluster typed before it. A backspace with
nothing before it does nothing.
-/

namespace BoxedScheme.Text

def backspace : Char := '\x08'

/-- A text without so many of its last bytes. The last character stands first; a character of which any byte
goes is gone. -/
def eraseBytes : Nat → List Char → List Char
  | 0, cs => cs
  | _, [] => []
  | n + 1, c :: cs => eraseBytes (n + 1 - c.utf8Size) cs

/-- A line that is being typed. -/
structure Typed where
  /-- The characters, the last one first. -/
  chars : List Char := []
  /-- How many bytes each backspace takes back, the next one first. -/
  sizes : List Nat := []

namespace Typed

/-- The size of a cluster is kept in one byte, so of a long cluster a backspace takes back only what is left
over 256 bytes. -/
def sizeLimit : Nat := 256

def size (cluster : List Char) : Nat := cluster.foldl (fun n c => n + c.utf8Size) 0 % sizeLimit

/-- One cluster more, or one less. -/
def type (t : Typed) (cluster : List Char) : Typed :=
  if cluster = [backspace] then
    match t.sizes with
    | [] => t
    | n :: sizes => ⟨eraseBytes n t.chars, sizes⟩
  else ⟨cluster.reverse ++ t.chars, size cluster :: t.sizes⟩

end Typed

/-- A line with its backspaces carried out. -/
def applyBackspaces (line : String) : String :=
  if backspace ∈ line.toList then
    .ofList (((clusters line.toList).foldl Typed.type {}).chars.reverse)
  else line

end BoxedScheme.Text
