/-!
# Unfinished input

Whether a text typed so far ends inside a list, a string or a block comment, so that more lines have to
follow before it is read.
-/

namespace BoxedScheme.Continuation

/-- Where in a text a character stands. -/
inductive Mode where
  | code
  | string
  | line
  /-- In a block comment, inside `depth` further ones. -/
  | block (depth : Nat)
deriving DecidableEq

/-- Goes on in a mode, with `depth` more opening than closing parentheses and brackets so far. -/
def scan : Mode → Int → List Char → Bool
  | .code, depth, [] => 0 < depth
  | .line, depth, [] => 0 < depth
  | .string, _, [] => true
  | .block _, _, [] => true
  | .code, depth, '#' :: '\\' :: _ :: cs => scan .code depth cs
  | .code, depth, '#' :: '|' :: cs => scan (.block 0) depth cs
  | .code, depth, c :: cs =>
    if c = '"' then scan .string depth cs
    else if c = ';' then scan .line depth cs
    else if c = '(' ∨ c = '[' then scan .code (depth + 1) cs
    else if c = ')' ∨ c = ']' then scan .code (depth - 1) cs
    else scan .code depth cs
  | .string, depth, '\\' :: _ :: cs => scan .string depth cs
  | .string, depth, c :: cs => scan (if c = '"' then .code else .string) depth cs
  | .line, depth, c :: cs => scan (if c = '\n' then .code else .line) depth cs
  | .block 0, depth, '|' :: '#' :: cs => scan .code depth cs
  | .block (inner + 1), depth, '|' :: '#' :: cs => scan (.block inner) depth cs
  | .block inner, depth, '#' :: '|' :: cs => scan (.block (inner + 1)) depth cs
  | .block inner, depth, _ :: cs => scan (.block inner) depth cs

/-- More lines have to follow. -/
def needsMore (text : String) : Bool := scan .code 0 text.toList

end BoxedScheme.Continuation
