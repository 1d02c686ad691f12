import BoxedScheme.Text.Shapeless

/-!
# Quoted text in diagnostics

Characters and strings between quotes, as diagnostics show them. A character without a shape is shown by its
number.
-/

namespace BoxedScheme.Text

/-- A character inside quotes of the kind `quote`. -/
def quotedChar (quote c : Char) : String :=
  if c = '\x00' then "\\0"
  else if c = '\t' then "\\t"
  else if c = '\r' then "\\r"
  else if c = '\n' then "\\n"
  else if c = '\\' ∨ c = quote then .ofList ['\\', c]
  else if isShapeless c then "\\u\x7b" ++ .ofList (Nat.toDigits 16 c.toNat) ++ "\x7d"
  else .singleton c

/-- A character between single quotes. -/
def quoteChar (c : Char) : String := "'" ++ quotedChar '\'' c ++ "'"

/-- A string between double quotes. -/
def quoteString (s : String) : String := "\"" ++ .join (s.toList.map (quotedChar '"')) ++ "\""

end BoxedScheme.Text
