/-!
# Texts in columns

Cutting a text to a width and filling it up to one. Widths count characters.
-/

namespace BoxedScheme.Text

/-- At most `width` characters of a text; a cut is marked with dots. -/
def truncate (s : String) (width : Nat) : String :=
  if s.length ≤ width then s else .ofList (s.toList.take (width - 1) ++ ['…'])

/-- Fills a text up with blanks on the right. -/
def padRight (s : String) (width : Nat) : String :=
  s ++ .ofList (List.replicate (width - s.length) ' ')

/-- Fills a text up with blanks on the left. -/
def padLeft (s : String) (width : Nat) : String :=
  .ofList (List.replicate (width - s.length) ' ') ++ s

end BoxedScheme.Text
