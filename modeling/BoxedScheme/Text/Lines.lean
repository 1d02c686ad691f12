/-!
# Lines of a text

A text split at its newlines.
-/

namespace BoxedScheme.Text

/-- The pieces between newlines; there is always at least one. -/
def splitLines (cs : List Char) : List (List Char) :=
  cs.foldr (fun c lines =>
    if c = '\n' then [] :: lines
    else match lines with
      | line :: lines => (c :: line) :: lines
      | [] => [[c]]) [[]]

/-- The lines of a text; a newline at its end starts no further line. -/
def lines (s : String) : List String :=
  let pieces := splitLines s.toList
  let pieces := if pieces.getLast? = some [] then pieces.dropLast else pieces
  pieces.map .ofList

/-- A line without the carriage return at its end. -/
def withoutReturn (cs : List Char) : List Char :=
  if cs.getLast? = some '\r' then cs.dropLast else cs

/-- The lines of a text in which a carriage return before a newline belongs to the end of the line. -/
def sourceLines (s : String) : List String :=
  let pieces := splitLines s.toList
  let last := pieces.getLast?.getD []
  ((pieces.dropLast.map withoutReturn) ++ if last.isEmpty then [] else [last]).map .ofList

end BoxedScheme.Text
