/-!
# Parts of a text by byte offsets

An offset counts the bytes before it in UTF-8. It falls between two characters of a text, at one of its ends, or
nowhere.

* `Text.byteLength`: the offset of the end.
* `Text.splitAtByte?`, `Text.slice?`: the text around an offset and between two; none where an offset falls nowhere.
-/

namespace BoxedScheme.Text

/-- The number of bytes of a text. -/
def byteLength : List Char → Nat
  | [] => 0
  | c :: cs => c.utf8Size + byteLength cs

/-- The text before an offset and the text behind it. -/
def splitAtByte? : Nat → List Char → Option (List Char × List Char)
  | 0, cs => some ([], cs)
  | _ + 1, [] => none
  | n + 1, c :: cs =>
    if n + 1 < c.utf8Size then none
    else (splitAtByte? (n + 1 - c.utf8Size) cs).map fun (before, rest) => (c :: before, rest)

/-- The text from one offset to another one that is not before it. -/
def slice? (start stop : Nat) (cs : List Char) : Option (List Char) := do
  let (_, rest) ← splitAtByte? start cs
  if stop < start then none
  else
    let (text, _) ← splitAtByte? (stop - start) rest
    return text

/-! ### Offsets that fall between characters -/

theorem byteLength_append (cs ds : List Char) : byteLength (cs ++ ds) = byteLength cs + byteLength ds := by
  induction cs with
  | nil => rw [List.nil_append, byteLength, Nat.zero_add]
  | cons c cs ih => rw [List.cons_append, byteLength, byteLength, ih, Nat.add_assoc]

theorem splitAtByte?_append (cs ds : List Char) : splitAtByte? (byteLength cs) (cs ++ ds) = some (cs, ds) := by
  induction cs with
  | nil => rw [byteLength, splitAtByte?, List.nil_append]
  | cons c cs ih =>
    have hsize := c.utf8Size_pos
    obtain ⟨n, hn⟩ : ∃ n, c.utf8Size = n + 1 := ⟨c.utf8Size - 1, by omega⟩
    have hlength : byteLength (c :: cs) = (n + byteLength cs) + 1 := by
      rw [byteLength, hn]
      omega
    have hrest : n + byteLength cs + 1 - c.utf8Size = byteLength cs := by omega
    rw [hlength, List.cons_append, splitAtByte?, if_neg (by omega), hrest, ih]
    rfl

/-- The offsets at both ends of a stretch cut it out. -/
theorem slice?_append (before text rest : List Char) :
    slice? (byteLength before) (byteLength before + byteLength text) (before ++ (text ++ rest)) = some text := by
  rw [slice?, splitAtByte?_append]
  simp only [Option.bind_eq_bind, Option.bind_some]
  rw [if_neg (by omega), Nat.add_sub_cancel_left, splitAtByte?_append]
  rfl

end BoxedScheme.Text
