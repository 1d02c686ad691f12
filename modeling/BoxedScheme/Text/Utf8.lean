/-!
# Bytes as text

Strings are stored as bytes. `Text.ofBytes` shows them as characters: valid UTF-8 decodes to itself, and
each maximal piece of bytes that starts no character becomes one replacement character.
-/

namespace BoxedScheme.Text

/-- The character shown for bytes that are not UTF-8. -/
def replacement : Char := '\ufffd'

/-- The bytes that may follow a lead byte, and how many bytes follow in all; `none` for a byte that
starts no multi-byte character. The range of the second byte leaves out overlong forms, surrogates and
numbers above the last character. -/
def leadRange (b : UInt8) : Option (UInt8 × UInt8 × Nat) :=
  if 0xc2 ≤ b ∧ b ≤ 0xdf then some (0x80, 0xbf, 1)
  else if b = 0xe0 then some (0xa0, 0xbf, 2)
  else if b = 0xed then some (0x80, 0x9f, 2)
  else if 0xe1 ≤ b ∧ b ≤ 0xef then some (0x80, 0xbf, 2)
  else if b = 0xf0 then some (0x90, 0xbf, 3)
  else if 0xf1 ≤ b ∧ b ≤ 0xf3 then some (0x80, 0xbf, 3)
  else if b = 0xf4 then some (0x80, 0x8f, 3)
  else none

/-- Decodes bytes from the left. The state is the part of a character already read: its bits so far, the
range of the next byte, and how many bytes are missing. -/
def decodeLossy : Option (Nat × UInt8 × UInt8 × Nat) → List UInt8 → List Char
  | none, [] => []
  | some _, [] => [replacement]
  | none, b :: bs => start b bs
  | some (bits, low, high, missing), b :: bs =>
    if low ≤ b ∧ b ≤ high then
      let bits := bits * 64 + b.toNat % 64
      if missing ≤ 1 then .ofNat bits :: decodeLossy none bs
      else decodeLossy (some (bits, 0x80, 0xbf, missing - 1)) bs
    else replacement :: start b bs
where
  /-- Decodes from a byte that must start a character. -/
  start (b : UInt8) (bs : List UInt8) : List Char :=
    if b < 0x80 then .ofNat b.toNat :: decodeLossy none bs
    else match leadRange b with
      | some (low, high, missing) =>
        let lead := if missing = 1 then b.toNat % 32 else if missing = 2 then b.toNat % 16
          else b.toNat % 8
        decodeLossy (some (lead, low, high, missing)) bs
      | none => replacement :: decodeLossy none bs

/-- The text of stored bytes. -/
def ofBytes (bytes : ByteArray) : String :=
  match String.fromUTF8? bytes with
  | some s => s
  | none => .ofList (decodeLossy none bytes.toList)

end BoxedScheme.Text
