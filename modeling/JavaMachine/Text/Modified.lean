/-
# Modified UTF-8

Class files spell text in a variant of UTF-8: the character NUL takes the two bytes `C0 80`, and a
character beyond the basic plane is a surrogate pair of three bytes each. `decodeModified?` also
takes text in plain UTF-8. A unit that is a surrogate without a partner is read as the replacement
character, since text here holds characters only.
-/
import JavaMachine.Text.Utf16

namespace JavaMachine

abbrev Bytes := List UInt8

/-- The six bits that a continuation byte carries. -/
def continuationBits? (b : UInt8) : Option UInt16 :=
  if b &&& 0xC0 = 0x80 then some (b &&& 0x3F).toUInt16 else none

/-- The units that a sequence of bytes spells: a byte from 1 to 7F stands for itself, a lead byte
C0 to DF opens two bytes and a lead byte E0 to EF opens three. Nothing else is a lead byte. -/
def decodeUnits? : Bytes → Option (List UInt16)
  | [] => some []
  | lead :: rest =>
    if lead = 0 then none
    else if lead < 0x80 then (decodeUnits? rest).map (lead.toUInt16 :: ·)
    else if lead < 0xC0 then none
    else if lead < 0xE0 then
      match rest with
      | b :: rest => do
        let low ← continuationBits? b
        let units ← decodeUnits? rest
        return ((lead &&& 0x1F).toUInt16 <<< 6 ||| low) :: units
      | _ => none
    else if lead < 0xF0 then
      match rest with
      | b :: c :: rest => do
        let middle ← continuationBits? b
        let low ← continuationBits? c
        let units ← decodeUnits? rest
        return ((lead &&& 0x0F).toUInt16 <<< 12 ||| middle <<< 6 ||| low) :: units
      | _ => none
    else none

/-- The text that a sequence of bytes spells, in plain or in modified UTF-8. -/
def decodeModified? (bytes : Bytes) : Option String :=
  match String.fromUTF8? ⟨bytes.toArray⟩ with
  | some s => some s
  | none => (decodeUnits? bytes).map fun units => String.ofList (charsOfUnits units)

example : decodeUnits? [0xC0, 0x80, 0x61, 0xED, 0xA0, 0xBD] = some [0, 0x61, 0xD83D] := by
  decide +kernel
example : decodeUnits? [0xC0] = none ∧ decodeUnits? [0xF0, 0x9F, 0x98, 0x80] = none := by
  decide +kernel

end JavaMachine
