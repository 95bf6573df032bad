/-
# Damaged UTF-8

Names in archives may announce UTF-8 and not be in it. `decodeLossy` reads them all the same: bytes that
begin a character which does not come to its end stand for one replacement character, and so does a byte
that can begin none.
-/
import JavaMachine.Text.Modified

namespace JavaMachine

/-- A character of several bytes that is not at its end. -/
structure PartialChar where
  /-- The bits so far. -/
  bits : Nat
  /-- The number of bytes that are missing. -/
  missing : Nat
  /-- The least and the greatest byte that may come next. -/
  least : UInt8 := 0x80
  greatest : UInt8 := 0xBF
deriving DecidableEq, Repr

namespace PartialChar

/-- The character that a byte begins. The second byte is bounded so that no character is spelled longer
than needed, is a surrogate or lies beyond the last one. -/
def ofLead? (b : UInt8) : Option PartialChar :=
  let bits := b.toNat
  if 0xC2 ≤ b ∧ b < 0xE0 then some { bits := bits % 32, missing := 1 }
  else if b = 0xE0 then some { bits := bits % 16, missing := 2, least := 0xA0 }
  else if b = 0xED then some { bits := bits % 16, missing := 2, greatest := 0x9F }
  else if 0xE0 < b ∧ b < 0xF0 then some { bits := bits % 16, missing := 2 }
  else if b = 0xF0 then some { bits := bits % 8, missing := 3, least := 0x90 }
  else if 0xF0 < b ∧ b < 0xF4 then some { bits := bits % 8, missing := 3 }
  else if b = 0xF4 then some { bits := bits % 8, missing := 3, greatest := 0x8F }
  else none

/-- Whether a byte may come next. -/
def accepts (p : PartialChar) (b : UInt8) : Bool := p.least ≤ b ∧ b ≤ p.greatest

/-- The character with one more byte. -/
def push (p : PartialChar) (b : UInt8) : PartialChar :=
  { bits := p.bits * 64 + b.toNat % 64, missing := p.missing - 1 }

end PartialChar

/-- The characters that some bytes spell behind a character that is not at its end. -/
def decodeLossyFrom : Option PartialChar → Bytes → List Char
  | p, [] => p.toList.map fun _ => replacementChar
  | p, b :: rest =>
    match p.filter (·.accepts b) with
    | some q =>
      let q := q.push b
      if q.missing = 0 then Char.ofNat q.bits :: decodeLossyFrom none rest
      else decodeLossyFrom (some q) rest
    | none =>
      p.toList.map (fun _ => replacementChar) ++
        if b < 0x80 then Char.ofNat b.toNat :: decodeLossyFrom none rest
        else
          match PartialChar.ofLead? b with
          | some q => decodeLossyFrom (some q) rest
          | none => replacementChar :: decodeLossyFrom none rest

/-- The text that some bytes spell in UTF-8, with replacement characters where they do not. -/
def decodeLossy (bytes : Bytes) : String := String.ofList (decodeLossyFrom none bytes)

example : decodeLossy [0x61, 0xC3, 0xA9, 0xF0, 0x9F, 0x98, 0x80] = "aé😀" := by decide +kernel
example : decodeLossyFrom none [0xF0, 0x9F, 0x61, 0xC0, 0xAF, 0xED, 0xA0, 0x80, 0xE2, 0x82] =
    [replacementChar, 'a'] ++ List.replicate 6 replacementChar := by decide +kernel

end JavaMachine
