/-
# UTF-16 code units

A character is one UTF-16 code unit, or a pair of surrogates. `utf16Units` splits a character into
units; `charsOfUnits` joins units into characters, with the replacement character in the place of
each surrogate that stands alone.
-/

namespace JavaMachine

/-- The character that takes the place of a surrogate without a partner. -/
def replacementChar : Char := Char.ofNat 0xFFFD

/-- Whether a unit opens a surrogate pair. -/
def isHighSurrogate (u : UInt16) : Bool := 0xD800 ≤ u ∧ u < 0xDC00

/-- Whether a unit closes a surrogate pair. -/
def isLowSurrogate (u : UInt16) : Bool := 0xDC00 ≤ u ∧ u < 0xE000

/-- The character of a surrogate pair. -/
def pairChar (high low : UInt16) : Char :=
  Char.ofNat (0x10000 + (high.toNat - 0xD800) * 0x400 + (low.toNat - 0xDC00))

/-- The UTF-16 units of a character, one or two. -/
def utf16Units (c : Char) : List UInt16 :=
  if c.toNat < 0x10000 then [UInt16.ofNat c.toNat]
  else
    let offset := c.toNat - 0x10000
    [UInt16.ofNat (0xD800 + offset / 0x400), UInt16.ofNat (0xDC00 + offset % 0x400)]

/-- The text that a sequence of units spells. -/
def charsOfUnits : List UInt16 → List Char
  | [] => []
  | [u] => [if isHighSurrogate u ∨ isLowSurrogate u then replacementChar else Char.ofNat u.toNat]
  | u :: v :: rest =>
    if isHighSurrogate u then
      if isLowSurrogate v then pairChar u v :: charsOfUnits rest
      else replacementChar :: charsOfUnits (v :: rest)
    else if isLowSurrogate u then replacementChar :: charsOfUnits (v :: rest)
    else Char.ofNat u.toNat :: charsOfUnits (v :: rest)

example : utf16Units (Char.ofNat 0x1F600) = [0xD83D, 0xDE00] := by decide +kernel
example : charsOfUnits [0x61, 0xD83D, 0xDE00, 0xDE00, 0xD83D] =
    ['a', Char.ofNat 0x1F600, replacementChar, replacementChar] := by decide +kernel

end JavaMachine
