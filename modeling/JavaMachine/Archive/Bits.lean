/-
# Bits of compressed data

Compressed contents are read off the front of a sequence, of bytes or of bits. An `Intake` takes items
off the front and fails when there are not enough. Formats disagree on which bit of a byte comes
first, and on which bit of a number does: `bitsLowFirst` and `ofBitsLowFirst` start with the lowest,
`bitsHighFirst` and `ofBitsHighFirst` with the highest.
-/
import JavaMachine.Text.Modified

namespace JavaMachine

/-- Taking items off the front of a sequence. -/
abbrev Intake (α : Type) := StateT (List α) Option

namespace Intake

variable {α : Type}

/-- The next `n` items. -/
def take (n : Nat) : Intake α (List α) := fun items =>
  if (items.take n).length = n then some (items.take n, items.drop n) else none

/-- The next item. -/
def next : Intake α α
  | [] => none
  | a :: rest => some (a, rest)

/-- The number of items that are left. -/
def remaining : Intake α Nat := fun items => some (items.length, items)

/-- Whether no items are left. -/
def isAtEnd : Intake α Bool := fun items => some (items.isEmpty, items)

/-- What is taken stood in front of what is left. -/
theorem take_eq_some_iff {n : Nat} {items front rest : List α} :
    take n items = some (front, rest) ↔ front.length = n ∧ items = front ++ rest := by
  unfold take
  split
  · rename_i h
    constructor
    · intro h'
      obtain ⟨rfl, rfl⟩ := Prod.mk.inj (Option.some.inj h')
      exact ⟨h, (List.take_append_drop n items).symm⟩
    · rintro ⟨rfl, rfl⟩
      simp
  · rename_i h
    constructor
    · intro h'
      cases h'
    · rintro ⟨rfl, rfl⟩
      simp at h

end Intake

/-! ## Orders of bits -/

/-- The bits of some bytes, the lowest bit of each byte first. -/
def bitsLowFirst (bytes : Bytes) : List Bool :=
  bytes.flatMap fun b => (List.range 8).map b.toNat.testBit

/-- The bits of some bytes, the highest bit of each byte first. -/
def bitsHighFirst (bytes : Bytes) : List Bool :=
  bytes.flatMap fun b => (List.range 8).reverse.map b.toNat.testBit

/-- The number that some bits spell, the lowest first. -/
def ofBitsLowFirst (bits : List Bool) : Nat := bits.foldr (fun b n => 2 * n + b.toNat) 0

/-- The number that some bits spell, the highest first. -/
def ofBitsHighFirst (bits : List Bool) : Nat := bits.foldl (fun n b => 2 * n + b.toNat) 0

/-- Either order of the bits of a byte spells its number in the matching order of numbers. -/
example : (List.range 256).all (fun n =>
    ofBitsLowFirst (bitsLowFirst [UInt8.ofNat n]) = n ∧
      ofBitsHighFirst (bitsHighFirst [UInt8.ofNat n]) = n) := by decide +kernel

/-- The number that some bytes spell, the lowest byte first. -/
def ofBytesLowFirst (bytes : Bytes) : Nat := bytes.foldr (fun b n => n * 256 + b.toNat) 0

namespace ByteIntake

/-- The number that the next `n` bytes spell, the lowest first. -/
def number (n : Nat) : Intake UInt8 Nat := ofBytesLowFirst <$> Intake.take n

end ByteIntake

/-- Taking bits off the front of a sequence of them. -/
abbrev BitIntake := Intake Bool

namespace BitIntake

/-- The number that the next `n` bits spell, the lowest first. -/
def numberLowFirst (n : Nat) : BitIntake Nat := ofBitsLowFirst <$> Intake.take n

/-- The number that the next `n` bits spell, the highest first. -/
def numberHighFirst (n : Nat) : BitIntake Nat := ofBitsHighFirst <$> Intake.take n

end BitIntake

end JavaMachine
