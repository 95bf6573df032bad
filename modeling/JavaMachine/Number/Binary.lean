/-
# Binary floating point, on bit patterns

Floating-point values are kept as the bit patterns of the binary interchange formats, so that
storing and comparing them is exact. This file holds the two conversions that widening needs:

* `BinaryFormat.ofInt` rounds an integer to the nearest number of a format, a tie going to the even
  significand;
* `doubleOfSingle` gives the binary64 pattern of a binary32 pattern, which is always exact.
-/

namespace JavaMachine

/-! ## Formats -/

/-- A binary interchange format: bits of significand (the hidden one included) and bits of
exponent. -/
structure BinaryFormat where
  precision : Nat
  exponentBits : Nat
deriving DecidableEq, Repr

namespace BinaryFormat

def single : BinaryFormat := ⟨24, 8⟩

def double : BinaryFormat := ⟨53, 11⟩

/-- What is added to an exponent before it is stored. -/
def bias (f : BinaryFormat) : Nat := (1 <<< (f.exponentBits - 1)) - 1

/-- The position of the sign bit. -/
def signBit (f : BinaryFormat) : Nat := f.precision - 1 + f.exponentBits

/-! ## Rounding integers -/

/-- `n` without its lowest `shift` bits, rounded to the nearest integer by what they hold; a tie goes
to the even one. -/
def roundShift (n shift : Nat) : Nat :=
  let quotient := n >>> shift
  let rest := n % (1 <<< shift)
  let half := (1 <<< shift) / 2
  if half < rest ∨ (rest = half ∧ 0 < shift ∧ quotient % 2 = 1) then quotient + 1 else quotient

/-- The pattern of the number of format `f` that is nearest to the positive integer `n`. When the
significand is rounded up to the next power of two, the carry runs into the exponent field, which
is the right pattern again. -/
def ofPositive (f : BinaryFormat) (n : Nat) : Nat :=
  let exponent := n.log2
  let significand :=
    if exponent < f.precision then n <<< (f.precision - 1 - exponent)
    else roundShift n (exponent + 1 - f.precision)
  ((exponent + f.bias) <<< (f.precision - 1)) + (significand - 1 <<< (f.precision - 1))

/-- The pattern of the number of format `f` that is nearest to `x`; zero is the positive zero. -/
def ofInt (f : BinaryFormat) (x : Int) : Nat :=
  if x = 0 then 0
  else (if x < 0 then 1 <<< f.signBit else 0) + f.ofPositive x.natAbs

end BinaryFormat

/-- The binary32 pattern nearest to an integer. -/
def singleOfInt (x : Int) : UInt32 := UInt32.ofNat (BinaryFormat.single.ofInt x)

/-- The binary64 pattern nearest to an integer. -/
def doubleOfInt (x : Int) : UInt64 := UInt64.ofNat (BinaryFormat.double.ofInt x)

/-! ## Widening a pattern -/

/-- The binary64 pattern of a binary32 pattern. Subnormal numbers become normal ones; a NaN keeps
its payload and becomes quiet. -/
def doubleOfSingle (bits : UInt32) : UInt64 :=
  let sign := bits.toNat >>> 31
  let exponent := bits.toNat >>> 23 % 256
  let fraction := bits.toNat % (1 <<< 23)
  let magnitude :=
    if exponent = 255 then
      (2047 <<< 52) + (fraction <<< 29 ||| if fraction = 0 then 0 else 1 <<< 51)
    else if exponent = 0 then
      if fraction = 0 then 0
      else
        let top := fraction.log2
        ((top + 874) <<< 52) + ((fraction - 1 <<< top) <<< (52 - top))
    else ((exponent + 896) <<< 52) + (fraction <<< 29)
  UInt64.ofNat ((sign <<< 63) + magnitude)

/-! ## Patterns to read -/

example : singleOfInt 1 = 0x3f800000 ∧ singleOfInt (-2) = 0xc0000000 ∧ singleOfInt 0 = 0 := by
  decide +kernel
example : singleOfInt 16777217 = 0x4b800000 ∧ singleOfInt 16777219 = 0x4b800002 := by
  decide +kernel
example : doubleOfInt 9223372036854775807 = 0x43e0000000000000 := by decide +kernel
example : doubleOfSingle 0x3f800000 = 0x3ff0000000000000 ∧ doubleOfSingle 1 = 0x36a0000000000000 ∧
    doubleOfSingle 0x80000000 = 0x8000000000000000 ∧
    doubleOfSingle 0x7fc00000 = 0x7ff8000000000000 := by
  decide +kernel

end JavaMachine
