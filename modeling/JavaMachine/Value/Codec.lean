/-
# Values in memory

Instance fields and array elements of a primitive kind are stored little-endian, at the width of
their kind, in a sequence of bytes. `loadValue?` reads the value at the front of such a sequence and
`storeValue?` overwrites it, which keeps the number of bytes.
-/
import JavaMachine.Text.Modified
import JavaMachine.Value

namespace JavaMachine

/-! ## Little-endian words -/

/-- The lowest `n` bytes of a word, the lowest first. -/
def littleEndian : Nat → UInt64 → Bytes
  | 0, _ => []
  | n + 1, word => word.toUInt8 :: littleEndian n (word >>> 8)

/-- The word that a sequence of bytes spells, the lowest byte first. -/
def ofLittleEndian : Bytes → UInt64
  | [] => 0
  | b :: rest => b.toUInt64 ||| ofLittleEndian rest <<< 8

theorem length_littleEndian (n : Nat) (word : UInt64) : (littleEndian n word).length = n := by
  induction n generalizing word with
  | zero => rfl
  | succ n ih => simp [littleEndian, ih]

/-! ## Loading and storing -/

/-- The value of a primitive kind at the front of some bytes; `none` when they are too few. -/
def loadValue? (p : Primitive) (bytes : Bytes) : Option Value :=
  if bytes.length < p.size then none
  else some (.ofBits p (ofLittleEndian (bytes.take p.size)))

/-- The bytes with a primitive value written over their front; `none` when they are too few, or
when the value is a reference, which is not kept in bytes. -/
def storeValue? (v : Value) (bytes : Bytes) : Option Bytes :=
  match v.tag, v.bits? with
  | .primitive p, some word =>
    if bytes.length < p.size then none
    else some (littleEndian p.size word ++ bytes.drop p.size)
  | _, _ => none

/-- Storing keeps the number of bytes. -/
theorem length_storeValue? {v : Value} {bytes out : Bytes} (h : storeValue? v bytes = some out) :
    out.length = bytes.length := by
  unfold storeValue? at h
  split at h
  · split at h
    · cases h
    · cases h
      simp [length_littleEndian]
      omega
  · cases h

end JavaMachine
