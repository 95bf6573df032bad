/-
# Values read back

A primitive value that was stored in bytes, or in a static slot, is the value that is loaded from
there.  Loading looks at as many bytes as the kind is wide and at no others.
-/
import JavaMachine.Value.Codec
import JavaMachine.Value.Slot
import Mathlib.Algebra.Group.Nat.Defs

namespace JavaMachine

/-! ## Little-endian words -/

/-- The lowest `n` bytes of a word spell the word up to its lowest `8 * n` bits. -/
theorem toNat_ofLittleEndian_littleEndian (n : Nat) (word : UInt64) (hn : n ≤ 8) :
    (ofLittleEndian (littleEndian n word)).toNat = word.toNat % 2 ^ (8 * n) := by
  induction n generalizing word with
  | zero => simp [littleEndian, ofLittleEndian, Nat.mod_one]
  | succ n ih =>
    have hrest := ih (word >>> 8) (by omega)
    have hlow : (word.toUInt8.toUInt64).toNat = word.toNat % 2 ^ 8 := by simp
    have hhigh : (word >>> 8).toNat = word.toNat / 2 ^ 8 := by
      simp [Nat.shiftRight_eq_div_pow]
    -- Shifted back into place, the bytes above the lowest one still fit a word.
    have hsmall : word.toNat / 2 ^ 8 % 2 ^ (8 * n) * 2 ^ 8 < 2 ^ 64 := by
      have := Nat.mod_le (word.toNat / 2 ^ 8) (2 ^ (8 * n))
      have := word.toNat_lt
      omega
    rw [littleEndian, ofLittleEndian, UInt64.toNat_or, UInt64.toNat_shiftLeft, hrest, hlow, hhigh,
      show (8 : UInt64).toNat % 64 = 8 from rfl, Nat.shiftLeft_eq, Nat.mod_eq_of_lt hsmall,
      Nat.or_comm, ← Nat.shiftLeft_eq,
      ← Nat.shiftLeft_add_eq_or_of_lt (Nat.mod_lt _ (by decide)), Nat.shiftLeft_eq,
      show 8 * (n + 1) = 8 + 8 * n by omega, Nat.pow_add, Nat.mod_mul, Nat.mul_comm, Nat.add_comm]

/-! ## Payload bits -/

/-- The payload bits of a value fit the width of its kind. -/
theorem bits?_lt {v : Value} {p : Primitive} {bits : UInt64} (hv : v.tag = .primitive p)
    (hb : v.bits? = some bits) : bits.toNat < 2 ^ (8 * p.size) := by
  cases v with
  | reference r => cases hb
  | byte x =>
    cases hv
    cases hb
    rw [UInt8.toNat_toUInt64]
    exact x.toUInt8.toNat_lt
  | boolean x =>
    cases hv
    cases hb
    cases x <;> decide
  | char x =>
    cases hv
    cases hb
    rw [UInt16.toNat_toUInt64]
    exact x.toNat_lt
  | short x =>
    cases hv
    cases hb
    rw [UInt16.toNat_toUInt64]
    exact x.toUInt16.toNat_lt
  | float x =>
    cases hv
    cases hb
    rw [UInt32.toNat_toUInt64]
    exact x.toNat_lt
  | double x =>
    cases hv
    exact bits.toNat_lt
  | int x =>
    cases hv
    cases hb
    rw [UInt32.toNat_toUInt64]
    exact x.toUInt32.toNat_lt
  | long x =>
    cases hv
    exact bits.toNat_lt

/-- The payload bits of a primitive value spell that value. -/
theorem ofBits_eq {v : Value} {p : Primitive} {bits : UInt64} (hv : v.tag = .primitive p)
    (hb : v.bits? = some bits) : Value.ofBits p bits = v := by
  cases v with
  | reference r => cases hb
  | boolean x =>
    cases hv
    cases hb
    cases x <;> rfl
  | _ x =>
    cases hv
    cases hb
    simp [Value.ofBits]

/-! ## Bytes -/

/-- A primitive value that was written over the front of some bytes is read from there. -/
theorem loadValue?_storeValue? {v : Value} {p : Primitive} {bytes out : Bytes}
    (hv : v.tag = .primitive p) (h : storeValue? v bytes = some out) :
    loadValue? p out = some v := by
  have hlen := length_storeValue? h
  unfold storeValue? at h
  rw [hv] at h
  cases hb : v.bits? with
  | none =>
    rw [hb] at h
    cases h
  | some word =>
    simp only [hb] at h
    split at h
    · cases h
    · next hlt =>
      cases h
      rw [loadValue?, if_neg (hlen ▸ hlt), List.take_left' (length_littleEndian ..)]
      have hsize : p.size ≤ 8 := by cases p <;> decide
      have hword : ofLittleEndian (littleEndian p.size word) = word := by
        apply UInt64.toNat_inj.mp
        rw [toNat_ofLittleEndian_littleEndian _ _ hsize, Nat.mod_eq_of_lt (bits?_lt hv hb)]
      rw [hword, ofBits_eq hv hb]

/-- A load looks at the front of the bytes, as wide as the kind. -/
theorem loadValue?_congr {p : Primitive} {bytes bytes' : Bytes}
    (h : bytes.take p.size = bytes'.take p.size) : loadValue? p bytes = loadValue? p bytes' := by
  have hlen := congrArg List.length h
  rw [List.length_take, List.length_take] at hlen
  have hfew : bytes.length < p.size ↔ bytes'.length < p.size := by omega
  simp only [loadValue?, hfew, h]

/-- A load fails exactly on bytes that are too few. -/
theorem loadValue?_isSome_iff {p : Primitive} {bytes : Bytes} :
    (loadValue? p bytes).isSome ↔ p.size ≤ bytes.length := by
  rw [loadValue?]
  split
  · next h => simp only [Option.isSome_none, Bool.false_eq_true, false_iff]; omega
  · next h => simp only [Option.isSome_some, true_iff]; omega

/-- A store of a primitive value fails exactly on bytes that are too few. -/
theorem storeValue?_isSome_iff {v : Value} {p : Primitive} {bytes : Bytes}
    (hv : v.tag = .primitive p) : (storeValue? v bytes).isSome ↔ p.size ≤ bytes.length := by
  have hb : v.bits?.isSome := by rw [Value.bits?_isSome, hv]; rfl
  obtain ⟨word, hword⟩ := Option.isSome_iff_exists.mp hb
  rw [storeValue?, hv, hword]
  show (if bytes.length < p.size then none else some _).isSome ↔ _
  split
  · next h => simp only [Option.isSome_none, Bool.false_eq_true, false_iff]; omega
  · next h => simp only [Option.isSome_some, true_iff]; omega

/-- A store changes the front of the bytes only, as wide as the kind. -/
theorem drop_storeValue? {v : Value} {p : Primitive} {bytes out : Bytes} (hv : v.tag = .primitive p)
    (h : storeValue? v bytes = some out) : out.drop p.size = bytes.drop p.size := by
  unfold storeValue? at h
  rw [hv] at h
  split at h
  · next q word hq hb =>
    cases hq
    split at h
    · cases h
    · cases h
      rw [List.drop_left' (length_littleEndian ..)]
  · cases h

/-! ## Slots -/

/-- A value that was written to a static slot is read from there. -/
theorem Slot.load?_ofValue (v : Value) : (Slot.ofValue v).load? v.tag = some v := by
  cases ht : v.tag with
  | reference =>
    cases v with
    | reference r => rfl
    | _ => cases ht
  | primitive p =>
    have hb : v.bits?.isSome := by rw [Value.bits?_isSome, ht]; rfl
    obtain ⟨bits, hbits⟩ := Option.isSome_iff_exists.mp hb
    have hlt := bits?_lt ht hbits
    have hr : v.reference? = none := by cases v <;> first | rfl | cases hbits
    rw [Slot.ofValue, hr, hbits, ht]
    cases hw : p.isWide with
    | true =>
      show Slot.load? (if p.isWide then wide bits else _) _ = _
      rw [hw, if_pos rfl, Slot.load?, hw, if_pos rfl, ofBits_eq ht hbits]
    | false =>
      have hsize : bits.toNat < 2 ^ 32 :=
        Nat.lt_of_lt_of_le hlt (by cases p <;> first | decide | cases hw)
      have hword : bits.toUInt32.toUInt64 = bits := by
        apply UInt64.toNat_inj.mp
        rw [UInt32.toNat_toUInt64, UInt64.toNat_toUInt32, Nat.mod_eq_of_lt hsize]
      show Slot.load? (if p.isWide then _ else word bits.toUInt32) _ = _
      rw [hw, if_neg (by decide), Slot.load?, hw, if_neg (by decide), hword, ofBits_eq ht hbits]

end JavaMachine
