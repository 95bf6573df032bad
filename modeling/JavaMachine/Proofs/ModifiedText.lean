/-
# Text in modified UTF-8

Class files spell text unit by unit (`encodeModified`): a unit takes one byte from 1 to 7F, two bytes
below 800, and three bytes otherwise, so NUL takes two bytes and a character beyond the basic plane a
surrogate pair of three bytes each.

`decodeModified?` tries plain UTF-8 first.  That does no harm: bytes that spell units and are plain
UTF-8 as well spell the same characters either way, because plain UTF-8 has neither a NUL of two bytes
nor a surrogate (`charsOfUnits_of_utf8Encode`).  So any units are read as the text that they spell
(`decodeModified?_encodeUnits`), and text is read back as it was written
(`decodeModified?_encodeModified`).
-/
import JavaMachine.Text.Modified
import Mathlib.Algebra.Group.Nat.Defs

namespace JavaMachine

/-! ## Spelling units -/

/-- The bytes of a unit. -/
def encodeUnit (u : UInt16) : Bytes :=
  let n := u.toNat
  if 0 < n ∧ n < 0x80 then [UInt8.ofNat n]
  else if n < 0x800 then [UInt8.ofNat (0xC0 + n / 64), UInt8.ofNat (0x80 + n % 64)]
  else [UInt8.ofNat (0xE0 + n / 4096), UInt8.ofNat (0x80 + n / 64 % 64), UInt8.ofNat (0x80 + n % 64)]

theorem length_encodeUnit_pos (u : UInt16) : 0 < (encodeUnit u).length := by
  unfold encodeUnit
  dsimp only
  split
  · simp
  · split <;> simp

/-- The bytes of a sequence of units. -/
def encodeUnits (units : List UInt16) : Bytes := units.flatMap encodeUnit

/-- The bytes of a text. -/
def encodeModified (s : String) : Bytes := encodeUnits (s.toList.flatMap utf16Units)

/-! ## Reading units back -/

/-- A continuation byte carries the six bits that were put into it. -/
theorem continuationBits?_ofNat {n : Nat} (hn : n < 64) :
    continuationBits? (UInt8.ofNat (0x80 + n)) = some (UInt16.ofNat n) := by
  have h : ∀ k : Fin 64, continuationBits? (UInt8.ofNat (0x80 + k.val)) = some (UInt16.ofNat k.val) := by
    decide +kernel
  exact h ⟨n, hn⟩

/-- The lead byte of two carries five bits. -/
theorem leadBits_two {n : Nat} (hn : n < 32) :
    (UInt8.ofNat (0xC0 + n) &&& 0x1F).toUInt16 = UInt16.ofNat n := by
  have h : ∀ k : Fin 32, (UInt8.ofNat (0xC0 + k.val) &&& 0x1F).toUInt16 = UInt16.ofNat k.val := by
    decide +kernel
  exact h ⟨n, hn⟩

/-- The lead byte of three carries four bits. -/
theorem leadBits_three {n : Nat} (hn : n < 16) :
    (UInt8.ofNat (0xE0 + n) &&& 0x0F).toUInt16 = UInt16.ofNat n := by
  have h : ∀ k : Fin 16, (UInt8.ofNat (0xE0 + k.val) &&& 0x0F).toUInt16 = UInt16.ofNat k.val := by
    decide +kernel
  exact h ⟨n, hn⟩

/-- Bits put side by side are the sum of a high part and a low part. -/
theorem shift_or_eq {high low : Nat} {bits : UInt16} (hbits : bits.toNat < 16)
    (hlow : low < 2 ^ bits.toNat) (hfit : high * 2 ^ bits.toNat + low < 2 ^ 16) :
    UInt16.ofNat high <<< bits ||| UInt16.ofNat low =
      UInt16.ofNat (high * 2 ^ bits.toNat + low) := by
  have hpos : 0 < 2 ^ bits.toNat := Nat.two_pow_pos _
  have hmul : high ≤ high * 2 ^ bits.toNat := Nat.le_mul_of_pos_right _ hpos
  apply UInt16.toNat_inj.mp
  rw [UInt16.toNat_or, UInt16.toNat_shiftLeft, UInt16.toNat_ofNat', UInt16.toNat_ofNat',
    UInt16.toNat_ofNat', Nat.mod_eq_of_lt hbits, Nat.mod_eq_of_lt (show high < 2 ^ 16 by omega),
    Nat.mod_eq_of_lt (show low < 2 ^ 16 by omega), Nat.mod_eq_of_lt hfit, Nat.shiftLeft_eq,
    Nat.mod_eq_of_lt (show high * 2 ^ bits.toNat < 2 ^ 16 by omega), ← Nat.shiftLeft_eq,
    ← Nat.shiftLeft_add_eq_or_of_lt hlow]

/-- Two bytes below 800 give the unit back. -/
theorem unit_of_two {n : Nat} (hn : n < 0x800) :
    (UInt8.ofNat (0xC0 + n / 64) &&& 0x1F).toUInt16 <<< 6 ||| UInt16.ofNat (n % 64) =
      UInt16.ofNat n := by
  have hlow : n % 64 < 2 ^ (6 : UInt16).toNat := Nat.mod_lt n (by decide)
  have hjoin : n / 64 * 2 ^ (6 : UInt16).toNat + n % 64 = n := Nat.div_add_mod' n 64
  rw [leadBits_two (by omega), shift_or_eq (by decide) hlow (by omega), hjoin]

/-- Three bytes give the unit back. -/
theorem unit_of_three {n : Nat} (hn : n < 2 ^ 16) :
    (UInt8.ofNat (0xE0 + n / 4096) &&& 0x0F).toUInt16 <<< 12 ||| UInt16.ofNat (n / 64 % 64) <<< 6 |||
      UInt16.ofNat (n % 64) = UInt16.ofNat n := by
  have hmiddle : n / 64 % 64 < 2 ^ (6 : UInt16).toNat := Nat.mod_lt _ (by decide)
  have hlow : n % 64 < 2 ^ (6 : UInt16).toNat := Nat.mod_lt n (by decide)
  have hhigh : n / 4096 * 2 ^ (6 : UInt16).toNat + n / 64 % 64 = n / 64 := by
    show n / 4096 * 64 + n / 64 % 64 = n / 64
    omega
  have hjoin : n / 64 * 2 ^ (6 : UInt16).toNat + n % 64 = n := Nat.div_add_mod' n 64
  -- The high part goes up in two steps of six bits, the first one together with the middle part.
  have htwice : ∀ a : UInt16, a <<< 12 = a <<< 6 <<< 6 := fun a =>
    UInt16.shiftLeft_add (a := a) (b := 6) (c := 6) (by decide) (by decide) (by decide)
  rw [leadBits_three (by omega), htwice, ← UInt16.shiftLeft_or,
    shift_or_eq (by decide) hmiddle (by omega), hhigh, shift_or_eq (by decide) hlow (by omega), hjoin]

/-- The comparisons of a lead byte are those of the number that it is. -/
theorem lead_lt_iff {n : Nat} (hn : n < 256) (b : UInt8) : UInt8.ofNat n < b ↔ n < b.toNat := by
  rw [UInt8.lt_iff_toNat_lt, UInt8.toNat_ofNat', Nat.mod_eq_of_lt hn]

theorem lead_ne_zero {n : Nat} (hpos : 0 < n) (hn : n < 256) : UInt8.ofNat n ≠ 0 := by
  intro h
  have hzero := congrArg UInt8.toNat h
  rw [UInt8.toNat_ofNat', Nat.mod_eq_of_lt hn] at hzero
  have hnone : (0 : UInt8).toNat = 0 := rfl
  omega

/-- The bytes of one unit in front of others give that unit. -/
theorem decodeUnits?_encodeUnit (u : UInt16) (rest : Bytes) :
    decodeUnits? (encodeUnit u ++ rest) = (decodeUnits? rest).map (u :: ·) := by
  have hu := u.toNat_lt
  have hsame : UInt16.ofNat u.toNat = u := UInt16.ofNat_toNat
  unfold encodeUnit
  dsimp only
  split
  · next h =>
    have hone : (UInt8.ofNat u.toNat).toUInt16 = u := by
      rw [← UInt16.toNat_inj, UInt8.toNat_toUInt16, UInt8.toNat_ofNat']
      omega
    rw [List.cons_append, List.nil_append, decodeUnits?.eq_def]
    dsimp only
    rw [if_neg (lead_ne_zero h.1 (by omega)), if_pos ((lead_lt_iff (by omega) _).mpr h.2), hone]
  · split
    · next h =>
      have hlead : 0xC0 + u.toNat / 64 < 256 := by omega
      rw [List.cons_append, List.cons_append, List.nil_append, decodeUnits?.eq_def]
      dsimp only
      rw [if_neg (lead_ne_zero (by omega) hlead),
        if_neg fun hc => absurd ((lead_lt_iff hlead 0x80).mp hc) (by simp; omega),
        if_neg fun hc => absurd ((lead_lt_iff hlead 0xC0).mp hc) (by simp),
        if_pos ((lead_lt_iff hlead 0xE0).mpr (by simp; omega)),
        continuationBits?_ofNat (Nat.mod_lt _ (by decide))]
      have hunit := unit_of_two h
      rw [hsame] at hunit
      cases decodeUnits? rest with
      | none => rfl
      | some units => exact congrArg (fun v => some (v :: units)) hunit
    · next h =>
      have hlead : 0xE0 + u.toNat / 4096 < 256 := by omega
      rw [List.cons_append, List.cons_append, List.cons_append, List.nil_append,
        decodeUnits?.eq_def]
      dsimp only
      rw [if_neg (lead_ne_zero (by omega) hlead),
        if_neg fun hc => absurd ((lead_lt_iff hlead 0x80).mp hc) (by simp; omega),
        if_neg fun hc => absurd ((lead_lt_iff hlead 0xC0).mp hc) (by simp; omega),
        if_neg fun hc => absurd ((lead_lt_iff hlead 0xE0).mp hc) (by simp),
        if_pos ((lead_lt_iff hlead 0xF0).mpr (by simp; omega)),
        continuationBits?_ofNat (Nat.mod_lt _ (by decide)),
        continuationBits?_ofNat (Nat.mod_lt _ (by decide))]
      have hunit := unit_of_three hu
      rw [hsame] at hunit
      cases decodeUnits? rest with
      | none => rfl
      | some units => exact congrArg (fun v => some (v :: units)) hunit

/-- Units are read back as they were spelled. -/
theorem decodeUnits?_encodeUnits (units : List UInt16) :
    decodeUnits? (encodeUnits units) = some units := by
  induction units with
  | nil => rfl
  | cons u units ih =>
    show decodeUnits? (encodeUnit u ++ encodeUnits units) = _
    rw [decodeUnits?_encodeUnit, ih, Option.map_some]

/-! ## Characters and their units -/

/-- A unit that is a character by itself is no surrogate. -/
theorem charsOfUnits_cons_char {u : UInt16} (hhigh : isHighSurrogate u = false)
    (hlow : isLowSurrogate u = false) (units : List UInt16) :
    charsOfUnits (u :: units) = Char.ofNat u.toNat :: charsOfUnits units := by
  cases units with
  | nil => simp [charsOfUnits, hhigh, hlow]
  | cons v units => simp [charsOfUnits, hhigh, hlow]

/-- A number of a character below the surrogates or above them is no surrogate. -/
theorem not_surrogate_of_char {u : UInt16} {c : Char} (h : u.toNat = c.toNat) :
    isHighSurrogate u = false ∧ isLowSurrogate u = false := by
  have hvalid : c.toNat < 0xD800 ∨ (0xDFFF < c.toNat ∧ c.toNat < 0x110000) := c.valid
  rw [← h] at hvalid
  unfold isHighSurrogate isLowSurrogate
  simp only [UInt16.le_iff_toNat_le, UInt16.lt_iff_toNat_lt, decide_eq_false_iff_not]
  show ¬ (0xD800 ≤ u.toNat ∧ u.toNat < 0xDC00) ∧ ¬ (0xDC00 ≤ u.toNat ∧ u.toNat < 0xE000)
  omega

/-- The units of a character in front of others give that character. -/
theorem charsOfUnits_utf16Units_append (c : Char) (units : List UInt16) :
    charsOfUnits (utf16Units c ++ units) = c :: charsOfUnits units := by
  have hvalid : c.toNat < 0xD800 ∨ (0xDFFF < c.toNat ∧ c.toNat < 0x110000) := c.valid
  unfold utf16Units
  split
  · next h =>
    have hunit : (UInt16.ofNat c.toNat).toNat = c.toNat := by
      rw [UInt16.toNat_ofNat', Nat.mod_eq_of_lt h]
    obtain ⟨hhigh, hlow⟩ := not_surrogate_of_char hunit
    rw [List.cons_append, List.nil_append, charsOfUnits_cons_char hhigh hlow, hunit,
      Char.ofNat_toNat]
  · next h =>
    dsimp only
    generalize hoffset : c.toNat - 0x10000 = offset
    have hhigh : (UInt16.ofNat (0xD800 + offset / 0x400)).toNat = 0xD800 + offset / 0x400 := by
      rw [UInt16.toNat_ofNat', Nat.mod_eq_of_lt (by omega)]
    have hlow : (UInt16.ofNat (0xDC00 + offset % 0x400)).toNat = 0xDC00 + offset % 0x400 := by
      rw [UInt16.toNat_ofNat', Nat.mod_eq_of_lt (by omega)]
    have hishigh : isHighSurrogate (UInt16.ofNat (0xD800 + offset / 0x400)) = true := by
      unfold isHighSurrogate
      rw [decide_eq_true_iff, UInt16.le_iff_toNat_le, UInt16.lt_iff_toNat_lt, hhigh]
      show 0xD800 ≤ _ ∧ _ < 0xDC00
      omega
    have hislow : isLowSurrogate (UInt16.ofNat (0xDC00 + offset % 0x400)) = true := by
      unfold isLowSurrogate
      rw [decide_eq_true_iff, UInt16.le_iff_toNat_le, UInt16.lt_iff_toNat_lt, hlow]
      show 0xDC00 ≤ _ ∧ _ < 0xE000
      omega
    have hpair : pairChar (UInt16.ofNat (0xD800 + offset / 0x400))
        (UInt16.ofNat (0xDC00 + offset % 0x400)) = c := by
      unfold pairChar
      rw [hhigh, hlow, show 0x10000 + (0xD800 + offset / 0x400 - 0xD800) * 0x400 +
        (0xDC00 + offset % 0x400 - 0xDC00) = c.toNat by omega, Char.ofNat_toNat]
    rw [List.cons_append, List.cons_append, List.nil_append, charsOfUnits, if_pos hishigh,
      if_pos hislow, hpair]

/-- Characters are got back from their units. -/
theorem charsOfUnits_flatMap_utf16Units (cs : List Char) :
    charsOfUnits (cs.flatMap utf16Units) = cs := by
  induction cs with
  | nil => rfl
  | cons c cs ih => rw [List.flatMap_cons, charsOfUnits_utf16Units_append, ih]

/-! ## Plain UTF-8 -/

/-- The bytes of a character in plain UTF-8, by how many there are. -/
theorem utf8EncodeChar_cases (c : Char) :
    (c.toNat < 0x80 ∧ String.utf8EncodeChar c = [UInt8.ofNat c.toNat]) ∨
      ((0x80 ≤ c.toNat ∧ c.toNat < 0x800) ∧ String.utf8EncodeChar c =
        [UInt8.ofNat (c.toNat / 64 % 32 + 192), UInt8.ofNat (c.toNat % 64 + 128)]) ∨
      ((0x800 ≤ c.toNat ∧ c.toNat < 0x10000) ∧ String.utf8EncodeChar c =
        [UInt8.ofNat (c.toNat / 4096 % 16 + 224), UInt8.ofNat (c.toNat / 64 % 64 + 128),
          UInt8.ofNat (c.toNat % 64 + 128)]) ∨
      (0x10000 ≤ c.toNat ∧ String.utf8EncodeChar c =
        [UInt8.ofNat (c.toNat / 262144 % 8 + 240), UInt8.ofNat (c.toNat / 4096 % 64 + 128),
          UInt8.ofNat (c.toNat / 64 % 64 + 128), UInt8.ofNat (c.toNat % 64 + 128)]) := by
  have hc : c.val.toNat = c.toNat := rfl
  unfold String.utf8EncodeChar
  dsimp only
  rw [hc]
  split
  · exact Or.inl ⟨by omega, rfl⟩
  · split
    · exact Or.inr (Or.inl ⟨by omega, rfl⟩)
    · split
      · exact Or.inr (Or.inr (Or.inl ⟨by omega, rfl⟩))
      · exact Or.inr (Or.inr (Or.inr ⟨by omega, rfl⟩))

/-- The bytes of a unit, by how many there are. -/
theorem encodeUnit_cases (u : UInt16) :
    ((0 < u.toNat ∧ u.toNat < 0x80) ∧ encodeUnit u = [UInt8.ofNat u.toNat]) ∨
      ((u.toNat = 0 ∨ 0x80 ≤ u.toNat ∧ u.toNat < 0x800) ∧ encodeUnit u =
        [UInt8.ofNat (0xC0 + u.toNat / 64), UInt8.ofNat (0x80 + u.toNat % 64)]) ∨
      (0x800 ≤ u.toNat ∧ encodeUnit u =
        [UInt8.ofNat (0xE0 + u.toNat / 4096), UInt8.ofNat (0x80 + u.toNat / 64 % 64),
          UInt8.ofNat (0x80 + u.toNat % 64)]) := by
  unfold encodeUnit
  dsimp only
  split
  · next h => exact Or.inl ⟨h, rfl⟩
  · split
    · exact Or.inr (Or.inl ⟨by omega, rfl⟩)
    · exact Or.inr (Or.inr ⟨by omega, rfl⟩)

/-- A character in plain UTF-8 that begins like a unit is that unit. -/
theorem utf8EncodeChar_append_eq {c : Char} {u : UInt16} {l l' : Bytes}
    (h : String.utf8EncodeChar c ++ l = encodeUnit u ++ l') : u.toNat = c.toNat ∧ l = l' := by
  have hvalid : c.toNat < 0xD800 ∨ (0xDFFF < c.toNat ∧ c.toNat < 0x110000) := c.valid
  have hu := u.toNat_lt
  -- The first byte tells how many there are on either side, and all of them together the number.
  rcases utf8EncodeChar_cases c with ⟨hn, hbytes⟩ | ⟨hn, hbytes⟩ | ⟨hn, hbytes⟩ | ⟨hn, hbytes⟩ <;>
  rcases encodeUnit_cases u with ⟨hk, hunit⟩ | ⟨hk, hunit⟩ | ⟨hk, hunit⟩ <;>
  simp only [hbytes, hunit, List.cons_append, List.nil_append, List.cons.injEq, ← UInt8.toNat_inj,
    UInt8.toNat_ofNat'] at h
  all_goals first
    | exact ⟨by omega, h.2⟩
    | exact ⟨by omega, h.2.2⟩
    | exact ⟨by omega, h.2.2.2⟩
    | omega

/-- Bytes that are plain UTF-8 and spell units spell the same characters either way. -/
theorem charsOfUnits_of_utf8Encode {cs : List Char} {units : List UInt16}
    (h : cs.flatMap String.utf8EncodeChar = encodeUnits units) : charsOfUnits units = cs := by
  induction cs generalizing units with
  | nil =>
    cases units with
    | nil => rfl
    | cons u units =>
      have hlength := congrArg List.length h
      have hpos := length_encodeUnit_pos u
      simp only [encodeUnits, List.flatMap_nil, List.flatMap_cons, List.length_append,
        List.length_nil] at hlength
      omega
  | cons c cs ih =>
    cases units with
    | nil =>
      have hlength := congrArg List.length h
      have hpos := c.utf8Size_pos
      simp only [encodeUnits, List.flatMap_nil, List.flatMap_cons, List.length_append,
        List.length_nil, String.length_utf8EncodeChar] at hlength
      omega
    | cons u units =>
      have hsplit : String.utf8EncodeChar c ++ cs.flatMap String.utf8EncodeChar =
          encodeUnit u ++ encodeUnits units := h
      obtain ⟨hu, hrest⟩ := utf8EncodeChar_append_eq hsplit
      obtain ⟨hhigh, hlow⟩ := not_surrogate_of_char hu
      rw [charsOfUnits_cons_char hhigh hlow, ih hrest, hu, Char.ofNat_toNat]

/-- Units in bytes are read as the text that they spell, whichever way the bytes are taken. -/
theorem decodeModified?_encodeUnits (units : List UInt16) :
    decodeModified? (encodeUnits units) = some (String.ofList (charsOfUnits units)) := by
  unfold decodeModified?
  split
  · next t ht =>
    unfold String.fromUTF8? at ht
    split at ht
    · next hvalid =>
      cases ht
      obtain ⟨cs, hcs⟩ := hvalid
      have hbytes : cs.flatMap String.utf8EncodeChar = encodeUnits units := by
        have hlist := congrArg (fun b : ByteArray => b.data.toList) hcs
        simpa [List.utf8Encode] using hlist.symm
      have hutf8 : (String.ofList (charsOfUnits units)).toByteArray = cs.utf8Encode := by
        rw [charsOfUnits_of_utf8Encode hbytes, String.toByteArray_ofList]
      exact congrArg some (String.toByteArray_inj.mp (hcs.trans hutf8.symm))
    · cases ht
  · rw [decodeUnits?_encodeUnits, Option.map_some]

/-- Text is read back as it was written. -/
theorem decodeModified?_encodeModified (s : String) :
    decodeModified? (encodeModified s) = some s := by
  rw [encodeModified, decodeModified?_encodeUnits, charsOfUnits_flatMap_utf16Units,
    String.ofList_toList]

end JavaMachine
