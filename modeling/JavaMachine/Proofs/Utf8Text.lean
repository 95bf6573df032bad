/-
# Text in UTF-8

The bytes of a text are those of its characters, one after the other (`utf8Bytes`).  A character of
ASCII is a byte of its own, and the bytes of any other character are none of ASCII.  So a byte of ASCII
stands for its character wherever it is met (`eq_of_mem_utf8EncodeChar`), and looking for a mark in the
bytes finds what looking for it in the text does.
-/
import JavaMachine.Proofs.ModifiedText

namespace JavaMachine

/-! ## Bytes of characters -/

/-- The bytes of some characters in UTF-8. -/
def utf8Bytes (cs : List Char) : Bytes := cs.flatMap String.utf8EncodeChar

/-- The bytes of a text are those of its characters in a row. -/
theorem toList_toUTF8 (s : String) : s.toUTF8.data.toList = utf8Bytes s.toList := by
  rw [String.toUTF8_eq_toByteArray, ← String.utf8Encode_toList]
  simp [List.utf8Encode, utf8Bytes]

theorem utf8Bytes_append (cs ds : List Char) : utf8Bytes (cs ++ ds) = utf8Bytes cs ++ utf8Bytes ds :=
  List.flatMap_append

/-- A character of ASCII is a byte of its own. -/
theorem utf8Bytes_cons_ascii {c : Char} (hc : c.toNat < 0x80) (cs : List Char) :
    utf8Bytes (c :: cs) = c.toUInt8 :: utf8Bytes cs := by
  rcases utf8EncodeChar_cases c with ⟨-, hbytes⟩ | ⟨hn, -⟩ | ⟨hn, -⟩ | ⟨hn, -⟩
  · rw [utf8Bytes, List.flatMap_cons, hbytes]
    rfl
  all_goals omega

/-- The bytes of any other character are none of ASCII. -/
theorem le_of_mem_utf8EncodeChar {c : Char} (hc : 0x80 ≤ c.toNat) {b : UInt8}
    (hb : b ∈ String.utf8EncodeChar c) : 0x80 ≤ b.toNat := by
  rcases utf8EncodeChar_cases c with ⟨hn, -⟩ | ⟨hn, hbytes⟩ | ⟨hn, hbytes⟩ | ⟨hn, hbytes⟩
  · omega
  all_goals
    rw [hbytes] at hb
    simp only [List.mem_cons, List.not_mem_nil, or_false, ← UInt8.toNat_inj,
      UInt8.toNat_ofNat'] at hb
    omega

/-- A character of ASCII is one byte. -/
theorem toNat_toUInt8 {c : Char} (hc : c.toNat < 0x80) : c.toUInt8.toNat = c.toNat := by
  show c.toNat % 256 = c.toNat
  omega

/-- A byte of ASCII is that character and a part of no other. -/
theorem eq_of_mem_utf8EncodeChar {a c : Char} (ha : a.toNat < 0x80)
    (h : a.toUInt8 ∈ String.utf8EncodeChar c) : c = a := by
  by_cases hc : c.toNat < 0x80
  · have hbytes := utf8Bytes_cons_ascii hc []
    simp only [utf8Bytes, List.flatMap_cons, List.flatMap_nil, List.append_nil] at hbytes
    rw [hbytes, List.mem_singleton, ← UInt8.toNat_inj, toNat_toUInt8 ha, toNat_toUInt8 hc] at h
    exact Char.toNat_inj.mp h.symm
  · have hle := le_of_mem_utf8EncodeChar (Nat.le_of_not_lt hc) h
    rw [toNat_toUInt8 ha] at hle
    omega

/-- The first byte of some characters is one of ASCII exactly when the first character is. -/
theorem utf8Bytes_cons_cases (c : Char) (cs : List Char) :
    (c.toNat < 0x80 ∧ utf8Bytes (c :: cs) = c.toUInt8 :: utf8Bytes cs) ∨
      (0x80 ≤ c.toNat ∧ ∃ b bs, 0x80 ≤ b.toNat ∧ utf8Bytes (c :: cs) = b :: bs) := by
  by_cases hc : c.toNat < 0x80
  · exact Or.inl ⟨hc, utf8Bytes_cons_ascii hc cs⟩
  · right
    have hle := Nat.le_of_not_lt hc
    have hne : String.utf8EncodeChar c ≠ [] := by
      rw [← List.length_pos_iff, String.length_utf8EncodeChar]
      exact c.utf8Size_pos
    obtain ⟨b, bs, hbytes⟩ := List.exists_cons_of_ne_nil hne
    refine ⟨hle, b, bs ++ utf8Bytes cs, ?_, ?_⟩
    · apply le_of_mem_utf8EncodeChar hle
      rw [hbytes]
      exact List.mem_cons_self
    · rw [utf8Bytes, List.flatMap_cons, hbytes]
      rfl

/-- Characters of ASCII are told apart by their bytes. -/
theorem toUInt8_eq_iff {a b : Char} (ha : a.toNat < 0x80) (hb : b.toNat < 0x80) :
    a.toUInt8 = b.toUInt8 ↔ a = b := by
  rw [← UInt8.toNat_inj, toNat_toUInt8 ha, toNat_toUInt8 hb, Char.toNat_inj]

/-! ## Texts by their first bytes -/

/-- A text that does not begin with a mark of ASCII has another first byte. -/
theorem head_utf8Bytes_ne {a c : Char} (ha : a.toNat < 0x80) (hc : c ≠ a) (cs : List Char) :
    ∃ b bs, utf8Bytes (c :: cs) = b :: bs ∧ b ≠ a.toUInt8 := by
  rcases utf8Bytes_cons_cases c cs with ⟨hlt, hbytes⟩ | ⟨-, b, bs, hb, hbytes⟩
  · exact ⟨_, _, hbytes, mt (toUInt8_eq_iff hlt ha).mp hc⟩
  · refine ⟨b, bs, hbytes, ?_⟩
    rintro rfl
    rw [toNat_toUInt8 ha] at hb
    omega

theorem utf8Bytes_eq_nil {cs : List Char} : utf8Bytes cs = [] ↔ cs = [] := by
  cases cs with
  | nil => simp [utf8Bytes]
  | cons c cs =>
    rcases utf8Bytes_cons_cases c cs with ⟨-, hbytes⟩ | ⟨-, b, bs, -, hbytes⟩ <;> simp [hbytes]

/-- One byte of ASCII is the whole text only where its character is. -/
theorem utf8Bytes_eq_singleton {a : Char} (ha : a.toNat < 0x80) {cs : List Char} :
    utf8Bytes cs = [a.toUInt8] ↔ cs = [a] := by
  cases cs with
  | nil => simp [utf8Bytes]
  | cons c cs =>
    by_cases hc : c = a
    · subst hc
      rw [utf8Bytes_cons_ascii ha]
      simp [utf8Bytes_eq_nil]
    · obtain ⟨b, bs, hbytes, hb⟩ := head_utf8Bytes_ne ha hc cs
      simp [hbytes, hb, hc]

end JavaMachine
