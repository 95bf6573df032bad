/-
# Contents of archives

What an archive gives out has the check sum that its directory lists (`contents?_eq_some_iff`). A check
sum tells contents apart that differ in one byte: each step of the division can be told from its result
(`injective_of_toNat_eq_xor`), so taking a byte into the remainder loses nothing of either. An archive therefore
never gives out contents with one byte changed (`contents?_ne_of_byte_ne`).
-/
import JavaMachine.Archive.Zip
import JavaMachine.Proofs.Inflating
import Mathlib.Data.Nat.Bitwise

namespace JavaMachine

/-! ## Check sums -/

/-- Where a step moves a remainder by one place and adds a polynomial if a one is moved out, and only the
polynomial has a one at some place, the result tells whether it was added, so nothing is lost. -/
theorem injective_of_toNat_eq_xor {step : UInt32 → UInt32} {moved : UInt32 → Nat} {out : UInt32 → Prop}
    [DecidablePred out] {polynomial place : Nat}
    (hstep : ∀ c, (step c).toNat = moved c ^^^ (if out c then polynomial else 0))
    (hmoved : ∀ c, (moved c).testBit place = false) (hplace : polynomial.testBit place = true)
    (hback : ∀ c d, (out c ↔ out d) → moved c = moved d → c = d) : Function.Injective step := by
  have hbit : ∀ c, (step c).toNat.testBit place = decide (out c) := by
    intro c
    rw [hstep, Nat.testBit_xor, hmoved, Bool.false_xor]
    split <;> rename_i h <;> simp [h, hplace]
  intro c d h
  have hout : out c ↔ out d := by rw [← decide_eq_decide, ← hbit, ← hbit, h]
  have hsame := congrArg UInt32.toNat h
  rw [hstep, hstep, if_congr hout rfl rfl, Nat.xor_left_inj] at hsame
  exact hback c d hout hsame

/-- A step moves the remainder down, and adds the check polynomial where a one is moved out. -/
theorem toNat_crcStep (c : UInt32) :
    (crcStep c).toNat = c.toNat / 2 ^^^ (if c.toNat % 2 = 1 then 0xEDB88320 else 0) := by
  have hlow : (c &&& 1 = 1) ↔ c.toNat % 2 = 1 := by
    rw [← UInt32.toNat_inj, UInt32.toNat_and]
    exact Iff.of_eq (congrArg (· = 1) (Nat.and_one_is_mod _))
  have hshift : (c >>> 1).toNat = c.toNat / 2 := by
    rw [UInt32.toNat_shiftRight]
    exact Nat.shiftRight_eq_div_pow _ 1
  unfold crcStep
  split
  · rename_i h
    rw [UInt32.toNat_xor, hshift, if_pos (hlow.mp h)]
    rfl
  · rename_i h
    rw [hshift, if_neg (fun hbit => h (hlow.mpr hbit)), Nat.xor_zero]

/-- Whether a one was moved out is the highest bit of the result. -/
theorem crcStep_injective : Function.Injective crcStep := by
  refine injective_of_toNat_eq_xor toNat_crcStep (fun c => ?_)
    (by decide : (0xEDB88320 : Nat).testBit 31 = true) fun c d hout hmoved => ?_
  · have hc := c.toNat_lt
    exact Nat.testBit_lt_two_pow (by omega)
  · apply UInt32.toNat_inj.mp
    omega

/-- A step moves the remainder up, and adds the check polynomial where a one is moved out. -/
theorem toNat_crcStepHighFirst (c : UInt32) :
    (crcStepHighFirst c).toNat =
      2 * c.toNat % 2 ^ 32 ^^^ (if c.toNat / 2 ^ 31 = 1 then 0x04C11DB7 else 0) := by
  have hhigh : (c >>> 31 = 1) ↔ c.toNat / 2 ^ 31 = 1 := by
    rw [← UInt32.toNat_inj, UInt32.toNat_shiftRight]
    exact Iff.of_eq (congrArg (· = 1) (Nat.shiftRight_eq_div_pow _ 31))
  have hshift : (c <<< 1).toNat = 2 * c.toNat % 2 ^ 32 := by
    rw [UInt32.toNat_shiftLeft]
    exact congrArg (· % 2 ^ 32) ((Nat.shiftLeft_eq _ 1).trans (Nat.mul_comm _ _))
  unfold crcStepHighFirst
  split
  · rename_i h
    rw [UInt32.toNat_xor, hshift, if_pos (hhigh.mp h)]
    rfl
  · rename_i h
    rw [hshift, if_neg (fun hbit => h (hhigh.mpr hbit)), Nat.xor_zero]

/-- Whether a one was moved out is the lowest bit of the result. -/
theorem crcStepHighFirst_injective : Function.Injective crcStepHighFirst := by
  refine injective_of_toNat_eq_xor toNat_crcStepHighFirst (fun c => ?_)
    (by decide : (0x04C11DB7 : Nat).testBit 0 = true) fun c d hout hmoved => ?_
  · rw [Nat.testBit_zero]
    exact decide_eq_false (by omega)
  · have hc := c.toNat_lt
    have hd := d.toNat_lt
    apply UInt32.toNat_inj.mp
    omega

/-- A byte and the remainder that it is taken into are both told by the result and the other one. -/
theorem crcByte_injective :
    (∀ b, Function.Injective fun c => crcByte c b) ∧ ∀ c, Function.Injective (crcByte c) := by
  have hbyte : ∀ c b, crcByte c b = crcStep^[8] (c ^^^ b.toUInt32) := fun _ _ => rfl
  constructor
  · intro b c d h
    simp only [hbyte] at h
    exact (UInt32.xor_left_inj _).mp (crcStep_injective.iterate 8 h)
  · intro c a b h
    rw [hbyte, hbyte] at h
    exact UInt8.toUInt32_inj.mp ((UInt32.xor_right_inj _).mp (crcStep_injective.iterate 8 h))

/-- The same with the highest bit first. -/
theorem crcByteHighFirst_injective :
    (∀ b, Function.Injective fun c => crcByteHighFirst c b) ∧
      ∀ c, Function.Injective (crcByteHighFirst c) := by
  have hbyte : ∀ c b, crcByteHighFirst c b = crcStepHighFirst^[8] (c ^^^ (b.toUInt32 <<< 24)) :=
    fun _ _ => rfl
  have hmoved : ∀ b : UInt8, (b.toUInt32 <<< 24).toNat = b.toNat * 2 ^ 24 := by
    intro b
    have hb := b.toNat_lt
    rw [UInt32.toNat_shiftLeft, UInt8.toNat_toUInt32]
    show b.toNat <<< 24 % 2 ^ 32 = _
    rw [Nat.shiftLeft_eq, Nat.mod_eq_of_lt (by omega)]
  constructor
  · intro b c d h
    simp only [hbyte] at h
    exact (UInt32.xor_left_inj _).mp (crcStepHighFirst_injective.iterate 8 h)
  · intro c a b h
    rw [hbyte, hbyte] at h
    have hsame := congrArg UInt32.toNat
      ((UInt32.xor_right_inj _).mp (crcStepHighFirst_injective.iterate 8 h))
    rw [hmoved, hmoved] at hsame
    exact UInt8.toNat_inj.mp (by omega)

/-- A sum that loses nothing, neither of what it was nor of the item that it takes in, tells lists apart that
differ in one item. -/
theorem foldl_ne_of_ne {α β : Type} {f : β → α → β} (hf : (∀ a, Function.Injective fun s => f s a) ∧
    ∀ s, Function.Injective (f s)) {a b : α} (h : a ≠ b) (front rest : List α) (s : β) :
    (front ++ a :: rest).foldl f s ≠ (front ++ b :: rest).foldl f s := by
  rw [List.foldl_append, List.foldl_append, List.foldl_cons, List.foldl_cons]
  have hrest : ∀ (rest : List α) (s t : β), s ≠ t → rest.foldl f s ≠ rest.foldl f t := by
    intro rest
    induction rest with
    | nil => exact fun _ _ h => h
    | cons c rest ih => exact fun s t h => ih _ _ fun heq => h (hf.1 c heq)
  exact hrest rest _ _ fun heq => h (hf.2 _ heq)

/-- Contents that differ in one byte have different check sums. -/
theorem crc32_ne_of_byte_ne {a b : UInt8} (h : a ≠ b) (front rest : Bytes) :
    crc32 (front ++ a :: rest) ≠ crc32 (front ++ b :: rest) := fun heq =>
  foldl_ne_of_ne crcByte_injective h front rest _ ((UInt32.xor_left_inj _).mp heq)

/-- So have blocks whose sums take the highest bit first. -/
theorem crc32HighFirst_ne_of_byte_ne {a b : UInt8} (h : a ≠ b) (front rest : Bytes) :
    crc32HighFirst (front ++ a :: rest).toArray ≠ crc32HighFirst (front ++ b :: rest).toArray := by
  intro heq
  unfold crc32HighFirst at heq
  rw [UInt32.xor_left_inj, List.foldl_toArray, List.foldl_toArray] at heq
  exact foldl_ne_of_ne crcByteHighFirst_injective h front rest _ heq

namespace Archive

variable {a : Archive} {e : ArchiveEntry} {name : String} {bytes : Bytes}

/-! ## Entries -/

/-- The entry of a name is the one of its name behind which no other has it. -/
theorem entry?_eq_some_iff : a.entry? name = some e ↔ e.name = name ∧
    ∃ before after, a.entries = before ++ e :: after ∧ ∀ e' ∈ after, e'.name ≠ name := by
  unfold entry?
  rw [List.find?_eq_some_iff_append, decide_eq_true_eq]
  refine and_congr_right fun _ => ?_
  constructor
  · rintro ⟨after, before, h, hafter⟩
    refine ⟨before.reverse, after.reverse, ?_, fun e' he' => ?_⟩
    · rw [← List.reverse_reverse a.entries, h]
      simp
    · simpa using hafter e' (List.mem_reverse.mp he')
  · rintro ⟨before, after, h, hafter⟩
    refine ⟨after.reverse, before.reverse, ?_, fun e' he' => ?_⟩
    · rw [h]
      simp
    · simpa using hafter e' (List.mem_reverse.mp he')

/-! ## Contents -/

/-- What contents are when they are not compressed any more. -/
def decompressed? (size : Nat) (data : Bytes) : Compression → Option Bytes
  | .stored => some data
  | .deflated => inflate? data
  | .blockSorted => bunzip2? data
  | .zstandard => Zstandard.decompress? size data

/-- What is given out is stored where the entry says, and has the check sum of the entry. -/
theorem contents?_eq_some_iff : a.contents? e = some bytes ↔ ∃ compression data,
    a.stored? e = some (compression, data) ∧ decompressed? e.size data compression = some bytes ∧
      crc32 bytes = e.checkSum := by
  have hcontents : a.contents? e = (a.stored? e).bind fun r => (decompressed? e.size r.2 r.1).bind
      fun bytes => if crc32 bytes = e.checkSum then some bytes else none := by
    unfold contents?
    rcases a.stored? e with _ | ⟨_ | _ | _ | _, data⟩ <;> rfl
  rw [hcontents, Option.bind_eq_some_iff]
  constructor
  · rintro ⟨⟨compression, data⟩, hstored, h⟩
    obtain ⟨bytes', hdata, h⟩ := Option.bind_eq_some_iff.mp h
    split at h
    · rename_i hsum
      cases h
      exact ⟨compression, data, hstored, hdata, hsum⟩
    · cases h
  · rintro ⟨compression, data, hstored, hdata, hsum⟩
    exact ⟨_, hstored, Option.bind_eq_some_iff.mpr ⟨bytes, hdata, if_pos hsum⟩⟩

/-- A name under which an archive has contents is one that it contains. -/
theorem contains_of_find? (h : a.find? name = some bytes) : a.contains name = true := by
  obtain ⟨e, he, hbytes⟩ := Option.bind_eq_some_iff.mp h
  obtain ⟨_, _, hstored, _, _⟩ := contents?_eq_some_iff.mp hbytes
  show ((a.entry? name).bind a.stored?).isSome = true
  rw [he, Option.bind_some, hstored]
  rfl

/-- However an archive is damaged, under an entry of the same check sum it does not give out contents
with one byte changed. -/
theorem contents?_ne_of_byte_ne {a' : Archive} {e' : ArchiveEntry} (hsum : e'.checkSum = e.checkSum)
    {front rest : Bytes} {b c : UInt8} (h : a.contents? e = some (front ++ b :: rest)) (hne : b ≠ c) :
    a'.contents? e' ≠ some (front ++ c :: rest) := by
  intro h'
  obtain ⟨_, _, _, _, hb⟩ := contents?_eq_some_iff.mp h
  obtain ⟨_, _, _, _, hc⟩ := contents?_eq_some_iff.mp h'
  rw [hsum, ← hb] at hc
  exact crc32_ne_of_byte_ne hne front rest hc.symm

/-- Contents that are deflated without being shortened are given out as they went in. -/
theorem contents?_of_storedStream {chunks : List Bytes} {last behind : Bytes}
    (hchunks : ∀ chunk ∈ chunks, chunk.length ≤ 0xFFFF) (hlast : last.length ≤ 0xFFFF)
    (h : a.stored? e = some (.deflated, Deflate.storedStream chunks last ++ behind))
    (hsum : crc32 (chunks.flatten ++ last) = e.checkSum) :
    a.contents? e = some (chunks.flatten ++ last) :=
  contents?_eq_some_iff.mpr ⟨_, _, h, inflate?_storedStream hchunks hlast behind, hsum⟩

end Archive

end JavaMachine
