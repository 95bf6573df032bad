/-
# Text from any UTF-16 units

What a sequence of units spells, told place by place (`charAt?`).  A surrogate pair stands wherever a
high surrogate is directly followed by a low one (`pairAt?`): the character of the pair stands at the
first of the two places, and nothing at the second.  A surrogate at any other place is unpaired and
becomes U+FFFD, and every other unit is a character by itself.

Whether a unit belongs to a pair is thus seen from its two neighbours alone, because no unit is a
high and a low surrogate at once.  Reading the units from left to right comes to the same text
(`charsOfUnits_eq_placedChars`), and so does decoding their bytes, whichever of its two ways
`decodeModified?` takes (`decodeModified?_spells`).
-/
import JavaMachine.Proofs.ModifiedText

namespace JavaMachine

/-- The character of the surrogate pair that begins at a place, if one does. -/
def pairAt? (units : List UInt16) (i : Nat) : Option Char :=
  match units[i]?, units[i + 1]? with
  | some u, some v => if isHighSurrogate u ∧ isLowSurrogate v then some (pairChar u v) else none
  | _, _ => none

/-- Whether a surrogate pair ends at a place. -/
def endsPair (units : List UInt16) : Nat → Bool
  | 0 => false
  | i + 1 => (pairAt? units i).isSome

/-- The character that the unit at a place puts into the text, if any. -/
def charAt? (units : List UInt16) (i : Nat) : Option Char :=
  match pairAt? units i with
  | some c => some c
  | none =>
    if endsPair units i then none
    else units[i]?.map fun u =>
      if isHighSurrogate u ∨ isLowSurrogate u then replacementChar else Char.ofNat u.toNat

/-- The text of units, a place at a time. -/
def placedChars (units : List UInt16) : List Char :=
  (List.range units.length).filterMap (charAt? units)

/-! ## One unit in front -/

/-- No unit opens a pair and closes one. -/
theorem isHighSurrogate_eq_false_of_low {u : UInt16} (h : isLowSurrogate u = true) :
    isHighSurrogate u = false := by
  unfold isLowSurrogate at h
  unfold isHighSurrogate
  rw [decide_eq_true_iff, UInt16.le_iff_toNat_le, UInt16.lt_iff_toNat_lt] at h
  rw [decide_eq_false_iff_not, UInt16.le_iff_toNat_le, UInt16.lt_iff_toNat_lt]
  have hsame : (0xDC00 : UInt16).toNat = 0xDC00 := rfl
  omega

@[simp] theorem pairAt?_cons_succ (u : UInt16) (units : List UInt16) (i : Nat) :
    pairAt? (u :: units) (i + 1) = pairAt? units i := rfl

@[simp] theorem pairAt?_singleton (u : UInt16) : pairAt? [u] 0 = none := rfl

theorem pairAt?_cons_cons (u v : UInt16) (units : List UInt16) :
    pairAt? (u :: v :: units) 0 =
      if isHighSurrogate u ∧ isLowSurrogate v then some (pairChar u v) else none := rfl

/-- In front of what is no pair, places are moved on by one. -/
theorem endsPair_cons_succ {u : UInt16} {units : List UInt16} (h : pairAt? (u :: units) 0 = none)
    (i : Nat) : endsPair (u :: units) (i + 1) = endsPair units i := by
  cases i with
  | zero => simp [endsPair, h]
  | succ i => rfl

/-- A unit in front that opens no pair leaves the places behind it as they are. -/
theorem charAt?_cons_succ {u : UInt16} {units : List UInt16} (h : pairAt? (u :: units) 0 = none)
    (i : Nat) : charAt? (u :: units) (i + 1) = charAt? units i := by
  unfold charAt?
  rw [pairAt?_cons_succ, endsPair_cons_succ h, List.getElem?_cons_succ]

/-- A unit outside of pairs stands for itself, or is replaced. -/
theorem placedChars_cons_of_unpaired {u : UInt16} {units : List UInt16}
    (h : pairAt? (u :: units) 0 = none) :
    placedChars (u :: units) =
      (if isHighSurrogate u ∨ isLowSurrogate u then replacementChar else Char.ofNat u.toNat) ::
        placedChars units := by
  have hhead : charAt? (u :: units) 0 =
      some (if isHighSurrogate u ∨ isLowSurrogate u then replacementChar
        else Char.ofNat u.toNat) := by
    unfold charAt?
    rw [h]
    rfl
  have htail : charAt? (u :: units) ∘ Nat.succ = charAt? units := funext (charAt?_cons_succ h)
  unfold placedChars
  rw [List.length_cons, List.range_succ_eq_map, List.filterMap_cons_some hhead,
    List.filterMap_map, htail]

/-- A pair stands for one character. -/
theorem placedChars_cons_of_pair {u v : UInt16} (units : List UInt16)
    (hu : isHighSurrogate u = true) (hv : isLowSurrogate v = true) :
    placedChars (u :: v :: units) = pairChar u v :: placedChars units := by
  have hpair : pairAt? (u :: v :: units) 0 = some (pairChar u v) := by
    rw [pairAt?_cons_cons, if_pos ⟨hu, hv⟩]
  -- The low surrogate opens no pair, so the units behind it do not depend on it.
  have hnone : pairAt? (v :: units) 0 = none := by
    have hlow := isHighSurrogate_eq_false_of_low hv
    cases units with
    | nil => rfl
    | cons w units => simp [pairAt?_cons_cons, hlow]
  have hfirst : charAt? (u :: v :: units) 0 = some (pairChar u v) := by
    unfold charAt?
    rw [hpair]
  have hsecond : (charAt? (u :: v :: units) ∘ Nat.succ) 0 = none := by
    show charAt? (u :: v :: units) 1 = none
    unfold charAt?
    rw [pairAt?_cons_succ, hnone]
    simp [endsPair, hpair]
  have hrest : (charAt? (u :: v :: units) ∘ Nat.succ) ∘ Nat.succ = charAt? units := by
    funext i
    refine Eq.trans ?_ (charAt?_cons_succ hnone i)
    show charAt? (u :: v :: units) (i + 1 + 1) = charAt? (v :: units) (i + 1)
    unfold charAt?
    rw [pairAt?_cons_succ, List.getElem?_cons_succ]
    rfl
  unfold placedChars
  rw [List.length_cons, List.length_cons, List.range_succ_eq_map,
    List.filterMap_cons_some hfirst, List.filterMap_map, List.range_succ_eq_map,
    List.filterMap_cons_none hsecond, List.filterMap_map, hrest]

/-! ## All units -/

/-- Reading units from left to right gives the text of their places. -/
theorem charsOfUnits_eq_placedChars (units : List UInt16) :
    charsOfUnits units = placedChars units := by
  induction units using charsOfUnits.induct with
  | case1 => rfl
  | case2 u =>
    rw [placedChars_cons_of_unpaired (pairAt?_singleton u)]
    rfl
  | case3 u v units hu hv ih =>
    rw [placedChars_cons_of_pair units hu hv, charsOfUnits, if_pos hu, if_pos hv, ih]
  | case4 u v units hu hv ih =>
    have hnone : pairAt? (u :: v :: units) 0 = none := by simp [pairAt?_cons_cons, hv]
    rw [placedChars_cons_of_unpaired hnone, charsOfUnits, if_pos hu, if_neg hv, ih,
      if_pos (Or.inl hu)]
  | case5 u v units hu hlow ih =>
    have hnone : pairAt? (u :: v :: units) 0 = none := by simp [pairAt?_cons_cons, hu]
    rw [placedChars_cons_of_unpaired hnone, charsOfUnits, if_neg hu, if_pos hlow, ih,
      if_pos (Or.inr hlow)]
  | case6 u v units hu hlow ih =>
    have hnone : pairAt? (u :: v :: units) 0 = none := by simp [pairAt?_cons_cons, hu]
    rw [placedChars_cons_of_unpaired hnone, charsOfUnits, if_neg hu, if_neg hlow, ih,
      if_neg fun h => h.elim hu hlow]

/-- **The bytes of any units are read as the text of those units**, with U+FFFD in the place of each
surrogate without a partner, and every text is read back from the bytes of its own units. -/
theorem decodeModified?_spells (units : List UInt16) :
    decodeModified? (encodeUnits units) = some (String.ofList (placedChars units)) ∧
      ∀ s : String, decodeModified? (encodeUnits (s.toList.flatMap utf16Units)) = some s := by
  constructor
  · rw [decodeModified?_encodeUnits, charsOfUnits_eq_placedChars]
  · exact decodeModified?_encodeModified

-- A pair between two surrogates that belong to none, and NUL.
example : placedChars [0xDE00, 0xD83D, 0xDE00, 0xD83D, 0] =
    [replacementChar, Char.ofNat 0x1F600, replacementChar, Char.ofNat 0] := by
  decide +kernel

end JavaMachine
