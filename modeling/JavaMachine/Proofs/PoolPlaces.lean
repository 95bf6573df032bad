/-
# The places of a constant pool

A class file declares how many places its constant pool has.  The places are filled from the front,
and a constant of eight bytes leaves the place behind it empty.  So an index leads nowhere exactly when
such a constant stands just before it (`PlacesFit.empty_iff`).

The count is only looked at before a constant is read.  A constant of eight bytes in the last place that
was declared leaves the place behind it empty all the same, and then the pool has one place more than
declared (`pool_places_of_parse`).
-/
import JavaMachine.Proofs.ClassFileSpelling
import JavaMachine.Proofs.ClassFiles

namespace JavaMachine

/-! ## Rows of places -/

/-- Whether a wide constant stands in a place of a row. -/
def wideIn (places : List (Option Constant)) (index : Nat) : Bool :=
  places[index]?.join.any Constant.isWide

/-- Just the places behind wide constants are empty. -/
theorem PlacesFit.empty_iff {front : Option Constant} {places : List (Option Constant)}
    (h : PlacesFit (front.any Constant.isWide) places) (i : Nat) :
    (front :: places)[i + 1]? = some none ↔ wideIn (front :: places) i = true := by
  induction places generalizing front i with
  | nil =>
    have hnarrow : front.any Constant.isWide = false := by
      rw [Bool.eq_false_iff]
      intro hwide
      rw [hwide] at h
      exact h
    cases i with
    | zero => simp [wideIn, hnarrow]
    | succ i => simp [wideIn]
  | cons place places ih =>
    cases hwide : front.any Constant.isWide with
    | false =>
      rw [hwide] at h
      obtain ⟨c, rfl, hrest⟩ := h
      cases i with
      | zero => simp [wideIn, hwide]
      | succ i => simpa [wideIn] using @ih (some c) hrest i
    | true =>
      rw [hwide] at h
      obtain ⟨rfl, hrest⟩ := h
      cases i with
      | zero => simp [wideIn, hwide]
      | succ i => simpa [wideIn] using @ih none hrest i

/-- A row of as many places as were declared, and one more where the last of them is wide. -/
structure PlacesRead (count : Nat) (front : Option Constant) (places : List (Option Constant)) :
    Prop where
  fit : PlacesFit (front.any Constant.isWide) places
  length : places.length = count + (wideIn (front :: places) count).toNat

/-- One more place in front of a row moves all its places on by one. -/
theorem PlacesRead.cons {count : Nat} {front place : Option Constant}
    {places : List (Option Constant)} (h : PlacesRead count place places)
    (hfit : PlacesFit (front.any Constant.isWide) (place :: places)) :
    PlacesRead (count + 1) front (place :: places) where
  fit := hfit
  length := by
    have hlength := h.length
    simp only [wideIn, List.length_cons, List.getElem?_cons_succ] at hlength ⊢
    omega

/-- No constant stands behind the places that were declared: if there is one more, it is empty. -/
theorem PlacesRead.ne_constant {count : Nat} {front : Option Constant}
    {places : List (Option Constant)} (h : PlacesRead count front places) {i : Nat} (hi : count < i)
    (c : Constant) : (front :: places)[i]? ≠ some (some c) := by
  intro hc
  obtain ⟨hlt, -⟩ := List.getElem?_eq_some_iff.mp hc
  rw [List.length_cons, h.length] at hlt
  cases hwide : wideIn (front :: places) count with
  | false =>
    rw [hwide, Bool.toNat_false] at hlt
    omega
  | true =>
    rw [hwide, Bool.toNat_true] at hlt
    obtain rfl : i = count + 1 := by omega
    rw [(h.fit.empty_iff count).mpr hwide] at hc
    cases hc

namespace Reader

/-- What is read of a pool is a row of the places that are left. -/
theorem yields_poolPlaces_read (n : Nat) (front : Option Constant) :
    Yields (poolPlaces n (front.any Constant.isWide)) (PlacesRead n front) := by
  induction n generalizing front with
  | zero =>
    cases hwide : front.any Constant.isWide with
    | false =>
      refine yields_pure ⟨?_, ?_⟩
      · rw [hwide]
        trivial
      · simp [wideIn, hwide]
    | true =>
      refine yields_pure ⟨?_, ?_⟩
      · rw [hwide]
        exact ⟨rfl, trivial⟩
      · simp [wideIn, hwide]
  | succ n ih =>
    cases hwide : front.any Constant.isWide with
    | false =>
      refine yields_bind fun c => (ih (some c)).bind fun places hplaces => ?_
      refine yields_pure (hplaces.cons ?_)
      rw [hwide]
      exact ⟨c, rfl, hplaces.fit⟩
    | true =>
      refine (ih none).bind fun places hplaces => yields_pure (hplaces.cons ?_)
      rw [hwide]
      exact ⟨rfl, hplaces.fit⟩

/-! ## The declared number -/

variable {input rest : Bytes}

/-- A constant pool is the empty place 0 and a row of the other places that were declared. -/
theorem placesRead_of_constantPool {pool : ConstantPool} (h : constantPool input = .ok (pool, rest)) :
    ∃ places, pool.entries.toList = none :: places ∧
      PlacesRead (bigEndian (input.take 2) - 1) none places := by
  obtain ⟨count, mid, hcount, h⟩ := run_bind_eq_ok.mp h
  obtain ⟨places, after, hplaces, ⟨⟩⟩ := run_bind_eq_ok.mp h
  refine ⟨places, rfl, ?_⟩
  rw [← (u2_eq_ok hcount).1]
  exact yields_poolPlaces_read (count.toNat - 1) none mid places rest hplaces

end Reader

namespace ClassFile

open Reader

/-- The number of places that a class file declares, behind the magic number and the versions. -/
def declaredPlaces (input : Bytes) : Nat := bigEndian ((input.drop 8).take 2)

theorem placesRead_of_parse {input : Bytes} {cf : ClassFile} (h : parse input = .ok cf) :
    ∃ places, cf.pool.entries.toList = none :: places ∧
      PlacesRead (declaredPlaces input - 1) none places := by
  obtain ⟨⟨cf', rest⟩, hread, h⟩ := bind_eq_ok.mp h
  obtain rfl : cf' = cf := by
    dsimp only at h
    split at h <;> cases h
    rfl
  obtain ⟨start, _, hstart, hread⟩ := run_bind_eq_ok.mp hread
  dsimp only at hread
  split at hread
  · -- After a wrong start nothing else is read.
    obtain ⟨_, _, hthrow, _⟩ := run_bind_eq_ok.mp hread
    cases hthrow
  · obtain ⟨minorVersion, _, hminor, hread⟩ := run_bind_eq_ok.mp hread
    obtain ⟨majorVersion, _, hmajor, hread⟩ := run_bind_eq_ok.mp hread
    obtain ⟨pool, _, hpool, hread⟩ := run_bind_eq_ok.mp hread
    have hsame := (yields_bind fun flags => yields_bind fun thisClass => yields_bind fun superClass =>
      yields_bind fun interfaces => yields_bind fun fields => yields_bind fun methods =>
      yields_bind fun attributes => yields_pure (P := fun cf : ClassFile => cf.pool = pool) rfl)
      _ _ _ hread
    obtain rfl := rest_of_u4 hstart
    obtain rfl := (u2_eq_ok hminor).2
    obtain rfl := (u2_eq_ok hmajor).2
    have hplaces := placesRead_of_constantPool hpool
    rw [List.drop_drop, List.drop_drop] at hplaces
    rw [hsame]
    exact hplaces

end ClassFile

/-! ## Looking up an index -/

namespace ConstantPool

variable {pool : ConstantPool} {places : List (Option Constant)}

theorem wideAt_eq (hplaces : pool.entries.toList = none :: places) (i : Nat) :
    pool.wideAt i = wideIn (none :: places) i := by
  rw [wideAt, wideIn, ← hplaces, Array.getElem?_toList]

theorem size_eq (hplaces : pool.entries.toList = none :: places) :
    pool.size = places.length + 1 := by
  rw [size, ← Array.length_toList, hplaces, List.length_cons]

/-- An index of a place leads to the constant there, unless the place is empty. -/
theorem get_isOk_iff {i : UInt16} (hi : i ≠ 0) (hsize : i.toNat < pool.size) :
    (pool.get i).isOk = false ↔ pool.entries[i.toNat]? = some none := by
  rw [get, if_neg hi]
  have hsome : pool.entries[i.toNat]? = some pool.entries[i.toNat] :=
    Array.getElem?_eq_getElem hsize
  rw [hsome]
  cases pool.entries[i.toNat] <;> simp [Except.isOk, Except.toBool]

/-- No index at or behind the end, and none of an empty place, leads anywhere. -/
theorem get_eq_error {i : UInt16} (h : ∀ c, pool.entries[i.toNat]? ≠ some (some c)) :
    pool.get i = .error (.invalidIndex i) := by
  unfold get
  split
  · rfl
  · split
    · next c hc => exact absurd hc (h c)
    · rfl

end ConstantPool

open ClassFile in
/-- **The places of a pool.**  The constant pool of a file has as many places as the file declares
exactly when no constant of eight bytes stands in the last declared place, and otherwise one more.
Within the declared places an index fails exactly behind such a constant.  Index 0 fails always, and so
does each index that is not below the declared number. -/
theorem pool_places_of_parse {input : Bytes} {cf : ClassFile} (h : parse input = .ok cf)
    (hcount : 1 ≤ declaredPlaces input) :
    (cf.pool.size = declaredPlaces input ↔ cf.pool.wideAt (declaredPlaces input - 1) = false) ∧
    (cf.pool.size = declaredPlaces input + 1 ↔
      cf.pool.wideAt (declaredPlaces input - 1) = true) ∧
    (∀ i : UInt16, 1 ≤ i.toNat → i.toNat < declaredPlaces input →
      ((cf.pool.get i).isOk = false ↔ cf.pool.wideAt (i.toNat - 1) = true)) ∧
    ∀ i : UInt16, i = 0 ∨ declaredPlaces input ≤ i.toNat →
      cf.pool.get i = .error (.invalidIndex i) := by
  obtain ⟨places, hplaces, hread⟩ := placesRead_of_parse h
  have hsize : cf.pool.size =
      declaredPlaces input + (cf.pool.wideAt (declaredPlaces input - 1)).toNat := by
    rw [ConstantPool.size_eq hplaces, hread.length, ConstantPool.wideAt_eq hplaces]
    omega
  have hempty : ∀ i, cf.pool.entries[i + 1]? = some none ↔ cf.pool.wideAt i = true := by
    intro i
    rw [ConstantPool.wideAt_eq hplaces, ← Array.getElem?_toList, hplaces]
    exact hread.fit.empty_iff i
  refine ⟨?_, ?_, fun i hlow hi => ?_, fun i hi => ConstantPool.get_eq_error fun c hc => ?_⟩
  · cases hwide : cf.pool.wideAt (declaredPlaces input - 1) <;> simp [hsize, hwide]
  · cases hwide : cf.pool.wideAt (declaredPlaces input - 1) <;> simp [hsize, hwide]
  · have hne : i ≠ 0 := by
      rintro rfl
      exact absurd hlow (by decide)
    rw [ConstantPool.get_isOk_iff hne (by omega), ← hempty, Nat.sub_add_cancel hlow]
  · rw [← Array.getElem?_toList, hplaces] at hc
    rcases hi with rfl | hi
    · cases hc
    · exact hread.ne_constant (by omega) c hc

/-- A class `A` whose pool of four declared places ends with a long constant. -/
def longLastFile : Bytes := [
  0xCA, 0xFE, 0xBA, 0xBE, 0x00, 0x00, 0x00, 0x34, 0x00, 0x04, 0x01, 0x00, 0x01, 0x41, 0x07, 0x00,
  0x01, 0x05, 0x00, 0x00, 0x00, 0x00, 0x00, 0x00, 0x00, 0x05, 0x00, 0x01, 0x00, 0x02, 0x00, 0x00,
  0x00, 0x00, 0x00, 0x00, 0x00, 0x00, 0x00, 0x00]

/-- The pool has a fifth place. -/
theorem undeclared_place_of_longLastFile :
    (ClassFile.parse longLastFile).toOption.map (·.pool.size) = some 5 ∧
      ClassFile.declaredPlaces longLastFile = 4 := by
  decide +kernel

theorem pool_places_of_longLastFile : ∃ cf, ClassFile.parse longLastFile = .ok cf ∧
    1 ≤ ClassFile.declaredPlaces longLastFile ∧ cf.pool.size = 5 ∧ cf.pool.wideAt 3 = true ∧
    (cf.pool.get 3).isOk = true ∧ cf.pool.get 4 = .error (.invalidIndex 4) := by
  have hcount : ClassFile.declaredPlaces longLastFile = 4 := by decide +kernel
  have hwide : (ClassFile.parse longLastFile).toOption.map
      (fun cf => (cf.pool.wideAt 2, cf.pool.wideAt 3)) = some (false, true) := by decide +kernel
  rcases hparse : ClassFile.parse longLastFile with e | cf
  · rw [hparse] at hwide
    cases hwide
  · rw [hparse] at hwide
    obtain ⟨hnarrow, hlast⟩ := Prod.mk.inj (Option.some.inj hwide)
    obtain ⟨-, hsize, hinside, houtside⟩ := pool_places_of_parse hparse (by rw [hcount]; decide)
    rw [hcount] at hsize hinside houtside
    refine ⟨cf, rfl, by rw [hcount]; decide, hsize.mpr hlast, hlast, ?_,
      houtside 4 (Or.inr (by decide))⟩
    rw [← Bool.not_eq_false, hinside 3 (by decide) (by decide)]
    exact Bool.eq_false_iff.mp hnarrow

end JavaMachine
