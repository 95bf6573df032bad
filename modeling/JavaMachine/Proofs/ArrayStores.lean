/-
# What a write to an array does

A write goes through checks in a fixed order: there is an array, of an array class, with an element at
the index (`Machine.ElementAt`), and the value is taken as an element of that class
(`Machine.ElementTaken`).  What is refused is refused by the first check that fails, each with an
exception of its own (`Machine.AccessRefused`, `Machine.StoreRefused`); a read goes through the checks
of the place alone.

A value for a primitive element is what is in its box, or the value itself, and is widened where it
has to be (`Machine.BroughtTo`).  A write that is made is read back at its index, and at every other
index, in every other array and in every other object there is what was there before
(`Machine.arrayStore_outcome`).
-/
import JavaMachine.Proofs.ArrayCopies
import JavaMachine.Proofs.Conversions

namespace JavaMachine

/-! ## One element of an array -/

namespace ArrayBody

variable {a b : ArrayBody} {i j : Nat} {v : Value}

/-- Writing an element of a primitive kind replaces the bytes of that element. -/
theorem store?_primitive {p : Primitive} {data : Bytes} (hv : v.tag = .primitive p) :
    (primitive p data).store? i v = (storeValue? v (data.drop (i * p.size))).map fun tail =>
      primitive p (data.take (i * p.size) ++ tail) := by
  cases v with
  | reference r => cases hv
  | _ => rfl

/-- An element that is written is read back. -/
theorem load?_store?_self (hv : v.tag = a.tag) (h : a.store? i v = some b) :
    b.load? i = some v := by
  cases a with
  | references slots =>
    cases v with
    | reference r =>
      replace h : (if i < slots.length then some _ else none) = some b := h
      split at h
      · next hlt =>
        cases h
        show ((slots.set i r)[i]?).map Value.reference = _
        rw [List.getElem?_set_self hlt]
        rfl
      · cases h
    | _ => cases hv
  | primitive p data =>
    rw [store?_primitive hv] at h
    obtain ⟨tail, htail, rfl⟩ := Option.map_eq_some_iff.mp h
    show loadValue? p ((data.take (i * p.size) ++ tail).drop (i * p.size)) = some v
    rw [List.drop_left' (length_take_of_storeValue? hv htail)]
    exact loadValue?_storeValue? hv htail

/-- Every other element is as it was. -/
theorem load?_store?_ne (hv : v.tag = a.tag) (h : a.store? i v = some b) (hne : j ≠ i) :
    b.load? j = a.load? j := by
  cases a with
  | references slots =>
    cases v with
    | reference r =>
      replace h : (if i < slots.length then some _ else none) = some b := h
      split at h
      · cases h
        show ((slots.set i r)[j]?).map Value.reference = _
        rw [List.getElem?_set_ne (Ne.symm hne)]
        rfl
      · cases h
    | _ => cases hv
  | primitive p data =>
    rw [store?_primitive hv] at h
    obtain ⟨tail, htail, rfl⟩ := Option.map_eq_some_iff.mp h
    refine loadValue?_drop_eq fun k hk => getElem?_write hv htail _ ?_
    -- No byte of one element is a byte of another one.
    have hbyte : i * p.size ≤ j * p.size + k ∧ j * p.size + k < i * p.size + 1 * p.size ↔
        i ≤ j ∧ j < i + 1 := byte_within hk
    rw [Nat.one_mul] at hbyte
    omega

end ArrayBody

namespace Machine

variable {m m' : Machine} {array : Option ObjectRef} {index : Int32} {v w : Value} {t : Tag}
  {cls : Class} {r : ObjectRef} {e : Throwable}

/-! ## Elements of a class -/

/-- A value is taken as an element of an array class: it is brought to the kind of the elements, and
a reference is null or one to an object of the class of the components or below it. -/
structure ElementTaken (m : Machine) (cls : Class) (t : Tag) (v w : Value) : Prop where
  brought : m.BroughtTo t v w
  assignable : ∀ x, w = .ref x → ∃ component o, cls.component? = some component ∧
    m.heap.get? x = some o ∧ m.classes.isAssignable component o.owner = true

/-- A value is not taken as an element of an array class. -/
inductive ElementRefused (m : Machine) (cls : Class) (t : Tag) (v : Value) : Throwable → Prop
  | unfit {e : Throwable} (h : m.ConversionRefused t v e) : ElementRefused m cls t v e
  | foreign {x : ObjectRef} {component : ClassId} {o : Object} {source : Class}
      (hbrought : m.BroughtTo t v (.ref x)) (hcomponent : cls.component? = some component)
      (ho : m.heap.get? x = some o) (hsource : m.classes.get? o.owner = some source)
      (ha : m.classes.isAssignable component o.owner = false) :
      ElementRefused m cls t v (.illegalArgument
        ("array element type mismatch: " ++ source.dotted ++ " into " ++ cls.dotted))

/-- A value is brought to the kind of the elements, and then a reference is looked at. -/
theorem elementFor_eq (helement : cls.element? = some t) (v : Value) :
    m.elementFor cls v = (do
      let w ← (m.heap.coerceFor t v).mapError Stop.thrown
      match w, cls.component? with
      | .reference (some x), some component =>
        let source ← m.classOf x
        if m.classes.isAssignable component source then return w
        else
          let name ← m.classes.dotted source
          raise (.illegalArgument ("array element type mismatch: " ++ name ++ " into " ++ cls.dotted))
      | _, _ => return w) := by
  unfold elementFor
  rw [helement]
  rfl

/-- An element that an array can take is taken. -/
theorem elementFor_of_taken (helement : cls.element? = some t) (h : m.ElementTaken cls t v w) :
    m.elementFor cls v = .ok w := by
  rw [elementFor_eq helement, coerceFor_of_broughtTo h.brought]
  dsimp only [Except.mapError, bind, Except.bind]
  split
  · next x component hcomponent =>
    obtain ⟨component', o, hcomponent', ho, ha⟩ := h.assignable x rfl
    rw [hcomponent, Option.some.injEq] at hcomponent'
    subst hcomponent'
    rw [get_of_live ho]
    show (if m.classes.isAssignable component o.owner = true then _ else _ : Except Stop Value) = _
    rw [if_pos ha]
    rfl
  · rfl

/-- An element that an array cannot take is refused. -/
theorem elementFor_of_refused (helement : cls.element? = some t) (h : m.ElementRefused cls t v e) :
    m.elementFor cls v = .error (.thrown e) := by
  rw [elementFor_eq helement]
  cases h with
  | unfit hrefused =>
    rw [coerceFor_of_refused hrefused]
    rfl
  | foreign hbrought hcomponent ho hsource ha =>
    rw [coerceFor_of_broughtTo hbrought, hcomponent]
    show (m.classOf _ >>= _) = _
    rw [get_of_live ho]
    show (if m.classes.isAssignable _ _ = true then _ else _ : Except Stop Value) = _
    rw [if_neg (Bool.eq_false_iff.mp ha), ClassTable.dotted, ClassTable.get_eq_ok_iff.mpr hsource]
    rfl

/-- A value without dangling references is taken as an element, or refused for a reason. -/
theorem WellFormed.taken_or_refused {named : String → Prop} (hw : m.WellFormed named)
    (hv : m.ValueLive v) (helement : cls.element? = some t) :
    (∃ w, m.ElementTaken cls t v w) ∨ ∃ e, m.ElementRefused cls t v e := by
  rcases m.broughtTo_or_refused t v with ⟨w, hbrought⟩ | ⟨e, hrefused⟩
  · by_cases hx : ∃ x, w = .ref x
    · obtain ⟨x, rfl⟩ := hx
      obtain ⟨o, ho⟩ := hv _ (coerceFor_reference (coerceFor_of_broughtTo hbrought)) x rfl
      obtain ⟨source, hsource⟩ := hw.exists_class ho
      obtain ⟨component, hcomponent⟩ : ∃ component, cls.component? = some component := by
        unfold Class.element? at helement
        unfold Class.component?
        split at helement
        · next component _ => exact ⟨component, rfl⟩
        · cases helement
      cases ha : m.classes.isAssignable component o.owner with
      | true =>
        refine Or.inl ⟨_, hbrought, ?_⟩
        rintro _ ⟨⟩
        exact ⟨component, o, hcomponent, ho, ha⟩
      | false => exact Or.inr ⟨_, .foreign hbrought hcomponent ho hsource ha⟩
    · exact Or.inl ⟨w, hbrought, fun x hw => absurd ⟨x, hw⟩ hx⟩
  · exact Or.inr ⟨e, .unfit hrefused⟩

/-! ## Places in arrays -/

/-- A live object is of a class. -/
def HasClass (m : Machine) (r : ObjectRef) (cls : Class) : Prop :=
  ∃ o, m.heap.get? r = some o ∧ m.classes.get? o.owner = some cls

/-- There is an element at an index of an array, of a kind. -/
structure ElementAt (m : Machine) (array : Option ObjectRef) (index : Int32) (r : ObjectRef)
    (cls : Class) (t : Tag) : Prop where
  found : array = some r
  hasClass : m.HasClass r cls
  element : cls.element? = some t
  nonneg : 0 ≤ index
  within : index.toInt.toNat < m.lengthOf r

/-- There is no element at an index of an array, with the exception that says why: null, no array
class, or an index outside. -/
inductive AccessRefused (m : Machine) (array : Option ObjectRef) (index : Int32) : Throwable → Prop
  | null (h : array = none) : AccessRefused m array index .nullPointer
  | noArray {r : ObjectRef} {cls : Class} (hr : array = some r) (hclass : m.HasClass r cls)
      (hnone : cls.isArray = false) :
      AccessRefused m array index (.illegalArgument (cls.dotted ++ " is not an array"))
  | outside {r : ObjectRef} {cls : Class} (hr : array = some r) (hclass : m.HasClass r cls)
      (harray : cls.isArray = true) (hindex : ¬ (0 ≤ index ∧ index.toInt.toNat < m.lengthOf r)) :
      AccessRefused m array index (.arrayIndexOutOfBounds index.toInt (m.lengthOf r))

/-- What begins with the checks of a place in an array. -/
def accessing {α : Type} (m : Machine) (array : Option ObjectRef) (index : Int32)
    (k : ObjectRef → Class → ArrayBody → Nat → Except Stop α) : Except Stop α := do
  let r ← nonNull array
  let cls ← m.arrayClassOf r
  let body ← m.arrayBody r
  k r cls body (← checkedIndex index body.length)

section Access

variable {named : String → Prop} {α : Type}

/-- The class of an array object, when the object is taken as an array. -/
theorem HasClass.arrayClassOf_eq (h : m.HasClass r cls) :
    m.arrayClassOf r =
      if cls.isArray = true then .ok cls
      else .error (.thrown (.illegalArgument (cls.dotted ++ " is not an array"))) := by
  obtain ⟨o, ho, hc⟩ := h
  rw [arrayClassOf_of_live ho hc]
  cases harray : cls.isArray with
  | true => rw [if_neg (Nat.ne_of_gt (cls.elementSize_pos_iff.mpr harray)), if_pos rfl]
  | false =>
    have hzero : cls.elementSize = 0 := by
      by_contra hpos
      rw [cls.elementSize_pos_iff.mp (Nat.pos_of_ne_zero hpos)] at harray
      cases harray
    rw [if_pos hzero, if_neg Bool.false_ne_true]

/-- An object of an array class has elements of its kind. -/
theorem WellFormed.arrayBody_of_hasClass (hw : m.WellFormed named) (h : m.HasClass r cls)
    (helement : cls.element? = some t) : ∃ a, m.arrayBody r = .ok a ∧ a.tag = t := by
  obtain ⟨o, ho, hc⟩ := h
  have harray : cls.isArray = true := by rw [Class.isArray, helement]; rfl
  obtain ⟨a, ha, htag⟩ :=
    hw.arrayBody_of_live ho hc (Nat.ne_of_gt (cls.elementSize_pos_iff.mpr harray))
  exact ⟨a, ha, Option.some.inj (htag.symm.trans helement)⟩

/-- An access to an element that is there is passed on with the element's place. -/
theorem WellFormed.accessing_of_elementAt (hw : m.WellFormed named)
    (h : m.ElementAt array index r cls t)
    (k : ObjectRef → Class → ArrayBody → Nat → Except Stop α) :
    ∃ a, m.arrayBody r = .ok a ∧ a.tag = t ∧ index.toInt.toNat < a.length ∧
      m.accessing array index k = k r cls a index.toInt.toNat := by
  obtain ⟨a, ha, htag⟩ := hw.arrayBody_of_hasClass h.hasClass h.element
  have hlt := h.within
  rw [lengthOf_of_arrayBody ha] at hlt
  refine ⟨a, ha, htag, hlt, ?_⟩
  have harray : cls.isArray = true := by rw [Class.isArray, h.element]; rfl
  rw [h.found]
  show (m.arrayClassOf r >>= fun cls => m.arrayBody r >>= fun body =>
    checkedIndex index body.length >>= k r cls body) = _
  rw [h.hasClass.arrayClassOf_eq, if_pos harray, ha]
  show (checkedIndex index a.length >>= k r cls a) = _
  rw [checkedIndex, if_pos ⟨h.nonneg, hlt⟩]
  rfl

/-- An access that is refused is not passed on. -/
theorem WellFormed.accessing_of_refused (hw : m.WellFormed named)
    (h : m.AccessRefused array index e)
    (k : ObjectRef → Class → ArrayBody → Nat → Except Stop α) :
    m.accessing array index k = .error (.thrown e) := by
  cases h with
  | null h =>
    rw [h]
    rfl
  | @noArray r cls hr hclass hnone =>
    rw [hr]
    show (m.arrayClassOf r >>= _) = _
    rw [hclass.arrayClassOf_eq, hnone]
    rfl
  | @outside r cls hr hclass harray hindex =>
    obtain ⟨t, ht⟩ := Option.isSome_iff_exists.mp harray
    obtain ⟨a, ha, _⟩ := hw.arrayBody_of_hasClass hclass ht
    rw [lengthOf_of_arrayBody ha] at hindex ⊢
    rw [hr]
    show (m.arrayClassOf r >>= fun cls => m.arrayBody r >>= fun body =>
      checkedIndex index body.length >>= k r cls body) = _
    rw [hclass.arrayClassOf_eq, if_pos harray, ha]
    show (checkedIndex index a.length >>= k r cls a) = _
    rw [checkedIndex, if_neg hindex]
    rfl

/-- A place in what is null or live has an element, or does not for a reason. -/
theorem WellFormed.elementAt_or_refused (hw : m.WellFormed named) (harray : m.NullOrLive array)
    (index : Int32) :
    (∃ r cls t, m.ElementAt array index r cls t) ∨ ∃ e, m.AccessRefused array index e := by
  cases array with
  | none => exact Or.inr ⟨_, .null rfl⟩
  | some r =>
    obtain ⟨o, ho⟩ := harray r rfl
    obtain ⟨cls, hc⟩ := hw.exists_class ho
    have hclass : m.HasClass r cls := ⟨o, ho, hc⟩
    cases hisarray : cls.isArray with
    | false => exact Or.inr ⟨_, .noArray rfl hclass hisarray⟩
    | true =>
      by_cases hindex : 0 ≤ index ∧ index.toInt.toNat < m.lengthOf r
      · obtain ⟨t, ht⟩ := Option.isSome_iff_exists.mp hisarray
        exact Or.inl ⟨r, cls, t, rfl, hclass, ht, hindex.1, hindex.2⟩
      · exact Or.inr ⟨_, .outside rfl hclass hisarray hindex⟩

end Access

/-! ## Reading and writing elements -/

/-- A write to an array is refused: there is no element at the place, or the value is not taken as one
of these elements. -/
inductive StoreRefused (m : Machine) (array : Option ObjectRef) (index : Int32) (v : Value) :
    Throwable → Prop
  | access {e : Throwable} (h : m.AccessRefused array index e) : StoreRefused m array index v e
  | element {r : ObjectRef} {cls : Class} {t : Tag} {e : Throwable}
      (hplace : m.ElementAt array index r cls t) (h : m.ElementRefused cls t v e) :
      StoreRefused m array index v e

/-- What a write of an element has done: it is read back, every other element and the length of every
array are as they were, and so is every other object. -/
structure ElementStored (m m' : Machine) (r : ObjectRef) (index : Int32) (w : Value) : Prop where
  loaded : m'.arrayLoad (some r) index = .ok w
  indices : ∀ j, j ≠ index → m'.arrayLoad (some r) j = m.arrayLoad (some r) j
  arrays : ∀ a j, a ≠ some r → m'.arrayLoad a j = m.arrayLoad a j
  lengths : ∀ a, m'.arrayLength a = m.arrayLength a
  header : (m'.heap.get? r).map (fun o => (o.owner, o.hash)) =
    (m.heap.get? r).map fun o => (o.owner, o.hash)
  others : ∀ q, q ≠ r → m'.heap.get? q = m.heap.get? q
  elsewhere : m' = { m with heap := m'.heap }

section Elements

variable {named : String → Prop} {a b : ArrayBody}

/-- A read goes through the checks of the place, and then to the element. -/
theorem arrayLoad_eq_accessing (m : Machine) (array : Option ObjectRef) (index : Int32) :
    m.arrayLoad array index = m.accessing array index fun r _ body i =>
      match body.load? i with
      | some v => .ok v
      | none => abort (.mismatchedArray r) := rfl

/-- A write goes through the checks of the place, and then to the value. -/
theorem arrayStore_eq_accessing (m : Machine) (array : Option ObjectRef) (index : Int32)
    (v : Value) :
    m.arrayStore array index v = m.accessing array index fun r cls body i =>
      m.elementFor cls v >>= fun w =>
        match body.store? i w with
        | some b => .ok (m.writeArray r b)
        | none => abort (.mismatchedArray r) := rfl

/-- An element that is there is loaded. -/
theorem WellFormed.arrayLoad_of_elementAt (hw : m.WellFormed named)
    (h : m.ElementAt array index r cls t) : ∃ w, m.arrayLoad array index = .ok w := by
  rw [arrayLoad_eq_accessing]
  obtain ⟨a, _, _, hlt, haccess⟩ := hw.accessing_of_elementAt h _
  rw [haccess]
  obtain ⟨w, hload⟩ := Option.isSome_iff_exists.mp (ArrayBody.load?_isSome hlt)
  exact ⟨w, by rw [hload]⟩

/-- A value that is taken as an element is written into the array. -/
theorem WellFormed.arrayStore_of_taken (hw : m.WellFormed named)
    (h : m.ElementAt array index r cls t) (htaken : m.ElementTaken cls t v w) :
    ∃ a b, m.arrayBody r = .ok a ∧ index.toInt.toNat < a.length ∧ w.tag = a.tag ∧
      a.store? index.toInt.toNat w = some b ∧
      m.arrayStore array index v = .ok (m.writeArray r b) := by
  rw [arrayStore_eq_accessing]
  obtain ⟨a, ha, htag, hlt, haccess⟩ := hw.accessing_of_elementAt h _
  have hwtag : w.tag = a.tag := htag ▸ tag_coerceFor (coerceFor_of_broughtTo htaken.brought)
  obtain ⟨b, hb⟩ := Option.isSome_iff_exists.mp (ArrayBody.store?_isSome hlt hwtag)
  refine ⟨a, b, ha, hlt, hwtag, hb, ?_⟩
  rw [haccess, elementFor_of_taken h.element htaken]
  show (match a.store? index.toInt.toNat w with | some b => _ | none => _ : Except Stop Machine) = _
  rw [hb]

/-- A store that is refused ends with the exception. -/
theorem WellFormed.arrayStore_of_refused (hw : m.WellFormed named)
    (h : m.StoreRefused array index v e) : m.arrayStore array index v = .error (.thrown e) := by
  rw [arrayStore_eq_accessing]
  cases h with
  | access h => exact hw.accessing_of_refused h _
  | element hplace hrefused =>
    obtain ⟨a, _, _, _, haccess⟩ := hw.accessing_of_elementAt hplace _
    rw [haccess, elementFor_of_refused hplace.element hrefused]
    rfl

/-! ## What is left as it was -/

/-- The objects after elements were replaced: the array, and the others as they were. -/
theorem get?_writeArray_of_ne {q : ObjectRef} (hq : q ≠ r) :
    (m.writeArray r b).heap.get? q = m.heap.get? q := by
  rw [get?_writeArray, Heap.get?_updateBody, if_neg hq]

/-- The array has its new elements, and is the same otherwise. -/
theorem get?_writeArray_self {o : Object} (ho : m.heap.get? r = some o) :
    (m.writeArray r b).heap.get? r = some { o with body := .array b } := by
  rw [get?_writeArray, Heap.get?_updateBody, if_pos rfl, ho]
  rfl

/-- The elements of the array are the new ones. -/
theorem arrayBody_writeArray_self {o : Object} (ho : m.heap.get? r = some o) :
    (m.writeArray r b).arrayBody r = .ok b := by
  unfold arrayBody
  rw [Heap.get_eq_ok_iff.mpr (get?_writeArray_self ho)]
  rfl

/-- The elements of other arrays are what they were. -/
theorem arrayBody_writeArray_of_ne {q : ObjectRef} (hq : q ≠ r) :
    (m.writeArray r b).arrayBody q = m.arrayBody q := by
  unfold arrayBody Heap.get
  rw [get?_writeArray_of_ne hq]

/-- No object changes its class. -/
theorem arrayClassOf_writeArray {o : Object} (ho : m.heap.get? r = some o) (q : ObjectRef) :
    (m.writeArray r b).arrayClassOf q = m.arrayClassOf q := by
  have hclass : (m.writeArray r b).classOf q = m.classOf q := by
    by_cases hq : q = r
    · rw [hq, get_of_live ho, get_of_live (get?_writeArray_self ho)]
    · unfold classOf Heap.get
      rw [get?_writeArray_of_ne hq]
  unfold arrayClassOf
  rw [hclass]
  rfl

/-- The length of an array is that of its elements. -/
theorem arrayLength_writeArray (ha : m.arrayBody r = .ok a) (hlength : b.length = a.length)
    (array : Option ObjectRef) : (m.writeArray r b).arrayLength array = m.arrayLength array := by
  obtain ⟨o, ho, _⟩ := arrayBody_eq_ok ha
  cases array with
  | none => rfl
  | some q =>
    have hbody : ((m.writeArray r b).arrayBody q).map ArrayBody.length =
        (m.arrayBody q).map ArrayBody.length := by
      by_cases hq : q = r
      · rw [hq, arrayBody_writeArray_self ho, ha]
        exact congrArg Except.ok hlength
      · rw [arrayBody_writeArray_of_ne hq]
    show ((m.writeArray r b).arrayClassOf q >>= fun _ =>
        ((m.writeArray r b).arrayBody q).map ArrayBody.length) =
      (m.arrayClassOf q >>= fun _ => (m.arrayBody q).map ArrayBody.length)
    rw [arrayClassOf_writeArray ho, hbody]

/-- Two indices that are not negative and have the same number are the same. -/
theorem index_eq_of_toNat {j : Int32} (hj : 0 ≤ j) (hindex : 0 ≤ index)
    (h : j.toInt.toNat = index.toInt.toNat) : j = index := by
  rw [Int32.le_iff_toInt_le] at hj hindex
  have hzero : (0 : Int32).toInt = 0 := rfl
  exact Int32.toInt_inj.mp (by omega)

/-- Writing one element leaves all others as they were. -/
theorem elementStored_writeArray (ha : m.arrayBody r = .ok a) (hclass : m.arrayClassOf r = .ok cls)
    (hnonneg : 0 ≤ index) (hlt : index.toInt.toNat < a.length) (htag : w.tag = a.tag)
    (hstore : a.store? index.toInt.toNat w = some b) :
    m.ElementStored (m.writeArray r b) r index w := by
  obtain ⟨o, ho, _⟩ := arrayBody_eq_ok ha
  have hlength : b.length = a.length := (ArrayBody.sameShape_of_store? hstore).length_eq
  have hclass' : (m.writeArray r b).arrayClassOf r = .ok cls := arrayClassOf_writeArray ho r ▸ hclass
  have hbody' : (m.writeArray r b).arrayBody r = .ok b := arrayBody_writeArray_self ho
  -- A read from an object with elements comes to the check of the index.
  have hread : ∀ (m : Machine) (c : ArrayBody) (j : Int32), m.arrayClassOf r = .ok cls →
      m.arrayBody r = .ok c → m.arrayLoad (some r) j = checkedIndex j c.length >>= fun i =>
        match c.load? i with
        | some v => .ok v
        | none => abort (.mismatchedArray r) := by
    intro m c j hcls hc
    show (m.arrayClassOf r >>= fun _ => m.arrayBody r >>= _) = _
    rw [hcls, hc]
    rfl
  constructor
  · rw [hread _ _ _ hclass' hbody', hlength, checkedIndex, if_pos ⟨hnonneg, hlt⟩]
    show (match b.load? index.toInt.toNat with | some v => _ | none => _ : Except Stop Value) = _
    rw [ArrayBody.load?_store?_self htag hstore]
  · intro j hj
    rw [hread _ _ _ hclass' hbody', hread _ _ _ hclass ha, hlength, checkedIndex]
    split
    · next hin =>
      have hne : j.toInt.toNat ≠ index.toInt.toNat := fun h =>
        hj (index_eq_of_toNat hin.1 hnonneg h)
      show (match b.load? j.toInt.toNat with | some v => _ | none => _ : Except Stop Value) = _
      rw [ArrayBody.load?_store?_ne htag hstore hne]
      rfl
    · rfl
  · intro array j hne
    cases array with
    | none => rfl
    | some q =>
      have hq : q ≠ r := fun h => hne (congrArg some h)
      show ((m.writeArray r b).arrayClassOf q >>= fun _ => (m.writeArray r b).arrayBody q >>= _) = _
      rw [arrayClassOf_writeArray ho, arrayBody_writeArray_of_ne hq]
      rfl
  · exact arrayLength_writeArray ha hlength
  · rw [get?_writeArray_self ho, ho]
    rfl
  · exact fun q hq => get?_writeArray_of_ne hq
  · rfl

end Elements

/-! ## Outcomes of writes -/

/-- A write to what is null or live, of a value without dangling references.  It is made exactly when
there is an element at the index, of an array class, and the value is taken as one of its elements; it
is refused with the exception of the first check that fails, and has no other end.  After a write
that is made the value is read back, and everything else is as it was.  A read is refused for the same
reasons as a write, as far as they are about the place. -/
theorem arrayStore_outcome {path : ClassPath} (h : m.Reachable path PlainName)
    (harray : m.NullOrLive array) (hv : m.ValueLive v) (index : Int32) :
    ((∃ m', m.arrayStore array index v = .ok m') ↔
      ∃ r cls t w, m.ElementAt array index r cls t ∧ m.ElementTaken cls t v w) ∧
    (∀ e, m.arrayStore array index v = .error e ↔
      ∃ x, e = .thrown x ∧ m.StoreRefused array index v x) ∧
    (∀ r cls t w m', m.ElementAt array index r cls t → m.ElementTaken cls t v w →
      m.arrayStore array index v = .ok m' → m.ElementStored m' r index w) ∧
    ((∃ w, m.arrayLoad array index = .ok w) ↔ ∃ r cls t, m.ElementAt array index r cls t) ∧
    ∀ e, m.arrayLoad array index = .error e ↔
      ∃ x, e = .thrown x ∧ m.AccessRefused array index x := by
  have hw := h.wellFormed fun _ hn => hn
  -- Either there is a reason to refuse, or there is none, and each way has one end only.
  have hload : (∃ r cls t, m.ElementAt array index r cls t) ∨
      ∃ x, m.AccessRefused array index x := hw.elementAt_or_refused harray index
  have hstore : (∃ r cls t w, m.ElementAt array index r cls t ∧ m.ElementTaken cls t v w) ∨
      ∃ x, m.StoreRefused array index v x := by
    rcases hload with ⟨r, cls, t, hplace⟩ | ⟨x, hrefused⟩
    · rcases hw.taken_or_refused hv hplace.element with ⟨w, htaken⟩ | ⟨x, hrefused⟩
      · exact Or.inl ⟨r, cls, t, w, hplace, htaken⟩
      · exact Or.inr ⟨x, .element hplace hrefused⟩
    · exact Or.inr ⟨x, .access hrefused⟩
  refine ⟨⟨?_, ?_⟩, fun e => ⟨?_, ?_⟩, ?_, ⟨?_, ?_⟩, fun e => ⟨?_, ?_⟩⟩
  · rintro ⟨m', hok⟩
    rcases hstore with hmade | ⟨x, hrefused⟩
    · exact hmade
    · rw [hw.arrayStore_of_refused hrefused] at hok
      cases hok
  · rintro ⟨r, cls, t, w, hplace, htaken⟩
    obtain ⟨_, b, _, _, _, _, hok⟩ := hw.arrayStore_of_taken hplace htaken
    exact ⟨_, hok⟩
  · intro herror
    rcases hstore with ⟨r, cls, t, w, hplace, htaken⟩ | ⟨x, hrefused⟩
    · obtain ⟨_, _, _, _, _, _, hok⟩ := hw.arrayStore_of_taken hplace htaken
      rw [herror] at hok
      cases hok
    · rw [hw.arrayStore_of_refused hrefused, Except.error.injEq] at herror
      exact ⟨x, herror.symm, hrefused⟩
  · rintro ⟨x, rfl, hrefused⟩
    exact hw.arrayStore_of_refused hrefused
  · intro r cls t w m' hplace htaken hok
    obtain ⟨a, b, ha, hlt, htag, hb, hmade⟩ := hw.arrayStore_of_taken hplace htaken
    rw [hmade, Except.ok.injEq] at hok
    subst hok
    have hisarray : cls.isArray = true := by rw [Class.isArray, hplace.element]; rfl
    have hclass : m.arrayClassOf r = .ok cls := by
      rw [hplace.hasClass.arrayClassOf_eq, if_pos hisarray]
    exact elementStored_writeArray ha hclass hplace.nonneg hlt htag hb
  · rintro ⟨w, hok⟩
    rcases hload with hplace | ⟨x, hrefused⟩
    · exact hplace
    · rw [arrayLoad_eq_accessing, hw.accessing_of_refused hrefused] at hok
      cases hok
  · rintro ⟨r, cls, t, hplace⟩
    exact hw.arrayLoad_of_elementAt hplace
  · intro herror
    rcases hload with ⟨r, cls, t, hplace⟩ | ⟨x, hrefused⟩
    · obtain ⟨w, hok⟩ := hw.arrayLoad_of_elementAt hplace
      rw [herror] at hok
      cases hok
    · rw [arrayLoad_eq_accessing, hw.accessing_of_refused hrefused, Except.error.injEq] at herror
      exact ⟨x, herror.symm, hrefused⟩
  · rintro ⟨x, rfl, hrefused⟩
    rw [arrayLoad_eq_accessing]
    exact hw.accessing_of_refused hrefused _

/-- A `byte` is widened into an array of integers.  Null is refused there, for the index where that is
outside and otherwise for the value. -/
theorem arrayStore_outcome_arrayMachine :
    (∃ m', arrayMachine.arrayStore (some ⟨1⟩) 2 (.byte 7) = .ok m' ∧
      m'.arrayLoad (some ⟨1⟩) 2 = .ok (.int 7) ∧
      m'.arrayLoad (some ⟨1⟩) 0 = arrayMachine.arrayLoad (some ⟨1⟩) 0) ∧
    arrayMachine.arrayStore (some ⟨1⟩) (-1) .null =
      .error (.thrown (.arrayIndexOutOfBounds (-1) 3)) ∧
    arrayMachine.arrayStore (some ⟨1⟩) 2 .null = .error (.thrown .nullPointer) := by
  have hclass : ((arrayMachine.heap.get? ⟨1⟩).bind fun o =>
      arrayMachine.classes.get? o.owner).map Class.element? = some (some (.primitive .int)) := by
    decide +kernel
  have hlength : arrayMachine.lengthOf ⟨1⟩ = 3 := by decide +kernel
  obtain ⟨cls, hcls, helement⟩ := Option.map_eq_some_iff.mp hclass
  have hof : arrayMachine.HasClass ⟨1⟩ cls := Option.bind_eq_some_iff.mp hcls
  have harray : arrayMachine.NullOrLive (some ⟨1⟩) := by
    rintro _ ⟨⟩
    obtain ⟨o, ho, _⟩ := hof
    exact ⟨o, ho⟩
  have hplace : arrayMachine.ElementAt (some ⟨1⟩) 2 ⟨1⟩ cls (.primitive .int) :=
    ⟨rfl, hof, helement, by decide, by rw [hlength]; decide⟩
  have hbyte : arrayMachine.ValueLive (.byte 7) := by
    intro target h
    cases h
  have hnull : arrayMachine.ValueLive .null := by
    rintro _ ⟨⟩ r h
    cases h
  have hunboxed : arrayMachine.Unboxed (.byte 7) (.byte 7) := .other fun r o u h => by cases h
  have htaken : arrayMachine.ElementTaken cls (.primitive .int) (.byte 7) (.int 7) :=
    ⟨.widened hunboxed rfl, fun x h => by cases h⟩
  refine ⟨?_, ?_, ?_⟩
  · obtain ⟨hmade, _, hstored, _⟩ := arrayStore_outcome reachable_arrayMachine harray hbyte 2
    obtain ⟨m', hm'⟩ := hmade.mpr ⟨_, _, _, _, hplace, htaken⟩
    have hdone := hstored _ _ _ _ m' hplace htaken hm'
    exact ⟨m', hm', hdone.loaded, hdone.indices 0 (by decide)⟩
  · refine ((arrayStore_outcome reachable_arrayMachine harray hnull (-1)).2.1 _).mpr ⟨_, rfl, ?_⟩
    have hisarray : cls.isArray = true := by rw [Class.isArray, helement]; rfl
    rw [← hlength]
    exact .access (.outside rfl hof hisarray fun h => absurd h.1 (by decide))
  · refine ((arrayStore_outcome reachable_arrayMachine harray hnull 2).2.1 _).mpr ⟨_, rfl, ?_⟩
    have hsame : arrayMachine.Unboxed .null .null := .other fun r o u h => by cases h
    exact .element hplace (.unfit (.null hsame))

end Machine

end JavaMachine
