/-
# Arrays that are what their classes say

The body of an object and its class are kept apart, and whatever reads or writes an array trusts that
they agree.  They do in every reachable machine: an object has the body of an array exactly when its
class is an array class, with elements of the kind of the class, and an object of a class that a file
defines is an instance as large as the layout.  So an access to an array gives an answer, with any
index, range and value (`Machine.bodies_agree`).
-/
import JavaMachine.Proofs.FieldSafety

namespace JavaMachine

/-! ## Elements that are there -/

namespace ArrayBody

variable {a src dst : ArrayBody} {i n : Nat} {v : Value}

/-- An element that an array of bytes has takes its bytes within the array. -/
theorem mul_size_le {p : Primitive} {data : Bytes} {k : Nat} (h : k ≤ (primitive p data).length) :
    k * p.size ≤ data.length := by
  have hmul : k * p.size ≤ data.length / p.size * p.size := Nat.mul_le_mul_right _ h
  exact Nat.le_trans hmul (Nat.div_mul_le_self ..)

/-- The bytes of an element are all there below the length. -/
theorem size_le_drop {p : Primitive} {data : Bytes} (h : i < (primitive p data).length) :
    p.size ≤ (data.drop (i * p.size)).length := by
  have hend := mul_size_le (show i + 1 ≤ _ from h)
  rw [Nat.succ_mul] at hend
  rw [List.length_drop]
  omega

/-- Every index below the length has an element. -/
theorem load?_isSome (h : i < a.length) : (a.load? i).isSome := by
  cases a with
  | primitive p data => exact loadValue?_isSome_iff.mpr (size_le_drop h)
  | references slots =>
    have hlt : i < slots.length := h
    simp [load?, hlt]

/-- Every index below the length takes an element of the kind. -/
theorem store?_isSome (h : i < a.length) (hv : v.tag = a.tag) : (a.store? i v).isSome := by
  cases a with
  | primitive p data =>
    have hstore := (storeValue?_isSome_iff hv).mpr (size_le_drop h)
    cases v with
    | reference r => cases hv
    | _ => simpa [store?] using hstore
  | references slots =>
    cases v with
    | reference r =>
      have hlt : i < slots.length := h
      simp [store?, hlt]
    | _ => cases hv

/-- A range that fits is taken out whole. -/
theorem slice?_eq_some {α : Type} {l : List α} {start count : Nat} (h : start + count ≤ l.length) :
    ∃ items, slice? l start count = some items ∧ items.length = count := by
  refine ⟨_, if_pos h, ?_⟩
  rw [List.length_take, List.length_drop]
  omega

/-- Elements of one array go into another one of the same kind, where both have as many. -/
theorem copy?_isSome {srcStart dstStart : Nat} (htag : src.tag = dst.tag)
    (hs : srcStart + n ≤ src.length) (hd : dstStart + n ≤ dst.length) :
    (src.copy? srcStart dst dstStart n).isSome := by
  cases src with
  | references s =>
    cases dst with
    | references d =>
      obtain ⟨items, hitems, hlength⟩ := slice?_eq_some hs
      have hfit : dstStart + items.length ≤ d.length := by
        rw [hlength]
        exact hd
      simp [copy?, hitems, splice?, hfit]
    | primitive q d => cases htag
  | primitive p s =>
    cases dst with
    | references d => cases htag
    | primitive q d =>
      cases htag
      have hsize := mul_size_le hs
      have hroom := mul_size_le hd
      rw [Nat.add_mul] at hsize hroom
      obtain ⟨items, hitems, hlength⟩ := slice?_eq_some hsize
      have hfit : dstStart * p.size + items.length ≤ d.length := by
        rw [hlength]
        exact hroom
      simp [copy?, hitems, splice?, hfit]

end ArrayBody

namespace Machine

variable {m : Machine} {r : ObjectRef} {o : Object}

/-! ## Bodies and classes -/

/-- A live object of an array class has whole elements of the kind of the class. Any other one has no
elements, and is an instance of the size of the layout unless its class is built in. -/
theorem WellFormed.body_cases (hw : m.WellFormed PlainName) (ho : m.heap.get? r = some o)
    {cls : Class} (hc : m.classes.get? o.owner = some cls) :
    (∃ a, o.body = .array a ∧ a.Whole ∧ cls.element? = some a.tag) ∨
      ((∀ a, o.body ≠ .array a) ∧ cls.element? = none ∧
        (¬ m.classes.IsBuiltIn o.owner → ∃ bytes refs, o.body = .fields bytes refs ∧
          bytes.length = cls.layout.bytes ∧ refs.length = cls.layout.refs)) := by
  have hnone : cls.isArray = false → cls.element? = none := by
    intro harray
    rwa [Class.isArray, Option.isSome_eq_false_iff, Option.isNone_iff_eq_none] at harray
  rcases (hw.shapes r o ho).cases with
    ⟨bytes, refs, hbody, cls', hc', harray, hlayout⟩ |
    ⟨a, hbody, cls', hc', hname, htag, hwhole⟩ | ⟨hbody, hlt⟩
  · rw [hc, Option.some.injEq] at hc'
    subst hc'
    refine Or.inr ⟨?_, hnone harray, fun _ => ⟨bytes, refs, hbody, hlayout⟩⟩
    rw [hbody]
    exact fun _ h => nomatch h
  · rw [hc, Option.some.injEq] at hc'
    subst hc'
    obtain ⟨t, ht⟩ := Option.isSome_iff_exists.mp (hw.classes.isArray_of_isArrayName hc hname)
    rw [ht] at htag
    exact Or.inl ⟨a, hbody, hwhole, htag ▸ ht⟩
  · have hbuilt : m.classes.IsBuiltIn o.owner := ⟨cls, hc, Or.inl hlt⟩
    exact Or.inr ⟨hbody, hnone (hw.classes.isArray_of_lt hc hlt), fun hfile => absurd hbuilt hfile⟩

/-! ## Accesses -/

/-- A value holds no reference to an object that is not live. -/
def ValueLive (m : Machine) (v : Value) : Prop :=
  ∀ target, v = .reference target → m.NullOrLive target

/-- A live reference has a class. -/
theorem get_of_live (ho : m.heap.get? r = some o) : m.classOf r = .ok o.owner := by
  rw [classOf, Heap.get_eq_ok_iff.mpr ho]
  rfl

/-- A live object of a class whose elements take bytes has elements, of the kind of the class. -/
theorem WellFormed.arrayBody_of_live {named : String → Prop} (hw : m.WellFormed named)
    (ho : m.heap.get? r = some o) {cls : Class} (hc : m.classes.get? o.owner = some cls)
    (hsize : cls.elementSize ≠ 0) : ∃ a, m.arrayBody r = .ok a ∧ cls.element? = some a.tag := by
  have harray := cls.elementSize_pos_iff.mp (Nat.pos_of_ne_zero hsize)
  rcases (hw.shapes r o ho).cases with
    ⟨_, _, _, cls', hc', hnot, _⟩ | ⟨a, hbody, cls', hc', _, htag, _⟩ | ⟨_, hlt⟩
  · rw [hc, Option.some.injEq] at hc'
    rw [← hc', harray] at hnot
    cases hnot
  · rw [hc, Option.some.injEq] at hc'
    subst hc'
    refine ⟨a, ?_, ?_⟩
    · unfold arrayBody
      rw [Heap.get_eq_ok_iff.mpr ho]
      simp only [bind, Except.bind, hbody]
      rfl
    · obtain ⟨t, ht⟩ := Option.isSome_iff_exists.mp harray
      rw [ht] at htag
      exact htag ▸ ht
  · rw [hw.classes.isArray_of_lt hc hlt] at harray
    cases harray

/-- A live object is taken as an array by the size of the elements of its class. -/
theorem arrayClassOf_of_live (ho : m.heap.get? r = some o) {cls : Class}
    (hc : m.classes.get? o.owner = some cls) :
    m.arrayClassOf r =
      if cls.elementSize = 0 then
        .error (.thrown (.illegalArgument (cls.dotted ++ " is not an array")))
      else .ok cls := by
  unfold arrayClassOf
  rw [get_of_live ho]
  show (m.classes.get o.owner >>= _) = _
  rw [ClassTable.get_eq_ok_iff.mpr hc]
  show (if cls.elementSize = 0 then _ else _) = _
  split <;> rfl

/-- What begins by looking for the elements of an array that is null or live gives an answer when it
goes on so from elements of the kind of the class. -/
theorem WellFormed.answers_arrayAccess {α : Type} (hw : m.WellFormed PlainName)
    {array : Option ObjectRef} (harray : m.NullOrLive array)
    {k : ObjectRef → Class → ArrayBody → Except Stop α}
    (hk : ∀ r cls a, cls.element? = some a.tag → Answers (k r cls a)) :
    Answers (nonNull array >>= fun r => m.arrayClassOf r >>= fun cls => m.arrayBody r >>= k r cls) := by
  cases array with
  | none => exact answers_thrown _
  | some r =>
    obtain ⟨o, ho⟩ := harray r rfl
    obtain ⟨cls, hc⟩ := hw.exists_class ho
    show Answers (m.arrayClassOf r >>= fun cls => m.arrayBody r >>= k r cls)
    rw [arrayClassOf_of_live ho hc]
    split
    · exact answers_thrown _
    · next hsize =>
      obtain ⟨a, ha, helement⟩ := hw.arrayBody_of_live ho hc hsize
      show Answers (m.arrayBody r >>= k r cls)
      rw [ha]
      exact hk r cls a helement

/-- An index that passes the check is below the length. -/
theorem checkedIndex_eq_ok {index : Int32} {length i : Nat}
    (h : checkedIndex index length = .ok i) : i < length := by
  unfold checkedIndex at h
  split at h
  · next hlt =>
    cases h
    exact hlt.2
  · cases h

/-- An index is checked without breaking an invariant. -/
theorem answers_checkedIndex (index : Int32) (length : Nat) :
    Answers (checkedIndex index length) := by
  unfold checkedIndex
  split
  · exact answers_ok _
  · exact answers_thrown _

/-- The length of an array is told, or the reference refused. -/
theorem WellFormed.answers_arrayLength (hw : m.WellFormed PlainName) {array : Option ObjectRef}
    (harray : m.NullOrLive array) : Answers (m.arrayLength array) :=
  hw.answers_arrayAccess harray (k := fun _ _ a => .ok a.length) fun _ _ a _ => answers_ok a.length

/-- An element is loaded, or the access refused. -/
theorem WellFormed.answers_arrayLoad (hw : m.WellFormed PlainName) {array : Option ObjectRef}
    (harray : m.NullOrLive array) (index : Int32) : Answers (m.arrayLoad array index) := by
  refine hw.answers_arrayAccess harray fun r cls a _ => ?_
  refine (answers_checkedIndex index a.length).bind fun i hi => ?_
  obtain ⟨v, hv⟩ := Option.isSome_iff_exists.mp (ArrayBody.load?_isSome (checkedIndex_eq_ok hi))
  rw [hv]
  exact answers_ok v

/-- A reference that is brought to the kind of references is itself. -/
theorem eq_of_coerce_reference {v : Value} {target : Option ObjectRef}
    (h : v.coerce .reference = .ok (.reference target)) : v = .reference target := by
  unfold Value.coerce at h
  split at h
  · exact Except.ok.inj h
  · split at h
    · cases h
    · cases v <;> cases h

/-- A reference is brought to a kind as it is. -/
theorem coerceFor_reference {h : Heap} {t : Tag} {v : Value} {target : Option ObjectRef}
    (hv : h.coerceFor t v = .ok (.reference target)) : v = .reference target := by
  cases t with
  | reference => exact eq_of_coerce_reference hv
  | primitive p => cases tag_coerceFor hv

/-- A value for an element of an array class is brought to its kind. -/
theorem tag_elementFor {cls : Class} {v w : Value} (h : m.elementFor cls v = .ok w) :
    w.tag = cls.element?.getD .reference := by
  obtain ⟨x, hx, h⟩ := bind_eq_ok.mp h
  have htag := tag_coerceFor (mapError_eq_ok.mp hx)
  split at h
  · obtain ⟨source, _, h⟩ := bind_eq_ok.mp h
    split at h
    · cases h
      exact htag
    · obtain ⟨_, _, h⟩ := bind_eq_ok.mp h
      cases h
  · cases h
    exact htag

/-- A value without dangling references is taken as an element, or refused. -/
theorem WellFormed.answers_elementFor (hw : m.WellFormed PlainName) {v : Value}
    (hv : m.ValueLive v) (cls : Class) : Answers (m.elementFor cls v) := by
  unfold elementFor
  refine Answers.bind ?_ fun w hcoerce => ?_
  · cases m.heap.coerceFor (cls.element?.getD .reference) v with
    | ok w => exact answers_ok w
    | error t => exact answers_thrown t
  · split
    · next x component _ =>
      have hvalue := coerceFor_reference (mapError_eq_ok.mp hcoerce)
      obtain ⟨o, ho⟩ := hv _ hvalue x rfl
      obtain ⟨source, hsource⟩ := hw.exists_class ho
      rw [get_of_live ho]
      show Answers (if m.classes.isAssignable component o.owner = true then _ else _)
      split
      · exact answers_ok _
      · rw [ClassTable.dotted, ClassTable.get_eq_ok_iff.mpr hsource]
        exact answers_thrown _
    · exact answers_ok _

/-- An element is stored, or the access refused. -/
theorem WellFormed.answers_arrayStore (hw : m.WellFormed PlainName) {array : Option ObjectRef}
    (harray : m.NullOrLive array) (index : Int32) {v : Value} (hv : m.ValueLive v) :
    Answers (m.arrayStore array index v) := by
  refine hw.answers_arrayAccess harray fun r cls a helement => ?_
  refine (answers_checkedIndex index a.length).bind fun i hi => ?_
  refine (hw.answers_elementFor hv cls).bind fun w hw => ?_
  have htag : w.tag = a.tag := by
    rw [tag_elementFor hw, helement]
    rfl
  obtain ⟨b, hb⟩ := Option.isSome_iff_exists.mp
    (ArrayBody.store?_isSome (checkedIndex_eq_ok hi) htag)
  rw [hb]
  exact answers_ok _

/-! ## Copies -/

/-- A range is within some length when none of its ends is outside. -/
theorem rangeWithin?_eq_some_iff {start count : Int32} {length k n : Nat} :
    rangeWithin? start count length = some (k, n) ↔
      (0 ≤ start ∧ 0 ≤ count ∧ start.toInt.toNat + count.toInt.toNat ≤ length) ∧
        k = start.toInt.toNat ∧ n = count.toInt.toNat := by
  unfold rangeWithin?
  split
  · next hrange =>
    rw [Option.some.injEq, Prod.mk.injEq]
    exact ⟨fun h => ⟨hrange, h.1.symm, h.2.symm⟩, fun h => ⟨h.2.1.symm, h.2.2.symm⟩⟩
  · next hrange => exact ⟨fun h => (nomatch h), fun h => absurd h.1 hrange⟩

/-- The number of elements of an object. -/
def lengthOf (m : Machine) (r : ObjectRef) : Nat :=
  match (m.heap.get? r).map Object.body with
  | some (.array a) => a.length
  | _ => 0

/-- The length of an array is that of its body. -/
theorem lengthOf_of_arrayBody {a : ArrayBody} (h : m.arrayBody r = .ok a) :
    m.lengthOf r = a.length := by
  obtain ⟨o, ho, hbody⟩ := arrayBody_eq_ok h
  rw [lengthOf, ho, Option.map_some, hbody]

/-- A range of one object can be copied to a place in another one: they are arrays of one class, and
the range lies within each of them. -/
structure CopyFits (m : Machine) (s : ObjectRef) (srcPos : Int32) (d : ObjectRef)
    (dstPos count : Int32) : Prop where
  arrays : ∃ so o cls, m.heap.get? s = some so ∧ m.heap.get? d = some o ∧ so.owner = o.owner ∧
    m.classes.get? o.owner = some cls ∧ cls.isArray = true
  srcPos_nonneg : 0 ≤ srcPos
  dstPos_nonneg : 0 ≤ dstPos
  count_nonneg : 0 ≤ count
  src_fits : srcPos.toInt.toNat + count.toInt.toNat ≤ m.lengthOf s
  dst_fits : dstPos.toInt.toNat + count.toInt.toNat ≤ m.lengthOf d

section Copies

variable {named : String → Prop} {s d : ObjectRef} {so : Object} {srcPos dstPos count : Int32}

/-- A copy between live objects of one class. -/
theorem arrayCopy_of_same (hso : m.heap.get? s = some so) (ho : m.heap.get? d = some o)
    (hsame : so.owner = o.owner) {cls : Class} (hc : m.classes.get? o.owner = some cls) :
    m.arrayCopy (some s) srcPos (some d) dstPos count =
      if cls.elementSize = 0 then .error (.thrown (.arrayStore "not an array"))
      else (do
        let a ← m.arrayBody s
        let b ← m.arrayBody d
        match rangeWithin? srcPos count a.length, rangeWithin? dstPos count b.length with
        | some (srcStart, n), some (dstStart, _) =>
          if n = 0 then return m
          match a.copy? srcStart b dstStart n with
          | some out =>
            return { m with heap := (m.heap.updateBody d fun _ => .array out).noteWrite d }
          | none => abort (.mismatchedArray d)
        | _, _ =>
          raise (.arrayStore ("copy of " ++ toString count.toInt ++ " from " ++
            toString srcPos.toInt ++ " (length " ++ toString a.length ++ ") to " ++
            toString dstPos.toInt ++ " (length " ++ toString b.length ++ ")"))) := by
  show (m.classOf s >>= fun srcClass => m.classOf d >>= _) = _
  rw [get_of_live hso, get_of_live ho]
  show (if so.owner ≠ o.owner then _ else _ : Except Stop Machine) = _
  rw [if_neg (Decidable.not_not.mpr hsame), hsame]
  show (m.classes.get o.owner >>= _) = _
  rw [ClassTable.get_eq_ok_iff.mpr hc]
  show (if cls.elementSize = 0 then _ else _ : Except Stop Machine) = _
  split <;> rfl

/-- A copy that fits is made: elements of the one array go into the other one, if there are any. -/
theorem WellFormed.arrayCopy_of_fits (hw : m.WellFormed named)
    (hfits : m.CopyFits s srcPos d dstPos count) :
    ∃ o a b, m.heap.get? d = some o ∧ m.arrayBody s = .ok a ∧ m.arrayBody d = .ok b ∧
      a.tag = b.tag ∧
      ((count.toInt.toNat = 0 ∧ m.arrayCopy (some s) srcPos (some d) dstPos count = .ok m) ∨
        ∃ out, a.copy? srcPos.toInt.toNat b dstPos.toInt.toNat count.toInt.toNat = some out ∧
          m.arrayCopy (some s) srcPos (some d) dstPos count =
            .ok { m with heap := (m.heap.updateBody d fun _ => .array out).noteWrite d }) := by
  obtain ⟨⟨so, o, cls, hso, ho, hsame, hc, harray⟩, hsrc, hdst, hcount, hsfit, hdfit⟩ := hfits
  have hsize : cls.elementSize ≠ 0 := Nat.ne_of_gt (cls.elementSize_pos_iff.mpr harray)
  obtain ⟨a, ha, hatag⟩ := hw.arrayBody_of_live hso (hsame ▸ hc) hsize
  obtain ⟨b, hb, hbtag⟩ := hw.arrayBody_of_live ho hc hsize
  have htag : a.tag = b.tag := Option.some.inj (hatag.symm.trans hbtag)
  rw [lengthOf_of_arrayBody ha] at hsfit
  rw [lengthOf_of_arrayBody hb] at hdfit
  refine ⟨o, a, b, ho, ha, hb, htag, ?_⟩
  rw [arrayCopy_of_same hso ho hsame hc, if_neg hsize, ha, hb]
  dsimp only [bind, Except.bind]
  rw [rangeWithin?_eq_some_iff.mpr ⟨⟨hsrc, hcount, hsfit⟩, rfl, rfl⟩,
    rangeWithin?_eq_some_iff.mpr ⟨⟨hdst, hcount, hdfit⟩, rfl, rfl⟩]
  dsimp only
  split
  · next hzero => exact Or.inl ⟨hzero, rfl⟩
  · obtain ⟨out, hout⟩ := Option.isSome_iff_exists.mp (ArrayBody.copy?_isSome htag hsfit hdfit)
    rw [hout]
    exact Or.inr ⟨out, rfl, rfl⟩

/-- A copy between live objects that does not fit is refused, with an exception of its own kind. -/
theorem WellFormed.arrayCopy_of_not_fits (hw : m.WellFormed named) (hso : m.heap.get? s = some so)
    (ho : m.heap.get? d = some o) (hfits : ¬ m.CopyFits s srcPos d dstPos count) :
    ∃ message, m.arrayCopy (some s) srcPos (some d) dstPos count =
      .error (.thrown (.arrayStore message)) := by
  obtain ⟨scls, hscls⟩ := hw.exists_class hso
  obtain ⟨cls, hc⟩ := hw.exists_class ho
  by_cases hsame : so.owner = o.owner
  · rw [arrayCopy_of_same hso ho hsame hc]
    split
    · exact ⟨_, rfl⟩
    · next hsize =>
      obtain ⟨a, ha, _⟩ := hw.arrayBody_of_live hso (hsame ▸ hc) hsize
      obtain ⟨b, hb, _⟩ := hw.arrayBody_of_live ho hc hsize
      rw [ha, hb]
      dsimp only [bind, Except.bind]
      split
      · -- Both ranges lie within their arrays, so the copy fits.
        next hsrc hdst =>
        obtain ⟨⟨hsrc, hcount, hsfit⟩, _⟩ := rangeWithin?_eq_some_iff.mp hsrc
        obtain ⟨⟨hdst, _, hdfit⟩, _⟩ := rangeWithin?_eq_some_iff.mp hdst
        have harray := cls.elementSize_pos_iff.mp (Nat.pos_of_ne_zero hsize)
        exact absurd ⟨⟨so, o, cls, hso, ho, hsame, hc, harray⟩, hsrc, hdst, hcount,
          lengthOf_of_arrayBody ha ▸ hsfit, lengthOf_of_arrayBody hb ▸ hdfit⟩ hfits
      · exact ⟨_, rfl⟩
  · -- Objects of two classes: the refusal names both.
    refine ⟨scls.dotted ++ " to " ++ cls.dotted, ?_⟩
    show (m.classOf s >>= fun srcClass => m.classOf d >>= _) = _
    rw [get_of_live hso, get_of_live ho]
    show (if so.owner ≠ o.owner then _ else _ : Except Stop Machine) = _
    rw [if_pos hsame, ClassTable.dotted, ClassTable.dotted, ClassTable.get_eq_ok_iff.mpr hscls,
      ClassTable.get_eq_ok_iff.mpr hc]
    rfl

/-- A copy is made, or refused. -/
theorem WellFormed.answers_arrayCopy (hw : m.WellFormed named) {src dst : Option ObjectRef}
    (hsrc : m.NullOrLive src) (hdst : m.NullOrLive dst) (srcPos dstPos count : Int32) :
    Answers (m.arrayCopy src srcPos dst dstPos count) := by
  cases src with
  | none => exact answers_thrown _
  | some s =>
    cases dst with
    | none => exact answers_thrown _
    | some d =>
      obtain ⟨so, hso⟩ := hsrc s rfl
      obtain ⟨o, ho⟩ := hdst d rfl
      by_cases hfits : m.CopyFits s srcPos d dstPos count
      · obtain ⟨_, _, _, _, _, _, _, ⟨_, h⟩ | ⟨out, _, h⟩⟩ := hw.arrayCopy_of_fits hfits
        · exact h ▸ answers_ok _
        · exact h ▸ answers_ok _
      · obtain ⟨message, h⟩ := hw.arrayCopy_of_not_fits hso ho hfits
        exact h ▸ answers_thrown _

end Copies

/-! ## Reachable machines -/

/-- In a reachable machine every live object has the body that its class calls for: the elements of
an array, in whole and of the kind of the class, exactly when that is an array class, and fields as
large as the layout when a file defines the class. So the length of an array, an element, a write to
one and a copy are a result or an exception, whatever the index, the range and the value, as long as
no reference dangles. -/
theorem bodies_agree {path : ClassPath} (h : m.Reachable path PlainName) :
    (∀ r o, m.heap.get? r = some o → ∃ cls, m.classes.get? o.owner = some cls ∧
      (∀ t, cls.element? = some t ↔ ∃ a, o.body = .array a ∧ a.tag = t) ∧
      (∀ p data, o.body = .array (.primitive p data) → p.size ∣ data.length) ∧
      (¬ m.classes.IsBuiltIn o.owner → ∃ bytes refs, o.body = .fields bytes refs ∧
        bytes.length = cls.layout.bytes ∧ refs.length = cls.layout.refs)) ∧
      ∀ array, m.NullOrLive array →
        Answers (m.arrayLength array) ∧ (∀ index, Answers (m.arrayLoad array index)) ∧
          (∀ index v, m.ValueLive v → Answers (m.arrayStore array index v)) ∧
          ∀ dst, m.NullOrLive dst → ∀ srcPos dstPos count,
            Answers (m.arrayCopy array srcPos dst dstPos count) := by
  have hw := h.wellFormed fun _ hn => hn
  constructor
  · intro r o ho
    obtain ⟨cls, hc⟩ := hw.exists_class ho
    refine ⟨cls, hc, ?_⟩
    rcases hw.body_cases ho hc with ⟨a, hbody, hwhole, helement⟩ | ⟨hbody, helement, hfile⟩
    · refine ⟨fun t => ?_, ?_, fun hnot => ?_⟩
      · rw [helement, hbody]
        simp
      · intro p data hdata
        rw [hbody, Body.array.injEq] at hdata
        rw [hdata] at hwhole
        exact hwhole
      · have harray : cls.isArray = true := by
          rw [Class.isArray, helement]
          rfl
        exact absurd ⟨cls, hc, Or.inr harray⟩ hnot
    · refine ⟨fun t => ?_, fun p data hdata => absurd hdata (hbody _), hfile⟩
      rw [helement]
      constructor
      · intro hnone
        cases hnone
      · rintro ⟨a, ha, _⟩
        exact absurd ha (hbody a)
  · intro array harray
    exact ⟨hw.answers_arrayLength harray, hw.answers_arrayLoad harray,
      fun index _ hv => hw.answers_arrayStore harray index hv,
      fun _ hdst srcPos dstPos count => hw.answers_arrayCopy harray hdst srcPos dstPos count⟩

/-- A machine with an object of the class of a file, an array of integers and an array of objects of
that class. -/
def arrayMachine : Machine :=
  ((Operation.newArray ⟨27⟩ 2).run {}
    ((Operation.newArray (.ofPrimitive .int) 3).run {} implementerMachine).2).2

theorem reachable_arrayMachine : arrayMachine.Reachable {} PlainName :=
  (reachable_implementerMachine.operation (.newArray (.ofPrimitive .int) 3) trivial).operation
    (.newArray ⟨27⟩ 2) trivial

/-- An instance has the bytes of its fields, and storing into an array answers. -/
theorem bodies_agree_arrayMachine :
    (∃ o bytes refs, arrayMachine.heap.get? ⟨0⟩ = some o ∧ o.body = .fields bytes refs ∧
      bytes.length = 4) ∧
      Answers (arrayMachine.arrayStore (some ⟨2⟩) 1 (.ref ⟨0⟩)) := by
  obtain ⟨hbodies, haccess⟩ := bodies_agree reachable_arrayMachine
  have hlive : ∀ i : Fin 3, (arrayMachine.heap.get? ⟨i.val⟩).isSome = true := by decide +kernel
  have hnull : ∀ i : Fin 3, arrayMachine.NullOrLive (some ⟨i.val⟩) := by
    rintro i _ ⟨⟩
    exact Option.isSome_iff_exists.mp (hlive i)
  constructor
  · obtain ⟨o, ho⟩ : ∃ o, arrayMachine.heap.get? ⟨0⟩ = some o := hnull 0 _ rfl
    obtain ⟨cls, hc, _, _, hfile⟩ := hbodies _ o ho
    have howner : (arrayMachine.heap.get? ⟨0⟩).map Object.owner = some ⟨27⟩ := by decide +kernel
    rw [ho, Option.map_some, Option.some.injEq] at howner
    have hclass : (arrayMachine.classes.get? ⟨27⟩).map (fun c => (c.layout.bytes, c.isArray)) =
        some (4, false) := by decide +kernel
    rw [howner] at hc hfile
    rw [hc, Option.map_some, Option.some.injEq, Prod.mk.injEq] at hclass
    have hnot : ¬ arrayMachine.classes.IsBuiltIn ⟨27⟩ := by
      rintro ⟨cls', hc', hlt | harray⟩
      · rw [ClassTable.size_bootstrap] at hlt
        exact absurd hlt (by decide)
      · rw [hc, Option.some.injEq] at hc'
        rw [← hc', hclass.2] at harray
        cases harray
    obtain ⟨bytes, refs, hbody, hbytes, _⟩ := hfile hnot
    exact ⟨o, bytes, refs, ho, hbody, hbytes.trans hclass.1⟩
  · refine (haccess _ (hnull 2)).2.2.1 1 _ ?_
    rintro _ ⟨⟩
    exact hnull 0

end Machine

end JavaMachine
