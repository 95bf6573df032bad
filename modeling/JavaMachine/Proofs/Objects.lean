/-
# Objects and their shapes

What a heap has at a reference after an object was added, changed or freed.  The shape of an object
follows from its class (`ClassTable.Shapes`): an instance has the bytes and reference slots of the
layout, an array belongs to a class with the name of an array class and has whole elements of its
kind, and everything else is of a class that is always there.  Writing into an object keeps its shape.
-/
import JavaMachine.Proofs.ClassGrowth

namespace JavaMachine

/-- A reference is the position of a slot. -/
theorem ObjectRef.eq_iff_index {p r : ObjectRef} : p = r ↔ r.index = p.index :=
  ⟨fun hp => congrArg ObjectRef.index hp.symm, fun hp => congrArg ObjectRef.mk hp.symm⟩

namespace Heap

/-! ## Adding, changing and freeing objects -/

/-- An object of a heap to which one was added is that one or an old one. -/
theorem get?_allocate {h : Heap} {owner : ClassId} {body : Body} {r : ObjectRef} {o : Object}
    (ho : (h.allocate owner body).1.get? r = some o) :
    (o.owner = owner ∧ o.body = body) ∨ h.get? r = some o := by
  unfold allocate at ho
  -- A free slot is taken, or else one is added at the end.
  split at ho
  · next i free hfree =>
    rw [get?, Array.getElem?_setIfInBounds] at ho
    split at ho
    · split at ho
      · rw [Option.join_some, Option.some.injEq] at ho
        rw [← ho]
        exact Or.inl ⟨rfl, rfl⟩
      · cases ho
    · exact Or.inr ho
  · rw [get?, Array.getElem?_push] at ho
    split at ho
    · rw [Option.join_some, Option.some.injEq] at ho
      rw [← ho]
      exact Or.inl ⟨rfl, rfl⟩
    · exact Or.inr ho

/-- The objects of a heap in which the contents of one object changed. -/
theorem get?_updateBody (h : Heap) (r : ObjectRef) (f : Body → Body) (p : ObjectRef) :
    (h.updateBody r f).get? p =
      if p = r then (h.get? p).map fun o => { o with body := f o.body } else h.get? p := by
  rw [get?, updateBody, Array.getElem?_modify]
  by_cases hp : r.index = p.index
  · rw [if_pos hp, if_pos (ObjectRef.eq_iff_index.mpr hp), get?]
    rcases h.slots[p.index]? with _ | _ | _ <;> rfl
  · rw [if_neg hp, if_neg fun hc => hp (ObjectRef.eq_iff_index.mp hc)]
    rfl

/-- Contents that are replaced by themselves stay as they are. -/
theorem updateBody_self {h : Heap} {r : ObjectRef} {o : Object} (ho : h.get? r = some o) :
    (h.updateBody r fun _ => o.body) = h := by
  have hslot : h.slots[r.index]? = some (some o) := Option.join_eq_some_iff.mp ho
  have hslots : h.slots.modify r.index (Option.map fun x => { x with body := o.body }) =
      h.slots := by
    apply Array.ext_getElem?
    intro i
    rw [Array.getElem?_modify]
    split
    · next hi =>
      rw [← hi, hslot]
      rfl
    · rfl
  unfold updateBody
  rw [hslots]

theorem get?_noteWrite (h : Heap) (r p : ObjectRef) : (h.noteWrite r).get? p = h.get? p := by
  unfold noteWrite
  split <;> rfl

/-- The objects of a heap in which one was freed. -/
theorem get?_freeOne (h : Heap) (r : ObjectRef) (o : Object) (p : ObjectRef) :
    (h.freeOne r o).get? p = if p = r then none else h.get? p := by
  rw [get?, freeOne, Array.getElem?_setIfInBounds]
  by_cases hp : r.index = p.index
  · rw [if_pos hp, if_pos (ObjectRef.eq_iff_index.mpr hp)]
    split <;> rfl
  · rw [if_neg hp, if_neg fun hc => hp (ObjectRef.eq_iff_index.mp hc)]
    rfl

/-- An object that a collection leaves was there before. -/
theorem get?_sweep {h : Heap} {keep : ObjectRef → Object → Bool} {p : ObjectRef} {o : Object}
    (ho : (h.sweep keep).1.get? p = some o) : h.get? p = some o := by
  have hfold : ∀ (l : List (ObjectRef × Object)) (g : Heap),
      (l.foldl (fun g e => g.freeOne e.1 e.2) g).get? p = some o → g.get? p = some o := by
    intro l
    induction l with
    | nil => exact fun _ hg => hg
    | cons e l ih =>
      intro g hg
      have hfreed := ih _ hg
      rw [get?_freeOne] at hfreed
      split at hfreed
      · cases hfreed
      · exact hfreed
  exact hfold _ h ho

/-- A reference that has to be live is live exactly where an object is got. -/
theorem get_eq_ok_iff {h : Heap} {r : ObjectRef} {o : Object} :
    h.get r = .ok o ↔ h.get? r = some o := by
  unfold get
  cases h.get? r with
  | none => simp
  | some x => simp

end Heap

/-! ## Shapes -/

/-- The name is that of an array class. -/
def IsArrayName (name : String) : Prop := name.toList.head? = some '['

instance (name : String) : Decidable (IsArrayName name) :=
  inferInstanceAs (Decidable (name.toList.head? = some '['))

/-- The name is that of no array class. -/
abbrev PlainName (name : String) : Prop := ¬ IsArrayName name

/-- The name of an array class is a bracket and what stands behind it. -/
theorem isArrayName_iff {name : String} :
    IsArrayName name ↔ ∃ rest, name.toList = '[' :: rest :=
  List.head?_eq_some_iff

theorem isArrayName_of_toList {name : String} {rest : List Char}
    (h : name.toList = '[' :: rest) : IsArrayName name :=
  isArrayName_iff.mpr ⟨rest, h⟩

theorem IsArrayName.append {a : String} (h : IsArrayName a) (b : String) :
    IsArrayName (a ++ b) := by
  unfold IsArrayName at h ⊢
  rw [String.toList_append, List.head?_append, h]
  rfl

/-- No class that is always there has the name of an array class. -/
theorem plainName_of_mem_bootstrapClasses : ∀ b ∈ bootstrapClasses, PlainName b.name := by
  decide +kernel

/-- Array classes have the names of array classes. -/
theorem isArrayName_of_arrayShape? {component : Class} {name : String} {element : Tag}
    (h : arrayShape? component = some (name, element)) : IsArrayName name := by
  have hone : IsArrayName "[" := by decide +kernel
  have htwo : IsArrayName "[L" := by decide +kernel
  unfold arrayShape? at h
  split at h
  · cases h
  · cases h
    exact hone.append _
  · cases h
    exact hone.append _
  · cases h
    exact (htwo.append _).append _

/-- The storage of an array is that of whole elements. -/
def ArrayBody.Whole : ArrayBody → Prop
  | primitive p data => p.size ∣ data.length
  | references _ => True

theorem ArrayBody.whole_zeroed (t : Tag) (n : Nat) : (zeroed t n).Whole := by
  cases t with
  | primitive p =>
    show p.size ∣ (List.replicate (n * p.size) 0).length
    rw [List.length_replicate]
    exact Nat.dvd_mul_left p.size n
  | reference => trivial

/-- An array of as many elements of the same kind as another one. -/
def ArrayBody.SameShape : ArrayBody → ArrayBody → Prop
  | primitive p data, primitive q data' => q = p ∧ data'.length = data.length
  | references slots, references slots' => slots'.length = slots.length
  | _, _ => False

theorem ArrayBody.sameShape_refl (a : ArrayBody) : a.SameShape a := by
  cases a <;> simp [SameShape]

theorem ArrayBody.SameShape.tag_eq {a b : ArrayBody} (h : a.SameShape b) : b.tag = a.tag := by
  cases a with
  | primitive p data =>
    cases b with
    | primitive q data' => exact congrArg Tag.primitive h.1
    | references _ => cases h
  | references slots =>
    cases b with
    | primitive q data' => cases h
    | references _ => rfl

theorem ArrayBody.Whole.of_sameShape {a b : ArrayBody} (h : a.Whole) (hs : a.SameShape b) :
    b.Whole := by
  cases a with
  | primitive p data =>
    cases b with
    | primitive q data' =>
      obtain ⟨rfl, hlength⟩ := hs
      rw [Whole, hlength]
      exact h
    | references _ => cases hs
  | references slots =>
    cases b with
    | primitive q data' => cases hs
    | references _ => trivial

/-- A body of the same shape as another one. -/
def Body.SameShape : Body → Body → Prop
  | .fields bytes refs, .fields bytes' refs' =>
    bytes'.length = bytes.length ∧ refs'.length = refs.length
  | .array a, .array a' => a.SameShape a'
  | b, b' => b' = b

theorem Body.sameShape_refl (b : Body) : b.SameShape b := by
  cases b with
  | fields bytes refs => exact ⟨rfl, rfl⟩
  | array a => exact a.sameShape_refl
  | _ => rfl

/-- The body of an object of a class. -/
def ClassTable.Shapes (t : ClassTable) (owner : ClassId) : Body → Prop
  | .fields bytes refs =>
    ∃ cls, t.get? owner = some cls ∧ cls.isArray = false ∧ bytes.length = cls.layout.bytes ∧
      refs.length = cls.layout.refs
  | .array a =>
    ∃ cls, t.get? owner = some cls ∧ IsArrayName cls.name ∧
      a.tag = cls.element?.getD .reference ∧ a.Whole
  | .reflected (.ofField f) => owner.index < ClassTable.bootstrap.size ∧ t.Declares f
  | _ => owner.index < ClassTable.bootstrap.size

namespace ClassTable

variable {t t' : ClassTable}

theorem Declares.of_extends {f : Field} (h : t.Declares f) (hext : t.Extends t') :
    t'.Declares f := by
  obtain ⟨cls, hc, hf⟩ := h
  obtain ⟨cls', hc', he⟩ := hext _ cls hc
  refine ⟨cls', hc', ?_⟩
  rw [Class.eq_of_fixed he Class.fields fun _ => rfl]
  exact hf

/-- A body keeps fitting its class in every extension of the table. -/
theorem Shapes.of_extends {owner : ClassId} {b : Body} (h : t.Shapes owner b)
    (hext : t.Extends t') : t'.Shapes owner b := by
  cases b with
  | fields bytes refs =>
    obtain ⟨cls, hc, harray, hbytes, hrefs⟩ := h
    obtain ⟨cls', hc', he⟩ := hext _ cls hc
    have ha : cls'.isArray = cls.isArray := Class.eq_of_fixed he Class.isArray fun _ => rfl
    have hl : cls'.layout = cls.layout := Class.eq_of_fixed he Class.layout fun _ => rfl
    exact ⟨cls', hc', ha.trans harray, hl ▸ hbytes, hl ▸ hrefs⟩
  | array a =>
    obtain ⟨cls, hc, hname, htag, hwhole⟩ := h
    obtain ⟨cls', hc', he⟩ := hext _ cls hc
    have hn : cls'.name = cls.name := Class.eq_of_fixed he Class.name fun _ => rfl
    have hl : cls'.element? = cls.element? := Class.eq_of_fixed he Class.element? fun _ => rfl
    exact ⟨cls', hc', hn ▸ hname, hl ▸ htag, hwhole⟩
  | reflected x =>
    cases x with
    | ofField f => exact ⟨h.1, h.2.of_extends hext⟩
    | _ => exact h
  | _ => exact h

/-- A body that fits its class is an instance as large as the layout, is an array of a class with the
name of an array class, or belongs to a class that is always there. -/
theorem Shapes.cases {owner : ClassId} {b : Body} (h : t.Shapes owner b) :
    (∃ bytes refs, b = .fields bytes refs ∧ ∃ cls, t.get? owner = some cls ∧ cls.isArray = false ∧
        bytes.length = cls.layout.bytes ∧ refs.length = cls.layout.refs) ∨
      (∃ a, b = .array a ∧ ∃ cls, t.get? owner = some cls ∧ IsArrayName cls.name ∧
        a.tag = cls.element?.getD .reference ∧ a.Whole) ∨
        ((∀ a, b ≠ .array a) ∧ owner.index < ClassTable.bootstrap.size) := by
  cases b with
  | fields bytes refs => exact Or.inl ⟨bytes, refs, rfl, h⟩
  | array a => exact Or.inr (Or.inl ⟨a, rfl, h⟩)
  | reflected x =>
    refine Or.inr (Or.inr ⟨fun _ h => (nomatch h), ?_⟩)
    cases x with
    | ofField f => exact h.1
    | _ => exact h
  | _ => exact Or.inr (Or.inr ⟨fun _ h => (nomatch h), h⟩)

/-- A body of the same shape fits the same class. -/
theorem Shapes.of_sameShape {owner : ClassId} {b b' : Body} (h : t.Shapes owner b)
    (hs : b.SameShape b') : t.Shapes owner b' := by
  cases b with
  | fields bytes refs =>
    cases b' with
    | fields bytes' refs' =>
      obtain ⟨cls, hc, harray, hbytes, hrefs⟩ := h
      exact ⟨cls, hc, harray, hs.1.trans hbytes, hs.2.trans hrefs⟩
    | _ => cases hs
  | array a =>
    cases b' with
    | array a' =>
      obtain ⟨cls, hc, hname, htag, hwhole⟩ := h
      have hsame : a.SameShape a' := hs
      exact ⟨cls, hc, hname, hsame.tag_eq.trans htag, hwhole.of_sameShape hsame⟩
    | _ => cases hs
  | _ =>
    cases hs
    exact h

end ClassTable

end JavaMachine
