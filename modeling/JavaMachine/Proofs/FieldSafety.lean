/-
# Accesses that give an answer

An access to a field looks for the field at its place in the object that it accepts.  The object is
accepted by assignability, which follows superclasses and interfaces; places are laid out along
superclasses only.  So the field is where it is looked for whenever a class declares it, and an
instance field of an interface may have its place outside the object (`Machine.Misplaced`), which is
exactly when an access gives neither a value nor an exception.
-/
import JavaMachine.Proofs.FieldFrame

namespace JavaMachine

/-! ## Built-in classes -/

namespace ClassTable

variable {named : String → Prop} {t : ClassTable}

/-- An array class, or one that is always there. -/
def IsBuiltIn (t : ClassTable) (c : ClassId) : Prop :=
  ∃ cls, t.get? c = some cls ∧ (c.index < bootstrap.size ∨ cls.isArray = true)

/-- Up to its state, a built-in class is one of the bootstrap table or a new array class. -/
theorem WellFormed.fixed_of_isBuiltIn (h : t.WellFormed named) {c : ClassId} {cls : Class}
    (hget : t.get? c = some cls) (hc : t.IsBuiltIn c) :
    (∃ b ∈ bootstrapClasses, c.index < ClassTable.bootstrap.size ∧ cls.fixed = b.fixed) ∨
      ∃ element component, cls.fixed = arrayClassOf cls.name element component := by
  obtain ⟨cls', hget', hbuilt⟩ := hc
  rw [hget, Option.some.injEq] at hget'
  subst hget'
  rcases hbuilt with hlt | harray
  · obtain ⟨b, hb, hfixed⟩ := h.fixed_eq_bootstrap hget hlt
    exact Or.inl ⟨b, mem_of_get?_bootstrap hb, hlt, hfixed⟩
  · cases h.origin c cls hget with
    | bootstrap hb hfixed =>
      exact Or.inl ⟨_, mem_of_get?_bootstrap hb, lt_size_of_get? hb, hfixed⟩
    | array hcomp hshape hfixed => exact Or.inr ⟨_, _, hfixed⟩
    | file hlinked hnamed =>
      rw [hlinked.isArray_eq_false] at harray
      cases harray

/-- A built-in class declares no field and names no interface. -/
theorem WellFormed.members_of_isBuiltIn (h : t.WellFormed named) {c : ClassId}
    (hc : t.IsBuiltIn c) :
    ∃ cls, t.get? c = some cls ∧ cls.fields = [] ∧ cls.interfaces = [] := by
  obtain ⟨cls, hget, _⟩ := id hc
  refine ⟨cls, hget, ?_⟩
  rcases h.fixed_of_isBuiltIn hget hc with ⟨b, hb, _, hfixed⟩ | ⟨element, component, hfixed⟩
  · rw [Class.eq_of_fixed hfixed Class.fields fun _ => rfl,
      Class.eq_of_fixed hfixed Class.interfaces fun _ => rfl]
    exact ⟨fields_of_mem_bootstrapClasses b hb, interfaces_of_mem_bootstrapClasses b hb⟩
  · exact ⟨Class.eq_of_fixed (d := arrayClassOf ..) hfixed Class.fields fun _ => rfl,
      Class.eq_of_fixed (d := arrayClassOf ..) hfixed Class.interfaces fun _ => rfl⟩

/-- The classes above a built-in class are built in. -/
theorem WellFormed.isBuiltIn_of_mem_ancestors (h : t.WellFormed named) {c : ClassId}
    (hc : t.IsBuiltIn c) : ∀ a ∈ t.ancestors c, t.IsBuiltIn a := by
  refine forall_mem_ancestors (P := t.IsBuiltIn) ?_ hc
  intro c s hbuilt hs
  obtain ⟨cls, hget, hsuper⟩ := superclass_of_superclass? hs
  obtain ⟨scls, hsc⟩ := exists_get?_of_lt (Nat.lt_trans s.2 (lt_size_of_get? hget))
  refine ⟨scls, hsc, Or.inl ?_⟩
  rcases h.fixed_of_isBuiltIn hget hbuilt with ⟨b, hb, hlt, _⟩ | ⟨element, component, hfixed⟩
  · exact Nat.lt_trans s.2 hlt
  · rw [Class.eq_of_fixed (d := arrayClassOf ..) hfixed Class.superclass fun _ => rfl] at hsuper
    rw [← Option.some.inj hsuper, size_bootstrap]
    decide

/-- A class that declares a field takes no values of a built-in class. -/
theorem WellFormed.isAssignable_isBuiltIn (h : t.WellFormed named) {f : Field} {c : ClassId}
    (hf : t.Declares f) (hc : t.IsBuiltIn c) : t.isAssignable f.owner c = false := by
  -- The owner is no class above, for those declare no field, and no interface, for those name none.
  have habove : f.owner ∉ t.ancestors c := by
    intro hmem
    obtain ⟨cls, hget, hfields, _⟩ :=
      h.members_of_isBuiltIn (h.isBuiltIn_of_mem_ancestors hc _ hmem)
    obtain ⟨cls', hget', hfield⟩ := hf
    rw [hget, Option.some.injEq] at hget'
    rw [← hget', hfields] at hfield
    exact absurd hfield List.not_mem_nil
  obtain ⟨cls, hget, hfield, hlinked, _⟩ := h.linked_of_declares hf
  refine Bool.eq_false_iff.mpr fun ha => ?_
  cases hi : cls.isInterface with
  | false => exact habove (h.mem_ancestors_of_isAssignable hf hget hi ha)
  | true =>
    rcases implements_of_isAssignable hget hlinked.ordinary hi ha with heq | himpl
    · exact habove (heq ▸ self_mem_ancestors t _)
    · have hnone : t.implements c f.owner = false := by
        refine implements_eq_false fun a hmem => ?_
        obtain ⟨acls, haget, _, hinterfaces⟩ :=
          h.members_of_isBuiltIn (h.isBuiltIn_of_mem_ancestors hc a hmem)
        unfold interfaces
        rw [haget, Option.elim_some, hinterfaces]
        rfl
      rw [hnone] at himpl
      cases himpl

/-- Where files have plain names, a class with the name of an array class is one. -/
theorem WellFormed.isArray_of_isArrayName (h : t.WellFormed PlainName) {c : ClassId} {cls : Class}
    (hc : t.get? c = some cls) (hname : IsArrayName cls.name) : cls.isArray = true := by
  cases h.origin c cls hc with
  | bootstrap hb hfixed =>
    rw [Class.eq_of_fixed hfixed Class.name fun _ => rfl] at hname
    exact absurd hname (plainName_of_mem_bootstrapClasses _ (mem_of_get?_bootstrap hb))
  | array hcomp hshape hfixed =>
    exact Class.isArray_iff.mpr
      ⟨_, _, Class.eq_of_fixed (d := arrayClassOf ..) hfixed Class.kind fun _ => rfl⟩
  | file hlinked hnamed => exact absurd hname hnamed

end ClassTable

/-! ## Answers -/

/-- An instance of a class has storage laid out for a field: the class or one above it declares the
field. -/
def ClassTable.Carries (t : ClassTable) (c : ClassId) (f : Field) : Prop :=
  t.Declares f ∧ f.isStatic = false ∧ f.owner ∈ t.ancestors c

instance (t : ClassTable) (c : ClassId) (f : Field) : Decidable (t.Carries c f) :=
  inferInstanceAs (Decidable (_ ∧ _ ∧ _))

namespace Machine

variable {m : Machine} {f : Field} {target : Option ObjectRef} {v : Value}

/-- A reference is null or that of a live object. -/
def NullOrLive (m : Machine) (target : Option ObjectRef) : Prop :=
  ∀ r, target = some r → ∃ o, m.heap.get? r = some o

/-- An object is accepted as the receiver of an instance field whose place is not within it. -/
def Misplaced (m : Machine) (f : Field) (target : Option ObjectRef) : Prop :=
  f.isStatic = false ∧ ∃ r o cls, target = some r ∧ m.heap.get? r = some o ∧
    m.classes.get? o.owner = some cls ∧ m.classes.isAssignable f.owner o.owner = true ∧
    ¬ f.Fits cls.layout

/-- The class of a live object is in the table. -/
theorem WellFormed.exists_class {named : String → Prop} (hw : m.WellFormed named) {r : ObjectRef}
    {o : Object} (ho : m.heap.get? r = some o) : ∃ cls, m.classes.get? o.owner = some cls := by
  rcases (hw.shapes r o ho).cases with
    ⟨_, _, _, cls, hcls, _⟩ | ⟨_, _, cls, hcls, _⟩ | ⟨_, hlt⟩
  · exact ⟨cls, hcls⟩
  · exact ⟨cls, hcls⟩
  · exact ClassTable.exists_get?_of_lt (Nat.lt_of_lt_of_le hlt hw.classes.bootstrap.size_le)

/-- An object that is accepted as a receiver is an instance, as large as the layout of its class. -/
theorem WellFormed.fields_of_isAssignable (hw : m.WellFormed PlainName) (hf : m.classes.Declares f)
    {r : ObjectRef} {o : Object} (ho : m.heap.get? r = some o)
    (ha : m.classes.isAssignable f.owner o.owner = true) :
    ∃ cls bytes refs, m.classes.get? o.owner = some cls ∧ o.body = .fields bytes refs ∧
      bytes.length = cls.layout.bytes ∧ refs.length = cls.layout.refs := by
  obtain ⟨cls, hcls⟩ := hw.exists_class ho
  have hrefused : ¬ m.classes.IsBuiltIn o.owner := by
    intro hbuilt
    rw [hw.classes.isAssignable_isBuiltIn hf hbuilt] at ha
    cases ha
  -- Arrays and the bodies of other built-in classes are ruled out, which leaves instances.
  rcases (hw.shapes r o ho).cases with
    ⟨bytes, refs, hbody, cls', hcls', _, hlayout⟩ | ⟨_, _, cls', hcls', hname, _⟩ | ⟨_, hlt⟩
  · exact ⟨cls', bytes, refs, hcls', hbody, hlayout⟩
  · have harray := hw.classes.isArray_of_isArrayName hcls' hname
    exact absurd ⟨cls', hcls', Or.inr harray⟩ hrefused
  · exact absurd ⟨cls, hcls, Or.inl hlt⟩ hrefused

/-- A declared static field has a slot that holds a value of its kind. -/
theorem WellFormed.exists_staticSlot {named : String → Prop} (hw : m.WellFormed named)
    (hf : m.classes.Declares f) (hs : f.isStatic = true) :
    ∃ s, m.staticSlot? f = some s ∧ s.Holds f.tag := by
  obtain ⟨cls, hc, hfield⟩ := hf
  obtain ⟨s, hslot, hholds⟩ := hw.classes.slots _ cls hc f hfield hs
  refine ⟨s, ?_, hholds⟩
  show (m.classes.get? f.owner).bind _ = _
  rw [hc]
  exact hslot

/-- A receiver is misplaced exactly when nothing is loaded from what it is accepted with. -/
theorem WellFormed.misplaced_iff (hw : m.WellFormed PlainName) (hf : m.classes.Declares f)
    (hs : f.isStatic = false) {r : ObjectRef} {o : Object} (ho : m.heap.get? r = some o)
    (ha : m.classes.isAssignable f.owner o.owner = true) :
    m.Misplaced f (some r) ↔ o.body.load? f = none := by
  obtain ⟨cls, bytes, refs, hcls, hbody, hbytes, hrefs⟩ := hw.fields_of_isAssignable hf ho ha
  have hlayout : cls.layout = ⟨bytes.length, refs.length⟩ := by
    rw [hbytes, hrefs]
  have hfits := loadAt_isSome_iff f bytes refs
  rw [← hlayout] at hfits
  rw [hbody]
  show _ ↔ loadAt f bytes refs = none
  rw [← Option.not_isSome_iff_eq_none, hfits]
  constructor
  · rintro ⟨_, r', o', cls', hr, ho', hcls', _, hmis⟩
    cases hr
    rw [ho, Option.some.injEq] at ho'
    subst ho'
    rw [hcls, Option.some.injEq] at hcls'
    exact hcls' ▸ hmis
  · exact fun hmis => ⟨hs, r, o, cls, rfl, ho, hcls, ha, hmis⟩

/-- A receiver that is not accepted is not misplaced. -/
theorem not_misplaced_of_receiver_error {e : Stop} (h : m.receiver f target = .error e) :
    ¬ m.Misplaced f target := by
  rintro ⟨_, r, o, _, rfl, ho, _, ha, _⟩
  rw [receiver_eq_ok.mpr ⟨o, rfl, ho, rfl, ha⟩] at h
  cases h

/-- A receiver that is null or live is refused by an exception. -/
theorem WellFormed.receiver_thrown {named : String → Prop} (hw : m.WellFormed named)
    (ht : m.NullOrLive target) {e : Stop} (h : m.receiver f target = .error e) :
    ∃ t, e = .thrown t := by
  refine Machine.receiver_thrown h ?_
  intro r hr
  obtain ⟨o, ho⟩ := ht r hr
  obtain ⟨cls, hcls⟩ := hw.exists_class ho
  exact ⟨o, cls, ho, hcls⟩

/-- Reading a field gives an answer exactly when the field is not misplaced. -/
theorem WellFormed.answers_getField_iff (hw : m.WellFormed PlainName) (hf : m.classes.Declares f)
    (ht : m.NullOrLive target) : Answers (m.getField f target) ↔ ¬ m.Misplaced f target := by
  cases hs : f.isStatic with
  | true =>
    obtain ⟨s, hslot, hholds⟩ := hw.exists_staticSlot hf hs
    obtain ⟨v, hv⟩ := Option.isSome_iff_exists.mp hholds
    rw [getField_static hs, hslot, Option.bind_some, hv, Field.answers_atPlace_iff]
    refine ⟨?_, fun _ => rfl⟩
    rintro _ ⟨hinstance, _⟩
    rw [hs] at hinstance
    cases hinstance
  | false =>
    rw [getField_instance hs]
    cases hr : m.receiver f target with
    | error e =>
      obtain ⟨t, rfl⟩ := hw.receiver_thrown ht hr
      exact ⟨fun _ => not_misplaced_of_receiver_error hr, fun _ => answers_thrown t⟩
    | ok x =>
      obtain ⟨o, rfl, ho, hbody, ha⟩ := receiver_eq_ok.mp hr
      rw [hw.misplaced_iff hf hs ho ha, hbody, Except.bind, Field.answers_atPlace_iff,
        Option.isSome_iff_ne_none]

/-- Writing a field gives an answer exactly when the field is not misplaced, or the value cannot be
brought to the kind of the field. -/
theorem WellFormed.answers_setField_iff (hw : m.WellFormed PlainName) (hf : m.classes.Declares f)
    (ht : m.NullOrLive target) (v : Value) :
    Answers (m.setField f target v) ↔
      ¬ (m.Misplaced f target ∧ ∃ w, m.heap.coerceFor f.tag v = .ok w) := by
  cases hs : f.isStatic with
  | true =>
    obtain ⟨s, hslot, _⟩ := hw.exists_staticSlot hf hs
    rw [setField_static hs, hslot]
    refine ⟨?_, fun _ => ?_⟩
    · rintro _ ⟨⟨hinstance, _⟩, _⟩
      rw [hs] at hinstance
      cases hinstance
    · cases m.heap.coerceFor f.tag v with
      | error t => exact answers_thrown t
      | ok w => exact answers_ok _
  | false =>
    rw [setField_instance hs]
    cases hr : m.receiver f target with
    | error e =>
      obtain ⟨t, rfl⟩ := hw.receiver_thrown ht hr
      exact ⟨fun _ h => not_misplaced_of_receiver_error hr h.1, fun _ => answers_thrown t⟩
    | ok x =>
      obtain ⟨o, rfl, ho, hbody, ha⟩ := receiver_eq_ok.mp hr
      rw [hw.misplaced_iff hf hs ho ha, hbody, Except.bind]
      cases hcoerce : m.heap.coerceFor f.tag v with
      | error t =>
        refine ⟨?_, fun _ => answers_thrown t⟩
        rintro _ ⟨_, w, hw⟩
        cases hw
      | ok w =>
        show Answers (f.atPlace ((x.2.store? f w).map _)) ↔ _
        rw [Field.answers_atPlace_iff, Option.isSome_map,
          Body.store?_isSome_iff (tag_coerceFor hcoerce), Option.isSome_iff_ne_none]
        exact not_congr ⟨fun hnone => ⟨hnone, w, rfl⟩, fun h => h.1⟩

/-- Accesses to a declared field, with a receiver that is null or live, give an answer exactly when
the receiver is not misplaced. An object that is accepted is an instance of the size of its layout.
It has storage of its own for the field whenever its class carries the field, which can only fail
for a field of an interface. -/
theorem answers_field_access_iff {path : ClassPath} (h : m.Reachable path PlainName)
    (hf : m.classes.Declares f) (ht : m.NullOrLive target) :
    (Answers (m.getField f target) ↔ ¬ m.Misplaced f target) ∧
      (∀ v, Answers (m.setField f target v) ↔
        ¬ (m.Misplaced f target ∧ ∃ w, m.heap.coerceFor f.tag v = .ok w)) ∧
      (f.isStatic = false → ∀ r body, m.receiver f target = .ok (r, body) →
        ∃ c cls bytes refs, m.classOf r = .ok c ∧ m.classes.get? c = some cls ∧
          body = .fields bytes refs ∧ bytes.length = cls.layout.bytes ∧
          refs.length = cls.layout.refs ∧
          (m.classes.Carries c f → f.Fits cls.layout ∧
            ∀ g, m.classes.Carries c g → g ≠ f → f.Disjoint g) ∧
          (¬ m.classes.Carries c f →
            ∃ ocls, m.classes.get? f.owner = some ocls ∧ ocls.isInterface = true)) := by
  have hw := h.wellFormed fun _ hn => hn
  refine ⟨hw.answers_getField_iff hf ht, hw.answers_setField_iff hf ht, ?_⟩
  intro hs r body hr
  obtain ⟨o, rfl, ho, rfl, ha⟩ := receiver_eq_ok.mp hr
  obtain ⟨cls, bytes, refs, hcls, hbody, hbytes, hrefs⟩ := hw.fields_of_isAssignable hf ho ha
  refine ⟨o.owner, cls, bytes, refs, ?_, hcls, hbody, hbytes, hrefs, ?_, ?_⟩
  · rw [classOf, Heap.get_eq_ok_iff.mpr ho]
    rfl
  · rintro ⟨_, _, hmem⟩
    refine ⟨hw.classes.fits_of_mem_ancestors hcls hf hs hmem, ?_⟩
    rintro g ⟨hg, hgs, hgmem⟩ hne
    exact hw.classes.disjoint_of_mem_ancestors hf hg hs hgs hmem hgmem (Ne.symm hne)
  · intro hnot
    obtain ⟨ocls, hocls, _⟩ := hw.classes.linked_of_declares hf
    refine ⟨ocls, hocls, ?_⟩
    cases hi : ocls.isInterface with
    | true => rfl
    | false => exact absurd ⟨hf, hs, hw.classes.mem_ancestors_of_isAssignable hf hocls hi ha⟩ hnot

/-- An interface with an `int` field `x` and a `long` field `z`, neither of them static. -/
def interfaceFile : Bytes := [
    0xCA, 0xFE, 0xBA, 0xBE, 0x00, 0x00, 0x00, 0x34, 0x00, 0x08, 0x01, 0x00, 0x01, 0x49, 0x07,
    0x00, 0x01, 0x01, 0x00, 0x10, 0x6A, 0x61, 0x76, 0x61, 0x2F, 0x6C, 0x61, 0x6E, 0x67, 0x2F,
    0x4F, 0x62, 0x6A, 0x65, 0x63, 0x74, 0x07, 0x00, 0x03, 0x01, 0x00, 0x01, 0x78, 0x01, 0x00,
    0x01, 0x7A, 0x01, 0x00, 0x01, 0x4A, 0x06, 0x01, 0x00, 0x02, 0x00, 0x04, 0x00, 0x00, 0x00,
    0x02, 0x00, 0x01, 0x00, 0x05, 0x00, 0x01, 0x00, 0x00, 0x00, 0x01, 0x00, 0x06, 0x00, 0x07,
    0x00, 0x00, 0x00, 0x00, 0x00, 0x00]

/-- A class that names the interface of `interfaceFile`, with an `int` field `y`. -/
def implementerFile : Bytes := [
    0xCA, 0xFE, 0xBA, 0xBE, 0x00, 0x00, 0x00, 0x34, 0x00, 0x08, 0x01, 0x00, 0x01, 0x43, 0x07,
    0x00, 0x01, 0x01, 0x00, 0x10, 0x6A, 0x61, 0x76, 0x61, 0x2F, 0x6C, 0x61, 0x6E, 0x67, 0x2F,
    0x4F, 0x62, 0x6A, 0x65, 0x63, 0x74, 0x07, 0x00, 0x03, 0x01, 0x00, 0x01, 0x49, 0x07, 0x00,
    0x05, 0x01, 0x00, 0x01, 0x79, 0x00, 0x01, 0x00, 0x02, 0x00, 0x04, 0x00, 0x01, 0x00, 0x06,
    0x00, 0x01, 0x00, 0x01, 0x00, 0x07, 0x00, 0x05, 0x00, 0x00, 0x00, 0x00, 0x00, 0x00]

/-- The field `y`, in which the object holds 7. -/
def ownField : Field :=
  { owner := ⟨27⟩, name := "y", descriptor := "I", tag := .primitive .int, offset := 0, flags := 1 }

/-- The field `x` of the interface, at the offset of `y`. -/
def sharedField : Field :=
  { owner := ⟨26⟩, name := "x", descriptor := "I", tag := .primitive .int, offset := 0, flags := 1 }

/-- The field `z` of the interface, behind the object. -/
def outerField : Field :=
  { owner := ⟨26⟩, name := "z", descriptor := "J", tag := .primitive .long, offset := 8,
    flags := 1 }

/-- A machine with both classes and an object of the second one, after its field was written. -/
def implementerMachine : Machine :=
  ((Operation.setField ownField (some ⟨0⟩) (.int 7)).run {}
    ((Operation.newInstance ⟨27⟩).run {} ((Operation.define implementerFile).run {}
      ((Operation.define interfaceFile).run {} {}).2).2).2).2

theorem reachable_implementerMachine : implementerMachine.Reachable {} PlainName := by
  refine (((reachable_new.operation (.define interfaceFile) ?_).operation
    (.define implementerFile) ?_).operation (.newInstance ⟨27⟩) trivial).operation
    (.setField ownField (some ⟨0⟩) (.int 7)) ?_
  · show FileNamed PlainName interfaceFile
    decide +kernel
  · show FileNamed PlainName implementerFile
    decide +kernel
  · show ClassTable.Declares _ ownField
    decide +kernel

theorem nullOrLive_implementerMachine : implementerMachine.NullOrLive (some ⟨0⟩) := by
  have hlive : (implementerMachine.heap.get? ⟨0⟩).isSome = true := by decide +kernel
  rintro _ ⟨⟩
  exact Option.isSome_iff_exists.mp hlive

/-- The field of the class is where it is looked for, and the field behind the object is not. -/
theorem answers_field_access_implementerMachine :
    ¬ implementerMachine.Misplaced ownField (some ⟨0⟩) ∧
      implementerMachine.Misplaced outerField (some ⟨0⟩) := by
  have hown : implementerMachine.classes.Declares ownField := by decide +kernel
  have houter : implementerMachine.classes.Declares outerField := by decide +kernel
  have hanswer : Answers (implementerMachine.getField ownField (some ⟨0⟩)) := by decide +kernel
  have hnone : ¬ Answers (implementerMachine.getField outerField (some ⟨0⟩)) := by decide +kernel
  have hreach := reachable_implementerMachine
  have hlive := nullOrLive_implementerMachine
  refine ⟨(answers_field_access_iff hreach hown hlive).1.mp hanswer, ?_⟩
  exact Classical.byContradiction fun hn =>
    hnone ((answers_field_access_iff hreach houter hlive).1.mpr hn)

/-- An object that is accepted for the fields of an interface has no storage for them: one of them
is read from the storage of another field, and the other gives no answer. -/
theorem interface_fields_without_storage :
    implementerMachine.Reachable {} PlainName ∧ implementerMachine.NullOrLive (some ⟨0⟩) ∧
      implementerMachine.classes.Declares sharedField ∧
      implementerMachine.classes.Declares outerField ∧
      ¬ implementerMachine.classes.Carries ⟨27⟩ sharedField ∧
      (implementerMachine.getField sharedField (some ⟨0⟩)).toOption = some (.int 7) ∧
      ¬ Answers (implementerMachine.getField outerField (some ⟨0⟩)) := by
  refine ⟨reachable_implementerMachine, nullOrLive_implementerMachine, ?_⟩
  decide +kernel

end Machine

end JavaMachine
