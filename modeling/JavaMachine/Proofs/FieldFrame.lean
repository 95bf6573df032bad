/-
# Writing a field and reading it back

What a field is read as depends on its own slot, or on its own place in the receiver, and otherwise
only on what a write to a field leaves as it is: the fixed parts of classes and the classes of
objects.  A write to a field of a class is therefore read back from that field, and no other field
of a class and no array element is read differently.
-/
import JavaMachine.Proofs.Operations

namespace JavaMachine

/-- A declared field that is static, or that a class declares and no interface. -/
def ClassTable.DeclaresInClass (t : ClassTable) (f : Field) : Prop :=
  t.Declares f ∧ (f.isStatic = true ∨ ∃ cls, t.get? f.owner = some cls ∧ cls.isInterface = false)

instance (t : ClassTable) (f : Field) : Decidable (t.DeclaresInClass f) :=
  decidable_of_iff
    (t.Declares f ∧ (f.isStatic = true ∨ (t.get? f.owner).map Class.isInterface = some false))
    (and_congr_right fun _ => or_congr_right Option.map_eq_some_iff)

/-- Two computations that fail alike are followed alike by a computation that uses no result. -/
theorem bind_const_congr {ε α β γ : Type} {x : Except ε α} {y : Except ε β}
    (h : x.map (fun _ => ()) = y.map fun _ => ()) (z : Except ε γ) :
    (x.bind fun _ => z) = y.bind fun _ => z := by
  cases x with
  | error e =>
    cases y with
    | error e' => exact congrArg Except.error (Except.error.inj h)
    | ok b => cases h
  | ok a =>
    cases y with
    | error e' => cases h
    | ok b => rfl

namespace Machine

variable {m m' : Machine} {f g : Field} {target p : Option ObjectRef} {v w : Value}

/-! ## What reading looks at -/

/-- The fields of a receiver are read alike in two machines that agree on the fixed parts of
classes, on the class of the receiver and on the place of the field. -/
theorem getField_eq_of_agrees (hclasses : m'.classes.Agrees m.classes)
    (hslot : g.isStatic = true → m'.staticSlot? g = m.staticSlot? g)
    (hbody : ∀ r, g.isStatic = false → p = some r →
      (m'.heap.get? r = none ∧ m.heap.get? r = none) ∨
        ∃ o' o, m'.heap.get? r = some o' ∧ m.heap.get? r = some o ∧ o'.owner = o.owner ∧
          (m.classes.isAssignable g.owner o.owner = true → o'.body.load? g = o.body.load? g)) :
    m'.getField g p = m.getField g p := by
  cases hs : g.isStatic with
  | true => rw [getField_static hs, getField_static hs, hslot hs]
  | false =>
    rw [getField_instance hs, getField_instance hs]
    cases p with
    | none => rfl
    | some r =>
      rcases hbody r hs rfl with ⟨h', h⟩ | ⟨o', o, h', h, howner, hload⟩
      · have hreceiver : m'.receiver g (some r) = m.receiver g (some r) := by
          show (m'.heap.get r >>= _) = (m.heap.get r >>= _)
          rw [Heap.get, h', Heap.get, h]
          rfl
        rw [hreceiver]
      · -- The refusal of a receiver names its class, so the name is compared as well.
        have hdotted := hclasses.dotted o.owner
        have haccepts := hclasses.isAssignable g.owner o.owner
        rw [receiver_some h', receiver_some h, howner, haccepts, hdotted]
        split
        · next ha =>
          exact congrArg g.atPlace (hload ha)
        · cases m.classes.dotted o.owner <;> rfl

/-- The check that an object is of an array class looks at the fixed part of the class. -/
theorem arrayClassOf_of_agrees (hclasses : m'.classes.Agrees m.classes) {r : ObjectRef}
    (howner : m'.classOf r = m.classOf r) :
    (m'.arrayClassOf r).map (fun _ => ()) = (m.arrayClassOf r).map fun _ => () := by
  unfold arrayClassOf
  rw [howner]
  cases m.classOf r with
  | error e => rfl
  | ok c =>
    show Except.map _ ((m'.classes.get c).bind _) = Except.map _ ((m.classes.get c).bind _)
    unfold ClassTable.get
    rcases hclasses.get? c with ⟨h', h⟩ | ⟨x, y, h', h, he⟩
    · rw [h', h]
    · rw [h', h]
      have hsize : x.elementSize = y.elementSize :=
        Class.eq_of_fixed he Class.elementSize fun _ => rfl
      have hdotted : x.dotted = y.dotted := Class.eq_of_fixed he Class.dotted fun _ => rfl
      show Except.map _ (if x.elementSize = 0 then raise (.illegalArgument (x.dotted ++ _)) >>= _
        else _ : Except Stop Class) = Except.map _ (if y.elementSize = 0 then _ else _)
      rw [hsize, hdotted]
      split <;> rfl

/-- Elements are read alike in two machines that agree on the fixed parts of classes, on the classes
of objects and on all objects but instances. -/
theorem arrayLoad_eq_of_agrees (hclasses : m'.classes.Agrees m.classes)
    (hbody : ∀ r, m'.heap.get? r = m.heap.get? r ∨
      ∃ o' o, m'.heap.get? r = some o' ∧ m.heap.get? r = some o ∧ o'.owner = o.owner ∧
        (∀ a, o'.body ≠ .array a) ∧ ∀ a, o.body ≠ .array a) (array : Option ObjectRef)
    (index : Int32) : m'.arrayLoad array index = m.arrayLoad array index := by
  cases array with
  | none => rfl
  | some r =>
    have hsame : m'.classOf r = m.classOf r ∧ m'.arrayBody r = m.arrayBody r := by
      rcases hbody r with h | ⟨o', o, h', h, howner, hno', hno⟩
      · unfold classOf arrayBody Heap.get
        rw [h]
        exact ⟨rfl, rfl⟩
      · rw [arrayBody_of_not_array h' hno', arrayBody_of_not_array h hno, classOf, classOf,
          Heap.get_eq_ok_iff.mpr h', Heap.get_eq_ok_iff.mpr h]
        exact ⟨congrArg Except.ok howner, rfl⟩
    show ((m'.arrayClassOf r).bind fun _ => (m'.arrayBody r).bind _) =
      ((m.arrayClassOf r).bind fun _ => (m.arrayBody r).bind _)
    rw [hsame.2]
    exact bind_const_congr (arrayClassOf_of_agrees hclasses hsame.1) _

/-! ## What writing changes -/

theorem staticSlot?_writeStatic_self {s : Slot} (h : m.staticSlot? f = some s) :
    (m.writeStatic f w).staticSlot? f = some (.ofValue w) := by
  obtain ⟨cls, hc, hslot⟩ :=
    Option.bind_eq_some_iff.mp (show (m.classes.get? f.owner).bind _ = _ from h)
  show ((m.classes.update f.owner _).get? f.owner).bind _ = _
  rw [ClassTable.get?_update, if_pos rfl, hc]
  exact List.getElem?_set_self (List.getElem?_eq_some_iff.mp hslot).1

/-- A slot at another offset, or of another class, is as it was. -/
theorem staticSlot?_writeStatic_of_ne (h : g.owner = f.owner → f.offset ≠ g.offset) :
    (m.writeStatic f w).staticSlot? g = m.staticSlot? g := by
  show ((m.classes.update f.owner _).get? g.owner).bind _ = (m.classes.get? g.owner).bind _
  rw [ClassTable.get?_update]
  split
  · next howner =>
    cases m.classes.get? g.owner with
    | none => rfl
    | some cls => exact List.getElem?_set_ne (h howner)
  · rfl

theorem agrees_writeStatic (m : Machine) (f : Field) (w : Value) :
    (m.writeStatic f w).classes.Agrees m.classes :=
  ClassTable.agrees_update fun _ => rfl

theorem agrees_writeBody (m : Machine) (r : ObjectRef) (body : Body) (w : Value) :
    (m.writeBody r body w).classes.Agrees m.classes :=
  fun _ => rfl

/-- The objects after a body was replaced: the one that was written to, and the others as they
were. -/
theorem get?_writeBody_cases {r : ObjectRef} {o : Object} (ho : m.heap.get? r = some o)
    (body : Body) (w : Value) (q : ObjectRef) :
    (q = r ∧ (m.writeBody r body w).heap.get? q = some { o with body }) ∨
      (q ≠ r ∧ (m.writeBody r body w).heap.get? q = m.heap.get? q) := by
  rw [get?_writeBody, Heap.get?_updateBody]
  by_cases hq : q = r
  · rw [if_pos hq, hq, ho]
    exact Or.inl ⟨rfl, rfl⟩
  · rw [if_neg hq]
    exact Or.inr ⟨hq, rfl⟩

/-- A field that no static slot was written for is read as before. -/
theorem getField_writeStatic (h : g.isStatic = true → g.owner = f.owner → f.offset ≠ g.offset) :
    (m.writeStatic f w).getField g p = m.getField g p := by
  refine getField_eq_of_agrees (agrees_writeStatic m f w) ?_ ?_
  · exact fun hs => staticSlot?_writeStatic_of_ne (h hs)
  · intro r _ _
    show (m.heap.get? r = none ∧ m.heap.get? r = none) ∨ _
    cases hr : m.heap.get? r with
    | none => exact Or.inl ⟨rfl, rfl⟩
    | some o => exact Or.inr ⟨o, o, hr, rfl, rfl, fun _ => rfl⟩

/-- A field is read as before from an object of which another body has the same at its place. -/
theorem getField_writeBody {r : ObjectRef} {o : Object} {body : Body} (ho : m.heap.get? r = some o)
    (h : g.isStatic = false → p = some r → m.classes.isAssignable g.owner o.owner = true →
      body.load? g = o.body.load? g) :
    (m.writeBody r body w).getField g p = m.getField g p := by
  refine getField_eq_of_agrees (agrees_writeBody m r body w) (fun _ => rfl) ?_
  intro q hs hp
  rcases get?_writeBody_cases ho body w q with ⟨rfl, hq⟩ | ⟨_, hq⟩
  · exact Or.inr ⟨_, o, hq, ho, rfl, h hs hp⟩
  · rw [hq]
    cases hr : m.heap.get? q with
    | none => exact Or.inl ⟨rfl, rfl⟩
    | some x => exact Or.inr ⟨x, x, rfl, rfl, rfl, fun _ => rfl⟩

/-- Elements are read as before when the body of an instance was replaced by that of an instance. -/
theorem arrayLoad_writeBody {r : ObjectRef} {o : Object} {body : Body} (ho : m.heap.get? r = some o)
    (hold : ∀ a, o.body ≠ .array a) (hnew : ∀ a, body ≠ .array a) (array : Option ObjectRef)
    (index : Int32) : (m.writeBody r body w).arrayLoad array index = m.arrayLoad array index := by
  refine arrayLoad_eq_of_agrees (agrees_writeBody m r body w) ?_ array index
  intro q
  rcases get?_writeBody_cases ho body w q with ⟨rfl, hq⟩ | ⟨_, hq⟩
  · exact Or.inr ⟨_, o, hq, ho, rfl, hnew, hold⟩
  · exact Or.inl hq

/-! ## Writing and reading -/

/-- Two different static fields of one class have different slots. -/
theorem static_offset_ne {named : String → Prop} (hw : m.WellFormed named)
    (hf : m.classes.Declares f) (hg : m.classes.Declares g) (hfs : f.isStatic = true)
    (hgs : g.isStatic = true) (hne : g ≠ f) (howner : g.owner = f.owner) : f.offset ≠ g.offset := by
  obtain ⟨cls, hc, hfield⟩ := hf
  obtain ⟨cls', hc', hgfield⟩ := hg
  rw [howner, hc, Option.some.injEq] at hc'
  subst hc'
  exact (hw.classes.apart hc hfield hgfield (Ne.symm hne)).2 hfs hgs

/-- An object that is accepted as the receiver of an instance field of a class is below that class.
-/
theorem owner_mem_ancestors {named : String → Prop} (hw : m.WellFormed named)
    (hf : m.classes.DeclaresInClass f) (hs : f.isStatic = false) {c : ClassId}
    (ha : m.classes.isAssignable f.owner c = true) : f.owner ∈ m.classes.ancestors c := by
  rcases hf.2 with hstatic | ⟨cls, hc, hi⟩
  · rw [hs] at hstatic
    cases hstatic
  · exact hw.classes.mem_ancestors_of_isAssignable hf.1 hc hi ha

/-- A value that is written to a field of a class is read back from it, brought to the kind of the
field; every other field of a class is read as before, and so is the field in another object and
every array element. -/
theorem getField_setField {path : ClassPath} {o : Option ObjectRef}
    (h : m.Reachable path PlainName) (hf : m.classes.DeclaresInClass f)
    (hset : m.setField f o v = .ok m') :
    (∃ w, m.heap.coerceFor f.tag v = .ok w ∧ m'.getField f o = .ok w) ∧
      (∀ g p, m.classes.DeclaresInClass g → g ≠ f → m'.getField g p = m.getField g p) ∧
      (f.isStatic = false → ∀ p, p ≠ o → m'.getField f p = m.getField f p) ∧
      ∀ array index, m'.arrayLoad array index = m.arrayLoad array index := by
  have hw := h.wellFormed fun _ hn => hn
  rcases setField_eq_ok hset with ⟨w, hcoerce, ⟨hs, ⟨s, hslot⟩, rfl⟩ | ⟨hs, hinstance⟩⟩
  -- A static field: one slot of one class was written.
  · refine ⟨⟨w, hcoerce, ?_⟩, ?_, ?_, ?_⟩
    · rw [getField_static hs, staticSlot?_writeStatic_self hslot, Option.bind_some,
        ← tag_coerceFor hcoerce, Slot.load?_ofValue]
      rfl
    · exact fun g p hg hne => getField_writeStatic fun hgs howner =>
        static_offset_ne hw hf.1 hg.1 hs hgs hne howner
    · intro hinstance
      rw [hs] at hinstance
      cases hinstance
    · exact arrayLoad_eq_of_agrees (agrees_writeStatic m f w) fun r => Or.inl rfl
  -- An instance field: the body of the receiver was replaced.
  · obtain ⟨r, x, body, rfl, hx, ha, hstore, rfl⟩ := hinstance
    obtain ⟨hsame, hload, hdisjoint⟩ := Body.store?_eq_some (tag_coerceFor hcoerce) hstore
    refine ⟨⟨w, hcoerce, ?_⟩, ?_, ?_, ?_⟩
    · rcases get?_writeBody_cases hx body w r with ⟨_, hr⟩ | ⟨hne, _⟩
      · rw [getField_instance hs, receiver_eq_ok.mpr ⟨_, rfl, hr, rfl, ha⟩]
        exact Field.atPlace_eq_ok.mpr hload
      · exact absurd rfl hne
    · intro g p hg hne
      refine getField_writeBody hx ?_
      intro hgs _ hga
      have hfm := owner_mem_ancestors hw hf hs ha
      have hgm := owner_mem_ancestors hw hg hgs hga
      refine hdisjoint g ?_
      exact hw.classes.disjoint_of_mem_ancestors hf.1 hg.1 hs hgs hfm hgm (Ne.symm hne)
    · intro _ p hp
      exact getField_writeBody hx fun _ hp' => absurd hp' hp
    · refine arrayLoad_writeBody hx ?_ ?_
      · intro a hbody
        rw [hbody] at hstore
        cases hstore
      · intro a hbody
        rw [hbody] at hload
        cases hload

/-- A class with a `byte` field `b`, an `int` field `x` and a static `long` field `s`. -/
def baseFile : Bytes := [
    0xCA, 0xFE, 0xBA, 0xBE, 0x00, 0x00, 0x00, 0x34, 0x00, 0x0B, 0x01, 0x00, 0x01, 0x50, 0x07,
    0x00, 0x01, 0x01, 0x00, 0x10, 0x6A, 0x61, 0x76, 0x61, 0x2F, 0x6C, 0x61, 0x6E, 0x67, 0x2F,
    0x4F, 0x62, 0x6A, 0x65, 0x63, 0x74, 0x07, 0x00, 0x03, 0x01, 0x00, 0x01, 0x62, 0x01, 0x00,
    0x01, 0x42, 0x01, 0x00, 0x01, 0x78, 0x01, 0x00, 0x01, 0x49, 0x01, 0x00, 0x01, 0x73, 0x01,
    0x00, 0x01, 0x4A, 0x00, 0x01, 0x00, 0x02, 0x00, 0x04, 0x00, 0x00, 0x00, 0x03, 0x00, 0x01,
    0x00, 0x05, 0x00, 0x06, 0x00, 0x00, 0x00, 0x01, 0x00, 0x07, 0x00, 0x08, 0x00, 0x00, 0x00,
    0x09, 0x00, 0x09, 0x00, 0x0A, 0x00, 0x00, 0x00, 0x00, 0x00, 0x00]

/-- A class below that of `baseFile`, with a `char` field `c` and a reference field `r`. -/
def derivedFile : Bytes := [
    0xCA, 0xFE, 0xBA, 0xBE, 0x00, 0x00, 0x00, 0x34, 0x00, 0x09, 0x01, 0x00, 0x01, 0x51, 0x07,
    0x00, 0x01, 0x01, 0x00, 0x01, 0x50, 0x07, 0x00, 0x03, 0x01, 0x00, 0x01, 0x63, 0x01, 0x00,
    0x01, 0x43, 0x01, 0x00, 0x01, 0x72, 0x01, 0x00, 0x12, 0x4C, 0x6A, 0x61, 0x76, 0x61, 0x2F,
    0x6C, 0x61, 0x6E, 0x67, 0x2F, 0x4F, 0x62, 0x6A, 0x65, 0x63, 0x74, 0x3B, 0x00, 0x01, 0x00,
    0x02, 0x00, 0x04, 0x00, 0x00, 0x00, 0x02, 0x00, 0x01, 0x00, 0x05, 0x00, 0x06, 0x00, 0x00,
    0x00, 0x01, 0x00, 0x07, 0x00, 0x08, 0x00, 0x00, 0x00, 0x00, 0x00, 0x00]

/-- A machine with both classes and one object of the lower class. -/
def derivedMachine : Machine :=
  ((Operation.newInstance ⟨27⟩).run {} ((Operation.define derivedFile).run {}
    ((Operation.define baseFile).run {} {}).2).2).2

theorem reachable_derivedMachine : derivedMachine.Reachable {} PlainName := by
  refine ((reachable_new.operation (.define baseFile) ?_).operation
    (.define derivedFile) ?_).operation (.newInstance ⟨27⟩) trivial
  · show FileNamed PlainName baseFile
    decide +kernel
  · show FileNamed PlainName derivedFile
    decide +kernel

def intField : Field :=
  { owner := ⟨26⟩, name := "x", descriptor := "I", tag := .primitive .int, offset := 4, flags := 1 }

def charField : Field :=
  { owner := ⟨27⟩, name := "c", descriptor := "C", tag := .primitive .char, offset := 8,
    flags := 1 }

theorem declaresInClass_derivedMachine :
    derivedMachine.classes.DeclaresInClass intField ∧
      derivedMachine.classes.DeclaresInClass charField := by
  decide +kernel

/-- A `byte` is written to an inherited `int` field beside a `char` field. -/
theorem getField_setField_derivedMachine :
    ∃ m', derivedMachine.setField intField (some ⟨0⟩) (.byte 7) = .ok m' ∧
      m'.getField intField (some ⟨0⟩) = .ok (.int 7) ∧
      m'.getField charField (some ⟨0⟩) = derivedMachine.getField charField (some ⟨0⟩) := by
  have hok : (derivedMachine.setField intField (some ⟨0⟩) (.byte 7)).toBool = true := by
    decide +kernel
  cases hset : derivedMachine.setField intField (some ⟨0⟩) (.byte 7) with
  | error e =>
    rw [hset] at hok
    cases hok
  | ok m' =>
    have hdeclares := declaresInClass_derivedMachine
    obtain ⟨⟨w, hw, hread⟩, hother, _⟩ :=
      getField_setField reachable_derivedMachine hdeclares.1 hset
    cases hw
    exact ⟨m', rfl, hread, hother charField _ hdeclares.2 (by decide)⟩

end Machine

end JavaMachine
