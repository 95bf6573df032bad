/-
# What accesses to fields and arrays do

Reading and writing a field as equations over the slot or the body that the field lies in
(`Body.load?`, `Body.store?`).  Each write to a field or an array that succeeds is a step of the
machine.
-/
import JavaMachine.Machine.ArrayAccess
import JavaMachine.Proofs.Steps

namespace JavaMachine

/-! ## Fields of a body -/

/-- The value at the place of a field in a body. -/
def Body.load? (f : Field) : Body → Option Value
  | .fields bytes refs => Machine.loadAt f bytes refs
  | _ => none

/-- A body with a value written at the place of a field. -/
def Body.store? (f : Field) (v : Value) : Body → Option Body
  | .fields bytes refs => Machine.storeAt f bytes refs v
  | _ => none

/-- What an access to the place of a field gives; a fault where there is no such place. -/
def Field.atPlace {α : Type} (f : Field) (x : Option α) : Except Stop α :=
  match x with
  | some a => .ok a
  | none => .error (.broken (.fieldOutsideLayout f.name))

theorem Field.atPlace_eq_ok {α : Type} {f : Field} {x : Option α} {a : α} :
    f.atPlace x = .ok a ↔ x = some a := by
  cases x with
  | none => simp [Field.atPlace]
  | some b => simp [Field.atPlace]

/-- An access gives an answer exactly where the place is. -/
theorem Field.answers_atPlace_iff {α : Type} {f : Field} {x : Option α} :
    Answers (f.atPlace x) ↔ x.isSome := by
  cases x with
  | none => simp [Field.atPlace, not_answers_broken]
  | some a => simp [Field.atPlace, answers_ok]

/-- A value brought to a kind is of that kind. -/
theorem tag_coerceFor {h : Heap} {t : Tag} {v w : Value} (hw : h.coerceFor t v = .ok w) :
    w.tag = t := by
  cases t with
  | reference => exact Value.tag_coerce hw
  | primitive p => exact Value.tag_coerce hw

/-- What writing a field into a body gives: a body of the same shape with the value there, and with
every disjoint place as it was. -/
theorem Body.store?_eq_some {f : Field} {v : Value} {b b' : Body} (hv : v.tag = f.tag)
    (h : b.store? f v = some b') :
    b.SameShape b' ∧ b'.load? f = some v ∧ ∀ g, f.Disjoint g → b'.load? g = b.load? g := by
  cases b with
  | fields bytes refs =>
    obtain ⟨bytes', refs', rfl, hbytes, hrefs, hload, hother⟩ := Machine.storeAt_eq_some hv h
    exact ⟨⟨hbytes, hrefs⟩, hload, hother⟩
  | _ => cases h

/-- A body takes a value at the place of a field exactly when it has one there. -/
theorem Body.store?_isSome_iff {f : Field} {v : Value} {b : Body} (hv : v.tag = f.tag) :
    (b.store? f v).isSome ↔ (b.load? f).isSome := by
  cases b with
  | fields bytes refs =>
    show (Machine.storeAt f bytes refs v).isSome ↔ (Machine.loadAt f bytes refs).isSome
    rw [Machine.storeAt_isSome_iff hv, Machine.loadAt_isSome_iff]
  | _ => exact Iff.rfl

/-! ## Elements of an array -/

namespace ArrayBody

theorem length_overwrite {α : Type} {l items : List α} {start : Nat}
    (h : start + items.length ≤ l.length) : (overwrite l start items).length = l.length := by
  simp only [overwrite, List.length_append, List.length_take, List.length_drop]
  omega

theorem splice?_eq_some {α : Type} {l items out : List α} {start : Nat}
    (h : splice? l start items = some out) : out.length = l.length := by
  unfold splice? at h
  split at h
  · next hfit =>
    cases h
    exact length_overwrite hfit
  · cases h

/-- A write to an element keeps the shape of an array. -/
theorem sameShape_of_store? {a b : ArrayBody} {i : Nat} {v : Value} (h : a.store? i v = some b) :
    a.SameShape b := by
  cases a with
  | references slots =>
    cases v with
    | reference r =>
      simp only [store?] at h
      split at h
      · cases h
        exact List.length_set
      · cases h
    | _ => cases h
  | primitive p data =>
    simp only [store?, Option.map_eq_some_iff] at h
    obtain ⟨tail, htail, rfl⟩ := h
    have hlength := length_storeValue? htail
    refine ⟨rfl, ?_⟩
    simp only [List.length_append, List.length_take, hlength, List.length_drop]
    omega

/-- Copying elements into an array keeps its shape. -/
theorem sameShape_of_copy? {src dst out : ArrayBody} {srcStart dstStart n : Nat}
    (h : src.copy? srcStart dst dstStart n = some out) : dst.SameShape out := by
  cases src with
  | references s =>
    cases dst with
    | references d =>
      obtain ⟨items, _, h⟩ := Option.bind_eq_some_iff.mp h
      obtain ⟨slots, hslots, h⟩ := Option.bind_eq_some_iff.mp h
      cases h
      exact splice?_eq_some hslots
    | primitive q d => cases h
  | primitive p s =>
    cases dst with
    | references d => cases h
    | primitive q d =>
      obtain ⟨items, _, h⟩ := Option.bind_eq_some_iff.mp h
      obtain ⟨data, hdata, h⟩ := Option.bind_eq_some_iff.mp h
      cases h
      exact ⟨rfl, splice?_eq_some hdata⟩

end ArrayBody

namespace Machine

variable {m m' : Machine} {f : Field} {target : Option ObjectRef} {v : Value}

/-! ## The receiver -/

/-- A live object is a receiver, or is refused by its class. -/
theorem receiver_some {r : ObjectRef} {o : Object} (ho : m.heap.get? r = some o) :
    m.receiver f (some r) =
      if m.classes.isAssignable f.owner o.owner then .ok (r, o.body)
      else
        (m.classes.dotted o.owner).bind fun name =>
          .error (.thrown (.illegalArgument
            ("field " ++ f.name ++ " does not belong to " ++ name))) := by
  show (m.heap.get r >>= _) = _
  rw [Heap.get_eq_ok_iff.mpr ho]
  rfl

/-- An object is accepted as a receiver exactly when its class is one of the field's owner. -/
theorem receiver_eq_ok {r : ObjectRef} {body : Body} :
    m.receiver f target = .ok (r, body) ↔
      ∃ o, target = some r ∧ m.heap.get? r = some o ∧ o.body = body ∧
        m.classes.isAssignable f.owner o.owner = true := by
  constructor
  · intro h
    cases target with
    | none => cases h
    | some p =>
      obtain ⟨o, ho, _⟩ := bind_eq_ok.mp (show (m.heap.get p >>= _) = _ from h)
      have hlive := Heap.get_eq_ok_iff.mp ho
      rw [receiver_some hlive] at h
      split at h
      · next ha =>
        cases h
        exact ⟨o, rfl, hlive, rfl, ha⟩
      · obtain ⟨_, _, h⟩ := bind_eq_ok.mp h
        cases h
  · rintro ⟨o, rfl, ho, rfl, ha⟩
    rw [receiver_some ho, if_pos ha]

/-- A receiver that is null, or live and of a class of the table, is accepted or refused by an
exception. -/
theorem receiver_thrown {e : Stop} (h : m.receiver f target = .error e)
    (htarget : ∀ r, target = some r → ∃ o cls, m.heap.get? r = some o ∧
      m.classes.get? o.owner = some cls) : ∃ t, e = .thrown t := by
  cases target with
  | none =>
    cases h
    exact ⟨_, rfl⟩
  | some r =>
    obtain ⟨o, cls, ho, hcls⟩ := htarget r rfl
    rw [receiver_some ho, ClassTable.dotted, ClassTable.get, hcls] at h
    split at h
    · cases h
    · cases h
      exact ⟨_, rfl⟩

/-! ## Reading and writing -/

theorem getField_static (hs : f.isStatic = true) :
    m.getField f target = f.atPlace ((m.staticSlot? f).bind (·.load? f.tag)) := by
  unfold getField
  rw [if_pos hs]
  cases (m.staticSlot? f).bind (·.load? f.tag) <;> rfl

theorem getField_instance (hs : f.isStatic = false) :
    m.getField f target = (m.receiver f target).bind fun x => f.atPlace (x.2.load? f) := by
  unfold getField
  rw [if_neg (by rw [hs]; decide)]
  refine congrArg (Except.bind _) (funext fun x => ?_)
  obtain ⟨r, body⟩ := x
  cases body with
  | fields bytes refs =>
    show _ = f.atPlace (loadAt f bytes refs)
    dsimp only
    cases loadAt f bytes refs <;> rfl
  | _ => rfl

/-- The machine after a value was written to a static slot. -/
def writeStatic (m : Machine) (f : Field) (v : Value) : Machine :=
  { m with
    classes := m.classes.update f.owner fun c =>
      { c with statics := c.statics.set f.offset (.ofValue v) } }

/-- The machine after the body of an object was replaced for a field that was written. -/
def writeBody (m : Machine) (r : ObjectRef) (body : Body) (v : Value) : Machine :=
  let heap := m.heap.updateBody r fun _ => body
  { m with heap := if v.tag = .reference then heap.noteWrite r else heap }

theorem setField_static (hs : f.isStatic = true) :
    m.setField f target v =
      ((m.heap.coerceFor f.tag v).mapError Stop.thrown).bind fun w =>
        f.atPlace ((m.staticSlot? f).map fun _ => m.writeStatic f w) := by
  unfold setField
  rw [if_pos hs]
  refine congrArg (Except.bind _) (funext fun w => ?_)
  cases m.staticSlot? f <;> rfl

theorem setField_instance (hs : f.isStatic = false) :
    m.setField f target v =
      (m.receiver f target).bind fun x =>
        ((m.heap.coerceFor f.tag v).mapError Stop.thrown).bind fun w =>
          f.atPlace ((x.2.store? f w).map fun body => m.writeBody x.1 body w) := by
  unfold setField
  rw [if_neg (by rw [hs]; decide)]
  refine congrArg (Except.bind _) (funext fun x => ?_)
  obtain ⟨r, body⟩ := x
  refine congrArg (Except.bind _) (funext fun w => ?_)
  cases body with
  | fields bytes refs =>
    show _ = f.atPlace ((storeAt f bytes refs w).map _)
    dsimp only
    cases storeAt f bytes refs w <;> rfl
  | _ => rfl

/-! ## Steps -/

variable {named : String → Prop}

/-- Replacing the body of an object by one of the same shape is a step. -/
theorem step_of_updateBody {r : ObjectRef} {o : Object} {body : Body}
    (ho : m.heap.get? r = some o) (hs : o.body.SameShape body) (hclasses : m'.classes = m.classes)
    (hheap : ∀ p, m'.heap.get? p = (m.heap.updateBody r fun _ => body).get? p) :
    Step named m m' := by
  refine .objects hclasses ?_
  intro p o' ho'
  rw [hheap, Heap.get?_updateBody] at ho'
  split at ho'
  · next hp =>
    rw [hp, ho] at ho'
    cases ho'
    exact Or.inr ⟨o, hp ▸ ho, rfl, hs⟩
  · exact Or.inr ⟨o', ho', rfl, o'.body.sameShape_refl⟩

theorem get?_writeBody (m : Machine) (r : ObjectRef) (body : Body) (v : Value) (p : ObjectRef) :
    (m.writeBody r body v).heap.get? p = (m.heap.updateBody r fun _ => body).get? p := by
  unfold writeBody
  show (if v.tag = .reference then _ else _ : Heap).get? p = _
  split
  · exact Heap.get?_noteWrite ..
  · rfl

/-- What a write to a field that succeeds has found and done. -/
theorem setField_eq_ok (h : m.setField f target v = .ok m') :
    ∃ w, m.heap.coerceFor f.tag v = .ok w ∧
      ((f.isStatic = true ∧ (∃ s, m.staticSlot? f = some s) ∧ m' = m.writeStatic f w) ∨
        (f.isStatic = false ∧ ∃ r o body, target = some r ∧ m.heap.get? r = some o ∧
          m.classes.isAssignable f.owner o.owner = true ∧ o.body.store? f w = some body ∧
          m' = m.writeBody r body w)) := by
  cases hs : f.isStatic with
  | true =>
    rw [setField_static hs] at h
    obtain ⟨w, hw, h⟩ := bind_eq_ok.mp h
    obtain ⟨s, hslot, rfl⟩ := Option.map_eq_some_iff.mp (Field.atPlace_eq_ok.mp h)
    exact ⟨w, mapError_eq_ok.mp hw, Or.inl ⟨rfl, ⟨s, hslot⟩, rfl⟩⟩
  | false =>
    rw [setField_instance hs] at h
    obtain ⟨⟨r, body⟩, hr, h⟩ := bind_eq_ok.mp h
    obtain ⟨o, htarget, ho, hbody, ha⟩ := receiver_eq_ok.mp hr
    obtain ⟨w, hw, h⟩ := bind_eq_ok.mp h
    obtain ⟨body', hstore, rfl⟩ := Option.map_eq_some_iff.mp (Field.atPlace_eq_ok.mp h)
    exact ⟨w, mapError_eq_ok.mp hw, Or.inr ⟨rfl, r, o, body', htarget, ho, ha, hbody ▸ hstore, rfl⟩⟩

/-- A write to a declared field is a step. -/
theorem evolves_setField (hf : m.classes.Declares f) (h : m.setField f target v = .ok m') :
    m.Evolves named m' := by
  rcases setField_eq_ok h with ⟨w, hw, ⟨hs, hslot, rfl⟩ | ⟨hs, r, o, body, _, ho, _, hstore, rfl⟩⟩
  · exact Step.evolves (.classes rfl (.write hf hs (tag_coerceFor hw))) rfl
      (ClassTable.isStarted_update fun _ => rfl)
  · have hsame := (Body.store?_eq_some (tag_coerceFor hw) hstore).1
    exact Step.evolves (step_of_updateBody ho hsame rfl (get?_writeBody m r body w)) rfl fun _ => rfl

theorem arrayBody_eq_ok {r : ObjectRef} {a : ArrayBody} (h : m.arrayBody r = .ok a) :
    ∃ o, m.heap.get? r = some o ∧ o.body = .array a := by
  obtain ⟨o, ho, h⟩ := bind_eq_ok.mp h
  split at h
  · next b hb =>
    cases h
    exact ⟨o, Heap.get_eq_ok_iff.mp ho, hb⟩
  · cases h

/-- An object that is no array has no elements. -/
theorem arrayBody_of_not_array {r : ObjectRef} {o : Object} (ho : m.heap.get? r = some o)
    (h : ∀ a, o.body ≠ .array a) : m.arrayBody r = .error (.broken (.mismatchedArray r)) := by
  unfold arrayBody
  rw [Heap.get_eq_ok_iff.mpr ho]
  simp only [bind, Except.bind]
  rfl

/-- The object of an array, with the shape that it keeps when its elements are replaced. -/
theorem exists_of_arrayBody {r : ObjectRef} {a b : ArrayBody} (h : m.arrayBody r = .ok a)
    (hs : a.SameShape b) :
    ∃ o, m.heap.get? r = some o ∧ o.body = .array a ∧ o.body.SameShape (.array b) := by
  obtain ⟨o, ho, hbody⟩ := arrayBody_eq_ok h
  refine ⟨o, ho, hbody, ?_⟩
  rw [hbody]
  exact hs

/-- Replacing the elements of an array by as many of their kind is a step. -/
theorem step_of_arrayBody {r : ObjectRef} {a b : ArrayBody} (h : m.arrayBody r = .ok a)
    (hs : a.SameShape b) (hclasses : m'.classes = m.classes)
    (hheap : ∀ p, m'.heap.get? p = (m.heap.updateBody r fun _ => .array b).get? p) :
    Step named m m' := by
  obtain ⟨o, ho, _, hsame⟩ := exists_of_arrayBody h hs
  exact step_of_updateBody ho hsame hclasses hheap

/-- The machine after the elements of an array were replaced. -/
def writeArray (m : Machine) (r : ObjectRef) (a : ArrayBody) : Machine :=
  let heap := m.heap.updateBody r fun _ => .array a
  { m with heap := if a.tag = .reference then heap.noteWrite r else heap }

theorem get?_writeArray (m : Machine) (r : ObjectRef) (a : ArrayBody) (p : ObjectRef) :
    (m.writeArray r a).heap.get? p = (m.heap.updateBody r fun _ => .array a).get? p := by
  unfold writeArray
  show (if a.tag = .reference then _ else _ : Heap).get? p = _
  split
  · exact Heap.get?_noteWrite ..
  · rfl

/-- The class of a reference is that of the live object. -/
theorem classOf_eq_ok {r : ObjectRef} {c : ClassId} (h : m.classOf r = .ok c) :
    ∃ o, m.heap.get? r = some o ∧ o.owner = c := by
  unfold classOf at h
  cases ho : m.heap.get r with
  | error e =>
    rw [ho] at h
    cases h
  | ok o =>
    rw [ho] at h
    exact ⟨o, Heap.get_eq_ok_iff.mp ho, Except.ok.inj h⟩

/-- What is taken as an array is a live object of an array class. -/
theorem arrayClassOf_eq_ok {r : ObjectRef} {cls : Class} (h : m.arrayClassOf r = .ok cls) :
    ∃ o, m.heap.get? r = some o ∧ m.classes.get? o.owner = some cls ∧ cls.elementSize ≠ 0 := by
  obtain ⟨c, hc, h⟩ := bind_eq_ok.mp h
  obtain ⟨o, ho, rfl⟩ := classOf_eq_ok hc
  obtain ⟨x, hx, h⟩ := bind_eq_ok.mp h
  obtain ⟨hsize, h⟩ := check_eq_ok h
  cases h
  exact ⟨o, ho, ClassTable.get_eq_ok_iff.mp hx, hsize⟩

/-- What a write to an array that succeeds has found: a live object of an array class, and a value
that is taken as one of its elements. -/
theorem arrayStore_found {array : Option ObjectRef} {index : Int32}
    (h : m.arrayStore array index v = .ok m') :
    ∃ r o cls a i w b, array = some r ∧ m.heap.get? r = some o ∧
      m.classes.get? o.owner = some cls ∧ cls.elementSize ≠ 0 ∧ m.arrayBody r = .ok a ∧
      m.elementFor cls v = .ok w ∧ a.store? i w = some b ∧ m' = m.writeArray r b := by
  obtain ⟨r, hr, h⟩ := bind_eq_ok.mp h
  obtain ⟨cls, hcls, h⟩ := bind_eq_ok.mp h
  obtain ⟨a, ha, h⟩ := bind_eq_ok.mp h
  obtain ⟨i, hi, h⟩ := bind_eq_ok.mp h
  obtain ⟨w, hw, h⟩ := bind_eq_ok.mp h
  obtain ⟨o, ho, hc, hsize⟩ := arrayClassOf_eq_ok hcls
  have harray : array = some r := by
    cases array with
    | none => cases hr
    | some s => exact congrArg some (Except.ok.inj hr)
  split at h
  · next b hstore =>
    cases h
    exact ⟨r, o, cls, a, i, w, b, harray, ho, hc, hsize, ha, hw, hstore, rfl⟩
  · cases h

/-- What a write to an array that succeeds has done. -/
theorem arrayStore_eq_ok {array : Option ObjectRef} {index : Int32}
    (h : m.arrayStore array index v = .ok m') :
    ∃ r a b, array = some r ∧ m.arrayBody r = .ok a ∧ a.SameShape b ∧ m' = m.writeArray r b := by
  obtain ⟨r, _, _, a, _, _, b, harray, _, _, _, ha, _, hstore, hm⟩ := arrayStore_found h
  exact ⟨r, a, b, harray, ha, ArrayBody.sameShape_of_store? hstore, hm⟩

/-- What a copy between arrays that succeeds has found: there is nothing to copy, or there are two
live arrays of one class, and elements of the first one go into the second one. -/
theorem arrayCopy_found {src dst : Option ObjectRef} {srcPos dstPos count : Int32}
    (h : m.arrayCopy src srcPos dst dstPos count = .ok m') :
    m' = m ∨ ∃ s d so o a b i j n out, src = some s ∧ dst = some d ∧ m.heap.get? s = some so ∧
      m.heap.get? d = some o ∧ so.owner = o.owner ∧ m.arrayBody s = .ok a ∧
      m.arrayBody d = .ok b ∧ a.copy? i b j n = some out ∧
      m' = { m with heap := (m.heap.updateBody d fun _ => .array out).noteWrite d } := by
  unfold arrayCopy at h
  split at h
  · next s d =>
    obtain ⟨srcClass, hsc, h⟩ := bind_eq_ok.mp h
    obtain ⟨dstClass, hdc, h⟩ := bind_eq_ok.mp h
    obtain ⟨so, hso, rfl⟩ := classOf_eq_ok hsc
    obtain ⟨o, ho, rfl⟩ := classOf_eq_ok hdc
    dsimp only at h
    split at h
    · -- Arrays of different classes: the refusal names both.
      obtain ⟨_, _, h⟩ := bind_eq_ok.mp h
      obtain ⟨_, _, h⟩ := bind_eq_ok.mp h
      cases h
    · next hsame =>
      obtain ⟨cls, hcls, h⟩ := bind_eq_ok.mp h
      obtain ⟨a, ha, h⟩ := bind_eq_ok.mp (check_eq_ok h).2
      obtain ⟨b, hb, h⟩ := bind_eq_ok.mp h
      split at h
      · next srcStart n dstStart _ _ _ =>
        split at h
        · -- Nothing to copy.
          cases h
          exact Or.inl rfl
        · split at h
          · next out hcopy =>
            cases h
            exact Or.inr ⟨s, d, so, o, a, b, srcStart, dstStart, n, out, rfl, rfl, hso, ho,
              Decidable.not_not.mp hsame, ha, hb, hcopy, rfl⟩
          · cases h
      · cases h
  · cases h

/-- What a copy between arrays that succeeds has done: nothing, or the elements of the target are
replaced and the write is recorded. -/
theorem arrayCopy_eq_ok {src dst : Option ObjectRef} {srcPos dstPos count : Int32}
    (h : m.arrayCopy src srcPos dst dstPos count = .ok m') :
    m' = m ∨ ∃ r a b, dst = some r ∧ m.arrayBody r = .ok a ∧ a.SameShape b ∧
      m' = { m with heap := (m.heap.updateBody r fun _ => .array b).noteWrite r } := by
  rcases arrayCopy_found h with hsame |
    ⟨_, d, _, _, _, b, _, _, _, out, _, hdst, _, _, _, _, hb, hcopy, hm⟩
  · exact Or.inl hsame
  · exact Or.inr ⟨d, b, out, hdst, hb, ArrayBody.sameShape_of_copy? hcopy, hm⟩

/-- A write to an array is a step. -/
theorem evolves_arrayStore {array : Option ObjectRef} {index : Int32}
    (h : m.arrayStore array index v = .ok m') : m.Evolves named m' := by
  obtain ⟨r, a, b, _, ha, hs, rfl⟩ := arrayStore_eq_ok h
  exact Step.evolves (step_of_arrayBody ha hs rfl (get?_writeArray m r b)) rfl fun _ => rfl

/-- Copying elements between arrays is a step, or nothing at all. -/
theorem evolves_arrayCopy {src dst : Option ObjectRef} {srcPos dstPos count : Int32}
    (h : m.arrayCopy src srcPos dst dstPos count = .ok m') : m.Evolves named m' := by
  rcases arrayCopy_eq_ok h with rfl | ⟨r, a, b, _, ha, hs, rfl⟩
  · exact .refl m'
  · exact Step.evolves (step_of_arrayBody ha hs rfl fun p => Heap.get?_noteWrite ..) rfl fun _ => rfl

end Machine

end JavaMachine
