/-
# What becomes of a heap

Every operation of a machine but a collection changes the heap in a few ways alone (`Heap.Change`):
it adds an object that refers to nothing, replaces the contents of a live object within its shape, or
records a write.  Each of them keeps the accounts of the heap and the class and the hash of every
live object.
-/
import JavaMachine.Proofs.Effects
import JavaMachine.Proofs.HeapAccounts

namespace JavaMachine

/-! ## Changes of a heap -/

/-- An array of elements that are no references holds as many references as any of its shape. -/
theorem ArrayBody.SameShape.references_eq {a b : ArrayBody} (h : a.SameShape b)
    (hb : b.tag ≠ .reference) : (Body.array b).references = (Body.array a).references := by
  cases b with
  | references slots => exact absurd rfl hb
  | primitive q data =>
    cases a with
    | primitive p data' => rfl
    | references slots => cases h

/-- Writing a primitive value to a field leaves the references of a body alone. -/
theorem Body.references_of_store? {f : Field} {v : Value} {b b' : Body} (hv : v.tag ≠ .reference)
    (h : b.store? f v = some b') : b'.references = b.references := by
  cases b with
  | fields bytes refs =>
    have hstore : Machine.storeAt f bytes refs v = some b' := h
    unfold Machine.storeAt at hstore
    split at hstore
    · exact absurd rfl hv
    · obtain ⟨tail, _, rfl⟩ := Option.map_eq_some_iff.mp hstore
      rfl
  | _ => cases h

namespace Heap

/-- A change of a heap that frees nothing.  A new object refers to nothing.  Contents are replaced
within their shape; where no write is recorded, the references among them stay. -/
inductive Change : Heap → Heap → Prop
  | allocate {h : Heap} (owner : ClassId) {body : Body} (hblank : body.Blank) :
      Change h (h.allocate owner body).1
  | rewrite {h : Heap} {r : ObjectRef} {o : Object} {body : Body} (ho : h.get? r = some o)
      (hs : o.body.SameShape body) (hrefs : body.references = o.body.references) :
      Change h (h.updateBody r fun _ => body)
  | store {h : Heap} {r : ObjectRef} {o : Object} {body : Body} (ho : h.get? r = some o)
      (hs : o.body.SameShape body) : Change h ((h.updateBody r fun _ => body).noteWrite r)
  | note {h : Heap} {r : ObjectRef} (hlive : (h.get? r).isSome) : Change h (h.noteWrite r)

variable {h h' : Heap} {r : ObjectRef} {o : Object}

/-- A live object that is there in another heap, with its class and its hash. -/
def Keeps (h h' : Heap) : Prop :=
  ∀ r o, h.get? r = some o → ∃ o', h'.get? r = some o' ∧ o'.owner = o.owner ∧ o'.hash = o.hash

theorem Keeps.refl (h : Heap) : h.Keeps h := fun _ o ho => ⟨o, ho, rfl, rfl⟩

/-- What is kept twice is kept. -/
theorem Keeps.trans {h'' : Heap} (h₁ : h.Keeps h') (h₂ : h'.Keeps h'') : h.Keeps h'' := by
  intro r o ho
  obtain ⟨o', ho', howner', hhash'⟩ := h₁ r o ho
  obtain ⟨o'', ho'', howner'', hhash''⟩ := h₂ r o' ho'
  exact ⟨o'', ho'', howner''.trans howner', hhash''.trans hhash'⟩

/-- An object that is written to keeps its class and its hash. -/
theorem keeps_updateBody (h : Heap) (r : ObjectRef) (f : Body → Body) :
    h.Keeps (h.updateBody r f) := by
  intro p o ho
  rw [get?_updateBody, ho]
  split
  · exact ⟨_, rfl, rfl, rfl⟩
  · exact ⟨o, rfl, rfl, rfl⟩

/-- Noting a write changes no object. -/
theorem keeps_noteWrite (h : Heap) (r : ObjectRef) : h.Keeps (h.noteWrite r) := by
  intro p o ho
  exact ⟨o, (get?_noteWrite h r p).trans ho, rfl, rfl⟩

/-- A new object takes a place where none was. -/
theorem Sound.keeps_allocate (hs : h.Sound) (owner : ClassId) (body : Body) :
    h.Keeps (h.allocate owner body).1 := by
  obtain ⟨hfree, hget⟩ := hs.allocate_spec owner body
  intro p o ho
  refine ⟨o, ?_, rfl, rfl⟩
  rw [hget, if_neg]
  · exact ho
  · rintro rfl
    rw [hfree] at ho
    cases ho

/-- A new object is not one that was written to. -/
theorem written_allocate (h : Heap) (owner : ClassId) (body : Body) :
    (h.allocate owner body).1.written = h.written := by
  unfold Heap.allocate
  split <;> rfl

/-- The objects that were written to are live. -/
def WrittenLive (h : Heap) : Prop := ∀ r ∈ h.written, (h.get? r).isSome

/-- What was written to stays live while objects are kept. -/
theorem WrittenLive.of_keeps (hw : h.WrittenLive) (hk : h.Keeps h')
    (hwritten : h'.written = h.written) : h'.WrittenLive := by
  intro r hr
  obtain ⟨o, ho⟩ := Option.isSome_iff_exists.mp (hw r (hwritten ▸ hr))
  obtain ⟨o', ho', _⟩ := hk r o ho
  rw [ho']
  rfl

/-- A live object may be noted. -/
theorem WrittenLive.noteWrite (hw : h.WrittenLive) (hlive : (h.get? r).isSome) :
    (h.noteWrite r).WrittenLive := by
  unfold Heap.noteWrite
  split
  · exact hw
  · intro p hp
    rcases List.mem_cons.mp hp with rfl | hp
    · exact hlive
    · exact hw p hp

/-- A collection forgets the writes to what it frees. -/
theorem writtenLive_sweep (h : Heap) (keep : ObjectRef → Object → Bool) :
    (h.sweep keep).1.WrittenLive := fun _ hr => (List.mem_filter.mp hr).2

/-- A new object leaves the accounts in order, and what is live and what was written to as it was. -/
theorem Sound.spec_allocate (hs : h.Sound) (hw : h.WrittenLive) (owner : ClassId) (body : Body) :
    (h.allocate owner body).1.Sound ∧ (h.allocate owner body).1.WrittenLive ∧
      h.Keeps (h.allocate owner body).1 := by
  have hkeeps := hs.keeps_allocate owner body
  exact ⟨hs.allocate owner body, hw.of_keeps hkeeps (written_allocate h owner body), hkeeps⟩

/-- A change keeps the accounts of a heap, its live objects and the list of those written to. -/
theorem Change.spec (hc : h.Change h') (hs : h.Sound) (hw : h.WrittenLive) :
    h'.Sound ∧ h'.WrittenLive ∧ h.Keeps h' := by
  cases hc with
  | allocate owner hblank => exact hs.spec_allocate hw owner _
  | @rewrite r o body ho hshape hrefs =>
    have hkeeps := h.keeps_updateBody r fun _ => body
    exact ⟨hs.updateBody ho hshape, hw.of_keeps hkeeps rfl, hkeeps⟩
  | @store r o body ho hshape =>
    have hkeeps := h.keeps_updateBody r fun _ => body
    obtain ⟨o', ho', _⟩ := hkeeps r o ho
    have hlive : ((h.updateBody r fun _ => body).get? r).isSome := by
      rw [ho']
      rfl
    exact ⟨(hs.updateBody ho hshape).noteWrite r, (hw.of_keeps hkeeps rfl).noteWrite hlive,
      hkeeps.trans (keeps_noteWrite _ r)⟩
  | note hlive => exact ⟨hs.noteWrite _, hw.noteWrite hlive, h.keeps_noteWrite _⟩

/-- So do changes one after the other. -/
theorem changes_spec (hc : Relation.ReflTransGen Change h h') (hs : h.Sound) (hw : h.WrittenLive) :
    h'.Sound ∧ h'.WrittenLive ∧ h.Keeps h' := by
  induction hc with
  | refl => exact ⟨hs, hw, .refl h⟩
  | tail _ hlast ih =>
    obtain ⟨hs', hw', hkeeps⟩ := ih
    obtain ⟨hs'', hw'', hkeeps'⟩ := hlast.spec hs' hw'
    exact ⟨hs'', hw'', hkeeps.trans hkeeps'⟩

end Heap

/-! ## Changes made by writes -/

namespace Machine

/-- A machine comes to another one by changes of its heap. -/
def HeapChanges (m m' : Machine) : Prop := Relation.ReflTransGen Heap.Change m.heap m'.heap

instance : IsPreorder Machine HeapChanges where
  refl _ := .refl
  trans _ _ _ := .trans

variable {m m' : Machine}

/-- What leaves the heap alone changes nothing of it. -/
theorem heapChanges_of_eq (h : m'.heap = m.heap) : m.HeapChanges m' := by
  unfold HeapChanges
  rw [h]

/-- Setting a field writes to the receiver, or to no object at all. -/
theorem heapChanges_setField {f : Field} {target : Option ObjectRef} {v : Value}
    (h : m.setField f target v = .ok m') : m.HeapChanges m' := by
  rcases setField_eq_ok h with ⟨w, hw, ⟨_, _, rfl⟩ | ⟨_, r, o, body, _, ho, _, hstore, rfl⟩⟩
  · exact heapChanges_of_eq rfl
  · have hsame := (Body.store?_eq_some (tag_coerceFor hw) hstore).1
    refine .single ?_
    show m.heap.Change (if w.tag = .reference then _ else _)
    split
    · exact .store ho hsame
    · next hprimitive => exact .rewrite ho hsame (Body.references_of_store? hprimitive hstore)

/-- Elements are written into a live array, without changing its shape. -/
theorem heapChanges_writeArray {r : ObjectRef} {a b : ArrayBody} (ha : m.arrayBody r = .ok a)
    (hs : a.SameShape b) : m.HeapChanges (m.writeArray r b) := by
  obtain ⟨o, ho, hbody, hsame⟩ := exists_of_arrayBody ha hs
  refine .single ?_
  show m.heap.Change (if b.tag = .reference then _ else _)
  split
  · exact .store ho hsame
  · next hprimitive => exact .rewrite ho hsame (hbody ▸ hs.references_eq hprimitive)

/-- Replacing the elements of an array, with the write recorded. -/
theorem heapChanges_of_store {r : ObjectRef} {a b : ArrayBody} (ha : m.arrayBody r = .ok a)
    (hs : a.SameShape b)
    (hheap : m'.heap = (m.heap.updateBody r fun _ => .array b).noteWrite r) : m.HeapChanges m' := by
  obtain ⟨o, ho, _, hsame⟩ := exists_of_arrayBody ha hs
  unfold HeapChanges
  rw [hheap]
  exact .single (.store ho hsame)

/-- Storing an element is writing into an array. -/
theorem heapChanges_arrayStore {array : Option ObjectRef} {index : Int32} {v : Value}
    (h : m.arrayStore array index v = .ok m') : m.HeapChanges m' := by
  obtain ⟨r, a, b, _, ha, hs, rfl⟩ := arrayStore_eq_ok h
  exact heapChanges_writeArray ha hs

/-- Copying elements is writing into an array. -/
theorem heapChanges_arrayCopy {src dst : Option ObjectRef} {srcPos dstPos count : Int32}
    (h : m.arrayCopy src srcPos dst dstPos count = .ok m') : m.HeapChanges m' := by
  rcases arrayCopy_eq_ok h with rfl | ⟨r, a, b, _, ha, hs, rfl⟩
  · exact heapChanges_of_eq rfl
  · exact heapChanges_of_store ha hs rfl

/-- Writing bytes is writing into an array. -/
theorem heapChanges_writeBytes {buffer : ObjectRef} {offset : Int32} {bytes : Bytes}
    (h : Builtin.writeBytes m buffer offset bytes = .ok m') : m.HeapChanges m' := by
  obtain ⟨a, data, ha, hs, rfl⟩ := Action.writeBytes_eq_ok h
  exact heapChanges_writeArray ha hs

/-- What operations do at the bottom changes the heap in these ways alone. -/
theorem allows_heapChanges : Allows HeapChanges where
  classes hheap _ _ _ := heapChanges_of_eq hheap
  allocate _ owner _ hblank := .single (.allocate owner hblank)
  intern _ _ _ := .single (.allocate .string (Body.blank_of_references_eq_nil rfl))
  setField := heapChanges_setField
  arrayStore := heapChanges_arrayStore
  arrayCopy := heapChanges_arrayCopy
  writeBytes := heapChanges_writeBytes

end Machine

/-! ## Changes made by computations -/

namespace Action

variable {m : Machine}

/-- From a state, the computation changes the heap in these ways alone. -/
abbrev ChangesHeap {α : Type} (m : Machine) (a : Action α) : Prop :=
  Follows Machine.HeapChanges m a

/-- Filling an array is storing its elements one by one. -/
theorem changes_fillArray (array : ObjectRef) (refs : List (Option ObjectRef)) :
    ChangesHeap m (Builtin.fillArray array refs) := by
  refine takes_get_bind (takes_lift_bind fun a ha => ?_)
  split
  · next slots =>
    dsimp only
    split
    · exact (takes_abort (Q := fun _ _ => False) _).bind fun _ _ _ h => h.elim
    · next hlength =>
      have hsame : (ArrayBody.references slots).SameShape (.references refs) :=
        (Decidable.not_not.mp hlength).symm
      exact takes_modify (Machine.heapChanges_of_store ha hsame rfl) trivial
  · exact takes_abort _

/-- A trace is resolved into new strings and a new array. -/
theorem changes_resolveTrace (args : Arguments) :
    ChangesHeap m (Builtin.throwableResolveTrace args) :=
  follows_resolveTrace_of Machine.allows_heapChanges fun array refs _ =>
    changes_fillArray array refs

/-- An operation that is no collection changes the heap in these ways alone. -/
theorem changes_operation (path : ClassPath) (op : Operation)
    (hcollect : ∀ t keep, op ≠ .collect t keep) : ChangesHeap m (op.run path) :=
  follows_operation Machine.allows_heapChanges path op (fun args _ => changes_resolveTrace args)
    hcollect

end Action

end JavaMachine
