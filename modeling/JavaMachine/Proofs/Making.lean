/-
# Making objects and writing to them

Every computation that makes an object, an array class or a class object, that writes to a field or
an array, or that frees objects goes by steps.
-/
import JavaMachine.Machine.Threads
import JavaMachine.Machine.ArrayAccess
import JavaMachine.Proofs.Steps

namespace JavaMachine

variable {named : String → Prop} {m : Machine}

namespace Action

/-! ## Making objects -/

/-- Adding an object in the shape of its class is a step. -/
theorem takes_allocate {owner : ClassId} {body : Body} (h : m.classes.Shapes owner body) :
    Takes (Machine.Evolves named) m (allocate owner body) fun _ m' => m'.classes = m.classes := by
  refine ⟨Machine.Step.evolves (.objects rfl ?_) rfl fun _ => rfl, fun _ _ => rfl⟩
  intro r o' ho'
  rcases Heap.get?_allocate ho' with ⟨howner, hbody⟩ | ho
  · rw [howner, hbody]
    exact Or.inl h
  · exact Or.inr ⟨o', ho, rfl, o'.body.sameShape_refl⟩

/-- A string is a new object, and no class. -/
theorem takes_newString (s : String) :
    Takes (Machine.Evolves named) m (newString s) fun _ m' => m'.classes = m.classes :=
  takes_allocate (show (2 : Nat) < ClassTable.bootstrap.size by decide +kernel)

theorem takes_intern (s : String) :
    Takes (Machine.Evolves named) m (intern s) fun _ m' => m'.classes = m.classes := by
  refine takes_get_bind ?_
  split
  · exact takes_pure rfl
  · refine (takes_newString s).bind ?_
    intro r m₁ h₁ hc
    exact takes_modify_bind (Machine.evolves_of_eq rfl rfl rfl) (takes_pure hc)

/-- A box is of one of the classes that are always there. -/
theorem takes_box (v : Value) :
    Takes (Machine.Evolves named) m (box v) fun _ m' => m'.classes = m.classes := by
  unfold box
  cases hv : v.tag with
  | reference => exact takes_pure rfl
  | primitive p =>
    refine Takes.bind (takes_allocate ?_) fun _ _ _ h => takes_pure h
    show (ClassId.box p).index < ClassTable.bootstrap.size
    rw [ClassTable.size_bootstrap]
    cases p <;> decide

/-- An instance has the shape of its class. -/
theorem takes_newInstance (c : ClassId) :
    Takes (Machine.Evolves named) m (newInstance c) fun _ m' => m'.classes = m.classes := by
  refine takes_get_bind (takes_lift_bind ?_)
  intro cls hc
  have hget := ClassTable.get_eq_ok_iff.mp hc
  refine takes_check fun hkind => takes_allocate ⟨cls, hget, ?_, ?_, ?_⟩
  · rw [Bool.or_eq_true, not_or] at hkind
    exact Bool.eq_false_iff.mpr hkind.1
  · exact List.length_replicate
  · exact List.length_replicate

/-- The array class over a class is in the table and has the name of an array class. -/
theorem takes_arrayClass (component : ClassId) :
    Takes (Machine.Evolves named) m (arrayClass component) fun c m' =>
      ∃ cls, m'.classes.get? c = some cls ∧ IsArrayName cls.name := by
  refine takes_get_bind (takes_lift_bind ?_)
  rintro ⟨classes, c⟩ h
  obtain ⟨ccls, name, element, hcomp, hshape, hcase⟩ := ClassTable.arrayClass_eq_ok h
  have hname := isArrayName_of_arrayShape? hshape
  rcases hcase with ⟨hfind, rfl⟩ | ⟨hfind, rfl, rfl⟩
  · obtain ⟨cls, hget, rfl⟩ := ClassTable.get?_of_find? hfind
    exact takes_modify_bind (.refl m) (takes_pure ⟨cls, hget, hname⟩)
  · have hstep : ClassTable.Step named m.classes _ := .array hcomp hshape hfind
    refine takes_modify_bind (Machine.Step.evolves (.classes rfl hstep) rfl ?_) (takes_pure ?_)
    · exact ClassTable.isStarted_push rfl
    · exact ⟨_, ClassTable.get?_push_nextId .., hname⟩

/-- An array may need its class to be added. -/
theorem takes_newArray (component : ClassId) (length : Int32) :
    Takes (Machine.Evolves named) m (newArray component length) fun _ _ => True := by
  unfold newArray
  dsimp only
  refine takes_check fun _ => takes_get_bind (takes_lift_bind fun _ _ => takes_check fun _ => ?_)
  refine (takes_arrayClass component).bind ?_
  rintro c m₁ h₁ ⟨cls, hget, hname⟩
  refine takes_get_bind (takes_lift_bind fun found hfound => ?_)
  refine (takes_allocate ?_).mono fun _ _ _ _ => trivial
  -- The elements are of the kind that the class is found with.
  rw [ClassTable.get_eq_ok_iff, hget] at hfound
  cases hfound
  exact ⟨cls, hget, hname, ArrayBody.tag_zeroed .., ArrayBody.whole_zeroed ..⟩

/-- The object of a class is noted in the state of the class. -/
theorem takes_classObject (c : ClassId) :
    Takes (Machine.Evolves named) m (classObject c) fun _ _ => True := by
  refine takes_get_bind (takes_lift_bind ?_)
  intro cls hc
  split
  · exact takes_pure trivial
  · refine Takes.bind (takes_allocate ?_) ?_
    · show (1 : Nat) < ClassTable.bootstrap.size
      decide +kernel
    · intro r m₁ h₁ hclasses
      refine takes_modify_bind ?_ (takes_pure trivial)
      exact Machine.Step.evolves (.classes rfl (.mark (fun _ => rfl) fun _ => rfl)) rfl
        (ClassTable.isStarted_update fun _ => rfl)

/-- An object that stands for a declared field. -/
theorem takes_fieldObject {f : Field} (hf : m.classes.Declares f) :
    Takes (Machine.Evolves named) m (fieldObject f) fun _ _ => True := by
  refine (takes_allocate ?_).mono fun _ _ _ _ => trivial
  refine ⟨?_, hf⟩
  show (6 : Nat) < ClassTable.bootstrap.size
  decide +kernel

theorem takes_methodObject (x : Method) :
    Takes (Machine.Evolves named) m (methodObject x) fun _ _ => True := by
  refine (takes_allocate ?_).mono fun _ _ _ _ => trivial
  show (7 : Nat) < ClassTable.bootstrap.size
  decide +kernel

/-- A context for a thread, with an object of its own if none is given. -/
theorem takes_attach (hw : m.WellFormed named) (peer : Option ObjectRef) :
    Takes (Machine.Evolves named) m (attach peer) fun _ _ => True := by
  unfold attach
  cases peer with
  | some r =>
    exact takes_modifyGet (Machine.evolves_of_eq rfl rfl rfl) trivial
  | none =>
    refine takes_get_bind (takes_lift_bind ?_)
    intro cls hc
    have hget := ClassTable.get_eq_ok_iff.mp hc
    refine Takes.bind (takes_allocate ⟨cls, hget, ?_, ?_, ?_⟩) ?_
    · apply hw.classes.isArray_of_lt hget
      show (3 : Nat) < ClassTable.bootstrap.size
      decide +kernel
    · exact List.length_replicate
    · exact List.length_replicate
    · intro r m₁ _ _
      exact takes_modifyGet (Machine.evolves_of_eq rfl rfl rfl) trivial

/-- A collection only frees objects. -/
theorem takes_collect (t : ThreadId) (keep : ObjectRef → Object → Bool) :
    Takes (Machine.Evolves named) m (collect t keep) fun _ _ => True := by
  have hstate : ∀ (s : ThreadState) (m₁ : Machine),
      Takes (Machine.Evolves named) m₁ (setState t s) fun _ _ => True := by
    intro s m₁
    refine takes_get_bind (takes_lift_bind fun x _ => ?_)
    exact takes_modify_bind (Machine.evolves_of_eq rfl rfl rfl) (takes_pure trivial)
  refine (hstate .exclusive m).bind ?_
  intro previous m₁ _ _
  refine takes_get_bind (takes_get_bind (takes_lift_bind fun x _ => ?_))
  refine Takes.bind (takes_modifyGet (Q := fun _ _ => True) ?_ trivial) ?_
  · -- What is swept is gone, and what is left is as it was.
    refine Machine.Step.evolves (.objects rfl ?_) rfl fun _ => rfl
    intro r o ho
    exact Or.inr ⟨o, Heap.get?_sweep ho, rfl, o.body.sameShape_refl⟩
  intro freed m₂ _ _
  exact (hstate previous m₂).discard.bind fun _ _ _ _ => takes_pure trivial

end Action

end JavaMachine
