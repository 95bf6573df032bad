/-
# Reachable machines

An operation of a machine works on its classes and objects: it defines, loads or resolves classes,
makes objects and arrays, reads and writes fields and elements, through the machine itself or
through the native methods of the class library, or collects garbage (`Operation`).  A machine is
reachable when some sequence of operations leads to it from a new machine (`Machine.Reachable`).
Threads, monitors, links and resources may change at will in between.

`named` says which names the class files that are defined may have.  Every operation goes by steps,
so a reachable machine is well formed.
-/
import JavaMachine.Native.Access
import JavaMachine.Native.Calls
import JavaMachine.Native.Loading
import JavaMachine.Proofs.Access
import JavaMachine.Proofs.Linking

namespace JavaMachine

/-! ## Operations -/

/-- An operation on classes and objects. -/
inductive Operation where
  | define (bytes : Bytes)
  | defineRange (array : Option ObjectRef) (offset length : Int32)
  | resolve (name : String)
  | arrayClass (component : ClassId)
  | classObject (c : ClassId)
  | startInitialization (c : ClassId)
  | newInstance (c : ClassId)
  | newArray (component : ClassId) (length : Int32)
  | newString (s : String)
  | intern (s : String)
  | box (v : Value)
  | fieldObject (f : Field)
  | methodObject (x : Method)
  | attach (peer : Option ObjectRef)
  | captureTrace (frames : List Frame)
  | setField (f : Field) (target : Option ObjectRef) (v : Value)
  | arrayStore (array : Option ObjectRef) (index : Int32) (v : Value)
  | arrayCopy (src : Option ObjectRef) (srcPos : Int32) (dst : Option ObjectRef)
      (dstPos count : Int32)
  | fieldGet (args : Arguments)
  | fieldSet (args : Arguments)
  | arrayGet (args : Arguments)
  | arraySet (args : Arguments)
  | arrayGetLength (args : Arguments)
  | arrayMake (args : Arguments)
  | systemArrayCopy (args : Arguments)
  | resolveTrace (args : Arguments)
  | readInto (args : Arguments)
  | collect (t : ThreadId) (keep : ObjectRef → Object → Bool)

/-- Runs an operation of a machine with a class path. -/
def Operation.run (path : ClassPath) : Operation → Action Unit
  | define bytes => discard (Action.defineClass path bytes)
  | defineRange array offset length => discard (Action.defineRange path array offset length)
  | resolve name => discard (Action.resolve path name)
  | arrayClass component => discard (Action.arrayClass component)
  | classObject c => discard (Action.classObject c)
  | startInitialization c =>
    modify fun m => { m with classes := m.classes.update c ({ · with initStarted := true }) }
  | newInstance c => discard (Action.newInstance c)
  | newArray component length => discard (Action.newArray component length)
  | newString s => discard (Action.newString s)
  | intern s => discard (Action.intern s)
  | box v => discard (Action.box v)
  | fieldObject f => discard (Action.fieldObject f)
  | methodObject x => discard (Action.methodObject x)
  | attach peer => discard (Action.attach peer)
  | captureTrace frames => discard (Action.allocate .object (.trace frames))
  | setField f target v => Action.updating (·.setField f target v)
  | arrayStore array index v => Action.updating (·.arrayStore array index v)
  | arrayCopy src srcPos dst dstPos count =>
    Action.updating (·.arrayCopy src srcPos dst dstPos count)
  | fieldGet args => discard (Builtin.fieldGet args)
  | fieldSet args => discard (Builtin.fieldSet args)
  | arrayGet args => discard (Builtin.arrayGet args)
  | arraySet args => discard (Builtin.arraySet args)
  | arrayGetLength args => discard (Builtin.arrayGetLength args)
  | arrayMake args => discard (Builtin.arrayMake args)
  | systemArrayCopy args => discard (Builtin.systemArrayCopy args)
  | resolveTrace args => discard (Builtin.throwableResolveTrace args)
  | readInto args => discard (Builtin.resourceReadInto args)
  | collect t keep => discard (Action.collect t keep)

/-- An operation that runs a computation for its effect comes to the state that the computation comes
to. -/
theorem Operation.state_run {path : ClassPath} {op : Operation} {α : Type} {a : Action α}
    (hrun : op.run path = discard a) (m : Machine) : (op.run path m).2 = (a m).2 := by
  rw [hrun, run_discard]

/-- A class file has a name that files may have. -/
def FileNamed (named : String → Prop) (bytes : Bytes) : Prop :=
  ∀ cf name, ClassFile.parse bytes = .ok cf → cf.className = .ok name → named name

instance {named : String → Prop} [DecidablePred named] (bytes : Bytes) :
    Decidable (FileNamed named bytes) :=
  match hcf : ClassFile.parse bytes with
  | .error _ => isTrue fun _ _ h => by
    rw [hcf] at h
    cases h
  | .ok cf =>
    match hname : cf.className with
    | .error _ => isTrue fun _ _ h h' => by
      rw [hcf] at h
      cases h
      rw [hname] at h'
      cases h'
    | .ok name =>
      decidable_of_iff (named name)
        ⟨fun hn _ _ h h' => by
          rw [hcf] at h
          cases h
          rw [hname] at h'
          cases h'
          exact hn, fun h => h cf name hcf hname⟩

/-- What an operation has to be given: class files with names that files may have, and fields that
are declared. -/
def Operation.Admissible (named : String → Prop) (m : Machine) : Operation → Prop
  | define bytes => FileNamed named bytes
  | defineRange array offset length =>
    ∀ bytes, m.classFileRange array offset length = .ok bytes → FileNamed named bytes
  | fieldObject f => m.classes.Declares f
  | setField f _ _ => m.classes.Declares f
  | _ => True

namespace Machine

/-- One operation, or a change of what is no class and no object. -/
inductive Operates (path : ClassPath) (named : String → Prop) : Machine → Machine → Prop
  | operation {m : Machine} (op : Operation) (h : op.Admissible named m) :
      Operates path named m (op.run path m).2
  | elsewhere {m m' : Machine} (hclasses : m'.classes = m.classes) (hheap : m'.heap = m.heap) :
      Operates path named m m'

/-- A sequence of operations leads from one machine to another. -/
def Later (path : ClassPath) (named : String → Prop) : Machine → Machine → Prop :=
  Relation.ReflTransGen (Operates path named)

/-- A sequence of operations leads from a new machine to this one. -/
def Reachable (path : ClassPath) (named : String → Prop) (m : Machine) : Prop :=
  Later path named {} m

end Machine

/-! ## Operations by steps -/

variable {named : String → Prop} {m : Machine}

namespace Action

/-- Classes are defined from the bytes of the range. -/
theorem takes_defineRange (hplain : ∀ n, PlainName n → named n) (path : ClassPath)
    {array : Option ObjectRef} {offset length : Int32}
    (hnamed : ∀ bytes, m.classFileRange array offset length = .ok bytes → FileNamed named bytes) :
    Takes (Machine.Evolves named) m (defineRange path array offset length) fun _ _ => True := by
  refine takes_get_bind (takes_lift_bind ?_)
  intro bytes hbytes
  have hother : ∀ (m : Machine) (n : Nat), m.Evolves named { m with scratchBytes := n } :=
    fun m n => Machine.evolves_of_eq rfl rfl rfl
  refine takes_modify_bind (hother m _) ?_
  exact (takes_defineClass hplain path (hnamed bytes hbytes)).andFinally (fun m' _ => hother m' _)
    fun _ _ _ _ => trivial

/-! ## Native methods by steps -/

/-- A field of a reflection object is one that is declared. -/
theorem declares_of_reflectedField (hw : m.WellFormed named) {r : ObjectRef} {f : Field}
    (h : m.reflectedField r = .ok f) : m.classes.Declares f := by
  obtain ⟨o, ho, h⟩ := bind_eq_ok.mp h
  split at h
  · next g hbody =>
    cases h
    have hshape := hw.shapes r o (Heap.get_eq_ok_iff.mp ho)
    rw [hbody] at hshape
    exact hshape.2
  · cases h

theorem takes_fieldGet (args : Arguments) :
    Takes (Machine.Evolves named) m (Builtin.fieldGet args) fun _ _ => True := by
  refine takes_liftThrowable_bind fun r _ => takes_get_bind (takes_lift_bind fun f _ => ?_)
  refine takes_liftThrowable_bind fun target _ => takes_get_bind (takes_lift_bind fun v _ => ?_)
  exact (takes_box v).mono fun _ _ _ _ => trivial

/-- A field that belongs to the class of its receiver is set. -/
theorem takes_fieldSet (hw : m.WellFormed named) (args : Arguments) :
    Takes (Machine.Evolves named) m (Builtin.fieldSet args) fun _ _ => True := by
  refine takes_liftThrowable_bind fun r _ => takes_get_bind (takes_lift_bind fun f hf => ?_)
  refine takes_liftThrowable_bind fun target _ => takes_liftThrowable_bind fun v _ => ?_
  have hdeclared := declares_of_reflectedField hw hf
  refine (takes_updating fun m' h => Machine.evolves_setField hdeclared h).bind ?_
  intro _ _ _ _
  exact takes_pure trivial

theorem takes_arrayGet (args : Arguments) :
    Takes (Machine.Evolves named) m (Builtin.arrayGet args) fun _ _ => True := by
  refine takes_liftThrowable_bind fun array _ => takes_liftThrowable_bind fun index _ => ?_
  refine takes_get_bind (takes_lift_bind fun v _ => ?_)
  exact (takes_box v).mono fun _ _ _ _ => trivial

theorem takes_arraySet (args : Arguments) :
    Takes (Machine.Evolves named) m (Builtin.arraySet args) fun _ _ => True := by
  refine takes_liftThrowable_bind fun array _ => takes_liftThrowable_bind fun index _ => ?_
  refine takes_liftThrowable_bind fun v _ => ?_
  refine (takes_updating fun m' h => Machine.evolves_arrayStore h).bind ?_
  intro _ _ _ _
  exact takes_pure trivial

theorem takes_arrayGetLength (args : Arguments) :
    Takes (Machine.Evolves named) m (Builtin.arrayGetLength args) fun _ _ => True := by
  refine takes_liftThrowable_bind fun array _ => takes_get_bind (takes_lift_bind fun n _ => ?_)
  exact takes_pure trivial

theorem takes_arrayMake (args : Arguments) :
    Takes (Machine.Evolves named) m (Builtin.arrayMake args) fun _ _ => True := by
  refine takes_liftThrowable_bind fun r _ => takes_get_bind (takes_lift_bind fun c _ => ?_)
  refine takes_liftThrowable_bind fun length _ => ?_
  exact (takes_newArray c length).bind fun _ _ _ _ => takes_pure trivial

theorem takes_systemArrayCopy (args : Arguments) :
    Takes (Machine.Evolves named) m (Builtin.systemArrayCopy args) fun _ _ => True := by
  refine takes_liftThrowable_bind fun src _ => takes_liftThrowable_bind fun srcPos _ => ?_
  refine takes_liftThrowable_bind fun dst _ => takes_liftThrowable_bind fun dstPos _ => ?_
  refine takes_liftThrowable_bind fun count _ => ?_
  refine (takes_updating fun m' h => Machine.evolves_arrayCopy h).bind ?_
  intro _ _ _ _
  exact takes_pure trivial

/-- An array is filled with as many references as it has elements. -/
theorem takes_fillArray (array : ObjectRef) (refs : List (Option ObjectRef)) :
    Takes (Machine.Evolves named) m (Builtin.fillArray array refs) fun _ _ => True := by
  refine takes_get_bind (takes_lift_bind fun a ha => ?_)
  split
  · next slots =>
    dsimp only
    split
    · exact (takes_abort (Q := fun _ _ => False) _).bind fun _ _ _ h => h.elim
    · next hlength =>
      refine takes_modify (Machine.Step.evolves ?_ rfl fun _ => rfl) trivial
      have hsame : (ArrayBody.references slots).SameShape (.references refs) :=
        (Decidable.not_not.mp hlength).symm
      exact Machine.step_of_arrayBody ha hsame rfl fun p => Heap.get?_noteWrite ..
  · exact takes_abort _

/-- The lines of a trace go into a new array of strings. -/
theorem takes_resolveTrace (args : Arguments) :
    Takes (Machine.Evolves named) m (Builtin.throwableResolveTrace args) fun _ _ => True := by
  refine takes_liftThrowable_bind fun r _ => takes_get_bind (takes_lift_bind fun o _ => ?_)
  split
  · refine takes_lift_bind fun lines _ => ?_
    refine (takes_newArray _ _).bind fun array m₁ _ _ => ?_
    refine (takes_mapM (I := fun _ => True) lines (fun l m _ => ?_) trivial).bind ?_
    · refine (takes_allocate ?_).mono fun _ _ _ _ => trivial
      show (5 : Nat) < ClassTable.bootstrap.size
      decide +kernel
    · intro refs m₂ _ _
      exact (takes_fillArray array _).bind fun _ _ _ _ => takes_pure trivial
  · exact takes_raise _

/-- A byte array has contents, whatever the failure for other objects is. -/
theorem byteArray_eq {r : ObjectRef} {o : Object} {data : Bytes} (ho : m.heap.get? r = some o)
    (hbody : o.body = .array (.primitive .byte data)) (message : String) :
    m.byteArray r message = .ok data := by
  unfold Machine.byteArray
  rw [Heap.get_eq_ok_iff.mpr ho]
  simp only [bind, Except.bind, hbody]
  rfl

/-- What writing bytes into a byte array has found and done. -/
theorem writeBytes_eq_ok {buffer : ObjectRef} {offset : Int32} {bytes : Bytes} {m' : Machine}
    (h : Builtin.writeBytes m buffer offset bytes = .ok m') :
    ∃ a data, m.arrayBody buffer = .ok a ∧ a.SameShape (.primitive .byte data) ∧
      m' = m.writeArray buffer (.primitive .byte data) := by
  obtain ⟨data, hdata, h⟩ := bind_eq_ok.mp h
  obtain ⟨o, ho, hdata⟩ := bind_eq_ok.mp hdata
  split at hdata
  · next x hbody =>
    cases hdata
    split at h
    · next hfit =>
      cases h
      refine ⟨.primitive .byte data, _, ?_, ⟨rfl, ArrayBody.length_overwrite hfit.2⟩, rfl⟩
      unfold Machine.arrayBody
      rw [ho]
      simp only [bind, Except.bind, hbody]
      rfl
    · cases h
  · cases hdata

/-- Writing bytes into a byte array keeps its length. -/
theorem evolves_writeBytes {buffer : ObjectRef} {offset : Int32} {bytes : Bytes} {m' : Machine}
    (h : Builtin.writeBytes m buffer offset bytes = .ok m') : m.Evolves named m' := by
  obtain ⟨a, data, ha, hs, rfl⟩ := writeBytes_eq_ok h
  exact Machine.Step.evolves (Machine.step_of_arrayBody ha hs rfl
    (Machine.get?_writeArray m buffer _)) rfl fun _ => rfl

/-- Bytes are written into a buffer without changing its shape. -/
theorem takes_readInto (args : Arguments) :
    Takes (Machine.Evolves named) m (Builtin.resourceReadInto args) fun _ _ => True := by
  refine takes_liftThrowable_bind fun number _ => takes_get_bind ?_
  refine takes_liftThrowable_bind fun data _ => takes_liftThrowable_bind fun position _ => ?_
  refine takes_liftThrowable_bind fun buffer _ => takes_liftThrowable_bind fun offset _ => ?_
  refine takes_liftThrowable_bind fun length _ => ?_
  dsimp only
  split
  · exact takes_pure trivial
  · refine (takes_updating fun m' h => evolves_writeBytes h).bind ?_
    intro _ _ _ _
    exact takes_pure trivial

/-- Every operation that is given what it has to be given goes by steps, unless it begins a class.
-/
theorem takes_operation (hplain : ∀ n, PlainName n → named n) (hw : m.WellFormed named)
    (path : ClassPath) (op : Operation) (hop : op.Admissible named m)
    (hstart : ∀ c, op ≠ .startInitialization c) :
    Takes (Machine.Evolves named) m (op.run path) fun _ _ => True := by
  cases op with
  | define bytes => exact (takes_defineClass hplain path hop).discard
  | defineRange array offset length => exact (takes_defineRange hplain path hop).discard
  | resolve name => exact (takes_resolve hplain path name).discard
  | arrayClass component => exact (takes_arrayClass component).discard
  | classObject c => exact (takes_classObject c).discard
  | startInitialization c => exact absurd rfl (hstart c)
  | newInstance c => exact (takes_newInstance c).discard
  | newArray component length => exact (takes_newArray component length).discard
  | newString s => exact (takes_newString s).discard
  | intern s => exact (takes_intern s).discard
  | box v => exact (takes_box v).discard
  | fieldObject f => exact (takes_fieldObject hop).discard
  | methodObject x => exact (takes_methodObject x).discard
  | attach peer => exact (takes_attach hw peer).discard
  | captureTrace frames =>
    refine (takes_allocate ?_).discard
    show (0 : Nat) < ClassTable.bootstrap.size
    decide +kernel
  | setField f target v => exact takes_updating fun m' h => Machine.evolves_setField hop h
  | arrayStore array index v => exact takes_updating fun m' h => Machine.evolves_arrayStore h
  | arrayCopy src srcPos dst dstPos count =>
    exact takes_updating fun m' h => Machine.evolves_arrayCopy h
  | fieldGet args => exact (takes_fieldGet args).discard
  | fieldSet args => exact (takes_fieldSet hw args).discard
  | arrayGet args => exact (takes_arrayGet args).discard
  | arraySet args => exact (takes_arraySet args).discard
  | arrayGetLength args => exact (takes_arrayGetLength args).discard
  | arrayMake args => exact (takes_arrayMake args).discard
  | systemArrayCopy args => exact (takes_systemArrayCopy args).discard
  | resolveTrace args => exact (takes_resolveTrace args).discard
  | readInto args => exact (takes_readInto args).discard
  | collect t keep => exact (takes_collect t keep).discard

end Action

/-! ## Reachable machines are well formed -/

namespace Machine

variable {path : ClassPath} {m' : Machine}

/-- A new machine is well formed. -/
theorem wellFormed_new (named : String → Prop) : WellFormed named {} where
  classes := ClassTable.wellFormed_bootstrap named
  shapes := by
    intro r o h
    cases h

theorem reachable_new : Reachable path named {} := .refl

/-- An operation leads from a reachable machine to a reachable one. -/
theorem Reachable.operation (h : m.Reachable path named) (op : Operation)
    (hop : op.Admissible named m) : Reachable path named (op.run path m).2 :=
  h.tail (.operation op hop)

/-- Beginning a class is a step. -/
theorem step_startInitialization (c : ClassId) :
    Step named m ((Operation.startInitialization c).run path m).2 :=
  .classes rfl (.mark (fun _ => rfl) fun _ => rfl)

/-- Whatever operates on a machine does so in steps. -/
theorem Operates.steps (hplain : ∀ n, PlainName n → named n) (hw : m.WellFormed named)
    (h : Operates path named m m') : Relation.ReflTransGen (Step named) m m' := by
  cases h with
  | operation op hop =>
    by_cases hstart : ∃ c, op = .startInitialization c
    · obtain ⟨c, rfl⟩ := hstart
      exact .single (step_startInitialization c)
    · have hstart : ∀ c, op ≠ .startInitialization c := fun c hc => hstart ⟨c, hc⟩
      exact (Action.takes_operation hplain hw path op hop hstart).1.steps
  | elsewhere hclasses hheap => exact .single (step_of_eq hclasses hheap)

/-- Operations lead on by steps. -/
theorem Later.steps (hplain : ∀ n, PlainName n → named n) (hw : m.WellFormed named)
    (h : Later path named m m') : Relation.ReflTransGen (Step named) m m' := by
  induction h with
  | refl => exact .refl
  | tail _ hop ih => exact ih.trans (hop.steps hplain (wellFormed_of_steps ih hw))

/-- A reachable machine is well formed. -/
theorem Reachable.wellFormed (hplain : ∀ n, PlainName n → named n)
    (h : m.Reachable path named) : m.WellFormed named :=
  wellFormed_of_steps (h.steps hplain (wellFormed_new named)) (wellFormed_new named)

end Machine

end JavaMachine
