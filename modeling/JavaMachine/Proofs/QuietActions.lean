/-
# What leaves the calls of threads alone

Most of what a machine does has nothing to do with the calls under way on its threads.  A computation
is quiet (`Action.Quiet`) when these stay as they are, and with them the exceptions that are pending,
the links of native methods and the methods of every class; and when it does not end because a pending
exception was overwritten.

What reads only and ends with no such fault is `Harmless`, and a change in one go that leaves calls
alone is one of `Machine.Changes`.  Making objects, defining and resolving classes, waiting and
collecting are put together from these.
-/
import JavaMachine.Native.Calls
import JavaMachine.Native.Loading
import JavaMachine.Proofs.Effects
import JavaMachine.Proofs.ThreadTables

namespace JavaMachine

/-! ## What is left alone -/

namespace Machine

/-- The calls under way on a thread, the innermost first, and the exception that is pending on it. -/
def calls? (m : Machine) (t : ThreadId) : Option (List Frame × Option Throwable) :=
  (m.threads.contexts.get? t).map fun x => (x.frames, x.pending)

/-- The second machine has the threads of the first one with the same calls under way, the same links,
and its classes with the same methods. -/
structure KeepsCalls (m m' : Machine) : Prop where
  classes : m.classes.Extends m'.classes
  links : m'.links = m.links
  next : m'.threads.next = m.threads.next
  calls : ∀ t, m'.calls? t = m.calls? t

variable {m m' m'' : Machine}

/-- The calls of a thread are those of its context. -/
theorem calls?_eq_some_iff {t : ThreadId} {frames : List Frame} {pending : Option Throwable} :
    m.calls? t = some (frames, pending) ↔
      ∃ x, m.threads.contexts.get? t = some x ∧ x.frames = frames ∧ x.pending = pending := by
  unfold calls?
  rw [Option.map_eq_some_iff]
  simp only [Prod.mk.injEq]

/-- A thread has calls, maybe none, as long as it has a context. -/
theorem isSome_calls? (m : Machine) (t : ThreadId) :
    (m.calls? t).isSome = (m.threads.contexts.get? t).isSome :=
  Option.isSome_map

/-- The calls of one thread after its context was changed, and those of the others. -/
theorem calls?_updateThread (m : Machine) (t : ThreadId) (f : Thread → Thread) (u : ThreadId) :
    (m.updateThread t f).calls? u =
      if u = t then (m.threads.contexts.get? t).map fun x => ((f x).frames, (f x).pending)
      else m.calls? u := by
  show ((m.threads.contexts.modify t f).get? u).map _ = _
  rw [Table.get?_modify]
  by_cases hu : u = t
  · rw [if_pos hu, if_pos hu, Option.map_map]
    rfl
  · rw [if_neg hu, if_neg hu]
    rfl

/-- What is done to one context leaves the calls of the other threads as they are. -/
theorem calls?_updateThread_of_ne {t u : ThreadId} (h : u ≠ t) (f : Thread → Thread) :
    (m.updateThread t f).calls? u = m.calls? u := by
  rw [calls?_updateThread, if_neg h]

/-- The calls of the other threads after a context was dropped. -/
theorem calls?_forget (m : Machine) (t u : ThreadId) :
    { m with threads := m.threads.forget t }.calls? u = if u = t then none else m.calls? u := by
  show ((m.threads.contexts.erase t).get? u).map _ = _
  rw [Table.get?_erase]
  split
  · rfl
  · rfl

/-- The calls of the threads after a context was made: none yet on the new one. -/
theorem calls?_attach (m : Machine) (peer : Option ObjectRef) (u : ThreadId) :
    { m with threads := (m.threads.attach peer).1 }.calls? u =
      if u = .ofNumber m.threads.next then some ([], none) else m.calls? u := by
  show ((m.threads.contexts.insert _ _).get? u).map _ = _
  rw [Table.get?_insert]
  split
  · rfl
  · rfl

namespace KeepsCalls

/-- What is neither a class, nor a link, nor a thread may change. -/
theorem of_eq (hclasses : m'.classes = m.classes) (hlinks : m'.links = m.links)
    (hthreads : m'.threads = m.threads) : m.KeepsCalls m' where
  classes := hclasses ▸ .refl _
  links := hlinks
  next := by rw [hthreads]
  calls t := by
    unfold calls?
    rw [hthreads]

theorem refl (m : Machine) : m.KeepsCalls m := .of_eq rfl rfl rfl

/-- What is kept by one change and by the next is kept by both. -/
theorem trans (h : m.KeepsCalls m') (h' : m'.KeepsCalls m'') : m.KeepsCalls m'' where
  classes := h.classes.trans h'.classes
  links := h'.links.trans h.links
  next := h'.next.trans h.next
  calls t := (h'.calls t).trans (h.calls t)

/-- Classes may be added. -/
theorem of_classes {classes : ClassTable} (h : m.classes.Extends classes) :
    m.KeepsCalls { m with classes } where
  classes := h
  links := rfl
  next := rfl
  calls _ := rfl

/-- What is no call and no pending exception of a context changes. -/
theorem update {t : ThreadId} {f : Thread → Thread}
    (hf : ∀ x, (f x).frames = x.frames ∧ (f x).pending = x.pending) :
    m.KeepsCalls (m.updateThread t f) where
  classes := .refl _
  links := rfl
  next := rfl
  calls u := by
    rw [calls?_updateThread]
    by_cases hu : u = t
    · rw [if_pos hu, hu]
      unfold calls?
      congr 1
      funext x
      rw [(hf x).1, (hf x).2]
    · rw [if_neg hu]

end KeepsCalls

end Machine

/-- The result is not the fault that a pending exception was overwritten. -/
structure Harmless {α : Type} (r : Except Stop α) : Prop where
  ne_overwritten : r ≠ .error (.broken .pendingOverwritten)

section Harmless

variable {α β : Type}

/-- A result is no fault at all. -/
theorem harmless_ok (x : α) : Harmless (.ok x) := ⟨nofun⟩

/-- Of all the ways to end early, one is not harmless. -/
theorem harmless_error_iff {e : Stop} :
    Harmless (.error e : Except Stop α) ↔ e ≠ .broken .pendingOverwritten := by
  refine ⟨?_, ?_⟩
  · rintro ⟨h⟩ rfl
    exact h rfl
  · exact fun h => ⟨fun heq => h (Except.error.inj heq)⟩

/-- An exception is no fault. -/
theorem harmless_thrown (e : Throwable) : Harmless (.error (.thrown e) : Except Stop α) :=
  harmless_error_iff.mpr nofun

/-- Every other fault is harmless, since it is told apart from the one. -/
theorem harmless_fault {f : Fault} (h : f ≠ .pendingOverwritten) :
    Harmless (.error (.broken f) : Except Stop α) :=
  harmless_error_iff.mpr fun heq => h (Stop.broken.inj heq)

/-- A failure is as harmless whatever result there is none of. -/
theorem Harmless.of_error {e : Stop} (h : Harmless (.error e : Except Stop α)) :
    Harmless (.error e : Except Stop β) :=
  harmless_error_iff.mpr (harmless_error_iff.mp h)

/-- A computation that ends early ends like the part that ended. -/
theorem Harmless.bind {r : Except Stop α} {f : α → Except Stop β} (hr : Harmless r)
    (hf : ∀ x, r = .ok x → Harmless (f x)) : Harmless (r >>= f) := by
  cases r with
  | ok x => exact hf x rfl
  | error e => exact hr.of_error

/-- What is made of a result does not matter. -/
theorem Harmless.map {r : Except Stop α} (hr : Harmless r) (f : α → β) : Harmless (r.map f) := by
  cases r with
  | ok x => exact harmless_ok _
  | error e => exact hr.of_error

/-- What ends with an exception or not at all is harmless. -/
theorem harmless_lift (r : Except Throwable α) : Harmless (liftM r : Except Stop α) := by
  cases r with
  | ok x => exact harmless_ok x
  | error e => exact harmless_thrown e

/-- Going through a list ends early only where one item does. -/
theorem harmless_mapM {γ : Type} {f : γ → Except Stop β} (l : List γ) (hf : ∀ c, Harmless (f c)) :
    Harmless (l.mapM f) := by
  induction l with
  | nil =>
    rw [List.mapM_nil]
    exact harmless_ok _
  | cons c l ih =>
    rw [List.mapM_cons]
    exact (hf c).bind fun _ _ => ih.bind fun _ _ => harmless_ok _

/-- A check that raises an exception. -/
theorem harmless_check {c : Prop} [Decidable c] {e : Throwable} {k : Unit → Except Stop β}
    (h : Harmless (k ())) : Harmless (if c then raise e >>= k else k ()) := by
  split
  · exact harmless_thrown e
  · exact h

end Harmless

/-! ## Reading -/

section Reading

variable (m : Machine)

/-- A class that is missing is another fault. -/
theorem harmless_getClass (t : ClassTable) (c : ClassId) : Harmless (t.get c) := by
  unfold ClassTable.get
  split
  · exact harmless_ok _
  · exact harmless_fault nofun

/-- Names of classes are read off the table. -/
theorem harmless_dotted (t : ClassTable) (c : ClassId) : Harmless (t.dotted c) :=
  (harmless_getClass t c).map _

/-- A reference to nothing is another fault. -/
theorem harmless_getObject (h : Heap) (r : ObjectRef) : Harmless (h.get r) := by
  unfold Heap.get
  split
  · exact harmless_ok _
  · exact harmless_fault nofun

/-- The class of an object is looked up through its reference. -/
theorem harmless_classOf (r : ObjectRef) : Harmless (m.classOf r) :=
  (harmless_getObject m.heap r).map _

/-- A thread without a context is another fault. -/
theorem harmless_thread (t : ThreadId) : Harmless (m.thread t) := by
  unfold Machine.thread
  split
  · exact harmless_ok _
  · exact harmless_fault nofun

/-- A null reference is an exception. -/
theorem harmless_nonNull (r : Option ObjectRef) : Harmless (Machine.nonNull r) := by
  cases r with
  | none => exact harmless_thrown _
  | some r => exact harmless_ok r

/-- An object that is no string is an exception. -/
theorem harmless_stringValue (r : ObjectRef) : Harmless (m.stringValue r) := by
  refine (harmless_getObject _ r).bind fun o _ => ?_
  split
  · exact harmless_ok _
  · exact harmless_thrown _

/-- An object that stands for no class is an exception. -/
theorem harmless_reflectedClass (r : ObjectRef) : Harmless (m.reflectedClass r) := by
  refine (harmless_getObject _ r).bind fun o _ => ?_
  split
  · exact harmless_ok _
  · exact harmless_thrown _

theorem harmless_reflectedField (r : ObjectRef) : Harmless (m.reflectedField r) := by
  refine (harmless_getObject _ r).bind fun o _ => ?_
  split
  · exact harmless_ok _
  · exact harmless_thrown _

theorem harmless_reflectedMethod (r : ObjectRef) : Harmless (m.reflectedMethod r) := by
  refine (harmless_getObject _ r).bind fun o _ => ?_
  split
  · exact harmless_ok _
  · exact harmless_thrown _

/-- An array of another kind is an exception with the message. -/
theorem harmless_byteArray (r : ObjectRef) (message : String) :
    Harmless (m.byteArray r message) := by
  refine (harmless_getObject _ r).bind fun o _ => ?_
  split
  · exact harmless_ok _
  · exact harmless_thrown _

/-- A range that does not fit is an exception. -/
theorem harmless_classFileRange (array : Option ObjectRef) (offset length : Int32) :
    Harmless (m.classFileRange array offset length) := by
  refine (harmless_nonNull array).bind fun r _ => (harmless_byteArray m r _).bind fun data _ => ?_
  split
  · exact harmless_ok _
  · exact harmless_thrown _

/-- A line of a trace takes the name of a class, which may be missing. -/
theorem harmless_traceLines (frames : List Frame) : Harmless (traceLines m frames) :=
  harmless_mapM frames fun _ => (harmless_getClass m.classes _).bind fun _ _ => harmless_ok _

/-- Array classes are looked up by name, and made when they are not there. -/
theorem harmless_arrayClass (t : ClassTable) (component : ClassId) :
    Harmless (t.arrayClass component) := by
  refine (harmless_getClass t component).bind fun cls _ => ?_
  split
  · exact harmless_fault nofun
  · split
    · exact harmless_ok _
    · exact harmless_ok _

/-! ### Fields and elements -/

/-- A receiver that does not have the field is an exception. -/
theorem harmless_receiver (f : Field) (target : Option ObjectRef) :
    Harmless (m.receiver f target) := by
  unfold Machine.receiver
  split
  · exact harmless_thrown _
  · refine (harmless_getObject m.heap _).bind fun o _ => ?_
    split
    · exact harmless_ok _
    · exact (harmless_dotted m.classes _).bind fun _ _ => harmless_thrown _

/-- Reading a field checks the receiver, and then takes the value out. -/
theorem harmless_getField (f : Field) (target : Option ObjectRef) :
    Harmless (m.getField f target) := by
  unfold Machine.getField
  split
  · split
    · exact harmless_ok _
    · exact harmless_fault nofun
  · refine (harmless_receiver m f target).bind fun found _ => ?_
    split
    · split
      · exact harmless_ok _
      · exact harmless_fault nofun
    · exact harmless_fault nofun

/-- An object that is no array is an exception. -/
theorem harmless_arrayClassOf (r : ObjectRef) : Harmless (m.arrayClassOf r) := by
  refine (harmless_classOf m r).bind fun c _ => (harmless_getClass _ c).bind fun cls _ => ?_
  exact harmless_check (harmless_ok cls)

theorem harmless_arrayBody (r : ObjectRef) : Harmless (m.arrayBody r) := by
  refine (harmless_getObject _ r).bind fun o _ => ?_
  split
  · exact harmless_ok _
  · exact harmless_fault nofun

/-- An index out of bounds is an exception. -/
theorem harmless_checkedIndex (index : Int32) (length : Nat) :
    Harmless (Machine.checkedIndex index length) := by
  unfold Machine.checkedIndex
  split
  · exact harmless_ok _
  · exact harmless_thrown _

theorem harmless_arrayLength (array : Option ObjectRef) : Harmless (m.arrayLength array) := by
  refine (harmless_nonNull array).bind fun r _ => (harmless_arrayClassOf m r).bind fun _ _ => ?_
  exact (harmless_arrayBody m r).bind fun _ _ => harmless_ok _

/-- Loading an element checks the array, and then the index. -/
theorem harmless_arrayLoad (array : Option ObjectRef) (index : Int32) :
    Harmless (m.arrayLoad array index) := by
  refine (harmless_nonNull array).bind fun r _ => (harmless_arrayClassOf m r).bind fun _ _ => ?_
  refine (harmless_arrayBody m r).bind fun body _ => ?_
  refine (harmless_checkedIndex index _).bind fun i _ => ?_
  split
  · exact harmless_ok _
  · exact harmless_fault nofun

/-- A value that does not fit in an array is an exception. -/
theorem harmless_elementFor (cls : Class) (v : Value) : Harmless (m.elementFor cls v) := by
  refine (harmless_lift _).bind fun v _ => ?_
  split
  · refine (harmless_classOf m _).bind fun source _ => ?_
    split
    · exact harmless_ok _
    · exact (harmless_dotted m.classes _).bind fun _ _ => harmless_thrown _
  · exact harmless_ok _

/-! ### Reflective calls -/

/-- A receiver that a method cannot be called on is an exception. -/
theorem harmless_callReceiver (x : Method) (target : Option ObjectRef) :
    Harmless (m.callReceiver x target) := by
  unfold Machine.callReceiver
  split
  · exact harmless_ok _
  · refine (harmless_nonNull target).bind fun r _ => (harmless_classOf m r).bind fun c _ => ?_
    split
    · exact harmless_ok _
    · refine (harmless_dotted _ c).bind fun name _ => ?_
      exact (harmless_dotted m.classes _).bind fun _ _ => harmless_thrown _

/-- An argument that does not convert is an exception. -/
theorem harmless_callArguments (x : Method) (array : ObjectRef) :
    Harmless (m.callArguments x array) := by
  refine (harmless_getObject _ array).bind fun o _ => ?_
  split
  · exact harmless_check (harmless_lift _)
  · exact harmless_thrown _

end Reading

/-! ## Changing in one go -/

/-- A change of the machine that fails harmlessly, or leaves calls alone. -/
def Machine.Changes (m : Machine) (r : Except Stop Machine) : Prop :=
  Harmless r ∧ ∀ m', r = .ok m' → m.KeepsCalls m'

section Changing

variable {m : Machine}

/-- A change that is made has to keep the calls. -/
theorem changes_ok {m' : Machine} (h : m.KeepsCalls m') : m.Changes (.ok m') := by
  refine ⟨harmless_ok m', ?_⟩
  rintro _ ⟨⟩
  exact h

/-- Where an exception is raised, nothing has changed. -/
theorem changes_raise (e : Throwable) : m.Changes (raise e) := ⟨harmless_thrown e, nofun⟩

/-- Other faults change nothing either. -/
theorem changes_abort {f : Fault} (h : f ≠ .pendingOverwritten) : m.Changes (abort f) :=
  ⟨harmless_fault h, nofun⟩

/-- What is read first changes nothing. -/
theorem changes_bind {α : Type} {r : Except Stop α} {f : α → Except Stop Machine}
    (hr : Harmless r) (hf : ∀ x, r = .ok x → m.Changes (f x)) : m.Changes (r >>= f) := by
  refine ⟨hr.bind fun x hx => (hf x hx).1, ?_⟩
  cases r with
  | ok x => exact (hf x rfl).2
  | error e => exact nofun

/-- A check in front of a change does not count. -/
theorem changes_check {c : Prop} [Decidable c] {e : Throwable} {k : Unit → Except Stop Machine}
    (h : m.Changes (k ())) : m.Changes (if c then raise e >>= k else k ()) := by
  split
  · exact changes_raise e
  · exact h

/-- Setting a field changes one object, or the slot of one class. -/
theorem changes_setField (f : Field) (target : Option ObjectRef) (v : Value) :
    m.Changes (m.setField f target v) := by
  unfold Machine.setField
  split
  · refine changes_bind (harmless_lift _) fun v _ => ?_
    split
    · exact changes_ok (.of_classes (ClassTable.extends_update fun _ => rfl))
    · exact changes_abort nofun
  · refine changes_bind (harmless_receiver m f target) fun found _ => ?_
    refine changes_bind (harmless_lift _) fun v _ => ?_
    dsimp only
    split
    · split
      · exact changes_ok (.of_eq rfl rfl rfl)
      · exact changes_abort nofun
    · exact changes_abort nofun

/-- Storing an element changes one object. -/
theorem changes_arrayStore (array : Option ObjectRef) (index : Int32) (v : Value) :
    m.Changes (m.arrayStore array index v) := by
  refine changes_bind (harmless_nonNull array) fun r _ => ?_
  refine changes_bind (harmless_arrayClassOf m r) fun cls _ => ?_
  refine changes_bind (harmless_arrayBody m r) fun body _ => ?_
  refine changes_bind (harmless_checkedIndex index _) fun i _ => ?_
  refine changes_bind (harmless_elementFor m cls v) fun v _ => ?_
  split
  · exact changes_ok (.of_eq rfl rfl rfl)
  · exact changes_abort nofun

/-- Copying elements changes one object. -/
theorem changes_arrayCopy (src dst : Option ObjectRef) (srcPos dstPos count : Int32) :
    m.Changes (m.arrayCopy src srcPos dst dstPos count) := by
  unfold Machine.arrayCopy
  split
  · next src dst =>
    refine changes_bind (harmless_classOf m src) fun srcClass _ => ?_
    refine changes_bind (harmless_classOf m dst) fun dstClass _ => ?_
    dsimp only
    split
    · refine changes_bind (harmless_dotted _ srcClass) fun srcName _ => ?_
      refine changes_bind (harmless_dotted _ dstClass) fun dstName _ => ?_
      exact changes_raise _
    · refine changes_bind (harmless_getClass _ srcClass) fun cls _ => changes_check ?_
      refine changes_bind (harmless_arrayBody m src) fun srcBody _ => ?_
      refine changes_bind (harmless_arrayBody m dst) fun dstBody _ => ?_
      split
      · split
        · exact changes_ok (.refl m)
        · split
          · exact changes_ok (.of_eq rfl rfl rfl)
          · exact changes_abort nofun
      · exact changes_raise _
  · exact changes_raise _

/-- Writing into a buffer changes one object. -/
theorem changes_writeBytes (buffer : ObjectRef) (offset : Int32) (bytes : Bytes) :
    m.Changes (Builtin.writeBytes m buffer offset bytes) := by
  refine changes_bind (harmless_byteArray m buffer _) fun target _ => ?_
  dsimp only
  split
  · exact changes_ok (.of_eq rfl rfl rfl)
  · exact changes_raise _

end Changing

/-! ## Quiet computations -/

namespace Action

/-- From a state, the computation leaves calls alone and overwrites no pending exception. -/
def Quiet {α : Type} (m : Machine) (a : Action α) : Prop :=
  m.KeepsCalls (a m).2 ∧ Harmless (a m).1

section Combinators

variable {m : Machine} {α β γ : Type} {a : Action α} {f : α → Action β}

/-- A computation that does nothing is quiet. -/
theorem quiet_pure (x : α) : Quiet m (pure x) := ⟨.refl m, harmless_ok x⟩

/-- Ending early changes nothing, so only the fault counts. -/
theorem quiet_throw {e : Stop} (h : Harmless (.error e : Except Stop α)) :
    Quiet m (throw e : Action α) :=
  ⟨.refl m, h⟩

theorem quiet_raise (e : Throwable) : Quiet m (raise e : Action α) := quiet_throw (harmless_thrown e)

theorem quiet_abort {f : Fault} (h : f ≠ .pendingOverwritten) : Quiet m (abort f : Action α) :=
  quiet_throw (harmless_fault h)

/-- Quiet computations follow each other; what comes later may use that the first one did not
fail. -/
theorem Quiet.bind (ha : Quiet m a) (hf : ∀ x m', a m = (.ok x, m') → Quiet m' (f x)) :
    Quiet m (a >>= f) := by
  unfold Quiet at ha ⊢
  rw [run_bind]
  rcases hrun : a m with ⟨e | x, m'⟩
  · rw [hrun] at ha
    exact ⟨ha.1, ha.2.of_error⟩
  · rw [hrun] at ha
    obtain ⟨hkeeps, hharmless⟩ := hf x m' hrun
    exact ⟨ha.1.trans hkeeps, hharmless⟩

/-- A computation whose result is put in another form. -/
theorem Quiet.bind_pure {g : α → β} (ha : Quiet m a) : Quiet m (a >>= fun x => pure (g x)) :=
  ha.bind fun _ _ _ => quiet_pure _

/-- Looking at the machine is quiet. -/
theorem quiet_get_bind {g : Machine → Action β} (h : Quiet m (g m)) : Quiet m (get >>= g) := h

/-- A step that only reads has to be harmless. -/
theorem quiet_lift_bind {r : Except Stop α} (hr : Harmless r)
    (hf : ∀ x, r = .ok x → Quiet m (f x)) : Quiet m (liftM r >>= f) := by
  cases r with
  | ok x => exact hf x rfl
  | error e => exact ⟨.refl m, hr.of_error⟩

/-- A step that ends with nothing but exceptions is quiet. -/
theorem quiet_liftThrowable (r : Except Throwable α) : Quiet m (liftM r : Action α) := by
  cases r with
  | ok x => exact quiet_pure x
  | error e => exact quiet_raise e

theorem quiet_liftThrowable_bind {r : Except Throwable α} (hf : ∀ x, r = .ok x → Quiet m (f x)) :
    Quiet m (liftM r >>= f) := by
  cases r with
  | ok x => exact hf x rfl
  | error e => exact ⟨.refl m, harmless_thrown e⟩

/-- A check in front of a quiet computation does not count. -/
theorem quiet_check {c : Prop} [Decidable c] {e : Throwable} {k : Unit → Action β}
    (h : Quiet m (k ())) : Quiet m (if c then raise e >>= k else k ()) := by
  split
  · exact ⟨.refl m, harmless_thrown e⟩
  · exact h

/-- A change without a result has to keep the calls. -/
theorem quiet_modify {g : Machine → Machine} (h : m.KeepsCalls (g m)) : Quiet m (modify g) :=
  ⟨h, harmless_ok _⟩

/-- A change that can fail is quiet if what it makes of the machine keeps the calls. -/
theorem quiet_updating {u : Machine → Except Stop Machine} (h : m.Changes (u m)) :
    Quiet m (updating u) := by
  unfold Quiet updating
  rcases hu : u m with e | m'
  · rw [hu] at h
    exact ⟨.refl m, h.1.of_error⟩
  · rw [hu] at h
    exact ⟨h.2 m' rfl, harmless_ok _⟩

theorem Quiet.discard (ha : Quiet m a) : Quiet m (discard a : Action PUnit) := by
  unfold Quiet
  rw [run_discard]
  exact ⟨ha.1, ha.2.map _⟩

/-- What a computation ends with may be looked at. -/
theorem Quiet.attempt (ha : Quiet m a) : Quiet m a.attempt := by
  unfold Quiet Action.attempt at *
  rcases hrun : a m with ⟨(t | g | c) | x, m'⟩
  all_goals rw [hrun] at ha
  · exact ⟨ha.1, harmless_ok _⟩
  · exact ⟨ha.1, ha.2.of_error⟩
  · exact ⟨ha.1, harmless_error_iff.mpr nofun⟩
  · exact ⟨ha.1, harmless_error_iff.mpr nofun⟩
  · exact ⟨ha.1, harmless_ok _⟩

/-- What is done at the end, however it comes, has to keep the calls. -/
theorem Quiet.andFinally {g : Machine → Machine} (ha : Quiet m a)
    (hg : ∀ m' : Machine, m'.KeepsCalls (g m')) : Quiet m (a.andFinally g) :=
  ⟨ha.1.trans (hg _), ha.2⟩

/-- Going through a list is quiet if each item is, in every machine on the way. -/
theorem quiet_mapM {g : γ → Action β} (l : List γ) (hg : ∀ c m, Quiet m (g c)) :
    Quiet m (l.mapM g) := by
  induction l generalizing m with
  | nil =>
    rw [List.mapM_nil]
    exact quiet_pure _
  | cons c l ih =>
    rw [List.mapM_cons]
    exact (hg c m).bind fun x m' _ => ih.bind_pure

/-- Folding a list is quiet if each step is, in every machine on the way. -/
theorem quiet_foldlM {g : α → γ → Action α} (l : List γ) (hg : ∀ x c m, Quiet m (g x c)) (x : α) :
    Quiet m (l.foldlM g x) := by
  induction l generalizing m x with
  | nil =>
    rw [List.foldlM_nil]
    exact quiet_pure x
  | cons c l ih =>
    rw [List.foldlM_cons]
    exact (hg x c m).bind fun y m' _ => ih y

end Combinators

/-! ## Making objects and classes -/

section Making

variable {m : Machine} {resolver : String → Action ClassId}

/-- A new object is no class, no link and no thread. -/
theorem quiet_allocate (owner : ClassId) (body : Body) : Quiet m (allocate owner body) :=
  ⟨.of_eq rfl rfl rfl, harmless_ok _⟩

/-- Interning makes at most one new string. -/
theorem quiet_intern (s : String) : Quiet m (intern s) := by
  refine quiet_get_bind ?_
  split
  · exact quiet_pure _
  · exact (quiet_allocate ..).bind fun r m' _ => (quiet_modify (.of_eq rfl rfl rfl)).bind_pure

theorem quiet_box (v : Value) : Quiet m (box v) := by
  unfold box
  split
  · exact (quiet_allocate ..).bind_pure
  · exact quiet_pure v

/-- A new instance is made of the layout of its class, without an initializer. -/
theorem quiet_newInstance (c : ClassId) : Quiet m (newInstance c) := by
  refine quiet_get_bind (quiet_lift_bind (harmless_getClass ..) fun cls _ => quiet_check ?_)
  exact quiet_allocate ..

/-- An array class that is made has no methods. -/
theorem quiet_arrayClass (component : ClassId) : Quiet m (arrayClass component) := by
  refine quiet_get_bind (quiet_lift_bind (harmless_arrayClass ..) fun found hfound => ?_)
  exact (quiet_modify (.of_classes (ClassTable.extends_of_arrayClass hfound))).bind_pure

/-- A new array may need its class to be made. -/
theorem quiet_newArray (component : ClassId) (length : Int32) :
    Quiet m (newArray component length) := by
  refine quiet_check (quiet_get_bind (quiet_lift_bind (harmless_getClass ..) fun _ _ => ?_))
  refine quiet_check ((quiet_arrayClass component).bind fun c m₁ _ => quiet_get_bind ?_)
  exact quiet_lift_bind (harmless_getClass ..) fun cls _ => quiet_allocate ..

/-- The object of a class is made once, and kept beside the class. -/
theorem quiet_classObject (c : ClassId) : Quiet m (classObject c) := by
  refine quiet_get_bind (quiet_lift_bind (harmless_getClass ..) fun cls _ => ?_)
  split
  · exact quiet_pure _
  · refine (quiet_allocate ..).bind fun r m₁ _ => (quiet_modify ?_).bind_pure
    exact .of_classes (ClassTable.extends_update fun _ => rfl)

/-! ### Defining and resolving -/

/-- A constant field may need its string to be interned. -/
theorem quiet_constantValue (pool : ConstantPool) (index : UInt16) (t : Tag) :
    Quiet m (constantValue pool index t) := by
  refine quiet_liftThrowable_bind fun c _ => ?_
  split
  · exact quiet_liftThrowable_bind fun s _ => (quiet_intern s).bind_pure
  · split
    · exact quiet_pure _
    · exact quiet_raise _

theorem quiet_planField (pool : ConstantPool) (owner : ClassId) (plan : FieldPlan)
    (info : MemberInfo) : Quiet m (planField pool owner plan info) := by
  refine quiet_liftThrowable_bind fun name _ => quiet_liftThrowable_bind fun descriptor _ => ?_
  refine quiet_liftThrowable_bind fun tag _ => ?_
  dsimp only
  split
  · refine Quiet.bind_pure ?_
    unfold initialSlot
    split
    · exact quiet_pure _
    · exact (quiet_constantValue ..).bind_pure
  · exact quiet_pure _

/-- A class that is built has its supertypes resolved, and no class is changed by that. -/
theorem quiet_build {cf : ClassFile} {name : String} (hres : ∀ n m, Quiet m (resolver n)) :
    Quiet m (build resolver cf name) := by
  refine Quiet.bind ?_ fun superclass m₁ _ => ?_
  · refine quiet_liftThrowable_bind fun s _ => ?_
    split
    · exact quiet_pure _
    · split
      · exact quiet_raise _
      · exact (hres _ m).bind_pure
  refine quiet_liftThrowable_bind fun names _ => ?_
  refine (quiet_mapM names hres).bind fun interfaces m₂ _ => quiet_get_bind ?_
  refine (quiet_foldlM _ (fun plan info m => quiet_planField ..) _).bind fun plan m₃ _ => ?_
  refine (quiet_mapM _ fun info m => quiet_liftThrowable _).bind fun methods m₄ _ => ?_
  refine quiet_liftThrowable_bind fun sourceFile _ => quiet_get_bind ?_
  refine quiet_liftThrowable_bind fun added hadded => ?_
  obtain ⟨_, hclasses, _⟩ := ClassTable.define_eq_ok hadded
  refine (quiet_modify (.of_classes ?_)).bind_pure
  rw [hclasses]
  exact ClassTable.extends_push m₄.classes _

/-- Defining adds one class, after it has been built. -/
theorem quiet_define {bytes : Bytes} {expected : Option String}
    (hres : ∀ n m, Quiet m (resolver n)) : Quiet m (define resolver bytes expected) := by
  refine quiet_liftThrowable_bind fun cf _ => quiet_liftThrowable_bind fun name _ => ?_
  have hrest : Quiet m (do
      if ((← get).classes.find? name).isSome then raise (.duplicateClass name)
      whileDefining name (build resolver cf name) : Action ClassId) := by
    refine quiet_get_bind (quiet_check (quiet_get_bind (quiet_check ?_)))
    refine (quiet_modify (.of_eq rfl rfl rfl)).bind fun _ m₁ _ => ?_
    exact Quiet.andFinally (quiet_build hres) fun m' => .of_eq rfl rfl rfl
  dsimp only
  split
  · exact ⟨.refl m, harmless_thrown _⟩
  · exact hrest

/-- Loading defines the bytes that are found. -/
theorem quiet_load {path : ClassPath} {name : String} (hres : ∀ n m, Quiet m (resolver n)) :
    Quiet m (load resolver path name) := by
  unfold load
  split
  · exact quiet_raise _
  · refine (quiet_define hres).attempt.bind fun r m₁ _ => ?_
    split
    · exact quiet_pure _
    · split
      · refine quiet_get_bind ?_
        split
        · exact quiet_pure _
        · exact quiet_raise _
      · exact quiet_raise _

/-- Resolving goes round through the supertypes of what it loads, and the bound is what the
induction is on. -/
theorem quiet_resolveWithin (path : ClassPath) (bound : Nat) (name : String) :
    Quiet m (resolveWithin path bound name) := by
  induction bound generalizing name m with
  | zero => exact quiet_abort nofun
  | succ bound ih =>
    refine quiet_get_bind ?_
    split
    · exact quiet_pure _
    · split
      · split
        · exact quiet_raise _
        · next component _ =>
          refine Quiet.bind ?_ fun c m₁ _ => quiet_arrayClass c
          cases component with
          | primitive p => exact quiet_pure _
          | named n => exact ih n
      · exact quiet_load fun n m => ih n

/-- A name is resolved without running anything. -/
theorem quiet_resolve (path : ClassPath) (name : String) : Quiet m (resolve path name) :=
  quiet_resolveWithin path _ name

theorem quiet_defineClass (path : ClassPath) (bytes : Bytes) : Quiet m (defineClass path bytes) :=
  quiet_define fun n _ => quiet_resolve path n

/-- The bytes of a range are taken out before they are defined. -/
theorem quiet_defineRange (path : ClassPath) (array : Option ObjectRef) (offset length : Int32) :
    Quiet m (defineRange path array offset length) := by
  refine quiet_get_bind (quiet_lift_bind (harmless_classFileRange ..) fun bytes _ => ?_)
  refine (quiet_modify (.of_eq rfl rfl rfl)).bind fun _ m₁ _ => ?_
  exact Quiet.andFinally (quiet_defineClass path bytes) fun m' => .of_eq rfl rfl rfl

end Making

/-! ## Threads and monitors -/

section Threads

variable {m : Machine}

/-- What is done to a context must keep its calls. -/
theorem quiet_updateThread (t : ThreadId) {f : Thread → Thread}
    (hf : ∀ x, (f x).frames = x.frames ∧ (f x).pending = x.pending) :
    Quiet m (updateThread t f) :=
  quiet_modify (.update hf)

/-- The state of a thread is no call. -/
theorem quiet_setState (t : ThreadId) (s : ThreadState) : Quiet m (setState t s) := by
  refine quiet_get_bind (quiet_lift_bind (harmless_thread ..) fun x _ => ?_)
  exact Quiet.bind_pure (quiet_updateThread t fun _ => ⟨rfl, rfl⟩)

/-- A collection changes the heap and the tables of what is in it. -/
theorem quiet_collect (t : ThreadId) (keep : ObjectRef → Object → Bool) :
    Quiet m (collect t keep) := by
  refine (quiet_setState t .exclusive).bind fun previous m₁ _ => quiet_get_bind ?_
  refine quiet_get_bind (quiet_lift_bind (harmless_thread ..) fun x _ => ?_)
  refine Quiet.bind ⟨.of_eq rfl rfl rfl, harmless_ok _⟩ fun freed m₂ _ => ?_
  exact (quiet_setState t previous).discard.bind_pure

end Threads

end Action

end JavaMachine
