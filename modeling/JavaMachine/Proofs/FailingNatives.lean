/-
# Native methods that fail change nothing

A native method that gets at fields, arrays, strings, monitors or resources makes all its checks
before its first change, so when it ends with an exception the machine is as it was before the call,
in whole (`unchanged_of_raised`).  That holds for every state and all arguments.

A computation of this kind first only reads (`ReadsOnly`), and then goes on with something that ends
with no exception (`NeverRaises`), such as the allocation of a box; or it makes its change in one go.
`Atomic` is closed under both.
-/
import JavaMachine.Proofs.ArraySafety
import JavaMachine.Proofs.NativeRuns

namespace JavaMachine

/-! ## Computations whose exceptions change nothing -/

/-- What is made of a result does not matter to a failure. -/
theorem map_eq_error {ε α β : Type} {r : Except ε α} {f : α → β} {e : ε} :
    r.map f = .error e ↔ r = .error e := by
  cases r with
  | error e' => exact ⟨fun h => congrArg _ (Except.error.inj h), fun h => congrArg _ (Except.error.inj h)⟩
  | ok x => exact ⟨fun h => (nomatch h), fun h => (nomatch h)⟩

section Computations

variable {σ α β : Type}

/-- The computation does not change the state. -/
def ReadsOnly (a : ExceptT Stop (StateM σ) α) : Prop := ∀ s, (a s).2 = s

/-- The computation ends with no exception. -/
def NeverRaises (a : ExceptT Stop (StateM σ) α) : Prop := ∀ s e, (a s).1 ≠ .error (.thrown e)

/-- Where the computation ends with an exception, the state is the one before it. -/
def Atomic (a : ExceptT Stop (StateM σ) α) : Prop :=
  ∀ s e, (a s).1 = .error (.thrown e) → (a s).2 = s

variable {a : ExceptT Stop (StateM σ) α} {f : α → ExceptT Stop (StateM σ) β}

/-- What changes nothing changes nothing when it fails. -/
theorem ReadsOnly.atomic (h : ReadsOnly a) : Atomic a := fun s _ _ => h s

/-- What never ends with an exception has nothing to leave as it was. -/
theorem NeverRaises.atomic (h : NeverRaises a) : Atomic a := fun s e he => absurd he (h s e)

/-- An exception of two computations is one of the first or of the second. -/
theorem NeverRaises.bind (ha : NeverRaises a) (hf : ∀ x, NeverRaises (f x)) :
    NeverRaises (a >>= f) := by
  intro s e
  rw [run_bind]
  have hs := ha s e
  rcases has : a s with ⟨e' | x, s'⟩
  · rw [has] at hs
    exact fun he => hs (congrArg _ (Except.error.inj he))
  · exact hf x s' e

/-- Nothing has changed before what follows fails. -/
theorem ReadsOnly.bind_atomic (ha : ReadsOnly a) (hf : ∀ x, Atomic (f x)) : Atomic (a >>= f) := by
  intro s e
  rw [run_bind]
  have hs := ha s
  rcases has : a s with ⟨e' | x, s'⟩
  · rw [has] at hs
    exact fun _ => hs
  · rw [has] at hs
    exact fun he => (hf x s' e he).trans hs

/-- What follows does not fail after a change. -/
theorem Atomic.bind_neverRaises (ha : Atomic a) (hf : ∀ x, NeverRaises (f x)) :
    Atomic (a >>= f) := by
  intro s e
  rw [run_bind]
  have hs := ha s e
  rcases has : a s with ⟨e' | x, s'⟩
  · rw [has] at hs
    exact fun he => hs (congrArg _ (Except.error.inj he))
  · exact fun he => absurd he (hf x s' e)

theorem readsOnly_pure (x : α) : ReadsOnly (pure x : ExceptT Stop (StateM σ) α) := fun _ => rfl

theorem neverRaises_pure (x : α) : NeverRaises (pure x : ExceptT Stop (StateM σ) α) := nofun

/-- Ending early changes nothing. -/
theorem readsOnly_throw (e : Stop) : ReadsOnly (throw e : ExceptT Stop (StateM σ) α) := fun _ => rfl

/-- Of the ways to end early, one is with an exception. -/
theorem neverRaises_throw {e : Stop} (he : ∀ x, e ≠ .thrown x) :
    NeverRaises (throw e : ExceptT Stop (StateM σ) α) :=
  fun _ x h => he x (Except.error.inj h)

/-- A check that raises an exception, before anything has changed. -/
theorem atomic_check {c : Prop} [Decidable c] {e : Throwable}
    {k : Unit → ExceptT Stop (StateM σ) β} (hk : Atomic (k ())) :
    Atomic (if c then raise e >>= k else k ()) := by
  split
  · exact (readsOnly_throw _).atomic
  · exact hk

theorem NeverRaises.discard (h : NeverRaises a) :
    NeverRaises (discard a : ExceptT Stop (StateM σ) PUnit) := by
  intro s e he
  rw [run_discard] at he
  exact h s e (map_eq_error.mp he)

theorem Atomic.discard (h : Atomic a) : Atomic (discard a : ExceptT Stop (StateM σ) PUnit) := by
  intro s e he
  rw [run_discard] at he ⊢
  exact h s e (map_eq_error.mp he)

end Computations

/-! ## Making objects -/

namespace Action

variable {α β : Type} {f : α → Action β}

theorem readsOnly_get : ReadsOnly (get : Action Machine) := fun _ => rfl

/-- A step without a state of its own changes none. -/
theorem readsOnly_lift (r : Except Stop α) : ReadsOnly (liftM r : Action α) := by
  cases r <;> exact fun _ => rfl

theorem readsOnly_liftThrowable (r : Except Throwable α) : ReadsOnly (liftM r : Action α) := by
  cases r <;> exact fun _ => rfl

/-- What is read first changes nothing. -/
theorem atomic_get_bind {g : Machine → Action β} (hg : ∀ m, Atomic (g m)) : Atomic (get >>= g) :=
  readsOnly_get.bind_atomic hg

/-- Checks in front of an atomic computation do not count. -/
theorem atomic_lift_bind {r : Except Stop α} (hf : ∀ x, Atomic (f x)) : Atomic (liftM r >>= f) :=
  (readsOnly_lift r).bind_atomic hf

/-- Checks that end with nothing but exceptions do not count either. -/
theorem atomic_liftThrowable_bind {r : Except Throwable α} (hf : ∀ x, Atomic (f x)) :
    Atomic (liftM r >>= f) :=
  (readsOnly_liftThrowable r).bind_atomic hf

theorem neverRaises_get : NeverRaises (get : Action Machine) := nofun

/-- A change without a result does not fail. -/
theorem neverRaises_modify (g : Machine → Machine) : NeverRaises (modify g : Action PUnit) := nofun

theorem neverRaises_get_bind {g : Machine → Action β} (hg : ∀ m, NeverRaises (g m)) :
    NeverRaises (get >>= g) :=
  neverRaises_get.bind hg

/-- What is lifted fails as it does by itself. -/
theorem neverRaises_lift {r : Except Stop α} (hr : ∀ e, r ≠ .error (.thrown e)) :
    NeverRaises (liftM r : Action α) := by
  intro m e
  rw [run_liftStop]
  exact hr e

/-- There is always room for a new object. -/
theorem neverRaises_allocate (owner : ClassId) (body : Body) : NeverRaises (allocate owner body) :=
  nofun

/-- A look-up of a class, and of the context of a thread, ends with a class, or with a fault. -/
theorem get_ne_thrown (t : ClassTable) (c : ClassId) (e : Throwable) :
    t.get c ≠ .error (.thrown e) := by
  unfold ClassTable.get
  split <;> nofun

/-- A thread without a context is a broken invariant, and no exception. -/
theorem thread_ne_thrown (m : Machine) (t : ThreadId) (e : Throwable) :
    m.thread t ≠ .error (.thrown e) := by
  unfold Machine.thread
  split <;> nofun

/-- An array class that cannot be made is a broken invariant, and no exception. -/
theorem arrayClass_ne_thrown (t : ClassTable) (c : ClassId) (e : Throwable) :
    t.arrayClass c ≠ .error (.thrown e) := by
  unfold ClassTable.arrayClass
  intro h
  rcases hget : t.get c with e' | cls
  · rw [hget] at h
    exact get_ne_thrown t c e (hget.trans (congrArg _ (Except.error.inj h)))
  · rw [hget] at h
    dsimp only [bind, Except.bind] at h
    split at h
    · cases h
    · split at h <;> cases h

/-- Boxing makes a new object at most. -/
theorem neverRaises_box (v : Value) : NeverRaises (box v) := by
  unfold box
  split
  · exact (neverRaises_allocate _ _).bind fun r => neverRaises_pure _
  · exact neverRaises_pure v

/-- Interning makes a new object at most. -/
theorem neverRaises_intern (s : String) : NeverRaises (intern s) := by
  refine neverRaises_get_bind fun m => ?_
  split
  · exact neverRaises_pure _
  · exact (neverRaises_allocate _ _).bind fun r =>
      (neverRaises_modify _).bind fun _ => neverRaises_pure r

/-- An array class is looked up, or made. -/
theorem neverRaises_arrayClass (c : ClassId) : NeverRaises (arrayClass c) := by
  refine neverRaises_get_bind fun m => ?_
  refine (neverRaises_lift (arrayClass_ne_thrown m.classes c)).bind fun found => ?_
  exact (neverRaises_modify _).bind fun _ => neverRaises_pure found.2

/-- An instance that cannot be made is refused before anything is. -/
theorem atomic_newInstance (c : ClassId) : Atomic (newInstance c) := by
  refine atomic_get_bind fun m => atomic_lift_bind fun cls => atomic_check ?_
  exact (neverRaises_allocate _ _).atomic

/-- The length and the component class are checked before an array class is made. -/
theorem atomic_newArray (c : ClassId) (length : Int32) : Atomic (newArray c length) := by
  refine atomic_check (atomic_get_bind fun m => atomic_lift_bind fun cls => atomic_check ?_)
  refine ((neverRaises_arrayClass c).bind fun a => neverRaises_get_bind fun m => ?_).atomic
  exact (neverRaises_lift (get_ne_thrown m.classes a)).bind fun x => neverRaises_allocate _ _

/-- A change in one go is made as a whole, or not at all. -/
theorem atomic_updating (u : Machine → Except Stop Machine) : Atomic (updating u) := by
  intro m e he
  unfold updating at he ⊢
  rcases hu : u m with e' | m'
  · rfl
  · rw [hu] at he
    cases he

/-- A change in one go, with nothing to fail behind it. -/
theorem atomic_updating_bind_pure (u : Machine → Except Stop Machine) (v : Value) :
    Atomic (updating u >>= fun _ => (pure v : Action Value)) :=
  (atomic_updating u).bind_neverRaises fun _ => neverRaises_pure v

/-! ## Waiting -/

/-- What is done to a context does not fail. -/
theorem neverRaises_updateThread (t : ThreadId) (g : Thread → Thread) :
    NeverRaises (updateThread t g) :=
  neverRaises_modify _

/-- A thread may always be given another state. -/
theorem neverRaises_setState (t : ThreadId) (s : ThreadState) : NeverRaises (setState t s) := by
  refine neverRaises_get_bind fun m => ?_
  refine (neverRaises_lift (thread_ne_thrown m t)).bind fun x => ?_
  exact (neverRaises_updateThread t _).bind fun _ => neverRaises_pure x.state

/-- Every object has a monitor. -/
theorem neverRaises_monitor (r : ObjectRef) : NeverRaises (monitor r) :=
  (neverRaises_modify _).bind fun _ => neverRaises_get_bind fun _ => neverRaises_pure _

/-- A thread is put into the queue of a monitor without a check. -/
theorem neverRaises_suspend (t : ThreadId) (r : ObjectRef) : NeverRaises (suspend t r) :=
  (neverRaises_monitor r).bind fun _ => neverRaises_modify _

/-- A thread that cannot go on is blocked, which is no exception. -/
theorem neverRaises_resume (t : ThreadId) (r : ObjectRef) (expired : Bool) :
    NeverRaises (resume t r expired) := by
  refine neverRaises_get_bind fun m => ?_
  refine (neverRaises_lift (thread_ne_thrown m t)).bind fun x => ?_
  refine (neverRaises_monitor r).bind fun y => ?_
  split
  · exact neverRaises_throw nofun
  · split
    · exact neverRaises_throw nofun
    · exact (neverRaises_modify _).bind fun _ => neverRaises_pure _

/-- The time limit is checked before the monitor is asked for. -/
theorem atomic_wait (t : ThreadId) (r : ObjectRef) (millis : Int64) : Atomic (wait t r millis) := by
  refine atomic_liftThrowable_bind fun _ => NeverRaises.atomic ?_
  refine (neverRaises_monitor r).discard.bind fun _ => ?_
  refine (neverRaises_setState t .idle).bind fun previous => ?_
  refine neverRaises_get_bind fun m => ?_
  refine (neverRaises_lift (thread_ne_thrown m t)).bind fun x => ?_
  -- A thread that stays blocked ends with no exception either.
  have hrest : ∀ outcome : WaitOutcome, NeverRaises (discard (setState t previous) >>= fun _ =>
      (pure outcome : Action WaitOutcome)) :=
    fun outcome => (neverRaises_setState t previous).discard.bind fun _ => neverRaises_pure outcome
  dsimp only
  split
  · exact (neverRaises_pure _).bind hrest
  · exact (neverRaises_suspend t r).bind fun _ => (neverRaises_resume t r _).bind hrest

end Action

/-! ## Native methods -/

namespace Builtin

open JavaMachine.Action

/-- A field is read before its value is boxed. -/
theorem atomic_fieldGet (args : Arguments) : Atomic (fieldGet args) := by
  refine atomic_liftThrowable_bind fun r => atomic_get_bind fun m => atomic_lift_bind fun f => ?_
  refine atomic_liftThrowable_bind fun target => atomic_get_bind fun m => atomic_lift_bind fun v => ?_
  exact (neverRaises_box v).atomic

/-- A field is set as a whole, after all checks. -/
theorem atomic_fieldSet (args : Arguments) : Atomic (fieldSet args) := by
  refine atomic_liftThrowable_bind fun r => atomic_get_bind fun m => atomic_lift_bind fun f => ?_
  refine atomic_liftThrowable_bind fun target => atomic_liftThrowable_bind fun v => ?_
  exact atomic_updating_bind_pure _ _

/-- An element is loaded before it is boxed. -/
theorem atomic_arrayGet (args : Arguments) : Atomic (arrayGet args) := by
  refine atomic_liftThrowable_bind fun array => atomic_liftThrowable_bind fun index => ?_
  exact atomic_get_bind fun m => atomic_lift_bind fun v => (neverRaises_box v).atomic

/-- An element is stored as a whole, after all checks. -/
theorem atomic_arraySet (args : Arguments) : Atomic (arraySet args) := by
  refine atomic_liftThrowable_bind fun array => atomic_liftThrowable_bind fun index => ?_
  exact atomic_liftThrowable_bind fun v => atomic_updating_bind_pure _ _

theorem atomic_arrayGetLength (args : Arguments) : Atomic (arrayGetLength args) := by
  refine atomic_liftThrowable_bind fun array => atomic_get_bind fun m => ?_
  exact atomic_lift_bind fun n => (readsOnly_pure _).atomic

/-- The length of a new array is checked before its class is made. -/
theorem atomic_arrayMake (args : Arguments) : Atomic (arrayMake args) := by
  refine atomic_liftThrowable_bind fun r => atomic_get_bind fun m => atomic_lift_bind fun c => ?_
  refine atomic_liftThrowable_bind fun length => ?_
  exact (atomic_newArray c length).bind_neverRaises fun r => neverRaises_pure _

/-- Elements are copied as a whole, after all checks. -/
theorem atomic_systemArrayCopy (args : Arguments) : Atomic (systemArrayCopy args) := by
  refine atomic_liftThrowable_bind fun src => atomic_liftThrowable_bind fun srcPos => ?_
  refine atomic_liftThrowable_bind fun dst => atomic_liftThrowable_bind fun dstPos => ?_
  exact atomic_liftThrowable_bind fun count => atomic_updating_bind_pure _ _

/-- The class of an instance is checked before the instance is made. -/
theorem atomic_makeInstance (args : Arguments) : Atomic (makeInstance args) := by
  refine atomic_liftThrowable_bind fun r => atomic_get_bind fun m => atomic_lift_bind fun c => ?_
  exact (atomic_newInstance c).bind_neverRaises fun r => neverRaises_pure _

/-- A string is read before it is interned. -/
theorem atomic_stringIntern (args : Arguments) : Atomic (stringIntern args) := by
  refine atomic_liftThrowable_bind fun r => atomic_get_bind fun m => atomic_lift_bind fun s => ?_
  exact ((neverRaises_intern s).bind fun r => neverRaises_pure _).atomic

/-- Reading one byte changes nothing at all. -/
theorem atomic_resourceRead (args : Arguments) : Atomic (resourceRead args) := by
  refine atomic_liftThrowable_bind fun number => atomic_get_bind fun m => ?_
  refine atomic_liftThrowable_bind fun data => atomic_liftThrowable_bind fun position => ?_
  split
  · exact (readsOnly_pure _).atomic
  · split <;> exact (readsOnly_pure _).atomic

/-- The buffer is written as a whole, after all checks. -/
theorem atomic_resourceReadInto (args : Arguments) : Atomic (resourceReadInto args) := by
  refine atomic_liftThrowable_bind fun number => atomic_get_bind fun m => ?_
  refine atomic_liftThrowable_bind fun data => atomic_liftThrowable_bind fun position => ?_
  refine atomic_liftThrowable_bind fun buffer => atomic_liftThrowable_bind fun offset => ?_
  refine atomic_liftThrowable_bind fun length => ?_
  dsimp only
  split
  · exact (readsOnly_pure _).atomic
  · exact atomic_updating_bind_pure _ _

/-- A number under which nothing is open is refused. -/
theorem atomic_resourceClose (args : Arguments) : Atomic (resourceClose args) := by
  refine atomic_liftThrowable_bind fun number => atomic_get_bind fun m => ?_
  refine atomic_liftThrowable_bind fun resources => ?_
  exact ((neverRaises_modify _).bind fun _ => neverRaises_pure _).atomic

section Table

variable {W : Type}

/-- A native method of the machine alone leaves the state of the platform as it is. -/
theorem run_ofAction (f : Arguments → Action Value) (p : Platform W) (t : ThreadId)
    (args : Arguments) (m : Machine) (w : W) :
    Native.ofAction f p t args (m, w) = ((f args m).1, ((f args m).2, w)) :=
  rfl

/-- A native method that needs the machine alone leaves the rest as it is. -/
theorem atomic_onMachine {α : Type} {a : Action α} (h : Atomic a) :
    Atomic (Exec.onMachine a : Exec W α) := by
  rintro ⟨m, w⟩ e he
  exact congrArg (·, w) (h m e he)

/-- A thread that may not wait is refused before it gives up its monitor. -/
theorem atomic_objectWait (p : Platform W) (t : ThreadId) (args : Arguments) :
    Atomic (objectWait p t args) := by
  have hlift : ∀ {α : Type} (r : Except Throwable α), ReadsOnly (liftM r : Exec W α) := by
    intro α r
    cases r <;> exact fun _ => rfl
  refine (hlift _).bind_atomic fun r => (hlift _).bind_atomic fun millis => ?_
  exact (atomic_onMachine (atomic_wait t r millis)).discard.bind_neverRaises fun _ =>
    neverRaises_pure _

/-- The symbols of the native methods that read and write fields and elements, make instances and
arrays, intern strings, wait, and read and close resources. -/
def accessSymbols : List String := [
  "Java_java_lang_System_arraycopy",
  "Java_java_lang_String_intern",
  "Java_java_lang_Object_wait",
  "Java_java_lang_reflect_Array_get",
  "Java_java_lang_reflect_Array_set",
  "Java_java_lang_reflect_Array_getLength",
  "Java_java_lang_reflect_Array_makeObjectArray",
  "Java_java_lang_reflect_Constructor_make",
  "Java_java_lang_reflect_Field_get",
  "Java_java_lang_reflect_Field_set",
  "Java_java_net_URL_00024ResourceInputStream_read_JI",
  "Java_java_net_URL_00024ResourceInputStream_read_JI_3BII",
  "Java_java_net_URL_00024ResourceInputStream_close",
  "Java_java_io_ObjectInputStream_makeInstance"]

open Native in
/-- The native methods of these symbols. -/
theorem filter_builtins :
    (builtins W).filter (fun entry => decide (entry.1 ∈ accessSymbols)) = [
      ("Java_java_lang_System_arraycopy", ofAction systemArrayCopy),
      ("Java_java_lang_String_intern", ofAction stringIntern),
      ("Java_java_lang_Object_wait", objectWait),
      ("Java_java_lang_reflect_Array_get", ofAction arrayGet),
      ("Java_java_lang_reflect_Array_set", ofAction arraySet),
      ("Java_java_lang_reflect_Array_getLength", ofAction arrayGetLength),
      ("Java_java_lang_reflect_Array_makeObjectArray", ofAction arrayMake),
      ("Java_java_lang_reflect_Constructor_make", ofAction makeInstance),
      ("Java_java_lang_reflect_Field_get", ofAction fieldGet),
      ("Java_java_lang_reflect_Field_set", ofAction fieldSet),
      ("Java_java_net_URL_00024ResourceInputStream_read_JI", ofAction resourceRead),
      ("Java_java_net_URL_00024ResourceInputStream_read_JI_3BII", ofAction resourceReadInto),
      ("Java_java_net_URL_00024ResourceInputStream_close", ofAction resourceClose),
      ("Java_java_io_ObjectInputStream_makeInstance", ofAction makeInstance)] := by
  simp [builtins, accessSymbols]

theorem atomic_of_mem_accessSymbols (p : Platform W) (t : ThreadId) (args : Arguments)
    {entry : String × Native W} (hentry : entry ∈ builtins W) (hsymbol : entry.1 ∈ accessSymbols) :
    Atomic (entry.2 p t args) := by
  have hof : ∀ f : Arguments → Action Value, (∀ args, Atomic (f args)) →
      Atomic (Native.ofAction f p t args) := fun f hf => atomic_onMachine (hf args)
  have hall : ∀ entry ∈ (builtins W).filter (fun entry => decide (entry.1 ∈ accessSymbols)),
      Atomic (entry.2 p t args) := by
    -- One entry after the other, in the order of the registry.
    rw [filter_builtins]
    simp only [List.forall_mem_cons]
    exact ⟨hof _ atomic_systemArrayCopy, hof _ atomic_stringIntern, atomic_objectWait p t args,
      hof _ atomic_arrayGet, hof _ atomic_arraySet, hof _ atomic_arrayGetLength,
      hof _ atomic_arrayMake, hof _ atomic_makeInstance, hof _ atomic_fieldGet,
      hof _ atomic_fieldSet, hof _ atomic_resourceRead, hof _ atomic_resourceReadInto,
      hof _ atomic_resourceClose, hof _ atomic_makeInstance, fun _ h => absurd h List.not_mem_nil⟩
  exact hall entry (List.mem_filter.mpr ⟨hentry, decide_eq_true hsymbol⟩)

/-- A native method of access that ends with an exception leaves the machine, and what its platform
keeps, as they were before the call: all objects, with the free slots, the objects written to and the
bytes in use, all classes with their static slots, the interned strings, the monitors, the threads and
the open resources. So it does in every state and with all arguments, however many and of whatever
kinds they are. -/
theorem unchanged_of_raised {p : Platform W} {t : ThreadId} {args : Arguments} {s : Machine × W}
    {entry : String × Native W} {e : Throwable} (hentry : entry ∈ builtins W)
    (hsymbol : entry.1 ∈ accessSymbols) (he : (entry.2 p t args s).1 = .error (.thrown e)) :
    (entry.2 p t args s).2 = s :=
  atomic_of_mem_accessSymbols p t args hentry hsymbol s e he

/-- A range that is too long is not copied, in part or in whole. -/
theorem unchanged_of_raised_arrayCopy :
    ∃ entry ∈ builtins Unit, ∃ e, entry.1 = "Java_java_lang_System_arraycopy" ∧
      entry.2 .idle (.ofNumber 1) [.ref ⟨1⟩, .int 1, .ref ⟨1⟩, .int 0, .int 3]
          (Machine.arrayMachine, ()) =
        (.error (.thrown e), (Machine.arrayMachine, ())) := by
  have hentry : ("Java_java_lang_System_arraycopy", Native.ofAction systemArrayCopy) ∈
      builtins Unit := .tail _ (.tail _ (.tail _ (.tail _ (.head _))))
  have hanswers : Answers (systemArrayCopy [.ref ⟨1⟩, .int 1, .ref ⟨1⟩, .int 0, .int 3]
      Machine.arrayMachine).1 := by decide +kernel
  have hfails : (systemArrayCopy [.ref ⟨1⟩, .int 1, .ref ⟨1⟩, .int 0, .int 3]
      Machine.arrayMachine).1.isOk = false := by decide +kernel
  rcases hanswers with ⟨v, hv⟩ | ⟨e, he⟩
  · rw [hv] at hfails
    cases hfails
  · have hraised : (Native.ofAction systemArrayCopy .idle (.ofNumber 1)
        [.ref ⟨1⟩, .int 1, .ref ⟨1⟩, .int 0, .int 3] (Machine.arrayMachine, ())).1 =
          .error (.thrown e) := by
      rw [run_ofAction, he]
    refine ⟨_, hentry, e, rfl, Prod.ext hraised ?_⟩
    exact unchanged_of_raised hentry (.head _) hraised

end Table

end Builtin

end JavaMachine
