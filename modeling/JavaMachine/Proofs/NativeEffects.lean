/-
# What native methods keep to

A native method of the class library is made of operations of the machine, of uses of a monitor, and
of what the engine does.  A relation between machines that the parts keep to (`Platform.KeepsTo`) is
kept by the native method as a whole, whatever its arguments are (`follows_builtins`), and by a call of
it with all that surrounds it (`follows_runNative`).

Defining a class from a range of bytes, collecting, and the uses of a monitor depend on what is given,
so they are asked for in the state that the native method is called in.
-/
import JavaMachine.Native.Registry
import JavaMachine.Proofs.EngineRuns
import JavaMachine.Proofs.MonitorUses

namespace JavaMachine

/-! ## Computations on a machine and its platform -/

namespace Exec

variable {W α β : Type} {Rel : Machine → Machine → Prop} {s : Machine × W}

/-- From a state, the computation comes to one with a related machine. -/
def Follows (Rel : Machine → Machine → Prop) (s : Machine × W) (a : Exec W α) : Prop :=
  Rel s.1 (a s).2.1

variable {a : Exec W α} {f : α → Exec W β}

/-- Looking at the machine changes nothing. -/
theorem follows_machine_bind {g : Machine → Exec W β} (h : Follows Rel s (g s.1)) :
    Follows Rel s (machine >>= g) := h

/-- Looking at the state of the platform changes no machine. -/
theorem follows_world_bind {g : W → Exec W β} (h : Follows Rel s (g s.2)) :
    Follows Rel s (world >>= g) := h

theorem Follows.discard (ha : Follows Rel s a) : Follows Rel s (discard a : Exec W PUnit) := by
  unfold Follows
  rw [run_discard]
  exact ha

/-- A computation that is attempted changes what it changes otherwise. -/
theorem Follows.attempt (ha : Follows Rel s a) : Follows Rel s (Exec.attempt a) := by
  unfold Follows
  rw [state_attempt]
  exact ha

/-- An operation of the machine is one of the whole state. -/
theorem follows_onMachine {b : Action α} (hb : Action.Follows Rel s.1 b) :
    Follows Rel s (onMachine b) := hb.1

theorem follows_modifyMachine {g : Machine → Machine} (hg : Rel s.1 (g s.1)) :
    Follows Rel s (modifyMachine g) := hg

variable [IsPreorder Machine Rel]

theorem follows_pure (x : α) : Follows Rel s (pure x : Exec W α) := refl s.1

/-- Ending early changes nothing. -/
theorem follows_throw (e : Stop) : Follows Rel s (throw e : Exec W α) := refl s.1

theorem follows_raise (t : Throwable) : Follows Rel s (raise t : Exec W α) := follows_throw _

/-- What follows starts from the machine that the first part left, and only if it did not end
early. -/
theorem Follows.bind (ha : Follows Rel s a)
    (hf : ∀ x s', a s = (.ok x, s') → Follows Rel s' (f x)) : Follows Rel s (a >>= f) := by
  unfold Follows at ha ⊢
  rw [run_bind]
  rcases hrun : a s with ⟨e | x, s'⟩
  · rw [hrun] at ha
    exact ha
  · rw [hrun] at ha
    exact IsTrans.trans _ _ _ ha (hf x s' hrun)

/-- What is made of a result changes nothing. -/
theorem Follows.bind_pure {g : α → β} (ha : Follows Rel s a) :
    Follows Rel s (a >>= fun x => pure (g x)) :=
  ha.bind fun _ _ _ => follows_pure _

/-- A step that reads only may use what it read. -/
theorem follows_lift_bind {r : Except Stop α} (h : ∀ x, r = .ok x → Follows Rel s (f x)) :
    Follows Rel s (liftM r >>= f) := by
  cases r with
  | ok x => exact h x rfl
  | error e => exact refl s.1

theorem follows_liftThrowable_bind {r : Except Throwable α}
    (h : ∀ x, r = .ok x → Follows Rel s (f x)) : Follows Rel s (liftM r >>= f) := by
  cases r with
  | ok x => exact h x rfl
  | error e => exact refl s.1

end Exec

/-! ## What native methods are made of -/

/-- The operation needs nothing to be given, and frees nothing. -/
def Operation.Plain : Operation → Prop
  | define _ => False
  | defineRange .. => False
  | fieldObject _ => False
  | setField .. => False
  | collect .. => False
  | _ => True

/-- A relation that operations and changes elsewhere keep to, and so does the engine. -/
structure Platform.KeepsTo {W : Type} (Rel : Machine → Machine → Prop) (p : Platform W) : Prop where
  operation : ∀ (m : Machine) (op : Operation), op.Plain → Rel m (op.run p.classPath m).2
  elsewhere : ∀ {m m' : Machine}, m'.classes = m.classes → m'.heap = m.heap →
    m'.monitors = m.monitors → Rel m m'
  invoke : ∀ t x receiver args s, Exec.Follows Rel s (p.invoke t x receiver args)

section Platform

variable {W : Type} {p : Platform W} {Rel : Machine → Machine → Prop} (hp : p.KeepsTo Rel)

namespace Platform.KeepsTo

variable {α : Type} {m : Machine}

include hp

/-- A computation that an operation runs for its effect. -/
theorem action {a : Action α} (op : Operation) (hop : op.Plain)
    (hrun : op.run p.classPath = discard a) : Action.Follows Rel m a :=
  ⟨Operation.state_run hrun m ▸ hp.operation m op hop, fun _ _ => trivial⟩

/-- A change that is no class, no object and no monitor is kept to. -/
theorem modify {g : Machine → Machine} (hclasses : (g m).classes = m.classes)
    (hheap : (g m).heap = m.heap) (hmonitors : (g m).monitors = m.monitors) :
    Action.Follows Rel m (modify g) :=
  Action.takes_modify (hp.elsewhere hclasses hheap hmonitors) trivial

/-- The object of a class is made once, and kept beside the class. -/
theorem classObject (c : ClassId) : Action.Follows Rel m (Action.classObject c) :=
  hp.action (.classObject c) trivial rfl

/-- What is done to a context is kept to. -/
theorem updateThread (t : ThreadId) (f : Thread → Thread) :
    Action.Follows Rel m (Action.updateThread t f) :=
  hp.modify rfl rfl rfl

end Platform.KeepsTo

variable [IsPreorder Machine Rel]
include hp

/-! ## Threads -/

namespace Action

variable {m : Machine}

/-- A thread that ends loses its context. -/
theorem follows_detach (t : ThreadId) : Follows Rel m (detach t) := by
  refine takes_get_bind (takes_lift_bind fun x _ => ?_)
  exact Follows.bind_pure (hp.modify rfl rfl rfl)

/-- A pending exception is one of a context. -/
theorem follows_setPending (t : ThreadId) (e : Throwable) : Follows Rel m (setPending t e) := by
  refine takes_get_bind (takes_lift_bind fun x _ => ?_)
  dsimp only
  split
  · exact (takes_abort (Q := fun _ _ => False) _).bind fun _ _ _ h => h.elim
  · exact hp.updateThread t _

end Action

/-! ## Running methods -/

variable {s : Machine × W}

/-- Beginning a class is an operation, and the rest of its initialization is done by the engine. -/
theorem follows_initializeClass (t : ThreadId) (c : ClassId) :
    Exec.Follows Rel s (initializeClass p t c) := by
  generalize hn : c.index = n
  induction n using Nat.strongRecOn generalizing c s with
  | ind n ih =>
    obtain ⟨m, w⟩ := s
    unfold Exec.Follows
    cases hc : m.classes.get? c with
    | none =>
      rw [run_initializeClass_unknown hc]
      exact refl m
    | some cls =>
      by_cases hgo : (cls.needsInit && !cls.initStarted) = true
      · have hbegin : Rel m (m.begin c) := hp.operation m (.startInitialization c) trivial
        have hsuper : ∀ s, Exec.Follows Rel s (initializeSuper p t m.classes c) := by
          intro s
          unfold initializeSuper
          cases m.classes.superclass? c with
          | none => exact Exec.follows_pure _
          | some a => exact ih a.1.index (hn ▸ a.2) a.1 rfl
        have hown : ∀ s, Exec.Follows Rel s (runInitializer p t m.classes c) := by
          intro s
          unfold runInitializer
          cases m.classes.initializer? c with
          | none => exact Exec.follows_pure _
          | some x => exact (hp.invoke t x none [] s).discard
        rw [run_initializeClass hc hgo]
        exact IsTrans.trans _ _ _ hbegin ((hsuper (m.begin c, w)).bind fun _ s' _ => hown s')
      · rw [run_initializeClass_skip hc (Bool.eq_false_iff.mpr hgo)]
        exact refl m

/-- An exception of the engine is wrapped in another one after the engine has come back. -/
theorem follows_invokeWrapped (t : ThreadId) (x : Method) (receiver : Option ObjectRef)
    (args : List Value) : Exec.Follows Rel s (invokeWrapped p t x receiver args) := by
  refine (hp.invoke t x receiver args s).attempt.bind fun r s₁ _ => ?_
  cases r with
  | ok v => exact Exec.follows_pure v
  | error e => exact Exec.follows_raise _

/-- A result is boxed in a new object, if it has to be. -/
theorem follows_boxedResult (x : Method) (v : Value) : Exec.Follows Rel s (boxedResult x v) := by
  unfold boxedResult
  split
  · exact Exec.follows_onMachine (hp.action (.box v) trivial rfl)
  · exact Exec.follows_pure _

/-- A reflective call, also one that initializes by a platform of its own. -/
theorem follows_invokeMethodOver {q : Platform W} (hq : q.KeepsTo Rel) (t : ThreadId) (x : Method)
    (target arguments : Option ObjectRef) :
    Exec.Follows Rel s (invokeMethodOver q p t x target arguments) := by
  have hrest : ∀ (s : Machine × W) receiver args, Exec.Follows Rel s
      (invokeWrapped p t x receiver args >>= boxedResult x) := fun s receiver args =>
    (follows_invokeWrapped hp t x receiver args).bind fun v _ _ => follows_boxedResult hp x v
  refine Exec.follows_machine_bind (Exec.follows_lift_bind fun array _ => ?_)
  refine Exec.follows_lift_bind fun receiver _ => Exec.follows_lift_bind fun args _ => ?_
  dsimp only
  split
  · exact (follows_initializeClass hq t x.owner).bind fun _ s₁ _ => hrest s₁ receiver args
  · exact hrest s receiver args

/-- A thread runs its peer, and is taken off the machine at the end. -/
theorem follows_finishThread (t : ThreadId) : Exec.Follows Rel s (finishThread p t) := by
  refine Exec.Follows.bind (Exec.Follows.discard (Exec.Follows.attempt ?_)) fun _ s₁ _ => ?_
  · refine Exec.follows_machine_bind (Exec.follows_lift_bind fun y _ => ?_)
    split
    · exact Exec.follows_pure _
    · refine Exec.follows_lift_bind fun c _ => ?_
      split
      · exact Exec.follows_pure _
      · exact (hp.invoke ..).discard
  · exact (Exec.follows_onMachine (Action.follows_detach hp t)).discard

/-- A thread is made, and then run at once, left to the host, or dropped. -/
theorem follows_startThread (peer : ObjectRef) : Exec.Follows Rel s (startThread p peer) := by
  have hattach : Exec.Follows Rel s (Exec.onMachine (Action.attach (some peer))) :=
    Exec.follows_onMachine (hp.action (.attach (some peer)) trivial rfl)
  refine hattach.bind fun t s₁ _ => ?_
  have hask : ∀ request, Exec.Follows Rel s₁ (askHost p request) := fun _ => refl s₁.1
  refine (hask _).bind fun verdict s₂ _ => ?_
  split
  · exact (Exec.follows_onMachine (Action.follows_detach hp t)).discard.bind_pure
  · exact (follows_finishThread hp t).bind_pure
  · exact Exec.follows_pure _

/-! ## Native methods of the machine alone -/

namespace Action

variable {m : Machine} (args : Arguments)

omit hp in
/-- Whether a class is assignable is read off the classes. -/
theorem follows_classIsAssignable : Follows Rel m (Builtin.classIsAssignable args) := by
  refine takes_liftThrowable_bind fun target _ => takes_liftThrowable_bind fun source _ => ?_
  refine takes_get_bind (takes_lift_bind fun a _ => takes_lift_bind fun b _ => ?_)
  exact takes_pure trivial

/-- Classes of primitive kinds are there from the beginning, and only their objects may be new. -/
theorem follows_classPrimitive : Follows Rel m (Builtin.classPrimitive args) := by
  refine takes_liftThrowable_bind fun unit _ => takes_liftThrowable_bind fun c _ => ?_
  exact (hp.classObject c).bind_pure

theorem follows_objectGetClass : Follows Rel m (Builtin.objectGetClass args) := by
  refine takes_get_bind (takes_liftThrowable_bind fun r _ => takes_lift_bind fun c _ => ?_)
  exact (hp.classObject c).bind_pure

/-- The text for an object is a new string. -/
theorem follows_objectToString : Follows Rel m (Builtin.objectToString args) := by
  refine takes_get_bind (takes_liftThrowable_bind fun r _ => takes_lift_bind fun o _ => ?_)
  refine takes_get_bind (takes_lift_bind fun name _ => ?_)
  exact Follows.bind_pure (hp.action (.newString _) trivial rfl)

omit hp in
/-- The hash of an object was given to it when it was made. -/
theorem follows_identityHash : Follows Rel m (Builtin.identityHash args) := by
  refine takes_get_bind (takes_liftThrowable_bind fun r _ => takes_lift_bind fun o _ => ?_)
  exact takes_pure trivial

theorem follows_stringIntern : Follows Rel m (Builtin.stringIntern args) := by
  refine takes_liftThrowable_bind fun r _ => takes_get_bind (takes_lift_bind fun text _ => ?_)
  exact Follows.bind_pure (hp.action (.intern text) trivial rfl)

/-- An instance is made without an initializer. -/
theorem follows_makeInstance : Follows Rel m (Builtin.makeInstance args) := by
  refine takes_liftThrowable_bind fun r _ => takes_get_bind (takes_lift_bind fun c _ => ?_)
  exact Follows.bind_pure (hp.action (.newInstance c) trivial rfl)

/-- A class that is loaded is looked up by its name. -/
theorem follows_loaderFindLoaded : Follows Rel m (Builtin.loaderFindLoaded args) := by
  refine takes_liftThrowable_bind fun r _ => takes_get_bind (takes_lift_bind fun name _ => ?_)
  refine takes_get_bind ?_
  split
  · exact (hp.classObject _).bind_pure
  · exact takes_pure trivial

/-- An interrupt is noted in the context of the thread. -/
theorem follows_threadInterrupt : Follows Rel m (Builtin.threadInterrupt args) := by
  refine takes_liftThrowable_bind fun handle _ => ?_
  split
  · exact Follows.bind_pure (hp.updateThread _ _)
  · exact takes_pure trivial

omit hp in
/-- Waking one thread is a use of the monitor. -/
theorem follows_objectNotify
    (h : ∀ r, args.object 0 = .ok r → Follows Rel m (MonitorUse.notify.run r)) :
    Follows Rel m (Builtin.objectNotify args) := by
  refine takes_liftThrowable_bind fun r hr => ?_
  exact Follows.bind_pure (h r hr)

omit hp in
/-- Waking all threads is a use of the monitor. -/
theorem follows_objectNotifyAll
    (h : ∀ r, args.object 0 = .ok r → Follows Rel m (MonitorUse.notifyAll.run r)) :
    Follows Rel m (Builtin.objectNotifyAll args) := by
  refine takes_liftThrowable_bind fun r hr => ?_
  exact Follows.bind_pure (h r hr)

omit hp in
/-- A byte of a resource is looked up at the position that is given. -/
theorem follows_resourceRead : Follows Rel m (Builtin.resourceRead args) := by
  refine takes_liftThrowable_bind fun number _ => takes_get_bind ?_
  refine takes_liftThrowable_bind fun data _ => takes_liftThrowable_bind fun position _ => ?_
  split
  · exact takes_pure trivial
  · split
    · exact takes_pure trivial
    · exact takes_pure trivial

theorem follows_resourceClose : Follows Rel m (Builtin.resourceClose args) := by
  refine takes_liftThrowable_bind fun number _ => takes_get_bind ?_
  refine takes_liftThrowable_bind fun resources _ => ?_
  exact Follows.bind_pure (hp.modify rfl rfl rfl)

end Action

/-! ## Native methods on a platform -/

section Natives

variable (t : ThreadId) (args : Arguments)

/-- Initializing a class may run the engine. -/
theorem follows_classInitialize : Exec.Follows Rel s (Builtin.classInitialize p t args) := by
  refine Exec.follows_liftThrowable_bind fun r _ => Exec.follows_machine_bind ?_
  refine Exec.follows_lift_bind fun c _ => ?_
  exact (follows_initializeClass hp t c).bind_pure

/-- What is defined are the bytes that the arguments give. -/
theorem follows_loaderDefine
    (hdefine : ∀ array offset length, args.reference 0 = .ok array → args.int 1 = .ok offset →
      args.int 2 = .ok length →
        Action.Follows Rel s.1 (Action.defineRange p.classPath array offset length)) :
    Exec.Follows Rel s (Builtin.loaderDefine p t args) := by
  refine Exec.follows_liftThrowable_bind fun array harray => ?_
  refine Exec.follows_liftThrowable_bind fun offset hoffset => ?_
  refine Exec.follows_liftThrowable_bind fun length hlength => ?_
  refine (Exec.follows_onMachine (hdefine _ _ _ harray hoffset hlength)).bind fun c _ _ => ?_
  exact (Exec.follows_onMachine (hp.classObject c)).bind_pure

/-- A class that is found is resolved, and then its object is given out. -/
theorem follows_loaderFind : Exec.Follows Rel s (Builtin.loaderFind p t args) := by
  refine Exec.follows_liftThrowable_bind fun name _ => Exec.follows_machine_bind ?_
  refine Exec.follows_lift_bind fun name _ => ?_
  have hresolve : Action.Follows Rel s.1 (Action.resolve p.classPath name) :=
    hp.action (.resolve name) trivial rfl
  refine (Exec.follows_onMachine hresolve).bind fun c _ _ => ?_
  exact (Exec.follows_onMachine (hp.classObject c)).bind_pure

omit hp in
theorem follows_loaderResourceExists :
    Exec.Follows Rel s (Builtin.loaderResourceExists p t args) := by
  refine Exec.follows_liftThrowable_bind fun r _ => Exec.follows_machine_bind ?_
  exact Exec.follows_lift_bind fun text _ => Exec.follows_pure _

omit hp in
/-- The loader works on what the platform keeps. -/
theorem follows_loadLibrary (name : String) : Exec.Follows Rel s (p.loadLibrary name) := by
  have hstate : (p.loadLibrary name s).2.1 = s.1 := by
    unfold Platform.loadLibrary
    cases p.loader <;> rfl
  show Rel s.1 (p.loadLibrary name s).2.1
  rw [hstate]
  exact refl s.1

omit hp in
/-- A library is loaded by the platform, which keeps what it has loaded to itself. -/
theorem follows_runtimeLoadLibrary :
    Exec.Follows Rel s (Builtin.runtimeLoadLibrary p t args) := by
  refine Exec.follows_liftThrowable_bind fun r _ => Exec.follows_machine_bind ?_
  refine Exec.follows_lift_bind fun name _ => (follows_loadLibrary name).bind fun outcome _ _ => ?_
  split
  · exact Exec.follows_pure _
  · exact Exec.follows_raise _

omit hp in
/-- A collection keeps what the platform says. -/
theorem follows_runtimeGc (hcollect : Action.Follows Rel s.1 (Action.collect t (p.keep s.2))) :
    Exec.Follows Rel s (Builtin.runtimeGc p t args) := by
  refine Exec.follows_world_bind ?_
  exact (Exec.follows_onMachine hcollect).discard.bind_pure

omit hp in
/-- The end of the run is told through the way the native method ends. -/
theorem follows_runtimeExit : Exec.Follows Rel s (Builtin.runtimeExit p t args) :=
  Exec.follows_liftThrowable_bind fun _ _ => Exec.follows_throw _

omit hp in
theorem follows_runtimeFreeMemory : Exec.Follows Rel s (Builtin.runtimeFreeMemory p t args) :=
  Exec.follows_machine_bind (Exec.follows_pure _)

/-- Starting a thread may run it to its end. -/
theorem follows_threadStart : Exec.Follows Rel s (Builtin.threadStart p t args) := by
  refine Exec.follows_liftThrowable_bind fun peer _ => ?_
  refine (follows_startThread hp peer).bind fun started s₁ _ => ?_
  split
  · exact Exec.follows_pure _
  · exact Exec.follows_pure _

omit hp in
/-- The peer of a thread is looked up in its context. -/
theorem follows_threadCurrent : Exec.Follows Rel s (Builtin.threadCurrent p t args) :=
  Exec.follows_machine_bind (Exec.follows_lift_bind fun _ _ => Exec.follows_pure _)

/-- A trace is put together from the calls under way. -/
theorem follows_throwableTrace : Exec.Follows Rel s (Builtin.throwableTrace p t args) := by
  refine Exec.follows_liftThrowable_bind fun skip _ => Exec.follows_machine_bind ?_
  refine Exec.follows_lift_bind fun x _ => ?_
  have hcapture : ∀ frames, Action.Follows Rel s.1 (Action.allocate .object (.trace frames)) :=
    fun frames => hp.action (.captureTrace frames) trivial rfl
  exact (Exec.follows_onMachine (hcapture _)).bind_pure

omit hp in
/-- Waiting is a use of the monitor. -/
theorem follows_objectWait
    (h : ∀ r millis, args.object 0 = .ok r →
      Action.Follows Rel s.1 ((MonitorUse.wait t millis).run r)) :
    Exec.Follows Rel s (Builtin.objectWait p t args) := by
  refine Exec.follows_liftThrowable_bind fun r hr => ?_
  refine Exec.follows_liftThrowable_bind fun millis _ => ?_
  have hwait : Action.Follows Rel s.1 (discard (Action.wait t r millis)) := h r millis hr
  rw [Action.Follows, Action.Takes, run_discard] at hwait
  have hmachine : Exec.Follows Rel s (Exec.onMachine (Action.wait t r millis)) := hwait.1
  exact hmachine.discard.bind_pure

/-- The caller is found among the calls under way, and an object made for it. -/
theorem follows_methodGetCaller : Exec.Follows Rel s (Builtin.methodGetCaller p t args) := by
  refine Exec.follows_machine_bind (Exec.follows_lift_bind fun x _ => ?_)
  split
  · exact Exec.follows_pure _
  · next f _ =>
    have hobject : Action.Follows Rel s.1 (Action.methodObject f.method) :=
      hp.action (.methodObject f.method) trivial rfl
    exact (Exec.follows_onMachine hobject).bind_pure

/-- A reflective call runs the engine. -/
theorem follows_methodInvoke : Exec.Follows Rel s (Builtin.methodInvoke p t args) := by
  refine Exec.follows_liftThrowable_bind fun r _ => Exec.follows_machine_bind ?_
  refine Exec.follows_lift_bind fun x _ => Exec.follows_liftThrowable_bind fun target _ => ?_
  refine Exec.follows_liftThrowable_bind fun arguments _ => ?_
  exact follows_invokeMethodOver hp hp t x target arguments

/-- A resource that is opened is kept beside the heap. -/
theorem follows_resourceOpen : Exec.Follows Rel s (Builtin.resourceOpen p t args) := by
  refine Exec.follows_liftThrowable_bind fun r _ => Exec.follows_machine_bind ?_
  refine Exec.follows_lift_bind fun text _ => ?_
  split
  · exact Exec.follows_pure _
  · refine Exec.follows_machine_bind ?_
    have hopen : ∀ resources, Rel s.1 { s.1 with resources } := fun _ => hp.elsewhere rfl rfl rfl
    exact (Exec.follows_modifyMachine (hopen _)).bind_pure

/-- Every native method of the class library keeps to the relation, where the definition that it is
asked for, its collection and the uses of the monitor that it is given do. -/
theorem follows_builtins
    (hdefine : ∀ array offset length, args.reference 0 = .ok array → args.int 1 = .ok offset →
      args.int 2 = .ok length →
        Action.Follows Rel s.1 (Action.defineRange p.classPath array offset length))
    (hcollect : Action.Follows Rel s.1 (Action.collect t (p.keep s.2)))
    (huse : ∀ r, args.object 0 = .ok r → ∀ u : MonitorUse, Action.Follows Rel s.1 (u.run r)) :
    ∀ entry ∈ builtins W, Exec.Follows Rel s (entry.2 p t args) := by
  -- Native methods of the machine alone, and those of them that are operations.
  have hof : ∀ {f : Arguments → Action Value}, Action.Follows Rel s.1 (f args) →
      Exec.Follows Rel s (Native.ofAction f p t args) := fun h => Exec.follows_onMachine h
  have hop : ∀ (f : Arguments → Action Value) (op : Operation), op.Plain →
      op.run p.classPath = discard (f args) →
        Exec.Follows Rel s (Native.ofAction f p t args) :=
    fun f op hplain hrun => hof (hp.action op hplain hrun)
  unfold builtins
  simp only [List.forall_mem_cons]
  exact ⟨hof (Action.follows_classIsAssignable args), hof (Action.follows_classPrimitive hp args),
    follows_classInitialize hp t args, follows_loaderDefine hp t args hdefine,
    hop _ (.systemArrayCopy args) trivial rfl, hof (Action.follows_identityHash args),
    follows_loaderFind hp t args, hof (Action.follows_loaderFindLoaded hp args),
    follows_loaderResourceExists t args, follows_runtimeLoadLibrary t args,
    follows_runtimeGc t args hcollect, follows_runtimeExit t args,
    follows_runtimeFreeMemory t args, hof (Action.follows_stringIntern hp args),
    follows_threadStart hp t args, hof (Action.follows_threadInterrupt hp args),
    follows_threadCurrent t args, hop _ (.resolveTrace args) trivial rfl,
    follows_throwableTrace hp t args, hof (Action.follows_objectGetClass hp args),
    hof (Action.follows_objectNotify args fun r hr => huse r hr _),
    hof (Action.follows_objectNotifyAll args fun r hr => huse r hr _),
    hof (Action.follows_objectToString hp args),
    follows_objectWait t args fun r millis hr => huse r hr (.wait t millis),
    hof (Action.follows_identityHash args), hop _ (.arrayGet args) trivial rfl,
    hop _ (.arraySet args) trivial rfl, hop _ (.arrayGetLength args) trivial rfl,
    hop _ (.arrayMake args) trivial rfl, hof (Action.follows_makeInstance hp args),
    hop _ (.fieldGet args) trivial rfl, hop _ (.fieldSet args) trivial rfl,
    follows_methodGetCaller hp t args, follows_methodInvoke hp t args,
    follows_resourceOpen hp t args, hof (Action.follows_resourceRead args),
    hop _ (.readInto args) trivial rfl, hof (Action.follows_resourceClose hp args),
    hof (Action.follows_makeInstance hp args), fun _ h => absurd h List.not_mem_nil⟩

end Natives

end Platform

/-! ## Calls of native methods -/

/-- A registry of a list has the native methods of the list. -/
theorem Registry.mem_of_get?_ofList {W : Type} {l : List (String × Native W)} {symbol : String}
    {native : Native W} (h : (Registry.ofList l).get? symbol = some native) :
    (symbol, native) ∈ l := by
  have hfold : ∀ (l : List (String × Native W)) (r : Registry W),
      (l.foldl (fun t e => t.insert e.1 e.2) r).get? symbol = some native →
        r.get? symbol = some native ∨ (symbol, native) ∈ l := by
    intro l
    induction l with
    | nil => exact fun _ h => Or.inl h
    | cons e l ih =>
      intro r h
      rcases ih _ h with hhead | htail
      · rw [Table.get?_insert] at hhead
        split at hhead
        · next hsymbol =>
          cases hhead
          exact Or.inr (hsymbol ▸ List.mem_cons_self)
        · exact Or.inl hhead
      · exact Or.inr (List.mem_cons_of_mem _ htail)
  rcases hfold l {} h with hnone | hmem
  · cases hnone
  · exact hmem

section Linking

variable {W : Type}

/-- A method that is linked is not looked at again, and any other one is linked to the first of its
symbols that is registered. -/
theorem run_linkNative (registry : Registry W) (place : MethodPlace) (m : Machine) :
    linkNative registry place m =
      match m.links.get? place with
      | some symbol => (.ok symbol, m)
      | none =>
        match m.classes.get? place.1 with
        | none => (.error (.broken (.unknownClass place.1)), m)
        | some cls =>
          match cls.methods[place.2]? with
          | none => (.error (.broken (.unknownClass place.1)), m)
          | some x =>
            match (candidateSymbols cls.name x).find? registry.contains with
            | some symbol => (.ok symbol, { m with links := m.links.insert place symbol })
            | none => (.error (.thrown (.unsatisfiedLink cls.name x.name x.descriptor)), m) := by
  unfold linkNative
  rw [run_bind, Action.run_get]
  dsimp only
  cases m.links.get? place with
  | some symbol => rfl
  | none =>
    dsimp only
    rw [run_lift_bind]
    unfold ClassTable.get
    cases m.classes.get? place.1 with
    | none => rfl
    | some cls =>
      dsimp only
      cases cls.methods[place.2]? with
      | none => rfl
      | some x =>
        dsimp only
        cases (candidateSymbols cls.name x).find? registry.contains with
        | none => rfl
        | some symbol => rfl

/-- Linking a method changes links alone. -/
theorem state_linkNative (registry : Registry W) (place : MethodPlace) (m : Machine) :
    ∃ links, (linkNative registry place m).2 = { m with links } := by
  rw [run_linkNative]
  split
  · exact ⟨_, rfl⟩
  · split
    · exact ⟨_, rfl⟩
    · split
      · exact ⟨_, rfl⟩
      · split
        · exact ⟨_, rfl⟩
        · exact ⟨_, rfl⟩

/-- A method without a registered symbol is linked to one that a library exports, if there is one. -/
theorem run_linkMethod (p : Platform W) (registry : Registry W) (place : MethodPlace)
    (s : Machine × W) :
    linkMethod p registry place s =
      match linkNative registry place s.1 with
      | (.error (.thrown e), m) =>
        match exportedSymbol? m (p.libraries s.2) place with
        | some symbol => (.ok symbol, { m with links := m.links.insert place symbol }, s.2)
        | none => (.error (.thrown e), m, s.2)
      | (result, m) => (result, m, s.2) := by
  unfold linkMethod Exec.attempt Exec.onMachine
  rw [run_bind]
  dsimp only
  rcases linkNative registry place s.1 with ⟨(e | f | c | _) | symbol, m⟩
  · dsimp only
    show (match exportedSymbol? m (p.libraries s.2) place with
      | some symbol => _
      | none => _ : Exec W String) (m, s.2) = _
    cases exportedSymbol? m (p.libraries s.2) place <;> rfl
  all_goals rfl

/-- Where no library is loaded, no symbol is exported. -/
theorem exportedSymbol?_none (m : Machine) (place : MethodPlace) :
    exportedSymbol? m {} place = none := by
  unfold exportedSymbol?
  cases m.classes.get? place.1 with
  | none => rfl
  | some cls =>
    cases hx : cls.methods[place.2]? with
    | none => simp [hx]
    | some x => simp [hx, Libraries.exports]

/-- Without a loader, a method is linked to a symbol that is registered, or not at all. -/
theorem linkMethod_of_no_loader {p : Platform W} (h : p.loader = none) (registry : Registry W)
    (place : MethodPlace) (s : Machine × W) :
    linkMethod p registry place s =
      ((linkNative registry place s.1).1, (linkNative registry place s.1).2, s.2) := by
  have hlibraries : p.libraries s.2 = {} := by
    rw [Platform.libraries, h]
  rw [run_linkMethod, hlibraries]
  rcases linkNative registry place s.1 with ⟨(e | f | c | _) | symbol, m⟩
  · dsimp only
    rw [exportedSymbol?_none]
  all_goals rfl

/-- Linking a method changes links alone, whatever it is linked to. -/
theorem state_linkMethod (p : Platform W) (registry : Registry W) (place : MethodPlace)
    (s : Machine × W) : ∃ links, (linkMethod p registry place s).2 = ({ s.1 with links }, s.2) := by
  obtain ⟨links, hstate⟩ := state_linkNative registry place s.1
  rw [run_linkMethod]
  rcases hlink : linkNative registry place s.1 with ⟨(e | f | c | _) | symbol, m⟩
  all_goals obtain rfl : m = { s.1 with links } := (congrArg Prod.snd hlink).symm.trans hstate
  · dsimp only
    split
    · exact ⟨_, rfl⟩
    · exact ⟨_, rfl⟩
  all_goals exact ⟨_, rfl⟩

end Linking

section Calls

variable {W : Type} {p : Platform W} {Rel : Machine → Machine → Prop} [IsPreorder Machine Rel]
  (hp : p.KeepsTo Rel) {s : Machine × W} {t : ThreadId} {args : Arguments}

include hp

theorem follows_setPending (e : Throwable) :
    Exec.Follows Rel s
      (Exec.onMachine (Action.setPending t e) >>= fun _ => pure .null : Exec W Value) :=
  (Exec.follows_onMachine (Action.follows_setPending hp t e)).bind_pure

/-- A call puts a frame around the native method. -/
theorem follows_callNative {native : Native W} (h : Exec.Follows Rel s (native p t args)) :
    Exec.Follows Rel s (callNative p t native args) := by
  refine h.attempt.bind fun r s₁ _ => ?_
  cases r with
  | ok v => exact Exec.follows_pure v
  | error e => exact follows_setPending hp e

/-- A call of a native method keeps to the relation, where the native method does with the objects and
the monitors that there were when it was called. -/
theorem follows_runNative {registry : Registry W} (place : MethodPlace)
    (h : ∀ symbol native, registry.get? symbol = some native →
      ∀ m, m.heap = s.1.heap → m.monitors = s.1.monitors →
        Exec.Follows Rel (m, s.2) (native p t args)) :
    Exec.Follows Rel s (runNative p registry t place args) := by
  obtain ⟨links, hlinked⟩ := state_linkMethod p registry place s
  have hlink : Exec.Follows Rel s (linkMethod p registry place) := by
    show Rel s.1 (linkMethod p registry place s).2.1
    rw [hlinked]
    exact hp.elsewhere rfl rfl rfl
  refine hlink.attempt.bind fun r s₁ hrun => ?_
  -- The method is linked and its call is opened before the native method runs.
  have hs₁ : s₁ = ({ s.1 with links }, s.2) := by
    have hstate := Exec.state_attempt (linkMethod p registry place) s
    rw [hrun] at hstate
    exact hstate.trans hlinked
  cases r with
  | error e => exact follows_setPending hp e
  | ok symbol =>
    refine Exec.follows_machine_bind (Exec.follows_lift_bind fun cls _ => ?_)
    split
    · next x native _ hnative =>
      refine (Exec.follows_onMachine (hp.updateThread t _)).bind fun _ s₂ hopen => ?_
      have hnow : Exec.Follows Rel s₂ (native p t args) := by
        cases hopen
        rw [hs₁]
        exact h symbol native hnative _ rfl rfl
      refine (follows_callNative hp hnow).bind fun v s₃ _ => ?_
      exact (Exec.follows_onMachine (hp.updateThread t _)).bind_pure
    · exact follows_setPending hp _
    · exact Exec.follows_throw _

end Calls

end JavaMachine
