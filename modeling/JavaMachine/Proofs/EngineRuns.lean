/-
# Runs of an engine

An engine that runs a method may come back to the machine as often as it likes: it makes requests,
sees what became of each, and goes on from there (`Script`).  Requests nest, since an initializer or
a reflective call runs a method again, so an engine gives a platform for each depth of nesting
(`Engine.platform`).

Beside the state of the engine a run keeps notes of what initialization hands to it
(`InitEvent`, `Platform.noting`).  A reflective call initializes a class by the noting platform and
runs its method by the plain one, so what is noted is the work of `initializeClass` alone.  Notes do
not change a run: forgetting them gives the run that takes no notes.
-/
import JavaMachine.Machine.Reflection
import JavaMachine.Proofs.Initialization

namespace JavaMachine

/-! ## What is noted -/

/-- What becomes of a static initializer that initialization hands to the engine. -/
inductive InitEvent where
  | handed (c : ClassId)
  | returned (c : ClassId)
  | failed (c : ClassId)
deriving DecidableEq, Repr

/-- Notes that are the list of all events. -/
def InitEvent.record (events : List InitEvent) (e : InitEvent) : List InitEvent := events ++ [e]

section Notes

variable {W N : Type} (note : N → InitEvent → N)

/-- A platform on which each method that is run is noted, and how it ended. -/
def Platform.noting (p : Platform (W × N)) : Platform (W × N) :=
  { p with
    invoke := fun t x receiver args (m, w, n) =>
      match p.invoke t x receiver args (m, w, note n (.handed x.owner)) with
      | (.ok v, m, w, n) => (.ok v, m, w, note n (.returned x.owner))
      | (.error e, m, w, n) => (.error e, m, w, note n (.failed x.owner)) }

/-- A call is noted when it is handed over, and when it comes back. -/
theorem run_noting (p : Platform (W × N)) (t : ThreadId) (x : Method) (receiver : Option ObjectRef)
    (args : List Value) (m : Machine) (w : W) (n : N) :
    (p.noting note).invoke t x receiver args (m, w, n) =
      match p.invoke t x receiver args (m, w, note n (.handed x.owner)) with
      | (.ok v, m, w, n) => (.ok v, m, w, note n (.returned x.owner))
      | (.error e, m, w, n) => (.error e, m, w, note n (.failed x.owner)) := rfl

/-- The answer of a reflective call to a method that gave a value. -/
def boxedResult {W : Type} (x : Method) (v : Value) : Exec W Value :=
  match x.result with
  | some _ => Exec.onMachine (Action.box v)
  | none => return .null

/-- A reflective call that initializes by a platform of its own. -/
def invokeMethodOver {W : Type} (initPlatform p : Platform W) (t : ThreadId) (x : Method)
    (target arguments : Option ObjectRef) : Exec W Value := do
  let m ← Exec.machine
  let array ← Machine.nonNull arguments
  let receiver ← m.callReceiver x target
  let args ← m.callArguments x array
  if x.isStatic then initializeClass initPlatform t x.owner
  let result ← invokeWrapped p t x receiver args
  boxedResult x result

/-- With one platform for both parts, it is the reflective call itself. -/
theorem invokeMethodOver_self (p : Platform W) (t : ThreadId) (x : Method)
    (target arguments : Option ObjectRef) :
    invokeMethodOver p p t x target arguments = invokeMethod p t x target arguments := rfl

/-! ## What an engine does -/

/-- What an engine asks of the machine. -/
inductive Request where
  | operation (op : Operation)
  /-- A change of what is no class and no object. -/
  | elsewhere (f : Machine → Machine)
  | initClass (c : ClassId)
  | invoke (x : Method) (target arguments : Option ObjectRef)

/-- What an engine does to run a method: it ends, or makes a request and goes on from its result
and the states after it. -/
inductive Script (W : Type) where
  | finish (result : Except Stop Value) (w : W)
  | request (r : Request) (w : W) (next : Except Stop Value → Machine → W → Script W)

/-- An engine decides what to do by the method that it has to run and the states before it. -/
abbrev Engine (W : Type) :=
  ThreadId → Method → Option ObjectRef → List Value → Machine → W → Script W

/-- The field that an operation is given. -/
def Operation.field? : Operation → Option Field
  | fieldObject f => some f
  | setField f _ _ => some f
  | _ => none

def Operation.beginsClass : Operation → Bool
  | startInitialization _ => true
  | _ => false

/-- An engine may ask for any operation on fields that are declared, and leaves it to initialization
to begin classes. -/
def Operation.Available (m : Machine) (op : Operation) : Prop :=
  op.beginsClass = false ∧ ∀ f ∈ op.field?, m.classes.Declares f

instance (m : Machine) (op : Operation) : Decidable (op.Available m) :=
  inferInstanceAs (Decidable (_ ∧ _))

/-- What is available is given what it has to be given, where files may have all names. -/
theorem Operation.Available.admissible {m : Machine} {op : Operation} (h : op.Available m) :
    op.Admissible (fun _ => True) m := by
  obtain ⟨_, hfield⟩ := h
  cases op with
  | define bytes => exact fun _ _ _ _ => trivial
  | defineRange array offset length => exact fun _ _ _ _ _ _ => trivial
  | fieldObject f => exact hfield f rfl
  | setField f target v => exact hfield f rfl
  | _ => trivial

/-- Runs an operation that is available, and leaves out any other one. -/
def Operation.runAvailable (path : ClassPath) (op : Operation) : Action Unit := fun m =>
  if op.Available m then op.run path m else (.ok (), m)

/-- Meets a request. -/
def Request.run (p : Platform (W × N)) (t : ThreadId) : Request → Exec (W × N) Value
  | operation op => do
    Exec.onMachine (op.runAvailable p.classPath)
    return .null
  | elsewhere f => do
    Exec.modifyMachine fun m => { f m with classes := m.classes, heap := m.heap }
    return .null
  | initClass c => do
    initializeClass (p.noting note) t c
    return .null
  | invoke x target arguments => invokeMethodOver (p.noting note) p t x target arguments

/-- Runs a script to its end. -/
def Script.run (p : Platform (W × N)) (t : ThreadId) : Script W → Exec (W × N) Value
  | finish result w, (m, _, n) => (result, m, w, n)
  | request r w next, (m, _, n) =>
    let (result, m, w, n) := r.run note p t (m, w, n)
    (next result m w).run p t (m, w, n)

/-- The platform of an engine whose calls nest at most so deep.  It starts no threads. -/
def Engine.platform (e : Engine W) (path : ClassPath) : (depth : Nat) → Platform (W × N)
  | 0 =>
    { invoke := fun _ _ _ _ => raise (.ofClass "java/lang/StackOverflowError")
      start := fun _ s => (.refused, s)
      keep := fun _ _ _ => true
      classPath := path }
  | depth + 1 =>
    { invoke := fun t x receiver args (m, w, n) =>
        (e t x receiver args m w).run note (e.platform path depth) t (m, w, n)
      start := fun _ s => (.refused, s)
      keep := fun _ _ _ => true
      classPath := path }

/-- A platform whose engine gives null at once, and whose host refuses to start threads. -/
def Platform.idle : Platform Unit where
  invoke _ _ _ _ := pure .null
  start _ w := (.refused, w)
  keep _ _ _ := true

/-! ## Notes do not change a run -/

section RunsAlike

variable {N' α β : Type} {f : N → N'}

/-- Two computations run alike when they differ in their notes only, and `f` makes those of the
second one from those of the first. -/
def RunsAlike (f : N → N') (a : Exec (W × N) α) (a' : Exec (W × N') α) : Prop :=
  ∀ m w n, a' (m, w, f n) = ((a (m, w, n)).1, (a (m, w, n)).2.1, (a (m, w, n)).2.2.1,
    f (a (m, w, n)).2.2.2)

variable {a : Exec (W × N) α} {a' : Exec (W × N') α}

/-- Doing nothing runs alike whatever is noted. -/
theorem runsAlike_pure (x : α) : RunsAlike f (pure x : Exec (W × N) α) (pure x) := fun _ _ _ => rfl

/-- An exception runs alike whatever is noted. -/
theorem runsAlike_raise (t : Throwable) : RunsAlike f (raise t : Exec (W × N) α) (raise t) :=
  fun _ _ _ => rfl

/-- The machine is the same on both sides. -/
theorem runsAlike_machine : RunsAlike f (Exec.machine : Exec (W × N) Machine) Exec.machine :=
  fun _ _ _ => rfl

/-- An operation of the machine reads no notes. -/
theorem runsAlike_onMachine (b : Action α) :
    RunsAlike f (Exec.onMachine b : Exec (W × N) α) (Exec.onMachine b) := fun _ _ _ => rfl

theorem runsAlike_liftStop (r : Except Stop α) :
    RunsAlike f (liftM r : Exec (W × N) α) (liftM r) := by
  intro m w n
  cases r with
  | ok x => rfl
  | error e => rfl

/-- Computations that run alike are followed by others that do. -/
theorem RunsAlike.bind {k : α → Exec (W × N) β} {k' : α → Exec (W × N') β} (ha : RunsAlike f a a')
    (hk : ∀ x, RunsAlike f (k x) (k' x)) : RunsAlike f (a >>= k) (a' >>= k') := by
  intro m w n
  rw [run_bind, run_bind, ha]
  rcases a (m, w, n) with ⟨e | x, m₁, w₁, n₁⟩
  · rfl
  · exact hk x m₁ w₁ n₁

/-- What the computations end with is the same. -/
theorem RunsAlike.attempt (ha : RunsAlike f a a') :
    RunsAlike f (Exec.attempt a) (Exec.attempt a') := by
  intro m w n
  unfold Exec.attempt
  rw [ha]
  rcases a (m, w, n) with ⟨(t | g | c) | x, m₁, w₁, n₁⟩
  all_goals rfl

theorem RunsAlike.discard (ha : RunsAlike f a a') :
    RunsAlike f (discard a : Exec (W × N) PUnit) (discard a') := by
  intro m w n
  rw [run_discard, run_discard, ha]

end RunsAlike

section Forgetting

variable {N' : Type} {f : N → N'} {note' : N' → InitEvent → N'} {p : Platform (W × N)}
  {p' : Platform (W × N')}

/-- Two platforms on which methods run alike. -/
def Platform.Alike (f : N → N') (p : Platform (W × N)) (p' : Platform (W × N')) : Prop :=
  p'.classPath = p.classPath ∧
    ∀ t x receiver args, RunsAlike f (p.invoke t x receiver args) (p'.invoke t x receiver args)

variable {note} (hnote : ∀ n e, f (note n e) = note' (f n) e)
include hnote

/-- Taking notes beside a platform does not tell it from another one. -/
theorem Platform.Alike.noting (hp : p.Alike f p') : (p.noting note).Alike f (p'.noting note') := by
  refine ⟨hp.1, fun t x receiver args m w n => ?_⟩
  rw [run_noting, run_noting, ← hnote, hp.2]
  rcases p.invoke t x receiver args (m, w, note n (.handed x.owner)) with ⟨e | v, m₁, w₁, n₁⟩
  · simp only [hnote]
  · simp only [hnote]

omit hnote

/-- Initialization runs alike, up the chain of superclasses and through the initializers. -/
theorem runsAlike_initializeClass (hp : p.Alike f p') (t : ThreadId) (c : ClassId) :
    RunsAlike f (initializeClass p t c) (initializeClass p' t c) := by
  generalize hn : c.index = n
  induction n using Nat.strongRecOn generalizing c with
  | ind n ih =>
    intro m w notes
    cases hc : m.classes.get? c with
    | none => rw [run_initializeClass_unknown hc, run_initializeClass_unknown hc]
    | some cls =>
      by_cases hgo : (cls.needsInit && !cls.initStarted) = true
      · rw [run_initializeClass hc hgo, run_initializeClass hc hgo]
        have hsuper : RunsAlike f (initializeSuper p t m.classes c)
            (initializeSuper p' t m.classes c) := by
          unfold initializeSuper
          cases m.classes.superclass? c with
          | none => exact runsAlike_pure _
          | some a => exact ih a.1.index (hn ▸ a.2) a.1 rfl
        have hown : RunsAlike f (runInitializer p t m.classes c)
            (runInitializer p' t m.classes c) := by
          unfold runInitializer
          cases m.classes.initializer? c with
          | none => exact runsAlike_pure _
          | some x => exact (hp.2 t x none []).discard
        exact hsuper.bind (fun _ => hown) (m.begin c) w notes
      · have hskip : (cls.needsInit && !cls.initStarted) = false := Bool.eq_false_iff.mpr hgo
        rw [run_initializeClass_skip hc hskip, run_initializeClass_skip hc hskip]

/-- Exceptions are wrapped alike. -/
theorem runsAlike_invokeWrapped (hp : p.Alike f p') (t : ThreadId) (x : Method)
    (receiver : Option ObjectRef) (args : List Value) :
    RunsAlike f (invokeWrapped p t x receiver args) (invokeWrapped p' t x receiver args) := by
  refine (hp.2 t x receiver args).attempt.bind fun r => ?_
  cases r with
  | ok v => exact runsAlike_pure v
  | error e => exact runsAlike_raise _

theorem runsAlike_boxedResult (x : Method) (v : Value) :
    RunsAlike f (boxedResult x v : Exec (W × N) Value) (boxedResult x v) := by
  unfold boxedResult
  cases x.result with
  | some _ => exact runsAlike_onMachine _
  | none => exact runsAlike_pure _

/-- Reflective calls run alike where both platforms do. -/
theorem runsAlike_invokeMethodOver {q : Platform (W × N)} {q' : Platform (W × N')}
    (hq : q.Alike f q') (hp : p.Alike f p') (t : ThreadId) (x : Method)
    (target arguments : Option ObjectRef) :
    RunsAlike f (invokeMethodOver q p t x target arguments)
      (invokeMethodOver q' p' t x target arguments) := by
  have hrest : ∀ receiver args, RunsAlike f
      (invokeWrapped p t x receiver args >>= boxedResult x)
      (invokeWrapped p' t x receiver args >>= boxedResult x) :=
    fun receiver args => (runsAlike_invokeWrapped hp t x receiver args).bind (runsAlike_boxedResult x)
  unfold invokeMethodOver
  refine runsAlike_machine.bind fun m => (runsAlike_liftStop _).bind fun array => ?_
  refine (runsAlike_liftStop _).bind fun receiver => (runsAlike_liftStop _).bind fun args => ?_
  dsimp only
  split
  · exact (runsAlike_initializeClass hq t x.owner).bind fun _ => hrest receiver args
  · exact hrest receiver args

include hnote

/-- Every request of an engine runs alike. -/
theorem runsAlike_request (hp : p.Alike f p') (t : ThreadId) (r : Request) :
    RunsAlike f (r.run note p t) (r.run note' p' t) := by
  cases r with
  | operation op =>
    unfold Request.run
    rw [hp.1]
    exact (runsAlike_onMachine _).bind fun _ => runsAlike_pure _
  | elsewhere g => exact fun _ _ _ => rfl
  | initClass c =>
    exact (runsAlike_initializeClass (hp.noting hnote) t c).bind fun _ => runsAlike_pure _
  | invoke x target arguments =>
    exact runsAlike_invokeMethodOver (hp.noting hnote) hp t x target arguments

/-- A script makes the same requests, since it is told the same of each. -/
theorem runsAlike_script (hp : p.Alike f p') (t : ThreadId) (script : Script W) :
    RunsAlike f (script.run note p t) (script.run note' p' t) := by
  induction script with
  | finish result w => exact fun _ _ _ => rfl
  | request r w next ih =>
    intro m w₀ n
    have hr := runsAlike_request hnote hp t r m w n
    unfold Script.run
    rw [hr]
    exact ih _ _ _ _ _ _

/-- By induction on the depth, the platforms of an engine run alike whatever is noted. -/
theorem alike_platform (e : Engine W) (path : ClassPath) (depth : Nat) :
    (e.platform note path depth).Alike f (e.platform note' path depth) := by
  induction depth with
  | zero => exact ⟨rfl, fun _ _ _ _ _ _ _ => rfl⟩
  | succ depth ih =>
    refine ⟨rfl, fun t x receiver args m w n => ?_⟩
    exact runsAlike_script hnote ih t (e t x receiver args m w) m w n

end Forgetting

/-- A platform that takes no notes is left as it is. -/
theorem noting_unit (p : Platform (W × Unit)) : p.noting (fun _ _ => ()) = p := by
  have hinvoke : (p.noting fun _ _ => ()).invoke = p.invoke := by
    funext t x receiver args ⟨m, w, n⟩
    rw [run_noting]
    rcases p.invoke t x receiver args (m, w, ()) with ⟨e | v, m₁, w₁, n₁⟩
    · rfl
    · rfl
  cases p
  simp only [Platform.noting] at hinvoke ⊢
  rw [hinvoke]

/-- A script that is run with notes runs as it does without. -/
theorem Script.run_forget (e : Engine W) (path : ClassPath) (depth : Nat) (t : ThreadId)
    (script : Script W) (m : Machine) (w : W) (n : N) :
    script.run (fun _ _ => ()) (e.platform (fun _ _ => ()) path depth) t (m, w, ()) =
      ((script.run note (e.platform note path depth) t (m, w, n)).1,
        (script.run note (e.platform note path depth) t (m, w, n)).2.1,
        (script.run note (e.platform note path depth) t (m, w, n)).2.2.1, ()) :=
  runsAlike_script (f := fun _ : N => ()) (fun _ _ => rfl) (alike_platform (fun _ _ => rfl) e path depth) t
    script m w n

end Notes

end JavaMachine
