/-
# Runs of threads

Contexts of threads come and go while an engine runs: threads are attached and detached, natives
start threads, the host refuses a start, runs the thread at once or keeps it for later, and the body
of a started thread does all of this again.  `ThreadScript` says what an engine does to run a method,
as a chain of requests, and `ThreadEngine.platform` runs the scripts of an engine over the host of any
platform.

A run takes notes (`Notes`).  They hold what happened to contexts, in order (`ContextEvent`), what the
machine was whenever an engine had its turn (`Sight`), and each start of a thread with what it gave
(`StartReport`).  The machine starts and ends threads by itself and does not tell in which state a
context was that it dropped; `endThread` and `startOutcome` do, and are the same computations
otherwise (`threadStart_eq`).
-/
import JavaMachine.Native.Threads
import JavaMachine.Proofs.Steps

namespace JavaMachine

/-! ## Ends of contexts -/

section Outcomes

variable {W : Type}

/-- Runs a started thread to its end, and gives its context in its last state. -/
def endThread (p : Platform W) (t : ThreadId) : Exec W Thread := do
  discard (Exec.attempt (runThread p t))
  Exec.onMachine (Action.detach t)

/-- A thread is finished by ending it, whatever comes of that. -/
theorem discard_endThread (p : Platform W) (t : ThreadId) :
    discard (endThread p t) = finishThread p t := by
  funext s
  unfold endThread finishThread
  rw [run_discard, run_bind, run_bind]
  rcases discard (Exec.attempt (runThread p t)) s with ⟨e | x, s₁⟩
  · rfl
  · exact (run_discard _ s₁).symm

/-- What a start of a thread comes to. -/
structure StartOutcome where
  thread : ThreadId
  verdict : StartVerdict
  /-- The context in its last state, if it is dropped by the time that the start is over. -/
  last : Option Thread

/-- The handle that is given for the thread: zero when the host refused. -/
def StartOutcome.answer (o : StartOutcome) : Value :=
  .long (if o.verdict = .refused then 0 else o.thread.handle)

/-- What the host is asked about a thread. -/
def Platform.startRequest (p : Platform W) (t : ThreadId) : StartRequest :=
  { thread := t, name := p.config.threadNamePrefix ++ toString t.raw.toNat
    stackSize := p.config.threadStackSize }

/-- Meets the verdict of the host, and gives the context if that drops it. -/
def followVerdict (p : Platform W) (t : ThreadId) : StartVerdict → Exec W (Option Thread)
  | .refused => some <$> Exec.onMachine (Action.detach t)
  | .inline => some <$> endThread p t
  | .deferred => pure none

/-- Starts a thread for an object, and gives all that comes of it. -/
def startOutcome (p : Platform W) (peer : ObjectRef) : Exec W StartOutcome := do
  let t ← Exec.onMachine (Action.attach (some peer))
  let verdict ← askHost p (p.startRequest t)
  let last ← followVerdict p t verdict
  return { thread := t, verdict, last }

theorem run_map {α β : Type} (f : α → β) (a : Exec W α) (s : Machine × W) :
    (f <$> a) s = ((a s).1.map f, (a s).2) := by
  rw [map_eq_pure_bind, run_bind]
  rcases a s with ⟨e | x, s₁⟩ <;> rfl

/-- A start tells of its outcome only which thread was started. -/
theorem startThread_eq (p : Platform W) (peer : ObjectRef) :
    startThread p peer =
      (fun o => if o.verdict = .refused then none else some o.thread) <$> startOutcome p peer := by
  funext s
  unfold startThread startOutcome
  rw [run_map, run_bind, run_bind]
  rcases Exec.onMachine (Action.attach (some peer)) s with ⟨e | t, s₁⟩
  · rfl
  · dsimp only
    rw [run_bind, run_bind]
    rcases hask : askHost p (p.startRequest t) s₁ with ⟨e | verdict, s₂⟩
    · cases hask
    · unfold Platform.startRequest at hask
      rw [hask]
      dsimp only
      rw [run_bind]
      -- Only what becomes of the context that is given out differs.
      cases verdict with
      | refused =>
        dsimp only [followVerdict]
        rw [run_bind, run_map, run_discard]
        rcases Exec.onMachine (Action.detach t) s₂ with ⟨e | x, s₃⟩ <;> rfl
      | inline =>
        dsimp only [followVerdict]
        rw [run_bind, run_map, ← discard_endThread, run_discard]
        rcases endThread p t s₂ with ⟨e | x, s₃⟩ <;> rfl
      | deferred => rfl

/-- The native method that starts threads gives the answer of the outcome. -/
theorem threadStart_eq (p : Platform W) (t : ThreadId) (args : Arguments) :
    Builtin.threadStart p t args =
      (do
        let peer ← args.object 0
        StartOutcome.answer <$> startOutcome p peer) := by
  funext s
  unfold Builtin.threadStart
  rw [run_bind, run_bind]
  rcases (liftM (args.object 0) : Exec W ObjectRef) s with ⟨e | peer, s₁⟩
  · rfl
  · dsimp only
    rw [run_bind, startThread_eq, run_map, run_map]
    rcases startOutcome p peer s₁ with ⟨e | o, s₂⟩
    · rfl
    · obtain ⟨u, verdict, last⟩ := o
      cases verdict <;> rfl

end Outcomes

/-! ## What is noted -/

/-- What happens to a context. -/
inductive ContextEvent where
  /-- It is made for a thread that runs already. -/
  | attached (t : ThreadId)
  /-- It is made for a thread to start, and the host answers. -/
  | asked (t : ThreadId) (verdict : StartVerdict)
  /-- The body of a deferred thread begins. -/
  | begun (t : ThreadId)
  /-- It is dropped, and given out in this state. -/
  | dropped (t : ThreadId) (state : ThreadState)
deriving DecidableEq

namespace ContextEvent

def created? : ContextEvent → Option ThreadId
  | attached t => some t
  | asked t _ => some t
  | _ => none

def drop? : ContextEvent → Option (ThreadId × ThreadState)
  | dropped t state => some (t, state)
  | _ => none

def deferred? : ContextEvent → Option ThreadId
  | asked t .deferred => some t
  | _ => none

/-- The thread whose body the machine runs from then on, to end the thread after it. -/
def body? : ContextEvent → Option ThreadId
  | asked t .inline => some t
  | begun t => some t
  | _ => none

variable (es : List ContextEvent)

/-- The contexts that were created, in order. -/
def createdIn : List ThreadId := es.filterMap created?

/-- The contexts that were dropped, in order, with the states that they were given out in. -/
def dropsIn : List (ThreadId × ThreadState) := es.filterMap drop?

def droppedIn : List ThreadId := (dropsIn es).map Prod.fst

def deferredIn : List ThreadId := es.filterMap deferred?

def bodiesIn : List ThreadId := es.filterMap body?

/-- A context that its thread, or a host that has it for later, may drop. -/
def Free (t : ThreadId) : Prop := t ∈ createdIn es ∧ t ∉ bodiesIn es ∧ t ∉ droppedIn es

instance (t : ThreadId) : Decidable (Free es t) := inferInstanceAs (Decidable (_ ∧ _))

end ContextEvent

open ContextEvent

/-- What a machine is at a moment of a run. -/
structure Sight where
  machine : Machine
  /-- What happened to contexts so far. -/
  events : List ContextEvent

/-- The state of a context: the one that other threads see as long as it is registered, and the one
that it was given out in when it was dropped. -/
def Sight.state? (s : Sight) (t : ThreadId) : Option ThreadState :=
  match s.machine.threads.contexts.get? t with
  | some x => some x.state
  | none => (dropsIn s.events).lookup t

/-- A start of a thread by the native method. -/
structure StartReport where
  before : Sight
  args : Arguments
  result : Except Stop Value
  after : Sight

/-- All that a run notes. -/
structure Notes where
  events : List ContextEvent := []
  sights : List Sight := []
  starts : List StartReport := []

/-- Notes what happened to contexts. -/
def Notes.add (n : Notes) (es : List ContextEvent) : Notes := { n with events := n.events ++ es }

/-! ## What an engine does -/

/-- What an engine asks for. -/
inductive ThreadRequest where
  | attach (peer : Option ObjectRef)
  /-- The context is dropped by its thread, or by a host that never runs it. -/
  | detach (t : ThreadId)
  /-- The native method that starts a thread. -/
  | start (args : Arguments)
  /-- The host runs a thread that it deferred to its end. -/
  | complete (t : ThreadId)
  /-- The state that other threads see is set, as waits and collections do. -/
  | turn (t : ThreadId) (state : ThreadState)
  | wait (t : ThreadId) (r : ObjectRef) (millis : Int64)
  | collect (t : ThreadId) (keep : ObjectRef → Object → Bool)
  /-- A change of a context that leaves its state as it is. -/
  | alter (t : ThreadId) (f : Thread → Thread)
  | invoke (t : ThreadId) (x : Method) (receiver : Option ObjectRef) (args : List Value)
  /-- A change of what is no context. -/
  | elsewhere (f : Machine → Machine)

/-- What an engine does to run a method: it ends with a value or an exception, or makes a request and
goes on from its result and the states after it. -/
inductive ThreadScript (W : Type) where
  | finish (result : Except Throwable Value) (w : W)
  | request (r : ThreadRequest) (w : W) (next : Except Stop Value → Machine → W → ThreadScript W)

/-- An engine decides what to do by the method that it has to run and the states before it. -/
abbrev ThreadEngine (W : Type) :=
  ThreadId → Method → Option ObjectRef → List Value → Machine → W → ThreadScript W

section Runs

variable {W : Type}

/-- What there is to see in a state of a run. -/
def sight (s : Machine × W × Notes) : Sight := ⟨s.1, s.2.2.events⟩

/-- Notes what there is to see. -/
def see (s : Machine × W × Notes) : Machine × W × Notes :=
  (s.1, s.2.1, { s.2.2 with sights := s.2.2.sights ++ [sight s] })

/-- Runs a computation, and notes what contexts it dropped at its end. -/
def notingDrops {α : Type} (a : Exec (W × Notes) α)
    (drops : Machine × W × Notes → List ContextEvent) : Exec (W × Notes) α := fun s =>
  let (r, m, w, n) := a s
  (r, m, w, n.add (drops s))

/-- What is noted of the context of a thread that may have been given out in its last state. -/
def lastEvents (t : ThreadId) (last : Option Thread) : List ContextEvent :=
  last.toList.map fun x => .dropped t x.state

/-- The context that is dropped when a thread has run to its end. -/
def endDrops (p : Platform (W × Notes)) (t : ThreadId) (s : Machine × W × Notes) :
    List ContextEvent :=
  lastEvents t (endThread p t s).1.toOption

/-- The context that is dropped by the time that a start is over, if it is. -/
def startDrops (p : Platform (W × Notes)) (args : Arguments) (s : Machine × W × Notes) :
    List ContextEvent :=
  match args.object 0 with
  | .error _ => []
  | .ok peer =>
    match (startOutcome p peer s).1 with
    | .ok o => lastEvents o.thread o.last
    | .error _ => []

/-- Runs the native method that starts threads, and reports on it. -/
def reportedStart (p : Platform (W × Notes)) (t : ThreadId) (args : Arguments) :
    Exec (W × Notes) Value := fun s =>
  let (result, s') := notingDrops (Builtin.threadStart p t args) (startDrops p args) s
  let report : StartReport := { before := sight s, args, result, after := sight s' }
  (result, s'.1, s'.2.1, { s'.2.2 with starts := s'.2.2.starts ++ [report] })

/-- Meets a request.  A context is dropped only when no body is to end it, and a deferred thread is
run once; what may not be done is left out. -/
def ThreadRequest.run (p : Platform (W × Notes)) (t : ThreadId) :
    ThreadRequest → Exec (W × Notes) Value
  | attach peer => do
    let t ← Exec.onMachine (Action.attach peer)
    Exec.modifyWorld fun (w, n) => (w, n.add [.attached t])
    return .long t.handle
  | detach t => do
    let (_, n) ← Exec.world
    if Free n.events t then
      let last ← Exec.onMachine (Action.detach t)
      Exec.modifyWorld fun (w, n) => (w, n.add [.dropped t last.state])
    return .null
  | start args => reportedStart p t args
  | complete t => do
    let (_, n) ← Exec.world
    if t ∈ deferredIn n.events ∧ Free n.events t then
      Exec.modifyWorld fun (w, n) => (w, n.add [.begun t])
      notingDrops (finishThread p t) (endDrops p t)
    return .null
  | turn t state => do
    if state ≠ .ended then discard (Exec.onMachine (Action.setState t state))
    return .null
  | wait t r millis => do
    discard (Exec.onMachine (Action.wait t r millis))
    return .null
  | collect t keep => do
    discard (Exec.onMachine (Action.collect t keep))
    return .null
  | alter t f => do
    Exec.onMachine (Action.updateThread t fun x => { f x with state := x.state })
    return .null
  | invoke t x receiver args => p.invoke t x receiver args
  | elsewhere f => do
    Exec.modifyMachine fun m => { f m with threads := m.threads }
    return .null

/-- Runs a script to its end.  What there is to see is noted before each request and at the end. -/
def ThreadScript.run (p : Platform (W × Notes)) (t : ThreadId) :
    ThreadScript W → Exec (W × Notes) Value
  | finish result w, (m, _, n) => (result.mapError .thrown, see (m, w, n))
  | request r w next, (m, _, n) =>
    let (result, m, w, n) := r.run p t (see (m, w, n))
    (next result m w).run p t (m, w, n)

/-- The platform of an engine whose calls nest at most so deep, over the host of any platform. -/
def ThreadEngine.platform (e : ThreadEngine W) (base : Platform W) : (depth : Nat) →
    Platform (W × Notes)
  | 0 =>
    { base with
      invoke := fun _ _ _ _ => raise (.ofClass "java/lang/StackOverflowError")
      start := fun request (w, n) =>
        let (verdict, w) := base.start request w
        (verdict, w, n.add [.asked request.thread verdict])
      keep := fun (w, _) => base.keep w
      loader := base.loader.map .onFirst }
  | depth + 1 =>
    { e.platform base depth with
      invoke := fun t x receiver args (m, w, n) =>
        (e t x receiver args m w).run (e.platform base depth) t (m, w, n) }

end Runs

end JavaMachine
