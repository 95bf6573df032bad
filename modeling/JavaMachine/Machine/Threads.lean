/-
# Threads and monitors of a machine

Attaching, starting and ending threads, collecting garbage, and the operations of threads on the
monitors of objects. Monitors are made when they are first asked for; a collection drops those of
the objects that it frees, unless a thread still waits on them or something outside holds on to them.
-/
import JavaMachine.Platform

namespace JavaMachine

namespace Action

/-! ## Contexts -/

/-- Makes a context for a thread; without an object to stand for it, one is made. -/
def attach (peer : Option ObjectRef) : Action ThreadId := do
  let peer ← match peer with
    | some r => pure r
    | none =>
      let cls ← (← get).classes.get .thread
      allocate .thread (.ofLayout cls.layout)
  modifyGet fun m =>
    let (threads, t) := m.threads.attach (some peer)
    (t, { m with threads })

/-- Ends a thread: its context is forgotten, and given out in its last state. -/
def detach (t : ThreadId) : Action Thread := do
  let x ← (← get).thread t
  modify fun m => { m with threads := m.threads.forget t }
  return { x with state := .ended }

/-- Sets the interrupt flag of a thread, if there is such a thread. -/
def interrupt (t : ThreadId) : Action Unit := updateThread t ({ · with interrupted := true })

/-- Clears the interrupt flag of a thread, and tells whether it was set. -/
def clearInterrupt (t : ThreadId) : Action Bool := do
  let x ← (← get).thread t
  updateThread t ({ · with interrupted := false })
  return x.interrupted

/-- Changes the state of a thread, and tells the state before. -/
def setState (t : ThreadId) (s : ThreadState) : Action ThreadState := do
  let x ← (← get).thread t
  updateThread t ({ · with state := s })
  return x.state

/-- Leaves an exception pending on a thread, which must have none. -/
def setPending (t : ThreadId) (e : Throwable) : Action Unit := do
  let x ← (← get).thread t
  if x.pending.isSome then abort .pendingOverwritten
  updateThread t ({ · with pending := some e })

/-- Takes the pending exception off a thread. -/
def takePending (t : ThreadId) : Action (Option Throwable) := do
  let x ← (← get).thread t
  updateThread t ({ · with pending := none })
  return x.pending

/-! ## Collection -/

/-- What a collection came to. -/
structure Collection where
  /-- The state of the collecting thread meanwhile. -/
  state : ThreadState
  liveBefore : Nat
  freed : Nat

/-- Frees the objects that `keep` rejects, with the thread holding the machine meanwhile. -/
def collect (t : ThreadId) (keep : ObjectRef → Object → Bool) : Action Collection := do
  let previous ← setState t .exclusive
  let liveBefore := (← get).heap.liveCount
  let state := (← (← get).thread t).state
  let freed ← modifyGet fun m =>
    let (heap, freed) := m.heap.sweep keep
    (freed, { m with heap, monitors := m.monitors.prune fun r => (heap.get? r).isSome })
  discard (setState t previous)
  return { state, liveBefore, freed }

/-! ## Monitors -/

/-- The monitor of an object, made if there is none. -/
def monitor (r : ObjectRef) : Action Monitor := do
  modify fun m => { m with monitors := m.monitors.touch r }
  return ((← get).monitors.entry r).monitor

def setMonitor (r : ObjectRef) (x : Monitor) : Action Unit :=
  modify fun m => { m with monitors := m.monitors.setMonitor r x }

/-- Holds on to the monitor of an object from outside. -/
def holdMonitor (r : ObjectRef) : Action Unit := do
  discard (monitor r)
  modify fun m => { m with monitors := m.monitors.modify r fun e => { e with holders := e.holders + 1 } }

/-- Lets go of the monitor of an object. -/
def releaseMonitor (r : ObjectRef) : Action Unit :=
  modify fun m => { m with monitors := m.monitors.modify r fun e => { e with holders := e.holders - 1 } }

/-- Enters the monitor of an object, which must not be owned by another thread. -/
def enterMonitor (t : ThreadId) (r : ObjectRef) : Action Unit := do
  match (← monitor r).enter? t with
  | some x => setMonitor r x
  | none => throw .blocked

/-- Leaves the monitor of an object, and tells whether the thread owned it. -/
def exitMonitor (t : ThreadId) (r : ObjectRef) : Action Bool := do
  let (x, owned) := (← monitor r).exit t
  setMonitor r x
  return owned

/-- Signals the longest-waiting thread on an object. -/
def notify (r : ObjectRef) : Action Unit := do setMonitor r (← monitor r).notify

/-- Signals all threads that wait on an object. -/
def notifyAll (r : ObjectRef) : Action Unit := do setMonitor r (← monitor r).notifyAll

/-- Suspends a thread on the monitor of an object. -/
def suspend (t : ThreadId) (r : ObjectRef) : Action Unit := do
  setMonitor r ((← monitor r).beginWait t)

/-- Ends the suspension of a thread and gives it back what it owned. `expired` tells whether its
time is over. Without a reason to end, or with another owner, the thread stays blocked. -/
def resume (t : ThreadId) (r : ObjectRef) (expired : Bool) : Action WaitOutcome := do
  let interrupted := (← (← get).thread t).interrupted
  match (← monitor r).endWait? t interrupted expired with
  | none => throw .blocked
  | some (x, outcome, held) =>
    match x.reacquire? t held with
    | none => throw .blocked
    | some x =>
      setMonitor r x
      return outcome

/-- The time limit of a wait in milliseconds, of which zero is no limit. -/
def checkedTimeout (millis : Int64) : Except Throwable Unit :=
  if millis < 0 then
    .error (.illegalArgument ("timeout value is negative: " ++ toString millis.toInt))
  else .ok ()

/-- Waits on the monitor of an object. The thread is idle meanwhile. A thread whose interrupt flag
is set does not wait at all. -/
def wait (t : ThreadId) (r : ObjectRef) (millis : Int64) : Action WaitOutcome := do
  checkedTimeout millis
  discard (monitor r)
  let previous ← setState t .idle
  let outcome ←
    if (← (← get).thread t).interrupted then pure .interrupted
    else do
      suspend t r
      resume t r (millis ≠ 0)
  discard (setState t previous)
  return outcome

end Action

/-! ## Starting threads -/

/-- The body of a started thread: it runs the method `run` of the object that stands for it. -/
def runThread {W : Type} (p : Platform W) (t : ThreadId) : Exec W Unit := do
  let m ← Exec.machine
  match (← m.thread t).peer with
  | none => pure ()
  | some peer =>
    let c ← m.classOf peer
    match m.classes.findMethod? c "run" "()V" with
    | none => pure ()
    | some x => discard (p.invoke t x (some peer) [])

/-- Runs a started thread to its end. An exception that its body ends with is dropped. -/
def finishThread {W : Type} (p : Platform W) (t : ThreadId) : Exec W Unit := do
  discard (Exec.attempt (runThread p t))
  discard (Exec.onMachine (Action.detach t))

/-- Asks the host to start a thread. -/
def askHost {W : Type} (p : Platform W) (request : StartRequest) : Exec W StartVerdict :=
  fun (m, w) =>
    let (verdict, w) := p.start request w
    (.ok verdict, (m, w))

/-- Starts a thread for an object, if the host agrees. -/
def startThread {W : Type} (p : Platform W) (peer : ObjectRef) : Exec W (Option ThreadId) := do
  let t ← Exec.onMachine (Action.attach (some peer))
  let request : StartRequest :=
    { thread := t, name := p.config.threadNamePrefix ++ toString t.raw.toNat
      stackSize := p.config.threadStackSize }
  match ← askHost p request with
  | .refused =>
    discard (Exec.onMachine (Action.detach t))
    return none
  | .inline =>
    finishThread p t
    return some t
  | .deferred => return some t

end JavaMachine
