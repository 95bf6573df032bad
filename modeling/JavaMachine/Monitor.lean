/-
# Monitors

A monitor is owned by one thread at a time, which may enter it again and has to leave it as often.
A thread that waits gives its ownership up and stands in a queue until it is signalled; a signal
goes to the thread that has waited longest. Neither waiting nor signalling asks for ownership.

Each operation here is one step of a monitor that cannot be interrupted. A wait takes up to three of
them: `beginWait` suspends the thread, `endWait?` ends the suspension for one of the reasons of
`WaitOutcome`, and `reacquire?` gives the ownership back that the wait gave up.
-/
import JavaMachine.Table
import JavaMachine.Handle

namespace JavaMachine

/-- Why a wait ended. -/
inductive WaitOutcome where
  | notified
  | timedOut
  /-- The interrupt flag of the thread stays set. -/
  | interrupted
deriving DecidableEq, Repr

/-- What a monitor keeps about a suspended thread: how deep it owned the monitor when it began to
wait, if it did, and whether it was signalled. -/
structure Suspension where
  heldDepth : Option Nat
  signalled : Bool := false
deriving DecidableEq, Repr

/-- A monitor. -/
structure Monitor where
  owner : Option ThreadId := none
  depth : Nat := 0
  /-- The threads that wait for a signal, the longest-waiting first. -/
  queue : List ThreadId := []
  /-- All threads between the first and the second step of a wait. -/
  suspended : Table ThreadId Suspension := {}

namespace Monitor

/-- Whether a thread owns the monitor. -/
def isOwnedBy (m : Monitor) (t : ThreadId) : Bool := m.owner = some t

/-! ## Entering and leaving -/

/-- Enters the monitor; `none` while another thread owns it. -/
def enter? (m : Monitor) (t : ThreadId) : Option Monitor :=
  match m.owner with
  | none => some { m with owner := some t, depth := 1 }
  | some o => if o = t then some { m with depth := m.depth + 1 } else none

/-- Leaves the monitor once, and tells whether the thread owned it. -/
def exit (m : Monitor) (t : ThreadId) : Monitor × Bool :=
  if m.isOwnedBy t then
    if m.depth ≤ 1 then ({ m with owner := none, depth := 0 }, true)
    else ({ m with depth := m.depth - 1 }, true)
  else (m, false)

/-! ## Waiting -/

/-- Suspends a thread: it joins the queue and gives up the monitor if it owns it. -/
def beginWait (m : Monitor) (t : ThreadId) : Monitor :=
  if m.isOwnedBy t then
    { owner := none, depth := 0, queue := m.queue ++ [t],
      suspended := m.suspended.insert t { heldDepth := some m.depth } }
  else
    { m with queue := m.queue ++ [t], suspended := m.suspended.insert t { heldDepth := none } }

/-- The reason for which a suspension ends, if there is one. A signal counts first, then an
interrupt, then the time. -/
def waitOutcome? (s : Suspension) (interrupted expired : Bool) : Option WaitOutcome :=
  if s.signalled then some .notified
  else if interrupted then some .interrupted
  else if expired then some .timedOut
  else none

/-- Ends the suspension of a thread if there is a reason to, and tells the depth of the ownership to
get back. A thread that was not signalled leaves the queue. -/
def endWait? (m : Monitor) (t : ThreadId) (interrupted expired : Bool) :
    Option (Monitor × WaitOutcome × Option Nat) := do
  let s ← m.suspended.get? t
  let outcome ← waitOutcome? s interrupted expired
  let queue := if outcome = .notified then m.queue else m.queue.filter (· ≠ t)
  return ({ m with queue, suspended := m.suspended.erase t }, outcome, s.heldDepth)

/-- Gives a thread its ownership back, at the depth it had; `none` while another thread owns the
monitor. A thread that had no ownership gets none. -/
def reacquire? (m : Monitor) (t : ThreadId) (heldDepth : Option Nat) : Option Monitor :=
  match heldDepth with
  | none => some m
  | some depth =>
    match m.owner with
    | none => some { m with owner := some t, depth }
    | some _ => none

/-! ## Signalling -/

/-- Marks a suspended thread as signalled. -/
def signal (s : Table ThreadId Suspension) (t : ThreadId) : Table ThreadId Suspension :=
  s.modify t fun x => { x with signalled := true }

/-- Signals the longest-waiting thread, if any waits. -/
def notify (m : Monitor) : Monitor :=
  match m.queue with
  | [] => m
  | t :: queue => { m with queue, suspended := signal m.suspended t }

/-- Signals all threads that wait. -/
def notifyAll (m : Monitor) : Monitor :=
  { m with queue := [], suspended := m.queue.foldl signal m.suspended }

end Monitor

/-! ## The monitors of objects -/

/-- The monitor of an object, and how many users outside the table hold on to it. -/
structure MonitorEntry where
  monitor : Monitor := {}
  holders : Nat := 0

/-- Whether the table is not the only one that knows the monitor. -/
def MonitorEntry.inUse (e : MonitorEntry) : Bool :=
  0 < e.holders || !e.monitor.suspended.entries.isEmpty

/-- Monitors by object, each made when it is first asked for. -/
abbrev MonitorTable := Table ObjectRef MonitorEntry

namespace MonitorTable

/-- The monitor of an object, a new one if it has none yet. -/
def entry (t : MonitorTable) (r : ObjectRef) : MonitorEntry := (t.get? r).getD {}

/-- The table in which an object has a monitor. -/
def touch (t : MonitorTable) (r : ObjectRef) : MonitorTable := t.insert r (t.entry r)

/-- Puts a monitor in the place of the one an object has. -/
def setMonitor (t : MonitorTable) (r : ObjectRef) (m : Monitor) : MonitorTable :=
  t.insert r { t.entry r with monitor := m }

/-- Drops the monitors of dead objects that nobody else knows. -/
def prune (t : MonitorTable) (live : ObjectRef → Bool) : MonitorTable :=
  t.filter fun r e => live r || e.inUse

end MonitorTable

end JavaMachine
