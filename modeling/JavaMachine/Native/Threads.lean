/-
# Natives of threads and monitors
-/
import JavaMachine.Native.Basic

namespace JavaMachine

namespace Builtin

/-! ## Threads -/

/-- Starts a thread for an object, and gives its handle; zero when the host refused. -/
def threadStart {W : Type} : Native W := fun p _ args => do
  let peer ← args.object 0
  match ← startThread p peer with
  | some t => return .long t.handle
  | none => return .long 0

/-- Interrupts the thread of a handle. A handle of no thread is ignored. -/
def threadInterrupt (args : Arguments) : Action Value := do
  let handle ← args.long 0
  match ThreadId.ofHandle? handle with
  | some t => Action.interrupt t
  | none => pure ()
  return .null

/-- The object that stands for the calling thread. -/
def threadCurrent {W : Type} : Native W := fun _ t _ => do
  return .reference (← (← Exec.machine).thread t).peer

/-! ## Monitors -/

/-- Waits on the monitor of an object. -/
def objectWait {W : Type} : Native W := fun _ t args => do
  let r ← args.object 0
  let millis ← args.long 1
  discard (Exec.onMachine (Action.wait t r millis))
  return .null

/-- Signals the longest-waiting thread on an object. -/
def objectNotify (args : Arguments) : Action Value := do
  Action.notify (← args.object 0)
  return .null

/-- Signals all threads that wait on an object. -/
def objectNotifyAll (args : Arguments) : Action Value := do
  Action.notifyAll (← args.object 0)
  return .null

end Builtin

end JavaMachine
