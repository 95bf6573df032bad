/-
# Threads

A thread has a context: the object that stands for it, its stack of calls, at most one exception
left for the caller of a native method to look at, and the state that other threads see. The thread
table holds the contexts of the threads that have not ended; numbers are given out in order and
never again.
-/
import JavaMachine.Heap
import JavaMachine.Table

namespace JavaMachine

/-- What a thread is doing, as other threads see it. -/
inductive ThreadState where
  | active
  /-- Suspended in a wait. -/
  | idle
  /-- Holding the whole machine, to collect garbage. -/
  | exclusive
  | ended
deriving DecidableEq, Repr

/-- The context of a thread. -/
structure Thread where
  peer : Option ObjectRef
  /-- The calls under way, the innermost first. -/
  frames : List Frame := []
  pending : Option Throwable := none
  state : ThreadState := .active
  interrupted : Bool := false

namespace Thread

/-- Opens a call. -/
def pushFrame (t : Thread) (m : Method) : Thread := { t with frames := ⟨m, 0⟩ :: t.frames }

/-- Closes the innermost call. -/
def popFrame (t : Thread) : Thread := { t with frames := t.frames.tail }

/-- Records how far the innermost call has come. -/
def setIp (t : Thread) (ip : Nat) : Thread :=
  match t.frames with
  | [] => t
  | f :: rest => { t with frames := { f with ip } :: rest }

end Thread

/-- The contexts of the threads that have not ended. -/
structure ThreadTable where
  contexts : Table ThreadId Thread := {}
  /-- The number of the next thread. -/
  next : UInt64 := 1

namespace ThreadTable

/-- Adds the context of a new thread. -/
def attach (t : ThreadTable) (peer : Option ObjectRef) : ThreadTable × ThreadId :=
  let id := ThreadId.ofNumber t.next
  ({ contexts := t.contexts.insert id { peer }, next := t.next + 1 }, id)

/-- Removes a context. -/
def forget (t : ThreadTable) (id : ThreadId) : ThreadTable :=
  { t with contexts := t.contexts.erase id }

/-- The number of threads that have not ended. -/
def size (t : ThreadTable) : Nat := t.contexts.size

end ThreadTable

end JavaMachine
