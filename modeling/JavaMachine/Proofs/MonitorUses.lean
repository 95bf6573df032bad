/-
# Uses of a monitor

Threads ask for the monitor of an object, enter and leave it, wait on it and signal through it, and
what is outside of the machine may hold on to it (`MonitorUse`).  A use changes contexts of threads and
the one entry that the object has among the monitors (`Machine.UsesMonitor`): every class, every object
and every other monitor stays as it is.
-/
import JavaMachine.Machine.Threads
import JavaMachine.Proofs.Effects

namespace JavaMachine

/-! ## What a use leaves alone -/

/-- From one machine to another, at most threads and the monitor of one object have changed. -/
structure Machine.UsesMonitor (r : ObjectRef) (m m' : Machine) : Prop where
  classes : m'.classes = m.classes
  heap : m'.heap = m.heap
  others : ∀ k, k ≠ r → m'.monitors.get? k = m.monitors.get? k
  nodup : m.monitors.keys.Nodup → m'.monitors.keys.Nodup

namespace Machine

variable {m m' : Machine} {r : ObjectRef}

instance : IsPreorder Machine (UsesMonitor r) where
  refl _ := ⟨rfl, rfl, fun _ _ => rfl, id⟩
  trans _ _ _ h h' := {
    classes := h'.classes.trans h.classes
    heap := h'.heap.trans h.heap
    others := fun k hk => (h'.others k hk).trans (h.others k hk)
    nodup := h'.nodup ∘ h.nodup }

/-- What is no class, no object and no monitor may change. -/
theorem usesMonitor_of_eq (hclasses : m'.classes = m.classes) (hheap : m'.heap = m.heap)
    (hmonitors : m'.monitors = m.monitors) : UsesMonitor r m m' :=
  ⟨hclasses, hheap, fun _ _ => by rw [hmonitors], fun h => hmonitors ▸ h⟩

/-- A monitor may be given to the object. -/
theorem usesMonitor_insert (m : Machine) (r : ObjectRef) (e : MonitorEntry) :
    UsesMonitor r m { m with monitors := m.monitors.insert r e } where
  classes := rfl
  heap := rfl
  others k hk := by
    show (m.monitors.insert r e).get? k = _
    rw [Table.get?_insert, if_neg hk]
  nodup h := Table.nodup_keys_insert h r e

/-- The monitor of the object may change. -/
theorem usesMonitor_modify (m : Machine) (r : ObjectRef) (f : MonitorEntry → MonitorEntry) :
    UsesMonitor r m { m with monitors := m.monitors.modify r f } where
  classes := rfl
  heap := rfl
  others k hk := by
    show (m.monitors.modify r f).get? k = _
    rw [Table.get?_modify, if_neg hk]
  nodup h := by
    show (m.monitors.modify r f).keys.Nodup
    rw [Table.keys_modify]
    exact h

/-- Only the object whose monitor is used can come to have one. -/
theorem UsesMonitor.mem_keys (h : UsesMonitor r m m') {k : ObjectRef}
    (hk : k ∈ m'.monitors.keys) : k = r ∨ k ∈ m.monitors.keys := by
  by_cases hkr : k = r
  · exact Or.inl hkr
  · rw [← Table.isSome_get?_iff, h.others k hkr, Table.isSome_get?_iff] at hk
    exact Or.inr hk

end Machine

/-! ## Uses -/

/-- What can be done with the monitor of an object. -/
inductive MonitorUse where
  | ask
  | enter (t : ThreadId)
  | exit (t : ThreadId)
  | wait (t : ThreadId) (millis : Int64)
  | suspend (t : ThreadId)
  | resume (t : ThreadId) (expired : Bool)
  | notify
  | notifyAll
  | hold
  | release
deriving DecidableEq

/-- Uses the monitor of an object. -/
def MonitorUse.run (r : ObjectRef) : MonitorUse → Action Unit
  | ask => discard (Action.monitor r)
  | enter t => Action.enterMonitor t r
  | exit t => discard (Action.exitMonitor t r)
  | wait t millis => discard (Action.wait t r millis)
  | suspend t => Action.suspend t r
  | resume t expired => discard (Action.resume t r expired)
  | notify => Action.notify r
  | notifyAll => Action.notifyAll r
  | hold => Action.holdMonitor r
  | release => Action.releaseMonitor r

namespace Action

open Machine (UsesMonitor)

variable {m : Machine} {t : ThreadId} {r : ObjectRef}

/-- The state of a thread is kept in its context. -/
theorem uses_setState (t : ThreadId) (s : ThreadState) :
    Follows (UsesMonitor r) m (setState t s) := by
  refine takes_get_bind (takes_lift_bind fun x _ => ?_)
  exact Follows.bind_pure (takes_modify (Machine.usesMonitor_of_eq rfl rfl rfl) trivial)

/-- Looking a monitor up makes it, if it is not there. -/
theorem uses_monitor : Follows (UsesMonitor r) m (monitor r) := by
  refine Follows.bind (takes_modify (Machine.usesMonitor_insert ..) trivial) fun _ m₁ => ?_
  exact takes_get_bind (takes_pure trivial)

theorem uses_setMonitor (x : Monitor) : Follows (UsesMonitor r) m (setMonitor r x) :=
  takes_modify (Machine.usesMonitor_insert ..) trivial

/-- Whoever holds on to a monitor is counted with it. -/
theorem uses_holdMonitor : Follows (UsesMonitor r) m (holdMonitor r) :=
  Follows.bind uses_monitor.discard
    fun _ _ => takes_modify (Machine.usesMonitor_modify ..) trivial

/-- Whoever lets go of a monitor is no longer counted. -/
theorem uses_releaseMonitor : Follows (UsesMonitor r) m (releaseMonitor r) :=
  takes_modify (Machine.usesMonitor_modify ..) trivial

/-- Entering makes the thread the owner, or blocks it. -/
theorem uses_enterMonitor : Follows (UsesMonitor r) m (enterMonitor t r) := by
  refine Follows.bind uses_monitor fun x m₁ => ?_
  split
  · exact uses_setMonitor _
  · exact takes_throw _

/-- Leaving changes the owner, and tells whether it was the thread. -/
theorem uses_exitMonitor : Follows (UsesMonitor r) m (exitMonitor t r) :=
  Follows.bind uses_monitor fun _ _ => (uses_setMonitor _).bind_pure

/-- A signal takes one thread out of the queue. -/
theorem uses_notify : Follows (UsesMonitor r) m (notify r) :=
  Follows.bind uses_monitor fun _ _ => uses_setMonitor _

/-- A signal to all threads empties the queue. -/
theorem uses_notifyAll : Follows (UsesMonitor r) m (notifyAll r) :=
  Follows.bind uses_monitor fun _ _ => uses_setMonitor _

/-- A thread that waits gives the monitor up. -/
theorem uses_suspend : Follows (UsesMonitor r) m (suspend t r) :=
  Follows.bind uses_monitor fun _ _ => uses_setMonitor _

/-- A thread that goes on takes the monitor back. -/
theorem uses_resume (expired : Bool) : Follows (UsesMonitor r) m (resume t r expired) := by
  refine takes_get_bind (takes_lift_bind fun x _ => Follows.bind uses_monitor fun y m₁ => ?_)
  split
  · exact takes_throw _
  · split
    · exact takes_throw _
    · exact (uses_setMonitor _).bind_pure

/-- Waiting gives the monitor up, blocks the thread and takes the monitor back. -/
theorem uses_wait (millis : Int64) : Follows (UsesMonitor r) m (wait t r millis) := by
  refine takes_liftThrowable_bind fun _ _ => Follows.bind uses_monitor.discard fun _ m₁ => ?_
  refine Follows.bind (uses_setState t .idle) fun previous m₂ => ?_
  have hend : ∀ (outcome : WaitOutcome) (m : Machine), Follows (UsesMonitor r) m
      (discard (setState t previous) >>= fun _ => pure outcome : Action WaitOutcome) :=
    fun _ _ => Follows.bind_pure (uses_setState t previous).discard
  refine takes_get_bind (takes_lift_bind fun x _ => ?_)
  dsimp only
  split
  · exact hend ..
  · refine Follows.bind uses_suspend fun _ m₃ => ?_
    exact (uses_resume _).bind fun outcome m₄ => hend outcome m₄

/-- Whatever is done with a monitor uses that monitor alone. -/
theorem uses_run (u : MonitorUse) : Follows (UsesMonitor r) m (u.run r) := by
  cases u with
  | ask => exact uses_monitor.discard
  | enter t => exact uses_enterMonitor
  | exit t => exact uses_exitMonitor.discard
  | wait t millis => exact (uses_wait millis).discard
  | suspend t => exact uses_suspend
  | resume t expired => exact (uses_resume expired).discard
  | notify => exact uses_notify
  | notifyAll => exact uses_notifyAll
  | hold => exact uses_holdMonitor
  | release => exact uses_releaseMonitor

end Action

end JavaMachine
