/-
# Threads at a monitor

Any number of threads use one monitor.  What a thread does under the lock of the monitor is one step,
and the steps of all threads follow each other in any order (`Monitor.Scene.step?`).  A call that waits
takes three steps: it begins, which suspends the thread unless its interrupt flag is set; it leaves its
loop for a signal, an interrupt or the end of its time; and it returns once it has its ownership back.
Interrupt flags are set and cleared at any moment.

`Monitor.Scene.Moves` says once what a step can do, and all that is kept by steps is proved from it.
-/
import JavaMachine.Monitor
import Mathlib.Logic.Function.Basic

namespace JavaMachine

namespace Monitor

/-! ## Parts of a monitor after an operation -/

/-- How deep a thread owns the monitor, if it does. -/
def depthOf (m : Monitor) (t : ThreadId) : Option Nat :=
  if m.owner = some t then some m.depth else none

/-- A thread that begins to wait gives the monitor up and goes to the end of the queue. -/
theorem beginWait_eq (m : Monitor) (t : ThreadId) :
    m.beginWait t =
      { owner := if m.owner = some t then none else m.owner
        depth := if m.owner = some t then 0 else m.depth
        queue := m.queue ++ [t]
        suspended := m.suspended.insert t { heldDepth := m.depthOf t } } := by
  unfold beginWait depthOf isOwnedBy
  by_cases h : m.owner = some t <;> simp [h]

/-- A thread that is signalled is marked, and nothing else changes. -/
theorem get?_signal (x : Table ThreadId Suspension) (t u : ThreadId) :
    (signal x t).get? u =
      if u = t then (x.get? t).map ({ · with signalled := true }) else x.get? u :=
  Table.get?_modify ..

/-- Signals to some threads mark the suspensions of these. -/
theorem get?_foldl_signal (l : List ThreadId) (x : Table ThreadId Suspension) (u : ThreadId) :
    (l.foldl signal x).get? u =
      if u ∈ l then (x.get? u).map ({ · with signalled := true }) else x.get? u := by
  induction l generalizing x with
  | nil => simp
  | cons t l ih =>
    rw [List.foldl_cons, ih, get?_signal]
    by_cases hu : u = t
    · subst hu
      by_cases hl : u ∈ l <;> simp [hl, Function.comp_def]
    · simp [hu]

/-- A signal marks the suspension of the thread at the front of the queue. -/
theorem get?_notify (m : Monitor) (u : ThreadId) :
    m.notify.suspended.get? u =
      if m.queue.head? = some u then (m.suspended.get? u).map ({ · with signalled := true })
      else m.suspended.get? u := by
  unfold notify
  cases m.queue with
  | nil => simp
  | cons t queue =>
    rw [List.head?_cons, get?_signal]
    by_cases hu : u = t
    · simp [hu]
    · simp [hu, Ne.symm hu]

/-- A signal to all marks the suspensions of all threads in the queue. -/
theorem get?_notifyAll (m : Monitor) (u : ThreadId) :
    m.notifyAll.suspended.get? u =
      if u ∈ m.queue then (m.suspended.get? u).map ({ · with signalled := true })
      else m.suspended.get? u :=
  get?_foldl_signal ..

/-- Whoever signals stays the owner. -/
@[simp] theorem owner_notify (m : Monitor) : m.notify.owner = m.owner := by
  unfold notify
  split <;> rfl

@[simp] theorem depth_notify (m : Monitor) : m.notify.depth = m.depth := by
  unfold notify
  split <;> rfl

/-- The thread at the front of the queue leaves it. -/
@[simp] theorem queue_notify (m : Monitor) : m.notify.queue = m.queue.tail := by
  unfold notify
  split
  · next h => simp [h]
  · next h => simp [h]

@[simp] theorem queue_notifyAll (m : Monitor) : m.notifyAll.queue = [] := rfl

/-- Signals change nothing of a suspension but its mark. -/
theorem heldDepth_notify (m : Monitor) (u : ThreadId) :
    (m.notify.suspended.get? u).map Suspension.heldDepth =
      (m.suspended.get? u).map Suspension.heldDepth := by
  rw [get?_notify]
  split <;> simp [Function.comp_def]

/-- Signals to all change nothing of a suspension but its mark. -/
theorem heldDepth_notifyAll (m : Monitor) (u : ThreadId) :
    (m.notifyAll.suspended.get? u).map Suspension.heldDepth =
      (m.suspended.get? u).map Suspension.heldDepth := by
  rw [get?_notifyAll]
  split <;> simp [Function.comp_def]

/-- A thread that is signalled stays suspended. -/
@[simp] theorem isSome_get?_notify (m : Monitor) (u : ThreadId) :
    (m.notify.suspended.get? u).isSome = (m.suspended.get? u).isSome := by
  simpa using congrArg Option.isSome (heldDepth_notify m u)

/-- Threads that are signalled stay suspended. -/
@[simp] theorem isSome_get?_notifyAll (m : Monitor) (u : ThreadId) :
    (m.notifyAll.suspended.get? u).isSome = (m.suspended.get? u).isSome := by
  simpa using congrArg Option.isSome (heldDepth_notifyAll m u)

/-! ## Scenes -/

/-- A wait that has left its loop: why it ended, and how deep the thread has to own the monitor again
before it returns. -/
structure Leaving where
  outcome : WaitOutcome
  heldDepth : Option Nat
deriving DecidableEq

/-- A monitor with the threads around it. -/
structure Scene where
  monitor : Monitor := {}
  interrupted : ThreadId → Bool := fun _ => false
  /-- The waits that have left their loop and have not returned. -/
  leaving : Table ThreadId Leaving := {}
  /-- How often a thread was suspended so far. -/
  clock : Nat := 0
  /-- What the clock showed when a thread was suspended last. -/
  since : ThreadId → Nat := fun _ => 0

/-- What happens at a monitor. -/
inductive Event where
  | enter (t : ThreadId)
  | exit (t : ThreadId)
  /-- A call that waits begins. -/
  | wait (t : ThreadId)
  /-- A wait leaves its loop.  It does so without a look at the interrupt flag when its time has
  expired. -/
  | wake (t : ThreadId) (expired : Bool)
  /-- A call that waits returns. -/
  | finish (t : ThreadId)
  | notify
  | notifyAll
  | interrupt (t : ThreadId)
  | clearInterrupt (t : ThreadId)
deriving DecidableEq

namespace Scene

/-- The thread is in a call that waits. -/
def InWait (s : Scene) (t : ThreadId) : Prop :=
  (s.monitor.suspended.get? t).isSome ∨ (s.leaving.get? t).isSome

instance (s : Scene) (t : ThreadId) : Decidable (s.InWait t) :=
  inferInstanceAs (Decidable (_ ∨ _))

/-- The scene after an event, if it can happen.  A thread that waits does nothing else. -/
def step? (s : Scene) : Event → Option Scene
  | .enter t =>
    if s.InWait t then none
    else (s.monitor.enter? t).map fun m => { s with monitor := m }
  | .exit t =>
    if s.InWait t then none
    else some { s with monitor := (s.monitor.exit t).1 }
  | .wait t =>
    if s.InWait t then none
    else if s.interrupted t then
      some { s with leaving := s.leaving.insert t ⟨.interrupted, none⟩ }
    else
      some { s with
        monitor := s.monitor.beginWait t
        clock := s.clock + 1
        since := Function.update s.since t s.clock }
  | .wake t expired =>
    (s.monitor.endWait? t (!expired && s.interrupted t) expired).map fun (m, outcome, heldDepth) =>
      { s with monitor := m, leaving := s.leaving.insert t ⟨outcome, heldDepth⟩ }
  | .finish t =>
    (s.leaving.get? t).bind fun l =>
      (s.monitor.reacquire? t l.heldDepth).map fun m =>
        { s with monitor := m, leaving := s.leaving.erase t }
  | .notify => some { s with monitor := s.monitor.notify }
  | .notifyAll => some { s with monitor := s.monitor.notifyAll }
  | .interrupt t => some { s with interrupted := Function.update s.interrupted t true }
  | .clearInterrupt t => some { s with interrupted := Function.update s.interrupted t false }

/-- The scene after some events, if they can happen one after the other. -/
def run? (s : Scene) (events : List Event) : Option Scene := events.foldlM step? s

/-- Events lead from a monitor that nobody uses to this scene. -/
def Reachable (s : Scene) : Prop := ∃ events, ({} : Scene).run? events = some s

/-! ## What a step does -/

/-- The ways in which an event changes a scene. -/
inductive Moves (s : Scene) : Event → Scene → Prop
  | enterFree {t : ThreadId} (hout : ¬ s.InWait t) (howner : s.monitor.owner = none) :
      Moves s (.enter t) { s with monitor := { s.monitor with owner := some t, depth := 1 } }
  | enterAgain {t : ThreadId} (hout : ¬ s.InWait t) (howner : s.monitor.owner = some t) :
      Moves s (.enter t) { s with monitor := { s.monitor with depth := s.monitor.depth + 1 } }
  | exitLast {t : ThreadId} (hout : ¬ s.InWait t) (howner : s.monitor.owner = some t)
      (hdepth : s.monitor.depth ≤ 1) :
      Moves s (.exit t) { s with monitor := { s.monitor with owner := none, depth := 0 } }
  | exitOnce {t : ThreadId} (hout : ¬ s.InWait t) (howner : s.monitor.owner = some t)
      (hdepth : 1 < s.monitor.depth) :
      Moves s (.exit t) { s with monitor := { s.monitor with depth := s.monitor.depth - 1 } }
  | exitOther {t : ThreadId} (hout : ¬ s.InWait t) (howner : s.monitor.owner ≠ some t) :
      Moves s (.exit t) s
  | decline {t : ThreadId} (hout : ¬ s.InWait t) (hflag : s.interrupted t = true) :
      Moves s (.wait t) { s with leaving := s.leaving.insert t ⟨.interrupted, none⟩ }
  | suspend {t : ThreadId} (hout : ¬ s.InWait t) (hflag : s.interrupted t = false) :
      Moves s (.wait t)
        { s with
          monitor := s.monitor.beginWait t
          clock := s.clock + 1
          since := Function.update s.since t s.clock }
  | wake {t : ThreadId} {expired : Bool} {x : Suspension} {outcome : WaitOutcome}
      (hx : s.monitor.suspended.get? t = some x)
      (houtcome : waitOutcome? x (!expired && s.interrupted t) expired = some outcome) :
      Moves s (.wake t expired)
        { s with
          monitor :=
            { s.monitor with
              queue :=
                if outcome = .notified then s.monitor.queue else s.monitor.queue.filter (· ≠ t)
              suspended := s.monitor.suspended.erase t }
          leaving := s.leaving.insert t ⟨outcome, x.heldDepth⟩ }
  | finishFree {t : ThreadId} {l : Leaving} (hl : s.leaving.get? t = some l)
      (hheld : l.heldDepth = none) :
      Moves s (.finish t) { s with leaving := s.leaving.erase t }
  | finishOwner {t : ThreadId} {l : Leaving} {d : Nat} (hl : s.leaving.get? t = some l)
      (hheld : l.heldDepth = some d) (howner : s.monitor.owner = none) :
      Moves s (.finish t)
        { s with
          monitor := { s.monitor with owner := some t, depth := d }
          leaving := s.leaving.erase t }
  | notify : Moves s .notify { s with monitor := s.monitor.notify }
  | notifyAll : Moves s .notifyAll { s with monitor := s.monitor.notifyAll }
  | interrupt {t : ThreadId} :
      Moves s (.interrupt t) { s with interrupted := Function.update s.interrupted t true }
  | clearInterrupt {t : ThreadId} :
      Moves s (.clearInterrupt t) { s with interrupted := Function.update s.interrupted t false }

variable {s s' s'' : Scene} {e : Event} {t : ThreadId}

/-- A thread enters a monitor that is free, or its own. -/
theorem moves_of_enter (h : s.step? (.enter t) = some s') : s.Moves (.enter t) s' := by
  rw [step?] at h
  split at h
  · cases h
  · next hout =>
    obtain ⟨m, hm, rfl⟩ := Option.map_eq_some_iff.mp h
    unfold Monitor.enter? at hm
    split at hm
    · next howner =>
      cases hm
      exact .enterFree hout howner
    · next o howner =>
      split at hm
      · next ho =>
        cases hm
        exact .enterAgain hout (ho ▸ howner)
      · cases hm

/-- A thread leaves a monitor, whether it is its own or not. -/
theorem moves_of_exit (h : s.step? (.exit t) = some s') : s.Moves (.exit t) s' := by
  rw [step?] at h
  split at h
  · cases h
  · next hout =>
    cases h
    unfold Monitor.exit
    by_cases howned : s.monitor.isOwnedBy t = true
    · have howner : s.monitor.owner = some t := of_decide_eq_true howned
      rw [if_pos howned]
      split
      · next hdepth => exact .exitLast hout howner hdepth
      · next hdepth => exact .exitOnce hout howner (by omega)
    · have howner : s.monitor.owner ≠ some t := fun ho => howned (decide_eq_true ho)
      rw [if_neg howned]
      exact .exitOther hout howner

/-- A thread that waits is suspended, if it was not interrupted before. -/
theorem moves_of_wait (h : s.step? (.wait t) = some s') : s.Moves (.wait t) s' := by
  rw [step?] at h
  split at h
  · cases h
  · next hout =>
    split at h
    · next hflag =>
      cases h
      exact .decline hout hflag
    · next hflag =>
      cases h
      exact .suspend hout (Bool.eq_false_iff.mpr hflag)

/-- A thread wakes up with a reason. -/
theorem moves_of_wake {expired : Bool} (h : s.step? (.wake t expired) = some s') :
    s.Moves (.wake t expired) s' := by
  obtain ⟨⟨m, outcome, held⟩, hend, rfl⟩ := Option.map_eq_some_iff.mp h
  obtain ⟨x, hx, hend⟩ := Option.bind_eq_some_iff.mp hend
  obtain ⟨o, ho, hend⟩ := Option.bind_eq_some_iff.mp hend
  cases hend
  exact .wake hx ho

/-- A wait returns when the thread has got back what it owned. -/
theorem moves_of_finish (h : s.step? (.finish t) = some s') : s.Moves (.finish t) s' := by
  obtain ⟨l, hl, h⟩ := Option.bind_eq_some_iff.mp h
  obtain ⟨m, hm, rfl⟩ := Option.map_eq_some_iff.mp h
  unfold reacquire? at hm
  split at hm
  · next hheld =>
    cases hm
    exact .finishFree hl hheld
  · next d hheld =>
    split at hm
    · next howner =>
      cases hm
      exact .finishOwner hl hheld howner
    · cases hm

/-- A step is one of these moves. -/
theorem moves_of_step? (h : s.step? e = some s') : s.Moves e s' := by
  cases e with
  | enter t => exact moves_of_enter h
  | exit t => exact moves_of_exit h
  | wait t => exact moves_of_wait h
  | wake t expired => exact moves_of_wake h
  | finish t => exact moves_of_finish h
  | notify => cases h; exact .notify
  | notifyAll => cases h; exact .notifyAll
  | interrupt t => cases h; exact .interrupt
  | clearInterrupt t => cases h; exact .clearInterrupt

/-- A thread that waits begins no other wait. -/
theorem ne_wait_of_inWait (h : s.step? e = some s') (hin : s.InWait t) : e ≠ .wait t := by
  rintro rfl
  simp [step?, hin] at h

/-! ## Runs -/

/-- A run is a step, and then a run. -/
theorem run?_cons {events : List Event} :
    s.run? (e :: events) = (s.step? e).bind fun s' => s'.run? events := rfl

theorem run?_singleton : s.run? [e] = s.step? e := by
  rw [run?_cons]
  cases s.step? e <;> rfl

/-- Runs go on from where others end. -/
theorem run?_append {before after : List Event} :
    s.run? (before ++ after) = (s.run? before).bind fun s' => s'.run? after := by
  unfold run?
  rw [List.foldlM_append]
  rfl

/-- What every step keeps, a run keeps. -/
theorem run?_induction {P : Scene → Prop} {events : List Event}
    (hstep : ∀ s s' e, e ∈ events → s.step? e = some s' → P s → P s') (hs : P s)
    (h : s.run? events = some s') : P s' := by
  induction events generalizing s with
  | nil =>
    cases h
    exact hs
  | cons e events ih =>
    rw [run?_cons] at h
    obtain ⟨s₁, hfirst, hrest⟩ := Option.bind_eq_some_iff.mp h
    refine ih (fun s s' e' he' => hstep s s' e' (List.mem_cons_of_mem e he')) ?_ hrest
    exact hstep s s₁ e List.mem_cons_self hfirst hs

/-- What holds at the beginning and is kept by every step holds in every reachable scene. -/
theorem Reachable.induction {P : Scene → Prop} (hnew : P {})
    (hstep : ∀ s s' e, s.step? e = some s' → P s → P s') (h : s.Reachable) : P s := by
  obtain ⟨events, hrun⟩ := h
  exact run?_induction (fun s s' e _ => hstep s s' e) hnew hrun

/-- A run goes on from a reachable scene to a reachable one. -/
theorem Reachable.run {events : List Event} (h : s.Reachable) (hrun : s.run? events = some s') :
    s'.Reachable := by
  obtain ⟨before, hbefore⟩ := h
  exact ⟨before ++ events, by rw [run?_append, hbefore]; exact hrun⟩

/-- What follows a scene that is reachable is reachable. -/
theorem Reachable.step (h : s.Reachable) (hstep : s.step? e = some s') : s'.Reachable :=
  h.run (run?_singleton.trans hstep)

end Scene

end Monitor

end JavaMachine
