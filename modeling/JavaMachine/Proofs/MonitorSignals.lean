/-
# Signals of a monitor

A signal goes to the thread that has waited longest, and it ends the wait of that thread: each thread
that is suspended either stands in the queue or has had its signal (`Scene.Queued`), and a wait
returns `notified` exactly if a signal came while it was in its loop
(`Scene.notified_iff_of_run`), whether its thread was interrupted or its time has expired meanwhile.
A wait that ends for another reason has left the queue, so that the signals of others are not spent
on it.
-/
import JavaMachine.Proofs.MonitorOwnership

namespace JavaMachine

namespace Monitor

namespace Scene

variable {s s' : Scene} {e : Event} {events : List Event} {t u : ThreadId}

/-! ## The queue and the suspended threads -/

/-- The queue holds the suspended threads that have had no signal, in the order in which they were
suspended. -/
structure Queued (s : Scene) : Prop where
  mem_iff : ∀ t, t ∈ s.monitor.queue ↔
    ∃ x, s.monitor.suspended.get? t = some x ∧ x.signalled = false
  sorted : s.monitor.queue.Pairwise fun t u => s.since t < s.since u
  since_lt : ∀ t ∈ s.monitor.queue, s.since t < s.clock

/-- No thread is in the queue twice. -/
theorem Queued.nodup (hs : s.Queued) : s.monitor.queue.Nodup := by
  refine hs.sorted.imp ?_
  rintro t u hlt rfl
  omega

/-- A suspended thread is in the queue exactly if it has had no signal. -/
theorem Queued.mem_iff_of_get? (hs : s.Queued) {x : Suspension}
    (hx : s.monitor.suspended.get? t = some x) : t ∈ s.monitor.queue ↔ x.signalled = false := by
  rw [hs.mem_iff, hx]
  simp

/-- Whoever is in the queue is in a wait. -/
theorem Queued.inWait_of_mem (hs : s.Queued) (ht : t ∈ s.monitor.queue) : s.InWait t := by
  obtain ⟨x, hx, -⟩ := (hs.mem_iff t).mp ht
  exact Or.inl (by simp [hx])

theorem Queued.new : ({} : Scene).Queued where
  mem_iff t := by simp [Table.get?]
  sorted := List.Pairwise.nil
  since_lt t ht := by simp at ht

/-- A wait ends as notified exactly when it was signalled. -/
theorem waitOutcome?_eq_notified_iff {x : Suspension} {interrupted expired : Bool}
    {outcome : WaitOutcome} (h : waitOutcome? x interrupted expired = some outcome) :
    outcome = .notified ↔ x.signalled = true := by
  unfold waitOutcome? at h
  split at h
  · next hsignalled =>
    cases h
    simp [hsignalled]
  · next hsignalled =>
    split at h
    · cases h
      simpa using hsignalled
    · split at h <;> cases h
      simpa using hsignalled

/-- A wait that leaves its loop takes its own place out of the queue, if it still has one. -/
theorem Queued.queue_of_wake (hs : s.Queued) {x : Suspension} {interrupted expired : Bool}
    {outcome : WaitOutcome} (hx : s.monitor.suspended.get? t = some x)
    (houtcome : waitOutcome? x interrupted expired = some outcome) :
    (if outcome = .notified then s.monitor.queue else s.monitor.queue.filter (· ≠ t)) =
      s.monitor.queue.erase t := by
  have hiff := waitOutcome?_eq_notified_iff houtcome
  split
  · next hnotified =>
    have hout : t ∉ s.monitor.queue := by
      rw [hs.mem_iff_of_get? hx, hiff.mp hnotified]
      simp
    exact (List.erase_of_not_mem hout).symm
  · rw [hs.nodup.erase_eq_filter]
    refine List.filter_congr fun u _ => ?_
    by_cases hu : u = t <;> simp [hu]

/-- A thread that begins to wait stands behind all others, which have waited for longer. -/
theorem Queued.step_suspend (hs : s.Queued) (hout : ¬ s.InWait t) :
    Queued { s with
      monitor := s.monitor.beginWait t
      clock := s.clock + 1
      since := Function.update s.since t s.clock } := by
  have hnew : ∀ u ∈ s.monitor.queue, u ≠ t := by
    rintro u hu rfl
    exact hout (hs.inWait_of_mem hu)
  constructor
  case mem_iff =>
    intro u
    simp only [beginWait_eq, List.mem_append, List.mem_singleton, Table.get?_insert]
    by_cases hu : u = t
    · simp [hu]
    · simp [hu, hs.mem_iff u]
  case sorted =>
    simp only [beginWait_eq, List.pairwise_append]
    refine ⟨?_, List.pairwise_singleton .., ?_⟩
    · refine List.Pairwise.imp_of_mem ?_ hs.sorted
      intro u v hu hv hlt
      rwa [Function.update_of_ne (hnew u hu), Function.update_of_ne (hnew v hv)]
    · intro u hu v hv
      obtain rfl := List.mem_singleton.mp hv
      rw [Function.update_of_ne (hnew u hu), Function.update_self]
      exact hs.since_lt u hu
  case since_lt =>
    intro u hu
    simp only [beginWait_eq, List.mem_append, List.mem_singleton] at hu
    by_cases hut : u = t
    · simp [hut]
    · have hlt := hs.since_lt u (hu.resolve_right hut)
      simpa only [Function.update_of_ne hut] using Nat.lt_succ_of_lt hlt

theorem Queued.step_wake (hs : s.Queued) (t : ThreadId) (l : Leaving) :
    Queued { s with
      monitor :=
        { s.monitor with
          queue := s.monitor.queue.erase t
          suspended := s.monitor.suspended.erase t }
      leaving := s.leaving.insert t l } where
  mem_iff u := by
    simp only [hs.nodup.mem_erase_iff, Table.get?_erase, hs.mem_iff u]
    by_cases hu : u = t <;> simp [hu]
  sorted := hs.sorted.sublist List.erase_sublist
  since_lt u hu := hs.since_lt u (List.mem_of_mem_erase hu)

theorem Queued.step_notify (hs : s.Queued) :
    Queued { s with monitor := s.monitor.notify } where
  mem_iff u := by
    have hiff := hs.mem_iff u
    have hnodup := hs.nodup
    simp only [queue_notify, get?_notify]
    cases hqueue : s.monitor.queue with
    | nil => simpa [hqueue] using hiff
    | cons t rest =>
      rw [hqueue] at hiff hnodup
      -- The thread at the front is marked and gone, and stands nowhere else.
      by_cases hu : t = u
      · subst hu
        simpa using (List.nodup_cons.mp hnodup).1
      · simpa [hu, Ne.symm hu] using hiff
  sorted := by simpa using hs.sorted.sublist (List.tail_sublist _)
  since_lt u hu := by
    rw [queue_notify] at hu
    exact hs.since_lt u (List.mem_of_mem_tail hu)

theorem Queued.step_notifyAll (hs : s.Queued) :
    Queued { s with monitor := s.monitor.notifyAll } where
  mem_iff u := by
    have hiff := hs.mem_iff u
    simp only [queue_notifyAll, get?_notifyAll]
    by_cases hu : u ∈ s.monitor.queue
    · simp [hu]
    · simpa [hu] using hiff
  sorted := List.Pairwise.nil
  since_lt u hu := by simp at hu

/-- Every step keeps the queue in order. -/
theorem Queued.step (hs : s.Queued) (h : s.step? e = some s') : s'.Queued := by
  cases moves_of_step? h with
  | suspend hout hflag => exact hs.step_suspend hout
  | wake hx houtcome =>
    rw [hs.queue_of_wake hx houtcome]
    exact hs.step_wake ..
  | notify => exact hs.step_notify
  | notifyAll => exact hs.step_notifyAll
  | _ => exact ⟨hs.mem_iff, hs.sorted, hs.since_lt⟩

/-- The queue is in order in every scene that is reached. -/
theorem Reachable.queued (h : s.Reachable) : s.Queued :=
  h.induction Queued.new fun _ _ _ hstep hs => hs.step hstep

/-! ## Signals and waits -/

/-- The event signals the thread. -/
def Signals (s : Scene) (e : Event) (t : ThreadId) : Prop :=
  e = .notify ∧ s.monitor.queue.head? = some t ∨ e = .notifyAll ∧ t ∈ s.monitor.queue

/-- One of the events signals the thread when they happen one after the other. -/
def SignalledDuring (t : ThreadId) : Scene → List Event → Prop
  | _, [] => False
  | s, e :: events => s.Signals e t ∨ ∃ s', s.step? e = some s' ∧ SignalledDuring t s' events

theorem Signals.mem (h : s.Signals e t) : t ∈ s.monitor.queue := by
  rcases h with ⟨-, hhead⟩ | ⟨-, hmem⟩
  · exact List.mem_of_mem_head? hhead
  · exact hmem

theorem signalledDuring_cons (h : s.step? e = some s') :
    SignalledDuring t s (e :: events) ↔ s.Signals e t ∨ SignalledDuring t s' events := by
  simp [SignalledDuring, h]

/-- A step leaves a suspended thread suspended, and marks it if it signals it, unless it takes the
thread out of its loop. -/
theorem suspension_of_step (h : s.step? e = some s') {x : Suspension}
    (hx : s.monitor.suspended.get? t = some x) :
    (∃ x', s'.monitor.suspended.get? t = some x' ∧
      (x'.signalled = true ↔ x.signalled = true ∨ s.Signals e t)) ∨
    ∃ l, s'.leaving.get? t = some l ∧
      (l.outcome = .notified ↔ x.signalled = true ∨ s.Signals e t) := by
  have hin : s.InWait t := Or.inl (by simp [hx])
  cases moves_of_step? h with
  | @suspend u hout hflag =>
    have hu : t ≠ u := by
      rintro rfl
      exact hout hin
    refine Or.inl ⟨x, ?_, by simp [Signals]⟩
    simpa [beginWait_eq, Table.get?_insert, hu] using hx
  | @wake u expired y outcome hy houtcome =>
    by_cases hu : t = u
    · subst hu
      obtain rfl : x = y := Option.some.inj (hx.symm.trans hy)
      refine Or.inr ⟨⟨outcome, x.heldDepth⟩, by simp [Table.get?_insert], ?_⟩
      simpa [Signals] using waitOutcome?_eq_notified_iff houtcome
    · refine Or.inl ⟨x, ?_, by simp [Signals]⟩
      simpa [Table.get?_erase, hu] using hx
  | notify =>
    left
    rw [get?_notify, hx]
    by_cases hhead : s.monitor.queue.head? = some t
    · exact ⟨{ x with signalled := true }, by simp [hhead], by simp [Signals, hhead]⟩
    · exact ⟨x, by simp [hhead], by simp [Signals, hhead]⟩
  | notifyAll =>
    left
    rw [get?_notifyAll, hx]
    by_cases hmem : t ∈ s.monitor.queue
    · exact ⟨{ x with signalled := true }, by simp [hmem], by simp [Signals, hmem]⟩
    · exact ⟨x, by simp [hmem], by simp [Signals, hmem]⟩
  | _ => exact Or.inl ⟨x, hx, by simp [Signals]⟩

/-- A wait that has left its loop keeps its outcome until it returns. -/
theorem Owned.leaving_of_step (hs : s.Owned) (h : s.step? e = some s') (hfinish : e ≠ .finish t)
    {l : Leaving} (hl : s.leaving.get? t = some l) : s'.leaving.get? t = some l := by
  have hin : s.InWait t := Or.inr (by simp [hl])
  cases moves_of_step? h with
  | @decline u hout hflag =>
    have hu : t ≠ u := by
      rintro rfl
      exact hout hin
    simpa [Table.get?_insert, hu] using hl
  | @wake u expired x outcome hx houtcome =>
    have hu : t ≠ u := by
      rintro rfl
      simp [hs.apart t (by simp [hl])] at hx
    simpa [Table.get?_insert, hu] using hl
  | @finishFree u l' hl' hheld =>
    have hu : t ≠ u := fun hu => hfinish (hu ▸ rfl)
    simpa [Table.get?_erase, hu] using hl
  | @finishOwner u l' d hl' hheld howner =>
    have hu : t ≠ u := fun hu => hfinish (hu ▸ rfl)
    simpa [Table.get?_erase, hu] using hl
  | _ => exact hl

/-- A thread outside the queue gets into it by the beginning of a wait only. -/
theorem not_mem_of_step (h : s.step? e = some s') (hwait : e ≠ .wait t)
    (hout : t ∉ s.monitor.queue) : t ∉ s'.monitor.queue := by
  cases moves_of_step? h with
  | @suspend u _ hflag =>
    have hu : t ≠ u := fun hu => hwait (hu ▸ rfl)
    simp [beginWait_eq, hout, hu]
  | wake hx houtcome =>
    split
    · exact hout
    · simp [hout]
  | notify =>
    rw [queue_notify]
    exact fun hmem => hout (List.mem_of_mem_tail hmem)
  | notifyAll => simp
  | _ => exact hout

/-- No signal is spent on a thread outside the queue. -/
theorem not_signalledDuring (h : s.run? events = some s') (hwait : .wait t ∉ events)
    (hout : t ∉ s.monitor.queue) : ¬ SignalledDuring t s events := by
  induction events generalizing s with
  | nil => exact id
  | cons e events ih =>
    obtain ⟨s₁, hstep, hrun⟩ := Option.bind_eq_some_iff.mp (run?_cons.symm.trans h)
    rw [List.mem_cons, not_or] at hwait
    rw [signalledDuring_cons hstep, not_or]
    constructor
    · exact fun hsignals => hout hsignals.mem
    · exact ih hrun hwait.2 (not_mem_of_step hstep (Ne.symm hwait.1) hout)

/-- While the wait of a thread lasts, the thread begins no other wait. -/
theorem wait_not_mem (h : s.run? events = some s') (hin : s.InWait t)
    (hfinish : .finish t ∉ events) : .wait t ∉ events := by
  induction events generalizing s with
  | nil => simp
  | cons e events ih =>
    obtain ⟨s₁, hstep, hrun⟩ := Option.bind_eq_some_iff.mp (run?_cons.symm.trans h)
    rw [List.mem_cons, not_or] at hfinish ⊢
    refine ⟨Ne.symm (ne_wait_of_inWait hstep hin), ?_⟩
    exact ih hrun (inWait_of_step hstep (Ne.symm hfinish.1) hin) hfinish.2

/-- A wait that has left its loop keeps its outcome, and no signal is spent on it. -/
theorem leaving_of_run (ho : s.Owned) (hs : s.Queued) (h : s.run? events = some s')
    (hfinish : .finish t ∉ events) {l : Leaving} (hl : s.leaving.get? t = some l) :
    s'.leaving.get? t = some l ∧ ¬ SignalledDuring t s events := by
  have hout : t ∉ s.monitor.queue := by
    rw [hs.mem_iff, ho.apart t (by simp [hl])]
    simp
  have hwait : .wait t ∉ events := wait_not_mem h (Or.inr (by simp [hl])) hfinish
  refine ⟨?_, not_signalledDuring h hwait hout⟩
  have hkept : s'.Owned ∧ s'.leaving.get? t = some l := by
    refine run?_induction (P := fun x => x.Owned ∧ x.leaving.get? t = some l) ?_ ⟨ho, hl⟩ h
    rintro x x' e he hstep ⟨hx, hleaving⟩
    exact ⟨hx.step hstep, hx.leaving_of_step hstep (fun he' => hfinish (he' ▸ he)) hleaving⟩
  exact hkept.2

/-- A suspended thread leaves its loop `notified` exactly if it was signalled before. -/
theorem notified_iff_of_run (ho : s.Owned) (hs : s.Queued) (h : s.run? events = some s')
    (hfinish : .finish t ∉ events) {x : Suspension} (hx : s.monitor.suspended.get? t = some x)
    {l : Leaving} (hl : s'.leaving.get? t = some l) :
    l.outcome = .notified ↔ x.signalled = true ∨ SignalledDuring t s events := by
  induction events generalizing s x with
  | nil =>
    cases h
    simp [ho.apart t (by simp [hl])] at hx
  | cons e events ih =>
    obtain ⟨s₁, hstep, hrun⟩ := Option.bind_eq_some_iff.mp (run?_cons.symm.trans h)
    have hrest : .finish t ∉ events := fun hmem => hfinish (List.mem_cons_of_mem e hmem)
    rw [signalledDuring_cons hstep, ← or_assoc]
    rcases suspension_of_step hstep hx with ⟨x₁, hx₁, hiff⟩ | ⟨l₁, hl₁, hiff⟩
    · rw [ih (ho.step hstep) (hs.step hstep) hrun hrest hx₁, hiff]
    · obtain ⟨hlast, hnever⟩ := leaving_of_run (ho.step hstep) (hs.step hstep) hrun hrest hl₁
      obtain rfl : l₁ = l := Option.some.inj (hlast.symm.trans hl)
      simp [hiff, hnever]

/-- A call to wait returns `notified` exactly if its thread was signalled since it began. -/
theorem notified_iff_of_wait {s₁ s₂ : Scene} (hs : s.Reachable)
    (hwait : s.step? (.wait t) = some s₁) (hrun : s₁.run? events = some s₂)
    (hfinish : .finish t ∉ events) {l : Leaving} (hl : s₂.leaving.get? t = some l) :
    l.outcome = .notified ↔ SignalledDuring t s₁ events := by
  have ho := (hs.step hwait).owned
  have hq := (hs.step hwait).queued
  cases moves_of_step? hwait with
  | decline hout hflag =>
    obtain ⟨hlast, hnever⟩ := leaving_of_run (l := ⟨.interrupted, none⟩) ho hq hrun hfinish
      (by simp [Table.get?_insert])
    obtain rfl := Option.some.inj (hlast.symm.trans hl)
    simp [hnever]
  | suspend hout hflag =>
    rw [notified_iff_of_run (x := { heldDepth := s.monitor.depthOf t }) ho hq hrun hfinish
      (by simp [beginWait_eq, Table.get?_insert]) hl]
    simp

/-- A wait that leaves its loop takes its own place out of the queue, if it still has one, and leaves
the waits of other threads alone.  It has a place exactly if it was not signalled. -/
theorem Queued.wake_spec {expired : Bool} (hs : s.Queued)
    (h : s.step? (.wake t expired) = some s') :
    s'.monitor.queue = s.monitor.queue.erase t ∧
      (∀ u, u ≠ t → s'.monitor.suspended.get? u = s.monitor.suspended.get? u) ∧
      ∃ l, s'.leaving.get? t = some l ∧ (l.outcome = .notified ↔ t ∉ s.monitor.queue) := by
  cases moves_of_step? h with
  | @wake _ _ x outcome hx houtcome =>
    refine ⟨hs.queue_of_wake hx houtcome, ?_, ⟨outcome, x.heldDepth⟩, ?_, ?_⟩
    · intro u hu
      simp [Table.get?_erase, hu]
    · simp [Table.get?_insert]
    · rw [hs.mem_iff_of_get? hx, waitOutcome?_eq_notified_iff houtcome]
      simp

/-- **Signals of a monitor**, in every scene that threads can come to.  A suspended thread is in the
queue, once, or it has had its signal, and never both; `notify` signals the thread that was suspended
first of those in the queue and no other, and does nothing if there is none; `notifyAll` signals all
threads in the queue and no other; a wait returns `notified` exactly if its thread was signalled
before it left its loop; a wait that leaves its loop unsignalled takes its own place out of the queue
and no other, so that none of the signals that follow is spent on it; and a thread that was
interrupted before it waits takes no place. -/
theorem signals_of_reachable (hs : s.Reachable) :
    (∀ t x, s.monitor.suspended.get? t = some x →
      (t ∈ s.monitor.queue ↔ x.signalled = false)) ∧
    (∀ t ∈ s.monitor.queue, (s.monitor.suspended.get? t).isSome) ∧ s.monitor.queue.Nodup ∧
    (s.monitor.queue = [] → s.monitor.notify = s.monitor) ∧
    (∀ t rest, s.monitor.queue = t :: rest →
      (∀ u ∈ rest, s.since t < s.since u) ∧ s.monitor.notify.queue = rest ∧
      ∀ u, s.monitor.notify.suspended.get? u =
        if u = t then (s.monitor.suspended.get? u).map ({ · with signalled := true })
        else s.monitor.suspended.get? u) ∧
    (s.monitor.notifyAll.queue = [] ∧
      ∀ u, s.monitor.notifyAll.suspended.get? u =
        if u ∈ s.monitor.queue then
          (s.monitor.suspended.get? u).map ({ · with signalled := true })
        else s.monitor.suspended.get? u) ∧
    (∀ t s₁ events s₂ l, s.step? (.wait t) = some s₁ → s₁.run? events = some s₂ →
      .finish t ∉ events → s₂.leaving.get? t = some l →
        (l.outcome = .notified ↔ SignalledDuring t s₁ events)) ∧
    (∀ t expired s₁, s.step? (.wake t expired) = some s₁ →
      ∃ l, s₁.leaving.get? t = some l ∧
        (l.outcome = .notified → s₁.monitor.queue = s.monitor.queue) ∧
        (l.outcome ≠ .notified →
          t ∈ s.monitor.queue ∧ s₁.monitor.queue = s.monitor.queue.erase t) ∧
        (∀ u, u ≠ t → s₁.monitor.suspended.get? u = s.monitor.suspended.get? u) ∧
        ∀ events s₂, s₁.run? events = some s₂ → .wait t ∉ events →
          ¬ SignalledDuring t s₁ events) ∧
    (∀ t s₁, s.interrupted t → s.step? (.wait t) = some s₁ → s₁.monitor = s.monitor) := by
  have hq := hs.queued
  refine ⟨?_, ?_, hq.nodup, ?_, ?_, ⟨rfl, get?_notifyAll s.monitor⟩, ?_, ?_, ?_⟩
  · intro t x hx
    exact hq.mem_iff_of_get? hx
  · intro t ht
    obtain ⟨x, hx, -⟩ := (hq.mem_iff t).mp ht
    simp [hx]
  · intro hempty
    simp [notify, hempty]
  · intro t rest hqueue
    refine ⟨?_, by simp [hqueue], ?_⟩
    · have hsorted := hq.sorted
      rw [hqueue] at hsorted
      exact (List.pairwise_cons.mp hsorted).1
    · intro u
      rw [get?_notify, hqueue]
      simp [eq_comm]
  · intro t s₁ events s₂ l hwait hrun hfinish hl
    exact notified_iff_of_wait hs hwait hrun hfinish hl
  · intro t expired s₁ hwake
    obtain ⟨hqueue, hothers, l, hl, houtcome⟩ := hq.wake_spec hwake
    refine ⟨l, hl, ?_, ?_, hothers, ?_⟩
    · intro hnotified
      rw [hqueue, List.erase_of_not_mem (houtcome.mp hnotified)]
    · intro hnot
      exact ⟨by simpa using mt houtcome.mpr hnot, hqueue⟩
    · intro events s₂ hrun hwait
      refine not_signalledDuring hrun hwait ?_
      rw [hqueue, hq.nodup.mem_erase_iff]
      exact fun hmem => hmem.1 rfl
  · intro t s₁ hflag hwait
    cases moves_of_step? hwait with
    | decline => rfl
    | suspend hout hclear => simp [hflag] at hclear

/-- Two threads wait.  The first is interrupted and then signalled, and is notified; the time of the
second expires, and the signal is not lost on it. -/
theorem signals_of_two_threads :
    ∃ s₁ s₂ l, ({} : Scene).step? (.wait (.ofNumber 1)) = some s₁ ∧
      s₁.run? [.wait (.ofNumber 2), .interrupt (.ofNumber 1), .notify, .wake (.ofNumber 2) true,
        .wake (.ofNumber 1) false] = some s₂ ∧
      s₂.leaving.get? (.ofNumber 1) = some l ∧ l.outcome = .notified ∧
      SignalledDuring (.ofNumber 1) s₁ [.wait (.ofNumber 2), .interrupt (.ofNumber 1), .notify,
        .wake (.ofNumber 2) true, .wake (.ofNumber 1) false] := by
  have hall : (({} : Scene).run? (.wait (.ofNumber 1) :: [.wait (.ofNumber 2),
      .interrupt (.ofNumber 1), .notify, .wake (.ofNumber 2) true,
      .wake (.ofNumber 1) false])).map (fun s => s.leaving.get? (.ofNumber 1)) =
        some (some ⟨.notified, none⟩) := by
    decide +kernel
  obtain ⟨s₂, hrun, hl⟩ := Option.map_eq_some_iff.mp hall
  rw [run?_cons] at hrun
  obtain ⟨s₁, hwait, hrun⟩ := Option.bind_eq_some_iff.mp hrun
  refine ⟨s₁, s₂, _, hwait, hrun, hl, rfl, ?_⟩
  obtain ⟨-, -, -, -, -, -, hnotified, -⟩ := signals_of_reachable ⟨[], rfl⟩
  exact (hnotified _ _ _ _ _ hwait hrun (by decide +kernel) hl).mp rfl

end Scene

end Monitor

end JavaMachine
