/-
# Ownership of a monitor

However the steps of threads follow each other, a monitor is owned at a positive depth or not at all,
and passes from one thread to another only by way of being free.  A wait gives the ownership up that
its thread had when it began, and no other; what it has to give back stays the same for as long as it
lasts (`Scene.held?_of_run`), and it returns with just that (`ownership_of_reachable`).

Depths are counted without a bound.
-/
import JavaMachine.Proofs.MonitorRuns

namespace JavaMachine

namespace Monitor

/-- Two monitors have the same owner at the same depth. -/
def SameOwner (m m' : Monitor) : Prop := m'.owner = m.owner ∧ m'.depth = m.depth

namespace Scene

/-! ## What a wait has to give back -/

/-- How deep the thread has to own the monitor when its wait returns: the outer `none` is for a thread
that is in no wait, and the inner one for a wait with no ownership to give back. -/
def held? (s : Scene) (t : ThreadId) : Option (Option Nat) :=
  ((s.monitor.suspended.get? t).map Suspension.heldDepth).or
    ((s.leaving.get? t).map Leaving.heldDepth)

variable {s s' : Scene} {e : Event} {t u : ThreadId}

/-- A thread has something to get back exactly while it is in a wait. -/
theorem isSome_held?_iff : (s.held? t).isSome ↔ s.InWait t := by
  unfold held? InWait
  cases s.monitor.suspended.get? t <;> cases s.leaving.get? t <;> simp

theorem held?_eq_none_iff : s.held? t = none ↔ ¬ s.InWait t := by
  rw [← isSome_held?_iff, Option.not_isSome_iff_eq_none]

/-- Only the beginning and the return of its own wait change what a thread has to get back. -/
theorem held?_of_step (h : s.step? e = some s') (hwait : e ≠ .wait t) (hfinish : e ≠ .finish t) :
    s'.held? t = s.held? t := by
  cases moves_of_step? h with
  | @decline u hout hflag =>
    have hu : t ≠ u := fun hu => hwait (hu ▸ rfl)
    simp [held?, Table.get?_insert, hu]
  | @suspend u hout hflag =>
    have hu : t ≠ u := fun hu => hwait (hu ▸ rfl)
    simp [held?, beginWait_eq, Table.get?_insert, hu]
  | @wake u expired x outcome hx houtcome =>
    by_cases hu : t = u
    · subst hu
      simp [held?, Table.get?_insert, Table.get?_erase, hx]
    · simp [held?, Table.get?_insert, Table.get?_erase, hu]
  | @finishFree u l hl hheld =>
    have hu : t ≠ u := fun hu => hfinish (hu ▸ rfl)
    simp [held?, Table.get?_erase, hu]
  | @finishOwner u l d hl hheld howner =>
    have hu : t ≠ u := fun hu => hfinish (hu ▸ rfl)
    simp [held?, Table.get?_erase, hu]
  | notify => simp [held?, heldDepth_notify]
  | notifyAll => simp [held?, heldDepth_notifyAll]
  | _ => rfl

/-- A wait begins with the depth at which its thread owns the monitor to give back, and with none if
the thread was interrupted before. -/
theorem held?_of_wait (h : s.step? (.wait t) = some s') :
    s'.held? t = some (if s.interrupted t then none else s.monitor.depthOf t) := by
  cases moves_of_step? h with
  | decline hout hflag =>
    have hfree : s.monitor.suspended.get? t = none := by
      simpa using not_or.mp hout |>.1
    simp [held?, Table.get?_insert, hfree, hflag]
  | suspend hout hflag => simp [held?, beginWait_eq, Table.get?_insert, hflag]

/-- While a wait lasts, what it has to give back stays the same. -/
theorem held?_of_run {events : List Event} {held : Option Nat} (h : s.run? events = some s')
    (hfinish : .finish t ∉ events) (hheld : s.held? t = some held) : s'.held? t = some held := by
  refine run?_induction (P := fun s => s.held? t = some held) ?_ hheld h
  intro s s' e he hstep hheld
  have hin : s.InWait t := isSome_held?_iff.mp (by simp [hheld])
  rw [held?_of_step hstep (ne_wait_of_inWait hstep hin) fun he' => hfinish (he' ▸ he), hheld]

/-- A wait ends with its own last step only. -/
theorem inWait_of_step (h : s.step? e = some s') (hfinish : e ≠ .finish t) (hin : s.InWait t) :
    s'.InWait t := by
  rw [← isSome_held?_iff, held?_of_step h (ne_wait_of_inWait h hin) hfinish]
  exact isSome_held?_iff.mpr hin

/-! ## Threads that are away -/

/-- The thread is suspended, or it has an ownership to get back. -/
def Away (s : Scene) (t : ThreadId) : Prop :=
  (s.monitor.suspended.get? t).isSome ∨ ∃ d, s.held? t = some (some d)

theorem Away.inWait (h : s.Away t) : s.InWait t := by
  rcases h with hsuspended | ⟨d, hheld⟩
  · exact Or.inl hsuspended
  · exact isSome_held?_iff.mp (by simp [hheld])

/-- Only the beginning of a wait suspends its thread. -/
theorem suspended_of_step (h : s.step? e = some s') (hwait : e ≠ .wait t)
    (hsuspended : (s'.monitor.suspended.get? t).isSome) :
    (s.monitor.suspended.get? t).isSome := by
  cases moves_of_step? h with
  | @suspend u hout hflag =>
    have hu : t ≠ u := fun hu => hwait (hu ▸ rfl)
    simpa [beginWait_eq, Table.get?_insert, hu] using hsuspended
  | wake hx houtcome =>
    rw [Table.get?_erase] at hsuspended
    split at hsuspended
    · simp at hsuspended
    · exact hsuspended
  | notify => simpa using hsuspended
  | notifyAll => simpa using hsuspended
  | _ => exact hsuspended

/-! ## Who owns the monitor after a step -/

/-- A thread that owns the monitor after a step owned it before, or it has taken it while it was
free. -/
theorem owner_of_step (h : s.step? e = some s') (howner : s'.monitor.owner = some t) :
    s.monitor.owner = some t ∨
      s.monitor.owner = none ∧ (e = .enter t ∧ ¬ s.InWait t ∨ e = .finish t) := by
  cases moves_of_step? h with
  | enterFree hout hfree =>
    obtain rfl : _ = t := Option.some.inj howner
    exact Or.inr ⟨hfree, Or.inl ⟨rfl, hout⟩⟩
  | finishOwner hl hheld hfree =>
    obtain rfl : _ = t := Option.some.inj howner
    exact Or.inr ⟨hfree, Or.inr rfl⟩
  | exitLast => cases howner
  | @suspend u hout hflag =>
    left
    rw [beginWait_eq] at howner
    by_cases hu : s.monitor.owner = some u <;> simp_all
  | notify => exact Or.inl (by simpa using howner)
  | _ => exact Or.inl howner

/-- Ownership passes from one thread to another only while nobody has it. -/
theorem owner_eq_of_step (h : s.step? e = some s') (hold : s.monitor.owner = some t)
    (hnew : s'.monitor.owner = some u) : t = u := by
  rcases owner_of_step h hnew with hu | ⟨hfree, -⟩
  · exact Option.some.inj (hold.symm.trans hu)
  · simp [hold] at hfree

/-- Nobody takes the monitor from an owner whose call to wait has not returned. -/
theorem sameOwner_of_step (h : s.step? e = some s') (howner : s.monitor.owner = some t)
    (hwait : s.InWait t) : s.monitor.SameOwner s'.monitor := by
  cases moves_of_step? h with
  | enterFree hout hfree => simp [howner] at hfree
  | @enterAgain u hout hu | @exitLast u hout hu _ | @exitOnce u hout hu _ =>
    -- The owner is in its wait, and does nothing else.
    obtain rfl : t = u := Option.some.inj (howner.symm.trans hu)
    exact absurd hwait hout
  | @suspend u hout hflag =>
    have hu : t ≠ u := by
      rintro rfl
      exact hout hwait
    simp [SameOwner, beginWait_eq, howner, hu]
  | finishOwner hl hheld hfree => simp [howner] at hfree
  | notify => simp [SameOwner]
  | _ => exact ⟨rfl, rfl⟩

/-- Waking up does not take the monitor. -/
theorem sameOwner_of_wake {expired : Bool} (h : s.step? (.wake t expired) = some s') :
    s.monitor.SameOwner s'.monitor := by
  cases moves_of_step? h
  exact ⟨rfl, rfl⟩

/-- A call to wait that has no ownership to give up leaves the owner as it is. -/
theorem sameOwner_of_wait (h : s.step? (.wait t) = some s')
    (hnone : s.monitor.owner ≠ some t ∨ s.interrupted t) : s.monitor.SameOwner s'.monitor := by
  cases moves_of_step? h with
  | decline hout hflag => exact ⟨rfl, rfl⟩
  | suspend hout hflag =>
    have howner : s.monitor.owner ≠ some t := by simpa [hflag] using hnone
    simp [SameOwner, beginWait_eq, howner]

/-! ## What holds in every scene -/

/-- The owner of a monitor and the threads in waits agree with each other. -/
structure Owned (s : Scene) : Prop where
  depth_pos_iff : 0 < s.monitor.depth ↔ s.monitor.owner.isSome
  held_pos : ∀ t d, s.held? t = some (some d) → 0 < d
  /-- A wait that has left its loop is not suspended. -/
  apart : ∀ t, (s.leaving.get? t).isSome → s.monitor.suspended.get? t = none
  away : ∀ t, s.Away t → s.monitor.owner ≠ some t

theorem Owned.new : ({} : Scene).Owned where
  depth_pos_iff := by simp
  held_pos t d h := by simp [held?, Table.get?] at h
  apart t _ := rfl
  away t _ := by simp

/-- The depth counts only for an owner. -/
theorem Owned.depth_pos_iff_of_step (hs : s.Owned) (h : s.step? e = some s') :
    0 < s'.monitor.depth ↔ s'.monitor.owner.isSome := by
  have hiff := hs.depth_pos_iff
  cases moves_of_step? h with
  | enterFree => simp
  | enterAgain hout howner => simp [howner]
  | exitLast => simp
  | exitOnce hout howner hdepth =>
    simp only [howner, Option.isSome_some, iff_true]
    omega
  | @suspend u hout hflag =>
    rw [beginWait_eq]
    by_cases hu : s.monitor.owner = some u <;> simp [hu, hiff]
  | @finishOwner u l d hl hheld howner =>
    have hawake := hs.apart u (by simp [hl])
    have hpos : 0 < d := hs.held_pos u d (by simp [held?, hawake, hl, hheld])
    simp [hpos]
  | notify => simpa using hiff
  | _ => exact hiff

/-- The return of a wait leaves nothing to give back. -/
theorem Owned.held?_of_finish (hs : s.Owned) (h : s.step? (.finish t) = some s') :
    s'.held? t = none := by
  have hawake : s.monitor.suspended.get? t = none := by
    apply hs.apart
    cases moves_of_step? h with
    | finishFree hl => simp [hl]
    | finishOwner hl => simp [hl]
  cases moves_of_step? h <;> simp [held?, hawake, Table.get?_erase]

/-- A thread has something to get back after a step if it had it before, or if it begins to wait as
the owner. -/
theorem Owned.held?_of_step (hs : s.Owned) (h : s.step? e = some s') {d : Nat}
    (hheld : s'.held? t = some (some d)) :
    s.held? t = some (some d) ∨
      e = .wait t ∧ s.interrupted t = false ∧ s.monitor.owner = some t ∧ s.monitor.depth = d := by
  by_cases hwait : e = .wait t
  · subst hwait
    rw [held?_of_wait h] at hheld
    right
    simpa [depthOf] using hheld
  · left
    by_cases hfinish : e = .finish t
    · subst hfinish
      simp [hs.held?_of_finish h] at hheld
    · rwa [Scene.held?_of_step h hwait hfinish] at hheld

theorem Owned.held_pos_of_step (hs : s.Owned) (h : s.step? e = some s') (t : ThreadId) (d : Nat)
    (hheld : s'.held? t = some (some d)) : 0 < d := by
  rcases hs.held?_of_step h hheld with hbefore | ⟨-, -, howner, hdepth⟩
  · exact hs.held_pos t d hbefore
  · rw [← hdepth, hs.depth_pos_iff, howner]
    rfl

theorem Owned.apart_of_step (hs : s.Owned) (h : s.step? e = some s') (t : ThreadId)
    (hleaving : (s'.leaving.get? t).isSome) : s'.monitor.suspended.get? t = none := by
  -- A thread that has begun to wait or has been woken by this step is looked at on its own.
  have hbefore := hs.apart t
  cases moves_of_step? h with
  | @decline u hout hflag =>
    by_cases hu : t = u
    · subst hu
      simpa using (not_or.mp hout).1
    · rw [Table.get?_insert, if_neg hu] at hleaving
      exact hbefore hleaving
  | @suspend u hout hflag =>
    have hu : t ≠ u := by
      rintro rfl
      exact hout (Or.inr hleaving)
    simpa [beginWait_eq, Table.get?_insert, hu] using hbefore hleaving
  | @wake u expired x outcome hx houtcome =>
    rw [Table.get?_erase]
    by_cases hu : t = u
    · simp [hu]
    · rw [Table.get?_insert, if_neg hu] at hleaving
      rw [if_neg hu, hbefore hleaving]
  | finishFree | finishOwner =>
    apply hbefore
    rw [Table.get?_erase] at hleaving
    split at hleaving
    · simp at hleaving
    · exact hleaving
  | notify =>
    rw [← Option.not_isSome_iff_eq_none, isSome_get?_notify]
    simp [hbefore hleaving]
  | notifyAll =>
    rw [← Option.not_isSome_iff_eq_none, isSome_get?_notifyAll]
    simp [hbefore hleaving]
  | _ => exact hbefore hleaving

/-- A thread that becomes away has begun to wait, and has given up what it owned. -/
theorem Owned.away_of_step (hs : s.Owned) (h : s.step? e = some s') (haway : s'.Away t) :
    s.Away t ∧ e ≠ .finish t ∨ e = .wait t ∧ s'.monitor.owner ≠ some t := by
  by_cases hwait : e = .wait t
  · subst hwait
    right
    refine ⟨rfl, ?_⟩
    have hheld := held?_of_wait h
    cases moves_of_step? h with
    | decline hout hflag =>
      -- A thread that was interrupted before is not suspended, and has nothing to get back.
      rcases haway with hsuspended | ⟨d, hd⟩
      · exact absurd (Or.inl hsuspended) hout
      · simp [hheld, hflag] at hd
    | suspend hout hflag =>
      rw [beginWait_eq]
      by_cases ht : s.monitor.owner = some t <;> simp [ht]
  · left
    constructor
    · rcases haway with hsuspended | ⟨d, hd⟩
      · exact Or.inl (suspended_of_step h hwait hsuspended)
      · rcases hs.held?_of_step h hd with hbefore | ⟨he, -⟩
        · exact Or.inr ⟨d, hbefore⟩
        · exact absurd he hwait
    · rintro rfl
      exact held?_eq_none_iff.mp (hs.held?_of_finish h) haway.inWait

/-- Threads that are away are not the owner. -/
theorem Owned.owner_ne_of_step (hs : s.Owned) (h : s.step? e = some s') (t : ThreadId)
    (haway : s'.Away t) : s'.monitor.owner ≠ some t := by
  intro howner
  rcases hs.away_of_step h haway with ⟨hbefore, hfinish⟩ | ⟨-, hfree⟩
  · rcases owner_of_step h howner with hold | ⟨-, ⟨-, hout⟩ | he⟩
    · exact hs.away t hbefore hold
    · exact hout hbefore.inWait
    · exact hfinish he
  · exact hfree howner

/-- Every step keeps ownership in order. -/
theorem Owned.step (hs : s.Owned) (h : s.step? e = some s') : s'.Owned where
  depth_pos_iff := hs.depth_pos_iff_of_step h
  held_pos := hs.held_pos_of_step h
  apart := hs.apart_of_step h
  away := hs.owner_ne_of_step h

/-- The owner and the waits of every reachable scene agree. -/
theorem Reachable.owned (h : s.Reachable) : s.Owned :=
  h.induction Owned.new fun _ _ _ hstep hs => hs.step hstep

/-! ## Calls to wait from their beginning to their return -/

variable {s₁ s₂ s₃ : Scene} {events : List Event}

/-- A wait that returns has its ownership back, at the depth it had. -/
theorem Owned.owner_of_finish (hs : s.Owned) (h : s.step? (.finish t) = some s') {d : Nat}
    (hheld : s.held? t = some (some d)) : s'.monitor.owner = some t ∧ s'.monitor.depth = d := by
  cases moves_of_step? h with
  | finishFree hl hnone => simp [held?, hs.apart t (by simp [hl]), hl, hnone] at hheld
  | finishOwner hl hsome howner =>
    refine ⟨rfl, ?_⟩
    simpa [held?, hs.apart t (by simp [hl]), hl, hsome] using hheld

theorem Owned.sameOwner_of_finish (hs : s.Owned) (h : s.step? (.finish t) = some s')
    (hheld : s.held? t = some none) : s.monitor.SameOwner s'.monitor := by
  cases moves_of_step? h with
  | finishFree hl hnone => exact ⟨rfl, rfl⟩
  | finishOwner hl hsome howner => simp [held?, hs.apart t (by simp [hl]), hl, hsome] at hheld

/-- An owner whose call to wait has not returned stays the owner at its depth. -/
theorem sameOwner_of_run {held : Option Nat} (h : s.run? events = some s')
    (hfinish : .finish t ∉ events) (howner : s.monitor.owner = some t)
    (hheld : s.held? t = some held) : s.monitor.SameOwner s'.monitor := by
  have hkept : s.monitor.SameOwner s'.monitor ∧ s'.held? t = some held := by
    refine run?_induction (P := fun x => s.monitor.SameOwner x.monitor ∧ x.held? t = some held)
      ?_ ⟨⟨rfl, rfl⟩, hheld⟩ h
    rintro x x' e he hstep ⟨⟨hsame, hdepth⟩, hx⟩
    have hin : x.InWait t := isSome_held?_iff.mp (by simp [hx])
    obtain ⟨howner', hdepth'⟩ := sameOwner_of_step hstep (hsame.trans howner) hin
    refine ⟨⟨howner'.trans hsame, hdepth'.trans hdepth⟩, ?_⟩
    apply held?_of_run (run?_singleton.trans hstep) _ hx
    intro hmem
    exact hfinish (List.mem_singleton.mp hmem ▸ he)
  exact hkept.1

/-- A wait that its owner has begun returns with the owner that it had, at the depth that it had,
whatever other threads have done to the monitor since. -/
theorem owner_of_call (hs : s.Reachable) (howner : s.monitor.owner = some t)
    (hwait : s.step? (.wait t) = some s₁) (hrun : s₁.run? events = some s₂)
    (hfinish : .finish t ∉ events) (hlast : s₂.step? (.finish t) = some s₃) :
    s₃.monitor.owner = some t ∧ s₃.monitor.depth = s.monitor.depth := by
  have howned₂ : s₂.Owned := ((hs.step hwait).run hrun).owned
  have hheld := held?_of_wait hwait
  by_cases hflag : s.interrupted t
  · -- The call declines to wait, and nothing was given up.
    rw [if_pos hflag] at hheld
    have hsame₁ := sameOwner_of_wait hwait (Or.inr hflag)
    have hsame₂ := sameOwner_of_run hrun hfinish (hsame₁.1.trans howner) hheld
    have hsame₃ := howned₂.sameOwner_of_finish hlast (held?_of_run hrun hfinish hheld)
    constructor
    · rw [hsame₃.1, hsame₂.1, hsame₁.1, howner]
    · rw [hsame₃.2, hsame₂.2, hsame₁.2]
  · rw [if_neg hflag, depthOf, if_pos howner] at hheld
    exact howned₂.owner_of_finish hlast (held?_of_run hrun hfinish hheld)

/-- A call to wait that has nothing to give back leaves the owner as it is when it begins, when it
leaves its loop and when it returns. -/
theorem sameOwner_of_call (hs : s.Reachable) (hnone : s.monitor.owner ≠ some t ∨ s.interrupted t)
    (hwait : s.step? (.wait t) = some s₁) :
    s.monitor.SameOwner s₁.monitor ∧
      ∀ events s₂, s₁.run? events = some s₂ → .finish t ∉ events →
        ∀ e s₃, e = .finish t ∨ (∃ expired, e = .wake t expired) → s₂.step? e = some s₃ →
          s₂.monitor.SameOwner s₃.monitor := by
  refine ⟨sameOwner_of_wait hwait hnone, ?_⟩
  intro events s₂ hrun hfinish e s₃ he hstep
  have hheld : s₁.held? t = some none := by
    rw [held?_of_wait hwait]
    rcases hnone with howner | hflag
    · simp [depthOf, howner]
    · simp [hflag]
  rcases he with rfl | ⟨expired, rfl⟩
  · have howned₂ : s₂.Owned := ((hs.step hwait).run hrun).owned
    exact howned₂.sameOwner_of_finish hstep (held?_of_run hrun hfinish hheld)
  · exact sameOwner_of_wake hstep

/-- **Ownership of a monitor**, in every scene that threads can come to.  The depth is positive exactly
if there is an owner; ownership passes from one thread to another only through a scene without an
owner; threads that are suspended, or have an ownership to get back, do not own the monitor; a thread
that does not own it leaves it without an effect and is told so; an owner that waits returns as the
owner at the depth it had; and a call to wait of a thread that is not the owner, or was interrupted
before, never changes who owns the monitor and how deep. -/
theorem ownership_of_reachable (hs : s.Reachable) :
    (0 < s.monitor.depth ↔ s.monitor.owner.isSome) ∧
    (∀ e s' t u, s.step? e = some s' → s.monitor.owner = some t → s'.monitor.owner = some u →
      t = u) ∧
    (∀ t, (s.monitor.suspended.get? t).isSome ∨ (∃ d, s.held? t = some (some d)) →
      s.monitor.owner ≠ some t) ∧
    (∀ t, s.monitor.owner ≠ some t → s.monitor.exit t = (s.monitor, false)) ∧
    (∀ t s₁ events s₂ s₃, s.monitor.owner = some t → s.step? (.wait t) = some s₁ →
      s₁.run? events = some s₂ → .finish t ∉ events → s₂.step? (.finish t) = some s₃ →
        s₃.monitor.owner = some t ∧ s₃.monitor.depth = s.monitor.depth) ∧
    (∀ t s₁, s.monitor.owner ≠ some t ∨ s.interrupted t → s.step? (.wait t) = some s₁ →
      s.monitor.SameOwner s₁.monitor ∧
        ∀ events s₂, s₁.run? events = some s₂ → .finish t ∉ events →
          ∀ e s₃, e = .finish t ∨ (∃ expired, e = .wake t expired) → s₂.step? e = some s₃ →
            s₂.monitor.SameOwner s₃.monitor) := by
  have howned := hs.owned
  refine ⟨howned.depth_pos_iff, ?_, howned.away, ?_, ?_, ?_⟩
  · intro e s' t u hstep hold hnew
    exact owner_eq_of_step hstep hold hnew
  · intro t howner
    simp [exit, isOwnedBy, howner]
  · intro t s₁ events s₂ s₃ howner hwait hrun hfinish hlast
    exact owner_of_call hs howner hwait hrun hfinish hlast
  · intro t s₁ hnone hwait
    exact sameOwner_of_call hs hnone hwait

/-- A thread that owns the monitor at depth two waits, is signalled and interrupted while another
thread uses the monitor, and returns as the owner at depth two. -/
theorem ownership_of_two_threads :
    ∃ s s₁ s₂ s₃ : Scene,
      ({} : Scene).run? [.enter (.ofNumber 1), .enter (.ofNumber 1)] = some s ∧
      s.step? (.wait (.ofNumber 1)) = some s₁ ∧
      s₁.run? [.enter (.ofNumber 2), .notify, .interrupt (.ofNumber 1), .wake (.ofNumber 1) false,
        .exit (.ofNumber 2)] = some s₂ ∧
      s₂.step? (.finish (.ofNumber 1)) = some s₃ ∧
      s₃.monitor.owner = some (.ofNumber 1) ∧ s₃.monitor.depth = s.monitor.depth := by
  have howner : (({} : Scene).run? [.enter (.ofNumber 1), .enter (.ofNumber 1)]).map
      (fun s => s.monitor.owner) = some (some (.ofNumber 1)) := by decide +kernel
  have hall : (({} : Scene).run? ([.enter (.ofNumber 1), .enter (.ofNumber 1)] ++
      .wait (.ofNumber 1) :: ([.enter (.ofNumber 2), .notify, .interrupt (.ofNumber 1),
        .wake (.ofNumber 1) false, .exit (.ofNumber 2)] ++ [.finish (.ofNumber 1)]))).isSome := by
    decide +kernel
  obtain ⟨s₃, hall⟩ := Option.isSome_iff_exists.mp hall
  rw [run?_append] at hall
  obtain ⟨s, hs, hall⟩ := Option.bind_eq_some_iff.mp hall
  rw [run?_cons] at hall
  obtain ⟨s₁, hwait, hall⟩ := Option.bind_eq_some_iff.mp hall
  rw [run?_append] at hall
  obtain ⟨s₂, hrun, hlast⟩ := Option.bind_eq_some_iff.mp hall
  rw [run?_singleton] at hlast
  rw [hs, Option.map_some, Option.some_inj] at howner
  refine ⟨s, s₁, s₂, s₃, hs, hwait, hrun, hlast, ?_⟩
  obtain ⟨-, -, -, -, hreturns, -⟩ := ownership_of_reachable ⟨_, hs⟩
  exact hreturns _ _ _ _ _ howner hwait hrun (by decide +kernel) hlast

end Scene

end Monitor

end JavaMachine
