/-
# Thread tables

The thread table of a machine and what happened to contexts so far (`Registered`): the contexts that
were created are numbered from one on, those that were not dropped are registered, in the order of
their creation, and only dropped contexts are in the final state.  This is kept when a context is
created, dropped or changed, as long as the numbers of threads do not come to `2 ^ 63`; and then the
handle of a thread names it.  Waits and collections change contexts, and keep them all
(`ThreadTable.Steady`).
-/
import JavaMachine.Proofs.ThreadRuns
import Mathlib.Data.List.Nodup
import Mathlib.Data.List.Range

namespace JavaMachine

open ContextEvent

/-! ## Handles -/

namespace ThreadId

variable {t : ThreadId}

/-- Handles are signed, so a number below the highest bit is the handle itself. -/
theorem toInt_handle (h : t.raw.toNat < 2 ^ 63) : t.handle.toInt = t.raw.toNat := by
  show BitVec.toInt t.raw.toInt64.toBitVec = t.raw.toNat
  rw [UInt64.toBitVec_toInt64, BitVec.toInt_eq_toNat_of_lt]
  · rfl
  · show 2 * t.raw.toNat < 2 ^ 64
    omega

/-- Threads are numbered from one on. -/
theorem handle_pos (h : t.raw.toNat < 2 ^ 63) : 0 < t.handle := by
  have hne : t.raw.toNat ≠ 0 := fun hzero => t.raw_ne_zero (UInt64.toNat_inj.mp hzero)
  rw [Int64.lt_iff_toInt_lt, toInt_handle h]
  show (0 : Int) < t.raw.toNat
  omega

/-- No handle is the answer of a refusal. -/
theorem handle_ne_zero (h : t.raw.toNat < 2 ^ 63) : t.handle ≠ 0 :=
  Int64.ne_of_lt (handle_pos h) |>.symm

/-- The handle of a thread names it. -/
theorem ofHandle?_handle (h : t.raw.toNat < 2 ^ 63) : ofHandle? t.handle = some t := by
  unfold ofHandle?
  rw [if_pos (handle_pos h)]
  show some (ofNumber t.raw) = some t
  unfold ofNumber
  rw [dif_neg t.raw_ne_zero]

end ThreadId

/-! ## What happened to contexts -/

namespace ContextEvent

variable (es es' : List ContextEvent)

/-- Creations add up in the order of the events. -/
theorem createdIn_append : createdIn (es ++ es') = createdIn es ++ createdIn es' :=
  List.filterMap_append

theorem dropsIn_append : dropsIn (es ++ es') = dropsIn es ++ dropsIn es' := List.filterMap_append

/-- Drops add up in the order of the events. -/
theorem droppedIn_append : droppedIn (es ++ es') = droppedIn es ++ droppedIn es' := by
  unfold droppedIn
  rw [dropsIn_append, List.map_append]

theorem bodiesIn_append : bodiesIn (es ++ es') = bodiesIn es ++ bodiesIn es' :=
  List.filterMap_append

/-! ### Events of another kind -/

variable {e : ContextEvent}

/-- An event that creates no context counts for no creation. -/
theorem createdIn_add_of_none (h : e.created? = none) : createdIn (es ++ [e]) = createdIn es := by
  unfold createdIn
  rw [List.filterMap_append, List.filterMap_cons_none h, List.filterMap_nil, List.append_nil]

theorem dropsIn_add_of_none (h : e.drop? = none) : dropsIn (es ++ [e]) = dropsIn es := by
  unfold dropsIn
  rw [List.filterMap_append, List.filterMap_cons_none h, List.filterMap_nil, List.append_nil]

/-- An event that drops no context counts for no drop. -/
theorem droppedIn_add_of_none (h : e.drop? = none) : droppedIn (es ++ [e]) = droppedIn es :=
  congrArg (List.map Prod.fst) (dropsIn_add_of_none es h)

/-- An event that is about no body puts none under way. -/
theorem bodiesIn_add_of_none (h : e.body? = none) : bodiesIn (es ++ [e]) = bodiesIn es := by
  unfold bodiesIn
  rw [List.filterMap_append, List.filterMap_cons_none h, List.filterMap_nil, List.append_nil]

/-! ### Creations -/

/-- An event that creates the context of a thread, and may hand over its body. -/
inductive Creates (t : ThreadId) : ContextEvent → Prop
  | attached : Creates t (.attached t)
  | asked (verdict : StartVerdict) : Creates t (.asked t verdict)

variable {es} {t : ThreadId}

/-- The context that is created is the last one. -/
theorem Creates.createdIn_add (h : Creates t e) : createdIn (es ++ [e]) = createdIn es ++ [t] := by
  rw [createdIn_append]
  cases h <;> rfl

/-- What creates a context drops none. -/
theorem Creates.drop?_eq (h : Creates t e) : e.drop? = none := by
  cases h <;> rfl

/-- At most the body of the new thread is put under way. -/
theorem Creates.mem_bodiesIn (h : Creates t e) {u : ThreadId} (hu : u ∈ bodiesIn (es ++ [e])) :
    u ∈ bodiesIn es ∨ u = t := by
  rw [bodiesIn_append, List.mem_append] at hu
  refine hu.imp id fun hlast => ?_
  cases h with
  | attached => cases hlast
  | asked verdict =>
    cases verdict with
    | inline => exact List.mem_singleton.mp hlast
    | refused => cases hlast
    | deferred => cases hlast

end ContextEvent

/-! ## The thread table and what happened -/

/-- A thread table that has to do with what happened as it should: the contexts created so far were
numbered from one on, those that were not dropped are registered, and the final state is the one of
dropped contexts. -/
structure Registered (threads : ThreadTable) (es : List ContextEvent) : Prop where
  numbered : (createdIn es).map (·.raw.toNat) = List.range' 1 (createdIn es).length
  next : threads.next.toNat = (createdIn es).length + 1
  held : threads.contexts.keys = (createdIn es).filter (· ∉ droppedIn es)
  going : ∀ t x, threads.contexts.get? t = some x → x.state ≠ .ended
  ended : ∀ d ∈ dropsIn es, d.2 = .ended
  dropped_created : ∀ t ∈ droppedIn es, t ∈ createdIn es
  body_created : ∀ t ∈ bodiesIn es, t ∈ createdIn es

/-- Before anything has happened, no context is registered. -/
theorem registered_nil : Registered {} [] where
  numbered := rfl
  next := rfl
  held := rfl
  going _ _ h := nomatch h
  ended _ h := nomatch h
  dropped_created _ h := nomatch h
  body_created _ h := nomatch h

namespace Registered

variable {threads threads' : ThreadTable} {es : List ContextEvent} {t : ThreadId}

/-- No two contexts were given one name. -/
theorem nodup (h : Registered threads es) : (createdIn es).Nodup :=
  List.Nodup.of_map (f := fun t : ThreadId => t.raw.toNat) (h.numbered ▸ List.nodup_range')

/-- The name of the next thread is its number. -/
theorem raw_next (h : Registered threads es) :
    (ThreadId.ofNumber threads.next).raw.toNat = (createdIn es).length + 1 := by
  have hne : threads.next ≠ 0 := by
    intro hzero
    have hnext := h.next
    rw [hzero] at hnext
    exact absurd hnext (Nat.zero_ne_add_one _)
  rw [ThreadId.raw_ofNumber hne, h.next]

/-- The name of the next thread was never given out. -/
theorem next_not_mem (h : Registered threads es) :
    ThreadId.ofNumber threads.next ∉ createdIn es := by
  intro hmem
  have hnumber := List.mem_map_of_mem (f := fun t : ThreadId => t.raw.toNat) hmem
  rw [h.numbered, h.raw_next, List.mem_range'_1] at hnumber
  omega

/-- The contexts that are there were created and not dropped. -/
theorem mem_keys_iff (h : Registered threads es) :
    t ∈ threads.contexts.keys ↔ t ∈ createdIn es ∧ t ∉ droppedIn es := by
  rw [h.held, List.mem_filter, decide_eq_true_iff]

/-- A context is found as long as it was not dropped. -/
theorem isSome_get?_iff (h : Registered threads es) :
    (threads.contexts.get? t).isSome ↔ t ∈ createdIn es ∧ t ∉ droppedIn es :=
  (Table.isSome_get?_iff ..).trans h.mem_keys_iff

/-- The next number names no context yet. -/
theorem next_not_mem_keys (h : Registered threads es) :
    ThreadId.ofNumber threads.next ∉ threads.contexts.keys :=
  fun hmem => h.next_not_mem (h.mem_keys_iff.mp hmem).1

/-- The context of the next thread is created. -/
theorem create (h : Registered threads es) (hfew : (createdIn es).length + 1 < 2 ^ 63)
    (peer : Option ObjectRef) {e : ContextEvent}
    (he : Creates (ThreadId.ofNumber threads.next) e) :
    Registered (threads.attach peer).1 (es ++ [e]) where
  numbered := by
    rw [he.createdIn_add, List.map_append, h.numbered, List.length_append, List.length_singleton,
      List.range'_concat, List.map_singleton, h.raw_next, Nat.one_mul, Nat.add_comm]
  next := by
    have hnext := h.next
    rw [he.createdIn_add, List.length_append, List.length_singleton]
    show (threads.next + 1).toNat = _
    -- So few numbers do not wrap around.
    rw [UInt64.toNat_add, hnext]
    show ((createdIn es).length + 1 + 1) % 2 ^ 64 = _
    omega
  held := by
    -- The new context comes last, and no context of its name was dropped before.
    have hout : ThreadId.ofNumber threads.next ∉ droppedIn es :=
      fun hmem => h.next_not_mem (h.dropped_created _ hmem)
    rw [he.createdIn_add, droppedIn_add_of_none es he.drop?_eq, List.filter_append, ← h.held]
    show (threads.contexts.insert _ _).keys = _
    rw [Table.keys_insert_of_not_mem h.next_not_mem_keys]
    simp [hout]
  going := by
    intro u x hx
    have hget :
        (threads.contexts.insert (ThreadId.ofNumber threads.next) { peer }).get? u = some x := hx
    rw [Table.get?_insert] at hget
    split at hget
    · cases hget
      exact ThreadState.noConfusion
    · exact h.going u x hget
  ended := by
    rw [dropsIn_add_of_none es he.drop?_eq]
    exact h.ended
  dropped_created := by
    intro u hu
    rw [droppedIn_add_of_none es he.drop?_eq] at hu
    rw [he.createdIn_add]
    exact List.mem_append_left _ (h.dropped_created u hu)
  body_created := by
    intro u hu
    rw [he.createdIn_add, List.mem_append, List.mem_singleton]
    exact (he.mem_bodiesIn hu).imp (h.body_created u) id

/-- A context is dropped. -/
theorem drop (h : Registered threads es) (ht : t ∈ createdIn es) :
    Registered (threads.forget t) (es ++ [.dropped t .ended]) := by
  have hcreated : createdIn (es ++ [.dropped t .ended]) = createdIn es :=
    createdIn_add_of_none es rfl
  have hdropped : droppedIn (es ++ [.dropped t .ended]) = droppedIn es ++ [t] := droppedIn_append ..
  refine ⟨hcreated ▸ h.numbered, hcreated ▸ h.next, ?_, ?_, ?_, ?_, ?_⟩
  · rw [hcreated, hdropped]
    show (threads.contexts.erase t).keys = _
    -- What is registered after the drop passes both tests.
    rw [Table.keys_erase, h.held, List.filter_filter]
    refine List.filter_congr fun u _ => ?_
    by_cases hu : u = t <;> simp [hu]
  · intro u x hx
    have hget : (threads.contexts.erase t).get? u = some x := hx
    rw [Table.get?_erase] at hget
    split at hget
    · cases hget
    · exact h.going u x hget
  · intro d hd
    rw [dropsIn_append, List.mem_append] at hd
    rcases hd with hold | hlast
    · exact h.ended d hold
    · rw [List.mem_singleton.mp hlast]
  · intro u hu
    rw [hdropped, List.mem_append, List.mem_singleton] at hu
    rw [hcreated]
    rcases hu with hold | rfl
    · exact h.dropped_created u hold
    · exact ht
  · rw [bodiesIn_add_of_none es rfl, hcreated]
    exact h.body_created

/-- The body of a thread begins. -/
theorem begin (h : Registered threads es) (ht : t ∈ createdIn es) :
    Registered threads (es ++ [.begun t]) := by
  have hcreated : createdIn (es ++ [.begun t]) = createdIn es := createdIn_add_of_none es rfl
  have hdrops : dropsIn (es ++ [.begun t]) = dropsIn es := dropsIn_add_of_none es rfl
  have hdropped : droppedIn (es ++ [.begun t]) = droppedIn es := droppedIn_add_of_none es rfl
  refine ⟨hcreated ▸ h.numbered, hcreated ▸ h.next, ?_, h.going, hdrops ▸ h.ended, ?_, ?_⟩
  · rw [hcreated, hdropped]
    exact h.held
  · rw [hcreated, hdropped]
    exact h.dropped_created
  · intro u hu
    rw [bodiesIn_append, List.mem_append] at hu
    rw [hcreated]
    rcases hu with hold | hlast
    · exact h.body_created u hold
    · exact List.mem_singleton.mp hlast ▸ ht

end Registered

/-! ## Changes of contexts that stay -/

/-- The thread tables hold contexts of the same threads, and if none of the first one is in its final
state, then none of the second one is. -/
structure ThreadTable.Steady (threads threads' : ThreadTable) : Prop where
  next : threads'.next = threads.next
  keys : threads'.contexts.keys = threads.contexts.keys
  going : (∀ t x, threads.contexts.get? t = some x → x.state ≠ .ended) →
    ∀ t x, threads'.contexts.get? t = some x → x.state ≠ .ended

/-- What is registered stays so while contexts of the same threads are held. -/
theorem Registered.steady {threads threads' : ThreadTable} {es : List ContextEvent}
    (h : Registered threads es) (hs : threads.Steady threads') : Registered threads' es :=
  { h with
    next := hs.next ▸ h.next
    held := hs.keys ▸ h.held
    going := hs.going h.going }

/-- The machines have thread tables with contexts of the same threads. -/
def Machine.Steady (m m' : Machine) : Prop := m.threads.Steady m'.threads

namespace Machine.Steady

variable {m m' m'' : Machine}

/-- With the same thread table nothing of it has changed. -/
theorem of_eq (h : m'.threads = m.threads) : m.Steady m' := by
  unfold Machine.Steady
  rw [h]
  exact ⟨rfl, rfl, id⟩

/-- What is held through two changes is held through both. -/
theorem trans (h : m.Steady m') (h' : m'.Steady m'') : m.Steady m'' :=
  ⟨h'.next.trans h.next, h'.keys.trans h.keys, h'.going ∘ h.going⟩

instance : IsPreorder Machine Machine.Steady where
  refl _ := of_eq rfl
  trans _ _ _ := trans

/-- A context is changed, and not to the final state. -/
theorem update {t : ThreadId} {f : Thread → Thread}
    (hf : ∀ x, m.threads.contexts.get? t = some x → x.state ≠ .ended → (f x).state ≠ .ended) :
    m.Steady (m.updateThread t f) where
  next := rfl
  keys := Table.keys_modify ..
  going h u x hx := by
    have hget : (m.threads.contexts.modify t f).get? u = some x := hx
    rw [Table.get?_modify] at hget
    split at hget
    · obtain ⟨y, hy, rfl⟩ := Option.map_eq_some_iff.mp hget
      exact hf y hy (h t y hy)
    · exact h u x hget

end Machine.Steady

namespace Machine

/-- No context is in its final state. -/
def AllGoing (m : Machine) : Prop :=
  ∀ t x, m.threads.contexts.get? t = some x → x.state ≠ .ended

/-- A thread is known by its context. -/
theorem thread_eq_ok_iff {m : Machine} {t : ThreadId} {x : Thread} :
    m.thread t = .ok x ↔ m.threads.contexts.get? t = some x := by
  unfold Machine.thread
  cases m.threads.contexts.get? t with
  | none => exact ⟨fun h => (nomatch h), fun h => (nomatch h)⟩
  | some y =>
    exact ⟨fun h => congrArg some (Except.ok.inj h), fun h => congrArg _ (Option.some.inj h)⟩

end Machine

namespace Action

variable {m : Machine}

/-- Without an object to stand for it, a thread has one made. -/
theorem run_attach_none (m : Machine) :
    attach none m =
      match m.classes.get .thread with
      | .error e => (.error e, m)
      | .ok cls =>
        attach (some (m.heap.allocate .thread (.ofLayout cls.layout)).2)
          { m with heap := (m.heap.allocate .thread (.ofLayout cls.layout)).1 } := by
  show (liftM (m.classes.get .thread) >>= _ : Action ThreadId) m = _
  rw [run_lift_bind]
  rcases m.classes.get .thread with e | cls <;> rfl

/-- A context that is there is given out in the final state. -/
theorem run_detach (t : ThreadId) (m : Machine) :
    detach t m =
      match m.threads.contexts.get? t with
      | some x => (.ok { x with state := .ended }, { m with threads := m.threads.forget t })
      | none => (.error (.broken (.unknownThread t)), m) := by
  unfold detach
  rw [run_bind, run_get]
  dsimp only
  rw [run_lift_bind]
  unfold Machine.thread
  cases m.threads.contexts.get? t <;> rfl

/-- Setting a state that is not final keeps contexts, and gives a state that is not final. -/
theorem steady_setState (hm : m.AllGoing) (t : ThreadId) {state : ThreadState}
    (hstate : state ≠ .ended) :
    Takes Machine.Steady m (setState t state) fun previous _ => previous ≠ .ended := by
  refine takes_get_bind (takes_lift_bind fun x hx => ?_)
  refine Takes.bind (Q := fun _ _ => True) ?_ fun _ _ _ _ => ?_
  · exact takes_modify (.update fun _ _ _ => hstate) trivial
  · exact takes_pure (hm t x (Machine.thread_eq_ok_iff.mp hx))

/-- A change outside of the thread table holds all contexts. -/
theorem steady_modify {g : Machine → Machine} (h : (g m).threads = m.threads) :
    Takes Machine.Steady m (modify g) fun _ _ => True :=
  takes_modify (.of_eq h) trivial

/-- Looking up a monitor holds all contexts. -/
theorem steady_monitor (r : ObjectRef) : Takes Machine.Steady m (monitor r) fun _ _ => True :=
  Takes.bind (steady_modify rfl) fun _ _ _ _ => takes_get_bind (takes_pure trivial)

/-- A thread that goes on has kept its context. -/
theorem steady_resume (t : ThreadId) (r : ObjectRef) (expired : Bool) :
    Takes Machine.Steady m (resume t r expired) fun _ _ => True := by
  refine takes_get_bind (takes_lift_bind fun x _ => ?_)
  refine (steady_monitor r).bind fun y m₁ _ _ => ?_
  split
  · exact takes_throw _
  · split
    · exact takes_throw _
    · exact Takes.bind (steady_modify rfl) fun _ _ _ _ => takes_pure trivial

/-- A wait changes the state of the thread, and changes it back, which was not the final one. -/
theorem steady_wait (hm : m.AllGoing) (t : ThreadId) (r : ObjectRef) (millis : Int64) :
    Takes Machine.Steady m (wait t r millis) fun _ _ => True := by
  refine takes_liftThrowable_bind fun _ _ => ?_
  refine (steady_monitor r).discard.bind fun _ m₁ h₁ _ => ?_
  refine (steady_setState (h₁.going hm) t ThreadState.noConfusion).bind
    fun previous m₂ h₂ hprevious => ?_
  -- Whatever the outcome, the thread goes back to the state that it was in before.
  have hend : ∀ (outcome : WaitOutcome) (m : Machine), m.AllGoing → Takes Machine.Steady m
      (discard (setState t previous) >>= fun _ => pure outcome : Action WaitOutcome)
      fun _ _ => True :=
    fun _ _ hgoing =>
      (steady_setState hgoing t hprevious).discard.bind fun _ _ _ _ => takes_pure trivial
  have hgoing : m₂.AllGoing := h₂.going (h₁.going hm)
  refine takes_get_bind (takes_lift_bind fun x _ => ?_)
  dsimp only
  split
  · exact hend _ _ hgoing
  · refine Takes.bind (Q := fun _ _ => True) ?_ fun _ m₃ h₃ _ => ?_
    · exact (steady_monitor r).bind fun _ _ _ _ => steady_modify rfl
    · exact (steady_resume t r _).bind fun outcome m₄ h₄ _ =>
        hend outcome m₄ (h₄.going (h₃.going hgoing))

/-- A collection changes the state of the thread that asks for it, and changes it back. -/
theorem steady_collect (hm : m.AllGoing) (t : ThreadId) (keep : ObjectRef → Object → Bool) :
    Takes Machine.Steady m (collect t keep) fun _ _ => True := by
  refine (steady_setState hm t ThreadState.noConfusion).bind fun previous m₁ h₁ hprevious => ?_
  refine takes_get_bind (takes_get_bind (takes_lift_bind fun x _ => ?_))
  refine (takes_modifyGet (Q := fun _ _ => True) (.of_eq rfl) trivial).bind fun freed m₂ h₂ _ => ?_
  exact (steady_setState (h₂.going (h₁.going hm)) t hprevious).discard.bind
    fun _ _ _ _ => takes_pure trivial

end Action

end JavaMachine
