/-
# Contexts of threads

At every moment of a run of threads the machine registers exactly the contexts that were created and
not dropped, in the order of their creation; no two contexts were given one name; and the state of a
context is the final one exactly when it was dropped (`contexts_of_run`).  The native method that
starts threads gives zero exactly when the host refused, and otherwise a handle of the thread.

What a computation does to a run is `Goes`: it adds to what happened, keeps the run accounted for, and
drops no context whose body is under way, so that a body finds the context of its thread still there
when it ends.  Every request of an engine does so, and by induction on scripts and on the depth of
calls every engine does.
-/
import JavaMachine.Proofs.ThreadTables

namespace JavaMachine

open ContextEvent

/-! ## What there is to see -/

/-- The machine registers the contexts that were created and not dropped, no two of them were given
one name, and the state of a context is the final one exactly when it was dropped. -/
structure Sight.Accounted (s : Sight) : Prop where
  registered : s.machine.threads.contexts.keys =
    (createdIn s.events).filter (· ∉ droppedIn s.events)
  distinct : (createdIn s.events).Nodup
  state : ∀ t ∈ createdIn s.events,
    ∃ state, s.state? t = some state ∧ (state = .ended ↔ t ∈ droppedIn s.events)

/-- A thread table that registers what happened accounts for every context. -/
theorem Registered.accounted {s : Sight} (h : Registered s.machine.threads s.events) :
    s.Accounted where
  registered := h.held
  distinct := h.nodup
  state := by
    intro t ht
    unfold Sight.state?
    -- The table has the state of a context that was not dropped, and the notes that of any other.
    by_cases hdropped : t ∈ droppedIn s.events
    · have hnone : s.machine.threads.contexts.get? t = none :=
        (Table.get?_eq_none_iff ..).mpr fun hkey => (h.mem_keys_iff.mp hkey).2 hdropped
      rw [hnone]
      cases hlast : (dropsIn s.events).lookup t with
      | none =>
        obtain ⟨d, hd, rfl⟩ := List.mem_map.mp hdropped
        simpa using List.lookup_eq_none_iff.mp hlast d hd
      | some state =>
        obtain ⟨before, after, heq, _⟩ := List.lookup_eq_some_iff.mp hlast
        have hended : state = .ended := h.ended (t, state) (by rw [heq]; simp)
        exact ⟨state, rfl, fun _ => hdropped, fun _ => hended⟩
    · obtain ⟨x, hx⟩ := Option.isSome_iff_exists.mp (h.isSome_get?_iff.mpr ⟨ht, hdropped⟩)
      rw [hx]
      exact ⟨x.state, rfl, fun hended => absurd hended (h.going t x hx), fun h => absurd h hdropped⟩

/-- A start that asked the host about a new thread: it gave zero exactly when the host refused, which
left the registered contexts as they were, and otherwise a handle of the thread.  A body that the host
runs at once has to come to its end before, for which the object has to be live. -/
structure StartReport.Answered (r : StartReport) (peer : ObjectRef) (t : ThreadId)
    (verdict : StartVerdict) : Prop where
  fresh : t ∉ createdIn r.before.events
  asked : ∃ rest, r.after.events = r.before.events ++ .asked t verdict :: rest
  zero_iff : r.result = .ok (.long 0) ↔ verdict = .refused
  unchanged : verdict = .refused →
    r.after.machine.threads.contexts = r.before.machine.threads.contexts
  handle : verdict ≠ .refused → (verdict = .inline → (r.before.machine.heap.get? peer).isSome) →
    ∃ h, r.result = .ok (.long h) ∧ h ≠ 0 ∧ ThreadId.ofHandle? h = some t

/-- A start without an object ends with an exception, and any other one asks the host. -/
def StartReport.Right (r : StartReport) : Prop :=
  match r.args.object 0 with
  | .error e => r.result = .error (.thrown e) ∧ r.after = r.before
  | .ok peer => ∃ t verdict, r.Answered peer t verdict

/-- The numbers of threads did not come to `2 ^ 63`. -/
def Notes.Few (n : Notes) : Prop := (createdIn n.events).length < 2 ^ 63

instance (n : Notes) : Decidable n.Few := inferInstanceAs (Decidable (_ < _))

@[simp] theorem Notes.add_nil (n : Notes) : n.add [] = n := by
  unfold Notes.add
  rw [List.append_nil]

@[simp] theorem Notes.events_add (n : Notes) (es : List ContextEvent) :
    (n.add es).events = n.events ++ es := rfl

section Runs

variable {W : Type} {s s₀ s' s'' : Machine × W × Notes}

/-! ## What a computation does to a run -/

/-- A run whose thread table, sights and starts are as they should be. -/
structure Tracks (s : Machine × W × Notes) : Prop where
  registered : Registered s.1.threads s.2.2.events
  sights : ∀ x ∈ s.2.2.sights, x.Accounted
  starts : ∀ r ∈ s.2.2.starts, r.Right

/-- What happened to contexts is added to, the run stays as it should be, and no context is dropped
whose body is under way. -/
structure Goes (s s' : Machine × W × Notes) : Prop where
  grows : s.2.2.events <+: s'.2.2.events
  tracks : s'.2.2.Few → Tracks s → Tracks s'
  keeps : s'.2.2.Few → Tracks s → ∀ t ∈ bodiesIn s.2.2.events, t ∉ droppedIn s.2.2.events →
    t ∉ droppedIn s'.2.2.events

/-- Fewer contexts were created before than after. -/
theorem Notes.Few.of_grows {n n' : Notes} (h : n'.Few) (hgrows : n.events <+: n'.events) :
    n.Few :=
  Nat.lt_of_le_of_lt (hgrows.filterMap _).length_le h

/-- There was room for the context that was created last. -/
theorem Notes.Few.of_creates {n : Notes} {t : ThreadId} {e : ContextEvent} (h : (n.add [e]).Few)
    (he : Creates t e) : (createdIn n.events).length + 1 < 2 ^ 63 := by
  unfold Notes.Few at h
  rwa [Notes.events_add, he.createdIn_add, List.length_append] at h

namespace Goes

/-- What creates and drops nothing keeps a run as it should be. -/
theorem of_steady {m' : Machine} {w' : W} (h : s.1.AllGoing → s.1.Steady m') :
    Goes s (m', w', s.2.2) where
  grows := List.prefix_rfl
  tracks _ hs := ⟨hs.registered.steady (h hs.registered.going), hs.sights, hs.starts⟩
  keeps _ _ _ _ := id

theorem refl (s : Machine × W × Notes) : Goes s s := of_steady fun _ => .of_eq rfl

/-- What keeps a run as it should be may be repeated. -/
theorem trans (h : Goes s s') (h' : Goes s' s'') : Goes s s'' where
  grows := h.grows.trans h'.grows
  tracks hfew hs := h'.tracks hfew (h.tracks (hfew.of_grows h'.grows) hs)
  keeps hfew hs t hbody hnot :=
    have hfew' := hfew.of_grows h'.grows
    h'.keeps hfew (h.tracks hfew' hs) t ((h.grows.filterMap _).subset hbody)
      (h.keeps hfew' hs t hbody hnot)

/-- A context is created. -/
theorem create {m' : Machine} {w' : W} {peer : Option ObjectRef} {e : ContextEvent}
    (hm : m'.threads = (s.1.threads.attach peer).1)
    (he : Creates (ThreadId.ofNumber s.1.threads.next) e) : Goes s (m', w', s.2.2.add [e]) where
  grows := List.prefix_append ..
  tracks hfew hs := by
    refine ⟨?_, hs.sights, hs.starts⟩
    show Registered m'.threads _
    rw [hm]
    exact hs.registered.create (hfew.of_creates he) peer he
  keeps _ _ t _ hnot := by
    show t ∉ droppedIn (s.2.2.events ++ [e])
    rw [droppedIn_add_of_none _ he.drop?_eq]
    exact hnot

/-- A registered context is dropped whose body was not under way before. -/
theorem drop {t : ThreadId} {w' : W} (h : Goes s₀ s)
    (ht : (s.1.threads.contexts.get? t).isSome)
    (hout : s.2.2.Few → Tracks s₀ → t ∉ bodiesIn s₀.2.2.events) :
    Goes s₀ ({ s.1 with threads := s.1.threads.forget t }, w', s.2.2.add [.dropped t .ended]) where
  grows := h.grows.trans (List.prefix_append ..)
  tracks hfew hs := by
    have hs' := h.tracks (hfew.of_grows (List.prefix_append ..)) hs
    exact ⟨hs'.registered.drop (hs'.registered.isSome_get?_iff.mp ht).1, hs'.sights, hs'.starts⟩
  keeps hfew hs u hbody hnot := by
    have hfew' : s.2.2.Few := hfew.of_grows (List.prefix_append ..)
    -- The body of `t` began after `s₀`, so it is none of those to be kept.
    have hne : u ≠ t := fun heq => hout hfew' hs (heq ▸ hbody)
    have hkept := h.keeps hfew' hs u hbody hnot
    show u ∉ droppedIn (s.2.2.events ++ [.dropped t .ended])
    rw [droppedIn_append, List.mem_append]
    rintro (hold | hlast)
    · exact hkept hold
    · exact hne (List.mem_singleton.mp hlast)

/-- The body of a deferred thread begins. -/
theorem begin {t : ThreadId} {w' : W} (ht : t ∈ createdIn s.2.2.events) :
    Goes s (s.1, w', s.2.2.add [.begun t]) where
  grows := List.prefix_append ..
  tracks _ hs := ⟨hs.registered.begin ht, hs.sights, hs.starts⟩
  keeps _ _ u _ hnot := by
    show u ∉ droppedIn (s.2.2.events ++ [.begun t])
    rw [droppedIn_add_of_none _ rfl]
    exact hnot

end Goes

/-! ## Computations that keep a run as it should be -/

variable {α β : Type}

/-- From every state, the computation keeps the run as it should be. -/
def GoesOn (a : Exec (W × Notes) α) : Prop := ∀ s, Goes s (a s).2

variable {a : Exec (W × Notes) α} {f : α → Exec (W × Notes) β}

theorem goesOn_pure (x : α) : GoesOn (pure x : Exec (W × Notes) α) := Goes.refl

/-- An exception keeps a run as it should be. -/
theorem goesOn_raise (t : Throwable) : GoesOn (raise t : Exec (W × Notes) α) := Goes.refl

/-- Computations that keep runs follow each other. -/
theorem GoesOn.bind (ha : GoesOn a) (hf : ∀ x, GoesOn (f x)) : GoesOn (a >>= f) := by
  intro s
  have hs := ha s
  rw [run_bind]
  rcases hrun : a s with ⟨e | x, s₁⟩
  · rw [hrun] at hs
    exact hs
  · rw [hrun] at hs
    exact hs.trans (hf x s₁)

theorem GoesOn.discard (ha : GoesOn a) : GoesOn (discard a : Exec (W × Notes) PUnit) := by
  intro s
  rw [run_discard]
  exact ha s

/-- A computation that gives an answer gives a result when its exceptions are handed out. -/
theorem attempt_eq_ok (a : Exec (W × Notes) α) (s : Machine × W × Notes) (h : Answers (a s).1) :
    ∃ r, (Exec.attempt a s).1 = .ok r := by
  unfold Exec.attempt
  rcases hrun : a s with ⟨e | x, s₁⟩
  · rw [hrun] at h
    rcases h with ⟨x, hx⟩ | ⟨t, ht⟩
    · cases hx
    · cases ht
      exact ⟨_, rfl⟩
  · exact ⟨_, rfl⟩

/-- What is made of a result does not count. -/
theorem snd_bind_pure (a : Exec (W × Notes) α) (x : β) (s : Machine × W × Notes) :
    ((a >>= fun _ => pure x) s).2 = (a s).2 := by
  rw [run_bind]
  rcases a s with ⟨e | y, s₁⟩ <;> rfl

/-- What a computation ends with may be looked at. -/
theorem GoesOn.attempt (ha : GoesOn a) : GoesOn (Exec.attempt a) := by
  intro s
  rw [Exec.state_attempt]
  exact ha s

/-- An operation that leaves the thread table steady keeps every run. -/
theorem goesOn_onMachine {b : Action α} {Q : α → Machine → Prop}
    (h : ∀ m : Machine, m.AllGoing → b.Takes Machine.Steady m Q) :
    GoesOn (Exec.onMachine b : Exec (W × Notes) α) :=
  fun s => .of_steady fun hgoing => (h s.1 hgoing).1

/-! ## Started threads -/

/-- A platform whose engine keeps runs as they should be and always answers, and whose host is noted.
-/
structure Platform.Tracking (p : Platform (W × Notes)) : Prop where
  keeps : ∀ t x receiver args, GoesOn (p.invoke t x receiver args)
  answers : ∀ t x receiver args s, Answers (p.invoke t x receiver args s).1
  start : ∀ request w n, ∃ verdict w',
    p.start request (w, n) = (verdict, w', n.add [.asked request.thread verdict])

variable {p : Platform (W × Notes)} {t : ThreadId}

/-- A thread calls the method `run` of its object, if there are such ones. -/
theorem run_runThread (p : Platform (W × Notes)) (t : ThreadId) (s : Machine × W × Notes) :
    runThread p t s =
      match s.1.thread t with
      | .error e => (.error e, s)
      | .ok x =>
        match x.peer with
        | none => (.ok (), s)
        | some peer =>
          match s.1.classOf peer with
          | .error e => (.error e, s)
          | .ok c =>
            match s.1.classes.findMethod? c "run" "()V" with
            | none => (.ok (), s)
            | some y => (discard (p.invoke t y (some peer) []) : Exec (W × Notes) Unit) s := by
  unfold runThread
  rw [run_bind]
  dsimp only [Exec.machine]
  rw [run_lift_bind]
  rcases s.1.thread t with e | x
  · rfl
  · dsimp only
    cases x.peer with
    | none => rfl
    | some peer =>
      dsimp only
      rw [run_lift_bind]
      rcases s.1.classOf peer with e | c
      · rfl
      · dsimp only
        cases s.1.classes.findMethod? c "run" "()V" <;> rfl

/-- The body of a thread keeps the run, as the engine does. -/
theorem Platform.Tracking.goesOn_runThread (hp : p.Tracking) (t : ThreadId) :
    GoesOn (runThread p t) := by
  intro s
  rw [run_runThread]
  split
  · exact .refl s
  · split
    · exact .refl s
    · split
      · exact .refl s
      · split
        · exact .refl s
        · next y _ => exact GoesOn.discard (hp.keeps t y _ []) s

/-- The body of a thread comes to its end where the object that stands for the thread is live. -/
theorem Platform.Tracking.answers_runThread (hp : p.Tracking) {x : Thread} {peer : ObjectRef}
    (hx : s.1.threads.contexts.get? t = some x) (hpeer : x.peer = some peer)
    (hlive : (s.1.heap.get? peer).isSome) : Answers (runThread p t s).1 := by
  obtain ⟨o, ho⟩ := Option.isSome_iff_exists.mp hlive
  have hclass : s.1.classOf peer = .ok o.owner := by
    unfold Machine.classOf Heap.get
    rw [ho]
    rfl
  rw [run_runThread, Machine.thread_eq_ok_iff.mpr hx]
  dsimp only
  rw [hpeer]
  dsimp only
  rw [hclass]
  dsimp only
  split
  · exact answers_ok ()
  · next y _ =>
    rw [run_discard]
    rcases hp.answers t y (some peer) [] s with ⟨v, hv⟩ | ⟨e, he⟩
    · rw [hv]
      exact answers_ok _
    · rw [he]
      exact answers_thrown e

/-- A context that is there is given out in the final state. -/
theorem run_detach (t : ThreadId) (s : Machine × W × Notes) :
    (Exec.onMachine (Action.detach t) : Exec (W × Notes) Thread) s =
      match s.1.threads.contexts.get? t with
      | some x =>
        (.ok { x with state := .ended }, { s.1 with threads := s.1.threads.forget t }, s.2)
      | none => (.error (.broken (.unknownThread t)), s) := by
  unfold Exec.onMachine
  dsimp only
  rw [Action.run_detach]
  cases s.1.threads.contexts.get? t <;> rfl

/-- A thread that has come to its end loses its context. -/
theorem run_endThread (p : Platform (W × Notes)) (t : ThreadId) (s : Machine × W × Notes) :
    endThread p t s =
      match Exec.attempt (runThread p t) s with
      | (.ok _, s₁) => Exec.onMachine (Action.detach t) s₁
      | (.error e, s₁) => (.error e, s₁) := by
  unfold endThread
  rw [run_bind, run_discard]
  rcases Exec.attempt (runThread p t) s with ⟨e | x, s₁⟩ <;> rfl

/-- Dropping the context of a thread happens on the machine alone. -/
theorem world_endThread (p : Platform (W × Notes)) (t : ThreadId) (s : Machine × W × Notes) :
    (endThread p t s).2.2 = (runThread p t s).2.2 := by
  rw [run_endThread, ← Exec.state_attempt]
  rcases Exec.attempt (runThread p t) s with ⟨e | x, s₁⟩
  · rfl
  · dsimp only
    rw [run_detach]
    split <;> rfl

/-- The state after a context was given out, with a note on it. -/
def afterDrop (t : ThreadId) (r : Except Stop Thread × Machine × W × Notes) :
    Machine × W × Notes :=
  (r.2.1, r.2.2.1, r.2.2.2.add (lastEvents t r.1.toOption))

/-- Where dropping failed, nothing was dropped. -/
theorem afterDrop_error (t : ThreadId) (e : Stop) (s : Machine × W × Notes) :
    afterDrop t (.error e, s) = s := by
  show (s.1, s.2.1, s.2.2.add []) = s
  rw [Notes.add_nil]

/-- A context may be dropped whose body was not under way. -/
theorem Goes.detach (h : Goes s₀ s)
    (hout : s.2.2.Few → Tracks s₀ → t ∉ bodiesIn s₀.2.2.events) :
    Goes s₀ (afterDrop t (Exec.onMachine (Action.detach t) s)) := by
  rw [run_detach]
  cases hx : s.1.threads.contexts.get? t with
  | none =>
    dsimp only
    rw [afterDrop_error]
    exact h
  | some x => exact h.drop (by rw [hx]; rfl) hout

/-- The body of a thread may end, and its context be dropped, if it was not under way before. -/
theorem Goes.endThread (hp : p.Tracking) (h : Goes s₀ s)
    (hout : s.2.2.Few → Tracks s₀ → t ∉ bodiesIn s₀.2.2.events) :
    Goes s₀ (afterDrop t (endThread p t s)) := by
  have hrun := (hp.goesOn_runThread t).attempt s
  rw [run_endThread]
  -- Where the body does not come to its end, the context stays.
  rcases hattempt : Exec.attempt (runThread p t) s with ⟨e | x, s₁⟩
  · rw [hattempt] at hrun
    dsimp only
    rw [afterDrop_error]
    exact h.trans hrun
  · rw [hattempt] at hrun
    exact (h.trans hrun).detach fun hfew => hout (hfew.of_grows hrun.grows)

/-- A thread whose context is there and whose object is live comes to its end. -/
theorem Platform.Tracking.endThread_eq_ok (hp : p.Tracking) (hs : Tracks s)
    (hfew : (endThread p t s).2.2.2.Few) {x : Thread} {peer : ObjectRef}
    (hx : s.1.threads.contexts.get? t = some x) (hpeer : x.peer = some peer)
    (hlive : (s.1.heap.get? peer).isSome) (hbody : t ∈ bodiesIn s.2.2.events) :
    ∃ last, (endThread p t s).1 = .ok last := by
  have hrun := (hp.goesOn_runThread t).attempt s
  obtain ⟨r, hr⟩ := attempt_eq_ok _ s (hp.answers_runThread hx hpeer hlive)
  rw [run_endThread] at hfew ⊢
  rcases hstate : Exec.attempt (runThread p t) s with ⟨_, s₁⟩
  rw [hstate] at hr hrun hfew
  subst hr
  -- The context was not dropped meanwhile, since its body was under way.
  have hfew₁ : s₁.2.2.Few := hfew
  have hsome : (s.1.threads.contexts.get? t).isSome := by
    rw [hx]
    rfl
  have hmem := hs.registered.isSome_get?_iff.mp hsome
  have hkept := hrun.keeps hfew₁ hs t hbody hmem.2
  have hcreated := (hrun.grows.filterMap created?).subset hmem.1
  have hstill := (hrun.tracks hfew₁ hs).registered.isSome_get?_iff.mpr ⟨hcreated, hkept⟩
  obtain ⟨y, hy⟩ := Option.isSome_iff_exists.mp hstill
  dsimp only
  rw [run_detach, hy]
  exact ⟨_, rfl⟩

/-! ## Starts -/

/-- The state in which the host has answered about a new thread for an object. -/
def askedState (s : Machine × W × Notes) (peer : ObjectRef) (verdict : StartVerdict) (w : W) :
    Machine × W × Notes :=
  ({ s.1 with threads := (s.1.threads.attach (some peer)).1 }, w,
    s.2.2.add [.asked (.ofNumber s.1.threads.next) verdict])

/-- The host is asked about a context that was created before. -/
theorem goes_askedState (s : Machine × W × Notes) (peer : ObjectRef) (verdict : StartVerdict)
    (w : W) : Goes s (askedState s peer verdict w) :=
  .create rfl (.asked verdict)

/-- What comes of a start after the host has answered, with a note on a context that is dropped. -/
def followed (p : Platform (W × Notes)) (t : ThreadId) (verdict : StartVerdict)
    (s : Machine × W × Notes) : Except Stop Value × Machine × W × Notes :=
  let (r, m, w, n) := followVerdict p t verdict s
  (r.map fun last => StartOutcome.answer { thread := t, verdict, last }, m, w,
    n.add (lastEvents t r.toOption.join))

variable {peer : ObjectRef} {args : Arguments} {verdict : StartVerdict} {w : W}
  {result : Except Stop Value}

/-- A start creates a context, asks the host, and follows its verdict. -/
theorem Platform.Tracking.run_startOutcome (hp : p.Tracking) (peer : ObjectRef)
    (s : Machine × W × Notes) : ∃ verdict w,
      startOutcome p peer s =
        ((followVerdict p (.ofNumber s.1.threads.next) verdict (askedState s peer verdict w)).1.map
            fun last => { thread := .ofNumber s.1.threads.next, verdict, last },
          (followVerdict p (.ofNumber s.1.threads.next) verdict
            (askedState s peer verdict w)).2) := by
  obtain ⟨verdict, w, hstart⟩ :=
    hp.start (p.startRequest (.ofNumber s.1.threads.next)) s.2.1 s.2.2
  refine ⟨verdict, w, ?_⟩
  have hask : askHost p (p.startRequest (.ofNumber s.1.threads.next))
      ({ s.1 with threads := (s.1.threads.attach (some peer)).1 }, s.2) =
        (.ok verdict, askedState s peer verdict w) := by
    show (Except.ok (p.start _ (s.2.1, s.2.2)).1, _, (p.start _ (s.2.1, s.2.2)).2) = _
    rw [hstart]
    rfl
  unfold startOutcome
  rw [run_bind]
  show (askHost p (p.startRequest (.ofNumber s.1.threads.next)) >>= _ : Exec (W × Notes) _)
    ({ s.1 with threads := (s.1.threads.attach (some peer)).1 }, s.2) = _
  rw [run_bind, hask]
  dsimp only
  rw [run_bind]
  rcases followVerdict p (.ofNumber s.1.threads.next) verdict (askedState s peer verdict w)
    with ⟨e | last, s₁⟩ <;> rfl

/-- The native method that starts threads asks the host about a new thread, and follows the verdict.
-/
theorem Platform.Tracking.run_threadStart (hp : p.Tracking) (hargs : args.object 0 = .ok peer)
    (t : ThreadId) (s : Machine × W × Notes) : ∃ verdict w,
      notingDrops (Builtin.threadStart p t args) (startDrops p args) s =
        followed p (.ofNumber s.1.threads.next) verdict (askedState s peer verdict w) := by
  obtain ⟨verdict, w, hrun⟩ := hp.run_startOutcome peer s
  refine ⟨verdict, w, ?_⟩
  have hstart : Builtin.threadStart p t args s =
      (StartOutcome.answer <$> startOutcome p peer) s := by
    rw [threadStart_eq, hargs]
    rfl
  unfold notingDrops startDrops followed
  rw [hargs, hstart, run_map]
  dsimp only
  rw [hrun]
  rcases followVerdict p (.ofNumber s.1.threads.next) verdict (askedState s peer verdict w)
    with ⟨e | last, s₁⟩ <;> rfl

/-- After a refusal the new context is dropped again. -/
theorem followed_refused {x : Thread} (hx : s.1.threads.contexts.get? t = some x) :
    followed p t .refused s =
      (.ok (.long 0), afterDrop t ((Exec.onMachine (Action.detach t) : Exec (W × Notes) _) s)) := by
  unfold followed followVerdict afterDrop
  dsimp only
  rw [run_map, run_detach, hx]
  rfl

/-- A thread that runs at once has ended before its handle is given out. -/
theorem followed_inline (p : Platform (W × Notes)) (t : ThreadId) (s : Machine × W × Notes) :
    followed p t .inline s =
      ((endThread p t s).1.map fun _ => .long t.handle, afterDrop t (endThread p t s)) := by
  unfold followed followVerdict afterDrop
  dsimp only
  rw [run_map]
  rcases endThread p t s with ⟨e | x, s₁⟩ <;> rfl

/-- A thread that runs later keeps its context. -/
theorem followed_deferred (p : Platform (W × Notes)) (t : ThreadId) (s : Machine × W × Notes) :
    followed p t .deferred s = (.ok (.long t.handle), s) := by
  show (_, s.1, s.2.1, s.2.2.add []) = _
  rw [Notes.add_nil]
  rfl

/-- The context of a thread that the host was asked about. -/
theorem get?_askedState (s : Machine × W × Notes) (peer : ObjectRef) (verdict : StartVerdict)
    (w : W) :
    (askedState s peer verdict w).1.threads.contexts.get? (.ofNumber s.1.threads.next) =
      some { peer := some peer } := by
  show (s.1.threads.contexts.insert _ _).get? _ = _
  rw [Table.get?_insert, if_pos rfl]

/-- The new context is there while the host is asked. -/
theorem isSome_get?_askedState (s : Machine × W × Notes) (peer : ObjectRef)
    (verdict : StartVerdict) (w : W) :
    ((askedState s peer verdict w).1.threads.contexts.get?
      (.ofNumber s.1.threads.next)).isSome := by
  rw [get?_askedState]
  rfl

/-- A start keeps the run as it should be, whatever the host says. -/
theorem Platform.Tracking.goes_followed (hp : p.Tracking) (h : Goes s₀ s)
    (hout : s.2.2.Few → Tracks s₀ → t ∉ bodiesIn s₀.2.2.events)
    (ht : (s.1.threads.contexts.get? t).isSome) (verdict : StartVerdict) :
    Goes s₀ (followed p t verdict s).2 := by
  cases verdict with
  | refused =>
    obtain ⟨x, hx⟩ := Option.isSome_iff_exists.mp ht
    rw [followed_refused hx]
    exact h.detach hout
  | inline =>
    rw [followed_inline]
    exact h.endThread hp hout
  | deferred =>
    rw [followed_deferred]
    exact h

/-- What happened before the verdict is kept in the notes of a start. -/
theorem Platform.Tracking.grows_followed (hp : p.Tracking)
    (ht : (s.1.threads.contexts.get? t).isSome) (verdict : StartVerdict) :
    s.2.2.events <+: (followed p t verdict s).2.2.2.events := by
  cases verdict with
  | refused =>
    obtain ⟨x, hx⟩ := Option.isSome_iff_exists.mp ht
    rw [followed_refused hx, run_detach, hx]
    exact List.prefix_append ..
  | inline =>
    rw [followed_inline]
    have hrun := (hp.goesOn_runThread t s).grows
    rw [← world_endThread] at hrun
    exact hrun.trans (List.prefix_append ..)
  | deferred =>
    have hsame := congrArg (fun r => r.2.2.2.events) (followed_deferred p t s)
    exact ⟨[], (List.append_nil _).trans hsame.symm⟩

/-- Where the body of the thread comes to its end, the start gives a handle of the thread. -/
theorem Platform.Tracking.handle_followed (hp : p.Tracking) (hs : Tracks s)
    (hfew : (followed p t verdict s).2.2.2.Few) {x : Thread}
    (hx : s.1.threads.contexts.get? t = some x) (hpeer : x.peer = some peer)
    (hbody : verdict = .inline → t ∈ bodiesIn s.2.2.events) (hnot : verdict ≠ .refused)
    (hlive : verdict = .inline → (s.1.heap.get? peer).isSome) :
    (followed p t verdict s).1 = .ok (.long t.handle) := by
  cases verdict with
  | refused => exact absurd rfl hnot
  | inline =>
    rw [followed_inline] at hfew ⊢
    have hend : (endThread p t s).2.2.2.Few := hfew.of_grows (List.prefix_append ..)
    obtain ⟨last, hlast⟩ := hp.endThread_eq_ok hs hend hx hpeer (hlive rfl) (hbody rfl)
    dsimp only
    rw [hlast]
    rfl
  | deferred => rw [followed_deferred]

/-- Zero is given for no other verdict than a refusal. -/
theorem followed_eq_zero_iff (p : Platform (W × Notes)) (verdict : StartVerdict) {x : Thread}
    (hx : s.1.threads.contexts.get? t = some x) (ht : t.handle ≠ 0) :
    (followed p t verdict s).1 = .ok (.long 0) ↔ verdict = .refused := by
  cases verdict with
  | refused =>
    rw [followed_refused hx]
    exact ⟨fun _ => rfl, fun _ => rfl⟩
  | inline =>
    rw [followed_inline]
    refine ⟨fun h => ?_, fun h => nomatch h⟩
    dsimp only at h
    rcases hend : (endThread p t s).1 with e | x
    · rw [hend] at h
      cases h
    · rw [hend] at h
      injection h with h
      injection h with h
      exact absurd h ht
  | deferred =>
    rw [followed_deferred]
    refine ⟨fun h => ?_, fun h => nomatch h⟩
    injection h with h
    injection h with h
    exact absurd h ht

/-- A start on an object is reported as it should be. -/
theorem Platform.Tracking.answered (hp : p.Tracking) (hs : Tracks s)
    (hrun : followed p (.ofNumber s.1.threads.next) verdict (askedState s peer verdict w) =
      (result, s'))
    (hfew : s'.2.2.Few) :
    StartReport.Answered { before := sight s, args, result, after := sight s' } peer
      (.ofNumber s.1.threads.next) verdict := by
  have hx := get?_askedState s peer verdict w
  have hgrows := hp.grows_followed (isSome_get?_askedState s peer verdict w) verdict
  rw [hrun] at hgrows
  have hfew₁ : (askedState s peer verdict w).2.2.Few := hfew.of_grows hgrows
  have hs₁ := (goes_askedState s peer verdict w).tracks hfew₁ hs
  -- The number of the thread is so small that its handle is positive.
  have hsmall : (ThreadId.ofNumber s.1.threads.next).raw.toNat < 2 ^ 63 := by
    rw [hs.registered.raw_next]
    exact hfew₁.of_creates (.asked verdict)
  constructor
  case fresh => exact hs.registered.next_not_mem
  case asked =>
    obtain ⟨rest, hrest⟩ := hgrows
    refine ⟨rest, ?_⟩
    show s'.2.2.events = _
    rw [← hrest]
    exact List.append_assoc ..
  case zero_iff =>
    have hzero := followed_eq_zero_iff p verdict hx (ThreadId.handle_ne_zero hsmall)
    rwa [hrun] at hzero
  case unchanged =>
    rintro rfl
    rw [followed_refused hx, run_detach, hx] at hrun
    cases hrun
    exact Table.erase_insert_of_not_mem hs.registered.next_not_mem_keys _
  case handle =>
    intro hnot hlive
    have hbody : verdict = .inline → ThreadId.ofNumber s.1.threads.next ∈
        bodiesIn (askedState s peer verdict w).2.2.events := by
      rintro rfl
      show _ ∈ bodiesIn (s.2.2.events ++ _)
      rw [bodiesIn_append]
      exact List.mem_append_right _ (List.mem_singleton.mpr rfl)
    have hhandle := hp.handle_followed hs₁ (by rw [hrun]; exact hfew) hx rfl hbody hnot hlive
    rw [hrun] at hhandle
    exact ⟨_, hhandle, ThreadId.handle_ne_zero hsmall, ThreadId.ofHandle?_handle hsmall⟩

/-! ## Requests -/

/-- A start is reported. -/
theorem Goes.report (h : Goes s s') {r : StartReport} (hr : s'.2.2.Few → Tracks s → r.Right) :
    Goes s (s'.1, s'.2.1, { s'.2.2 with starts := s'.2.2.starts ++ [r] }) where
  grows := h.grows
  tracks hfew hs := by
    have hs' := h.tracks hfew hs
    refine ⟨hs'.registered, hs'.sights, fun x hx => ?_⟩
    rcases List.mem_append.mp hx with hold | hlast
    · exact hs'.starts x hold
    · rw [List.mem_singleton.mp hlast]
      exact hr hfew hs
  keeps := h.keeps

/-- What there is to see is noted. -/
theorem goes_see (s : Machine × W × Notes) : Goes s (see s) where
  grows := List.prefix_rfl
  tracks _ hs := by
    refine ⟨hs.registered, fun x hx => ?_, hs.starts⟩
    rcases List.mem_append.mp hx with hold | hlast
    · exact hs.sights x hold
    · rw [List.mem_singleton.mp hlast]
      exact hs.registered.accounted (s := sight s)
  keeps _ _ _ _ := id

/-- A start that is reported keeps the run, whatever its verdict is. -/
theorem Platform.Tracking.goesOn_reportedStart (hp : p.Tracking) (t : ThreadId) (args : Arguments) :
    GoesOn (reportedStart p t args) := by
  intro s
  cases hargs : args.object 0 with
  | error e =>
    have hrun : notingDrops (Builtin.threadStart p t args) (startDrops p args) s =
        (.error (.thrown e), s) := by
      unfold notingDrops startDrops Builtin.threadStart
      rw [hargs]
      show (_, s.1, s.2.1, s.2.2.add []) = _
      rw [Notes.add_nil]
    unfold reportedStart
    rw [hrun]
    refine (Goes.refl s).report fun _ _ => ?_
    unfold StartReport.Right
    dsimp only
    rw [hargs]
    exact ⟨rfl, rfl⟩
  | ok peer =>
    obtain ⟨verdict, w, hrun⟩ := hp.run_threadStart hargs t s
    -- The thread is new, so its body was not under way before.
    have hout : (askedState s peer verdict w).2.2.Few → Tracks s →
        ThreadId.ofNumber s.1.threads.next ∉ bodiesIn s.2.2.events :=
      fun _ hs hbody => hs.registered.next_not_mem (hs.registered.body_created _ hbody)
    have hgoes := hp.goes_followed (goes_askedState s peer verdict w) hout
      (isSome_get?_askedState s peer verdict w) verdict
    unfold reportedStart
    rw [hrun]
    refine hgoes.report fun hfew hs => ?_
    unfold StartReport.Right
    dsimp only
    rw [hargs]
    exact ⟨_, verdict, hp.answered hs rfl hfew⟩

/-- A context is made for the next thread, or the machine keeps its contexts. -/
theorem Action.run_attach (peer : Option ObjectRef) (m : Machine) :
    (∃ e m', attach peer m = (.error e, m') ∧ m'.threads = m.threads) ∨
      ∃ r m', attach peer m = (.ok (.ofNumber m.threads.next), m') ∧
        m'.threads = (m.threads.attach (some r)).1 := by
  cases peer with
  | some r => exact Or.inr ⟨r, _, rfl, rfl⟩
  | none =>
    rw [run_attach_none]
    rcases m.classes.get .thread with e | cls
    · exact Or.inl ⟨e, m, rfl, rfl⟩
    · exact Or.inr ⟨_, _, rfl, rfl⟩

/-- An engine may attach threads of its own. -/
theorem goesOn_attach (p : Platform (W × Notes)) (t : ThreadId) (peer : Option ObjectRef) :
    GoesOn ((ThreadRequest.attach peer).run p t) := by
  intro s
  rw [ThreadRequest.run, run_bind]
  unfold Exec.onMachine
  dsimp only
  rcases Action.run_attach peer s.1 with ⟨e, m', hrun, hthreads⟩ | ⟨r, m', hrun, hthreads⟩
  · rw [hrun]
    exact .of_steady fun _ => .of_eq hthreads
  · rw [hrun]
    exact .create hthreads .attached

/-- An engine may drop contexts whose bodies are not under way. -/
theorem goesOn_detach (p : Platform (W × Notes)) (t t' : ThreadId) :
    GoesOn ((ThreadRequest.detach t').run p t) := by
  intro s
  rw [ThreadRequest.run, run_bind]
  dsimp only [Exec.world]
  by_cases hfree : Free s.2.2.events t'
  · have hdrop := (Goes.refl s).detach (t := t') fun _ _ => hfree.2.1
    rw [if_pos hfree, run_bind]
    rcases hrun : (Exec.onMachine (Action.detach t') : Exec (W × Notes) Thread) s with ⟨e | x, s₁⟩
    · rw [hrun, afterDrop_error] at hdrop
      exact hdrop
    · rw [hrun] at hdrop
      exact hdrop
  · rw [if_neg hfree]
    exact .refl s

/-- A thread that is run to its end, with a note on its context. -/
theorem snd_notingDrops_finishThread (p : Platform (W × Notes)) (t : ThreadId)
    (s : Machine × W × Notes) :
    (notingDrops (finishThread p t) (endDrops p t) s).2 = afterDrop t (endThread p t s) := by
  unfold notingDrops endDrops afterDrop
  rw [← discard_endThread, run_discard]

/-- An engine may run the bodies of threads that were left to it. -/
theorem Platform.Tracking.goesOn_complete (hp : p.Tracking) (t t' : ThreadId) :
    GoesOn ((ThreadRequest.complete t').run p t) := by
  intro s
  rw [ThreadRequest.run, run_bind]
  dsimp only [Exec.world]
  by_cases hfree : t' ∈ deferredIn s.2.2.events ∧ Free s.2.2.events t'
  · have hbegin : Goes s (s.1, s.2.1, s.2.2.add [.begun t']) := .begin hfree.2.1
    have hend := hbegin.endThread hp (t := t') fun _ _ => hfree.2.2.1
    rw [if_pos hfree, run_bind]
    show Goes s ((notingDrops (finishThread p t') (endDrops p t') >>= fun _ => pure .null :
      Exec (W × Notes) Value) (s.1, s.2.1, s.2.2.add [.begun t'])).2
    rw [snd_bind_pure, snd_notingDrops_finishThread]
    exact hend
  · rw [if_neg hfree]
    exact .refl s

/-- Every request keeps the run as it should be. -/
theorem Platform.Tracking.goesOn_request (hp : p.Tracking) (t : ThreadId) (r : ThreadRequest) :
    GoesOn (r.run p t) := by
  cases r with
  | attach peer => exact goesOn_attach p t peer
  | detach t' => exact goesOn_detach p t t'
  | start args => exact hp.goesOn_reportedStart t args
  | complete t' => exact hp.goesOn_complete t t'
  | turn t' state =>
    rw [ThreadRequest.run]
    dsimp only
    split
    · next h =>
      exact (goesOn_onMachine fun m hm => Action.steady_setState hm t' h).discard.bind
        fun _ => goesOn_pure _
    · exact goesOn_pure _
  | wait t' r millis =>
    rw [ThreadRequest.run]
    exact (goesOn_onMachine fun m hm => Action.steady_wait hm t' r millis).discard.bind
      fun _ => goesOn_pure _
  | collect t' keep =>
    rw [ThreadRequest.run]
    exact (goesOn_onMachine fun m hm => Action.steady_collect hm t' keep).discard.bind
      fun _ => goesOn_pure _
  | alter t' f =>
    rw [ThreadRequest.run]
    exact fun s => .of_steady fun _ => .update fun _ _ => id
  | invoke t' x receiver args => exact hp.keeps t' x receiver args
  | elsewhere f => exact fun s => .of_steady fun _ => .of_eq rfl

/-- A script keeps the run, request by request. -/
theorem Platform.Tracking.goesOn_script (hp : p.Tracking) (t : ThreadId)
    (script : ThreadScript W) : GoesOn (script.run p t) := by
  induction script with
  | finish result w =>
    rintro ⟨m, w₀, n⟩
    exact (Goes.of_steady fun _ => .of_eq rfl).trans (goes_see (m, w, n))
  | request r w next ih =>
    rintro ⟨m, w₀, n⟩
    have hsee : Goes (m, w₀, n) (see (m, w, n)) :=
      (Goes.of_steady fun _ => .of_eq rfl).trans (goes_see (m, w, n))
    rw [ThreadScript.run]
    exact (hsee.trans (hp.goesOn_request t r _)).trans (ih _ _ _ _)

/-- A script comes to an end, with a value or with an exception. -/
theorem answers_threadScript (p : Platform (W × Notes)) (t : ThreadId) (script : ThreadScript W)
    (s : Machine × W × Notes) : Answers (script.run p t s).1 := by
  induction script generalizing s with
  | finish result w =>
    rcases result with e | v
    · exact answers_thrown e
    · exact answers_ok v
  | request r w next ih =>
    rw [ThreadScript.run]
    exact ih _ _ _ _

/-- Every engine tracks threads over every host, however deep its calls nest. -/
theorem tracking_platform (e : ThreadEngine W) (base : Platform W) (depth : Nat) :
    (e.platform base depth).Tracking := by
  -- What a method asks for is met on the platform of one level less.
  induction depth with
  | zero =>
    exact ⟨fun _ _ _ _ => goesOn_raise _, fun _ _ _ _ _ => answers_thrown _,
      fun request w n => ⟨_, _, rfl⟩⟩
  | succ depth ih =>
    refine ⟨?_, ?_, ih.start⟩
    · rintro t x receiver args ⟨m, w, n⟩
      exact ih.goesOn_script t (e t x receiver args m w) (m, w, n)
    · rintro t x receiver args ⟨m, w, n⟩
      exact answers_threadScript _ t (e t x receiver args m w) (m, w, n)

/-- In every run that begins without contexts and does not come to `2 ^ 63` threads, the registered
contexts are accounted for at the end and at every moment before, and every start of a thread gave
what it should. -/
theorem contexts_of_run (e : ThreadEngine W) (base : Platform W) (depth : Nat) (t : ThreadId)
    (script : ThreadScript W) {m₀ m : Machine} {w₀ w : W} {n : Notes} {result : Except Stop Value}
    (hm₀ : m₀.threads = {})
    (hrun : script.run (e.platform base depth) t (m₀, w₀, {}) = (result, m, w, n)) (hfew : n.Few) :
    Sight.Accounted ⟨m, n.events⟩ ∧ (∀ s ∈ n.sights, s.Accounted) ∧ ∀ r ∈ n.starts, r.Right := by
  have hstart : Tracks (m₀, w₀, ({} : Notes)) :=
    ⟨hm₀ ▸ registered_nil, fun _ h => (nomatch h), fun _ h => (nomatch h)⟩
  have hgoes := (tracking_platform e base depth).goesOn_script t script (m₀, w₀, {})
  rw [hrun] at hgoes
  have hend := hgoes.tracks hfew hstart
  exact ⟨hend.registered.accounted (s := ⟨m, n.events⟩), hend.sights, hend.starts⟩

end Runs

/-- A class of threads whose objects have a method `run`, and an object of it. -/
def workerMachine : Machine :=
  let owner := ClassTable.bootstrap.nextId
  let run : Method :=
    { owner, name := "run", descriptor := "()V", flags := publicFlag, params := [], result := none }
  let worker : Class :=
    { name := "Worker", superclass := some .thread, kind := .ordinary, methods := [run] }
  { classes := ClassTable.bootstrap.push worker
    heap := (({} : Heap).allocate owner (.ofLayout worker.layout)).1 }

/-- A host that answers as a list says. -/
def listedHost : Platform (List StartVerdict) where
  invoke _ _ _ _ := pure .null
  start _ verdicts := (verdicts.headD .refused, verdicts.tail)
  keep _ _ _ := true

/-- Bodies that start another thread as long as the host has answers left. -/
def startingEngine : ThreadEngine (List StartVerdict) := fun _ _ _ _ _ verdicts =>
  match verdicts with
  | [] => .finish (.ok .null) []
  | verdicts =>
    .request (.start [.ref ⟨0⟩]) verdicts fun _ _ verdicts => .finish (.ok .null) verdicts

/-- A thread attaches itself, starts a thread twice, and has the fifth thread run to its end. -/
def startingScript : ThreadScript (List StartVerdict) :=
  .request (.attach none) [.inline, .inline, .refused, .deferred] fun _ _ verdicts =>
  .request (.start [.ref ⟨0⟩]) verdicts fun _ _ verdicts =>
  .request (.start [.ref ⟨0⟩]) verdicts fun _ _ verdicts =>
  .request (.complete (.ofNumber 5)) verdicts fun _ _ verdicts =>
  .finish (.ok .null) verdicts

/-- The first body starts the next one within it, and that one is refused a third. -/
def startingRun : Except Stop Value × Machine × List StartVerdict × Notes :=
  startingScript.run (startingEngine.platform listedHost 3) (.ofNumber 1) (workerMachine, [], {})

/-- Threads that start others, inline and deferred, in a run with a refusal. -/
theorem contexts_of_run_nested :
    startingRun.2.2.2.Few ∧
      startingRun.2.1.threads.contexts.keys = [.ofNumber 1] ∧
      startingRun.2.2.2.starts.map (·.result.toOption) =
        [some (.long 0), some (.long 3), some (.long 2), some (.long 5)] ∧
      (∀ s ∈ startingRun.2.2.2.sights, s.Accounted) ∧
      ∀ r ∈ startingRun.2.2.2.starts, r.Right := by
  have hfew : startingRun.2.2.2.Few := by decide +kernel
  have hsession : startingScript.run (startingEngine.platform listedHost 3) (.ofNumber 1)
      (workerMachine, [], {}) =
        (startingRun.1, startingRun.2.1, startingRun.2.2.1, startingRun.2.2.2) := rfl
  have hrun := contexts_of_run startingEngine listedHost 3 (.ofNumber 1) startingScript rfl hsession
    hfew
  exact ⟨hfew, by decide +kernel, by decide +kernel, hrun.2.1, hrun.2.2⟩

end JavaMachine
