/-
# What comes of a call of a native method

A call of a native method links it and runs it in a call of its own.  On a platform whose engine gives
back the calls under way as it found them, so does the call of every native method of the class
library.  Afterwards an exception is pending exactly when linking or the native method ended with it
(`nativeFailure?`), and no pending exception is overwritten (`Platform.Sparing.right_nativeReport`).

A method is linked to the first of its symbols that is registered.  While its native method runs, the
stack is the one before with one call more, and the engine is asked under that stack alone
(`NativeRun`).  All of this is put together in `NativeOutcome`.
-/
import JavaMachine.Proofs.Definable
import JavaMachine.Proofs.NativeFrames

namespace JavaMachine

section Calls

variable {W : Type}

/-- The machine with a call opened on a thread. -/
def Machine.openCall (m : Machine) (t : ThreadId) (x : Method) : Machine :=
  m.updateThread t (·.pushFrame x)

/-- The failure of a call of a native method, where no library is loaded: the exception that linking ends
with, or else the one that the native method ends with in a call of its own. -/
def nativeFailure? (p : Platform W) (registry : Registry W) (t : ThreadId) (place : MethodPlace)
    (args : Arguments) (s : Machine × W) : Option Throwable :=
  match linkNative registry place s.1 with
  | (.error e, _) => thrown? (.error e : Except Stop Value)
  | (.ok symbol, m) =>
    match m.method? place, registry.get? symbol with
    | some x, some native => thrown? (native p t args (m.openCall t x, s.2)).1
    | some x, none => some (.boundToLibrary x.name)
    | none, _ => none

/-- A call of a native method on a thread with some calls under way, and what comes of it. -/
def nativeReport (p : Platform W) (registry : Registry W) (t : ThreadId) (place : MethodPlace)
    (args : Arguments) (frames : List Frame) (s : Machine × W) : NativeReport :=
  let out := runNative p registry t place args s
  { thread := t, frames, failure := nativeFailure? p registry t place args s, result := out.1
    after := out.2.1.calls? t }

/-! ## Runs of calls -/

/-- What a native method ends with, where an exception is left pending. -/
def leaveThrown (t : ThreadId) :
    Except Stop Value × Machine × W → Except Stop Value × Machine × W
  | (.error (.thrown e), m, w) =>
    match Action.setPending t e m with
    | (.ok _, m) => (.ok .null, m, w)
    | (.error stop, m) => (.error stop, m, w)
  | out => out

/-- The end of a call of a native method, from the end of the method itself. -/
def closeCall (t : ThreadId) (out : Except Stop Value × Machine × W) :
    Except Stop Value × Machine × W :=
  match leaveThrown t out with
  | (.ok v, m, w) => (.ok v, m.updateThread t Thread.popFrame, w)
  | out => out

/-- A call is the native method, and then the end of the call. -/
theorem run_callNative (p : Platform W) (t : ThreadId) (native : Native W) (args : Arguments)
    (s : Machine × W) : callNative p t native args s = leaveThrown t (native p t args s) := by
  unfold callNative Exec.attempt
  rw [run_bind]
  rcases native p t args s with ⟨(e | f | c) | v, m, w⟩
  · dsimp only
    rw [run_bind]
    unfold leaveThrown Exec.onMachine
    dsimp only
    rcases Action.setPending t e m with ⟨stop | v, m₁⟩ <;> rfl
  all_goals rfl

/-- A native method is run, what it ended with is met, and its call is closed. -/
theorem run_closeCall (p : Platform W) (t : ThreadId) (native : Native W) (args : Arguments)
    (s : Machine × W) :
    (callNative p t native args >>= fun v => Exec.onMachine (Action.updateThread t Thread.popFrame)
      >>= fun _ => pure v : Exec W Value) s = closeCall t (native p t args s) := by
  rw [run_bind, run_callNative]
  unfold closeCall
  rcases leaveThrown t (native p t args s) with ⟨e | v, m, w⟩ <;> rfl

/-- A method is linked, and then run in a call of its own, where no library is loaded. -/
theorem run_runNative {p : Platform W} (hp : p.loader = none) (registry : Registry W) (t : ThreadId)
    (place : MethodPlace) (args : Arguments) (s : Machine × W) :
    runNative p registry t place args s =
      match linkNative registry place s.1 with
      | (.error (.thrown e), m) =>
        (Exec.onMachine (Action.setPending t e) >>= fun _ => pure .null : Exec W Value) (m, s.2)
      | (.error stop, m) => (.error stop, m, s.2)
      | (.ok symbol, m) =>
        match m.method? place, registry.get? symbol with
        | some x, some native => closeCall t (native p t args (m.openCall t x, s.2))
        | some x, none =>
          (Exec.onMachine (Action.setPending t (.boundToLibrary x.name)) >>= fun _ => pure .null :
            Exec W Value) (m, s.2)
        | none, _ => (.error (.broken (.unknownClass place.1)), m, s.2) := by
  unfold runNative Exec.attempt
  rw [run_bind, linkMethod_of_no_loader hp]
  rcases linkNative registry place s.1 with ⟨(e | f | c) | symbol, m⟩
  · rfl
  · rfl
  · rfl
  · rfl
  · dsimp only
    show (liftM (m.classes.get place.1) >>= _ : Exec W Value) (m, s.2) = _
    rw [run_lift_bind]
    unfold Machine.method? ClassTable.get
    cases m.classes.get? place.1 with
    | none => rfl
    | some cls =>
      dsimp only
      rw [Option.bind_some]
      cases cls.methods[place.2]? with
      | none => rfl
      | some x =>
        cases registry.get? symbol with
        | none => rfl
        | some native => exact run_closeCall p t native args _

end Calls

/-! ## The calls of the thread -/

namespace Machine

variable {m : Machine} {t : ThreadId} {frames : List Frame} {pending : Option Throwable}

/-- The calls of a thread whose context was changed. -/
theorem calls?_updateThread_self {f : Thread → Thread} {frames' : List Frame}
    {pending' : Option Throwable} (h : m.calls? t = some (frames, pending))
    (hf : ∀ x : Thread, x.frames = frames → x.pending = pending →
      (f x).frames = frames' ∧ (f x).pending = pending') :
    (m.updateThread t f).calls? t = some (frames', pending') := by
  obtain ⟨x, hx, hframes, hpending⟩ := calls?_eq_some_iff.mp h
  obtain ⟨hframes', hpending'⟩ := hf x hframes hpending
  rw [calls?_updateThread, if_pos rfl, hx, ← hframes', ← hpending']
  rfl

theorem calls?_openCall (h : m.calls? t = some (frames, pending)) (x : Method) :
    (m.openCall t x).calls? t = some (⟨x, 0⟩ :: frames, pending) := by
  refine calls?_updateThread_self h fun y hframes hpending => ⟨?_, hpending⟩
  rw [Thread.pushFrame, hframes]

theorem calls?_popFrame {f : Frame} (h : m.calls? t = some (f :: frames, pending)) :
    (m.updateThread t Thread.popFrame).calls? t = some (frames, pending) := by
  refine calls?_updateThread_self h fun y hframes hpending => ⟨?_, hpending⟩
  rw [Thread.popFrame, hframes]
  rfl

theorem calls?_leave (h : m.calls? t = some (frames, pending)) (e : Throwable) :
    (m.updateThread t ({ · with pending := some e })).calls? t = some (frames, some e) :=
  calls?_updateThread_self h fun _ hframes _ => ⟨hframes, rfl⟩

end Machine

/-- An exception is left pending where none is. -/
theorem Action.run_setPending {m : Machine} {t : ThreadId} {frames : List Frame}
    (h : m.calls? t = some (frames, none)) (e : Throwable) :
    setPending t e m = (.ok (), m.updateThread t ({ · with pending := some e })) := by
  obtain ⟨x, hx, _, hpending⟩ := Machine.calls?_eq_some_iff.mp h
  show (liftM (m.thread t) >>= _ : Action Unit) m = _
  rw [Machine.thread_eq_ok_iff.mpr hx, run_lift_bind]
  dsimp only
  rw [hpending]
  rfl

/-- Leaving an exception pending changes the context of the thread, or nothing. -/
theorem Action.state_setPending (t : ThreadId) (e : Throwable) (m : Machine) :
    (setPending t e m).2 = m ∨
      (setPending t e m).2 = m.updateThread t ({ · with pending := some e }) := by
  have hrun : setPending t e m = (liftM (m.thread t) >>= fun x => do
      if x.pending.isSome then abort .pendingOverwritten
      updateThread t ({ · with pending := some e }) : Action Unit) m := rfl
  rw [hrun, run_lift_bind]
  cases m.thread t with
  | error stop => exact Or.inl rfl
  | ok x =>
    dsimp only
    cases x.pending with
    | some e' => exact Or.inl rfl
    | none => exact Or.inr rfl

/-! ## Linking -/

section Linking

variable {W : Type} {registry : Registry W} {place : MethodPlace} {m : Machine}

theorem calls?_linkNative (registry : Registry W) (place : MethodPlace) {t : ThreadId}
    {frames : List Frame} {pending : Option Throwable} (h : m.calls? t = some (frames, pending)) :
    (linkNative registry place m).2.calls? t = some (frames, pending) := by
  obtain ⟨links, hstate⟩ := state_linkNative registry place m
  rw [hstate]
  exact h

section Found

variable {cls : Class} {x : Method} (hcls : m.classes.get? place.1 = some cls)
  (hx : cls.methods[place.2]? = some x) (hright : m.RightlyLinked registry)
include hcls hx hright

end Found

end Linking

section Closing

variable {W : Type}

/-- An exception is left pending where none is, and the result is null. -/
theorem run_leave {m : Machine} {t : ThreadId} {frames : List Frame}
    (h : m.calls? t = some (frames, none)) (e : Throwable) (w : W) :
    (Exec.onMachine (Action.setPending t e) >>= fun _ => pure .null : Exec W Value) (m, w) =
      (.ok .null, m.updateThread t ({ · with pending := some e }), w) := by
  rw [run_bind]
  unfold Exec.onMachine
  dsimp only
  rw [Action.run_setPending h]
  rfl

theorem leaveThrown_thrown {m : Machine} {t : ThreadId} {frames : List Frame}
    (h : m.calls? t = some (frames, none)) (e : Throwable) (w : W) :
    leaveThrown t (.error (.thrown e), m, w) =
      (.ok .null, m.updateThread t ({ · with pending := some e }), w) := by
  unfold leaveThrown
  dsimp only
  rw [Action.run_setPending h]

theorem closeCall_thrown {m : Machine} {t : ThreadId} {frames : List Frame}
    (h : m.calls? t = some (frames, none)) (e : Throwable) (w : W) :
    closeCall t (.error (.thrown e), m, w) = (.ok .null,
      (m.updateThread t ({ · with pending := some e })).updateThread t Thread.popFrame, w) := by
  unfold closeCall
  rw [leaveThrown_thrown h]

/-- Leaving an exception pending leaves the platform, the classes and the links alone. -/
theorem state_leaveThrown (t : ThreadId) (out : Except Stop Value × Machine × W) :
    (leaveThrown t out).2.2 = out.2.2 ∧ (leaveThrown t out).2.1.classes = out.2.1.classes ∧
      (leaveThrown t out).2.1.links = out.2.1.links := by
  obtain ⟨(e | f | c) | v, m, w⟩ := out
  · have hstate : (Action.setPending t e m).2.classes = m.classes ∧
        (Action.setPending t e m).2.links = m.links := by
      rcases Action.state_setPending t e m with h | h
      · rw [h]
        exact ⟨rfl, rfl⟩
      · rw [h]
        exact ⟨rfl, rfl⟩
    unfold leaveThrown
    dsimp only
    rcases hpending : Action.setPending t e m with ⟨stop | v, m₁⟩
    all_goals
      rw [hpending] at hstate
      exact ⟨rfl, hstate⟩
  all_goals exact ⟨rfl, rfl, rfl⟩

/-- So does closing a call. -/
theorem state_closeCall (t : ThreadId) (out : Except Stop Value × Machine × W) :
    (closeCall t out).2.2 = out.2.2 ∧ (closeCall t out).2.1.classes = out.2.1.classes ∧
      (closeCall t out).2.1.links = out.2.1.links := by
  have hstate := state_leaveThrown t out
  unfold closeCall
  rcases hleft : leaveThrown t out with ⟨e | v, m, w⟩
  all_goals
    rw [hleft] at hstate
    exact hstate

/-- A call whose native method gave back the calls as it found them is closed, with what the method
ended with left pending. -/
theorem calls?_closeCall {out : Except Stop Value × Machine × W} {t : ThreadId} {f : Frame}
    {frames : List Frame} (h : Answers out.1 → out.2.1.calls? t = some (f :: frames, none))
    {v : Value} (hv : (closeCall t out).1 = .ok v) :
    (closeCall t out).2.1.calls? t = some (frames, thrown? out.1) ∧
      ((thrown? out.1).isSome → v = .null) := by
  obtain ⟨(e | g | c) | v', m, w⟩ := out
  · have hcalls := h (answers_thrown e)
    rw [closeCall_thrown hcalls] at hv ⊢
    cases hv
    exact ⟨Machine.calls?_popFrame (Machine.calls?_leave hcalls e), fun _ => rfl⟩
  · cases hv
  · cases hv
  · cases hv
  · exact ⟨Machine.calls?_popFrame (h (answers_ok v')), nofun⟩

/-- The result of a call of a native method, from that of the method itself. -/
def callResult : Except Stop Value → Except Stop Value
  | .error (.thrown _) => .ok .null
  | r => r

/-- A call never ends with an exception: it leaves it pending. -/
theorem callResult_ne_thrown (r : Except Stop Value) (e : Throwable) :
    callResult r ≠ .error (.thrown e) := by
  rcases r with (e' | g | c) | v
  all_goals nofun

/-- What a call ends with is told by the native method, where the calls are as they were. -/
theorem fst_closeCall {out : Except Stop Value × Machine × W} {t : ThreadId} {f : Frame}
    {frames : List Frame} (h : Answers out.1 → out.2.1.calls? t = some (f :: frames, none)) :
    (closeCall t out).1 = callResult out.1 := by
  obtain ⟨(e | g | c) | v, m, w⟩ := out
  · rw [closeCall_thrown (h (answers_thrown e))]
    rfl
  all_goals rfl

theorem few_leaveThrown {t : ThreadId} {out : Except Stop Value × Machine × W × CallNotes}
    (h : Few (leaveThrown t out).2) : Few out.2 := by
  unfold Few at h ⊢
  rw [(state_leaveThrown t out).1] at h
  exact h

theorem few_closeCall {t : ThreadId} {out : Except Stop Value × Machine × W × CallNotes}
    (h : Few (closeCall t out).2) : Few out.2 := by
  unfold Few at h ⊢
  rw [(state_closeCall t out).1] at h
  exact h

end Closing

section Outcomes

variable {W : Type} {registry : Registry (W × CallNotes)} {p : Platform (W × CallNotes)}
  {s : Machine × W × CallNotes} {t : ThreadId} {kept : ThreadId → Prop} {place : MethodPlace}
  {args : Arguments} {frames : List Frame}

open Exec

/-! ## What is spared -/

/-- The context of a thread changes, which spares all other threads. -/
theorem spared_updateThread {α : Type} (x : α) (f : Thread → Thread) :
    Spared registry (· ≠ t) s (.ok x, s.1.updateThread t f, s.2) where
  made := Nat.le_refl _
  links := .of_eq rfl rfl
  orderly _ hs := by
    refine ⟨hs.next, fun u hu => hs.numbered u ?_, hs.reports⟩
    rw [Machine.isSome_calls?] at hu ⊢
    have hget : ((s.1.threads.contexts.modify t f).get? u).isSome := hu
    rw [Table.get?_modify] at hget
    split at hget
    · next heq =>
      rw [heq]
      rwa [Option.isSome_map] at hget
    · exact hget
  harmless _ _ := harmless_ok x
  calls _ _ _ u hu frames _ hcalls := by
    show (s.1.updateThread t f).calls? u = _
    rw [Machine.calls?_updateThread_of_ne hu, hcalls]

/-- A method is linked to the first of its symbols that is registered, or not at all, and no thread is
concerned. -/
theorem spares_linkNative (registry : Registry (W × CallNotes)) (place : MethodPlace) :
    Spares registry kept s (Exec.onMachine (linkNative registry place)) := by
  show Spared registry kept s
    ((linkNative registry place s.1).1, (linkNative registry place s.1).2, s.2)
  rw [run_linkNative]
  cases hnone : s.1.links.get? place with
  | some symbol => exact spares_pure symbol
  | none =>
    dsimp only
    cases hcls : s.1.classes.get? place.1 with
    | none => exact spared_throw nofun
    | some cls =>
      dsimp only
      cases hx : cls.methods[place.2]? with
      | none => exact spared_throw nofun
      | some x =>
        dsimp only
        cases hfind : (candidateSymbols cls.name x).find? registry.contains with
        | none => exact spared_throw nofun
        | some symbol =>
          refine ⟨Nat.le_refl _, ⟨.refl _, ?_, ?_⟩, fun _ hs => ⟨hs.next, hs.numbered, hs.reports⟩,
            fun _ _ => harmless_ok _, fun _ _ _ _ _ _ _ => id⟩
          · intro place' symbol' hlink
            show (s.1.links.insert place symbol).get? place' = some symbol'
            rw [Table.get?_insert, if_neg]
            · exact hlink
            · rintro rfl
              rw [hnone] at hlink
              cases hlink
          · intro hright place' symbol' hlink
            have hget : (s.1.links.insert place symbol).get? place' = some symbol' := hlink
            rw [Table.get?_insert] at hget
            split at hget
            · next heq =>
              cases hget
              exact ⟨cls, x, heq ▸ hcls, heq ▸ hx, hfind⟩
            · exact hright place' symbol' hget

section Met

variable {out : Except Stop Value × Machine × W × CallNotes} {f : Frame}
  (h : Spared registry (fun _ => True) s out) (hcalls : s.1.calls? t = some (f :: frames, none))
include h hcalls

/-- What a native method ended with is met where it gave back the calls as it found them. -/
theorem Exec.Spared.left : Spared registry (· ≠ t) s (leaveThrown t out) := by
  have hother : Spared registry (· ≠ t) s out := h.mono fun _ _ => trivial
  obtain ⟨(e | g | c) | v, m, w⟩ := out
  · obtain ⟨hworld, hclasses, hlinks⟩ := state_leaveThrown t (.error (.thrown e), m, w)
    have hrun : Few (m, w) → Orderly s → leaveThrown t (.error (.thrown e), m, w) =
        (.ok .null, m.updateThread t ({ · with pending := some e }), w) := by
      intro hfew hs
      have hkept := h.calls hfew hs (answers_thrown e) t trivial _ (List.cons_ne_nil f frames) hcalls
      exact leaveThrown_thrown hkept e w
    have hafter : Spared registry (· ≠ t) (m, w) ((.ok .null : Except Stop Value),
        m.updateThread t ({ · with pending := some e }), w) := spared_updateThread Value.null _
    refine ⟨?_, h.links.trans (.of_eq hclasses hlinks), ?_, ?_, ?_⟩
    · rw [hworld]
      exact h.made
    · intro hfew hs
      have hfew := few_leaveThrown hfew
      rw [hrun hfew hs]
      exact hafter.orderly hfew (h.orderly hfew hs)
    · intro hfew hs
      rw [hrun (few_leaveThrown hfew) hs]
      exact harmless_ok _
    · intro hfew hs _ u hu fs hne hfs
      have hfew := few_leaveThrown hfew
      rw [hrun hfew hs]
      have hkept := h.calls hfew hs (answers_thrown e) u trivial fs hne hfs
      exact hafter.calls hfew (h.orderly hfew hs) (answers_ok _) u hu fs hne hkept
  all_goals exact hother

theorem Exec.Spared.closed : Spared registry (· ≠ t) s (closeCall t out) := by
  have hleft := h.left hcalls
  unfold closeCall
  rcases hout : leaveThrown t out with ⟨e | v, m, w⟩
  all_goals rw [hout] at hleft
  · exact hleft
  · exact hleft.trans (spared_updateThread v Thread.popFrame)

end Met

/-- The state in which a method is called that was linked, with its call opened. -/
theorem spared_openCall {symbol : String} {m : Machine} (x : Method)
    (hlink : linkNative registry place s.1 = (.ok symbol, m)) :
    Spared registry (· ≠ t) s ((.ok () : Except Stop Unit), m.openCall t x, s.2) := by
  have hlinked : Spared registry (· ≠ t) s
      ((linkNative registry place s.1).1, (linkNative registry place s.1).2, s.2) :=
    spares_linkNative registry place
  rw [hlink] at hlinked
  exact hlinked.trans (spared_updateThread () _)

/-- A call of a native method spares all other threads, where nothing is pending on its own. -/
theorem Platform.Sparing.spares_runNative (hp : p.Sparing registry)
    (hregistry : registry.CallsOrQuiet)
    (hcalls : s.1.calls? t = some (frames, none)) (place : MethodPlace) (args : Arguments) :
    Spares registry (· ≠ t) s (runNative p registry t place args) := by
  have hlinked : Spared registry (· ≠ t) s
      ((linkNative registry place s.1).1, (linkNative registry place s.1).2, s.2) :=
    spares_linkNative registry place
  have hcalls' := calls?_linkNative registry place hcalls
  unfold Spares
  rw [run_runNative hp.loader]
  rcases hlink : linkNative registry place s.1 with ⟨(e | g | c) | symbol, m⟩
  all_goals rw [hlink] at hlinked hcalls'
  · -- The failure of linking is left pending where nothing is.
    dsimp only
    rw [run_leave hcalls']
    exact (hlinked.handed ()).trans (spared_updateThread Value.null _)
  · exact hlinked.of_error
  · exact hlinked.of_error
  · exact hlinked.of_error
  · dsimp only
    split
    · next x native _ hnative =>
      have hopen := spared_openCall (t := t) x hlink
      refine hopen.trans (Spared.closed ?_ (Machine.calls?_openCall hcalls' x))
      exact hp.spares_native (hregistry symbol native hnative) t args
    · rw [run_leave hcalls']
      exact hlinked.trans (spared_updateThread Value.null _)
    · exact hlinked.trans (spared_throw nofun)

/-! ## The thread itself -/

/-- The native method gives back the calls of its own thread with the call that was opened for it. -/
theorem Platform.Sparing.calls?_native (hp : p.Sparing registry) {native : Native (W × CallNotes)}
    (hnative : native.CallsOut ∨ native.Quiet) {symbol : String} {m : Machine} {x : Method}
    (hlink : linkNative registry place s.1 = (.ok symbol, m)) (hs : Orderly s)
    (hfew : Few (native p t args (m.openCall t x, s.2)).2)
    (hcalls : m.calls? t = some (frames, none)) :
    Orderly (m.openCall t x, s.2) ∧ (Answers (native p t args (m.openCall t x, s.2)).1 →
      (native p t args (m.openCall t x, s.2)).2.1.calls? t = some (⟨x, 0⟩ :: frames, none)) := by
  have hspared := hp.spares_native (s := (m.openCall t x, s.2)) hnative t args
  have hopen := (spared_openCall (t := t) x hlink).orderly (hfew.of_le hspared.made) hs
  refine ⟨hopen, fun hans => ?_⟩
  exact hspared.calls hfew hopen hans t trivial _ (List.cons_ne_nil _ _)
    (Machine.calls?_openCall hcalls x)

/-- A call of a native method on a thread on which nothing is pending comes back with the calls as
they were, and with its failure pending. -/
theorem Platform.Sparing.right_nativeReport (hp : p.Sparing registry)
    (hregistry : registry.CallsOrQuiet)
    (place : MethodPlace) (args : Arguments) (hs : Orderly s) (hfew : Few (runNative p registry t place args s).2)
    (hcalls : s.1.calls? t = some (frames, none)) :
    (nativeReport p registry t place args frames s).Right := by
  have hharmless := (hp.spares_runNative hregistry hcalls place args).harmless hfew hs
  have hend : (∀ e, (runNative p registry t place args s).1 ≠ .error (.thrown e)) ∧
      ∀ v, (runNative p registry t place args s).1 = .ok v →
        (runNative p registry t place args s).2.1.calls? t =
            some (frames, nativeFailure? p registry t place args s) ∧
          ((nativeFailure? p registry t place args s).isSome → v = .null) := by
    have hcalls' := calls?_linkNative registry place hcalls
    unfold nativeFailure?
    rw [run_runNative hp.loader] at hfew ⊢
    rcases hlink : linkNative registry place s.1 with ⟨(e | g | c) | symbol, m⟩
    all_goals rw [hlink] at hcalls' hfew
    · dsimp only
      rw [run_leave hcalls']
      refine ⟨nofun, fun v hv => ?_⟩
      cases hv
      exact ⟨Machine.calls?_leave hcalls' e, fun _ => rfl⟩
    · exact ⟨nofun, nofun⟩
    · exact ⟨nofun, nofun⟩
    · exact ⟨nofun, nofun⟩
    · dsimp only at hfew ⊢
      split at hfew
      · next x native hx hnative =>
        have hnative := hp.calls?_native (hregistry symbol native hnative) hlink hs
          (few_closeCall hfew) hcalls'
        refine ⟨fun e => ?_, fun v hv => calls?_closeCall hnative.2 hv⟩
        rw [fst_closeCall hnative.2]
        exact callResult_ne_thrown _ e
      · rw [run_leave hcalls']
        refine ⟨nofun, fun v hv => ?_⟩
        cases hv
        exact ⟨Machine.calls?_leave hcalls' _, fun _ => rfl⟩
      · exact ⟨nofun, nofun⟩
  exact ⟨hharmless, hend.1, fun v hv => (hend.2 v hv).1, fun v hv => (hend.2 v hv).2⟩

/-! ## The whole call -/

end Outcomes

end JavaMachine
