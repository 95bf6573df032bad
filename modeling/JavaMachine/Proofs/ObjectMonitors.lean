/-
# The monitors of objects

Monitors are kept by the references of their objects, and a reference that was freed is given out
again.  In a run (`Machine.MonitorStep`) monitors of live objects are used, and collections free no
object whose monitor somebody outside of the table knows (`Machine.FreesIdle`).  Then every collection
drops the monitors of all objects that it frees, before their references are given out again, and so
what has a monitor is live (`Machine.MonitorsLive`).  The native methods of the class library take part
in such a run when they are given live references (`Machine.monitorRun_runNative`).
-/
import JavaMachine.Proofs.HeapRuns
import JavaMachine.Proofs.NativeEffects

namespace JavaMachine

/-! ## What operations leave alone -/

namespace Machine

variable {m m' : Machine}

/-- The monitors stay as they are. -/
def SameMonitors (m m' : Machine) : Prop := m'.monitors = m.monitors

instance : IsPreorder Machine SameMonitors where
  refl _ := rfl
  trans _ _ _ h h' := h'.trans h

theorem sameMonitors_writeArray (m : Machine) (r : ObjectRef) (a : ArrayBody) :
    m.SameMonitors (m.writeArray r a) := rfl

/-- What operations do at the bottom leaves monitors alone. -/
theorem allows_sameMonitors : Allows SameMonitors where
  classes _ _ hmonitors _ := hmonitors
  allocate _ _ _ _ := rfl
  intern _ _ _ := rfl
  setField h := by
    rcases setField_eq_ok h with ⟨w, _, ⟨_, _, rfl⟩ | ⟨_, _, _, _, _, _, _, _, rfl⟩⟩
    · rfl
    · rfl
  arrayStore h := by
    obtain ⟨r, a, b, _, _, _, rfl⟩ := arrayStore_eq_ok h
    exact sameMonitors_writeArray _ r b
  arrayCopy h := by
    rcases arrayCopy_eq_ok h with rfl | ⟨_, _, _, _, _, _, rfl⟩
    · rfl
    · rfl
  writeBytes h := by
    obtain ⟨_, data, _, _, rfl⟩ := Action.writeBytes_eq_ok h
    exact sameMonitors_writeArray _ _ (.primitive .byte data)

end Machine

namespace Action

open Machine (SameMonitors allows_sameMonitors)

variable {m : Machine}

theorem sameMonitors_fillArray (array : ObjectRef) (refs : List (Option ObjectRef)) :
    Follows SameMonitors m (Builtin.fillArray array refs) := by
  refine takes_get_bind (takes_lift_bind fun a _ => ?_)
  split
  · dsimp only
    split
    · exact (takes_abort (Q := fun _ _ => False) _).bind fun _ _ _ h => h.elim
    · exact takes_modify rfl trivial
  · exact takes_abort _

/-- An operation that is no collection leaves monitors alone. -/
theorem monitors_operation (path : ClassPath) (op : Operation)
    (hcollect : ∀ t keep, op ≠ .collect t keep) : (op.run path m).2.monitors = m.monitors := by
  have hfollows : Follows SameMonitors m (op.run path) := by
    refine follows_operation allows_sameMonitors path op (fun args _ => ?_) hcollect
    exact follows_resolveTrace_of allows_sameMonitors fun array refs _ =>
      sameMonitors_fillArray array refs
  exact hfollows.1

/-- An operation that is no collection frees nothing. -/
theorem live_operation (path : ClassPath) (op : Operation)
    (hcollect : ∀ t keep, op ≠ .collect t keep) (hs : m.heap.Sound) (hw : m.heap.WrittenLive)
    {r : ObjectRef} (hlive : (m.heap.get? r).isSome) :
    ((op.run path m).2.heap.get? r).isSome := by
  obtain ⟨o, ho⟩ := Option.isSome_iff_exists.mp hlive
  obtain ⟨_, _, hkeeps⟩ := Heap.changes_spec (changes_operation path op hcollect).1 hs hw
  obtain ⟨o', ho', _⟩ := hkeeps r o ho
  exact Option.isSome_of_eq_some ho'

/-- The monitor that an object has, a new one if it had none. -/
theorem result_monitor (r : ObjectRef) (m : Machine) :
    (monitor r m).1 = .ok (m.monitors.entry r).monitor := by
  show Except.ok ((m.monitors.touch r).entry r).monitor = _
  unfold MonitorTable.touch MonitorTable.entry
  rw [Table.get?_insert, if_pos rfl]
  rfl

end Action

/-! ## Pruning -/

namespace MonitorTable

variable {t : MonitorTable} {live : ObjectRef → Bool} {r : ObjectRef}

/-- A collection keeps the monitors of live objects. -/
theorem get?_prune_of_live (t : MonitorTable) (live : ObjectRef → Bool) (h : live r = true) :
    (t.prune live).get? r = t.get? r := by
  have hkept : ∀ e : MonitorEntry, (r, e) ∈ t.entries → (live r || e.inUse) = true := by
    intro e _
    rw [h, Bool.true_or]
  have hlookup := Table.get?_filter (p := fun r (e : MonitorEntry) => live r || e.inUse) hkept
  exact hlookup.trans (if_pos rfl)

/-- A monitor that is left is that of a live object, or somebody knows it. -/
theorem of_mem_keys_prune (h : t.keys.Nodup) (hr : r ∈ (t.prune live).keys) :
    r ∈ t.keys ∧ (live r = true ∨ ∃ e, t.get? r = some e ∧ e.inUse = true) := by
  obtain ⟨⟨_, e⟩, hmem, rfl⟩ := List.mem_map.mp hr
  obtain ⟨hentry, hkept⟩ := List.mem_filter.mp hmem
  refine ⟨List.mem_map_of_mem hentry, ?_⟩
  rcases Bool.or_eq_true_iff.mp hkept with hlive | huse
  · exact Or.inl hlive
  · exact Or.inr ⟨e, Table.get?_eq_some_of_mem h hentry, huse⟩

end MonitorTable

/-! ## Runs -/

namespace Machine

variable {path : ClassPath} {m m' : Machine} {r : ObjectRef}

/-- No object that is rejected has a monitor that is known outside of the table: no thread waits on it,
and nobody else holds on to it. -/
def FreesIdle (m : Machine) (keep : ObjectRef → Object → Bool) : Prop :=
  ∀ r o e, m.heap.get? r = some o → keep r o = false → m.monitors.get? r = some e → e.inUse = false

/-- A step of a run: an operation that is no collection, an object that is added directly, a write to
a live object that is recorded, the taking of the list of those written to, a use of the monitor of an
object that is live or had a monitor before, a collection that frees no object whose monitor is in use,
or any change of what is neither an object nor a monitor. -/
inductive MonitorStep (path : ClassPath) : Machine → Machine → Prop
  | operation {m : Machine} (op : Operation) (h : ∀ t keep, op ≠ .collect t keep) :
      MonitorStep path m (op.run path m).2
  | allocate {m : Machine} (owner : ClassId) (body : Body) :
      MonitorStep path m { m with heap := (m.heap.allocate owner body).1 }
  | noteWrite {m : Machine} {r : ObjectRef} (hlive : (m.heap.get? r).isSome) :
      MonitorStep path m { m with heap := m.heap.noteWrite r }
  | takeWritten {m : Machine} : MonitorStep path m { m with heap := m.heap.takeWritten.1 }
  | use {m : Machine} {r : ObjectRef} (u : MonitorUse)
      (h : (m.heap.get? r).isSome ∨ r ∈ m.monitors.keys) : MonitorStep path m (u.run r m).2
  | collect {m : Machine} (t : ThreadId) (keep : ObjectRef → Object → Bool) (h : m.FreesIdle keep) :
      MonitorStep path m (Action.collect t keep m).2
  | elsewhere {m m' : Machine} (hheap : m'.heap = m.heap) (hmonitors : m'.monitors = m.monitors) :
      MonitorStep path m m'

/-- A run leads from one machine to another. -/
def MonitorRun (path : ClassPath) : Machine → Machine → Prop :=
  Relation.ReflTransGen (MonitorStep path)

theorem MonitorStep.heapStep (h : MonitorStep path m m') : HeapStep path m m' := by
  cases h with
  | operation op h => exact .operation op
  | allocate owner body => exact .allocate owner body
  | noteWrite hlive => exact .noteWrite hlive
  | takeWritten => exact .takeWritten
  | use u h => exact .elsewhere (Action.uses_run u).1.heap
  | collect t keep h =>
    have hrun : (Operation.collect t keep).run path = discard (Action.collect t keep) := rfl
    rw [← Operation.state_run hrun]
    exact .operation _
  | elsewhere hheap hmonitors => exact .elsewhere hheap

/-- A step leaves monitors alone and frees nothing, uses one monitor, or is a collection. -/
theorem MonitorStep.cases (h : MonitorStep path m m') (hs : m.heap.Sound)
    (hw : m.heap.WrittenLive) :
    (m'.monitors = m.monitors ∧ ∀ r, (m.heap.get? r).isSome → (m'.heap.get? r).isSome) ∨
    (∃ r, ((m.heap.get? r).isSome ∨ r ∈ m.monitors.keys) ∧ UsesMonitor r m m') ∨
    ∃ keep, m.FreesIdle keep ∧ m'.heap = (m.swept keep).heap ∧
      m'.monitors = (m.swept keep).monitors := by
  cases h with
  | operation op h =>
    exact Or.inl ⟨Action.monitors_operation path op h,
      fun _ => Action.live_operation path op h hs hw⟩
  | allocate owner body =>
    refine Or.inl ⟨rfl, fun r hlive => ?_⟩
    show ((m.heap.allocate owner body).1.get? r).isSome
    rw [(hs.allocate_spec owner body).2]
    split
    · rfl
    · exact hlive
  | noteWrite hlive =>
    refine Or.inl ⟨rfl, fun r hr => ?_⟩
    show ((m.heap.noteWrite _).get? r).isSome
    rw [Heap.get?_noteWrite]
    exact hr
  | takeWritten => exact Or.inl ⟨rfl, fun _ hr => hr⟩
  | use u h => exact Or.inr (Or.inl ⟨_, h, (Action.uses_run u).1⟩)
  | collect t keep h =>
    obtain ⟨threads, hsame | hswept⟩ := Action.state_collect t keep m
    · rw [hsame]
      exact Or.inl ⟨rfl, fun _ hr => hr⟩
    · rw [hswept]
      exact Or.inr (Or.inr ⟨keep, h, rfl, rfl⟩)
  | elsewhere hheap hmonitors => exact Or.inl ⟨hmonitors, fun _ hr => hheap ▸ hr⟩

/-! ## What has a monitor -/

/-- Every object with a monitor is live, and has one monitor. -/
structure MonitorsLive (m : Machine) : Prop where
  nodup : m.monitors.keys.Nodup
  live : ∀ r ∈ m.monitors.keys, (m.heap.get? r).isSome

/-- What is not live has no monitor. -/
theorem MonitorsLive.get?_eq_none (h : m.MonitorsLive) (hdead : m.heap.get? r = none) :
    m.monitors.get? r = none := by
  rw [Table.get?_eq_none_iff]
  intro hr
  have hlive := h.live r hr
  rw [hdead] at hlive
  cases hlive

/-- A collection that frees no object whose monitor is in use leaves monitors of live objects only. -/
theorem MonitorsLive.swept (h : m.MonitorsLive) (hs : m.heap.Sound)
    {keep : ObjectRef → Object → Bool} (hidle : m.FreesIdle keep) :
    (m.swept keep).MonitorsLive := by
  refine ⟨Table.nodup_keys_filter h.nodup _, fun r hr => ?_⟩
  obtain ⟨hkey, hlive | ⟨e, he, huse⟩⟩ := MonitorTable.of_mem_keys_prune h.nodup hr
  · exact hlive
  · -- The object was live before, and had it been freed, its monitor would not be in use.
    obtain ⟨o, ho⟩ := Option.isSome_iff_exists.mp (h.live r hkey)
    have hkeep : keep r o = true := by
      by_contra hreject
      rw [hidle r o e ho (Bool.eq_false_iff.mpr hreject) he] at huse
      cases huse
    exact Option.isSome_of_eq_some ((Heap.get?_sweep_iff hs keep).mpr ⟨ho, hkeep⟩)

/-- After a step, what has a monitor is live again. -/
theorem MonitorStep.monitorsLive (h : MonitorStep path m m') (hs : m.heap.Sound)
    (hw : m.heap.WrittenLive) (hm : m.MonitorsLive) : m'.MonitorsLive := by
  rcases h.cases hs hw with ⟨hmonitors, hlive⟩ | ⟨r, hr, huse⟩ | ⟨keep, hidle, hheap, hmonitors⟩
  · refine ⟨hmonitors ▸ hm.nodup, fun k hk => ?_⟩
    rw [hmonitors] at hk
    exact hlive k (hm.live k hk)
  · refine ⟨huse.nodup hm.nodup, fun k hk => ?_⟩
    rw [huse.heap]
    rcases huse.mem_keys hk with rfl | hk
    · exact hr.elim id (hm.live k)
    · exact hm.live k hk
  · have hswept := hm.swept hs hidle
    refine ⟨hmonitors ▸ hswept.nodup, fun k hk => ?_⟩
    rw [hheap]
    exact hswept.live k (hmonitors ▸ hk)

/-- An object has no monitor when it comes to be live. -/
theorem MonitorStep.get?_of_born (h : MonitorStep path m m') (hs : m.heap.Sound)
    (hw : m.heap.WrittenLive) (hm : m.MonitorsLive) (hdead : m.heap.get? r = none)
    (hborn : (m'.heap.get? r).isSome) : m'.monitors.get? r = none := by
  rcases h.cases hs hw with ⟨hmonitors, -⟩ | ⟨k, -, huse⟩ | ⟨keep, -, hheap, -⟩
  · rw [hmonitors]
    exact hm.get?_eq_none hdead
  · rw [huse.heap, hdead] at hborn
    cases hborn
  · rw [hheap] at hborn
    obtain ⟨o, ho⟩ := Option.isSome_iff_exists.mp hborn
    have hbefore := ((Heap.get?_sweep_iff hs keep).mp ho).1
    rw [hdead] at hbefore
    cases hbefore

theorem MonitorRun.heapRun (h : MonitorRun path m m') : HeapRun path m m' :=
  Relation.ReflTransGen.mono (fun _ _ hstep => hstep.heapStep) _ _ h

theorem MonitorRun.sound (h : MonitorRun path {} m) : m.heap.Sound ∧ m.heap.WrittenLive :=
  h.heapRun.sound Heap.sound_new fun _ hr => absurd hr List.not_mem_nil

/-- In every run from a new machine, what has a monitor is live. -/
theorem MonitorRun.monitorsLive (h : MonitorRun path {} m) : m.MonitorsLive := by
  induction h with
  | refl => exact ⟨List.nodup_nil, fun _ hr => absurd hr List.not_mem_nil⟩
  | tail hrun hstep ih =>
    obtain ⟨hs, hw⟩ := MonitorRun.sound hrun
    exact hstep.monitorsLive hs hw ih

/-- A collection leaves the monitor of every object that is live after it. -/
theorem get?_monitors_collect (t : ThreadId) (keep : ObjectRef → Object → Bool) (m : Machine)
    (hkept : ((Action.collect t keep m).2.heap.get? r).isSome) :
    (Action.collect t keep m).2.monitors.get? r = m.monitors.get? r := by
  obtain ⟨threads, hsame | hswept⟩ := Action.state_collect t keep m
  · rw [hsame]
  · rw [hswept] at hkept ⊢
    exact MonitorTable.get?_prune_of_live m.monitors
      (fun r => ((m.heap.sweep keep).1.get? r).isSome) hkept

end Machine

/-! ## Native methods -/

/-- Every reference among the arguments is that of a live object. -/
def Arguments.Live (args : Arguments) (m : Machine) : Prop :=
  ∀ r, Value.reference (some r) ∈ args → (m.heap.get? r).isSome

theorem Arguments.mem_of_object {args : Arguments} {i : Nat} {r : ObjectRef}
    (h : args.object i = .ok r) : Value.reference (some r) ∈ args := by
  unfold object reference value at h
  cases hv : args[i]? with
  | none =>
    rw [hv] at h
    cases h
  | some v =>
    rw [hv] at h
    cases v with
    | reference x =>
      cases x with
      | none => cases h
      | some r' =>
        cases h
        exact List.mem_of_getElem? hv
    | _ => cases h

/-- From every machine of a run on, what the engine does is a run. -/
def Platform.Conforms {W : Type} (p : Platform W) : Prop :=
  ∀ t x receiver args m w, Machine.MonitorRun p.classPath {} m →
    Machine.MonitorRun p.classPath m (p.invoke t x receiver args (m, w)).2.1

namespace Machine

variable {path : ClassPath} {m m' : Machine}

/-- If a run leads to the first machine, it goes on to the second one. -/
def ContinuesTo (path : ClassPath) (m m' : Machine) : Prop :=
  MonitorRun path {} m → MonitorRun path m m'

instance : IsPreorder Machine (ContinuesTo path) where
  refl _ _ := .refl
  trans _ _ _ h h' hrun := (h hrun).trans (h' (hrun.trans (h hrun)))

/-- A step goes on from the monitors as one of three kinds. -/
theorem MonitorStep.continuesTo (h : MonitorStep path m m') : m.ContinuesTo path m' :=
  fun _ => .single h

end Machine

section Natives

open Machine

variable {W : Type} {p : Platform W} {m : Machine} {w : W} {args : Arguments}

/-- On a platform whose engine goes on with a run, native methods do. -/
theorem Platform.Conforms.keepsTo (hp : p.Conforms) : p.KeepsTo (ContinuesTo p.classPath) where
  operation m op hop := by
    refine MonitorStep.continuesTo (.operation op fun t keep heq => ?_)
    subst heq
    exact hop
  elsewhere _ hheap hmonitors := MonitorStep.continuesTo (.elsewhere hheap hmonitors)
  invoke t x receiver args s := hp t x receiver args s.1 s.2

/-- A native method that is given live references goes on with a run, if a collection would free no
object whose monitor is in use. -/
theorem follows_builtins_of_live (hp : p.Conforms) (hargs : args.Live m)
    (hidle : m.FreesIdle (p.keep w)) (t : ThreadId) {entry : String × Native W}
    (hentry : entry ∈ builtins W) :
    Exec.Follows (ContinuesTo p.classPath) (m, w) (entry.2 p t args) := by
  refine follows_builtins hp.keepsTo t args (fun array offset length _ _ _ => ?_) ?_ ?_ entry hentry
  · have hstep : MonitorStep p.classPath m
        ((Operation.defineRange array offset length).run p.classPath m).2 :=
      .operation _ fun _ _ => Operation.noConfusion
    rw [Operation.state_run (a := Action.defineRange p.classPath array offset length) rfl] at hstep
    exact ⟨hstep.continuesTo, fun _ _ => trivial⟩
  · exact ⟨MonitorStep.continuesTo (.collect t (p.keep w) hidle), fun _ _ => trivial⟩
  · intro r hr u
    have hlive : (m.heap.get? r).isSome := hargs r (Arguments.mem_of_object hr)
    exact ⟨MonitorStep.continuesTo (.use u (Or.inl hlive)), fun _ _ => trivial⟩

/-- So does the call of a native method with all that surrounds it. -/
theorem monitorRun_runNative (hp : p.Conforms) (hrun : MonitorRun p.classPath {} m)
    (hargs : args.Live m) (hidle : m.FreesIdle (p.keep w)) (t : ThreadId) (place : MethodPlace) :
    MonitorRun p.classPath m (runNative p (Registry.bootstrap W) t place args (m, w)).2.1 := by
  refine follows_runNative (s := (m, w)) hp.keepsTo place ?_ hrun
  intro symbol native hnative m' hheap hmonitors
  have hargs' : args.Live m' := by
    intro r hr
    rw [hheap]
    exact hargs r hr
  have hidle' : m'.FreesIdle (p.keep w) := by
    intro r o e ho hkeep he
    rw [hheap] at ho
    rw [hmonitors] at he
    exact hidle r o e ho hkeep he
  exact follows_builtins_of_live hp hargs' hidle' t (Registry.mem_of_get?_ofList hnative)

end Natives

/-! ## The main result -/

namespace Machine

/-- **Monitors belong to live objects**, in every run from a new machine.  Whatever has a monitor is
live.  An object has no monitor when it comes to be live, also at a reference that was freed before, and
the one that it gets when it is first asked for is new: nobody owns it and no thread waits on it.  A
collection leaves the monitor of every object that it keeps as it is.  Native methods of the class
library that are given live references go on with the run, on a platform whose engine does and whose
collector frees no object whose monitor is in use. -/
theorem monitors_of_live_objects {path : ClassPath} {m : Machine} (h : MonitorRun path {} m) :
    (∀ r ∈ m.monitors.keys, (m.heap.get? r).isSome) ∧
    (∀ r m', MonitorStep path m m' → m.heap.get? r = none → (m'.heap.get? r).isSome →
      m'.monitors.get? r = none ∧ (Action.monitor r m').1 = .ok {}) ∧
    (∀ t keep r, ((Action.collect t keep m).2.heap.get? r).isSome →
      (Action.collect t keep m).2.monitors.get? r = m.monitors.get? r) ∧
    ∀ (W : Type) (p : Platform W) (w : W) (t : ThreadId) (place : MethodPlace) (args : Arguments),
      p.classPath = path → p.Conforms → args.Live m → m.FreesIdle (p.keep w) →
      MonitorRun path m (runNative p (Registry.bootstrap W) t place args (m, w)).2.1 := by
  obtain ⟨hs, hw⟩ := h.sound
  have hlive : m.MonitorsLive := h.monitorsLive
  refine ⟨hlive.live, fun r m' hstep hdead hborn => ?_, ?_, ?_⟩
  · have hnone : m'.monitors.get? r = none := hstep.get?_of_born hs hw hlive hdead hborn
    refine ⟨hnone, ?_⟩
    rw [Action.result_monitor]
    unfold MonitorTable.entry
    rw [hnone]
    rfl
  · exact fun t keep r hkept => get?_monitors_collect t keep m hkept
  · rintro W p w t place args rfl hp hargs hidle
    exact monitorRun_runNative hp h hargs hidle t place

/-- A thread and two strings with monitors, the second of which the thread has entered. -/
def enteredMachine : Machine :=
  let m := ((Operation.attach none).run {} {}).2
  let m := ((Operation.newString "doomed").run {} m).2
  let m := ((Operation.newString "kept").run {} m).2
  let m := (MonitorUse.ask.run ⟨1⟩ m).2
  ((MonitorUse.enter (.ofNumber 1)).run ⟨2⟩ m).2

/-- That machine after the first string was freed. -/
def prunedMachine : Machine :=
  (Action.collect (.ofNumber 1) (fun r _ => r.index ≠ 1) enteredMachine).2

/-- That machine with another string in the slot that was freed. -/
def refilledMachine : Machine := ((Operation.newString "new").run {} prunedMachine).2

theorem monitorRun_enteredMachine : MonitorRun {} {} enteredMachine := by
  have hnew : ∀ s, ∀ t keep, Operation.newString s ≠ .collect t keep := nofun
  have hattached : MonitorRun {} {} ((Operation.attach none).run {} {}).2 :=
    .single (.operation _ nofun)
  have hstrings := (hattached.tail (.operation _ (hnew "doomed"))).tail (.operation _ (hnew "kept"))
  have hasked := hstrings.tail (.use .ask (r := ⟨1⟩) (Or.inl (by decide +kernel)))
  exact hasked.tail (.use (.enter (.ofNumber 1)) (Or.inl (by decide +kernel)))

theorem monitorRun_prunedMachine : MonitorRun {} {} prunedMachine := by
  refine monitorRun_enteredMachine.tail (.collect _ _ ?_)
  intro r o e _ hreject he
  obtain rfl : r = ⟨1⟩ := by
    obtain ⟨i⟩ := r
    simpa using hreject
  have hidle : (enteredMachine.monitors.get? ⟨1⟩).all (fun e => !e.inUse) = true := by
    decide +kernel
  rw [he] at hidle
  simpa using hidle

/-- A monitor that is owned through a collection, and a fresh one for an object in the place of
another. -/
theorem monitors_of_live_objects_refilledMachine :
    (∀ r ∈ prunedMachine.monitors.keys, (prunedMachine.heap.get? r).isSome) ∧
      (prunedMachine.monitors.get? ⟨2⟩).map (·.monitor.owner) = some (some (.ofNumber 1)) ∧
      prunedMachine.heap.get? ⟨1⟩ = none ∧ (refilledMachine.heap.get? ⟨1⟩).isSome ∧
      (Action.monitor ⟨1⟩ refilledMachine).1 = .ok {} ∧
      MonitorRun {} prunedMachine (runNative Platform.idle (Registry.bootstrap Unit) (.ofNumber 1)
        (.object, 0) [.ref ⟨2⟩] (prunedMachine, ())).2.1 := by
  obtain ⟨-, -, hcollect, -⟩ := monitors_of_live_objects monitorRun_enteredMachine
  obtain ⟨hlive, hborn, -, hnative⟩ := monitors_of_live_objects monitorRun_prunedMachine
  have hfreed : prunedMachine.heap.get? ⟨1⟩ = none := by decide +kernel
  have hfilled : (refilledMachine.heap.get? ⟨1⟩).isSome := by decide +kernel
  refine ⟨hlive, ?_, hfreed, hfilled, ?_, ?_⟩
  · have hkept := hcollect (.ofNumber 1) (fun r _ => r.index ≠ 1) ⟨2⟩ (by decide +kernel)
    show (Table.get? (Action.collect _ _ enteredMachine).2.monitors ⟨2⟩).map _ = _
    rw [hkept]
    decide +kernel
  · have hstep : MonitorStep {} prunedMachine refilledMachine := .operation _ nofun
    exact (hborn ⟨1⟩ refilledMachine hstep hfreed hfilled).2
  · refine hnative Unit Platform.idle () _ _ _ rfl (fun _ _ _ _ _ _ _ => .refl) ?_ ?_
    · intro r hr
      obtain rfl : r = ⟨2⟩ := by simpa [Value.ref] using hr
      decide +kernel
    · intro r o e _ hreject _
      cases hreject

end Machine

end JavaMachine
