/-
# Runs of a heap

A run makes operations, uses the heap directly, and changes at will what is no object
(`Machine.HeapStep`).  All along, the accounts of the heap agree, and an object keeps its class and
its hash as long as it is live (`Machine.accounts_agree`).
-/
import JavaMachine.Proofs.HeapChanges

namespace JavaMachine

/-! ## Collecting -/

/-- The machine after all objects that are rejected were freed, and the monitors of dead objects that
nobody knows were dropped. -/
def Machine.swept (m : Machine) (keep : ObjectRef → Object → Bool) : Machine :=
  { m with
    heap := (m.heap.sweep keep).1
    monitors := m.monitors.prune fun r => ((m.heap.sweep keep).1.get? r).isSome }

namespace Action

/-- The state of a thread is kept outside of the heap. -/
theorem state_setState (t : ThreadId) (s : ThreadState) (m : Machine) :
    ∃ threads, (setState t s m).2 = { m with threads } := by
  unfold setState
  rw [run_bind, run_get]
  show ∃ threads, ((liftM (m.thread t) >>= _ : Action ThreadState) m).2 = { m with threads }
  rw [run_bind, run_liftStop]
  cases m.thread t with
  | ok x => exact ⟨_, rfl⟩
  | error e => exact ⟨_, rfl⟩

/-- A collection frees what is to be freed, unless it has failed before, and changes besides that at
most the state of its thread. -/
theorem state_collect (t : ThreadId) (keep : ObjectRef → Object → Bool) (m : Machine) :
    ∃ threads, (collect t keep m).2 = { m with threads } ∨
      (collect t keep m).2 = { m.swept keep with threads } := by
  unfold collect
  rw [run_bind]
  obtain ⟨threads, hm₁⟩ := state_setState t .exclusive m
  rcases hstate : setState t .exclusive m with ⟨e | previous, m₁⟩
  · rw [hstate] at hm₁
    exact ⟨threads, Or.inl hm₁⟩
  · rw [hstate] at hm₁
    dsimp only at hm₁ ⊢
    rw [run_bind, run_get]
    dsimp only
    rw [run_bind, run_get]
    dsimp only
    rw [run_bind, run_liftStop]
    cases m₁.thread t with
    | error e => exact ⟨threads, Or.inl hm₁⟩
    | ok x =>
      -- What comes after the objects were freed touches the thread alone.
      have hafter : ∀ (c : Collection) (m₂ : Machine), ∃ threads,
          ((discard (setState t previous) >>= fun _ => pure c : Action Collection) m₂).2 =
            { m₂ with threads } := by
        intro c m₂
        have hset := state_setState t previous m₂
        rw [run_bind, run_discard]
        cases hlast : (setState t previous m₂).1 with
        | ok s => exact hset
        | error e => exact hset
      obtain ⟨threads', hlast⟩ := hafter ⟨x.state, m₁.heap.liveCount, (m₁.heap.sweep keep).2⟩
        (m₁.swept keep)
      refine ⟨threads', Or.inr (hlast.trans ?_)⟩
      rw [hm₁]
      rfl

/-- A collection interns nothing, and does at most one sweep. -/
theorem run_collect (t : ThreadId) (keep : ObjectRef → Object → Bool) (m : Machine) :
    (collect t keep m).2.interned = m.interned ∧
      ((collect t keep m).2.heap = m.heap ∨
        (collect t keep m).2.heap = (m.heap.sweep keep).1) := by
  obtain ⟨threads, hsame | hswept⟩ := state_collect t keep m
  · rw [hsame]
    exact ⟨rfl, Or.inl rfl⟩
  · rw [hswept]
    exact ⟨rfl, Or.inr rfl⟩

theorem heap_collect (t : ThreadId) (keep : ObjectRef → Object → Bool) (m : Machine) :
    (collect t keep m).2.heap = m.heap ∨ (collect t keep m).2.heap = (m.heap.sweep keep).1 :=
  (run_collect t keep m).2

end Action

/-! ## Runs -/

namespace Machine

/-- A step of a run: an operation, an object that is added directly, objects that are freed, a write
to a live object that is recorded, the taking of the list of those written to, or any change
elsewhere.  What is freed is decided for each live object once, so a function of the object and its
reference stands for every way to decide it. -/
inductive HeapStep (path : ClassPath) : Machine → Machine → Prop
  | operation {m : Machine} (op : Operation) : HeapStep path m (op.run path m).2
  | allocate {m : Machine} (owner : ClassId) (body : Body) :
      HeapStep path m { m with heap := (m.heap.allocate owner body).1 }
  | sweep {m : Machine} (keep : ObjectRef → Object → Bool) :
      HeapStep path m { m with heap := (m.heap.sweep keep).1 }
  | noteWrite {m : Machine} {r : ObjectRef} (hlive : (m.heap.get? r).isSome) :
      HeapStep path m { m with heap := m.heap.noteWrite r }
  | takeWritten {m : Machine} : HeapStep path m { m with heap := m.heap.takeWritten.1 }
  | elsewhere {m m' : Machine} (hheap : m'.heap = m.heap) : HeapStep path m m'

/-- A run leads from one machine to another. -/
def HeapRun (path : ClassPath) : Machine → Machine → Prop := Relation.ReflTransGen (HeapStep path)

/-- A run leads from one machine to another, and all along an object is live at a reference. -/
def RunsWhileLive (path : ClassPath) (r : ObjectRef) : Machine → Machine → Prop :=
  Relation.ReflTransGen fun m m' => HeapStep path m m' ∧ (m'.heap.get? r).isSome

variable {path : ClassPath} {m m' : Machine} {r : ObjectRef} {o : Object}

/-- An operation goes by changes that free nothing, or frees objects. -/
theorem heap_operation (path : ClassPath) (op : Operation) (m : Machine) :
    m.HeapChanges (op.run path m).2 ∨ ∃ keep, (op.run path m).2.heap = (m.heap.sweep keep).1 := by
  by_cases hcollect : ∃ t keep, op = .collect t keep
  · obtain ⟨t, keep, rfl⟩ := hcollect
    rw [Operation.state_run (a := Action.collect t keep) rfl]
    rcases Action.heap_collect t keep m with hsame | hswept
    · exact Or.inl (heapChanges_of_eq hsame)
    · exact Or.inr ⟨keep, hswept⟩
  · have hother : ∀ t keep, op ≠ .collect t keep :=
      fun t keep hop => hcollect ⟨t, keep, hop⟩
    exact Or.inl (Action.changes_operation path op hother).1

/-- A step goes by changes that free nothing, adds an object, frees objects, or takes the list of
those written to. -/
theorem HeapStep.cases (h : HeapStep path m m') :
    m.HeapChanges m' ∨ (∃ owner body, m'.heap = (m.heap.allocate owner body).1) ∨
      (∃ keep, m'.heap = (m.heap.sweep keep).1) ∨ m'.heap = m.heap.takeWritten.1 := by
  cases h with
  | operation op =>
    rcases heap_operation path op m with hchanges | hswept
    · exact Or.inl hchanges
    · exact Or.inr (Or.inr (Or.inl hswept))
  | allocate owner body => exact Or.inr (Or.inl ⟨owner, body, rfl⟩)
  | sweep keep => exact Or.inr (Or.inr (Or.inl ⟨keep, rfl⟩))
  | noteWrite hlive => exact Or.inl (.single (.note hlive))
  | takeWritten => exact Or.inr (Or.inr (Or.inr rfl))
  | elsewhere hheap => exact Or.inl (heapChanges_of_eq hheap)

/-- A step keeps the accounts, and the class and the hash of every object that it does not free. -/
theorem HeapStep.spec (h : HeapStep path m m') (hs : m.heap.Sound) (hw : m.heap.WrittenLive) :
    m'.heap.Sound ∧ m'.heap.WrittenLive ∧
      ∀ r o o', m.heap.get? r = some o → m'.heap.get? r = some o' →
        o'.owner = o.owner ∧ o'.hash = o.hash := by
  -- Where nothing is freed, every live object is kept.
  have hof : m.heap.Keeps m'.heap → ∀ r o o', m.heap.get? r = some o →
      m'.heap.get? r = some o' → o'.owner = o.owner ∧ o'.hash = o.hash := by
    intro hkeeps r o o' ho ho'
    obtain ⟨x, hx, howner, hhash⟩ := hkeeps r o ho
    rw [hx] at ho'
    cases ho'
    exact ⟨howner, hhash⟩
  rcases h.cases with hchanges | ⟨owner, body, hadded⟩ | ⟨keep, hswept⟩ | htaken
  · obtain ⟨hs', hw', hkeeps⟩ := Heap.changes_spec hchanges hs hw
    exact ⟨hs', hw', hof hkeeps⟩
  · obtain ⟨hs', hw', hkeeps⟩ := hs.spec_allocate hw owner body
    rw [← hadded] at hs' hw' hkeeps
    exact ⟨hs', hw', hof hkeeps⟩
  · -- What a collection leaves is as it was.
    rw [hswept]
    refine ⟨hs.sweep keep, m.heap.writtenLive_sweep keep, fun r o o' ho ho' => ?_⟩
    rw [Heap.get?_sweep_iff hs, ho] at ho'
    cases ho'.1
    exact ⟨rfl, rfl⟩
  · rw [htaken]
    refine ⟨hs.of_written [], fun r hr => absurd hr List.not_mem_nil, fun r o o' ho ho' => ?_⟩
    have hsame : some o = some o' := ho.symm.trans ho'
    cases hsame
    exact ⟨rfl, rfl⟩

/-- In a run the accounts agree, and what was written to is live. -/
theorem HeapRun.sound (h : HeapRun path m m') (hs : m.heap.Sound) (hw : m.heap.WrittenLive) :
    m'.heap.Sound ∧ m'.heap.WrittenLive := by
  induction h with
  | refl => exact ⟨hs, hw⟩
  | tail _ hstep ih =>
    obtain ⟨hs', hw', _⟩ := hstep.spec ih.1 ih.2
    exact ⟨hs', hw'⟩

/-- An object keeps its class and its hash as long as it is live. -/
theorem RunsWhileLive.keeps (h : RunsWhileLive path r m m') (hs : m.heap.Sound)
    (hw : m.heap.WrittenLive) (ho : m.heap.get? r = some o) :
    ∃ o', m'.heap.get? r = some o' ∧ o'.owner = o.owner ∧ o'.hash = o.hash := by
  have hrun : m'.heap.Sound ∧ m'.heap.WrittenLive ∧
      ∃ o', m'.heap.get? r = some o' ∧ o'.owner = o.owner ∧ o'.hash = o.hash := by
    induction h with
    | refl => exact ⟨hs, hw, o, ho, rfl, rfl⟩
    | tail _ hstep ih =>
      obtain ⟨hs', hw', o', ho', howner, hhash⟩ := ih
      obtain ⟨hs'', hw'', hkeeps⟩ := hstep.1.spec hs' hw'
      obtain ⟨o'', ho''⟩ := Option.isSome_iff_exists.mp hstep.2
      obtain ⟨howner', hhash'⟩ := hkeeps r o' o'' ho' ho''
      exact ⟨hs'', hw'', o'', ho'', howner'.trans howner, hhash'.trans hhash⟩
  exact hrun.2.2

/-- In every run from a new machine, the accounts of the heap agree.

* Each empty slot is on the free list once, and nothing else is.
* A new object takes a reference at which nothing is live, and every other object stays as it is.
* A collection frees exactly the objects that it rejects, and tells their number; each of them is
  charged for within the bytes that are in use when it is freed.
* The live objects are counted, the bytes in use are what they come to, and all objects that were
  written to are live.
* An object keeps its class and its hash as long as it is live, and is freed by collections alone. -/
theorem accounts_agree (h : HeapRun path {} m) :
    (m.heap.free.Nodup ∧ ∀ i, i ∈ m.heap.free ↔ m.heap.slots[i]? = some none) ∧
    (∀ owner body, m.heap.get? (m.heap.allocate owner body).2 = none ∧
      ∀ p, (m.heap.allocate owner body).1.get? p =
        if p = (m.heap.allocate owner body).2 then some (m.heap.nextObject owner body)
        else m.heap.get? p) ∧
    (∀ keep,
      (∀ r o, (m.heap.sweep keep).1.get? r = some o ↔ m.heap.get? r = some o ∧ keep r o = true) ∧
      (m.heap.sweep keep).2 = (m.heap.objects.filter fun p => !keep p.1 p.2).length ∧
      (m.heap.sweep keep).1.liveCount + (m.heap.sweep keep).2 = m.heap.liveCount ∧
      ∀ before r o after, m.heap.rejected keep = before ++ (r, o) :: after →
        o.body.footprint ≤ (m.heap.freeAll before).bytesUsed) ∧
    (m.heap.liveCount = m.heap.objects.length ∧ m.heap.free.length ≤ m.heap.slots.size) ∧
    m.heap.bytesUsed = (m.heap.objects.map fun p => p.2.body.footprint).sum ∧
    (∀ r ∈ m.heap.written, (m.heap.get? r).isSome) ∧
    (∀ r o m', m.heap.get? r = some o → RunsWhileLive path r m m' →
      ∃ o', m'.heap.get? r = some o' ∧ o'.owner = o.owner ∧ o'.hash = o.hash) ∧
    ∀ op : Operation, (∀ t keep, op ≠ .collect t keep) →
      m.heap.Keeps (op.run path m).2.heap := by
  obtain ⟨hs, hw⟩ := h.sound Heap.sound_new fun _ hr => absurd hr List.not_mem_nil
  refine ⟨⟨hs.free_nodup, hs.mem_free_iff⟩, hs.allocate_spec, fun keep => ?_,
    ⟨hs.liveCount_eq, ?_⟩, hs.bytesUsed_eq, hw, ?_, ?_⟩
  · exact ⟨fun r o => Heap.get?_sweep_iff hs keep, rfl, Heap.liveCount_sweep hs keep,
      fun before r o after hsplit => hs.footprint_le_freeAll hsplit⟩
  · have hsize := hs.size_eq
    omega
  · intro r o m' ho hrun
    exact hrun.keeps hs hw ho
  · intro op hother
    exact (Heap.changes_spec (Action.changes_operation path op hother).1 hs hw).2.2

/-- A machine whose first object was freed, with an array in its slot that was written to. -/
def reusingMachine : Machine :=
  let m := ((Operation.newString "kept").run {} ((Operation.newString "left").run {} {}).2).2
  let m : Machine := { m with heap := (m.heap.sweep fun r _ => r.index ≠ 0).1 }
  let m : Machine :=
    { m with heap := (m.heap.allocate .object (.array (.references [none, none]))).1 }
  { m with heap := m.heap.noteWrite ⟨0⟩ }

theorem heapRun_reusingMachine : HeapRun {} {} reusingMachine := by
  have hstrings : HeapRun {} {} ((Operation.newString "kept").run {}
      ((Operation.newString "left").run {} {}).2).2 :=
    (Relation.ReflTransGen.single (.operation (.newString "left"))).tail
      (.operation (.newString "kept"))
  exact ((hstrings.tail (.sweep _)).tail (.allocate _ _)).tail (.noteWrite (by decide +kernel))

/-- That machine after its array was freed again. -/
def sweptMachine : Machine :=
  { reusingMachine with heap := (reusingMachine.heap.sweep fun r _ => r.index ≠ 0).1 }

theorem accounts_agree_reusingMachine :
    reusingMachine.heap.free = [] ∧ reusingMachine.heap.liveCount = 2 ∧
      reusingMachine.heap.bytesUsed = 44 ∧ (reusingMachine.heap.sweep fun _ _ => false).2 = 2 ∧
      (reusingMachine.heap.get? ⟨0⟩).isSome ∧
      ∃ o o', reusingMachine.heap.get? ⟨1⟩ = some o ∧ sweptMachine.heap.get? ⟨1⟩ = some o' ∧
        o'.owner = o.owner ∧ o'.hash = o.hash := by
  obtain ⟨⟨_, hfree⟩, _, hsweep, ⟨hcount, _⟩, hbytes, hwritten, hkept, _⟩ :=
    accounts_agree heapRun_reusingMachine
  have hslots : ∀ i : Nat, reusingMachine.heap.slots[i]? ≠ some none := by
    have hfull : ∀ slot ∈ reusingMachine.heap.slots, slot.isSome := by decide +kernel
    intro i hi
    have hempty := hfull none (Array.mem_of_getElem? hi)
    cases hempty
  have hlive : reusingMachine.heap.objects.length = 2 := by decide +kernel
  have hcharged : (reusingMachine.heap.objects.map fun p => p.2.body.footprint).sum = 44 := by
    decide +kernel
  have hall : reusingMachine.heap.objects.filter (fun _ => !false) = reusingMachine.heap.objects :=
    List.filter_eq_self.mpr fun _ _ => rfl
  refine ⟨?_, hcount.trans hlive, hbytes.trans hcharged, ?_, hwritten ⟨0⟩ ?_, ?_⟩
  · exact List.eq_nil_iff_forall_not_mem.mpr fun i hi => hslots i ((hfree i).mp hi)
  · rw [(hsweep fun _ _ => false).2.1, hall, hlive]
  · decide +kernel
  · have hsome : (reusingMachine.heap.get? ⟨1⟩).isSome := by decide +kernel
    obtain ⟨o, ho⟩ := Option.isSome_iff_exists.mp hsome
    have hrun : RunsWhileLive {} ⟨1⟩ reusingMachine sweptMachine :=
      .single ⟨.sweep _, by decide +kernel⟩
    obtain ⟨o', ho', hsame⟩ := hkept ⟨1⟩ o sweptMachine ho hrun
    exact ⟨o, o', ho, ho', hsame⟩

end Machine

end JavaMachine
