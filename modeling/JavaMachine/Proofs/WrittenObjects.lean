/-
# Objects that were written to

Between two takings of the list of objects that were written to, a machine goes on by operations and
native methods, collections among them (`Machine.TrackedRun`).  No reference changes unnoticed in such
a run: an object whose references are not what they were when the list was last taken is on the list,
and so is an object that was made since and refers to something.  All that is on the list is live
(`Machine.changed_references_listed`).

A slot that was freed may be taken by another object.  So an object is one and the same only as long
as it is live (`Machine.TrackedWhileLive`), and one that was made since is at a reference at which
there was nothing at some moment of the run.
-/
import JavaMachine.Proofs.NativeRuns

namespace JavaMachine

namespace Heap

variable {h h' h'' : Heap} {r : ObjectRef}

/-! ## Changes with their record -/

/-- Nothing changes its references from one heap to another without being among the objects written
to: no object that stays, and no object that is added and refers to something.  What was among them
is so as long as it is live. -/
structure Records (h h' : Heap) : Prop where
  changed : ∀ r o o', h.get? r = some o → h'.get? r = some o' →
    o'.body.references ≠ o.body.references → r ∈ h'.written
  added : ∀ r o', h.get? r = none → h'.get? r = some o' → ¬ o'.body.Blank → r ∈ h'.written
  kept : ∀ r ∈ h.written, (h'.get? r).isSome → r ∈ h'.written

/-- Where no reference changes, and what refers to nothing may be added, it is enough that the list
is kept. -/
theorem records_of_references
    (hsame : ∀ r o o', h.get? r = some o → h'.get? r = some o' →
      o'.body.references = o.body.references)
    (hadded : ∀ r o', h.get? r = none → h'.get? r = some o' → o'.body.Blank)
    (hkept : ∀ r ∈ h.written, (h'.get? r).isSome → r ∈ h'.written) : h.Records h' where
  changed r o o' ho ho' hne := absurd (hsame r o o' ho ho') hne
  added r o' hnone ho' hblank := absurd (hadded r o' hnone ho') hblank
  kept := hkept

/-- Where the objects stay as they are, it is enough that the list is kept. -/
theorem records_of_get? (hget : ∀ r, h'.get? r = h.get? r)
    (hkept : ∀ r ∈ h.written, (h'.get? r).isSome → r ∈ h'.written) : h.Records h' := by
  refine records_of_references (fun r o o' ho ho' => ?_) (fun r o' hnone ho' => ?_) hkept
  · rw [hget, ho] at ho'
    cases ho'
    rfl
  · rw [hget, hnone] at ho'
    cases ho'

theorem records_refl (h : Heap) : h.Records h := records_of_get? (fun _ => rfl) fun _ hr _ => hr

/-- One change after the other is recorded, where the first one frees nothing. -/
theorem Records.trans (h₁ : h.Records h') (h₂ : h'.Records h'') (hw : h.WrittenLive)
    (hkeeps : h.Keeps h') : h.Records h'' := by
  have hkept : ∀ r ∈ h.written, (h''.get? r).isSome → r ∈ h''.written := by
    intro r hr hlive
    obtain ⟨o, ho⟩ := Option.isSome_iff_exists.mp (hw r hr)
    obtain ⟨o', ho', _⟩ := hkeeps r o ho
    exact h₂.kept r (h₁.kept r hr (by simp [ho'])) hlive
  refine ⟨fun r o o'' ho ho'' hne => ?_, fun r o'' hnone ho'' hblank => ?_, hkept⟩
  · obtain ⟨o', ho', _⟩ := hkeeps r o ho
    by_cases hfirst : o'.body.references = o.body.references
    · exact h₂.changed r o' o'' ho' ho'' (hfirst ▸ hne)
    · exact h₂.kept r (h₁.changed r o o' ho ho' hfirst) (by simp [ho''])
  · cases ho' : h'.get? r with
    | none => exact h₂.added r o'' ho' ho'' hblank
    | some o' =>
      by_cases hfirst : o'.body.Blank
      · exact h₂.changed r o' o'' ho' ho'' fun heq => hblank (hfirst.of_eq heq)
      · exact h₂.kept r (h₁.added r o' hnone ho' hfirst) (by simp [ho''])

theorem mem_written_noteWrite {p : ObjectRef} :
    p ∈ (h.noteWrite r).written ↔ p = r ∨ p ∈ h.written := by
  unfold noteWrite
  split
  · next hhead =>
    -- Of two writes in a row to one object the first one has put it on the list.
    have hmem : r ∈ h.written := List.mem_of_mem_head? hhead
    constructor
    · exact Or.inr
    · rintro (rfl | hp)
      · exact hmem
      · exact hp
  · exact List.mem_cons

/-- A change that frees nothing is recorded. -/
theorem Change.records (hc : h.Change h') (hs : h.Sound) : h.Records h' := by
  cases hc with
  | @allocate owner body hblank =>
    obtain ⟨hfree, hget⟩ := hs.allocate_spec owner body
    refine records_of_references (fun p o o' ho ho' => ?_) (fun p o' hnone ho' => ?_) ?_
    · rw [hget] at ho'
      split at ho'
      · next hp =>
        rw [hp, hfree] at ho
        cases ho
      · rw [ho] at ho'
        cases ho'
        rfl
    · rw [hget] at ho'
      split at ho'
      · cases ho'
        exact hblank
      · rw [hnone] at ho'
        cases ho'
    · intro p hp _
      rw [written_allocate]
      exact hp
  | @rewrite r o body ho hshape hrefs =>
    refine records_of_references (fun p x x' hx hx' => ?_) (fun p x' hnone hx' => ?_)
      fun _ hp _ => hp
    · rw [get?_updateBody, hx] at hx'
      split at hx'
      · next hp =>
        rw [hp, ho] at hx
        cases hx
        cases hx'
        exact hrefs
      · cases hx'
        rfl
    · rw [get?_updateBody, hnone] at hx'
      split at hx'
      · cases hx'
      · cases hx'
  | @store r o body ho hshape =>
    refine ⟨fun p x x' hx hx' hne => ?_, fun p x' hnone hx' _ => ?_, fun p hp _ => ?_⟩
    · rw [mem_written_noteWrite]
      rw [get?_noteWrite, get?_updateBody, hx] at hx'
      split at hx'
      · next hp => exact Or.inl hp
      · cases hx'
        exact absurd rfl hne
    · rw [get?_noteWrite, get?_updateBody, hnone] at hx'
      split at hx'
      · cases hx'
      · cases hx'
    · exact mem_written_noteWrite.mpr (Or.inr hp)
  | @note r hlive =>
    refine records_of_get? (fun p => get?_noteWrite h r p) fun p hp _ => ?_
    exact mem_written_noteWrite.mpr (Or.inr hp)

/-- So are changes one after the other. -/
theorem changes_records (hc : Relation.ReflTransGen Change h h') (hs : h.Sound)
    (hw : h.WrittenLive) : h.Records h' := by
  induction hc with
  | refl => exact records_refl h
  | tail hchanges hlast ih =>
    obtain ⟨hs', _, hkeeps⟩ := changes_spec hchanges hs hw
    exact ih.trans (hlast.records hs') hw hkeeps

theorem written_freeAll (h : Heap) (l : List (ObjectRef × Object)) :
    (h.freeAll l).written = h.written := by
  induction l generalizing h with
  | nil => rfl
  | cons e l ih => exact ih (h.freeOne e.1 e.2)

/-- A collection changes no object that it leaves, and forgets the writes to no other. -/
theorem records_sweep (hs : h.Sound) (keep : ObjectRef → Object → Bool) :
    h.Records (h.sweep keep).1 := by
  refine records_of_references (fun p o o' ho ho' => ?_) (fun p o' hnone ho' => ?_) ?_
  · rw [get?_sweep_iff hs, ho] at ho'
    cases ho'.1
    rfl
  · rw [get?_sweep_iff hs, hnone] at ho'
    cases ho'.1
  · intro p hp hlive
    refine List.mem_filter.mpr ⟨?_, hlive⟩
    show p ∈ (h.freeAll (h.rejected keep)).written
    rw [written_freeAll]
    exact hp

/-- The objects written to are those that are handed out. -/
theorem mem_takeWritten : r ∈ h.takeWritten.2 ↔ r ∈ h.written := List.mem_reverse

end Heap

namespace Machine

/-! ## Runs between two takings -/

/-- The machine after the list of objects written to was taken. -/
def taken (m : Machine) : Machine := { m with heap := m.heap.takeWritten.1 }

/-- A step of a run between two takings of the list: an operation, an object that is added and refers
to nothing, objects that are freed, a write to a live object that is recorded, or any change
elsewhere. -/
inductive TrackedStep (path : ClassPath) : Machine → Machine → Prop
  | operation {m : Machine} (op : Operation) : TrackedStep path m (op.run path m).2
  | allocate {m : Machine} (owner : ClassId) {body : Body} (hblank : body.Blank) :
      TrackedStep path m { m with heap := (m.heap.allocate owner body).1 }
  | sweep {m : Machine} (keep : ObjectRef → Object → Bool) :
      TrackedStep path m { m with heap := (m.heap.sweep keep).1 }
  | noteWrite {m : Machine} {r : ObjectRef} (hlive : (m.heap.get? r).isSome) :
      TrackedStep path m { m with heap := m.heap.noteWrite r }
  | elsewhere {m m' : Machine} (hheap : m'.heap = m.heap) : TrackedStep path m m'

/-- A run between two takings of the list leads from one machine to another. -/
def TrackedRun (path : ClassPath) : Machine → Machine → Prop :=
  Relation.ReflTransGen (TrackedStep path)

/-- Such a run, with an object live at a reference all along. -/
def TrackedWhileLive (path : ClassPath) (r : ObjectRef) : Machine → Machine → Prop :=
  Relation.ReflTransGen fun m m' => TrackedStep path m m' ∧ (m'.heap.get? r).isSome

variable {path : ClassPath} {m m' : Machine} {r : ObjectRef} {o o' : Object}

theorem TrackedStep.heapStep (h : TrackedStep path m m') : HeapStep path m m' := by
  cases h with
  | operation op => exact .operation op
  | allocate owner hblank => exact .allocate owner _
  | sweep keep => exact .sweep keep
  | noteWrite hlive => exact .noteWrite hlive
  | elsewhere hheap => exact .elsewhere hheap

/-- A step between two takings is recorded. -/
theorem TrackedStep.records (h : TrackedStep path m m') (hs : m.heap.Sound)
    (hw : m.heap.WrittenLive) : m.heap.Records m'.heap := by
  cases h with
  | operation op =>
    rcases heap_operation path op m with hchanges | ⟨keep, hswept⟩
    · exact Heap.changes_records hchanges hs hw
    · rw [hswept]
      exact Heap.records_sweep hs keep
  | allocate owner hblank => exact (Heap.Change.allocate owner hblank).records hs
  | sweep keep => exact Heap.records_sweep hs keep
  | noteWrite hlive => exact (Heap.Change.note hlive).records hs
  | elsewhere hheap => exact hheap ▸ Heap.records_refl m.heap

theorem TrackedRun.sound (h : TrackedRun path m m') (hs : m.heap.Sound) (hw : m.heap.WrittenLive) :
    m'.heap.Sound ∧ m'.heap.WrittenLive :=
  HeapRun.sound (Relation.ReflTransGen.mono (fun _ _ => TrackedStep.heapStep) _ _ h) hs hw

/-- Operations are steps of such a run, whatever files may be named. -/
theorem Later.trackedRun {named : String → Prop} (h : Later path named m m') :
    TrackedRun path m m' := by
  induction h with
  | refl => exact .refl
  | tail _ hstep ih =>
    cases hstep with
    | operation op _ => exact ih.tail (.operation op)
    | elsewhere _ hheap => exact ih.tail (.elsewhere hheap)

/-- In a run either an object is live at a reference after every step, or there is a moment at which
none is. -/
theorem TrackedRun.whileLive_or_dead (h : TrackedRun path m m') (r : ObjectRef) :
    TrackedWhileLive path r m m' ∨
      ∃ m₁, TrackedRun path m m₁ ∧ m₁.heap.get? r = none ∧ TrackedRun path m₁ m' := by
  induction h with
  | refl => exact Or.inl .refl
  | @tail m₁ m₂ hrun hstep ih =>
    rcases ih with hlive | ⟨m₀, hbefore, hdead, hafter⟩
    · cases hget : m₂.heap.get? r with
      | none => exact Or.inr ⟨m₂, hrun.tail hstep, hget, .refl⟩
      | some o => exact Or.inl (hlive.tail ⟨hstep, by simp [hget]⟩)
    · exact Or.inr ⟨m₀, hbefore, hdead, hafter.tail hstep⟩

/-! ## The list is complete -/

/-- An object that stays live is recorded once its references are others than at first. -/
theorem TrackedWhileLive.listed (h : TrackedWhileLive path r m m') (hs : m.heap.Sound)
    (hw : m.heap.WrittenLive) (ho : m.heap.get? r = some o) (ho' : m'.heap.get? r = some o')
    (hne : o'.body.references ≠ o.body.references) : r ∈ m'.heap.written := by
  -- The invariant: its references are those it had at first, or it is recorded.
  have hrun : m'.heap.Sound ∧ m'.heap.WrittenLive ∧ ∃ x, m'.heap.get? r = some x ∧
      (x.body.references = o.body.references ∨ r ∈ m'.heap.written) := by
    clear hne ho'
    induction h with
    | refl => exact ⟨hs, hw, o, ho, Or.inl rfl⟩
    | @tail m₁ m₂ _ hstep ih =>
      obtain ⟨hs₁, hw₁, x, hx, hlisted⟩ := ih
      obtain ⟨hs₂, hw₂, _⟩ := hstep.1.heapStep.spec hs₁ hw₁
      have hrecords := hstep.1.records hs₁ hw₁
      obtain ⟨y, hy⟩ := Option.isSome_iff_exists.mp hstep.2
      refine ⟨hs₂, hw₂, y, hy, ?_⟩
      by_cases hsame : y.body.references = x.body.references
      · rcases hlisted with hfirst | hmem
        · exact Or.inl (hsame.trans hfirst)
        · exact Or.inr (hrecords.kept r hmem hstep.2)
      · exact Or.inr (hrecords.changed r x y hx hy hsame)
  obtain ⟨_, _, x, hx, hlisted⟩ := hrun
  rw [ho'] at hx
  cases hx
  exact hlisted.resolve_left hne

/-- An object that came to a reference at which there was nothing is recorded once it refers to
something. -/
theorem TrackedRun.listed_of_dead (h : TrackedRun path m m') (hs : m.heap.Sound)
    (hw : m.heap.WrittenLive) (hdead : m.heap.get? r = none) (ho' : m'.heap.get? r = some o')
    (hblank : ¬ o'.body.Blank) : r ∈ m'.heap.written := by
  induction h generalizing o' with
  | refl =>
    rw [hdead] at ho'
    cases ho'
  | @tail m₁ m₂ hrun hstep ih =>
    obtain ⟨hs₁, hw₁⟩ := TrackedRun.sound hrun hs hw
    have hrecords := hstep.records hs₁ hw₁
    have hlive : (m₂.heap.get? r).isSome := by simp [ho']
    cases hx : m₁.heap.get? r with
    | none => exact hrecords.added r o' hx ho' hblank
    | some x =>
      by_cases hfirst : x.body.Blank
      · exact hrecords.changed r x o' hx ho' fun heq => hblank (hfirst.of_eq heq)
      · exact hrecords.kept r (ih hx hfirst) hlive

/-- However a machine came about, from one taking of the list of written objects to the next:

* an object that is live all along, and of which some reference is not what it was at the first
  taking, is handed out by the second one;
* so is an object that came to a reference at which there was nothing at some moment since, as soon as
  one of its references is not null;
* there are no other live objects;
* whatever is handed out is live;
* every call of a native method of the class library is part of such a run. -/
theorem changed_references_listed {m₀ : Machine} (hfirst : HeapRun path {} m₀)
    (hrun : TrackedRun path m₀.taken m) :
    (∀ r o o₀, m.heap.get? r = some o → m₀.heap.get? r = some o₀ →
      TrackedWhileLive path r m₀.taken m →
      ∀ i : Nat, o.body.references[i]? ≠ o₀.body.references[i]? → r ∈ m.heap.takeWritten.2) ∧
    (∀ r o m₁, m.heap.get? r = some o → TrackedRun path m₀.taken m₁ → m₁.heap.get? r = none →
      TrackedRun path m₁ m →
      ∀ (i : Nat) x, o.body.references[i]? = some (some x) → r ∈ m.heap.takeWritten.2) ∧
    (∀ r o, m.heap.get? r = some o →
      (∃ o₀, m₀.heap.get? r = some o₀ ∧ TrackedWhileLive path r m₀.taken m) ∨
      ∃ m₁, TrackedRun path m₀.taken m₁ ∧ m₁.heap.get? r = none ∧ TrackedRun path m₁ m) ∧
    (∀ r ∈ m.heap.takeWritten.2, (m.heap.get? r).isSome) ∧
    ∀ (W : Type) (p : Platform W) (w : W) (t : ThreadId) (place : MethodPlace) (args : Arguments),
      p.classPath = path → p.Leads (fun _ => True) →
      TrackedRun path m (runNative p (Registry.bootstrap W) t place args (m, w)).2.1 := by
  obtain ⟨hs₀, _⟩ := hfirst.sound Heap.sound_new fun _ hr => absurd hr List.not_mem_nil
  have hs : m₀.taken.heap.Sound := hs₀.of_written []
  have hw : m₀.taken.heap.WrittenLive := fun _ hr => absurd hr List.not_mem_nil
  obtain ⟨_, hwritten⟩ := TrackedRun.sound hrun hs hw
  refine ⟨?_, ?_, ?_, ?_, ?_⟩
  · intro r o o₀ ho ho₀ hlive i hi
    have hne : o.body.references ≠ o₀.body.references := fun heq => hi (by rw [heq])
    exact Heap.mem_takeWritten.mpr (TrackedWhileLive.listed hlive hs hw ho₀ ho hne)
  · intro r o m₁ ho hbefore hdead hafter i x hx
    obtain ⟨hs₁, hw₁⟩ := TrackedRun.sound hbefore hs hw
    have hblank : ¬ o.body.Blank := by
      intro hb
      cases hb (some x) (List.mem_of_getElem? hx)
    exact Heap.mem_takeWritten.mpr (TrackedRun.listed_of_dead hafter hs₁ hw₁ hdead ho hblank)
  · intro r o _
    cases ho₀ : m₀.heap.get? r with
    | none => exact Or.inr ⟨m₀.taken, .refl, ho₀, hrun⟩
    | some o₀ =>
      rcases TrackedRun.whileLive_or_dead hrun r with hlive | hdead
      · exact Or.inl ⟨o₀, rfl, hlive⟩
      · exact Or.inr hdead
  · exact fun r hr => hwritten r (Heap.mem_takeWritten.mp hr)
  · rintro W p w t place args rfl hp
    exact (later_runNative (s := (m, w)) hp t place args).trackedRun

/-- Two arrays with room for one reference each. -/
def pairedMachine : Machine :=
  ((Operation.newArray .object 1).run {} ((Operation.newArray .object 1).run {} {}).2).2

/-- That machine after a reference was written to each of the two and the second one was freed. -/
def halvedMachine : Machine :=
  let store (r : ObjectRef) : Operation := .arrayStore (some r) 0 (.ref ⟨0⟩)
  let m := ((store ⟨1⟩).run {} ((store ⟨0⟩).run {} pairedMachine.taken).2).2
  { m with heap := (m.heap.sweep fun r _ => r.index ≠ 1).1 }

/-- That machine with another array in the slot that was freed, which was written to. -/
def repairedMachine : Machine :=
  ((Operation.arrayStore (some ⟨1⟩) 0 (.ref ⟨0⟩)).run {}
    ((Operation.newArray .object 1).run {} halvedMachine).2).2

theorem changed_references_listed_repairedMachine :
    ⟨0⟩ ∈ repairedMachine.heap.takeWritten.2 ∧ ⟨1⟩ ∈ repairedMachine.heap.takeWritten.2 := by
  have hfirst : HeapRun {} {} pairedMachine :=
    (Relation.ReflTransGen.single (.operation (.newArray .object 1))).tail
      (.operation (.newArray .object 1))
  have hhalved : TrackedRun {} pairedMachine.taken halvedMachine :=
    ((Relation.ReflTransGen.single (.operation (.arrayStore (some ⟨0⟩) 0 (.ref ⟨0⟩)))).tail
      (.operation (.arrayStore (some ⟨1⟩) 0 (.ref ⟨0⟩)))).tail (.sweep _)
  have hrepaired : TrackedRun {} halvedMachine repairedMachine :=
    (Relation.ReflTransGen.single (.operation (.newArray .object 1))).tail
      (.operation (.arrayStore (some ⟨1⟩) 0 (.ref ⟨0⟩)))
  have hlive : TrackedWhileLive {} ⟨0⟩ pairedMachine.taken repairedMachine :=
    ((((Relation.ReflTransGen.single
      ⟨.operation (.arrayStore (some ⟨0⟩) 0 (.ref ⟨0⟩)), by decide +kernel⟩).tail
      ⟨.operation (.arrayStore (some ⟨1⟩) 0 (.ref ⟨0⟩)), by decide +kernel⟩).tail
      ⟨.sweep _, by decide +kernel⟩).tail
      ⟨.operation (.newArray .object 1), by decide +kernel⟩).tail
      ⟨.operation (.arrayStore (some ⟨1⟩) 0 (.ref ⟨0⟩)), by decide +kernel⟩
  obtain ⟨hchanged, hadded, _⟩ := changed_references_listed hfirst (hhalved.trans hrepaired)
  constructor
  · have hnow : (repairedMachine.heap.get? ⟨0⟩).bind (·.body.references[0]?) = some (some ⟨0⟩) := by
      decide +kernel
    have hthen : (pairedMachine.heap.get? ⟨0⟩).bind (·.body.references[0]?) = some none := by
      decide +kernel
    obtain ⟨o, ho, hfull⟩ := Option.bind_eq_some_iff.mp hnow
    obtain ⟨o₀, ho₀, hnull⟩ := Option.bind_eq_some_iff.mp hthen
    refine hchanged ⟨0⟩ o o₀ ho ho₀ hlive 0 ?_
    rw [hfull, hnull]
    decide
  · have hnow : (repairedMachine.heap.get? ⟨1⟩).bind (·.body.references[0]?) = some (some ⟨0⟩) := by
      decide +kernel
    obtain ⟨o, ho, hfull⟩ := Option.bind_eq_some_iff.mp hnow
    exact hadded ⟨1⟩ o halvedMachine ho hhalved (by decide +kernel) hrepaired 0 ⟨0⟩ hfull

end Machine

end JavaMachine
