/-
# Interned strings

The table of interned strings only grows: what a text is interned as, it is interned as ever after
(`Machine.InternRun.kept`).  Collections do not look at the table.  So interning gives a string object
of its text exactly if the text is new or its object has not been lost since, and only as long as
that object lives it stands for all strings of the text (`Machine.intern_canonical_iff`).
-/
import JavaMachine.Native.Objects
import JavaMachine.Proofs.HeapRuns

namespace JavaMachine

/-! ## Texts of objects -/

namespace Heap

/-- A string object of the text is live at the reference. -/
def HasText (h : Heap) (r : ObjectRef) (s : String) : Prop :=
  ∃ o, h.get? r = some o ∧ o.owner = .string ∧ o.body = .string s

variable {h h' : Heap} {r : ObjectRef} {s t : String}

/-- What has a text is there. -/
theorem HasText.isSome (ht : h.HasText r s) : (h.get? r).isSome := by
  obtain ⟨o, ho, -⟩ := ht
  simp [ho]

/-- A string has one text. -/
theorem HasText.unique (hs : h.HasText r s) (ht : h.HasText r t) : s = t := by
  obtain ⟨o, ho, -, hbody⟩ := hs
  obtain ⟨o', ho', -, hbody'⟩ := ht
  obtain rfl : o = o' := Option.some.inj (ho.symm.trans ho')
  exact Body.string.inj (hbody.symm.trans hbody')

/-- An added object leaves the texts of all others as they are. -/
theorem Sound.hasText_allocate (hs : h.Sound) (owner : ClassId) (body : Body)
    (ht : h.HasText r s) : (h.allocate owner body).1.HasText r s := by
  obtain ⟨hfree, hget⟩ := hs.allocate_spec owner body
  obtain ⟨o, ho, howner, hbody⟩ := ht
  refine ⟨o, ?_, howner, hbody⟩
  rw [hget, if_neg, ho]
  rintro rfl
  rw [hfree] at ho
  cases ho

/-- The contents of a string are not replaced by others. -/
theorem hasText_updateBody {p : ObjectRef} {o : Object} {body : Body} (ho : h.get? p = some o)
    (hs : o.body.SameShape body) (ht : h.HasText r s) :
    (h.updateBody p fun _ => body).HasText r s := by
  obtain ⟨x, hx, howner, hbody⟩ := ht
  unfold HasText
  rw [get?_updateBody]
  by_cases hp : r = p
  · subst hp
    obtain rfl : o = x := Option.some.inj (ho.symm.trans hx)
    rw [hbody] at hs
    have hsame : body = .string s := hs
    exact ⟨{ o with body }, by simp [hx], howner, hsame⟩
  · exact ⟨x, by simp [hp, hx], howner, hbody⟩

/-- A string keeps its text through a change of the heap. -/
theorem Change.hasText (hc : h.Change h') (hs : h.Sound) (ht : h.HasText r s) :
    h'.HasText r s := by
  cases hc with
  | allocate owner hblank => exact hs.hasText_allocate owner _ ht
  | rewrite ho hshape hrefs => exact hasText_updateBody ho hshape ht
  | store ho hshape =>
    have hupdate := hasText_updateBody ho hshape ht
    unfold HasText
    rwa [get?_noteWrite]
  | note hlive =>
    unfold HasText
    rwa [get?_noteWrite]

/-- Changes that free nothing keep the texts of all strings. -/
theorem hasText_of_changes (hc : Relation.ReflTransGen Change h h') (hs : h.Sound)
    (hw : h.WrittenLive) (ht : h.HasText r s) : h'.HasText r s := by
  induction hc with
  | refl => exact ht
  | tail hbefore hlast ih => exact hlast.hasText (changes_spec hbefore hs hw).1 ih

end Heap

/-! ## What operations do to interned strings -/

namespace Machine

/-- A machine comes to another one by changes that free nothing, in which what was interned stays, and
what is interned newly is a string of its text. -/
structure KeepsInterned (m m' : Machine) : Prop where
  changes : m.HeapChanges m'
  kept : ∀ s r, m.interned.get? s = some r → m'.interned.get? s = some r
  added : m.heap.Sound → m.heap.WrittenLive → ∀ s r, m'.interned.get? s = some r →
    m.interned.get? s = some r ∨ m'.heap.HasText r s

instance : IsPreorder Machine KeepsInterned where
  refl m := ⟨.refl, fun _ _ h => h, fun _ _ _ _ h => Or.inl h⟩
  trans m m' m'' h₁ h₂ := by
    refine ⟨.trans h₁.changes h₂.changes, fun s r h => h₂.kept s r (h₁.kept s r h), ?_⟩
    intro hs hw s r hr
    obtain ⟨hs', hw', -⟩ := Heap.changes_spec h₁.changes hs hw
    rcases h₂.added hs' hw' s r hr with hr' | htext
    · rcases h₁.added hs hw s r hr' with hbefore | htext
      · exact Or.inl hbefore
      · exact Or.inr (Heap.hasText_of_changes h₂.changes hs' hw' htext)
    · exact Or.inr htext

variable {m m' : Machine} {s : String} {r : ObjectRef}

/-- What changes no interned string keeps all of them. -/
theorem keepsInterned_of_eq (hchanges : m.HeapChanges m') (hinterned : m'.interned = m.interned) :
    m.KeepsInterned m' := by
  refine ⟨hchanges, ?_, ?_⟩
  · intro s r h
    rwa [hinterned]
  · intro _ _ s r h
    rw [hinterned] at h
    exact Or.inl h

/-- The machine after a text was interned that was not interned before. -/
def withInterned (m : Machine) (s : String) : Machine :=
  { m with
    heap := (m.heap.allocate .string (.string s)).1
    interned := m.interned.insert s (m.heap.allocate .string (.string s)).2 }

/-- A new string object has the text that it was made with. -/
theorem hasText_allocate (hs : m.heap.Sound) (s : String) :
    (m.heap.allocate .string (.string s)).1.HasText (m.heap.allocate .string (.string s)).2 s := by
  refine ⟨m.heap.nextObject .string (.string s), ?_, rfl, rfl⟩
  rw [(hs.allocate_spec _ _).2, if_pos rfl]

/-- A string that was not interned is added. -/
theorem keepsInterned_withInterned (m : Machine) (s : String) (hnew : m.interned.get? s = none) :
    m.KeepsInterned (m.withInterned s) := by
  have hblank : (Body.string s).Blank := Body.blank_of_references_eq_nil rfl
  refine ⟨.single (.allocate .string hblank), ?_, ?_⟩
  · intro t r h
    have ht : t ≠ s := by
      rintro rfl
      simp [hnew] at h
    simpa [withInterned, Table.get?_insert, ht] using h
  · intro hs _ t r h
    by_cases ht : t = s
    · subst ht
      obtain rfl : (m.heap.allocate .string (.string t)).2 = r := by
        simpa [withInterned, Table.get?_insert] using h
      exact Or.inr (hasText_allocate hs t)
    · left
      simpa [withInterned, Table.get?_insert, ht] using h

/-- Writing into an array interns nothing. -/
theorem interned_writeArray (m : Machine) (r : ObjectRef) (a : ArrayBody) :
    (m.writeArray r a).interned = m.interned := rfl

/-- What operations do at the bottom keeps what is interned. -/
theorem allows_keepsInterned : Allows KeepsInterned where
  classes hheap hinterned _ _ := keepsInterned_of_eq (heapChanges_of_eq hheap) hinterned
  allocate _ owner _ hblank := keepsInterned_of_eq (.single (.allocate owner hblank)) rfl
  intern := keepsInterned_withInterned
  setField h := by
    refine keepsInterned_of_eq (heapChanges_setField h) ?_
    rcases setField_eq_ok h with ⟨w, _, ⟨_, _, rfl⟩ | ⟨_, _, _, _, _, _, _, _, rfl⟩⟩
    · rfl
    · rfl
  arrayStore h := by
    refine keepsInterned_of_eq (heapChanges_arrayStore h) ?_
    obtain ⟨r, a, b, _, _, _, rfl⟩ := arrayStore_eq_ok h
    exact interned_writeArray _ r b
  arrayCopy h := by
    refine keepsInterned_of_eq (heapChanges_arrayCopy h) ?_
    rcases arrayCopy_eq_ok h with rfl | ⟨_, _, _, _, _, _, rfl⟩
    · rfl
    · rfl
  writeBytes h := by
    refine keepsInterned_of_eq (heapChanges_writeBytes h) ?_
    obtain ⟨_, data, _, _, rfl⟩ := Action.writeBytes_eq_ok h
    exact interned_writeArray _ _ (.primitive .byte data)

end Machine

namespace Action

open Machine (KeepsInterned allows_keepsInterned keepsInterned_of_eq)

variable {m : Machine}

/-- Filling an array touches no interned string. -/
theorem interned_fillArray (array : ObjectRef) (refs : List (Option ObjectRef)) (m : Machine) :
    (Builtin.fillArray array refs m).2.interned = m.interned := by
  unfold Builtin.fillArray
  rw [run_bind, run_get]
  dsimp only
  rw [run_bind, run_liftStop]
  cases m.arrayBody array with
  | error e => rfl
  | ok a =>
    cases a with
    | primitive p data => rfl
    | references slots =>
      dsimp only
      split
      · rfl
      · rfl

/-- An operation that is no collection keeps what is interned. -/
theorem keepsInterned_operation (path : ClassPath) (op : Operation)
    (hcollect : ∀ t keep, op ≠ .collect t keep) : Follows KeepsInterned m (op.run path) := by
  refine follows_operation allows_keepsInterned path op (fun args _ => ?_) hcollect
  refine follows_resolveTrace_of allows_keepsInterned fun array refs m => ?_
  have hchanges := (changes_fillArray (m := m) array refs).1
  exact ⟨keepsInterned_of_eq hchanges (interned_fillArray array refs m), fun _ _ => trivial⟩

end Action

/-! ## Runs -/

namespace Machine

/-- A step of a run: an operation, an object that is added directly, objects that are freed, a write
to a live object that is recorded, the taking of the list of those written to, or any change of what
is neither an object nor an interned string. -/
inductive InternStep (path : ClassPath) : Machine → Machine → Prop
  | operation {m : Machine} (op : Operation) : InternStep path m (op.run path m).2
  | allocate {m : Machine} (owner : ClassId) (body : Body) :
      InternStep path m { m with heap := (m.heap.allocate owner body).1 }
  | sweep {m : Machine} (keep : ObjectRef → Object → Bool) :
      InternStep path m { m with heap := (m.heap.sweep keep).1 }
  | noteWrite {m : Machine} {r : ObjectRef} (hlive : (m.heap.get? r).isSome) :
      InternStep path m { m with heap := m.heap.noteWrite r }
  | takeWritten {m : Machine} : InternStep path m { m with heap := m.heap.takeWritten.1 }
  | elsewhere {m m' : Machine} (hheap : m'.heap = m.heap) (hinterned : m'.interned = m.interned) :
      InternStep path m m'

/-- A run leads from one machine to another. -/
def InternRun (path : ClassPath) : Machine → Machine → Prop :=
  Relation.ReflTransGen (InternStep path)

/-- A run leads from one machine to another, and all along an object is live at a reference. -/
def InternRunWhileLive (path : ClassPath) (r : ObjectRef) : Machine → Machine → Prop :=
  Relation.ReflTransGen fun m m' => InternStep path m m' ∧ (m'.heap.get? r).isSome

/-- A run leads from one machine to another, and no step of it frees an object that is interned. -/
def SparingRun (path : ClassPath) : Machine → Machine → Prop :=
  Relation.ReflTransGen fun m m' => InternStep path m m' ∧
    ∀ s r, m.interned.get? s = some r → (m.heap.get? r).isSome → (m'.heap.get? r).isSome

variable {path : ClassPath} {m m₁ m₂ m' : Machine} {s t : String} {r r' : ObjectRef}

/-- Each step is one of the heap. -/
theorem InternStep.heapStep (h : InternStep path m m') : HeapStep path m m' := by
  cases h with
  | operation op => exact .operation op
  | allocate owner body => exact .allocate owner body
  | sweep keep => exact .sweep keep
  | noteWrite hlive => exact .noteWrite hlive
  | takeWritten => exact .takeWritten
  | elsewhere hheap hinterned => exact .elsewhere hheap

/-- An operation keeps what is interned, or frees objects. -/
theorem interned_operation (path : ClassPath) (op : Operation) (m : Machine) :
    m.KeepsInterned (op.run path m).2 ∨ (op.run path m).2.interned = m.interned ∧
      ∃ keep, (op.run path m).2.heap = (m.heap.sweep keep).1 := by
  by_cases hcollect : ∃ t keep, op = .collect t keep
  · obtain ⟨t, keep, rfl⟩ := hcollect
    rw [Operation.state_run (a := Action.collect t keep) rfl]
    obtain ⟨hinterned, hsame | hswept⟩ := Action.run_collect t keep m
    · exact Or.inl (keepsInterned_of_eq (heapChanges_of_eq hsame) hinterned)
    · exact Or.inr ⟨hinterned, keep, hswept⟩
  · left
    have hother : ∀ t keep, op ≠ .collect t keep := by
      intro t keep hop
      exact hcollect ⟨t, keep, hop⟩
    exact (Action.keepsInterned_operation path op hother).1

/-- A step keeps what is interned, adds an object, frees objects, or takes the list of those written
to. -/
theorem InternStep.cases (h : InternStep path m m') :
    m.KeepsInterned m' ∨ m'.interned = m.interned ∧
      ((∃ owner body, m'.heap = (m.heap.allocate owner body).1) ∨
        (∃ keep, m'.heap = (m.heap.sweep keep).1) ∨ m'.heap = m.heap.takeWritten.1) := by
  cases h with
  | operation op =>
    rcases interned_operation path op m with hkeeps | ⟨hinterned, hswept⟩
    · exact Or.inl hkeeps
    · exact Or.inr ⟨hinterned, Or.inr (Or.inl hswept)⟩
  | allocate owner body => exact Or.inr ⟨rfl, Or.inl ⟨owner, body, rfl⟩⟩
  | sweep keep => exact Or.inr ⟨rfl, Or.inr (Or.inl ⟨keep, rfl⟩)⟩
  | noteWrite hlive => exact Or.inl (keepsInterned_of_eq (.single (.note hlive)) rfl)
  | takeWritten => exact Or.inr ⟨rfl, Or.inr (Or.inr rfl)⟩
  | elsewhere hheap hinterned =>
    exact Or.inl (keepsInterned_of_eq (heapChanges_of_eq hheap) hinterned)

/-- What a text was interned as, it stays interned as. -/
theorem InternStep.kept (h : InternStep path m m') (hr : m.interned.get? s = some r) :
    m'.interned.get? s = some r := by
  rcases h.cases with hkeeps | ⟨hinterned, -⟩
  · exact hkeeps.kept s r hr
  · rwa [hinterned]

/-- What a step interns is a string of its text. -/
theorem InternStep.added (h : InternStep path m m') (hs : m.heap.Sound) (hw : m.heap.WrittenLive)
    (hr : m'.interned.get? s = some r) : m.interned.get? s = some r ∨ m'.heap.HasText r s := by
  rcases h.cases with hkeeps | ⟨hinterned, -⟩
  · exact hkeeps.added hs hw s r hr
  · left
    rwa [← hinterned]

/-- A string that a step does not free keeps its text. -/
theorem InternStep.hasText (h : InternStep path m m') (hs : m.heap.Sound) (hw : m.heap.WrittenLive)
    (ht : m.heap.HasText r s) (hlive : (m'.heap.get? r).isSome) : m'.heap.HasText r s := by
  rcases h.cases with hkeeps | ⟨-, ⟨owner, body, hadded⟩ | ⟨keep, hswept⟩ | htaken⟩
  · exact Heap.hasText_of_changes hkeeps.changes hs hw ht
  · rw [hadded]
    exact hs.hasText_allocate owner body ht
  · -- What a collection leaves is as it was.
    obtain ⟨o, ho, howner, hbody⟩ := ht
    obtain ⟨o', ho'⟩ := Option.isSome_iff_exists.mp hlive
    rw [hswept] at ho'
    have hbefore := ((Heap.get?_sweep_iff hs keep).mp ho').1
    obtain rfl : o = o' := Option.some.inj (ho.symm.trans hbefore)
    exact ⟨o, hswept ▸ ho', howner, hbody⟩
  · rw [htaken]
    exact ht

/-- Each run is one of the heap. -/
theorem InternRun.heapRun (h : InternRun path m m') : HeapRun path m m' :=
  Relation.ReflTransGen.mono (fun _ _ => InternStep.heapStep) _ _ h

/-- What is interned stays so, whether its string is live or not. -/
theorem InternRun.kept (h : InternRun path m m') (hr : m.interned.get? s = some r) :
    m'.interned.get? s = some r := by
  induction h with
  | refl => exact hr
  | tail _ hstep ih => exact hstep.kept ih

/-- A run that keeps one string live is a run. -/
theorem InternRunWhileLive.internRun (h : InternRunWhileLive path r m m') : InternRun path m m' :=
  Relation.ReflTransGen.mono (fun _ _ hstep => hstep.1) _ _ h

/-- A run that spares the interned strings is a run. -/
theorem SparingRun.internRun (h : SparingRun path m m') : InternRun path m m' :=
  Relation.ReflTransGen.mono (fun _ _ hstep => hstep.1) _ _ h

/-- A string keeps its text as long as it is live. -/
theorem InternRunWhileLive.hasText (h : InternRunWhileLive path r m m') (hs : m.heap.Sound)
    (hw : m.heap.WrittenLive) (ht : m.heap.HasText r s) : m'.heap.HasText r s := by
  induction h with
  | refl => exact ht
  | tail hbefore hstep ih =>
    obtain ⟨hs', hw'⟩ := (InternRunWhileLive.internRun hbefore).heapRun.sound hs hw
    exact hstep.1.hasText hs' hw' ih hstep.2

/-- In a run that frees nothing interned, what is interned is a string of its text. -/
theorem SparingRun.hasText (h : SparingRun path {} m) (hr : m.interned.get? s = some r) :
    m.heap.HasText r s := by
  induction h generalizing s r with
  | refl => simp [Table.get?] at hr
  | tail hbefore hstep ih =>
    obtain ⟨hs, hw⟩ := (SparingRun.internRun hbefore).heapRun.sound Heap.sound_new
      fun _ hx => absurd hx List.not_mem_nil
    rcases hstep.1.added hs hw hr with hold | hnew
    · have ht := ih hold
      exact hstep.1.hasText hs hw ht (hstep.2 s r hold ht.isSome)
    · exact hnew

/-! ## Interning -/

/-- A text that is interned gives the reference that is noted. -/
theorem intern_of_some (hr : m.interned.get? s = some r) : Action.intern s m = (.ok r, m) := by
  unfold Action.intern
  rw [run_bind, Action.run_get]
  dsimp only
  rw [hr]
  rfl

/-- Any other text gives a new string, which is noted. -/
theorem intern_of_none (hnew : m.interned.get? s = none) :
    Action.intern s m =
      (.ok (m.heap.allocate .string (.string s)).2, m.withInterned s) := by
  unfold Action.intern
  rw [run_bind, Action.run_get]
  dsimp only
  rw [hnew]
  rfl

/-- Interning a text makes it interned as what it gives. -/
theorem interned_of_intern (h : Action.intern s m = (.ok r, m')) :
    m'.interned.get? s = some r := by
  cases hr : m.interned.get? s with
  | some x =>
    rw [intern_of_some hr] at h
    cases h
    exact hr
  | none =>
    rw [intern_of_none hr] at h
    cases h
    simp [withInterned, Table.get?_insert]

/-- Interning is a step by itself. -/
theorem internStep_intern (h : Action.intern s m = (.ok r, m')) : InternStep path m m' := by
  have hrun : ((Operation.intern s).run path m).2 = m' := by
    show ((discard (Action.intern s) : Action Unit) m).2 = m'
    rw [run_discard, h]
  exact hrun ▸ .operation (.intern s)

/-- The native method that interns a string does so by its text. -/
theorem stringIntern_eq {args : Arguments} {x : ObjectRef} (hx : args.object 0 = .ok x)
    (hs : m.stringValue x = .ok s) (h : Action.intern s m = (.ok r, m')) :
    Builtin.stringIntern args m = (.ok (.ref r), m') := by
  unfold Builtin.stringIntern
  rw [Action.run_liftThrowable_bind, hx]
  dsimp only
  rw [run_bind, Action.run_get]
  dsimp only
  rw [run_bind, Action.run_liftStop, hs]
  dsimp only
  rw [run_bind, h]
  rfl

/-- A static field starts with a string constant interned. -/
theorem constantValue_eq {pool : ConstantPool} {index text : UInt16}
    (hindex : pool.get index = .ok (.string text)) (htext : pool.text text = .ok s)
    (h : Action.intern s m = (.ok r, m')) :
    Action.constantValue pool index .reference m = (.ok (.ref r), m') := by
  unfold Action.constantValue
  rw [Action.run_liftThrowable_bind, hindex]
  dsimp only [formatError, Except.mapError]
  rw [Action.run_liftThrowable_bind, htext]
  dsimp only [Except.mapError]
  rw [run_bind, h]
  rfl

/-- A string that stands for its text is what interning the text gives, and interning any other text
gives another string. -/
theorem ref_eq_iff_of_intern (hs : m.heap.Sound) (hw : m.heap.WrittenLive)
    (hr : m.interned.get? s = some r) (htext : m.heap.HasText r s)
    (h : Action.intern t m = (.ok r', m')) (htext' : m'.heap.HasText r' t) : r' = r ↔ t = s := by
  constructor
  · rintro rfl
    have hchanges : m.HeapChanges (Action.intern t m).2 :=
      (Action.follows_intern allows_heapChanges t).1
    rw [h] at hchanges
    exact htext'.unique (Heap.hasText_of_changes hchanges hs hw htext)
  · rintro rfl
    rw [intern_of_some hr] at h
    cases h
    rfl

/-- **When interned strings are canonical.**  In every machine that a run leads to, interning a text
gives a reference, and the same one ever after; the native method that interns a string gives it too,
and so does a string constant that a static field starts with.  There is a live string object of the text at it
exactly if the text was not interned before, or what it was interned as is such an object still.  As
long as that object lives it keeps its text, and interning gives it for no other text and for this one
always.  In a run that frees no interned object, interning never gives anything but a live string
object of its text. -/
theorem intern_canonical_iff (h : InternRun path {} m) (s : String) :
    ∃ r m₁, Action.intern s m = (.ok r, m₁) ∧
      (m₁.heap.HasText r s ↔ ∀ x, m.interned.get? s = some x → m.heap.HasText x s) ∧
      (∀ m₂, InternRun path m₁ m₂ → Action.intern s m₂ = (.ok r, m₂)) ∧
      (m₁.heap.HasText r s → ∀ m₂, InternRunWhileLive path r m₁ m₂ → m₂.heap.HasText r s ∧
        ∀ t r' m₃, Action.intern t m₂ = (.ok r', m₃) → m₃.heap.HasText r' t →
          (r' = r ↔ t = s)) ∧
      (SparingRun path {} m → m₁.heap.HasText r s) ∧
      (∀ args x, args.object 0 = .ok x → m.stringValue x = .ok s →
        Builtin.stringIntern args m = (.ok (.ref r), m₁)) ∧
      (∀ (pool : ConstantPool) index text, pool.get index = .ok (.string text) →
        pool.text text = .ok s →
          Action.constantValue pool index .reference m = (.ok (.ref r), m₁)) := by
  have hnew : Heap.WrittenLive {} := fun _ hx => absurd hx List.not_mem_nil
  obtain ⟨hs, -⟩ := h.heapRun.sound Heap.sound_new hnew
  obtain ⟨r, m₁, hintern, hiff⟩ : ∃ r m₁, Action.intern s m = (.ok r, m₁) ∧
      (m₁.heap.HasText r s ↔ ∀ x, m.interned.get? s = some x → m.heap.HasText x s) := by
    cases hr : m.interned.get? s with
    | some r => exact ⟨r, m, intern_of_some hr, by simp⟩
    | none =>
      have hmade : (m.withInterned s).heap.HasText _ s := hasText_allocate hs s
      exact ⟨_, _, intern_of_none hr, by simp [hmade]⟩
  have hentry : m₁.interned.get? s = some r := interned_of_intern hintern
  have hrun₁ : InternRun path {} m₁ := h.tail (internStep_intern hintern)
  refine ⟨r, m₁, hintern, hiff, ?_, ?_, ?_, ?_, ?_⟩
  · intro m₂ hrun
    exact intern_of_some (hrun.kept hentry)
  · intro htext m₂ hrun
    obtain ⟨hs₁, hw₁⟩ := hrun₁.heapRun.sound Heap.sound_new hnew
    obtain ⟨hs₂, hw₂⟩ := hrun.internRun.heapRun.sound hs₁ hw₁
    have htext₂ := hrun.hasText hs₁ hw₁ htext
    refine ⟨htext₂, ?_⟩
    intro t r' m₃ hlast htext₃
    exact ref_eq_iff_of_intern hs₂ hw₂ (hrun.internRun.kept hentry) htext₂ hlast htext₃
  · intro hsparing
    exact hiff.mpr fun x hx => hsparing.hasText hx
  · intro args x hx hs
    exact stringIntern_eq hx hs hintern
  · intro pool index text hindex htext
    exact constantValue_eq hindex htext hintern

/-- A machine whose interned text `a` was lost to a collection, and whose object of the text `b` has
come to its place. -/
def lostMachine : Machine :=
  ((Operation.intern "b").run {}
    ((Operation.collect (.ofNumber 1) fun r _ => r.index ≠ 1).run {}
      ((Operation.intern "a").run {} ((Operation.attach none).run {} {}).2).2).2).2

theorem internRun_lostMachine : InternRun {} {} lostMachine :=
  (((Relation.ReflTransGen.single (.operation (.attach none))).tail
    (.operation (.intern "a"))).tail (.operation (.collect (.ofNumber 1) _))).tail
      (.operation (.intern "b"))

/-- Both texts are interned as one object, and it is a string of the second one. -/
theorem lost_string_of_intern :
    (Action.intern "a" lostMachine).1.toOption = some ⟨1⟩ ∧
      (Action.intern "b" lostMachine).1.toOption = some ⟨1⟩ ∧
      (lostMachine.stringValue ⟨1⟩).toOption = some "b" := by
  decide +kernel

/-- The reference of a string that was freed is given for its text, and another text gets a new
one. -/
theorem intern_canonical_lostMachine :
    (∃ r m₁, Action.intern "a" lostMachine = (.ok r, m₁) ∧ ¬ m₁.heap.HasText r "a") ∧
      ∃ r m₁, Action.intern "b" lostMachine = (.ok r, m₁) ∧ m₁.heap.HasText r "b" := by
  have hbody : (lostMachine.heap.get? ⟨1⟩).map (fun o => (o.owner, o.body)) =
      some (.string, .string "b") := by
    decide +kernel
  obtain ⟨o, ho, hparts⟩ := Option.map_eq_some_iff.mp hbody
  obtain ⟨howner, hbody⟩ := Prod.mk.inj hparts
  have htext : lostMachine.heap.HasText ⟨1⟩ "b" := ⟨o, ho, howner, hbody⟩
  constructor
  · obtain ⟨r, m₁, hintern, hiff, -⟩ := intern_canonical_iff internRun_lostMachine "a"
    refine ⟨r, m₁, hintern, fun hright => ?_⟩
    have hlost := hiff.mp hright ⟨1⟩ (by decide +kernel)
    exact absurd (htext.unique hlost) (by decide)
  · obtain ⟨r, m₁, hintern, hiff, -⟩ := intern_canonical_iff internRun_lostMachine "b"
    refine ⟨r, m₁, hintern, hiff.mpr ?_⟩
    intro x hx
    have hentry : lostMachine.interned.get? "b" = some ⟨1⟩ := by decide +kernel
    obtain rfl : (⟨1⟩ : ObjectRef) = x := Option.some.inj (hentry.symm.trans hx)
    exact htext

end Machine

end JavaMachine
