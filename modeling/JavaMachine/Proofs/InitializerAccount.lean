/-
# What initialization has come to

A class counts as begun before its superclass is initialized and before its own initializer runs, so
a class that was begun may be `busy`: the walk to its superclass is still under way.  Any other class
that was begun has been settled: its initializer was handed to the engine, or one further up failed.
`Account` says so of a class table and the events of a run, together with the order in which
initializers are handed over; `Continues` says what later events may be.
-/
import JavaMachine.Proofs.EngineRuns

namespace JavaMachine

/-! ## Events -/

namespace InitEvent

/-- The initializer of a class has ended. -/
def Ended (events : List InitEvent) (c : ClassId) : Prop :=
  .returned c ∈ events ∨ .failed c ∈ events

/-- No initializer is running. -/
def Idle (events : List InitEvent) : Prop := ∀ c, .handed c ∈ events → Ended events c

theorem ended_append {events new : List InitEvent} {c : ClassId} :
    Ended (events ++ new) c ↔ Ended events c ∨ Ended new c := by
  unfold Ended
  simp only [List.mem_append]
  constructor
  · rintro ((h | h) | h | h)
    · exact Or.inl (Or.inl h)
    · exact Or.inr (Or.inl h)
    · exact Or.inl (Or.inr h)
    · exact Or.inr (Or.inr h)
  · rintro ((h | h) | h | h)
    · exact Or.inl (Or.inl h)
    · exact Or.inr (Or.inl h)
    · exact Or.inl (Or.inr h)
    · exact Or.inr (Or.inr h)

theorem not_ended_handed {c d : ClassId} : ¬ Ended [.handed d] c := by
  unfold Ended
  simp

end InitEvent

open InitEvent

/-- As long as nothing has failed, an initializer that is handed over while no other one is running
comes after that of the direct superclass, which has returned. -/
def InOrder (t : ClassTable) (events : List InitEvent) : Prop :=
  ∀ before c, before ++ [.handed c] <+: events → (∀ d, .failed d ∉ before) → Idle before →
    ∀ s, t.superclass? c = some s → t.initializer? s.1 ≠ none →
      .handed s.1 ∈ before ∧ .returned s.1 ∈ before

/-- What holds of the classes of a table after the events of a run, while some classes are busy. -/
structure Account (t : ClassTable) (events : List InitEvent) (busy : List ClassId) : Prop where
  begun : ∀ c, .handed c ∈ events → t.isStarted c = true
  handed : ∀ c, Ended events c → .handed c ∈ events
  once : ∀ c, events.count (.handed c) ≤ 1
  settled : ∀ c, t.isStarted c = true → t.initializer? c ≠ none →
    c ∈ busy ∨ .handed c ∈ events ∨ ∃ d ∈ t.ancestors c, .failed d ∈ events
  upward : ∀ c s, t.isStarted c = true → t.superclass? c = some s → t.needsInit s.1 = true →
    c ∈ busy ∨ t.isStarted s.1 = true
  ordered : InOrder t events

/-- What a part of a run adds to the classes and events before it: it hands over initializers of
classes that were not begun, and each of these ends within it. -/
structure Continues (t t' : ClassTable) (events events' : List InitEvent) : Prop where
  grows : t.Extends t'
  kept : ∀ c, t.isStarted c = true → t'.isStarted c = true
  added : ∃ new, events' = events ++ new ∧ (∀ c, .handed c ∈ new → t.isStarted c = false) ∧
    ∀ c, Ended new c ↔ .handed c ∈ new

variable {t t' t'' : ClassTable} {events events' events'' : List InitEvent} {busy : List ClassId}
  {c : ClassId}

/-! ## Parts of a run -/

theorem Continues.refl (t : ClassTable) (events : List InitEvent) :
    Continues t t events events where
  grows := .refl t
  kept := fun _ h => h
  added := by
    refine ⟨[], (List.append_nil _).symm, fun c h => absurd h List.not_mem_nil, fun c => ?_⟩
    simp [Ended]

/-- Growth of the table in which no class is begun. -/
theorem Continues.of_grows (h : t.Extends t') (hs : ∀ c, t.isStarted c = true → t'.isStarted c = true)
    (events : List InitEvent) : Continues t t' events events :=
  { Continues.refl t events with grows := h, kept := hs }

/-- A class that was not begun afterwards was not begun before. -/
theorem Continues.fresh (h : Continues t t' events events') (hc : t'.isStarted c = false) :
    t.isStarted c = false := by
  by_cases hs : t.isStarted c = true
  · rw [h.kept c hs] at hc
    cases hc
  · exact Bool.eq_false_iff.mpr hs

theorem Continues.trans (h : Continues t t' events events') (h' : Continues t' t'' events' events'') :
    Continues t t'' events events'' where
  grows := h.grows.trans h'.grows
  kept := fun c hc => h'.kept c (h.kept c hc)
  added := by
    obtain ⟨new, rfl, hnew, hended⟩ := h.added
    obtain ⟨new', rfl, hnew', hended'⟩ := h'.added
    refine ⟨new ++ new', List.append_assoc .., ?_, ?_⟩
    · intro c hc
      rcases List.mem_append.mp hc with hc | hc
      · exact hnew c hc
      · exact h.fresh (hnew' c hc)
    · intro c
      rw [ended_append, List.mem_append, hended, hended']

/-- The events around the run of an initializer. -/
theorem Continues.around (h : Continues t t' events events') (hc : t.isStarted c = false)
    (h' : Continues t' t'' (events' ++ [.handed c]) events'') {e : InitEvent}
    (he : e = .returned c ∨ e = .failed c) : Continues t t'' events (events'' ++ [e]) where
  grows := h.grows.trans h'.grows
  kept := fun d hd => h'.kept d (h.kept d hd)
  added := by
    obtain ⟨new, rfl, hnew, hended⟩ := h.added
    obtain ⟨new', rfl, hnew', hended'⟩ := h'.added
    have hlast : ∀ d, Ended [e] d ↔ d = c := by
      intro d
      unfold Ended
      rcases he with rfl | rfl
      · simp
      · simp
    refine ⟨new ++ [.handed c] ++ new' ++ [e], by simp only [List.append_assoc], ?_, ?_⟩
    · intro d hd
      simp only [List.mem_append, List.mem_singleton] at hd
      rcases hd with ((hd | hd) | hd) | hd
      · exact hnew d hd
      · cases hd
        exact hc
      · exact h.fresh (hnew' d hd)
      · rcases he with rfl | rfl
        · cases hd
        · cases hd
    · intro d
      have hne : (.handed d : InitEvent) ≠ e := by
        rcases he with rfl | rfl
        · exact fun h => nomatch h
        · exact fun h => nomatch h
      simp only [ended_append, hended, hended', hlast, List.mem_append, List.mem_singleton,
        InitEvent.handed.injEq, hne, not_ended_handed, or_false]
      exact or_right_comm

/-- The initializer of a class that was begun before is not handed over. -/
theorem Continues.not_handed (h : Continues t t' events events') (hc : t.isStarted c = true)
    (hold : .handed c ∉ events) : .handed c ∉ events' := by
  obtain ⟨new, rfl, hnew, _⟩ := h.added
  intro hmem
  rcases List.mem_append.mp hmem with hmem | hmem
  · exact hold hmem
  · have hfresh := hnew c hmem
    rw [hc] at hfresh
    cases hfresh

/-- Where no initializer is running after a part of a run, none was running before it. -/
theorem Continues.idle (h : Continues t t' events events') (ha : Account t events busy)
    (hidle : Idle events') : Idle events := by
  obtain ⟨new, rfl, hnew, hended⟩ := h.added
  intro c hc
  rcases ended_append.mp (hidle c (List.mem_append_left _ hc)) with h | h
  · exact h
  · have hfresh := hnew c ((hended c).mp h)
    rw [ha.begun c hc] at hfresh
    cases hfresh

/-- Where no initializer is running before a part of a run, none is running after it. -/
theorem Continues.idle_of (h : Continues t t' events events') (hidle : Idle events) :
    Idle events' := by
  obtain ⟨new, rfl, _, hended⟩ := h.added
  intro c hc
  rw [ended_append]
  rcases List.mem_append.mp hc with hc | hc
  · exact Or.inl (hidle c hc)
  · exact Or.inr ((hended c).mpr hc)

/-! ## The account of a run -/

/-- The account of a new machine. -/
theorem account_new : Account .bootstrap [] [] where
  begun := fun _ h => absurd h List.not_mem_nil
  handed := by
    rintro c (h | h)
    · exact absurd h List.not_mem_nil
    · exact absurd h List.not_mem_nil
  once := fun _ => Nat.zero_le _
  settled := by
    intro c hc
    rw [ClassTable.isStarted_bootstrap] at hc
    cases hc
  upward := by
    intro c s hc
    rw [ClassTable.isStarted_bootstrap] at hc
    cases hc
  ordered := by
    intro before c hprefix
    have hnil := List.prefix_nil.mp hprefix
    simp at hnil

/-- The account stays right when classes are added and classes that are busy are begun. -/
theorem Account.of_grows {busy' : List ClassId} (h : Account t events busy) (hgrows : t.Extends t')
    (hkept : ∀ c, t.isStarted c = true → t'.isStarted c = true)
    (hnew : ∀ c, t'.isStarted c = true → c ∈ busy' ∨ t.isStarted c = true)
    (hbusy : ∀ c ∈ busy, c ∈ busy') : Account t' events busy' where
  begun := fun c hc => hkept c (h.begun c hc)
  handed := h.handed
  once := h.once
  settled := by
    intro c hc hx
    rcases hnew c hc with hb | hs
    · exact Or.inl hb
    · have hlt := ClassTable.lt_size_of_isStarted hs
      rw [hgrows.initializer? hlt] at hx
      rw [hgrows.ancestors hlt]
      rcases h.settled c hs hx with hb | hsettled
      · exact Or.inl (hbusy c hb)
      · exact Or.inr hsettled
  upward := by
    intro c s hc hsuper hneeds
    rcases hnew c hc with hb | hs
    · exact Or.inl hb
    · have hlt := ClassTable.lt_size_of_isStarted hs
      rw [← hgrows.agreesOn.superclass? hlt] at hsuper
      rw [hgrows.needsInit (Nat.lt_trans s.2 hlt)] at hneeds
      rcases h.upward c s hs hsuper hneeds with hb | hup
      · exact Or.inl (hbusy c hb)
      · exact Or.inr (hkept s.1 hup)
  ordered := by
    intro before c hprefix hnone hidle s hsuper hx
    have hmem : .handed c ∈ events := hprefix.subset (by simp)
    have hlt := ClassTable.lt_size_of_isStarted (h.begun c hmem)
    rw [← hgrows.agreesOn.superclass? hlt] at hsuper
    rw [hgrows.initializer? (Nat.lt_trans s.2 hlt)] at hx
    exact h.ordered before c hprefix hnone hidle s hsuper hx

/-- An initializer that was handed over ends. -/
theorem Account.ends (h : Account t events busy) (hc : .handed c ∈ events) {e : InitEvent}
    (he : e = .returned c ∨ e = .failed c) : Account t (events ++ [e]) busy := by
  have hne : ∀ d, e ≠ .handed d := by
    rintro d rfl
    rcases he with he | he
    · cases he
    · cases he
  have hold : ∀ d, .handed d ∈ events ++ [e] ↔ .handed d ∈ events := by
    intro d
    simp [(hne d).symm]
  refine ⟨?_, ?_, ?_, ?_, h.upward, ?_⟩
  · intro d hd
    exact h.begun d ((hold d).mp hd)
  · intro d hd
    rw [hold]
    rcases ended_append.mp hd with hd | hd
    · exact h.handed d hd
    · unfold Ended at hd
      rcases he with rfl | rfl
      · simp at hd
        exact hd ▸ hc
      · simp at hd
        exact hd ▸ hc
  · intro d
    rw [List.count_append, List.count_singleton, if_neg (by simpa using hne d)]
    exact h.once d
  · intro d hd hx
    rcases h.settled d hd hx with hb | hh | ⟨a, ha, hf⟩
    · exact Or.inl hb
    · exact Or.inr (Or.inl ((hold d).mpr hh))
    · exact Or.inr (Or.inr ⟨a, ha, List.mem_append_left _ hf⟩)
  · intro before d hprefix
    rcases List.prefix_concat_iff.mp hprefix with heq | hprefix
    · have hlast := (List.append_inj' heq rfl).2
      exact absurd (List.cons.inj hlast).1.symm (hne d)
    · exact h.ordered before d hprefix

/-- The initializer of a class that was begun is handed over for the first time, in order. -/
theorem Account.hands (h : Account t events busy) (hc : t.isStarted c = true)
    (hfirst : .handed c ∉ events)
    (horder : (∀ d, .failed d ∉ events) → Idle events → ∀ s, t.superclass? c = some s →
      t.initializer? s.1 ≠ none → .handed s.1 ∈ events ∧ .returned s.1 ∈ events) :
    Account t (events ++ [.handed c]) busy := by
  refine ⟨?_, ?_, ?_, ?_, h.upward, ?_⟩
  · intro d hd
    rcases List.mem_append.mp hd with hd | hd
    · exact h.begun d hd
    · cases List.mem_singleton.mp hd
      exact hc
  · intro d hd
    rcases ended_append.mp hd with hd | hd
    · exact List.mem_append_left _ (h.handed d hd)
    · exact absurd hd not_ended_handed
  · intro d
    rw [List.count_append, List.count_singleton]
    by_cases hdc : d = c
    · subst hdc
      rw [List.count_eq_zero.mpr hfirst]
      simp
    · have hne : ¬ (InitEvent.handed c == .handed d) = true := by
        simpa using Ne.symm hdc
      rw [if_neg hne]
      exact h.once d
  · intro d hd hx
    rcases h.settled d hd hx with hb | hh | ⟨a, ha, hf⟩
    · exact Or.inl hb
    · exact Or.inr (Or.inl (List.mem_append_left _ hh))
    · exact Or.inr (Or.inr ⟨a, ha, List.mem_append_left _ hf⟩)
  · intro before d hprefix
    rcases List.prefix_concat_iff.mp hprefix with heq | hprefix
    · obtain ⟨rfl, hlast⟩ := List.append_inj' heq rfl
      cases hlast
      exact horder
    · exact h.ordered before d hprefix

/-- A class that is settled need not count as busy any more. -/
theorem Account.release (h : Account t events (c :: busy))
    (hsettled : t.initializer? c ≠ none →
      .handed c ∈ events ∨ ∃ d ∈ t.ancestors c, .failed d ∈ events)
    (hup : ∀ s, t.superclass? c = some s → t.needsInit s.1 = true → t.isStarted s.1 = true) :
    Account t events busy := by
  refine { h with settled := ?_, upward := ?_ }
  · intro d hd hx
    rcases h.settled d hd hx with hb | hrest
    · rcases List.mem_cons.mp hb with rfl | hb
      · exact Or.inr (hsettled hx)
      · exact Or.inl hb
    · exact Or.inr hrest
  · intro d s hd hsuper hneeds
    rcases h.upward d s hd hsuper hneeds with hb | hs
    · rcases List.mem_cons.mp hb with rfl | hb
      · exact Or.inr (hup s hsuper hneeds)
      · exact Or.inl hb
    · exact Or.inr hs

/-- Where no initializer is running and none has failed, that of a class that was begun and is not
busy has returned. -/
theorem Account.returned (h : Account t events busy) (hc : t.isStarted c = true)
    (hx : t.initializer? c ≠ none) (hbusy : c ∉ busy) (hnone : ∀ d, .failed d ∉ events)
    (hidle : Idle events) : .handed c ∈ events ∧ .returned c ∈ events := by
  rcases h.settled c hc hx with hb | hh | ⟨d, _, hd⟩
  · exact absurd hb hbusy
  · rcases hidle c hh with hr | hf
    · exact ⟨hh, hr⟩
    · exact absurd hf (hnone c)
  · exact absurd hd (hnone d)

/-- Where no class is busy, the classes above one that was begun were begun too, as far as each on
the way is one that initialization begins. -/
theorem Account.isStarted_of_mem_ancestors (h : Account t events [])
    {a : ClassId} (hc : t.isStarted c = true)
    (ha : a ∈ t.ancestors c)
    (hchain : ∀ b ∈ t.ancestors c, a ∈ t.ancestors b → t.needsInit b = true) :
    t.isStarted a = true := by
  generalize hn : c.index = n
  induction n using Nat.strongRecOn generalizing c with
  | ind n ih =>
    rcases ClassTable.mem_ancestors_iff.mp ha with rfl | ⟨s, hs, has⟩
    · exact hc
    · have hmem : ∀ b ∈ t.ancestors s.1, b ∈ t.ancestors c :=
        fun b hb => ClassTable.mem_ancestors_iff.mpr (Or.inr ⟨s, hs, hb⟩)
      have hneeds := hchain s.1 (hmem s.1 (ClassTable.self_mem_ancestors t s.1)) has
      rcases h.upward c s hc hs hneeds with hb | hup
      · exact absurd hb List.not_mem_nil
      · have hlt : s.1.index < n := hn ▸ s.2
        exact ih s.1.index hlt hup has (fun b hb => hchain b (hmem b hb)) rfl

end JavaMachine
