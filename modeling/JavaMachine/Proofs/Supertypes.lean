/-
# Walks over supertypes

The superclasses of a class form a chain (`ClassTable.ancestors`).  What a walk finds depends on the
fixed parts of the classes alone, so two tables that agree on those give the same answers.  A class
that takes values of another one is above it in the superclass order, unless interfaces or arrays
come into play.
-/
import JavaMachine.Proofs.ClassTable

namespace JavaMachine

namespace ClassTable

/-! ## The chain of superclasses -/

/-- A class is the first of its ancestors. -/
theorem self_mem_ancestors (t : ClassTable) (c : ClassId) : c ∈ t.ancestors c := by
  rw [ancestors]
  exact List.mem_cons_self

/-- A class above another one is that class, or is above its superclass. -/
theorem mem_ancestors_iff {t : ClassTable} {a c : ClassId} :
    a ∈ t.ancestors c ↔ a = c ∨ ∃ s, t.superclass? c = some s ∧ a ∈ t.ancestors s.1 := by
  rw [ancestors, List.mem_cons]
  cases t.superclass? c with
  | none => simp
  | some s => simp

/-- The superclass that a walk goes to is the one that the class names. -/
theorem superclass_of_superclass? {t : ClassTable} {c : ClassId}
    {s : { s : ClassId // s.index < c.index }} (h : t.superclass? c = some s) :
    ∃ cls, t.get? c = some cls ∧ cls.superclass = some s.1 := by
  unfold superclass? at h
  split at h
  · next d hd =>
    obtain ⟨cls, hc, hs⟩ := Option.bind_eq_some_iff.mp hd
    split at h
    · rw [Option.some.injEq] at h
      rw [← h]
      exact ⟨cls, hc, hs⟩
    · cases h
  · cases h

/-- What holds of a class, and passes from a class to its superclass, holds of all classes above. -/
theorem forall_mem_ancestors {t : ClassTable} {P : ClassId → Prop}
    (hstep : ∀ c s, P c → t.superclass? c = some s → P s.1) {c : ClassId} (hc : P c) :
    ∀ a ∈ t.ancestors c, P a := by
  -- The induction is on the handle, since superclasses are older.
  generalize hn : c.index = n
  induction n using Nat.strongRecOn generalizing c with
  | ind n ih =>
    intro a ha
    rcases mem_ancestors_iff.mp ha with rfl | ⟨s, hs, has⟩
    · exact hc
    · have hlt : s.1.index < n := hn ▸ s.2
      exact ih s.1.index hlt (hstep c s hc hs) rfl a has

theorem isSubclass_iff {t : ClassTable} {sub sup : ClassId} :
    t.isSubclass sub sup = true ↔ sup ∈ t.ancestors sub :=
  List.contains_iff_mem

/-! ## Interfaces -/

/-- A class implements nothing when neither it nor a class above it names an interface. -/
theorem implements_eq_false {t : ClassTable} {c i : ClassId}
    (h : ∀ a ∈ t.ancestors c, t.interfaces a = []) : t.implements c i = false := by
  generalize hn : c.index = n
  induction n using Nat.strongRecOn generalizing c with
  | ind n ih =>
    rw [implements, h c (self_mem_ancestors t c), List.any_nil, Bool.false_or]
    split
    · next s hs =>
      have hlt : s.1.index < n := hn ▸ s.2
      refine ih s.1.index hlt ?_ rfl
      intro a ha
      exact h a (mem_ancestors_iff.mpr (Or.inr ⟨s, hs, ha⟩))
    · rfl

/-! ## Tables that agree -/

/-- At the handles of a set, the two tables have classes with the same fixed parts, or none. -/
def AgreesOn (S : ClassId → Prop) (t t' : ClassTable) : Prop :=
  ∀ c, S c → (t.get? c).map Class.fixed = (t'.get? c).map Class.fixed

/-- The two tables have classes at the same handles, with the same fixed parts. -/
def Agrees (t t' : ClassTable) : Prop :=
  ∀ c, (t.get? c).map Class.fixed = (t'.get? c).map Class.fixed

section AgreesOn

variable {S : ClassId → Prop} {t t' : ClassTable}

/-- At each handle of the set, tables that agree have no class or classes with the same fixed part.
-/
theorem AgreesOn.get? (h : AgreesOn S t t') {c : ClassId} (hc : S c) :
    (t.get? c = none ∧ t'.get? c = none) ∨
      ∃ x y, t.get? c = some x ∧ t'.get? c = some y ∧ x.fixed = y.fixed := by
  have hsame := h c hc
  cases hx : t.get? c with
  | none =>
    rw [hx] at hsame
    exact Or.inl ⟨rfl, Option.map_eq_none_iff.mp hsame.symm⟩
  | some x =>
    rw [hx] at hsame
    obtain ⟨y, hy, he⟩ := Option.map_eq_some_iff.mp hsame.symm
    exact Or.inr ⟨x, y, rfl, hy, he.symm⟩

theorem AgreesOn.superclass? (h : AgreesOn S t t') {c : ClassId} (hc : S c) :
    t.superclass? c = t'.superclass? c := by
  unfold ClassTable.superclass?
  rcases h.get? hc with ⟨hx, hy⟩ | ⟨x, y, hx, hy, he⟩
  · rw [hx, hy]
  · rw [hx, hy, Option.bind_some, Option.bind_some,
      Class.eq_of_fixed he Class.superclass fun _ => rfl]

theorem AgreesOn.interfaces (h : AgreesOn S t t') {c : ClassId} (hc : S c) :
    t.interfaces c = t'.interfaces c := by
  unfold ClassTable.interfaces
  rcases h.get? hc with ⟨hx, hy⟩ | ⟨x, y, hx, hy, he⟩
  · rw [hx, hy]
  · rw [hx, hy, Option.elim_some, Option.elim_some,
      Class.eq_of_fixed he Class.interfaces fun _ => rfl]

-- A walk goes to older classes, so it stays in a set that has all classes older than one of its own.
variable (hdown : ∀ c d : ClassId, S c → d.index < c.index → S d)
include hdown

/-- Tables that agree on some classes agree on their ancestors. -/
theorem AgreesOn.ancestors (h : AgreesOn S t t') {c : ClassId} (hc : S c) :
    t.ancestors c = t'.ancestors c := by
  generalize hn : c.index = n
  induction n using Nat.strongRecOn generalizing c with
  | ind n ih =>
    rw [ClassTable.ancestors, ClassTable.ancestors, h.superclass? hc]
    cases hs : t'.superclass? c with
    | none => rfl
    | some s =>
      have hlt : s.1.index < n := hn ▸ s.2
      simp only [ih s.1.index hlt (hdown c s.1 hc s.2) rfl]

/-- Tables that agree on some classes agree on what they implement. -/
theorem AgreesOn.implements (h : AgreesOn S t t') {c : ClassId} (hc : S c) (i : ClassId) :
    t.implements c i = t'.implements c i := by
  generalize hn : c.index = n
  induction n using Nat.strongRecOn generalizing c with
  | ind n ih =>
    have hany : ∀ j : { j : ClassId // j.index < c.index },
        (decide (j.1 = i) || t.implements j.1 i) = (decide (j.1 = i) || t'.implements j.1 i) := by
      intro j
      rw [ih j.1.index (hn ▸ j.2) (hdown c j.1 hc j.2) rfl]
    rw [ClassTable.implements, ClassTable.implements, h.superclass? hc, h.interfaces hc,
      funext hany]
    cases hs : t'.superclass? c with
    | none => rfl
    | some s =>
      have hlt : s.1.index < n := hn ▸ s.2
      simp only [ih s.1.index hlt (hdown c s.1 hc s.2) rfl]

/-- Tables that agree on a set with the components of its array classes give the same answers there.
-/
theorem AgreesOn.isAssignable (h : AgreesOn S t t')
    (hcomp : ∀ c cls element component, S c → t.get? c = some cls →
      cls.kind = .array element component → S component)
    {target source : ClassId} (ht : S target) (hs : S source) :
    t.isAssignable target source = t'.isAssignable target source := by
  generalize hn : target.index = n
  induction n using Nat.strongRecOn generalizing target source with
  | ind n ih =>
    rw [ClassTable.isAssignable, ClassTable.isAssignable]
    rcases h.get? ht with ⟨hx, hy⟩ | ⟨x, y, hx, hy, he⟩
    · rw [hx, hy]
    · rcases h.get? hs with ⟨hu, hv⟩ | ⟨u, v, hu, hv, he'⟩
      · rw [hx, hy, hu, hv]
      · rw [hx, hy, hu, hv]
        simp only [← Class.eq_of_fixed he Class.kind fun _ => rfl,
          ← Class.eq_of_fixed he' Class.kind fun _ => rfl,
          ← Class.eq_of_fixed he Class.isInterface fun _ => rfl, h.implements hdown hs, isSubclass,
          h.ancestors hdown hs]
        split
        · rfl
        · split
          · rfl
          · rfl
          · rfl
          · next hk hk' =>
            split
            · next hlt =>
              have htcomp := hdown target _ ht hlt
              exact ih _ (hn ▸ hlt) htcomp (hcomp source u _ _ hs hu hk') rfl
            · rfl
          · rfl

end AgreesOn

/-- A table agrees with its extensions on the classes that it has. -/
theorem Extends.agreesOn {t t' : ClassTable} (h : t.Extends t') :
    AgreesOn (·.index < t.size) t t' := by
  intro c hc
  obtain ⟨cls, hcls⟩ := exists_get?_of_lt hc
  obtain ⟨cls', hcls', hfixed⟩ := h c cls hcls
  rw [hcls, hcls', Option.map_some, Option.map_some, hfixed]

/-- A class of the table has the same chain of superclasses in every extension. -/
theorem Extends.ancestors {t t' : ClassTable} (h : t.Extends t') {c : ClassId}
    (hc : c.index < t.size) : t'.ancestors c = t.ancestors c := by
  symm
  exact h.agreesOn.ancestors (fun _ _ hlt hd => Nat.lt_trans hd hlt) hc

theorem Agrees.on {t t' : ClassTable} (h : t.Agrees t') : AgreesOn (fun _ => True) t t' :=
  fun c _ => h c

/-- At each handle, tables that agree have no class or classes with the same fixed part. -/
theorem Agrees.get? {t t' : ClassTable} (h : t.Agrees t') (c : ClassId) :
    (t.get? c = none ∧ t'.get? c = none) ∨
      ∃ x y, t.get? c = some x ∧ t'.get? c = some y ∧ x.fixed = y.fixed :=
  h.on.get? trivial

/-- A class whose fixed parts stay agrees with what it was. -/
theorem agrees_update {t : ClassTable} {c : ClassId} {f : Class → Class}
    (hf : ∀ cls, (f cls).fixed = cls.fixed) : (t.update c f).Agrees t := by
  intro d
  rw [get?_update]
  split
  · rw [Option.map_map, show Class.fixed ∘ f = Class.fixed from funext hf]
  · rfl

/-- Tables that agree assign alike. -/
theorem Agrees.isAssignable {t t' : ClassTable} (h : t.Agrees t') (target source : ClassId) :
    t.isAssignable target source = t'.isAssignable target source :=
  h.on.isAssignable (fun _ _ _ _ => trivial) (fun _ _ _ _ _ _ _ => trivial) trivial trivial

theorem Agrees.dotted {t t' : ClassTable} (h : t.Agrees t') (c : ClassId) :
    t.dotted c = t'.dotted c := by
  unfold ClassTable.dotted ClassTable.get
  rcases h.get? c with ⟨hx, hy⟩ | ⟨x, y, hx, hy, he⟩
  · rw [hx, hy]
  · rw [hx, hy]
    exact congrArg Except.ok (Class.eq_of_fixed he Class.dotted fun _ => rfl)

/-! ## Values of another class -/

/-- An ordinary class that is no interface takes values of the classes below it. The class above all
others also takes arrays. -/
theorem mem_ancestors_of_isAssignable {t : ClassTable} {target source : ClassId} {cls : Class}
    (hc : t.get? target = some cls) (hk : cls.kind = .ordinary) (hi : cls.isInterface = false)
    (h : t.isAssignable target source = true) :
    target ∈ t.ancestors source ∨ target = .object := by
  rw [isAssignable] at h
  split at h
  · next he =>
    rw [he]
    exact Or.inl (self_mem_ancestors t source)
  · rw [hc] at h
    cases hs : t.get? source with
    | none =>
      rw [hs] at h
      cases h
    | some scls =>
      rw [hs] at h
      simp only [hk, hi] at h
      cases hsk : scls.kind with
      | ordinary =>
        simp only [hsk] at h
        exact Or.inl (isSubclass_iff.mp h)
      | array element component =>
        simp only [hsk] at h
        exact Or.inr (of_decide_eq_true h)
      | primitive kind =>
        simp only [hsk] at h
        cases h

/-- An interface takes values of the classes that implement it, and of itself. -/
theorem implements_of_isAssignable {t : ClassTable} {target source : ClassId} {cls : Class}
    (hc : t.get? target = some cls) (hk : cls.kind = .ordinary) (hi : cls.isInterface = true)
    (h : t.isAssignable target source = true) :
    target = source ∨ t.implements source target = true := by
  rw [isAssignable] at h
  split at h
  · next he => exact Or.inl he
  · rw [hc] at h
    cases hs : t.get? source with
    | none =>
      rw [hs] at h
      cases h
    | some scls =>
      rw [hs] at h
      simp only [hk, hi] at h
      cases hsk : scls.kind with
      | primitive kind =>
        simp only [hsk] at h
        cases h
      | ordinary =>
        simp only [hsk] at h
        exact Or.inr h
      | array element component =>
        simp only [hsk] at h
        exact Or.inr h

end ClassTable

end JavaMachine
