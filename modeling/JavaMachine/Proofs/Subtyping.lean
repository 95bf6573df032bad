/-
# Subtypes

A class is a subtype of its superclass and of the interfaces that it names; an array class is also
a subtype of the class above all others, and of every array class over a supertype of its component.
What follows from these by going on is a subtype too (`ClassTable.IsSubtype`).

A value of one class can be stored where another class is expected exactly when the first class is a
subtype of the second, provided that the hierarchy of the classes that files define is proper
(`ClassTable.ProperHierarchy`).  The answer for interfaces follows `ClassTable.implements`, that for
other ordinary classes the chain of superclasses, and that for array classes their components, so the
proof finds for each kind of target what a class has to do to be below it, and shows that the three
conditions go together when subtypes are put in a row.

Every class refers to older classes only (`ClassTable.Founded`), so each walk over a hierarchy ends
where the hierarchy does, and two classes that are subtypes of each other are the same one.
-/
import JavaMachine.Proofs.Operations

namespace JavaMachine

/-! ## The hierarchy of classes -/

namespace ClassTable

/-- The least order on classes in which a class is below its superclass and its interfaces, and an
array class below the class above all others and below the array classes over what its component is
below of. -/
inductive IsSubtype (t : ClassTable) : ClassId → ClassId → Prop
  | refl (c : ClassId) : IsSubtype t c c
  | trans {c d e : ClassId} (h : IsSubtype t c d) (h' : IsSubtype t d e) : IsSubtype t c e
  | superclass {c s : ClassId} {cls : Class} (hc : t.get? c = some cls)
      (hs : cls.superclass = some s) : IsSubtype t c s
  | interface {c i : ClassId} {cls : Class} (hc : t.get? c = some cls)
      (hi : i ∈ cls.interfaces) : IsSubtype t c i
  | arrayObject {c component : ClassId} {cls : Class} {element : Tag} (hc : t.get? c = some cls)
      (hk : cls.kind = .array element component) : IsSubtype t c .object
  | covariant {c d x y : ClassId} {cls dcls : Class} (hc : t.get? c = some cls)
      (hd : t.get? d = some dcls) (hck : cls.kind = .array .reference x)
      (hdk : dcls.kind = .array .reference y) (h : IsSubtype t x y) : IsSubtype t c d

/-- A class is placed properly: its superclass is an ordinary class and no interface, all interfaces
that it names are interfaces, and an interface is right below the class above all others. -/
structure PlacesProperly (t : ClassTable) (cls : Class) : Prop where
  superclass : ∃ s scls, cls.superclass = some s ∧ t.get? s = some scls ∧
    scls.kind = .ordinary ∧ scls.isInterface = false
  interfaces : ∀ i ∈ cls.interfaces, ∃ icls, t.get? i = some icls ∧ icls.isInterface = true
  ofInterface : cls.isInterface = true → cls.superclass = some .object

/-- Each class that a file defines is placed properly. -/
def ProperHierarchy (t : ClassTable) : Prop :=
  ∀ c cls, t.get? c = some cls → cls.kind = .ordinary → bootstrap.size ≤ c.index →
    t.PlacesProperly cls

instance (t : ClassTable) (cls : Class) : Decidable (t.PlacesProperly cls) :=
  decidable_of_iff
    ((∃ s ∈ cls.superclass, ∃ scls ∈ t.get? s, scls.kind = .ordinary ∧ scls.isInterface = false) ∧
      (∀ i ∈ cls.interfaces, ∃ icls ∈ t.get? i, icls.isInterface = true) ∧
      (cls.isInterface = true → cls.superclass = some .object))
    ⟨fun ⟨⟨s, hs, scls, hsc, hsk⟩, hi, ho⟩ => ⟨⟨s, scls, hs, hsc, hsk⟩, hi, ho⟩,
      fun ⟨⟨s, scls, hs, hsc, hsk⟩, hi, ho⟩ => ⟨⟨s, hs, scls, hsc, hsk⟩, hi, ho⟩⟩

instance (t : ClassTable) : Decidable t.ProperHierarchy :=
  decidable_of_iff
    (∀ i < t.size, ∀ cls ∈ t.get? ⟨i⟩, cls.kind = .ordinary → bootstrap.size ≤ i →
      t.PlacesProperly cls)
    ⟨fun h c cls hc => h c.index (lt_size_of_get? hc) cls hc, fun h i _ cls hc => h ⟨i⟩ cls hc⟩

/-- Each class refers to older classes only. -/
structure Founded (t : ClassTable) : Prop where
  superclass : ∀ c cls s, t.get? c = some cls → cls.superclass = some s → s.index < c.index
  interfaces : ∀ c cls, t.get? c = some cls → ∀ i ∈ cls.interfaces, i.index < c.index
  component : ∀ c cls element component, t.get? c = some cls →
    cls.kind = .array element component → component.index < c.index

/-! ## Every class refers to older classes -/

/-- The first classes stand behind their superclasses. -/
theorem superclass_older_bootstrapClasses :
    ∀ i < 26, ∀ s, (bootstrapClasses[i]?.bind Class.superclass) = some s → s.index < i := by
  have hcheck : ∀ i < 26,
      ((bootstrapClasses[i]?.bind Class.superclass).all fun s => s.index < i) = true := by
    decide +kernel
  intro i hi s hs
  have hs' := hcheck i hi
  rw [hs] at hs'
  simpa using hs'

variable {named : String → Prop} {t : ClassTable}

/-- An array class is younger than its component, which gives it its name. -/
theorem WellFormed.exists_component (h : t.WellFormed named) {c component : ClassId}
    {cls : Class} {element : Tag} (hc : t.get? c = some cls)
    (hk : cls.kind = .array element component) :
    component.index < c.index ∧
      ∃ ccls, t.get? component = some ccls ∧ arrayShape? ccls = some (cls.name, element) := by
  cases h.origin c cls hc with
  | bootstrap hb hfixed =>
    have harray := isArray_of_mem_bootstrapClasses _ (mem_of_get?_bootstrap hb)
    rw [← Class.eq_of_fixed hfixed Class.isArray fun _ => rfl,
      Class.isArray_iff.mpr ⟨_, _, hk⟩] at harray
    cases harray
  | array hcomp hshape hfixed holder =>
    rw [Class.eq_of_fixed (d := arrayClassOf ..) hfixed Class.kind fun _ => rfl] at hk
    cases hk
    exact ⟨holder, _, hcomp, hshape⟩
  | file hlinked hnamed =>
    rw [hlinked.ordinary] at hk
    cases hk

/-- Walks up the superclasses come to an end, as each is older. -/
theorem WellFormed.founded (h : t.WellFormed named) : t.Founded where
  superclass := by
    intro c cls s hc hs
    cases h.origin c cls hc with
    | @bootstrap b hb hfixed =>
      rw [Class.eq_of_fixed hfixed Class.superclass fun _ => rfl] at hs
      have hlt : c.index < 26 := size_bootstrap ▸ lt_size_of_get? hb
      apply superclass_older_bootstrapClasses c.index hlt s
      rw [← get?_bootstrap, hb, Option.bind_some, hs]
    | array hcomp hshape hfixed holder =>
      rw [Class.eq_of_fixed (d := arrayClassOf ..) hfixed Class.superclass fun _ => rfl] at hs
      -- The superclass is the first class of all, and the array class is younger than another one.
      have hobject : s = .object := (Option.some.inj hs).symm
      rw [hobject]
      show 0 < c.index
      omega
    | file hlinked hnamed => exact hlinked.older s hs
  interfaces := by
    intro c cls hc i hi
    cases h.origin c cls hc with
    | bootstrap hb hfixed =>
      rw [Class.eq_of_fixed hfixed Class.interfaces fun _ => rfl,
        interfaces_of_mem_bootstrapClasses _ (mem_of_get?_bootstrap hb)] at hi
      exact absurd hi List.not_mem_nil
    | array hcomp hshape hfixed =>
      rw [Class.eq_of_fixed (d := arrayClassOf ..) hfixed Class.interfaces fun _ => rfl] at hi
      exact absurd hi List.not_mem_nil
    | file hlinked hnamed => exact hlinked.interfacesOlder i hi
  component := fun _ _ _ _ hc hk => (h.exists_component hc hk).1

/-- The walk to a superclass goes wherever the class refers to one. -/
theorem Founded.superclass?_eq (h : t.Founded) {c s : ClassId} {cls : Class}
    (hc : t.get? c = some cls) (hs : cls.superclass = some s) :
    t.superclass? c = some ⟨s, h.superclass c cls s hc hs⟩ := by
  have hbind : (t.get? c).bind Class.superclass = some s := by
    rw [hc, Option.bind_some, hs]
  have hlt := h.superclass c cls s hc hs
  unfold superclass?
  split
  · next d hd =>
    rw [hbind, Option.some.injEq] at hd
    subst hd
    rw [dif_pos hlt]
  · next hnone =>
    rw [hbind] at hnone
    cases hnone

/-- The walk to interfaces goes to all that the class names. -/
theorem Founded.mem_interfaces (h : t.Founded) {c i : ClassId} {cls : Class}
    (hc : t.get? c = some cls) (hi : i ∈ cls.interfaces) :
    ⟨i, h.interfaces c cls hc i hi⟩ ∈ t.interfaces c := by
  have hlt := h.interfaces c cls hc i hi
  unfold ClassTable.interfaces
  rw [hc, Option.elim_some, List.mem_filterMap]
  refine ⟨i, hi, ?_⟩
  rw [dif_pos hlt]

/-- The interfaces that a walk goes to are interfaces that the class names. -/
theorem mem_of_mem_interfaces {c : ClassId} {i : { i : ClassId // i.index < c.index }}
    (h : i ∈ t.interfaces c) : ∃ cls, t.get? c = some cls ∧ i.1 ∈ cls.interfaces := by
  unfold interfaces at h
  cases hc : t.get? c with
  | none =>
    rw [hc] at h
    exact absurd h List.not_mem_nil
  | some cls =>
    rw [hc, Option.elim_some, List.mem_filterMap] at h
    obtain ⟨j, hj, hi⟩ := h
    split at hi
    · rw [Option.some.injEq] at hi
      rw [← hi]
      exact ⟨cls, rfl, hj⟩
    · cases hi

/-! ## Going up the chain of superclasses -/

/-- The superclasses of a superclass are among those of the class. -/
theorem mem_ancestors_trans {a b c : ClassId} (hab : b ∈ t.ancestors a)
    (hbc : c ∈ t.ancestors b) : c ∈ t.ancestors a := by
  have hall : ∀ d ∈ t.ancestors a, ∀ e ∈ t.ancestors d, e ∈ t.ancestors a := by
    refine forall_mem_ancestors ?_ fun e he => he
    intro d s hd hs e he
    apply hd e
    exact mem_ancestors_iff.mpr (Or.inr ⟨s, hs, he⟩)
  exact hall b hab c hbc

/-- A class is no older than the classes above it. -/
theorem index_le_of_mem_ancestors {a c : ClassId} (h : a ∈ t.ancestors c) : a.index ≤ c.index := by
  have hall : ∀ d ∈ t.ancestors c, d.index ≤ c.index := by
    refine forall_mem_ancestors ?_ (Nat.le_refl _)
    intro d s hd _
    have hs := s.2
    omega
  exact hall a h

/-! ## Implementing an interface -/

/-- A class implements an interface when it names it, names one that is below it, or has a
superclass that implements it. -/
theorem implements_iff {c i : ClassId} :
    t.implements c i = true ↔
      (∃ j ∈ t.interfaces c, j.1 = i ∨ t.implements j.1 i = true) ∨
        ∃ s, t.superclass? c = some s ∧ t.implements s.1 i = true := by
  rw [implements, Bool.or_eq_true, List.any_eq_true]
  have hnamed : (∃ j ∈ t.interfaces c, (decide (j.1 = i) || t.implements j.1 i) = true) ↔
      ∃ j ∈ t.interfaces c, j.1 = i ∨ t.implements j.1 i = true := by
    simp only [Bool.or_eq_true, decide_eq_true_eq]
  rw [hnamed]
  cases t.superclass? c with
  | none => simp
  | some s => simp

/-- What a superclass implements, the class does. -/
theorem implements_of_mem_ancestors {a c i : ClassId} (ha : a ∈ t.ancestors c)
    (hi : t.implements a i = true) : t.implements c i = true := by
  generalize hn : c.index = n
  induction n using Nat.strongRecOn generalizing c with
  | ind n ih =>
    rcases mem_ancestors_iff.mp ha with rfl | ⟨s, hs, has⟩
    · exact hi
    · have hlt : s.1.index < n := hn ▸ s.2
      have hsi := ih s.1.index hlt has rfl
      exact implements_iff.mpr (Or.inr ⟨s, hs, hsi⟩)

/-- What an interface extends, every class that implements it implements. -/
theorem implements_trans {c i j : ClassId} (hi : t.implements c i = true)
    (hj : t.implements i j = true) : t.implements c j = true := by
  generalize hn : c.index = n
  induction n using Nat.strongRecOn generalizing c with
  | ind n ih =>
    rcases implements_iff.mp hi with ⟨k, hk, hki⟩ | ⟨s, hs, hsi⟩
    · have hkj : t.implements k.1 j = true := by
        rcases hki with rfl | hki
        · exact hj
        · exact ih k.1.index (hn ▸ k.2) hki rfl
      exact implements_iff.mpr (Or.inl ⟨k, hk, Or.inr hkj⟩)
    · have hsj := ih s.1.index (hn ▸ s.2) hsi rfl
      exact implements_iff.mpr (Or.inr ⟨s, hs, hsj⟩)

/-- A class is younger than the interfaces that it implements. -/
theorem index_lt_of_implements {c i : ClassId} (h : t.implements c i = true) :
    i.index < c.index := by
  generalize hn : c.index = n
  induction n using Nat.strongRecOn generalizing c with
  | ind n ih =>
    rcases implements_iff.mp h with ⟨j, _, hji⟩ | ⟨s, _, hsi⟩
    · have hlt : j.1.index < n := hn ▸ j.2
      rcases hji with rfl | hji
      · exact hlt
      · have hj := ih j.1.index hlt hji rfl
        omega
    · have hlt : s.1.index < n := hn ▸ s.2
      have hs := ih s.1.index hlt hsi rfl
      omega

/-! ## The places of classes in a proper hierarchy -/

/-- Where a class stands in a hierarchy. -/
inductive Place (t : ClassTable) (c : ClassId) (cls : Class) : Prop
  | top (hc : c = .object) (hk : cls.kind = .ordinary) (hi : cls.isInterface = false)
      (hs : cls.superclass = none) (hn : cls.interfaces = [])
  | below (hk : cls.kind = .ordinary) (hp : t.PlacesProperly cls)
  | array {element : Tag} {component : ClassId} (hk : cls.kind = .array element component)
      (hi : cls.isInterface = false) (hs : cls.superclass = some .object) (hn : cls.interfaces = [])
  | primitive {kind : Option Primitive} (hk : cls.kind = .primitive kind)
      (hi : cls.isInterface = false) (hs : cls.superclass = none) (hn : cls.interfaces = [])

/-- None of the first classes is an interface. -/
theorem isInterface_of_mem_bootstrapClasses : ∀ b ∈ bootstrapClasses, b.isInterface = false := by
  decide +kernel

/-- The first classes are subclasses of the root, or of numbers. -/
theorem ordinary_superclass_bootstrapClasses : ∀ b ∈ bootstrapClasses.tail, b.kind = .ordinary →
    b.superclass = some .object ∨ b.superclass = some .number := by
  decide +kernel

/-- Classes of primitive kinds have no superclass. -/
theorem superclass_of_primitive_bootstrapClasses :
    ∀ b ∈ bootstrapClasses, b.isPrimitive = true → b.superclass = none := by
  decide +kernel

/-- None of the first classes is an array class. -/
theorem kind_bootstrapClasses :
    ∀ b ∈ bootstrapClasses, b.kind = .ordinary ∨ b.isPrimitive = true := by
  decide +kernel

/-- The two classes that others of the bootstrap table are below of are ordinary ones. -/
theorem WellFormed.exists_object (h : t.WellFormed named) :
    ∃ cls, t.get? .object = some cls ∧ cls.kind = .ordinary ∧ cls.isInterface = false ∧
      cls.superclass = none ∧ cls.interfaces = [] := by
  obtain ⟨cls, hc, hfixed⟩ := h.bootstrap .object (ordinaryClass "java/lang/Object" none) (by rfl)
  refine ⟨cls, hc, ?_, ?_, ?_, ?_⟩
  · exact Class.eq_of_fixed hfixed Class.kind fun _ => rfl
  · rw [Class.eq_of_fixed hfixed Class.isInterface fun _ => rfl]
    decide
  · exact Class.eq_of_fixed hfixed Class.superclass fun _ => rfl
  · exact Class.eq_of_fixed hfixed Class.interfaces fun _ => rfl

/-- The class of numbers is there in every well-formed table. -/
theorem WellFormed.exists_number (h : t.WellFormed named) :
    ∃ cls, t.get? .number = some cls ∧ cls.kind = .ordinary ∧ cls.isInterface = false := by
  obtain ⟨cls, hc, hfixed⟩ :=
    h.bootstrap .number (ordinaryClass "java/lang/Number" (some .object)) (by rfl)
  refine ⟨cls, hc, Class.eq_of_fixed hfixed Class.kind fun _ => rfl, ?_⟩
  rw [Class.eq_of_fixed hfixed Class.isInterface fun _ => rfl]
  decide

/-- A class that is always there has its place in every hierarchy. -/
theorem WellFormed.place_of_bootstrap (h : t.WellFormed named) {c : ClassId} {cls b : Class}
    (hb : ClassTable.bootstrap.get? c = some b) (hfixed : cls.fixed = b.fixed) :
    t.Place c cls := by
  have hmem := mem_of_get?_bootstrap hb
  have hkind : cls.kind = b.kind := Class.eq_of_fixed hfixed Class.kind fun _ => rfl
  have hsuper : cls.superclass = b.superclass :=
    Class.eq_of_fixed hfixed Class.superclass fun _ => rfl
  have hi : cls.isInterface = false := by
    rw [Class.eq_of_fixed hfixed Class.isInterface fun _ => rfl]
    exact isInterface_of_mem_bootstrapClasses b hmem
  have hn : cls.interfaces = [] := by
    rw [Class.eq_of_fixed hfixed Class.interfaces fun _ => rfl]
    exact interfaces_of_mem_bootstrapClasses b hmem
  rcases kind_bootstrapClasses b hmem with hordinary | hprimitive
  · by_cases hc : c = .object
    · subst hc
      obtain rfl : ordinaryClass "java/lang/Object" none = b := Option.some.inj hb
      exact .top rfl hkind hi hsuper hn
    · -- Any other class of the table comes after the first one.
      have htail : b ∈ bootstrapClasses.tail := by
        rw [get?_bootstrap] at hb
        apply List.mem_of_getElem? (i := c.index - 1)
        rw [List.getElem?_tail, ← hb]
        congr 1
        have hpos : c.index ≠ 0 := fun h0 => hc (congrArg ClassId.mk h0)
        omega
      refine .below (hkind.trans hordinary) ⟨?_, ?_, ?_⟩
      · obtain ⟨ocls, hoc, hok, hoi, _⟩ := h.exists_object
        obtain ⟨ncls, hnc, hnk, hni⟩ := h.exists_number
        rcases ordinary_superclass_bootstrapClasses b htail hordinary with hs | hs
        · exact ⟨.object, ocls, hsuper.trans hs, hoc, hok, hoi⟩
        · exact ⟨.number, ncls, hsuper.trans hs, hnc, hnk, hni⟩
      · intro i hmem
        rw [hn] at hmem
        exact absurd hmem List.not_mem_nil
      · intro hyes
        rw [hi] at hyes
        cases hyes
  · obtain ⟨kind, hk⟩ : ∃ kind, b.kind = .primitive kind := by
      unfold Class.isPrimitive at hprimitive
      split at hprimitive
      · next kind hk => exact ⟨kind, hk⟩
      · cases hprimitive
    have hs := superclass_of_primitive_bootstrapClasses b hmem hprimitive
    exact .primitive (hkind.trans hk) hi (hsuper.trans hs) hn

/-- In a proper hierarchy every class has its place. -/
theorem WellFormed.place (h : t.WellFormed named) (hp : t.ProperHierarchy) {c : ClassId}
    {cls : Class} (hc : t.get? c = some cls) : t.Place c cls := by
  cases h.origin c cls hc with
  | bootstrap hb hfixed => exact h.place_of_bootstrap hb hfixed
  | array hcomp hshape hfixed =>
    have hk := Class.eq_of_fixed (d := arrayClassOf ..) hfixed Class.kind fun _ => rfl
    refine .array hk ?_ ?_ ?_
    · rw [Class.eq_of_fixed (d := arrayClassOf ..) hfixed Class.isInterface fun _ => rfl]
      show hasFlag syntheticFlags interfaceFlag = false
      decide
    · exact Class.eq_of_fixed (d := arrayClassOf ..) hfixed Class.superclass fun _ => rfl
    · exact Class.eq_of_fixed (d := arrayClassOf ..) hfixed Class.interfaces fun _ => rfl
  | file hlinked hnamed =>
    by_cases hlt : c.index < ClassTable.bootstrap.size
    · obtain ⟨b, hb, hfixed⟩ := h.fixed_eq_bootstrap hc hlt
      exact h.place_of_bootstrap hb hfixed
    · exact .below hlinked.ordinary (hp c cls hc hlinked.ordinary (Nat.le_of_not_lt hlt))

variable (hw : t.WellFormed named) (hp : t.ProperHierarchy)
include hw hp

/-- Array classes are subclasses of the root, and list no interface. -/
theorem supertypes_of_array {c component : ClassId} {cls : Class} {element : Tag}
    (hc : t.get? c = some cls) (hk : cls.kind = .array element component) :
    cls.superclass = some .object ∧ cls.interfaces = [] := by
  cases hw.place hp hc with
  | top _ hk' _ _ _ =>
    rw [hk] at hk'
    cases hk'
  | below hk' _ =>
    rw [hk] at hk'
    cases hk'
  | primitive hk' _ _ _ =>
    rw [hk] at hk'
    cases hk'
  | array _ _ hs hn => exact ⟨hs, hn⟩

/-- Classes of primitive kinds have no supertypes at all. -/
theorem supertypes_of_primitive {c : ClassId} {cls : Class} {kind : Option Primitive}
    (hc : t.get? c = some cls) (hk : cls.kind = .primitive kind) :
    cls.superclass = none ∧ cls.interfaces = [] := by
  cases hw.place hp hc with
  | top _ hk' _ _ _ =>
    rw [hk] at hk'
    cases hk'
  | below hk' _ =>
    rw [hk] at hk'
    cases hk'
  | array hk' _ _ _ =>
    rw [hk] at hk'
    cases hk'
  | primitive _ _ hs hn => exact ⟨hs, hn⟩

/-- Interfaces are subclasses of the root. -/
theorem supertypes_of_interface {c : ClassId} {cls : Class} (hc : t.get? c = some cls)
    (hi : cls.isInterface = true) : cls.kind = .ordinary ∧ cls.superclass = some .object := by
  have hnot : cls.isInterface ≠ false := by simp [hi]
  cases hw.place hp hc with
  | top _ _ hi' _ _ => exact absurd hi' hnot
  | below hk hproper => exact ⟨hk, hproper.ofInterface hi⟩
  | array _ hi' _ _ => exact absurd hi' hnot
  | primitive _ hi' _ _ => exact absurd hi' hnot

/-- A class that has another one above it is of no primitive kind. -/
theorem exists_class_of_mem_ancestors {a c : ClassId} (h : a ∈ t.ancestors c) (hne : a ≠ c) :
    ∃ cls, t.get? c = some cls ∧ ∀ kind, cls.kind ≠ .primitive kind := by
  obtain ⟨s, hs, _⟩ := (mem_ancestors_iff.mp h).resolve_left hne
  obtain ⟨cls, hc, hsuper⟩ := superclass_of_superclass? hs
  refine ⟨cls, hc, fun kind hkind => ?_⟩
  rw [(supertypes_of_primitive hw hp hc hkind).1] at hsuper
  cases hsuper

/-- Every class but those of primitive kinds is below the class above all others. -/
theorem object_mem_ancestors {c : ClassId} {cls : Class} (hc : t.get? c = some cls)
    (hk : ∀ kind, cls.kind ≠ .primitive kind) : .object ∈ t.ancestors c := by
  generalize hn : c.index = n
  induction n using Nat.strongRecOn generalizing c cls with
  | ind n ih =>
    have hgoUp : ∀ s, cls.superclass = some s → .object ∈ t.ancestors s →
        .object ∈ t.ancestors c := by
      intro s hs hmem
      exact mem_ancestors_iff.mpr (Or.inr ⟨_, hw.founded.superclass?_eq hc hs, hmem⟩)
    cases hw.place hp hc with
    | top htop _ _ _ _ =>
      rw [htop]
      exact self_mem_ancestors t _
    | below _ hproper =>
      obtain ⟨s, scls, hs, hsc, hsk, _⟩ := hproper.superclass
      have hlt : s.index < n := hn ▸ hw.founded.superclass c cls s hc hs
      apply hgoUp s hs
      apply ih s.index hlt hsc _ rfl
      intro kind hkind
      rw [hsk] at hkind
      cases hkind
    | array _ _ hs _ => exact hgoUp _ hs (self_mem_ancestors t _)
    | primitive hkind _ _ _ => exact absurd hkind (hk _)

omit hp in
/-- Only the class itself and the class above all others are above a class right below that one. -/
theorem eq_or_eq_object_of_mem_ancestors {a c : ClassId} {cls : Class} (hc : t.get? c = some cls)
    (hs : cls.superclass = some .object) (ha : a ∈ t.ancestors c) : a = c ∨ a = .object := by
  rcases mem_ancestors_iff.mp ha with h | ⟨s, hsuper, hmem⟩
  · exact Or.inl h
  · right
    rw [hw.founded.superclass?_eq hc hs, Option.some.injEq] at hsuper
    subst hsuper
    rcases mem_ancestors_iff.mp hmem with h | ⟨s, hsuper, _⟩
    · exact h
    · obtain ⟨ocls, hoc, _, _, hnone, _⟩ := hw.exists_object
      obtain ⟨cls', hc', hsome⟩ := superclass_of_superclass? hsuper
      rw [hoc, Option.some.injEq] at hc'
      rw [← hc', hnone] at hsome
      cases hsome

/-- A class that implements an interface is of no primitive kind. -/
theorem exists_class_of_implements {c i : ClassId} (h : t.implements c i = true) :
    ∃ cls, t.get? c = some cls ∧ ∀ kind, cls.kind ≠ .primitive kind := by
  rcases implements_iff.mp h with ⟨j, hj, _⟩ | ⟨s, hs, _⟩
  · obtain ⟨cls, hc, hmem⟩ := mem_of_mem_interfaces hj
    refine ⟨cls, hc, fun kind hkind => ?_⟩
    rw [(supertypes_of_primitive hw hp hc hkind).2] at hmem
    exact absurd hmem List.not_mem_nil
  · obtain ⟨cls, hc, hsuper⟩ := superclass_of_superclass? hs
    refine ⟨cls, hc, fun kind hkind => ?_⟩
    rw [(supertypes_of_primitive hw hp hc hkind).1] at hsuper
    cases hsuper

/-- An array class implements nothing. -/
theorem implements_eq_false_of_array {c i component : ClassId} {cls : Class} {element : Tag}
    (hc : t.get? c = some cls) (hk : cls.kind = .array element component) :
    t.implements c i = false := by
  have hnone : ∀ d dcls, t.get? d = some dcls → dcls.interfaces = [] → t.interfaces d = [] := by
    intro d dcls hd hn
    unfold ClassTable.interfaces
    rw [hd, Option.elim_some, hn]
    rfl
  obtain ⟨ocls, hoc, _, _, _, hon⟩ := hw.exists_object
  obtain ⟨hs, hn⟩ := supertypes_of_array hw hp hc hk
  refine implements_eq_false fun a ha => ?_
  rcases eq_or_eq_object_of_mem_ancestors hw hc hs ha with rfl | rfl
  · exact hnone a cls hc hn
  · exact hnone _ ocls hoc hon

/-! ## What a class has to do to be below another one -/

omit hw hp in
/-- A class that is below another one is of no primitive kind. -/
theorem exists_class_of_isAssignable {target source : ClassId}
    (h : t.isAssignable target source = true) (hne : target ≠ source) :
    ∃ cls, t.get? source = some cls ∧ ∀ kind, cls.kind ≠ .primitive kind := by
  rw [isAssignable, if_neg hne] at h
  cases hc : t.get? target with
  | none =>
    rw [hc] at h
    cases h
  | some tcls =>
    cases hs : t.get? source with
    | none =>
      rw [hc, hs] at h
      cases h
    | some cls =>
      refine ⟨cls, rfl, fun kind hkind => ?_⟩
      rw [hc, hs] at h
      cases hk : tcls.kind with
      | ordinary =>
        simp only [hk, hkind] at h
        cases h
      | array element component =>
        simp only [hk, hkind] at h
        cases h
      | primitive kind' =>
        simp only [hk, hkind] at h
        cases h

/-- Below an ordinary class that is no interface are the classes that have it in their chain. -/
theorem isAssignable_class_iff {target source : ClassId} {cls : Class}
    (hc : t.get? target = some cls) (hk : cls.kind = .ordinary) (hi : cls.isInterface = false) :
    t.isAssignable target source = true ↔ target ∈ t.ancestors source := by
  by_cases heq : target = source
  · subst heq
    have hself := self_mem_ancestors t target
    rw [isAssignable, if_pos rfl]
    simp [hself]
  constructor
  · intro h
    rcases mem_ancestors_of_isAssignable hc hk hi h with hmem | rfl
    · exact hmem
    · -- Arrays are below the class above all others, and primitive kinds are below nothing.
      obtain ⟨scls, hs, hnot⟩ := exists_class_of_isAssignable h heq
      exact object_mem_ancestors hw hp hs hnot
  · intro hmem
    obtain ⟨scls, hs, hnot⟩ := exists_class_of_mem_ancestors hw hp hmem heq
    rw [isAssignable, if_neg heq, hc, hs]
    simp only [hk, hi]
    cases hsk : scls.kind with
    | ordinary => exact isSubclass_iff.mpr hmem
    | array element component =>
      have hsuper := (supertypes_of_array hw hp hs hsk).1
      have htop := (eq_or_eq_object_of_mem_ancestors hw hs hsuper hmem).resolve_left heq
      simp [htop]
    | primitive kind => exact absurd hsk (hnot kind)

/-- Below an interface are the interface and the classes that implement it. -/
theorem isAssignable_interface_iff {target source : ClassId} {cls : Class}
    (hc : t.get? target = some cls) (hk : cls.kind = .ordinary) (hi : cls.isInterface = true) :
    t.isAssignable target source = true ↔
      target = source ∨ t.implements source target = true := by
  constructor
  · exact implements_of_isAssignable hc hk hi
  · intro h
    by_cases heq : target = source
    · rw [isAssignable, if_pos heq]
    have himpl := h.resolve_left heq
    obtain ⟨scls, hs, hnot⟩ := exists_class_of_implements hw hp himpl
    rw [isAssignable, if_neg heq, hc, hs]
    simp only [hk, hi, himpl]
    cases hsk : scls.kind with
    | ordinary => rfl
    | array element component => rfl
    | primitive kind => exact absurd hsk (hnot kind)

omit hp in
/-- Below an array class are the class itself and, if its components are references, the array
classes of reference component over what is below the component. -/
theorem isAssignable_array_iff {target source y : ClassId} {cls : Class} {element : Tag}
    (hc : t.get? target = some cls) (hk : cls.kind = .array element y) :
    t.isAssignable target source = true ↔
      target = source ∨ (element = .reference ∧ ∃ scls x, t.get? source = some scls ∧
        scls.kind = .array .reference x ∧ t.isAssignable y x = true) := by
  by_cases heq : target = source
  · rw [isAssignable, if_pos heq]
    simp [heq]
  have hlt := hw.founded.component target cls element y hc hk
  rw [isAssignable, if_neg heq, hc]
  cases hs : t.get? source with
  | none => simp [heq]
  | some scls =>
    simp only [hk]
    rcases hsk : scls.kind with _ | ⟨element', x⟩ | kind
    · simp [heq, hsk]
    · cases element with
      | primitive p => simp [heq]
      | reference =>
        cases element' with
        | primitive p => simp [heq, hsk]
        | reference => simp [heq, hsk, hlt]
    · simp [heq, hsk]

omit hw hp in
/-- Nothing but itself is below a class of a primitive kind, or below a handle without a class. -/
theorem eq_of_isAssignable {target source : ClassId}
    (hk : ∀ cls, t.get? target = some cls → ∃ kind, cls.kind = .primitive kind)
    (h : t.isAssignable target source = true) : target = source := by
  refine Classical.byContradiction fun hne => ?_
  rw [isAssignable, if_neg hne] at h
  cases hc : t.get? target with
  | none =>
    rw [hc] at h
    cases h
  | some cls =>
    obtain ⟨kind, hkind⟩ := hk cls hc
    cases hs : t.get? source with
    | none =>
      rw [hc, hs] at h
      cases h
    | some scls =>
      rw [hc, hs] at h
      simp only [hkind] at h
      cases h

omit hw hp in
/-- What a handle may stand for: a class that is no interface, an interface, an array class, or
nothing that another class can be below. -/
theorem class_cases (t : ClassTable) (c : ClassId) :
    (∃ cls, t.get? c = some cls ∧ cls.kind = .ordinary ∧ cls.isInterface = false) ∨
      (∃ cls, t.get? c = some cls ∧ cls.kind = .ordinary ∧ cls.isInterface = true) ∨
      (∃ cls element component, t.get? c = some cls ∧ cls.kind = .array element component) ∨
      ∀ cls, t.get? c = some cls → ∃ kind, cls.kind = .primitive kind := by
  cases hc : t.get? c with
  | none =>
    right; right; right
    intro cls h
    cases h
  | some cls =>
    cases hk : cls.kind with
    | ordinary =>
      cases hi : cls.isInterface with
      | false => exact Or.inl ⟨cls, rfl, hk, hi⟩
      | true => exact Or.inr (Or.inl ⟨cls, rfl, hk, hi⟩)
    | array element component => exact Or.inr (Or.inr (Or.inl ⟨cls, element, component, rfl, hk⟩))
    | primitive kind =>
      right; right; right
      rintro _ ⟨⟩
      exact ⟨kind, hk⟩

/-! ## A partial order -/

/-- An interface and an array class are right below the class above all others. -/
theorem eq_object_of_mem_ancestors {d e : ClassId} {dcls : Class} (hd : t.get? d = some dcls)
    (hs : dcls.superclass = some .object) (he : e ∈ t.ancestors d) (hne : e ≠ d)
    {c : ClassId} (hcd : t.isAssignable d c = true) (hdc : d ≠ c) : e ∈ t.ancestors c := by
  have htop := (eq_or_eq_object_of_mem_ancestors hw hd hs he).resolve_left hne
  obtain ⟨cls, hc, hk⟩ := exists_class_of_isAssignable hcd hdc
  rw [htop]
  exact object_mem_ancestors hw hp hc hk

/-- What is below a class that is below another one is below that one. -/
theorem isAssignable_trans {c d e : ClassId} (hcd : t.isAssignable d c = true)
    (hde : t.isAssignable e d = true) : t.isAssignable e c = true := by
  -- The induction is on the highest class, for the components of array classes.
  generalize hn : e.index = n
  induction n using Nat.strongRecOn generalizing c d e with
  | ind n ih =>
    by_cases hdc : d = c
    · rw [← hdc]
      exact hde
    by_cases hed : e = d
    · rw [hed]
      exact hcd
    have hd := class_cases t d
    rcases class_cases t e with ⟨ecls, he, hek, hei⟩ | ⟨ecls, he, hek, hei⟩ |
      ⟨ecls, element, y, he, hek⟩ | hother
    · rw [isAssignable_class_iff hw hp he hek hei] at hde ⊢
      rcases hd with ⟨dcls, hd, hdk, hdi⟩ | ⟨dcls, hd, hdk, hdi⟩ | ⟨dcls, _, x, hd, hdk⟩ | hother
      · rw [isAssignable_class_iff hw hp hd hdk hdi] at hcd
        exact mem_ancestors_trans hcd hde
      · have hs := (supertypes_of_interface hw hp hd hdi).2
        exact eq_object_of_mem_ancestors hw hp hd hs hde hed hcd hdc
      · have hs := (supertypes_of_array hw hp hd hdk).1
        exact eq_object_of_mem_ancestors hw hp hd hs hde hed hcd hdc
      · exact absurd (eq_of_isAssignable hother hcd) hdc
    · rw [isAssignable_interface_iff hw hp he hek hei] at hde ⊢
      have hde := hde.resolve_left hed
      right
      rcases hd with ⟨dcls, hd, hdk, hdi⟩ | ⟨dcls, hd, hdk, hdi⟩ | ⟨dcls, _, x, hd, hdk⟩ | hother
      · rw [isAssignable_class_iff hw hp hd hdk hdi] at hcd
        exact implements_of_mem_ancestors hcd hde
      · rw [isAssignable_interface_iff hw hp hd hdk hdi] at hcd
        exact implements_trans (hcd.resolve_left hdc) hde
      · rw [implements_eq_false_of_array hw hp hd hdk] at hde
        cases hde
      · exact absurd (eq_of_isAssignable hother hcd) hdc
    · rw [isAssignable_array_iff hw he hek] at hde ⊢
      obtain ⟨helement, dcls, x, hd, hdk, hxy⟩ := hde.resolve_left hed
      rw [isAssignable_array_iff hw hd hdk] at hcd
      obtain ⟨_, cls, w, hc, hck, hwx⟩ := hcd.resolve_left hdc
      have hlt : y.index < n := hn ▸ hw.founded.component e ecls element y he hek
      exact Or.inr ⟨helement, cls, w, hc, hck, ih y.index hlt hwx hxy rfl⟩
    · exact absurd (eq_of_isAssignable hother hde) hed

omit hp in
/-- There is one array class over each class. -/
theorem eq_of_component {c d x : ClassId} {cls dcls : Class} {element element' : Tag}
    (hc : t.get? c = some cls) (hd : t.get? d = some dcls) (hck : cls.kind = .array element x)
    (hdk : dcls.kind = .array element' x) : c = d := by
  obtain ⟨_, xcls, hx, hshape⟩ := hw.exists_component hc hck
  obtain ⟨_, xcls', hx', hshape'⟩ := hw.exists_component hd hdk
  rw [hx, Option.some.injEq] at hx'
  subst hx'
  rw [hshape, Option.some.injEq, Prod.mk.injEq] at hshape'
  exact hw.unique c d cls dcls hc hd hshape'.1

/-- An ordinary class is no younger than what is below it. -/
theorem index_le_of_isAssignable {target source : ClassId} {cls : Class}
    (hc : t.get? target = some cls) (hk : cls.kind = .ordinary)
    (h : t.isAssignable target source = true) : target.index ≤ source.index := by
  cases hi : cls.isInterface with
  | false => exact index_le_of_mem_ancestors ((isAssignable_class_iff hw hp hc hk hi).mp h)
  | true =>
    rcases (isAssignable_interface_iff hw hp hc hk hi).mp h with rfl | himpl
    · exact Nat.le_refl _
    · have hlt := index_lt_of_implements himpl
      omega

/-- An ordinary class is the same as a class that it is below and above of. -/
theorem eq_of_isAssignable_ordinary {c d : ClassId} {cls : Class} (hc : t.get? c = some cls)
    (hk : cls.kind = .ordinary) (hcd : t.isAssignable d c = true)
    (hdc : t.isAssignable c d = true) : c = d := by
  have hle := index_le_of_isAssignable hw hp hc hk hdc
  have hage : ∀ dcls, t.get? d = some dcls → dcls.kind = .ordinary → c = d := by
    intro dcls hd hdk
    have hle' := index_le_of_isAssignable hw hp hd hdk hcd
    exact congrArg ClassId.mk (Nat.le_antisymm hle hle')
  rcases class_cases t d with ⟨dcls, hd, hdk, _⟩ | ⟨dcls, hd, hdk, _⟩ |
    ⟨dcls, element, y, hd, hdk⟩ | hother
  · exact hage dcls hd hdk
  · exact hage dcls hd hdk
  · -- An ordinary class is below no array class.
    rcases (isAssignable_array_iff hw hd hdk).mp hcd with heq | ⟨_, cls', x, hc', hk', _⟩
    · exact heq.symm
    · rw [hc, Option.some.injEq] at hc'
      rw [← hc', hk] at hk'
      cases hk'
  · exact (eq_of_isAssignable hother hcd).symm

/-- Two classes that are below each other are the same. -/
theorem isAssignable_antisymm {c d : ClassId} (hcd : t.isAssignable d c = true)
    (hdc : t.isAssignable c d = true) : c = d := by
  generalize hn : c.index = n
  induction n using Nat.strongRecOn generalizing c d with
  | ind n ih =>
    rcases class_cases t c with ⟨cls, hc, hk, _⟩ | ⟨cls, hc, hk, _⟩ |
      ⟨cls, element, x, hc, hk⟩ | hother
    · exact eq_of_isAssignable_ordinary hw hp hc hk hcd hdc
    · exact eq_of_isAssignable_ordinary hw hp hc hk hcd hdc
    · rcases class_cases t d with ⟨dcls, hd, hdk, _⟩ | ⟨dcls, hd, hdk, _⟩ |
        ⟨dcls, element', y, hd, hdk⟩ | hother
      · exact (eq_of_isAssignable_ordinary hw hp hd hdk hdc hcd).symm
      · exact (eq_of_isAssignable_ordinary hw hp hd hdk hdc hcd).symm
      · rcases (isAssignable_array_iff hw hc hk).mp hdc with heq | ⟨_, dcls', y', hd', hdk', hyx⟩
        · exact heq
        rcases (isAssignable_array_iff hw hd hdk).mp hcd with heq | ⟨_, cls', x', hc', hk', hxy⟩
        · exact heq.symm
        -- The components are below each other, so they are the same, and so are the array classes.
        rw [hd, Option.some.injEq] at hd'
        rw [hc, Option.some.injEq] at hc'
        subst hd' hc'
        have hy : y = y' := by
          rw [hdk] at hdk'
          exact (ClassKind.array.inj hdk').2
        have hx : x = x' := by
          rw [hk] at hk'
          exact (ClassKind.array.inj hk').2
        rw [← hx] at hxy
        rw [← hy] at hyx
        have hlt : x.index < n := hn ▸ hw.founded.component c cls element x hc hk
        have hxy' : x = y := ih x.index hlt hxy hyx rfl
        rw [← hxy'] at hdk
        exact eq_of_component hw hc hd hk hdk
      · exact (eq_of_isAssignable hother hcd).symm
    · exact eq_of_isAssignable hother hdc

/-- Assignability goes around no circles: two classes that can be assigned to each other are one. -/
theorem isPartialOrder_isAssignable :
    IsPartialOrder ClassId fun source target => t.isAssignable target source = true where
  refl := fun c => by
    rw [isAssignable, if_pos rfl]
  trans := fun _ _ _ hcd hde => isAssignable_trans hw hp hcd hde
  antisymm := fun _ _ hcd hdc => isAssignable_antisymm hw hp hcd hdc

/-! ## Subtypes are what can be stored -/

/-- A supertype takes the values of its subtypes. -/
theorem IsSubtype.isAssignable {source target : ClassId} (h : t.IsSubtype source target) :
    t.isAssignable target source = true := by
  induction h with
  | refl c => rw [ClassTable.isAssignable, if_pos rfl]
  | trans _ _ ihc ihd => exact isAssignable_trans hw hp ihc ihd
  | @superclass c s cls hc hs =>
    have habove : s ∈ t.ancestors c := by
      refine mem_ancestors_iff.mpr (Or.inr ⟨_, hw.founded.superclass?_eq hc hs, ?_⟩)
      exact self_mem_ancestors t s
    have hplain : ∃ scls, t.get? s = some scls ∧ scls.kind = .ordinary ∧
        scls.isInterface = false := by
      cases hw.place hp hc with
      | top _ _ _ hnone _ =>
        rw [hs] at hnone
        cases hnone
      | below _ hproper =>
        obtain ⟨s', scls, hs', hsc⟩ := hproper.superclass
        rw [hs, Option.some.injEq] at hs'
        exact ⟨scls, hs' ▸ hsc⟩
      | array _ _ hobject _ =>
        obtain ⟨ocls, hoc, hok, hoi, _⟩ := hw.exists_object
        rw [hs, Option.some.injEq] at hobject
        exact ⟨ocls, hobject ▸ hoc, hok, hoi⟩
      | primitive _ _ hnone _ =>
        rw [hs] at hnone
        cases hnone
    obtain ⟨scls, hsc, hsk, hsi⟩ := hplain
    exact (isAssignable_class_iff hw hp hsc hsk hsi).mpr habove
  | @interface c i cls hc hi =>
    have himpl : t.implements c i = true :=
      implements_iff.mpr (Or.inl ⟨_, hw.founded.mem_interfaces hc hi, Or.inl rfl⟩)
    have hnone : cls.interfaces ≠ [] := List.ne_nil_of_mem hi
    have hinterface : ∃ icls, t.get? i = some icls ∧ icls.isInterface = true := by
      cases hw.place hp hc with
      | top _ _ _ _ hn => exact absurd hn hnone
      | below _ hproper => exact hproper.interfaces i hi
      | array _ _ _ hn => exact absurd hn hnone
      | primitive _ _ _ hn => exact absurd hn hnone
    obtain ⟨icls, hic, hii⟩ := hinterface
    have hik := (supertypes_of_interface hw hp hic hii).1
    exact (isAssignable_interface_iff hw hp hic hik hii).mpr (Or.inr himpl)
  | @arrayObject c component cls element hc hk =>
    obtain ⟨ocls, hoc, hok, hoi, _⟩ := hw.exists_object
    apply (isAssignable_class_iff hw hp hoc hok hoi).mpr
    apply object_mem_ancestors hw hp hc
    intro kind hkind
    rw [hk] at hkind
    cases hkind
  | covariant hc hd hck hdk _ ih =>
    exact (isAssignable_array_iff hw hd hdk).mpr (Or.inr ⟨rfl, _, _, hc, hck, ih⟩)

omit hw hp in
/-- A class is a subtype of all that it descends from. -/
theorem isSubtype_of_mem_ancestors {a c : ClassId} (h : a ∈ t.ancestors c) :
    t.IsSubtype c a := by
  have hall : ∀ d ∈ t.ancestors c, t.IsSubtype c d := by
    refine forall_mem_ancestors ?_ (.refl c)
    intro d s hd hs
    obtain ⟨dcls, hdc, hsuper⟩ := superclass_of_superclass? hs
    exact .trans hd (.superclass hdc hsuper)
  exact hall a h

omit hw hp in
/-- A class is a subtype of all that it implements. -/
theorem isSubtype_of_implements {c i : ClassId} (h : t.implements c i = true) :
    t.IsSubtype c i := by
  generalize hn : c.index = n
  induction n using Nat.strongRecOn generalizing c with
  | ind n ih =>
    rcases implements_iff.mp h with ⟨j, hj, hji⟩ | ⟨s, hs, hsi⟩
    · obtain ⟨cls, hc, hmem⟩ := mem_of_mem_interfaces hj
      have hcj : t.IsSubtype c j.1 := .interface hc hmem
      rcases hji with heq | hji
      · exact heq ▸ hcj
      · exact .trans hcj (ih j.1.index (hn ▸ j.2) hji rfl)
    · obtain ⟨cls, hc, hsuper⟩ := superclass_of_superclass? hs
      exact .trans (.superclass hc hsuper) (ih s.1.index (hn ▸ s.2) hsi rfl)

/-- A class whose values another class takes is a subtype of it. -/
theorem isSubtype_of_isAssignable {source target : ClassId}
    (h : t.isAssignable target source = true) : t.IsSubtype source target := by
  generalize hn : target.index = n
  induction n using Nat.strongRecOn generalizing source target with
  | ind n ih =>
    rcases class_cases t target with ⟨cls, hc, hk, hi⟩ | ⟨cls, hc, hk, hi⟩ |
      ⟨cls, element, y, hc, hk⟩ | hother
    · exact isSubtype_of_mem_ancestors ((isAssignable_class_iff hw hp hc hk hi).mp h)
    · rcases (isAssignable_interface_iff hw hp hc hk hi).mp h with rfl | himpl
      · exact .refl _
      · exact isSubtype_of_implements himpl
    · rcases (isAssignable_array_iff hw hc hk).mp h with rfl | ⟨rfl, scls, x, hs, hsk, hxy⟩
      · exact .refl _
      · have hlt : y.index < n := hn ▸ hw.founded.component target cls _ y hc hk
        exact .covariant hs hc hsk hk (ih y.index hlt hxy rfl)
    · rw [eq_of_isAssignable hother h]
      exact .refl _

omit hw hp

/-! ## Classes that are added -/

/-- Between classes that a table has, the answer stays the same in every extension of it. -/
theorem Extends.isAssignable {t' : ClassTable} (h : t.Extends t') (hf : t.Founded)
    {target source : ClassId} (ht : target.index < t.size) (hs : source.index < t.size) :
    t'.isAssignable target source = t.isAssignable target source := by
  symm
  apply h.agreesOn.isAssignable _ _ ht hs
  · intro c d hc hlt
    exact Nat.lt_trans hlt hc
  · intro c cls element component hc hcls hk
    exact Nat.lt_trans (hf.component c cls element component hcls hk) hc

end ClassTable

namespace Machine

variable {m : Machine} {path : ClassPath}

/-- In a proper hierarchy, what can be stored where another class is expected are the values of its
subtypes.  This is a partial order, every class refers to older ones only, and classes that are added
change no answer for those that are there. -/
theorem isAssignable_iff_isSubtype (h : m.Reachable path PlainName)
    (hp : m.classes.ProperHierarchy) :
    m.classes.Founded ∧
      (∀ target source, m.classes.isAssignable target source = true ↔
        m.classes.IsSubtype source target) ∧
      (IsPartialOrder ClassId fun source target =>
        m.classes.isAssignable target source = true) ∧
      ∀ m', m.Later path PlainName m' → ∀ target source : ClassId,
        target.index < m.classes.size → source.index < m.classes.size →
          m'.classes.isAssignable target source = m.classes.isAssignable target source := by
  have hplain : ∀ n, PlainName n → PlainName n := fun _ hn => hn
  have hw := h.wellFormed hplain
  have hc := hw.classes
  refine ⟨hc.founded, ?_, ClassTable.isPartialOrder_isAssignable hc hp, ?_⟩
  · intro target source
    constructor
    · exact ClassTable.isSubtype_of_isAssignable hc hp
    · exact ClassTable.IsSubtype.isAssignable hc hp
  · intro m' hlater target source ht hs
    have hext := extends_of_steps (hlater.steps hplain hw)
    exact hext.isAssignable hc.founded ht hs

/-- An interface `I`. -/
def plainInterfaceFile : Bytes := [
    0xCA, 0xFE, 0xBA, 0xBE, 0x00, 0x00, 0x00, 0x34, 0x00, 0x05, 0x01, 0x00, 0x01, 0x49, 0x07,
    0x00, 0x01, 0x01, 0x00, 0x10, 0x6A, 0x61, 0x76, 0x61, 0x2F, 0x6C, 0x61, 0x6E, 0x67, 0x2F,
    0x4F, 0x62, 0x6A, 0x65, 0x63, 0x74, 0x07, 0x00, 0x03, 0x06, 0x01, 0x00, 0x02, 0x00, 0x04,
    0x00, 0x00, 0x00, 0x00, 0x00, 0x00, 0x00, 0x00]

/-- A class `C` with the interface `I`. -/
def plainImplementerFile : Bytes := [
    0xCA, 0xFE, 0xBA, 0xBE, 0x00, 0x00, 0x00, 0x34, 0x00, 0x07, 0x01, 0x00, 0x01, 0x43, 0x07,
    0x00, 0x01, 0x01, 0x00, 0x10, 0x6A, 0x61, 0x76, 0x61, 0x2F, 0x6C, 0x61, 0x6E, 0x67, 0x2F,
    0x4F, 0x62, 0x6A, 0x65, 0x63, 0x74, 0x07, 0x00, 0x03, 0x01, 0x00, 0x01, 0x49, 0x07, 0x00,
    0x05, 0x00, 0x01, 0x00, 0x02, 0x00, 0x04, 0x00, 0x01, 0x00, 0x06, 0x00, 0x00, 0x00, 0x00,
    0x00, 0x00]

/-- A machine with both, and with an array class over each. -/
def covariantMachine : Machine :=
  ((Operation.arrayClass ⟨27⟩).run {} ((Operation.arrayClass ⟨26⟩).run {}
    ((Operation.define plainImplementerFile).run {}
      ((Operation.define plainInterfaceFile).run {} {}).2).2).2).2

theorem reachable_covariantMachine : covariantMachine.Reachable {} PlainName := by
  refine (((reachable_new.operation (.define plainInterfaceFile) ?_).operation
    (.define plainImplementerFile) ?_).operation (.arrayClass ⟨26⟩) trivial).operation
    (.arrayClass ⟨27⟩) trivial
  · show FileNamed PlainName plainInterfaceFile
    decide +kernel
  · show FileNamed PlainName plainImplementerFile
    decide +kernel

/-- The array class over the class is a subtype of that over the interface, and not the other way
round. -/
theorem isAssignable_iff_isSubtype_covariantMachine :
    covariantMachine.classes.ProperHierarchy ∧
      covariantMachine.classes.IsSubtype ⟨29⟩ ⟨28⟩ ∧
      ¬ covariantMachine.classes.IsSubtype ⟨28⟩ ⟨29⟩ := by
  have hproper : covariantMachine.classes.ProperHierarchy := by decide +kernel
  have hyes : covariantMachine.classes.isAssignable ⟨28⟩ ⟨29⟩ = true := by decide +kernel
  have hno : ¬ covariantMachine.classes.isAssignable ⟨29⟩ ⟨28⟩ = true := by decide +kernel
  obtain ⟨_, hiff, _⟩ := isAssignable_iff_isSubtype reachable_covariantMachine hproper
  refine ⟨hproper, (hiff _ _).mp hyes, ?_⟩
  intro hsub
  exact hno ((hiff _ _).mpr hsub)

end Machine

end JavaMachine
