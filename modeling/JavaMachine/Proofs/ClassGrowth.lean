/-
# How a class table grows

A class table begins with the classes that are always there.  A step adds an array class over a
class of the table, adds a class that a file defines, marks a class, or writes a static field
(`ClassTable.Step`).  Each class therefore comes from one of three origins, names stay unique, and a
static field always has a slot of its kind, one each: `ClassTable.WellFormed`, which every step keeps.

`named` is a condition on the names of the classes that files define.
-/
import JavaMachine.Proofs.FieldLayout
import JavaMachine.Proofs.Supertypes

namespace JavaMachine

/-! ## The classes that are always there -/

/-- The first classes have no fields. -/
theorem fields_of_mem_bootstrapClasses : ∀ b ∈ bootstrapClasses, b.fields = [] := by decide +kernel

/-- The first classes have no static slots. -/
theorem statics_of_mem_bootstrapClasses : ∀ b ∈ bootstrapClasses, b.statics = [] := by decide +kernel

/-- The first classes list no interfaces. -/
theorem interfaces_of_mem_bootstrapClasses : ∀ b ∈ bootstrapClasses, b.interfaces = [] := by
  decide +kernel

/-- Instances of the first classes are empty. -/
theorem layout_of_mem_bootstrapClasses : ∀ b ∈ bootstrapClasses, b.layout = {} := by decide +kernel

/-- None of the first classes is an array class. -/
theorem isArray_of_mem_bootstrapClasses : ∀ b ∈ bootstrapClasses, b.isArray = false := by
  decide +kernel

/-- The first classes have names of their own. -/
theorem nodup_names_bootstrapClasses : (bootstrapClasses.map Class.name).Nodup := by decide +kernel

namespace ClassTable

/-- The first classes are in the order of their list. -/
theorem get?_bootstrap {c : ClassId} : bootstrap.get? c = bootstrapClasses[c.index]? :=
  List.getElem?_toArray

theorem mem_of_get?_bootstrap {c : ClassId} {cls : Class} (h : bootstrap.get? c = some cls) :
    cls ∈ bootstrapClasses := by
  rw [get?_bootstrap] at h
  exact List.mem_of_getElem? h

/-- There are twenty-six of them. -/
theorem size_bootstrap : bootstrap.size = 26 := by decide +kernel

/-- No two of the first classes share a name. -/
theorem namesUnique_bootstrap : bootstrap.NamesUnique := by
  intro c d cls dcls hc hd hname
  rw [get?_bootstrap] at hc hd
  have hcn : (bootstrapClasses.map Class.name)[c.index]? = some cls.name := by
    rw [List.getElem?_map, hc]
    rfl
  have hdn : (bootstrapClasses.map Class.name)[d.index]? = some cls.name := by
    rw [List.getElem?_map, hd, hname]
    rfl
  obtain ⟨hlt, _⟩ := List.getElem?_eq_some_iff.mp hcn
  have hindex := (List.getElem?_inj hlt nodup_names_bootstrapClasses).mp (hcn.trans hdn.symm)
  exact congrArg ClassId.mk hindex

/-! ## Classes of files -/

/-- The class that a field names as its owner declares it. -/
def Declares (t : ClassTable) (f : Field) : Prop :=
  ∃ cls, t.get? f.owner = some cls ∧ f ∈ cls.fields

instance (t : ClassTable) (f : Field) : Decidable (t.Declares f) :=
  match h : t.get? f.owner with
  | none => isFalse fun ⟨cls, hc, _⟩ => by
    rw [h] at hc
    cases hc
  | some cls =>
    decidable_of_iff (f ∈ cls.fields)
      ⟨fun hf => ⟨cls, h, hf⟩, fun ⟨cls', hc, hf⟩ => by
        rw [h] at hc
        cases hc
        exact hf⟩

/-- The layout that a class takes over from its superclass. -/
def inheritedLayout (t : ClassTable) (superclass : Option ClassId) : Layout :=
  ((superclass.bind t.get?).map Class.layout).getD {}

/-- A class that a file defines: ordinary, below older classes, with methods of its own, marked when
it has an initializer, and with fields laid out behind those of its superclass. -/
structure Linked (t : ClassTable) (c : ClassId) (cls : Class) : Prop where
  ordinary : cls.kind = .ordinary
  older : ∀ s, cls.superclass = some s → s.index < c.index
  interfacesOlder : ∀ i ∈ cls.interfaces, i.index < c.index
  owned : ∀ x ∈ cls.methods, x.owner = c
  marked : cls.needsInit = cls.methods.any (·.name = initializerName)
  sound : ∃ statics, FieldPlan.Sound c (t.inheritedLayout cls.superclass)
    { layout := cls.layout, statics, fields := cls.fields }

/-- Linking makes no array class. -/
theorem Linked.isArray_eq_false {t : ClassTable} {c : ClassId} {cls : Class} (h : t.Linked c cls) :
    cls.isArray = false := by
  refine Bool.eq_false_iff.mpr fun harray => ?_
  obtain ⟨_, _, hk⟩ := Class.isArray_iff.mp harray
  rw [h.ordinary] at hk
  cases hk

/-- Where a class of a table comes from. -/
inductive Origin (named : String → Prop) (t : ClassTable) (c : ClassId) (cls : Class) : Prop
  | bootstrap {b : Class} (hb : bootstrap.get? c = some b) (hfixed : cls.fixed = b.fixed)
  | array {component : ClassId} {ccls : Class} {element : Tag} (hc : t.get? component = some ccls)
      (hshape : arrayShape? ccls = some (cls.name, element))
      (hfixed : cls.fixed = arrayClassOf cls.name element component)
      (holder : component.index < c.index)
  | file (hlinked : t.Linked c cls) (hnamed : named cls.name)

/-- What every step of a class table keeps. -/
structure WellFormed (named : String → Prop) (t : ClassTable) : Prop where
  bootstrap : bootstrap.Extends t
  origin : ∀ c cls, t.get? c = some cls → Origin named t c cls
  unique : t.NamesUnique
  slots : ∀ c cls, t.get? c = some cls → SlotsFit cls.fields cls.statics
  packed : ∀ c cls, t.get? c = some cls → Packed cls.fields cls.statics

/-- A step of a class table. -/
inductive Step (named : String → Prop) : ClassTable → ClassTable → Prop
  | array {t : ClassTable} {component : ClassId} {ccls : Class} {name : String} {element : Tag}
      (hc : t.get? component = some ccls) (hshape : arrayShape? ccls = some (name, element))
      (hfresh : t.find? name = none) : Step named t (t.push (arrayClassOf name element component))
  | file {t : ClassTable} {cls : Class} (hlinked : t.Linked t.nextId cls) (hnamed : named cls.name)
      (hslots : SlotsFit cls.fields cls.statics) (hpacked : Packed cls.fields cls.statics)
      (hfresh : t.find? cls.name = none) : Step named t (t.push cls)
  | mark {t : ClassTable} {c : ClassId} {f : Class → Class} (hfixed : ∀ x, (f x).fixed = x.fixed)
      (hstatics : ∀ x, (f x).statics = x.statics) : Step named t (t.update c f)
  | write {t : ClassTable} {f : Field} {v : Value} (hf : t.Declares f) (hs : f.isStatic = true)
      (hv : v.tag = f.tag) :
      Step named t (t.update f.owner fun c =>
        { c with statics := c.statics.set f.offset (.ofValue v) })

/-- The array class over a class is the class of its name, or else a new one. -/
theorem arrayClass_eq {t : ClassTable} {component : ClassId} {ccls : Class} {name : String}
    {element : Tag} (hc : t.get? component = some ccls)
    (hshape : arrayShape? ccls = some (name, element)) :
    t.arrayClass component =
      match t.find? name with
      | some existing => .ok (t, existing)
      | none => .ok (t.push (arrayClassOf name element component), t.nextId) := by
  unfold arrayClass
  rw [get_eq_ok_iff.mpr hc]
  simp only [bind, Except.bind]
  rw [hshape]
  rfl

/-- There is no array class over `void`. -/
theorem arrayClass_of_void {t : ClassTable} {component : ClassId} {ccls : Class}
    (hc : t.get? component = some ccls) (hshape : arrayShape? ccls = none) :
    t.arrayClass component = .error (.broken .arrayOfVoid) := by
  unfold arrayClass
  rw [get_eq_ok_iff.mpr hc]
  simp only [bind, Except.bind]
  rw [hshape]
  rfl

/-- What an array class that is given was found as, or made from. -/
theorem arrayClass_eq_ok {t t' : ClassTable} {component c : ClassId}
    (h : t.arrayClass component = .ok (t', c)) :
    ∃ ccls name element, t.get? component = some ccls ∧ arrayShape? ccls = some (name, element) ∧
      ((t.find? name = some c ∧ t' = t) ∨
        (t.find? name = none ∧ t' = t.push (arrayClassOf name element component) ∧
          c = t.nextId)) := by
  obtain ⟨ccls, hget, _⟩ := bind_eq_ok.mp h
  have hc := get_eq_ok_iff.mp hget
  cases hshape : arrayShape? ccls with
  | none =>
    rw [arrayClass_of_void hc hshape] at h
    cases h
  | some shape =>
    obtain ⟨name, element⟩ := shape
    refine ⟨ccls, name, element, hc, hshape, ?_⟩
    rw [arrayClass_eq hc hshape] at h
    cases hfind : t.find? name with
    | some existing =>
      rw [hfind] at h
      cases h
      exact Or.inl ⟨rfl, rfl⟩
    | none =>
      rw [hfind] at h
      cases h
      exact Or.inr ⟨rfl, rfl, rfl⟩

/-- The table of a new machine is well formed. -/
theorem wellFormed_bootstrap (named : String → Prop) : ClassTable.bootstrap.WellFormed named where
  bootstrap := Extends.refl _
  origin := fun _ _ h => Origin.bootstrap h rfl
  unique := namesUnique_bootstrap
  slots := by
    intro c cls h f hf
    rw [fields_of_mem_bootstrapClasses cls (mem_of_get?_bootstrap h)] at hf
    exact absurd hf List.not_mem_nil
  packed := by
    intro c cls h
    have hmem := mem_of_get?_bootstrap h
    rw [fields_of_mem_bootstrapClasses cls hmem, statics_of_mem_bootstrapClasses cls hmem]
    exact packed_nil

/-! ## One step -/

variable {named : String → Prop} {t t' : ClassTable}

/-- A step keeps the classes that are there. -/
theorem Step.extends (h : Step named t t') : t.Extends t' := by
  cases h with
  | array hc hshape hfresh => exact extends_push _ _
  | file hlinked hnamed hslots hpacked hfresh => exact extends_push _ _
  | mark hfixed hstatics => exact extends_update hfixed
  | write hf hs hv => exact extends_update fun _ => rfl

/-- What is inherited from a class that is there does not change. -/
theorem inheritedLayout_eq_of_extends (h : t.Extends t') {superclass : Option ClassId}
    (hlt : ∀ s, superclass = some s → s.index < t.size) :
    t'.inheritedLayout superclass = t.inheritedLayout superclass := by
  cases superclass with
  | none => rfl
  | some s =>
    obtain ⟨cls, hc⟩ := exists_get?_of_lt (hlt s rfl)
    obtain ⟨cls', hc', he⟩ := h s cls hc
    unfold inheritedLayout
    rw [Option.bind_some, Option.bind_some, hc, hc']
    exact Class.eq_of_fixed he Class.layout fun _ => rfl

/-- A class stays linked as long as what is fixed of it stays. -/
theorem Linked.of_extends {c : ClassId} {cls cls' : Class} (h : t.Linked c cls)
    (hext : t.Extends t') (hlt : c.index ≤ t.size) (hfixed : cls'.fixed = cls.fixed) :
    t'.Linked c cls' where
  ordinary := (Class.eq_of_fixed hfixed Class.kind fun _ => rfl).trans h.ordinary
  older := by
    rw [Class.eq_of_fixed hfixed Class.superclass fun _ => rfl]
    exact h.older
  interfacesOlder := by
    rw [Class.eq_of_fixed hfixed Class.interfaces fun _ => rfl]
    exact h.interfacesOlder
  owned := by
    rw [Class.eq_of_fixed hfixed Class.methods fun _ => rfl]
    exact h.owned
  marked := by
    rw [Class.eq_of_fixed hfixed Class.needsInit fun _ => rfl,
      Class.eq_of_fixed hfixed Class.methods fun _ => rfl]
    exact h.marked
  sound := by
    obtain ⟨statics, hsound⟩ := h.sound
    refine ⟨statics, ?_⟩
    rw [Class.eq_of_fixed hfixed Class.superclass fun _ => rfl,
      Class.eq_of_fixed hfixed Class.layout fun _ => rfl,
      Class.eq_of_fixed hfixed Class.fields fun _ => rfl,
      inheritedLayout_eq_of_extends hext fun s hs => Nat.lt_of_lt_of_le (h.older s hs) hlt]
    exact hsound

/-- The name and the elements of an array class follow from the fixed part of its component. -/
theorem arrayShape?_eq_of_fixed {cls cls' : Class} (h : cls'.fixed = cls.fixed) :
    arrayShape? cls' = arrayShape? cls := by
  unfold arrayShape?
  rw [Class.eq_of_fixed h Class.kind fun _ => rfl, Class.eq_of_fixed h Class.name fun _ => rfl]

/-- A class keeps its origin in every extension of its table. -/
theorem Origin.of_extends {c : ClassId} {cls cls' : Class} (h : Origin named t c cls)
    (hext : t.Extends t') (hlt : c.index ≤ t.size) (hfixed : cls'.fixed = cls.fixed) :
    Origin named t' c cls' := by
  have hname : cls'.name = cls.name := Class.eq_of_fixed hfixed Class.name fun _ => rfl
  cases h with
  | bootstrap hb hf => exact .bootstrap hb (hfixed.trans hf)
  | array hc hshape hf holder =>
    obtain ⟨ccls', hc', he⟩ := hext _ _ hc
    refine .array hc' ?_ (hfixed.trans (hname ▸ hf)) holder
    rw [arrayShape?_eq_of_fixed he, hname]
    exact hshape
  | file hlinked hnamed =>
    refine .file (hlinked.of_extends hext hlt hfixed) ?_
    rw [hname]
    exact hnamed

/-- Names stay unique when a class of a new name is added. -/
theorem NamesUnique.push (h : t.NamesUnique) {cls : Class} (hfresh : t.find? cls.name = none) :
    (t.push cls).NamesUnique := by
  -- Either class may be the new one, and a new one shares its name with no old one.
  have hnew := find?_eq_none_iff.mp hfresh
  intro c d x y hc hd hname
  rcases get?_push_eq_some hc with ⟨hcid, hx⟩ | hcold
  · rcases get?_push_eq_some hd with ⟨hdid, _⟩ | hdold
    · rw [hcid, hdid]
    · exact absurd (hname.symm.trans (congrArg Class.name hx)) (hnew d y hdold)
  · rcases get?_push_eq_some hd with ⟨_, hy⟩ | hdold
    · exact absurd (hname.trans (congrArg Class.name hy)) (hnew c x hcold)
    · exact h c d x y hcold hdold hname

/-- A table stays well formed when a class of a new name with an origin is added. -/
theorem WellFormed.push (h : t.WellFormed named) {cls : Class} (hfresh : t.find? cls.name = none)
    (horigin : Origin named t t.nextId cls) (hslots : SlotsFit cls.fields cls.statics)
    (hpacked : Packed cls.fields cls.statics) : (t.push cls).WellFormed named where
  bootstrap := h.bootstrap.trans (extends_push t cls)
  origin := by
    intro c x hc
    rcases get?_push_eq_some hc with ⟨rfl, rfl⟩ | hc
    · exact horigin.of_extends (extends_push t x) (Nat.le_refl _) rfl
    · have hlt := lt_size_of_get? hc
      exact (h.origin c x hc).of_extends (extends_push t cls) (Nat.le_of_lt hlt) rfl
  unique := h.unique.push hfresh
  slots := by
    intro c x hc
    rcases get?_push_eq_some hc with ⟨_, rfl⟩ | hc
    · exact hslots
    · exact h.slots c x hc
  packed := by
    intro c x hc
    rcases get?_push_eq_some hc with ⟨_, rfl⟩ | hc
    · exact hpacked
    · exact h.packed c x hc

/-- A table stays well formed when the state of a class changes and its slots stay fit. -/
theorem WellFormed.update (h : t.WellFormed named) {c : ClassId} {f : Class → Class}
    (hfixed : ∀ x, (f x).fixed = x.fixed) (hlength : ∀ x, (f x).statics.length = x.statics.length)
    (hslots : ∀ x, t.get? c = some x → SlotsFit x.fields (f x).statics) :
    (t.update c f).WellFormed named := by
  have hext : t.Extends (t.update c f) := extends_update hfixed
  have hget : ∀ d y, (t.update c f).get? d = some y →
      ∃ x, t.get? d = some x ∧ y.fixed = x.fixed ∧ SlotsFit y.fields y.statics ∧
        y.statics.length = x.statics.length := by
    intro d y hd
    rw [get?_update] at hd
    split at hd
    · next hdc =>
      obtain ⟨x, hx, rfl⟩ := Option.map_eq_some_iff.mp hd
      refine ⟨x, hx, hfixed x, ?_, hlength x⟩
      rw [Class.eq_of_fixed (hfixed x) Class.fields fun _ => rfl]
      exact hslots x (hdc ▸ hx)
    · exact ⟨y, hd, rfl, h.slots d y hd, rfl⟩
  refine ⟨h.bootstrap.trans hext, ?_, ?_, ?_, ?_⟩
  · intro d y hd
    obtain ⟨x, hx, he, _⟩ := hget d y hd
    exact (h.origin d x hx).of_extends hext (Nat.le_of_lt (lt_size_of_get? hx)) he
  · intro d e x y hd he hname
    obtain ⟨x', hx', hxe, _⟩ := hget d x hd
    obtain ⟨y', hy', hye, _⟩ := hget e y he
    refine h.unique d e x' y' hx' hy' ?_
    rw [← Class.eq_of_fixed hxe Class.name fun _ => rfl,
      ← Class.eq_of_fixed hye Class.name fun _ => rfl]
    exact hname
  · intro d y hd
    obtain ⟨_, _, _, hfit, _⟩ := hget d y hd
    exact hfit
  · intro d y hd
    obtain ⟨x, hx, he, _, hsame⟩ := hget d y hd
    rw [Class.eq_of_fixed he Class.fields fun _ => rfl]
    exact (h.packed d x hx).of_length_eq hsame

/-- A class with a field is one that a file defines. -/
theorem WellFormed.linked_of_mem_fields (h : t.WellFormed named) {c : ClassId} {cls : Class}
    (hc : t.get? c = some cls) {f : Field} (hf : f ∈ cls.fields) :
    t.Linked c cls ∧ named cls.name := by
  cases h.origin c cls hc with
  | bootstrap hb hfixed =>
    rw [Class.eq_of_fixed hfixed Class.fields fun _ => rfl,
      fields_of_mem_bootstrapClasses _ (mem_of_get?_bootstrap hb)] at hf
    exact absurd hf List.not_mem_nil
  | array hcomp hshape hfixed =>
    rw [Class.eq_of_fixed (d := arrayClassOf ..) hfixed Class.fields fun _ => rfl] at hf
    exact absurd hf List.not_mem_nil
  | file hlinked hnamed => exact ⟨hlinked, hnamed⟩

/-- Two fields of a class do not share a place. -/
theorem WellFormed.apart (h : t.WellFormed named) {c : ClassId} {cls : Class}
    (hc : t.get? c = some cls) {f g : Field} (hf : f ∈ cls.fields) (hg : g ∈ cls.fields)
    (hne : f ≠ g) : f.Apart g := by
  obtain ⟨_, hsound⟩ := (h.linked_of_mem_fields hc hf).1.sound
  exact hsound.apart f hf g hg hne

/-- A step keeps a table well formed. -/
theorem Step.wellFormed (h : Step named t t') (hw : t.WellFormed named) : t'.WellFormed named := by
  cases h with
  | array hc hshape hfresh =>
    have holder := lt_size_of_get? hc
    exact hw.push hfresh (.array hc hshape rfl holder) (fun _ hf => absurd hf List.not_mem_nil)
      packed_nil
  | file hlinked hnamed hslots hpacked hfresh =>
    exact hw.push hfresh (.file hlinked hnamed) hslots hpacked
  | mark hfixed hstatics =>
    refine hw.update hfixed (fun x => by rw [hstatics]) ?_
    intro x hx
    rw [hstatics]
    exact hw.slots _ x hx
  | @write f v hf hs hv =>
    refine hw.update (fun _ => rfl) (fun _ => List.length_set) ?_
    intro x hx g hg hgs
    obtain ⟨x', hx', hfx⟩ := hf
    rw [hx, Option.some.injEq] at hx'
    subst hx'
    obtain ⟨u, hu, hholds⟩ := hw.slots _ x hx g hg hgs
    -- The field that is written holds a value of its kind, and any other one has another slot.
    by_cases hfg : f = g
    · subst hfg
      refine ⟨.ofValue v, List.getElem?_set_self (List.getElem?_eq_some_iff.mp hu).1, ?_⟩
      unfold Slot.Holds
      rw [← hv, Slot.load?_ofValue]
      rfl
    · refine ⟨u, ?_, hholds⟩
      rw [List.getElem?_set_ne ((hw.apart hx hfx hg hfg).2 hs hgs)]
      exact hu

/-! ## The fields of an instance -/

/-- A class that declares a field is one that a file defines. -/
theorem WellFormed.linked_of_declares (h : t.WellFormed named) {f : Field} (hf : t.Declares f) :
    ∃ cls, t.get? f.owner = some cls ∧ f ∈ cls.fields ∧ t.Linked f.owner cls ∧ named cls.name := by
  obtain ⟨cls, hc, hmem⟩ := hf
  exact ⟨cls, hc, hmem, h.linked_of_mem_fields hc hmem⟩

/-- A class that is always there is found where the bootstrap table has it, whatever its state. -/
theorem WellFormed.fixed_eq_bootstrap (h : t.WellFormed named) {c : ClassId} {cls : Class}
    (hc : t.get? c = some cls) (hlt : c.index < ClassTable.bootstrap.size) :
    ∃ b, ClassTable.bootstrap.get? c = some b ∧ cls.fixed = b.fixed := by
  obtain ⟨b, hb⟩ := exists_get?_of_lt hlt
  exact ⟨b, hb, h.bootstrap.fixed_eq hb hc⟩

/-- A class that is always there has instances without fields. -/
theorem WellFormed.layout_eq_of_lt (h : t.WellFormed named) {c : ClassId} {cls : Class}
    (hc : t.get? c = some cls) (hlt : c.index < ClassTable.bootstrap.size) : cls.layout = {} := by
  obtain ⟨b, hb, hfixed⟩ := h.fixed_eq_bootstrap hc hlt
  rw [Class.eq_of_fixed hfixed Class.layout fun _ => rfl]
  exact layout_of_mem_bootstrapClasses b (mem_of_get?_bootstrap hb)

/-- A class that is always there is no array class. -/
theorem WellFormed.isArray_of_lt (h : t.WellFormed named) {c : ClassId} {cls : Class}
    (hc : t.get? c = some cls) (hlt : c.index < ClassTable.bootstrap.size) :
    cls.isArray = false := by
  obtain ⟨b, hb, hfixed⟩ := h.fixed_eq_bootstrap hc hlt
  rw [Class.eq_of_fixed hfixed Class.isArray fun _ => rfl]
  exact isArray_of_mem_bootstrapClasses b (mem_of_get?_bootstrap hb)

/-- The layout of a class continues that of its superclass. -/
theorem WellFormed.layout_le (h : t.WellFormed named) {c : ClassId}
    {s : { s : ClassId // s.index < c.index }} {cls scls : Class} (hc : t.get? c = some cls)
    (hs : t.superclass? c = some s) (hsc : t.get? s.1 = some scls) : scls.layout.le cls.layout := by
  obtain ⟨cls', hc', hsuper⟩ := superclass_of_superclass? hs
  rw [hc, Option.some.injEq] at hc'
  subst hc'
  -- Only a class of a file has a superclass with fields.
  have hempty : s.1.index < ClassTable.bootstrap.size → scls.layout.le cls.layout := by
    intro hlt
    rw [h.layout_eq_of_lt hsc hlt]
    exact ⟨Nat.zero_le _, Nat.zero_le _⟩
  cases h.origin c cls hc with
  | bootstrap hb hfixed => exact hempty (Nat.lt_trans s.2 (lt_size_of_get? hb))
  | array hcomp hshape hfixed =>
    rw [Class.eq_of_fixed (d := arrayClassOf ..) hfixed Class.superclass fun _ => rfl] at hsuper
    refine hempty ?_
    rw [← Option.some.inj hsuper, size_bootstrap]
    decide
  | file hlinked hnamed =>
    obtain ⟨_, hsound⟩ := hlinked.sound
    have hgrows := hsound.grows
    rw [inheritedLayout, hsuper, Option.bind_some, hsc] at hgrows
    exact hgrows

/-- An instance has room for each field that its class or a class above it declares. -/
theorem WellFormed.fits_of_mem_ancestors (h : t.WellFormed named) {c : ClassId} {cls : Class}
    {f : Field} (hc : t.get? c = some cls) (hf : t.Declares f) (hs : f.isStatic = false)
    (hmem : f.owner ∈ t.ancestors c) : f.Fits cls.layout := by
  generalize hn : c.index = n
  induction n using Nat.strongRecOn generalizing c cls with
  | ind n ih =>
    rcases mem_ancestors_iff.mp hmem with howner | ⟨s, hsuper, hmem⟩
    · obtain ⟨cls', hc', hfield, hlinked, _⟩ := h.linked_of_declares hf
      rw [howner, hc, Option.some.injEq] at hc'
      subst hc'
      obtain ⟨_, hsound⟩ := hlinked.sound
      exact hsound.fits f hfield hs
    · have hlt : s.1.index < n := hn ▸ s.2
      obtain ⟨scls, hsc⟩ := exists_get?_of_lt (Nat.lt_trans s.2 (lt_size_of_get? hc))
      exact (ih s.1.index hlt hsc hmem rfl).mono (h.layout_le hc hsuper hsc)

/-- A field that a class declares lies behind all fields of the classes above it. -/
theorem WellFormed.disjoint_of_mem_superclass (h : t.WellFormed named) {f g : Field}
    {s : { s : ClassId // s.index < f.owner.index }} (hf : t.Declares f) (hg : t.Declares g)
    (hfs : f.isStatic = false) (hgs : g.isStatic = false) (hs : t.superclass? f.owner = some s)
    (hmem : g.owner ∈ t.ancestors s.1) : f.Disjoint g := by
  obtain ⟨cls, hc, hfield, hlinked, _⟩ := h.linked_of_declares hf
  obtain ⟨cls', hc', hsuper⟩ := superclass_of_superclass? hs
  rw [hc, Option.some.injEq] at hc'
  subst hc'
  obtain ⟨scls, hsc⟩ := exists_get?_of_lt (Nat.lt_trans s.2 (lt_size_of_get? hc))
  obtain ⟨_, hsound⟩ := hlinked.sound
  have hbeyond := hsound.beyond f hfield hfs
  rw [inheritedLayout, hsuper, Option.bind_some, hsc] at hbeyond
  exact hbeyond.disjoint (h.fits_of_mem_ancestors hsc hg hgs hmem)

/-- Two fields that an instance carries do not share a place. -/
theorem WellFormed.disjoint_of_mem_ancestors (h : t.WellFormed named) {c : ClassId} {f g : Field}
    (hf : t.Declares f) (hg : t.Declares g) (hfs : f.isStatic = false) (hgs : g.isStatic = false)
    (hfm : f.owner ∈ t.ancestors c) (hgm : g.owner ∈ t.ancestors c) (hne : f ≠ g) :
    f.Disjoint g := by
  generalize hn : c.index = n
  induction n using Nat.strongRecOn generalizing c with
  | ind n ih =>
    rcases mem_ancestors_iff.mp hfm with rfl | ⟨s, hs, hfm⟩
    · rcases mem_ancestors_iff.mp hgm with howner | ⟨s, hs, hgm⟩
      · obtain ⟨cls, hc, hfield⟩ := hf
        obtain ⟨cls', hc', hgfield⟩ := hg
        rw [howner, hc, Option.some.injEq] at hc'
        subst hc'
        exact (h.apart hc hfield hgfield hne).1 hfs hgs
      · exact h.disjoint_of_mem_superclass hf hg hfs hgs hs hgm
    · rcases mem_ancestors_iff.mp hgm with rfl | ⟨s', hs', hgm⟩
      · exact (h.disjoint_of_mem_superclass hg hf hgs hfs hs hfm).symm
      · rw [hs, Option.some.injEq] at hs'
        subst hs'
        have hlt : s.1.index < n := hn ▸ s.2
        exact ih s.1.index hlt hfm hgm rfl

/-- A class that takes values of another one, and declares a field and is no interface, is above it.
-/
theorem WellFormed.mem_ancestors_of_isAssignable (h : t.WellFormed named) {f : Field}
    {cls : Class} {c : ClassId} (hf : t.Declares f) (hc : t.get? f.owner = some cls)
    (hi : cls.isInterface = false) (ha : t.isAssignable f.owner c = true) :
    f.owner ∈ t.ancestors c := by
  obtain ⟨cls', hc', hfield, hlinked, _⟩ := h.linked_of_declares hf
  rw [hc, Option.some.injEq] at hc'
  subst hc'
  rcases ClassTable.mem_ancestors_of_isAssignable hc hlinked.ordinary hi ha with hmem | hobject
  · exact hmem
  · rw [hobject] at hc
    obtain ⟨b, hb, hfixed⟩ := h.fixed_eq_bootstrap hc (by rw [size_bootstrap]; decide)
    rw [Class.eq_of_fixed hfixed Class.fields fun _ => rfl,
      fields_of_mem_bootstrapClasses b (mem_of_get?_bootstrap hb)] at hfield
    exact absurd hfield List.not_mem_nil

end ClassTable

end JavaMachine
