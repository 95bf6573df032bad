/-
# The layout of instances and the slots of static fields

An instance of a class carries the instance fields of the class and of all classes above it
(`ClassTable.instanceFields`).  Each class lays its own fields out behind the layout of its
superclass, so along the whole chain no two fields share a place, every field lies within the layout
of the class at the bottom, and what a class takes over stays where it is
(`ClassTable.WellFormed.laidOut`).  A class has one slot for each of its static fields, of the shape
that the kind of the field asks for, and writing to a field leaves all these shapes as they are.
-/
import JavaMachine.Proofs.ClassOrder
import JavaMachine.Proofs.FieldFrame

namespace JavaMachine

/-! ## Shapes of slots -/

/-- The shape of a static slot. -/
inductive SlotShape where
  | word
  | wide
  | reference
deriving DecidableEq, Repr

def Slot.shape : Slot → SlotShape
  | word _ => .word
  | wide _ => .wide
  | reference _ => .reference

/-- The shape of the slots of a kind: `long` and `double` are wide. -/
def Tag.slotShape : Tag → SlotShape
  | .reference => .reference
  | .primitive .long | .primitive .double => .wide
  | .primitive _ => .word

/-- A slot holds values of a kind exactly when it has the shape of that kind. -/
theorem Slot.holds_iff_shape (s : Slot) (t : Tag) : s.Holds t ↔ s.shape = t.slotShape := by
  unfold Slot.Holds
  cases t with
  | reference => cases s <;> simp [Slot.load?, Slot.shape, Tag.slotShape]
  | primitive p =>
    cases s <;> cases p <;>
      simp [Slot.load?, Slot.shape, Tag.slotShape, Primitive.isWide]

/-- The slot of a value has the shape of its kind. -/
theorem Slot.shape_ofValue (v : Value) : (Slot.ofValue v).shape = v.tag.slotShape := by
  rw [← Slot.holds_iff_shape, Slot.Holds, Slot.load?_ofValue]
  rfl

/-! ## The fields of an instance -/

/-- The instance fields that a class declares itself. -/
def Class.instanceFields (c : Class) : List Field := c.fields.filter (!·.isStatic)

/-- The static fields of a class. -/
def Class.staticFields (c : Class) : List Field := c.fields.filter Field.isStatic

theorem Class.mem_instanceFields {c : Class} {f : Field} :
    f ∈ c.instanceFields ↔ f ∈ c.fields ∧ f.isStatic = false := by
  rw [instanceFields, List.mem_filter, Bool.not_eq_true']

theorem Class.mem_staticFields {c : Class} {f : Field} :
    f ∈ c.staticFields ↔ f ∈ c.fields ∧ f.isStatic = true := List.mem_filter

namespace ClassTable

variable {t t' : ClassTable} {named : String → Prop} {c : ClassId} {cls : Class}

/-- The instance fields of a class and of the classes above it, from the class up. -/
def instanceFields (t : ClassTable) (c : ClassId) : List Field :=
  (t.ancestors c).flatMap fun a => (t.get? a).elim [] Class.instanceFields

/-- The fields of an instance are those that its class declares, and those of an instance of the
superclass. -/
theorem instanceFields_eq (hc : t.get? c = some cls) :
    t.instanceFields c = cls.instanceFields ++
      match t.superclass? c with
      | some s => t.instanceFields s.1
      | none => [] := by
  unfold instanceFields
  rw [ancestors, List.flatMap_cons, hc]
  cases t.superclass? c with
  | none => rfl
  | some s => rfl

theorem mem_instanceFields {f : Field} :
    f ∈ t.instanceFields c ↔
      ∃ a ∈ t.ancestors c, ∃ cls, t.get? a = some cls ∧ f ∈ cls.fields ∧ f.isStatic = false := by
  unfold instanceFields
  rw [List.mem_flatMap]
  refine exists_congr fun a => and_congr_right fun _ => ?_
  cases t.get? a with
  | none => simp
  | some cls => simp [Class.mem_instanceFields]

/-- A field of an instance is declared by its owner, which is the class or above it. -/
theorem WellFormed.declares_of_mem_instanceFields (h : t.WellFormed named) {f : Field}
    (hf : f ∈ t.instanceFields c) :
    t.Declares f ∧ f.isStatic = false ∧ f.owner ∈ t.ancestors c := by
  obtain ⟨a, ha, cls, hget, hfield, hs⟩ := mem_instanceFields.mp hf
  have howner : f.owner = a := (h.owner_eq hget).1 f hfield
  exact ⟨⟨cls, howner ▸ hget, hfield⟩, hs, howner ▸ ha⟩

/-- The instance fields that a class declares itself do not overlap. -/
theorem WellFormed.pairwise_instanceFields (h : t.WellFormed named) (hc : t.get? c = some cls) :
    cls.instanceFields.Pairwise Field.Disjoint := by
  refine ((h.packed c cls hc).apart.filter _).imp_of_mem ?_
  intro f g hf hg hapart
  exact hapart.1 (Class.mem_instanceFields.mp hf).2 (Class.mem_instanceFields.mp hg).2

/-- No two fields of an instance overlap. -/
theorem WellFormed.pairwise_disjoint (h : t.WellFormed named) (hc : t.get? c = some cls) :
    (t.instanceFields c).Pairwise Field.Disjoint := by
  -- The induction goes up the chain: what a class adds lies behind all that it takes over.
  generalize hn : c.index = n
  induction n using Nat.strongRecOn generalizing c cls with
  | ind n ih =>
    have hown := h.pairwise_instanceFields hc
    rw [instanceFields_eq hc]
    cases hs : t.superclass? c with
    | none => simpa using hown
    | some s =>
      have hlt : s.1.index < n := hn ▸ s.2
      obtain ⟨scls, hsc⟩ := exists_get?_of_lt (Nat.lt_trans s.2 (lt_size_of_get? hc))
      refine List.pairwise_append.mpr ⟨hown, ih s.1.index hlt hsc rfl, ?_⟩
      intro f hf g hg
      obtain ⟨hfield, hfs⟩ := Class.mem_instanceFields.mp hf
      obtain ⟨hgdecl, hgs, hgmem⟩ := h.declares_of_mem_instanceFields hg
      obtain rfl : f.owner = c := (h.owner_eq hc).1 f hfield
      exact h.disjoint_of_mem_superclass ⟨cls, hc, hfield⟩ hgdecl hfs hgs hs hgmem

/-- How the fields of a class are laid out: each field of an instance lies within the layout, at a
multiple of its width, and overlaps no other; what the class takes over from its superclass is as it
is there; and the static fields have the slots of the class in turn, each of the shape of its kind.
-/
structure LaidOut (t : ClassTable) (c : ClassId) (cls : Class) : Prop where
  fits : ∀ f ∈ t.instanceFields c, f.Fits cls.layout
  aligned : ∀ f ∈ t.instanceFields c, f.Aligned
  disjoint : (t.instanceFields c).Pairwise Field.Disjoint
  inherited : ∀ s, cls.superclass = some s → ∃ scls, t.get? s = some scls ∧
    scls.layout.le cls.layout ∧ t.instanceFields c = cls.instanceFields ++ t.instanceFields s
  numbered : cls.staticFields.map Field.offset = List.range cls.statics.length
  shaped : ∀ f ∈ cls.staticFields, (cls.statics[f.offset]?).map Slot.shape = some f.tag.slotShape

/-- Every class of a table is laid out. -/
theorem WellFormed.laidOut (h : t.WellFormed named) (hc : t.get? c = some cls) :
    t.LaidOut c cls where
  fits := by
    intro f hf
    obtain ⟨hdecl, hs, hmem⟩ := h.declares_of_mem_instanceFields hf
    exact h.fits_of_mem_ancestors hc hdecl hs hmem
  aligned := by
    intro f hf
    obtain ⟨a, _, acls, hget, hfield, hs⟩ := mem_instanceFields.mp hf
    exact (h.packed a acls hget).aligned f hfield hs
  disjoint := h.pairwise_disjoint hc
  inherited := by
    intro s hs
    have hsuper := h.founded.superclass?_eq hc hs
    obtain ⟨scls, hsc⟩ := (h.founded.older (.superclass hc hs)).1
    refine ⟨scls, hsc, h.layout_le hc hsuper hsc, ?_⟩
    rw [instanceFields_eq hc, hsuper]
  numbered := (h.packed c cls hc).numbered
  shaped := by
    intro f hf
    obtain ⟨hfield, hs⟩ := Class.mem_staticFields.mp hf
    obtain ⟨s, hslot, hholds⟩ := h.slots c cls hc f hfield hs
    rw [hslot, Option.map_some, (Slot.holds_iff_shape s f.tag).mp hholds]

/-- The fields of an instance are the same in every table that has the class in the same way. -/
theorem Extends.instanceFields_eq (h : t.Extends t') (hc : t.get? c = some cls) :
    t'.instanceFields c = t.instanceFields c := by
  unfold instanceFields
  rw [h.ancestors (lt_size_of_get? hc)]
  refine List.flatMap_congr fun a ha => ?_
  have hlt : a.index < t.size := by
    have hall := forall_mem_ancestors (t := t) (P := fun a => a.index < t.size)
      (fun c s hlt _ => Nat.lt_trans s.2 hlt) (lt_size_of_get? hc)
    exact hall a ha
  obtain ⟨acls, hget⟩ := exists_get?_of_lt hlt
  obtain ⟨acls', hget', hfixed⟩ := h a acls hget
  rw [hget, hget']
  exact Class.eq_of_fixed hfixed Class.instanceFields fun _ => rfl

end ClassTable

namespace Machine

variable {path : ClassPath} {m m' : Machine}

/-- A slot that is replaced by one of its shape leaves the shapes of all slots as they are. -/
theorem map_shape_set {slots : List Slot} {i : Nat} {s : Slot}
    (h : (slots[i]?).map Slot.shape = some s.shape) :
    (slots.set i s).map Slot.shape = slots.map Slot.shape := by
  rw [List.map_set]
  refine List.ext_getElem? fun j => ?_
  by_cases hij : i = j
  · subst hij
    rw [List.getElem?_set_self', List.getElem?_map, h]
    rfl
  · rw [List.getElem?_set_ne hij]

/-- Writing to a field leaves the shapes of all slots as they are. -/
theorem shapes_setField {named : String → Prop} (hw : m.WellFormed named) {f : Field}
    {target : Option ObjectRef} {v : Value} (hf : m.classes.Declares f)
    (hset : m.setField f target v = .ok m') {c : ClassId} {cls : Class}
    (hc : m.classes.get? c = some cls) :
    ∃ cls', m'.classes.get? c = some cls' ∧
      cls'.statics.map Slot.shape = cls.statics.map Slot.shape := by
  rcases setField_eq_ok hset with ⟨w, hcoerce, ⟨hs, _, rfl⟩ | ⟨_, _, _, _, _, _, _, _, rfl⟩⟩
  · show ∃ cls', (m.classes.update f.owner _).get? c = some cls' ∧ _
    rw [ClassTable.get?_update]
    split
    · next howner =>
      refine ⟨_, congrArg _ hc, map_shape_set ?_⟩
      obtain ⟨cls', hc', hfield⟩ := hf
      rw [← howner, hc, Option.some.injEq] at hc'
      subst hc'
      rw [Slot.shape_ofValue, tag_coerceFor hcoerce]
      exact (hw.classes.laidOut hc).shaped f (Class.mem_staticFields.mpr ⟨hfield, hs⟩)
    · exact ⟨cls, hc, rfl⟩
  · exact ⟨cls, hc, rfl⟩

/-- **Every class of a reachable machine is laid out**, and stays so.  Its fields and its layout never
change, the fields of its instances are the same ever after, and no write to a field changes the
shape of a slot. -/
theorem class_layout (h : m.Reachable path PlainName) {c : ClassId} {cls : Class}
    (hc : m.classes.get? c = some cls) :
    m.classes.LaidOut c cls ∧
      (∀ m', m.Later path PlainName m' → ∃ cls', m'.classes.get? c = some cls' ∧
        m'.classes.LaidOut c cls' ∧ cls'.fields = cls.fields ∧ cls'.layout = cls.layout ∧
        m'.classes.instanceFields c = m.classes.instanceFields c) ∧
      ∀ f target v m', m.classes.Declares f → m.setField f target v = .ok m' →
        ∃ cls', m'.classes.get? c = some cls' ∧ m'.classes.LaidOut c cls' ∧
          cls'.statics.map Slot.shape = cls.statics.map Slot.shape := by
  have hplain : ∀ n, PlainName n → PlainName n := fun _ hn => hn
  have hw := h.wellFormed hplain
  refine ⟨hw.classes.laidOut hc, ?_, ?_⟩
  · intro m' hlater
    have hsteps := hlater.steps hplain hw
    have hw' := wellFormed_of_steps hsteps hw
    have hext := extends_of_steps hsteps
    obtain ⟨cls', hc', hfixed⟩ := hext c cls hc
    exact ⟨cls', hc', hw'.classes.laidOut hc',
      Class.eq_of_fixed hfixed Class.fields fun _ => rfl,
      Class.eq_of_fixed hfixed Class.layout fun _ => rfl, hext.instanceFields_eq hc⟩
  · intro f target v m' hf hset
    obtain ⟨cls', hc', hshapes⟩ := shapes_setField hw hf hset hc
    have hw' := (evolves_setField hf hset).wellFormed hw
    exact ⟨cls', hc', hw'.classes.laidOut hc', hshapes⟩

/-- An instance of the lower class carries the `char` and the reference of that class, and the `byte`
and the `int` of the class above it at the offsets that they have there; the static `long` of the
upper class has the one slot, which stays wide. -/
theorem class_layout_derivedMachine :
    (derivedMachine.classes.instanceFields ⟨27⟩).map (fun f => (f.name, f.offset)) =
        [("c", 8), ("r", 0), ("b", 0), ("x", 4)] ∧
      (derivedMachine.classes.instanceFields ⟨27⟩).Pairwise Field.Disjoint ∧
      ∀ f target v m', derivedMachine.classes.Declares f →
        derivedMachine.setField f target v = .ok m' →
        ((m'.classes.get? ⟨26⟩).map fun cls => cls.statics.map Slot.shape) = some [.wide] := by
  have hlower : (derivedMachine.classes.get? ⟨27⟩).isSome = true := by decide +kernel
  have hupper : (derivedMachine.classes.get? ⟨26⟩).map (fun cls => cls.statics.map Slot.shape) =
      some [.wide] := by decide +kernel
  obtain ⟨lower, hl⟩ := Option.isSome_iff_exists.mp hlower
  obtain ⟨upper, hu, hshape⟩ := Option.map_eq_some_iff.mp hupper
  refine ⟨by decide +kernel, (class_layout reachable_derivedMachine hl).1.disjoint, ?_⟩
  intro f target v m' hf hset
  obtain ⟨cls', hc', _, hshapes⟩ :=
    (class_layout reachable_derivedMachine hu).2.2 f target v m' hf hset
  rw [hc', Option.map_some, hshapes, hshape]

end Machine

end JavaMachine
