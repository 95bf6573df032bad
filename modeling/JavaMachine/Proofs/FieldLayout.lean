/-
# The places of fields

A plan lays fields out one after the other.  `FieldPlan.Sound` is what every plan keeps: an instance
field lies within the layout reached so far and beyond the layout that the plan began with, no two
fields share a place, and a static field has a slot of the shape that its kind asks for.  `Packed` is what
the fields keep in the order in which they come: instance fields are aligned, and the static fields
have the slots in turn.

An instance with a value written at the place of a field has that value there, and has at every
place apart from it what it had before.
-/
import JavaMachine.Machine.FieldAccess
import JavaMachine.Machine.Linking
import JavaMachine.Proofs.Codec

namespace JavaMachine

/-! ## Places -/

/-- The place of an instance field lies within a layout. -/
def Field.Fits (f : Field) (l : Layout) : Prop :=
  match f.tag with
  | .reference => f.offset < l.refs
  | .primitive p => f.offset + p.size ≤ l.bytes

/-- The place of an instance field lies behind a layout. -/
def Field.Beyond (f : Field) (l : Layout) : Prop :=
  match f.tag with
  | .reference => l.refs ≤ f.offset
  | .primitive _ => l.bytes ≤ f.offset

/-- The places of two instance fields have no byte and no reference slot in common. -/
def Field.Disjoint (f g : Field) : Prop :=
  match f.tag, g.tag with
  | .reference, .reference => f.offset ≠ g.offset
  | .primitive p, .primitive q => f.offset + p.size ≤ g.offset ∨ g.offset + q.size ≤ f.offset
  | _, _ => True

/-- Two fields of one class do not share a place: instance fields are disjoint, and static fields
have slots of their own. -/
def Field.Apart (f g : Field) : Prop :=
  (f.isStatic = false → g.isStatic = false → f.Disjoint g) ∧
    (f.isStatic = true → g.isStatic = true → f.offset ≠ g.offset)

/-- The place of an instance field of a primitive kind begins at a multiple of its width. -/
def Field.Aligned (f : Field) : Prop :=
  match f.tag with
  | .reference => True
  | .primitive p => p.size ∣ f.offset

/-- One layout continues another one. -/
def Layout.le (l l' : Layout) : Prop := l.bytes ≤ l'.bytes ∧ l.refs ≤ l'.refs

theorem Layout.le_refl (l : Layout) : l.le l := ⟨Nat.le_refl _, Nat.le_refl _⟩

theorem Layout.le_trans {l l' l'' : Layout} (h : l.le l') (h' : l'.le l'') : l.le l'' :=
  ⟨Nat.le_trans h.1 h'.1, Nat.le_trans h.2 h'.2⟩

theorem Field.Disjoint.symm {f g : Field} (h : f.Disjoint g) : g.Disjoint f := by
  unfold Field.Disjoint at h ⊢
  cases hf : f.tag with
  | reference =>
    cases hg : g.tag with
    | reference =>
      rw [hf, hg] at h
      exact Ne.symm h
    | primitive q => trivial
  | primitive p =>
    cases hg : g.tag with
    | reference => trivial
    | primitive q =>
      rw [hf, hg] at h
      exact Or.symm h

theorem Field.Apart.symm {f g : Field} (h : f.Apart g) : g.Apart f :=
  ⟨fun hg hf => (h.1 hf hg).symm, fun hg hf => Ne.symm (h.2 hf hg)⟩

theorem Field.Fits.mono {f : Field} {l l' : Layout} (h : f.Fits l) (hl : l.le l') : f.Fits l' := by
  unfold Field.Fits at h ⊢
  cases hf : f.tag with
  | reference =>
    rw [hf] at h
    exact Nat.lt_of_lt_of_le h hl.2
  | primitive p =>
    rw [hf] at h
    exact Nat.le_trans h hl.1

theorem Field.Beyond.mono {f : Field} {l l' : Layout} (h : f.Beyond l') (hl : l.le l') :
    f.Beyond l := by
  unfold Field.Beyond at h ⊢
  cases hf : f.tag with
  | reference =>
    rw [hf] at h
    exact Nat.le_trans hl.2 h
  | primitive p =>
    rw [hf] at h
    exact Nat.le_trans hl.1 h

/-- A place behind a layout is disjoint from every place within it. -/
theorem Field.Beyond.disjoint {f g : Field} {l : Layout} (hf : f.Beyond l) (hg : g.Fits l) :
    f.Disjoint g := by
  unfold Field.Beyond at hf
  unfold Field.Fits at hg
  unfold Field.Disjoint
  cases hft : f.tag with
  | reference =>
    cases hgt : g.tag with
    | reference =>
      rw [hft] at hf
      rw [hgt] at hg
      exact Nat.ne_of_gt (Nat.lt_of_lt_of_le hg hf)
    | primitive q => trivial
  | primitive p =>
    cases hgt : g.tag with
    | reference => trivial
    | primitive q =>
      rw [hft] at hf
      rw [hgt] at hg
      exact Or.inr (Nat.le_trans hg hf)

/-! ## Plans -/

/-- A slot holds a value of a kind. -/
def Slot.Holds (s : Slot) (t : Tag) : Prop := (s.load? t).isSome

/-- Every static field of a list has a slot of its kind. -/
def SlotsFit (fields : List Field) (statics : List Slot) : Prop :=
  ∀ f ∈ fields, f.isStatic = true → ∃ s, statics[f.offset]? = some s ∧ s.Holds f.tag

/-- What a plan for the fields of a class keeps, from the layout that the class inherits. -/
structure FieldPlan.Sound (owner : ClassId) (inherited : Layout) (p : FieldPlan) : Prop where
  grows : inherited.le p.layout
  owned : ∀ f ∈ p.fields, f.owner = owner
  fits : ∀ f ∈ p.fields, f.isStatic = false → f.Fits p.layout
  beyond : ∀ f ∈ p.fields, f.isStatic = false → f.Beyond inherited
  apart : ∀ f ∈ p.fields, ∀ g ∈ p.fields, f ≠ g → f.Apart g
  slots : SlotsFit p.fields p.statics

/-- What the fields of a class and its slots keep one by one, in the order in which they are laid out:
instance fields are aligned, no field shares a place with one before it, and the static fields have
the slots in turn. -/
structure Packed (fields : List Field) (statics : List Slot) : Prop where
  aligned : ∀ f ∈ fields, f.isStatic = false → f.Aligned
  apart : fields.Pairwise Field.Apart
  numbered : (fields.filter Field.isStatic).map Field.offset = List.range statics.length

theorem packed_nil : Packed [] [] where
  aligned := fun _ h => absurd h List.not_mem_nil
  apart := .nil
  numbered := rfl

/-- Slots may be written to: only their number counts. -/
theorem Packed.of_length_eq {fields : List Field} {statics statics' : List Slot}
    (h : Packed fields statics) (hlength : statics'.length = statics.length) :
    Packed fields statics' where
  aligned := h.aligned
  apart := h.apart
  numbered := hlength ▸ h.numbered

/-- Fields stay packed with one more that is aligned, lies apart from them and has the next slot if
it is static. -/
theorem Packed.append {fields : List Field} {statics : List Slot} (h : Packed fields statics)
    (more : List Slot) {f : Field} (haligned : f.isStatic = false → f.Aligned) (hapart : ∀ g ∈ fields, f.Apart g)
    (hnumbered : ([f].filter Field.isStatic).map Field.offset =
      (List.range more.length).map (statics.length + ·)) :
    Packed (fields ++ [f]) (statics ++ more) where
  aligned := by
    intro g hg hs
    rcases List.mem_append.mp hg with hg | hg
    · exact h.aligned g hg hs
    · rw [List.mem_singleton.mp hg] at hs ⊢
      exact haligned hs
  apart := by
    refine List.pairwise_append.mpr ⟨h.apart, List.pairwise_singleton _ _, ?_⟩
    intro g hg k hk
    rw [List.mem_singleton.mp hk]
    exact (hapart g hg).symm
  numbered := by
    rw [List.filter_append, List.map_append, h.numbered, hnumbered, List.length_append,
      List.range_add]

/-- The next multiple of a size is not below the number. -/
theorem le_alignUp (n : Nat) {size : Nat} (h : 0 < size) : n ≤ alignUp n size := by
  have hdiv := Nat.div_add_mod (n + size - 1) size
  have hmod := Nat.mod_lt (n + size - 1) h
  rw [alignUp, Nat.mul_comm]
  omega

namespace FieldPlan

/-- A placed field grows the layout. -/
theorem le_place (l : Layout) (t : Tag) : l.le (place l t).1 := by
  cases t with
  | reference => exact ⟨Nat.le_refl _, Nat.le_succ _⟩
  | primitive p =>
    refine ⟨?_, Nat.le_refl _⟩
    show l.bytes ≤ alignUp l.bytes p.size + p.size
    have := le_alignUp l.bytes p.size_pos
    omega

/-- A field at the offset of its placing lies behind the layout so far and within the one after. -/
theorem placed {f : Field} {l : Layout} (h : f.offset = (place l f.tag).2) :
    f.Beyond l ∧ f.Fits (place l f.tag).1 := by
  unfold Field.Beyond Field.Fits
  cases ht : f.tag with
  | reference =>
    rw [ht] at h
    rw [h]
    exact ⟨Nat.le_refl _, Nat.lt_succ_self _⟩
  | primitive p =>
    rw [ht] at h
    rw [h]
    exact ⟨le_alignUp _ p.size_pos, Nat.le_refl _⟩

/-- A field at the offset of its placing is aligned. -/
theorem aligned_placed {f : Field} {l : Layout} (h : f.offset = (place l f.tag).2) : f.Aligned := by
  unfold Field.Aligned
  cases ht : f.tag with
  | reference => trivial
  | primitive p =>
    rw [ht] at h
    rw [h]
    exact Nat.dvd_mul_left _ _

variable {owner : ClassId} {inherited : Layout} {p : FieldPlan}

/-- The plan of no field at all. -/
theorem sound_start (owner : ClassId) (inherited : Layout) :
    Sound owner inherited { layout := inherited } where
  grows := Layout.le_refl _
  owned := fun _ h => absurd h List.not_mem_nil
  fits := fun _ h => absurd h List.not_mem_nil
  beyond := fun _ h => absurd h List.not_mem_nil
  apart := fun _ h => absurd h List.not_mem_nil
  slots := fun _ h => absurd h List.not_mem_nil

/-- A plan stays sound with one more field `f` that lies apart from the fields so far. -/
theorem Sound.append (h : p.Sound owner inherited) {f : Field} {l : Layout} {statics : List Slot}
    (hl : p.layout.le l) (howner : f.owner = owner)
    (hfits : f.isStatic = false → f.Fits l) (hbeyond : f.isStatic = false → f.Beyond inherited)
    (hapart : ∀ g ∈ p.fields, f.Apart g) (hslots : SlotsFit (p.fields ++ [f]) statics) :
    Sound owner inherited { layout := l, statics, fields := p.fields ++ [f] } where
  grows := Layout.le_trans h.grows hl
  owned := by
    intro g hg
    rcases List.mem_append.mp hg with hg | hg
    · exact h.owned g hg
    · rw [List.mem_singleton.mp hg, howner]
  fits := by
    intro g hg hs
    rcases List.mem_append.mp hg with hg | hg
    · exact (h.fits g hg hs).mono hl
    · rw [List.mem_singleton.mp hg] at hs ⊢
      exact hfits hs
  beyond := by
    intro g hg hs
    rcases List.mem_append.mp hg with hg | hg
    · exact h.beyond g hg hs
    · rw [List.mem_singleton.mp hg] at hs ⊢
      exact hbeyond hs
  apart := by
    intro g hg k hk hne
    rcases List.mem_append.mp hg with hg | hg
    · rcases List.mem_append.mp hk with hk | hk
      · exact h.apart g hg k hk hne
      · rw [List.mem_singleton.mp hk]
        exact (hapart g hg).symm
    · rcases List.mem_append.mp hk with hk | hk
      · rw [List.mem_singleton.mp hg]
        exact hapart k hk
      · exact absurd ((List.mem_singleton.mp hg).trans (List.mem_singleton.mp hk).symm) hne
  slots := hslots

/-- An instance field at its place lies apart from all fields before it. -/
theorem Sound.apart_instance (h : p.Sound owner inherited) {f : Field}
    (hoff : f.offset = (place p.layout f.tag).2) (hstatic : f.isStatic = false) :
    ∀ g ∈ p.fields, f.Apart g := by
  intro g hg
  refine ⟨fun _ hgs => (placed hoff).1.disjoint (h.fits g hg hgs), ?_⟩
  intro hs
  rw [hstatic] at hs
  cases hs

/-- A static field with the next slot lies apart from all fields before it. -/
theorem Sound.apart_static (h : p.Sound owner inherited) {f : Field}
    (hoff : f.offset = p.statics.length) (hstatic : f.isStatic = true) :
    ∀ g ∈ p.fields, f.Apart g := by
  intro g hg
  refine ⟨fun hs => ?_, fun _ hgs => ?_⟩
  · rw [hstatic] at hs
    cases hs
  · obtain ⟨_, hslot, _⟩ := h.slots g hg hgs
    rw [hoff]
    exact Nat.ne_of_gt (List.getElem?_eq_some_iff.mp hslot).1

/-- A plan stays sound with one more instance field. -/
theorem Sound.addInstance (h : p.Sound owner inherited) {t : Tag} {build : Nat → Field}
    (hoff : ∀ n, (build n).offset = n) (htag : ∀ n, (build n).tag = t)
    (howner : ∀ n, (build n).owner = owner) (hstatic : ∀ n, (build n).isStatic = false) :
    (p.addInstance t build).Sound owner inherited := by
  have hplace : (build (place p.layout t).2).offset =
      (place p.layout (build (place p.layout t).2).tag).2 := by
    rw [hoff, htag]
  have hplaced := placed hplace
  rw [htag] at hplaced
  refine h.append (le_place ..) (howner _) (fun _ => hplaced.2)
    (fun _ => hplaced.1.mono h.grows) (h.apart_instance hplace (hstatic _)) ?_
  intro g hg hs
  rcases List.mem_append.mp hg with hg | hg
  · exact h.slots g hg hs
  · rw [List.mem_singleton.mp hg, hstatic] at hs
    cases hs

/-- A plan stays sound with one more static field, whose slot is of its kind. -/
theorem Sound.addStatic (h : p.Sound owner inherited) {t : Tag} {s : Slot} {build : Nat → Field}
    (hoff : ∀ n, (build n).offset = n) (htag : ∀ n, (build n).tag = t)
    (howner : ∀ n, (build n).owner = owner) (hstatic : ∀ n, (build n).isStatic = true)
    (hslot : s.Holds t) : (p.addStatic s build).Sound owner inherited := by
  have hlast : (p.statics ++ [s])[p.statics.length]? = some s := by
    rw [List.getElem?_append_right (Nat.le_refl _), Nat.sub_self]
    rfl
  refine h.append (Layout.le_refl _) (howner _) ?_ ?_ (h.apart_static (hoff _) (hstatic _)) ?_
  · intro hs
    rw [hstatic] at hs
    cases hs
  · intro hs
    rw [hstatic] at hs
    cases hs
  · intro g hg hgs
    rcases List.mem_append.mp hg with hg | hg
    · obtain ⟨u, hu, hholds⟩ := h.slots g hg hgs
      refine ⟨u, ?_, hholds⟩
      rw [List.getElem?_append_left (List.getElem?_eq_some_iff.mp hu).1, hu]
    · rw [List.mem_singleton.mp hg]
      refine ⟨s, ?_, ?_⟩
      · rw [hoff]
        exact hlast
      · rw [htag]
        exact hslot

/-- A plan that is sound stays packed with one more instance field. -/
theorem Sound.packed_addInstance (h : p.Sound owner inherited) (hp : Packed p.fields p.statics)
    {t : Tag} {build : Nat → Field} (hoff : ∀ n, (build n).offset = n)
    (htag : ∀ n, (build n).tag = t) (hstatic : ∀ n, (build n).isStatic = false) :
    Packed (p.addInstance t build).fields (p.addInstance t build).statics := by
  have hplace : (build (place p.layout t).2).offset =
      (place p.layout (build (place p.layout t).2).tag).2 := by
    rw [hoff, htag]
  have hpacked := hp.append [] (fun _ => aligned_placed hplace)
    (h.apart_instance hplace (hstatic _)) (by rw [List.filter_cons_of_neg (by simp [hstatic])]; rfl)
  rw [List.append_nil] at hpacked
  exact hpacked

/-- A plan that is sound stays packed with one more static field. -/
theorem Sound.packed_addStatic (h : p.Sound owner inherited) (hp : Packed p.fields p.statics)
    {s : Slot} {build : Nat → Field} (hoff : ∀ n, (build n).offset = n)
    (hstatic : ∀ n, (build n).isStatic = true) :
    Packed (p.addStatic s build).fields (p.addStatic s build).statics := by
  refine hp.append [s] ?_ (h.apart_static (hoff _) (hstatic _)) ?_
  · intro hs
    rw [hstatic] at hs
    cases hs
  · rw [List.filter_cons_of_pos (hstatic _)]
    simp [hoff]

end FieldPlan

/-! ## Reading what was written -/

/-- A value is written at an offset within the bytes. -/
theorem length_take_of_storeValue? {bytes tail : Bytes} {v : Value} {p : Primitive} {offset : Nat}
    (hv : v.tag = .primitive p) (h : storeValue? v (bytes.drop offset) = some tail) :
    (bytes.take offset).length = offset := by
  have hin : p.size ≤ (bytes.drop offset).length :=
    (storeValue?_isSome_iff hv).mp (Option.isSome_iff_exists.mpr ⟨_, h⟩)
  have hsize := p.size_pos
  rw [List.length_drop] at hin
  rw [List.length_take]
  omega

/-- Bytes with a value written at an offset are the same everywhere else. -/
theorem getElem?_write {bytes tail : Bytes} {v : Value} {p : Primitive} {offset : Nat}
    (hv : v.tag = .primitive p) (h : storeValue? v (bytes.drop offset) = some tail) (i : Nat)
    (hi : i < offset ∨ offset + p.size ≤ i) : (bytes.take offset ++ tail)[i]? = bytes[i]? := by
  have htake := length_take_of_storeValue? hv h
  -- In front of the offset nothing was dropped, and behind the value the bytes dropped are back.
  rcases hi with hi | hi
  · rw [List.getElem?_append_left (by omega), List.getElem?_take_of_lt hi]
  · have hrest : tail[i - offset]? = (bytes.drop offset)[i - offset]? := by
      have hd := congrArg (fun l : Bytes => l[i - offset - p.size]?) (drop_storeValue? hv h)
      simp only [List.getElem?_drop] at hd
      rw [List.getElem?_drop, show i - offset = p.size + (i - offset - p.size) by omega]
      exact hd
    rw [List.getElem?_append_right (by omega), htake, hrest, List.getElem?_drop,
      show offset + (i - offset) = i by omega]

/-- Loads that look at the same bytes give the same value, wherever these bytes lie. -/
theorem loadValue?_drop_eq {p : Primitive} {bytes bytes' : Bytes} {offset offset' : Nat}
    (h : ∀ i, i < p.size → bytes'[offset' + i]? = bytes[offset + i]?) :
    loadValue? p (bytes'.drop offset') = loadValue? p (bytes.drop offset) := by
  refine loadValue?_congr (List.ext_getElem? fun i => ?_)
  by_cases hi : i < p.size
  · rw [List.getElem?_take_of_lt hi, List.getElem?_take_of_lt hi, List.getElem?_drop,
      List.getElem?_drop]
    exact h i hi
  · rw [List.getElem?_take, List.getElem?_take, if_neg hi, if_neg hi]

namespace Machine

/-- A value is there exactly at a place within the layout of the instance. -/
theorem loadAt_isSome_iff (f : Field) (bytes : Bytes) (refs : List (Option ObjectRef)) :
    (loadAt f bytes refs).isSome ↔ f.Fits ⟨bytes.length, refs.length⟩ := by
  unfold loadAt Field.Fits
  cases f.tag with
  | reference =>
    show (refs[f.offset]?.map Value.reference).isSome ↔ _
    rw [Option.isSome_map]
    exact iff_of_eq (isSome_getElem? refs f.offset)
  | primitive p =>
    show (loadValue? p (bytes.drop f.offset)).isSome ↔ f.offset + p.size ≤ bytes.length
    have hsize := p.size_pos
    rw [loadValue?_isSome_iff, List.length_drop]
    omega

/-- Writing a primitive value replaces bytes from the offset of the field on. -/
theorem storeAt_primitive {f : Field} {v : Value} {p : Primitive} (hv : v.tag = .primitive p)
    (bytes : Bytes) (refs : List (Option ObjectRef)) :
    storeAt f bytes refs v = (storeValue? v (bytes.drop f.offset)).map fun tail =>
      .fields (bytes.take f.offset ++ tail) refs := by
  cases v with
  | reference r => cases hv
  | _ => rfl

/-- A value can be written exactly at a place within the layout of the instance. -/
theorem storeAt_isSome_iff {f : Field} {v : Value} (hv : v.tag = f.tag) (bytes : Bytes)
    (refs : List (Option ObjectRef)) :
    (storeAt f bytes refs v).isSome ↔ f.Fits ⟨bytes.length, refs.length⟩ := by
  unfold Field.Fits
  cases ht : f.tag with
  | reference =>
    rw [ht] at hv
    cases v with
    | reference r =>
      show (if f.offset < refs.length then some _ else none).isSome ↔ f.offset < refs.length
      split
      · next h => simp only [Option.isSome_some, h]
      · next h => simp only [Option.isSome_none, h, Bool.false_eq_true]
    | _ => cases hv
  | primitive p =>
    rw [ht] at hv
    have hsize := p.size_pos
    rw [storeAt_primitive hv, Option.isSome_map, storeValue?_isSome_iff hv, List.length_drop]
    show p.size ≤ bytes.length - f.offset ↔ f.offset + p.size ≤ bytes.length
    omega

/-- Writing a reference replaces the slot at the offset of the field. -/
theorem storeAt_reference {f : Field} {r : Option ObjectRef} (ht : f.tag = .reference)
    {bytes : Bytes} {refs : List (Option ObjectRef)} {body : Body}
    (h : storeAt f bytes refs (.reference r) = some body) :
    body = .fields bytes (refs.set f.offset r) ∧
      loadAt f bytes (refs.set f.offset r) = some (.reference r) ∧
      ∀ g, f.Disjoint g → loadAt g bytes (refs.set f.offset r) = loadAt g bytes refs := by
  replace h : (if f.offset < refs.length then some _ else none) = some body := h
  split at h
  · next hlt =>
    cases h
    refine ⟨rfl, ?_, ?_⟩
    · rw [loadAt, ht]
      show (refs.set f.offset r)[f.offset]?.map Value.reference = _
      rw [List.getElem?_set_self hlt]
      rfl
    · intro g hg
      unfold Field.Disjoint at hg
      unfold loadAt
      cases hgt : g.tag with
      | reference =>
        rw [ht, hgt] at hg
        show (refs.set f.offset r)[g.offset]?.map Value.reference = _
        rw [List.getElem?_set_ne hg]
      | primitive q => rfl
  · cases h

/-- Writing a primitive value replaces as many bytes as its kind is wide. -/
theorem storeAt_bytes {f : Field} {v : Value} {p : Primitive} (ht : f.tag = .primitive p)
    (hv : v.tag = .primitive p) {bytes tail : Bytes} (refs : List (Option ObjectRef))
    (h : storeValue? v (bytes.drop f.offset) = some tail) :
    (bytes.take f.offset ++ tail).length = bytes.length ∧
      loadAt f (bytes.take f.offset ++ tail) refs = some v ∧
      ∀ g, f.Disjoint g →
        loadAt g (bytes.take f.offset ++ tail) refs = loadAt g bytes refs := by
  have htake := length_take_of_storeValue? hv h
  have hall : (bytes.take f.offset ++ tail).length = bytes.length := by
    rw [List.length_append, length_storeValue? h, ← List.length_append, List.take_append_drop]
  refine ⟨hall, ?_, ?_⟩
  · rw [loadAt, ht]
    show loadValue? p ((bytes.take f.offset ++ tail).drop f.offset) = some v
    rw [List.drop_left' htake]
    exact loadValue?_storeValue? hv h
  · intro g hg
    unfold Field.Disjoint at hg
    unfold loadAt
    cases hgt : g.tag with
    | reference => rfl
    | primitive q =>
      rw [ht, hgt] at hg
      refine loadValue?_drop_eq fun i hi => ?_
      refine getElem?_write hv h (g.offset + i) ?_
      rcases hg with hg | hg
      · exact Or.inr (by omega)
      · exact Or.inl (by omega)

/-- What writing a field gives: an instance of the same layout, with the value at the place of the
field and with every disjoint place as it was. -/
theorem storeAt_eq_some {f : Field} {v : Value} {bytes : Bytes} {refs : List (Option ObjectRef)}
    {body : Body} (hv : v.tag = f.tag) (h : storeAt f bytes refs v = some body) :
    ∃ bytes' refs', body = .fields bytes' refs' ∧ bytes'.length = bytes.length ∧
      refs'.length = refs.length ∧ loadAt f bytes' refs' = some v ∧
      ∀ g, f.Disjoint g → loadAt g bytes' refs' = loadAt g bytes refs := by
  cases ht : f.tag with
  | reference =>
    rw [ht] at hv
    cases v with
    | reference r =>
      obtain ⟨hbody, hload, hother⟩ := storeAt_reference ht h
      exact ⟨bytes, refs.set f.offset r, hbody, rfl, List.length_set, hload, hother⟩
    | _ => cases hv
  | primitive p =>
    rw [ht] at hv
    rw [storeAt_primitive hv] at h
    obtain ⟨tail, htail, rfl⟩ := Option.map_eq_some_iff.mp h
    obtain ⟨hall, hload, hother⟩ := storeAt_bytes ht hv refs htail
    exact ⟨_, refs, rfl, hall, rfl, hload, hother⟩

end Machine

end JavaMachine
