/-
# Class tables that grow

A class keeps all but its own state for good: `Class.fixed` is what stays.  A table extends another
one (`ClassTable.Extends`) when every class of the first is in the second, at the same handle and
with the same fixed part.  A name that is found goes on being found, and the walks over supertypes
give the same answer, since they look at fixed parts only.
-/
import JavaMachine.Class.Bootstrap

namespace JavaMachine

/-- A chain of two computations succeeds when both do. -/
theorem bind_eq_ok {ε α β : Type} {x : Except ε α} {f : α → Except ε β} {b : β} :
    x >>= f = .ok b ↔ ∃ a, x = .ok a ∧ f a = .ok b := by
  cases x with
  | error e => exact ⟨fun h => (nomatch h), fun ⟨_, h, _⟩ => (nomatch h)⟩
  | ok a => exact ⟨fun h => ⟨a, rfl, h⟩, fun ⟨_, h, hf⟩ => Except.ok.inj h ▸ hf⟩

/-! ## The fixed part of a class -/

/-- A class without the state of its own: what is settled once it is in a table. -/
def Class.fixed (c : Class) : Class :=
  { c with statics := [], initStarted := false, classObject := none }

/-- What depends on the fixed part only is the same for classes with the same fixed part. -/
theorem Class.eq_of_fixed {β : Type} {c d : Class} (h : c.fixed = d.fixed) (p : Class → β)
    (hp : ∀ x, p x.fixed = p x) : p c = p d := by
  rw [← hp c, ← hp d, h]

/-- A class is an array class exactly when its kind says so. -/
theorem Class.isArray_iff {c : Class} :
    c.isArray = true ↔ ∃ element component, c.kind = .array element component := by
  unfold Class.isArray Class.element?
  cases c.kind with
  | array element component => simp
  | _ => simp

namespace ClassTable

/-! ## Handles and classes -/

/-- A handle that has a class lies within the table. -/
theorem lt_size_of_get? {t : ClassTable} {c : ClassId} {cls : Class} (h : t.get? c = some cls) :
    c.index < t.size :=
  (Array.getElem?_eq_some_iff.mp h).1

/-- A handle within the table has a class. -/
theorem exists_get?_of_lt {t : ClassTable} {c : ClassId} (h : c.index < t.size) :
    ∃ cls, t.get? c = some cls :=
  ⟨_, Array.getElem?_eq_getElem h⟩

/-- A class that has to be there is got exactly where there is one. -/
theorem get_eq_ok_iff {t : ClassTable} {c : ClassId} {cls : Class} :
    t.get c = .ok cls ↔ t.get? c = some cls := by
  unfold get
  cases t.get? c with
  | none => simp
  | some x => simp

/-- The classes of a table with one more class. -/
theorem get?_push (t : ClassTable) (cls : Class) (c : ClassId) :
    (t.push cls).get? c = if c = t.nextId then some cls else t.get? c := by
  have hiff : c = t.nextId ↔ c.index = t.classes.size :=
    ⟨fun h => congrArg ClassId.index h, fun h => congrArg ClassId.mk h⟩
  show (t.classes.push cls)[c.index]? = _
  rw [Array.getElem?_push]
  by_cases h : c.index = t.classes.size
  · rw [if_pos h, if_pos (hiff.mpr h)]
  · rw [if_neg h, if_neg (fun hc => h (hiff.mp hc))]
    rfl

/-- A class of a table with one more class is the new one or an old one. -/
theorem get?_push_eq_some {t : ClassTable} {new cls : Class} {c : ClassId}
    (h : (t.push new).get? c = some cls) :
    (c = t.nextId ∧ cls = new) ∨ t.get? c = some cls := by
  rw [get?_push] at h
  split at h
  · next hc => exact Or.inl ⟨hc, (Option.some.inj h).symm⟩
  · exact Or.inr h

/-- The classes of a table in which one class was changed. -/
theorem get?_update (t : ClassTable) (c : ClassId) (f : Class → Class) (d : ClassId) :
    (t.update c f).get? d = if d = c then (t.get? d).map f else t.get? d := by
  have hiff : d = c ↔ c.index = d.index :=
    ⟨fun h => congrArg ClassId.index h.symm, fun h => congrArg ClassId.mk h.symm⟩
  show (t.classes.modify c.index f)[d.index]? = _
  rw [Array.getElem?_modify]
  by_cases h : c.index = d.index
  · rw [if_pos h, if_pos (hiff.mpr h)]
    rfl
  · rw [if_neg h, if_neg (fun hc => h (hiff.mp hc))]
    rfl

theorem size_push (t : ClassTable) (cls : Class) : (t.push cls).size = t.size + 1 :=
  Array.size_push ..

/-! ## Names -/

/-- A name is not found exactly when no class has it. -/
theorem find?_eq_none_iff {t : ClassTable} {name : String} :
    t.find? name = none ↔ ∀ c cls, t.get? c = some cls → cls.name ≠ name := by
  rw [find?, Option.map_eq_none_iff, Array.findIdx?_eq_none_iff]
  constructor
  · intro h c cls hc
    simpa using h cls (Array.mem_of_getElem? hc)
  · intro h cls hcls
    obtain ⟨i, hi⟩ := Array.getElem?_of_mem hcls
    simpa using h ⟨i⟩ cls hi

/-- A name is found at the first class that has it. -/
theorem find?_eq_some_iff {t : ClassTable} {name : String} {c : ClassId} :
    t.find? name = some c ↔
      ∃ cls, t.get? c = some cls ∧ cls.name = name ∧
        ∀ d dcls, t.get? d = some dcls → d.index < c.index → dcls.name ≠ name := by
  rw [find?, Option.map_eq_some_iff]
  constructor
  · rintro ⟨i, hi, rfl⟩
    obtain ⟨hlt, hname, hfirst⟩ := Array.findIdx?_eq_some_iff_getElem.mp hi
    refine ⟨t.classes[i], Array.getElem?_eq_getElem hlt, by simpa using hname, ?_⟩
    intro d dcls hd hdi
    obtain ⟨_, rfl⟩ := Array.getElem?_eq_some_iff.mp hd
    simpa using hfirst d.index hdi
  · rintro ⟨cls, hc, hname, hfirst⟩
    obtain ⟨hlt, rfl⟩ := Array.getElem?_eq_some_iff.mp hc
    refine ⟨c.index, Array.findIdx?_eq_some_iff_getElem.mpr ⟨hlt, by simpa using hname, ?_⟩, rfl⟩
    intro j hj
    have hne := hfirst ⟨j⟩ t.classes[j] (Array.getElem?_eq_getElem _) hj
    simpa using hne

/-- The class of a name has that name. -/
theorem get?_of_find? {t : ClassTable} {name : String} {c : ClassId} (h : t.find? name = some c) :
    ∃ cls, t.get? c = some cls ∧ cls.name = name := by
  obtain ⟨cls, hc, hname, _⟩ := find?_eq_some_iff.mp h
  exact ⟨cls, hc, hname⟩

/-- A name is not found in a table with one more class when neither the table nor the class has it.
-/
theorem find?_push_eq_none_iff {t : ClassTable} {cls : Class} {name : String} :
    (t.push cls).find? name = none ↔ t.find? name = none ∧ cls.name ≠ name := by
  rw [find?_eq_none_iff, find?_eq_none_iff]
  constructor
  · intro h
    refine ⟨fun c old hc => ?_, h t.nextId cls (get?_push_nextId t cls)⟩
    apply h c old
    rw [get?_push_of_lt (lt_size_of_get? hc)]
    exact hc
  · rintro ⟨hold, hnew⟩ c x hc
    rcases get?_push_eq_some hc with ⟨_, rfl⟩ | hc
    · exact hnew
    · exact hold c x hc

/-- A class that is added under a new name is found by it. -/
theorem find?_push_self {t : ClassTable} {cls : Class} (h : t.find? cls.name = none) :
    (t.push cls).find? cls.name = some t.nextId := by
  refine find?_eq_some_iff.mpr ⟨cls, get?_push_nextId t cls, rfl, fun c old hc hlt => ?_⟩
  rw [get?_push_of_lt hlt] at hc
  exact find?_eq_none_iff.mp h c old hc

/-- A class is added under a name that is not found, and at the end. -/
theorem define_eq_ok {t t' : ClassTable} {cls : Class} {c : ClassId}
    (h : t.define cls = .ok (t', c)) :
    t.find? cls.name = none ∧ t' = t.push cls ∧ c = t.nextId := by
  unfold define at h
  split at h
  · cases h
  · next hnone =>
    cases h
    exact ⟨hnone, rfl, rfl⟩

/-- No two classes of the table share a name. -/
def NamesUnique (t : ClassTable) : Prop :=
  ∀ c d cls dcls, t.get? c = some cls → t.get? d = some dcls → cls.name = dcls.name → c = d

/-- Where names are unique, each class is found by its name. -/
theorem NamesUnique.find?_name {t : ClassTable} (h : t.NamesUnique) {c : ClassId} {cls : Class}
    (hc : t.get? c = some cls) : t.find? cls.name = some c := by
  refine find?_eq_some_iff.mpr ⟨cls, hc, rfl, ?_⟩
  intro d dcls hd hlt hname
  have hdc := h d c dcls cls hd hc hname
  rw [hdc] at hlt
  omega

/-! ## Classes that were begun -/

/-- Whether the initialization of a class was begun. -/
def isStarted (t : ClassTable) (c : ClassId) : Bool := (t.get? c).any (·.initStarted)

/-- A class that was begun is in the table. -/
theorem exists_get?_of_isStarted {t : ClassTable} {c : ClassId} (h : t.isStarted c = true) :
    ∃ cls, t.get? c = some cls ∧ cls.initStarted = true := by
  unfold isStarted at h
  cases hc : t.get? c with
  | none =>
    rw [hc] at h
    cases h
  | some cls =>
    rw [hc] at h
    exact ⟨cls, rfl, h⟩

theorem isStarted_push {t : ClassTable} {cls : Class} (h : cls.initStarted = false) (c : ClassId) :
    (t.push cls).isStarted c = t.isStarted c := by
  unfold isStarted
  rw [get?_push]
  split
  · next hc =>
    have hnone : t.get? c = none := by
      rw [hc]
      exact Array.getElem?_eq_none (Nat.le_refl _)
    rw [hnone]
    exact h
  · rfl

/-- Marking a class in another way begins no class. -/
theorem isStarted_update {t : ClassTable} {c : ClassId} {f : Class → Class}
    (hf : ∀ x, (f x).initStarted = x.initStarted) (d : ClassId) :
    (t.update c f).isStarted d = t.isStarted d := by
  unfold isStarted
  rw [get?_update]
  split
  · cases t.get? d with
    | none => rfl
    | some x => exact hf x
  · rfl

/-! ## Extensions -/

/-- Every class of `t` is in `t'`, at its handle and with the same fixed part. -/
def Extends (t t' : ClassTable) : Prop :=
  ∀ c cls, t.get? c = some cls → ∃ cls', t'.get? c = some cls' ∧ cls'.fixed = cls.fixed

theorem Extends.refl (t : ClassTable) : t.Extends t := fun _ cls hc => ⟨cls, hc, rfl⟩

theorem Extends.trans {t t' t'' : ClassTable} (h : t.Extends t') (h' : t'.Extends t'') :
    t.Extends t'' := by
  intro c cls hc
  obtain ⟨cls', hc', he⟩ := h c cls hc
  obtain ⟨cls'', hc'', he'⟩ := h' c cls' hc'
  exact ⟨cls'', hc'', he'.trans he⟩

theorem Extends.size_le {t t' : ClassTable} (h : t.Extends t') : t.size ≤ t'.size := by
  refine Nat.le_of_not_lt fun hlt => ?_
  obtain ⟨cls, hc⟩ := exists_get?_of_lt (c := ⟨t'.size⟩) hlt
  obtain ⟨cls', hc', _⟩ := h _ cls hc
  exact Nat.lt_irrefl _ (lt_size_of_get? hc')

/-- A class that both tables have has the same fixed part in both. -/
theorem Extends.fixed_eq {t t' : ClassTable} (h : t.Extends t') {c : ClassId} {cls cls' : Class}
    (hc : t.get? c = some cls) (hc' : t'.get? c = some cls') : cls'.fixed = cls.fixed := by
  obtain ⟨d, hd, he⟩ := h c cls hc
  rw [hc'] at hd
  rw [Option.some.inj hd]
  exact he

theorem extends_push (t : ClassTable) (cls : Class) : t.Extends (t.push cls) := by
  intro c d hc
  refine ⟨d, ?_, rfl⟩
  rw [get?_push_of_lt (lt_size_of_get? hc)]
  exact hc

theorem extends_update {t : ClassTable} {c : ClassId} {f : Class → Class}
    (hf : ∀ cls, (f cls).fixed = cls.fixed) : t.Extends (t.update c f) := by
  intro d cls hd
  rw [get?_update, hd]
  split
  · exact ⟨f cls, rfl, hf cls⟩
  · exact ⟨cls, rfl, rfl⟩

/-- A name that is found is found at the same class after an extension. -/
theorem Extends.find? {t t' : ClassTable} (h : t.Extends t') {name : String} {c : ClassId}
    (hc : t.find? name = some c) : t'.find? name = some c := by
  obtain ⟨cls, hcls, hname, hfirst⟩ := find?_eq_some_iff.mp hc
  obtain ⟨cls', hcls', he⟩ := h c cls hcls
  have hname' : cls'.name = name := (Class.eq_of_fixed he Class.name fun _ => rfl).trans hname
  refine find?_eq_some_iff.mpr ⟨cls', hcls', hname', ?_⟩
  intro d dcls' hd' hlt
  have hsize := lt_size_of_get? hcls
  obtain ⟨dcls, hd⟩ := exists_get?_of_lt (Nat.lt_trans hlt hsize)
  rw [Class.eq_of_fixed (h.fixed_eq hd hd') Class.name fun _ => rfl]
  exact hfirst d dcls hd hlt

end ClassTable

end JavaMachine
