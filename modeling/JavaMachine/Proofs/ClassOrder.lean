/-
# The order of the class table

Nothing checks that a class refers to older classes only.  It does so in every reachable machine, since
a superclass and interfaces are resolved before a class takes its handle, and the component of an array
class is in the table when the array class is made (`ClassTable.WellFormed.founded`).

So nothing is lost where a walk looks at older classes alone: each walk is the one that follows the
references of the classes themselves, whatever they are (`ClassTable.FollowsReferences`,
`initializeClass_eq_initializeNamed`), and that one ends from any class because the references are well
founded.  `Machine.class_table_ordered` puts this together with what a table is to its names and
handles, and with what later operations leave as it is.
-/
import JavaMachine.Proofs.Circularity
import JavaMachine.Proofs.Initialization
import Mathlib.Data.List.Basic

namespace JavaMachine

namespace ClassTable

variable {t : ClassTable} {c d : ClassId}

/-! ## Names and owners -/

/-- The index of names that is kept when each class is entered under its name as it is added. -/
def nameIndex (t : ClassTable) : String → Option ClassId :=
  t.classes.zipIdx.foldl (fun index entry => Function.update index entry.1.name (some ⟨entry.2⟩))
    fun _ => none

/-- A class that is added is entered under its name. -/
theorem nameIndex_push (t : ClassTable) (cls : Class) :
    (t.push cls).nameIndex = Function.update t.nameIndex cls.name (some t.nextId) := by
  unfold nameIndex
  show (t.classes.push cls).zipIdx.foldl _ _ = _
  rw [Array.push_eq_append, Array.zipIdx_append, Array.foldl_append]
  simp [nextId, size]

/-- The index has just the classes of the first `n` handles, each under its name. -/
def IndexedTo (t : ClassTable) (n : Nat) (index : String → Option ClassId) : Prop :=
  ∀ name c, index name = some c ↔ c.index < n ∧ ∃ cls, t.get? c = some cls ∧ cls.name = name

/-- Where names are unique, one more class is entered without another one being lost. -/
theorem IndexedTo.update {n : Nat} {index : String → Option ClassId} {cls : Class}
    (h : t.IndexedTo n index) (hunique : t.NamesUnique) (hn : t.get? ⟨n⟩ = some cls) :
    t.IndexedTo (n + 1) (Function.update index cls.name (some ⟨n⟩)) := by
  intro name c
  by_cases hname : name = cls.name
  · subst hname
    rw [Function.update_self, Option.some.injEq]
    constructor
    · rintro rfl
      exact ⟨Nat.lt_succ_self n, cls, hn, rfl⟩
    · rintro ⟨_, x, hc, hx⟩
      exact (hunique c ⟨n⟩ x cls hc hn hx).symm
  · rw [Function.update_of_ne hname, h name c]
    constructor
    · rintro ⟨hlt, hc⟩
      exact ⟨Nat.lt_succ_of_lt hlt, hc⟩
    · rintro ⟨hlt, x, hc, hx⟩
      have hne : c.index ≠ n := by
        rintro rfl
        rw [hn, Option.some.injEq] at hc
        rw [← hc] at hx
        exact hname hx.symm
      exact ⟨by omega, x, hc, hx⟩

/-- Where names are unique, the index has just the classes of the table, each under its name. -/
theorem NamesUnique.nameIndex_eq_some_iff (h : t.NamesUnique) {name : String} :
    t.nameIndex name = some c ↔ ∃ cls, t.get? c = some cls ∧ cls.name = name := by
  have hindexed : t.IndexedTo t.classes.zipIdx.size t.nameIndex := by
    apply Array.foldl_induction t.IndexedTo
    · intro name c
      simp
    · intro i index ih
      have hi : i.1 < t.classes.size := Nat.lt_of_lt_of_eq i.2 Array.size_zipIdx
      have hget : t.get? ⟨i.1⟩ = some t.classes[i.1] := Array.getElem?_eq_getElem hi
      simp only [Fin.getElem_fin, Array.getElem_zipIdx, Nat.zero_add]
      exact ih.update h hget
  rw [hindexed name c, Array.size_zipIdx]
  constructor
  · exact And.right
  · rintro ⟨cls, hc, hname⟩
    exact ⟨lt_size_of_get? hc, cls, hc, hname⟩

/-- Looking up a name finds what the index has. -/
theorem NamesUnique.nameIndex_eq (h : t.NamesUnique) : t.nameIndex = t.find? := by
  funext name
  apply Option.ext
  intro c
  rw [h.nameIndex_eq_some_iff]
  constructor
  · rintro ⟨cls, hc, rfl⟩
    exact h.find?_name hc
  · exact get?_of_find?

/-- What a class declares names the handle of the class as its owner. -/
theorem WellFormed.owner_eq {named : String → Prop} (h : t.WellFormed named) {cls : Class}
    (hc : t.get? c = some cls) :
    (∀ f ∈ cls.fields, f.owner = c) ∧ ∀ x ∈ cls.methods, x.owner = c := by
  constructor
  · intro f hf
    obtain ⟨_, hsound⟩ := (h.linked_of_mem_fields hc hf).1.sound
    exact hsound.owned f hf
  · intro x hx
    exact (h.linked_of_mem_methods hc hx).owned x hx

/-! ## References between classes -/

/-- A class refers to its superclass, to the interfaces that it names, and to the class of its
components. -/
inductive RefersTo (t : ClassTable) (c d : ClassId) : Prop
  | superclass {cls : Class} (hc : t.get? c = some cls) (hs : cls.superclass = some d)
  | interface {cls : Class} (hc : t.get? c = some cls) (hi : d ∈ cls.interfaces)
  | component {cls : Class} {element : Tag} (hc : t.get? c = some cls)
      (hk : cls.kind = .array element d)

/-- The superclass that a class names, older or not. -/
def namedSuperclass? (t : ClassTable) (c : ClassId) : Option ClassId :=
  (t.get? c).bind Class.superclass

/-- The interfaces that a class names, older or not. -/
def namedInterfaces (t : ClassTable) (c : ClassId) : List ClassId :=
  (t.get? c).elim [] Class.interfaces

/-- A class that is referred to is in the table, before the class that refers to it. -/
theorem Founded.older (h : t.Founded) (hr : t.RefersTo c d) :
    (∃ cls, t.get? d = some cls) ∧ d.index < c.index := by
  have hlt : d.index < c.index ∧ c.index < t.size := by
    cases hr with
    | superclass hc hs => exact ⟨h.superclass c _ d hc hs, lt_size_of_get? hc⟩
    | interface hc hi => exact ⟨h.interfaces c _ hc d hi, lt_size_of_get? hc⟩
    | component hc hk => exact ⟨h.component c _ _ d hc hk, lt_size_of_get? hc⟩
  exact ⟨exists_get?_of_lt (Nat.lt_trans hlt.1 hlt.2), hlt.1⟩

/-- There is no endless way along references. -/
theorem Founded.wellFounded (h : t.Founded) : WellFounded fun d c => t.RefersTo c d := by
  apply Subrelation.wf (r := fun d c : ClassId => d.index < c.index) _ (measure ClassId.index).wf
  intro d c hr
  exact (h.older hr).2

/-! ## Walks that follow references -/

/-- A walk goes to the superclass that a class names. -/
theorem Founded.map_superclass? (h : t.Founded) (c : ClassId) :
    (t.superclass? c).map Subtype.val = t.namedSuperclass? c := by
  cases hs : t.namedSuperclass? c with
  | none =>
    unfold superclass?
    unfold namedSuperclass? at hs
    simp [hs]
  | some s =>
    obtain ⟨cls, hc, hsuper⟩ := Option.bind_eq_some_iff.mp hs
    rw [h.superclass?_eq hc hsuper]
    rfl

/-- A walk goes to all interfaces that a class names. -/
theorem Founded.map_interfaces (h : t.Founded) (c : ClassId) :
    (t.interfaces c).map Subtype.val = t.namedInterfaces c := by
  unfold ClassTable.interfaces
  rw [List.map_filterMap]
  show (t.namedInterfaces c).filterMap _ = _
  have hall : ∀ i ∈ t.namedInterfaces c,
      Option.map Subtype.val (if hlt : i.index < c.index then some ⟨i, hlt⟩ else none :
        Option { i : ClassId // i.index < c.index }) = some i := by
    intro i hi
    have hlt : i.index < c.index := by
      unfold namedInterfaces at hi
      cases hc : t.get? c with
      | none =>
        rw [hc] at hi
        exact absurd hi List.not_mem_nil
      | some cls =>
        rw [hc] at hi
        exact h.interfaces c cls hc i hi
    rw [dif_pos hlt]
    rfl
  rw [List.filterMap_congr hall]
  exact List.filterMap_some

/-- The walks over the table go by what classes refer to: no step of theirs asks for an older class. -/
structure FollowsReferences (t : ClassTable) : Prop where
  isSubclass : ∀ sub sup, t.isSubclass sub sup =
    (decide (sub = sup) || (t.namedSuperclass? sub).any (t.isSubclass · sup))
  implements : ∀ c i, t.implements c i =
    ((t.namedInterfaces c).any (fun j => decide (j = i) || t.implements j i) ||
      (t.namedSuperclass? c).any (t.implements · i))
  isAssignable : ∀ {target source tcls scls x y}, target ≠ source →
    t.get? target = some tcls → t.get? source = some scls → tcls.kind = .array .reference x →
    scls.kind = .array .reference y → t.isAssignable target source = t.isAssignable x y
  findMethod? : ∀ c name descriptor, t.findMethod? c name descriptor =
    ((t.get? c).bind (·.method? name descriptor)).or
      ((t.namedSuperclass? c).bind (t.findMethod? · name descriptor))

theorem Founded.followsReferences (h : t.Founded) : t.FollowsReferences where
  isSubclass := by
    intro sub sup
    unfold ClassTable.isSubclass
    rw [← h.map_superclass?, ancestors]
    cases t.superclass? sub with
    | none => simp [eq_comm]
    | some s => simp [eq_comm]
  implements := by
    intro c i
    rw [ClassTable.implements, ← h.map_superclass?, ← h.map_interfaces, List.any_map]
    cases t.superclass? c with
    | none => rfl
    | some s => rfl
  isAssignable := by
    intro target source tcls scls x y hne ht hs htk hsk
    have hlt := h.component target tcls _ x ht htk
    rw [ClassTable.isAssignable, if_neg hne, ht, hs]
    simp [htk, hsk, hlt]
  findMethod? := by
    intro c name descriptor
    unfold ClassTable.findMethod?
    rw [← h.map_superclass?, ancestors, List.findSome?_cons]
    cases (t.get? c).bind (·.method? name descriptor) with
    | some x => rfl
    | none =>
      cases t.superclass? c with
      | none => rfl
      | some s => rfl

/-- A table in which every class is found by its name, and refers to older classes only. -/
structure Ordered (t : ClassTable) : Prop where
  owners : ∀ c cls, t.get? c = some cls →
    (∀ f ∈ cls.fields, f.owner = c) ∧ ∀ x ∈ cls.methods, x.owner = c
  indexed : ∀ name c, t.nameIndex name = some c ↔ ∃ cls, t.get? c = some cls ∧ cls.name = name
  found : t.find? = t.nameIndex
  older : ∀ c d, t.RefersTo c d → (∃ cls, t.get? d = some cls) ∧ d.index < c.index
  wellFounded : WellFounded fun d c => t.RefersTo c d
  walks : t.FollowsReferences

theorem WellFormed.ordered {named : String → Prop} (h : t.WellFormed named) : t.Ordered where
  owners := fun _ _ hc => h.owner_eq hc
  indexed := fun _ _ => h.unique.nameIndex_eq_some_iff
  found := h.unique.nameIndex_eq.symm
  older := fun _ _ hr => h.founded.older hr
  wellFounded := h.founded.wellFounded
  walks := h.founded.followsReferences

end ClassTable

/-! ## Initialization follows references -/

/-- Initializes a class after the superclass that it names, older or not. -/
def initializeNamed {W : Type} (p : Platform W) (t : ThreadId) (c : ClassId) : Exec W Unit := do
  let m ← Exec.machine
  let cls ← m.classes.get c
  if cls.needsInit && !cls.initStarted then
    Exec.modifyMachine (·.begin c)
    match cls.superclass with
    | some s => initializeClass p t s
    | none => pure ()
    match cls.method? initializerName "()V" with
    | some x => discard (p.invoke t x none [])
    | none => pure ()

theorem initializeClass_eq_initializeNamed {W : Type} {m : Machine} (h : m.classes.Founded)
    (p : Platform W) (t : ThreadId) (c : ClassId) (w : W) :
    initializeClass p t c (m, w) = initializeNamed p t c (m, w) := by
  rw [initializeClass, initializeNamed, run_bind, run_bind]
  show (liftM (m.classes.get c) >>= _ : Exec W Unit) (m, w) =
    (liftM (m.classes.get c) >>= _ : Exec W Unit) (m, w)
  cases hget : m.classes.get c with
  | error e => rfl
  | ok cls =>
    have hsuper : (m.classes.superclass? c).map Subtype.val = cls.superclass := by
      rw [h.map_superclass?, ClassTable.namedSuperclass?, ClassTable.get_eq_ok_iff.mp hget,
        Option.bind_some]
    show (if (cls.needsInit && !cls.initStarted) = true then _ else _ : Exec W Unit) (m, w) =
      (if (cls.needsInit && !cls.initStarted) = true then _ else _ : Exec W Unit) (m, w)
    rw [← hsuper]
    cases m.classes.superclass? c with
    | none => rfl
    | some s => rfl

namespace Machine

variable {path : ClassPath} {m : Machine}

/-- In a reachable machine the class table is in order: handles are positions, names lead to their
classes, and classes refer to older ones.  A definition, a resolution and an array class give a
handle of the table, what comes later changes no class but for its own state, and no walk over the
table stops before the end of the references that it follows. -/
theorem class_table_ordered (h : m.Reachable path fun _ => True) :
    m.classes.Ordered ∧
    (∀ c m', (∃ bytes, Action.defineClass path bytes m = (.ok c, m')) ∨
        (∃ name, Action.resolve path name m = (.ok c, m')) ∨
        (∃ component, Action.arrayClass component m = (.ok c, m')) →
      ∃ cls, m'.classes.get? c = some cls) ∧
    (∀ m', m.Later path (fun _ => True) m' → ∀ c cls, m.classes.get? c = some cls →
      ∃ cls', m'.classes.get? c = some cls' ∧ cls'.fixed = cls.fixed) ∧
    ∀ (W : Type) (p : Platform W) (t : ThreadId) (c : ClassId) (w : W),
      initializeClass p t c (m, w) = initializeNamed p t c (m, w) := by
  have hplain : ∀ n, PlainName n → (fun _ : String => True) n := fun _ _ => trivial
  have hw := h.wellFormed hplain
  refine ⟨hw.classes.ordered, ?_, ?_, ?_⟩
  · rintro c m' (⟨bytes, hrun⟩ | ⟨name, hrun⟩ | ⟨component, hrun⟩)
    · have htakes : Action.Takes (Evolves fun _ => True) m (Action.defineClass path bytes) _ :=
        Action.takes_defineClass hplain path fun _ _ _ _ => trivial
      exact ClassTable.exists_get?_of_lt (htakes.of_eq hrun).2
    · have htakes := Action.takes_resolve (m := m) hplain path name
      exact ClassTable.exists_get?_of_lt (htakes.of_eq hrun).2
    · have htakes : Action.Takes (Evolves fun _ => True) m (Action.arrayClass component) _ :=
        Action.takes_arrayClass component
      obtain ⟨cls, hc, _⟩ := (htakes.of_eq hrun).2
      exact ⟨cls, hc⟩
  · intro m' hlater
    exact extends_of_steps (hlater.steps hplain hw)
  · intro W p t c w
    exact initializeClass_eq_initializeNamed hw.classes.founded p t c w

/-- A machine in which a class was loaded with its supertypes and an array class was made over it,
while a circular class and a file without contents were refused. -/
def hierarchyMachine : Machine :=
  [Operation.resolve "A", .resolve "X", .define [], .arrayClass ⟨28⟩].foldl
    (fun m op => (op.run hierarchyPath m).2) {}

theorem reachable_hierarchyMachine : hierarchyMachine.Reachable hierarchyPath fun _ => True := by
  have hnew : Reachable hierarchyPath (fun _ => True) {} := reachable_new
  have hA := hnew.operation (.resolve "A") trivial
  have hX := hA.operation (.resolve "X") trivial
  have hempty := hX.operation (.define []) fun _ _ _ _ => trivial
  exact hempty.operation (.arrayClass ⟨28⟩) trivial

/-- The array class refers to the class `A`, which was entered before it, and goes on doing so
whatever happens later; nothing is left of the circular class. -/
theorem class_table_ordered_hierarchyMachine :
    hierarchyMachine.classes.nameIndex "[LA;" = some ⟨29⟩ ∧
      hierarchyMachine.classes.nameIndex "A" = some ⟨28⟩ ∧
      hierarchyMachine.classes.nameIndex "X" = none ∧
      ∀ m', hierarchyMachine.Later hierarchyPath (fun _ => True) m' →
        m'.classes.RefersTo ⟨29⟩ ⟨28⟩ := by
  have harray : (hierarchyMachine.classes.get? ⟨29⟩).map (fun c => (c.name, c.kind)) =
      some ("[LA;", .array .reference ⟨28⟩) := by decide +kernel
  have htop : (hierarchyMachine.classes.get? ⟨28⟩).map Class.name = some "A" := by decide +kernel
  have hloop : hierarchyMachine.classes.find? "X" = none := by decide +kernel
  obtain ⟨cls, hc, hcls⟩ := Option.map_eq_some_iff.mp harray
  obtain ⟨hname, hkind⟩ := Prod.mk.inj hcls
  obtain ⟨hordered, _, hlasting, _⟩ := class_table_ordered reachable_hierarchyMachine
  refine ⟨?_, ?_, ?_, ?_⟩
  · exact (hordered.indexed _ _).mpr ⟨cls, hc, hname⟩
  · exact (hordered.indexed _ _).mpr (Option.map_eq_some_iff.mp htop)
  · rw [← hordered.found]
    exact hloop
  · intro m' hlater
    obtain ⟨cls', hc', hfixed⟩ := hlasting m' hlater ⟨29⟩ cls hc
    have hkind' : cls'.kind = .array .reference ⟨28⟩ :=
      (Class.eq_of_fixed hfixed Class.kind fun _ => rfl).trans hkind
    exact .component hc' hkind'

end Machine

end JavaMachine
