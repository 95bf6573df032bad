/-
# Initializing a class

What `initializeClass` does with one class: nothing if the class has no initializer or was begun
before, and otherwise it begins the class, initializes its superclass and runs its initializer.
-/
import JavaMachine.Machine.Reflection
import JavaMachine.Proofs.Subtyping

namespace JavaMachine

/-! ## Initializers of classes -/

namespace ClassTable

/-- The method that initialization runs for a class. -/
def initializer? (t : ClassTable) (c : ClassId) : Option Method :=
  (t.get? c).bind (·.method? initializerName "()V")

/-- Whether a class is one that initialization begins. -/
def needsInit (t : ClassTable) (c : ClassId) : Bool := (t.get? c).any (·.needsInit)

variable {named : String → Prop} {t t' : ClassTable} {c : ClassId}

/-- Only a class that is there is started. -/
theorem lt_size_of_isStarted (h : t.isStarted c = true) : c.index < t.size := by
  obtain ⟨cls, hc, _⟩ := exists_get?_of_isStarted h
  exact lt_size_of_get? hc

/-- Only a class that is there needs its initializer. -/
theorem lt_size_of_needsInit (h : t.needsInit c = true) : c.index < t.size := by
  unfold needsInit at h
  cases hc : t.get? c with
  | none =>
    rw [hc] at h
    cases h
  | some cls => exact lt_size_of_get? hc

/-- The initializer of a class stays the same. -/
theorem Extends.initializer? (h : t.Extends t') (hc : c.index < t.size) :
    t'.initializer? c = t.initializer? c := by
  unfold ClassTable.initializer?
  rcases h.agreesOn.get? hc with ⟨hx, hy⟩ | ⟨x, y, hx, hy, he⟩
  · rw [hx, hy]
  · rw [hx, hy, Option.bind_some, Option.bind_some,
      Class.eq_of_fixed he (·.method? initializerName "()V") fun _ => rfl]

theorem Extends.needsInit (h : t.Extends t') (hc : c.index < t.size) :
    t'.needsInit c = t.needsInit c := by
  unfold ClassTable.needsInit
  rcases h.agreesOn.get? hc with ⟨hx, hy⟩ | ⟨x, y, hx, hy, he⟩
  · rw [hx, hy]
  · rw [hx, hy, Option.any_some, Option.any_some, Class.eq_of_fixed he Class.needsInit fun _ => rfl]

theorem methods_of_mem_bootstrapClasses : ∀ b ∈ bootstrapClasses, b.methods = [] := by
  decide +kernel

/-- A class with a method is one that a file defines. -/
theorem WellFormed.linked_of_mem_methods (h : t.WellFormed named) {cls : Class}
    (hc : t.get? c = some cls) {x : Method} (hx : x ∈ cls.methods) : t.Linked c cls := by
  cases h.origin c cls hc with
  | bootstrap hb hfixed =>
    rw [Class.eq_of_fixed hfixed Class.methods fun _ => rfl,
      methods_of_mem_bootstrapClasses _ (mem_of_get?_bootstrap hb)] at hx
    exact absurd hx List.not_mem_nil
  | array hcomp hshape hfixed =>
    rw [Class.eq_of_fixed (d := arrayClassOf ..) hfixed Class.methods fun _ => rfl] at hx
    exact absurd hx List.not_mem_nil
  | file hlinked hnamed => exact hlinked

/-- A class with an initializer is one that initialization begins, and the initializer is its own. -/
theorem WellFormed.needsInit_of_initializer? (h : t.WellFormed named) {x : Method}
    (hx : t.initializer? c = some x) : t.needsInit c = true ∧ x.owner = c := by
  obtain ⟨cls, hc, hfind⟩ := Option.bind_eq_some_iff.mp hx
  have hmem : x ∈ cls.methods := List.mem_of_find?_eq_some hfind
  have hname := List.find?_some hfind
  have hlinked := h.linked_of_mem_methods hc hmem
  refine ⟨?_, hlinked.owned x hmem⟩
  have hany : cls.methods.any (·.name = initializerName) = true := by
    rw [List.any_eq_true]
    refine ⟨x, hmem, ?_⟩
    simp only [decide_eq_true_eq] at hname ⊢
    exact hname.1
  rw [needsInit, hc, Option.any_some, hlinked.marked]
  exact hany

/-- In a new machine no class was begun. -/
theorem isStarted_bootstrap (c : ClassId) : bootstrap.isStarted c = false := by
  have hnone : ∀ b ∈ bootstrapClasses, b.initStarted = false := by decide +kernel
  unfold isStarted
  cases hc : bootstrap.get? c with
  | none => rfl
  | some b => exact hnone b (mem_of_get?_bootstrap hc)

end ClassTable

/-! ## Initializing one class -/

/-- The table in which the initialization of a class was begun. -/
def ClassTable.begin (t : ClassTable) (c : ClassId) : ClassTable :=
  t.update c ({ · with initStarted := true })

/-- The machine in which the initialization of a class was begun. -/
def Machine.begin (m : Machine) (c : ClassId) : Machine := { m with classes := m.classes.begin c }

section InitializeClass

variable {W : Type} {p : Platform W} {t : ThreadId} {c : ClassId} {m : Machine} {w : W}

/-- Initializes the superclass of a class, if there is one. -/
def initializeSuper (p : Platform W) (t : ThreadId) (classes : ClassTable) (c : ClassId) :
    Exec W Unit :=
  match classes.superclass? c with
  | some s => initializeClass p t s.1
  | none => pure ()

/-- Runs the initializer of a class, if there is one. -/
def runInitializer (p : Platform W) (t : ThreadId) (classes : ClassTable) (c : ClassId) :
    Exec W Unit :=
  match classes.initializer? c with
  | some x => discard (p.invoke t x none [])
  | none => pure ()

/-- A class that is not there is a broken invariant. -/
theorem run_initializeClass_unknown (h : m.classes.get? c = none) :
    initializeClass p t c (m, w) = (.error (.broken (.unknownClass c)), m, w) := by
  have hget : m.classes.get c = .error (.broken (.unknownClass c)) := by
    unfold ClassTable.get
    rw [h]
  rw [initializeClass, run_bind]
  show (liftM (m.classes.get c) >>= _ : Exec W Unit) (m, w) = _
  rw [hget]
  rfl

/-- A class without an initializer, or one that was begun before, is left alone. -/
theorem run_initializeClass_skip {cls : Class} (hc : m.classes.get? c = some cls)
    (h : (cls.needsInit && !cls.initStarted) = false) :
    initializeClass p t c (m, w) = (.ok (), m, w) := by
  have hget := ClassTable.get_eq_ok_iff.mpr hc
  rw [initializeClass, run_bind]
  show (liftM (m.classes.get c) >>= _ : Exec W Unit) (m, w) = _
  rw [hget]
  show (if (cls.needsInit && !cls.initStarted) = true then _ else _ : Exec W Unit) (m, w) = _
  rw [h]
  rfl

/-- Any other class is begun, and then its superclass comes before its own initializer. -/
theorem run_initializeClass {cls : Class} (hc : m.classes.get? c = some cls)
    (h : (cls.needsInit && !cls.initStarted) = true) :
    initializeClass p t c (m, w) =
      (initializeSuper p t m.classes c >>= fun _ => runInitializer p t m.classes c)
        (m.begin c, w) := by
  have hget := ClassTable.get_eq_ok_iff.mpr hc
  have hx : m.classes.initializer? c = cls.method? initializerName "()V" := by
    unfold ClassTable.initializer?
    rw [hc, Option.bind_some]
  unfold initializeSuper runInitializer
  rw [initializeClass, run_bind, hx]
  show (liftM (m.classes.get c) >>= _ : Exec W Unit) (m, w) = _
  rw [hget]
  show (if (cls.needsInit && !cls.initStarted) = true then _ else _ : Exec W Unit) (m, w) = _
  rw [h]
  cases m.classes.superclass? c with
  | some s => rfl
  | none => rfl

end InitializeClass

namespace ClassTable

variable {t : ClassTable} {c : ClassId}

/-- Noting that an initialization has begun changes nothing that is fixed. -/
theorem extends_begin (t : ClassTable) (c : ClassId) : t.Extends (t.begin c) :=
  extends_update fun _ => rfl

/-- The classes that were begun are those from before, and the one that was begun last. -/
theorem isStarted_begin (hc : c.index < t.size) (d : ClassId) :
    (t.begin c).isStarted d = true ↔ d = c ∨ t.isStarted d = true := by
  unfold isStarted begin
  rw [get?_update]
  by_cases hdc : d = c
  · obtain ⟨cls, hcls⟩ := exists_get?_of_lt hc
    rw [if_pos hdc, hdc, hcls]
    simp
  · rw [if_neg hdc]
    simp [hdc]

end ClassTable

end JavaMachine
