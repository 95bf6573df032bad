/-
# What operations do at the bottom

However an operation is put together, what it does to classes, objects and interned strings goes back
to seven kinds of change: classes are added, or change in their own state; an object is added that
refers to nothing; a string is added and interned; a field, an element, a range of elements or a range
of bytes is written.  Monitors are left alone.  A relation between machines that all of these keep to
(`Machine.Allows`) is kept by every operation that is no collection (`Action.follows_operation`).  Only
the elements that resolving a stack trace fills an array with are a matter of their own.
-/
import JavaMachine.Proofs.Operations

namespace JavaMachine

/-! ## References in a body -/

/-- The references that a body holds. -/
def Body.references : Body → List (Option ObjectRef)
  | .fields _ refs => refs
  | .array (.references slots) => slots
  | _ => []

/-- The body refers to no object. -/
def Body.Blank (b : Body) : Prop := ∀ x ∈ b.references, x = none

/-- A new instance refers to nothing. -/
theorem Body.blank_ofLayout (l : Layout) : (Body.ofLayout l).Blank :=
  fun _ hx => (List.mem_replicate.mp hx).2

/-- A new array refers to nothing. -/
theorem Body.blank_zeroed (t : Tag) (n : Nat) : (Body.array (.zeroed t n)).Blank := by
  intro x hx
  cases t with
  | primitive p => exact absurd hx List.not_mem_nil
  | reference => exact (List.mem_replicate.mp hx).2

/-- A body with the same references as one that refers to nothing does not either. -/
theorem Body.Blank.of_eq {b b' : Body} (h : b.Blank) (heq : b'.references = b.references) :
    b'.Blank := by
  intro x hx
  rw [heq] at hx
  exact h x hx

/-- A body without slots for references refers to nothing. -/
theorem Body.blank_of_references_eq_nil {b : Body} (h : b.references = []) : b.Blank := by
  intro x hx
  rw [h] at hx
  exact absurd hx List.not_mem_nil

/-- An array class is found or added with no other class changed. -/
theorem ClassTable.extends_of_arrayClass {t : ClassTable} {component : ClassId}
    {found : ClassTable × ClassId} (h : t.arrayClass component = .ok found) :
    t.Extends found.1 := by
  obtain ⟨_, _, _, _, _, ⟨_, ht⟩ | ⟨_, ht, _⟩⟩ := arrayClass_eq_ok h
  · exact ht ▸ Extends.refl t
  · exact ht ▸ extends_push t _

/-! ## Relations that operations keep to -/

/-- A relation that every change at the bottom of an operation keeps to. -/
structure Machine.Allows (Rel : Machine → Machine → Prop) : Prop where
  classes : ∀ {m m' : Machine}, m'.heap = m.heap → m'.interned = m.interned →
    m'.monitors = m.monitors → m.classes.Extends m'.classes → Rel m m'
  allocate : ∀ (m : Machine) (owner : ClassId) {body : Body}, body.Blank →
    Rel m { m with heap := (m.heap.allocate owner body).1 }
  intern : ∀ (m : Machine) (s : String), m.interned.get? s = none →
    Rel m { m with
      heap := (m.heap.allocate .string (.string s)).1
      interned := m.interned.insert s (m.heap.allocate .string (.string s)).2 }
  setField : ∀ {m m' : Machine} {f : Field} {target : Option ObjectRef} {v : Value},
    m.setField f target v = .ok m' → Rel m m'
  arrayStore : ∀ {m m' : Machine} {array : Option ObjectRef} {index : Int32} {v : Value},
    m.arrayStore array index v = .ok m' → Rel m m'
  arrayCopy : ∀ {m m' : Machine} {src dst : Option ObjectRef} {srcPos dstPos count : Int32},
    m.arrayCopy src srcPos dst dstPos count = .ok m' → Rel m m'
  writeBytes : ∀ {m m' : Machine} {buffer : ObjectRef} {offset : Int32} {bytes : Bytes},
    Builtin.writeBytes m buffer offset bytes = .ok m' → Rel m m'

namespace Action

/-- From a state, the computation comes to a related one. -/
abbrev Follows {α : Type} (Rel : Machine → Machine → Prop) (m : Machine) (a : Action α) : Prop :=
  Takes Rel m a fun _ _ => True

section Relation

variable {Rel : Machine → Machine → Prop} {m : Machine} {resolver : String → Action ClassId}

section Bottom

variable (hR : Machine.Allows Rel)
include hR

/-- What is no object, no interned string and no monitor may change, and the class table may grow. -/
theorem follows_modify {g : Machine → Machine} (hheap : (g m).heap = m.heap)
    (hinterned : (g m).interned = m.interned) (hmonitors : (g m).monitors = m.monitors)
    (hclasses : m.classes.Extends (g m).classes) : Follows Rel m (modify g) :=
  takes_modify (hR.classes hheap hinterned hmonitors hclasses) trivial

/-- What is no class, no object, no interned string and no monitor may change at will. -/
theorem follows_elsewhere {g : Machine → Machine} (hheap : (g m).heap = m.heap)
    (hinterned : (g m).interned = m.interned) (hmonitors : (g m).monitors = m.monitors)
    (hclasses : (g m).classes = m.classes) : Follows Rel m (modify g) :=
  follows_modify hR hheap hinterned hmonitors (hclasses ▸ .refl _)

/-- A new object that refers to nothing is one of the changes. -/
theorem follows_allocate (owner : ClassId) {body : Body} (hblank : body.Blank) :
    Follows Rel m (allocate owner body) :=
  ⟨hR.allocate m owner hblank, fun _ _ => trivial⟩

/-- An object without slots for references is added. -/
theorem follows_allocate_flat (owner : ClassId) {body : Body} (h : body.references = []) :
    Follows Rel m (allocate owner body) :=
  follows_allocate hR owner (Body.blank_of_references_eq_nil h)

/-- A new string refers to nothing. -/
theorem follows_newString (s : String) : Follows Rel m (newString s) :=
  follows_allocate_flat hR _ rfl

end Bottom

variable [IsPreorder Machine Rel]

/-! ## Reading and going on -/

/-- What is read before does not change the state. -/
theorem follows_lift_bind {α β : Type} {r : Except Stop α} {f : α → Action β}
    (h : ∀ x, Follows Rel m (f x)) : Follows Rel m (liftM r >>= f) :=
  takes_lift_bind fun x _ => h x

/-- A check changes nothing. -/
theorem follows_liftThrowable_bind {α β : Type} {r : Except Throwable α} {f : α → Action β}
    (h : ∀ x, Follows Rel m (f x)) : Follows Rel m (liftM r >>= f) :=
  takes_liftThrowable_bind fun x _ => h x

/-- One computation and then another one, whatever the result of the first is. -/
theorem Follows.bind {α β : Type} {a : Action α} {f : α → Action β} (ha : Follows Rel m a)
    (hf : ∀ x m', Follows Rel m' (f x)) : Follows Rel m (a >>= f) :=
  Takes.bind ha fun x m' _ _ => hf x m'

/-- A computation whose result is put in another form. -/
theorem Follows.bind_pure {α β : Type} {a : Action α} {g : α → β} (ha : Follows Rel m a) :
    Follows Rel m (a >>= fun x => pure (g x)) :=
  ha.bind fun _ _ => takes_pure trivial

/-- Computations for the items of a list, one after the other. -/
theorem follows_mapM {α β : Type} {g : α → Action β} (l : List α)
    (hg : ∀ x m, Follows Rel m (g x)) : Follows Rel m (l.mapM g) :=
  takes_mapM (I := fun _ => True) l (fun x m _ => hg x m) trivial

variable (hR : Machine.Allows Rel)
include hR

/-! ## Making objects -/

/-- A string is interned as it is added. -/
theorem follows_intern (s : String) : Follows Rel m (intern s) := by
  refine takes_get_bind ?_
  split
  · exact takes_pure trivial
  · next hnone => exact ⟨hR.intern m s hnone, fun _ _ => trivial⟩

/-- A box refers to nothing. -/
theorem follows_box (v : Value) : Follows Rel m (box v) := by
  unfold box
  cases v.tag with
  | reference => exact takes_pure trivial
  | primitive p => exact (follows_allocate_flat hR _ rfl).bind_pure

/-- A new instance has all its references null. -/
theorem follows_newInstance (c : ClassId) : Follows Rel m (newInstance c) := by
  refine takes_get_bind (follows_lift_bind fun cls => ?_)
  exact takes_check fun _ => follows_allocate hR _ (Body.blank_ofLayout _)

/-- An array class that is made is a class that is added. -/
theorem follows_arrayClass (component : ClassId) : Follows Rel m (arrayClass component) := by
  refine takes_get_bind (takes_lift_bind fun found hfound => ?_)
  have hext : m.classes.Extends found.1 := ClassTable.extends_of_arrayClass hfound
  exact (follows_modify hR rfl rfl rfl hext).bind_pure

/-- A new array has all its references null. -/
theorem follows_newArray (component : ClassId) (length : Int32) :
    Follows Rel m (newArray component length) := by
  unfold newArray
  dsimp only
  refine takes_check fun _ => takes_get_bind (follows_lift_bind fun _ => takes_check fun _ => ?_)
  refine (follows_arrayClass hR component).bind fun c m₁ => ?_
  refine takes_get_bind (follows_lift_bind fun cls => ?_)
  exact follows_allocate hR _ (Body.blank_zeroed _ _)

/-- The object of a class is noted in the state of the class. -/
theorem follows_classObject (c : ClassId) : Follows Rel m (classObject c) := by
  refine takes_get_bind (follows_lift_bind fun cls => ?_)
  split
  · exact takes_pure trivial
  · refine (follows_allocate_flat hR _ rfl).bind fun r m₁ => ?_
    refine Follows.bind_pure (follows_modify hR rfl rfl rfl ?_)
    exact ClassTable.extends_update fun _ => rfl

/-- A thread without an object gets a new instance. -/
theorem follows_attach (peer : Option ObjectRef) : Follows Rel m (attach peer) := by
  unfold attach
  cases peer with
  | some r => exact takes_modifyGet (hR.classes rfl rfl rfl (.refl _)) trivial
  | none =>
    refine takes_get_bind (follows_lift_bind fun cls => ?_)
    refine (follows_allocate hR _ (Body.blank_ofLayout _)).bind fun r m₁ => ?_
    exact takes_modifyGet (hR.classes rfl rfl rfl (.refl _)) trivial

/-! ## Defining and resolving -/

/-- The value of a constant may be a string that is interned. -/
theorem follows_constantValue (pool : ConstantPool) (index : UInt16) (t : Tag) :
    Follows Rel m (constantValue pool index t) := by
  refine follows_liftThrowable_bind fun c => ?_
  split
  · exact follows_liftThrowable_bind fun s => (follows_intern hR s).bind_pure
  · split
    · exact takes_pure trivial
    · exact takes_raise _

theorem follows_planField (pool : ConstantPool) (owner : ClassId) (plan : FieldPlan)
    (info : MemberInfo) : Follows Rel m (planField pool owner plan info) := by
  refine follows_liftThrowable_bind fun name => follows_liftThrowable_bind fun descriptor => ?_
  refine follows_liftThrowable_bind fun tag => ?_
  dsimp only
  split
  · refine Follows.bind_pure ?_
    unfold initialSlot
    split
    · exact takes_pure trivial
    · exact (follows_constantValue hR ..).bind_pure
  · exact takes_pure trivial

omit hR in
/-- A superclass is resolved, if there is one. -/
theorem follows_superclassOf {cf : ClassFile} {name : String}
    (hres : ∀ n m, Follows Rel m (resolver n)) : Follows Rel m (superclassOf resolver cf name) :=
  (takes_superclassOf_of (Q := fun _ _ _ => True) hres).mono fun _ _ _ _ => trivial

/-- A class is built from its supertypes and its members. -/
theorem follows_build {cf : ClassFile} {name : String}
    (hres : ∀ n m, Follows Rel m (resolver n)) : Follows Rel m (build resolver cf name) := by
  refine (follows_superclassOf hres).bind fun superclass m₁ => ?_
  refine follows_liftThrowable_bind fun names => ?_
  refine (follows_mapM names hres).bind fun interfaces m₂ => takes_get_bind ?_
  refine Follows.bind ?_ fun plan m₃ => ?_
  · exact takes_foldlM cf.fields (fun plan info m _ => follows_planField hR ..) trivial
  refine Follows.bind ?_ fun methods m₄ => ?_
  · exact follows_mapM cf.methods fun info m => takes_liftThrowable fun _ _ => trivial
  refine follows_liftThrowable_bind fun sourceFile => takes_get_bind (takes_liftThrowable_bind ?_)
  rintro ⟨classes, c⟩ hdefine
  obtain ⟨_, rfl, rfl⟩ := ClassTable.define_eq_ok hdefine
  exact (follows_modify hR rfl rfl rfl (ClassTable.extends_push _ _)).bind_pure

/-- What is being defined is noted outside of classes and objects. -/
theorem follows_whileDefining {α : Type} {name : String} {a : Action α}
    (ha : ∀ m, Follows Rel m a) : Follows Rel m (whileDefining name a) := by
  refine takes_get_bind (takes_check fun _ => ?_)
  refine (follows_elsewhere hR rfl rfl rfl rfl).bind fun _ m₁ => ?_
  exact (ha m₁).andFinally (fun _ _ => hR.classes rfl rfl rfl (.refl _)) fun _ _ _ _ => trivial

/-- A definition adds the class that it has built. -/
theorem follows_define {bytes : Bytes} {expected : Option String}
    (hres : ∀ n m, Follows Rel m (resolver n)) :
    Follows Rel m (define resolver bytes expected) := by
  exact takes_define_of fun cf name _ _ _ => follows_whileDefining hR fun m => follows_build hR hres

/-- Loading is defining what is found. -/
theorem follows_load {path : ClassPath} {name : String}
    (hres : ∀ n m, Follows Rel m (resolver n)) : Follows Rel m (load resolver path name) := by
  exact takes_load_of (fun bytes _ => follows_define hR hres) fun _ _ _ => trivial

/-- By induction on the bound, resolution keeps to what definitions keep to. -/
theorem follows_resolve (path : ClassPath) (name : String) : Follows Rel m (resolve path name) :=
  takes_resolveWithin_of (Q := fun _ _ _ => True) (fun _ _ _ _ => trivial)
    (fun _ c _ _ => follows_arrayClass hR c) (fun _ _ _ hres _ => follows_load hR hres) _ name

/-- The supertypes of a class are resolved while it is being defined. -/
theorem follows_defineClass (path : ClassPath) (bytes : Bytes) :
    Follows Rel m (defineClass path bytes) :=
  follows_define hR fun n _ => follows_resolve hR path n

/-- The range is copied into scratch space, which is no object. -/
theorem follows_defineRange (path : ClassPath) (array : Option ObjectRef) (offset length : Int32) :
    Follows Rel m (defineRange path array offset length) := by
  refine takes_get_bind (follows_lift_bind fun bytes => ?_)
  refine (follows_elsewhere hR rfl rfl rfl rfl).bind fun _ m₁ => ?_
  exact (follows_defineClass hR path bytes).andFinally (fun _ _ => hR.classes rfl rfl rfl (.refl _))
    fun _ _ _ _ => trivial

/-! ## Native methods -/

/-- Reading a field boxes a value at most. -/
theorem follows_fieldGet (args : Arguments) : Follows Rel m (Builtin.fieldGet args) := by
  refine follows_liftThrowable_bind fun r => takes_get_bind (follows_lift_bind fun f => ?_)
  refine follows_liftThrowable_bind fun target => takes_get_bind (follows_lift_bind fun v => ?_)
  exact follows_box hR v

/-- Setting a field writes the field. -/
theorem follows_fieldSet (args : Arguments) : Follows Rel m (Builtin.fieldSet args) := by
  refine follows_liftThrowable_bind fun r => takes_get_bind (follows_lift_bind fun f => ?_)
  refine follows_liftThrowable_bind fun target => follows_liftThrowable_bind fun v => ?_
  exact Follows.bind_pure (takes_updating fun _ h => hR.setField h)

/-- Loading an element boxes a value at most. -/
theorem follows_arrayGet (args : Arguments) : Follows Rel m (Builtin.arrayGet args) := by
  refine follows_liftThrowable_bind fun array => follows_liftThrowable_bind fun index => ?_
  exact takes_get_bind (follows_lift_bind fun v => follows_box hR v)

/-- Storing an element writes the element. -/
theorem follows_arraySet (args : Arguments) : Follows Rel m (Builtin.arraySet args) := by
  refine follows_liftThrowable_bind fun array => follows_liftThrowable_bind fun index => ?_
  refine follows_liftThrowable_bind fun v => ?_
  exact Follows.bind_pure (takes_updating fun _ h => hR.arrayStore h)

omit hR in
theorem follows_arrayGetLength (args : Arguments) :
    Follows Rel m (Builtin.arrayGetLength args) := by
  refine follows_liftThrowable_bind fun array => takes_get_bind (follows_lift_bind fun n => ?_)
  exact takes_pure trivial

/-- Making an array is making its class, and then the array. -/
theorem follows_arrayMake (args : Arguments) : Follows Rel m (Builtin.arrayMake args) := by
  refine follows_liftThrowable_bind fun r => takes_get_bind (follows_lift_bind fun c => ?_)
  exact follows_liftThrowable_bind fun length => (follows_newArray hR c length).bind_pure

/-- Copying writes a range of elements. -/
theorem follows_systemArrayCopy (args : Arguments) :
    Follows Rel m (Builtin.systemArrayCopy args) := by
  refine follows_liftThrowable_bind fun src => follows_liftThrowable_bind fun srcPos => ?_
  refine follows_liftThrowable_bind fun dst => follows_liftThrowable_bind fun dstPos => ?_
  refine follows_liftThrowable_bind fun count => ?_
  exact Follows.bind_pure (takes_updating fun _ h => hR.arrayCopy h)

/-- Reading a resource into a buffer writes a range of bytes. -/
theorem follows_readInto (args : Arguments) : Follows Rel m (Builtin.resourceReadInto args) := by
  refine follows_liftThrowable_bind fun number => takes_get_bind ?_
  refine follows_liftThrowable_bind fun data => follows_liftThrowable_bind fun position => ?_
  refine follows_liftThrowable_bind fun buffer => follows_liftThrowable_bind fun offset => ?_
  refine follows_liftThrowable_bind fun length => ?_
  dsimp only
  split
  · exact takes_pure trivial
  · exact Follows.bind_pure (takes_updating fun _ h => hR.writeBytes h)

/-- Resolving a stack trace keeps to the relation, if filling arrays does. -/
theorem follows_resolveTrace_of {args : Arguments}
    (hfill : ∀ array refs m, Follows Rel m (Builtin.fillArray array refs)) :
    Follows Rel m (Builtin.throwableResolveTrace args) := by
  refine follows_liftThrowable_bind fun r => takes_get_bind (follows_lift_bind fun o => ?_)
  split
  · refine follows_lift_bind fun lines => (follows_newArray hR _ _).bind fun array m₁ => ?_
    refine Follows.bind ?_ fun refs m₂ => (hfill array _ m₂).bind_pure
    exact follows_mapM lines fun _ _ => follows_allocate_flat hR _ rfl
  · exact takes_raise _

/-- An operation that is no collection keeps to the relation, if resolving a stack trace does. -/
theorem follows_operation (path : ClassPath) (op : Operation)
    (htrace : ∀ args, op = .resolveTrace args → Follows Rel m (Builtin.throwableResolveTrace args))
    (hcollect : ∀ t keep, op ≠ .collect t keep) : Follows Rel m (op.run path) := by
  cases op with
  | define bytes => exact (follows_defineClass hR path bytes).discard
  | defineRange array offset length => exact (follows_defineRange hR ..).discard
  | resolve name => exact (follows_resolve hR path name).discard
  | arrayClass component => exact (follows_arrayClass hR component).discard
  | classObject c => exact (follows_classObject hR c).discard
  | startInitialization c =>
    exact follows_modify hR rfl rfl rfl (ClassTable.extends_update fun _ => rfl)
  | newInstance c => exact (follows_newInstance hR c).discard
  | newArray component length => exact (follows_newArray hR component length).discard
  | newString s => exact (follows_newString hR s).discard
  | intern s => exact (follows_intern hR s).discard
  | box v => exact (follows_box hR v).discard
  | fieldObject f => exact (follows_allocate_flat hR _ rfl).discard
  | methodObject x => exact (follows_allocate_flat hR _ rfl).discard
  | attach peer => exact (follows_attach hR peer).discard
  | captureTrace frames => exact (follows_allocate_flat hR _ rfl).discard
  | setField f target v => exact takes_updating fun _ h => hR.setField h
  | arrayStore array index v => exact takes_updating fun _ h => hR.arrayStore h
  | arrayCopy src srcPos dst dstPos count => exact takes_updating fun _ h => hR.arrayCopy h
  | fieldGet args => exact (follows_fieldGet hR args).discard
  | fieldSet args => exact (follows_fieldSet hR args).discard
  | arrayGet args => exact (follows_arrayGet hR args).discard
  | arraySet args => exact (follows_arraySet hR args).discard
  | arrayGetLength args => exact (follows_arrayGetLength args).discard
  | arrayMake args => exact (follows_arrayMake hR args).discard
  | systemArrayCopy args => exact (follows_systemArrayCopy hR args).discard
  | resolveTrace args => exact (htrace args rfl).discard
  | readInto args => exact (follows_readInto hR args).discard
  | collect t keep => exact absurd rfl (hcollect t keep)

end Relation

end Action

end JavaMachine
