/-
# Classes that definitions add

A definition reads its whole class before it touches the table: supertypes are resolved, fields are
planned and methods are read first, and then the class is added in one go
(`Action.build_eq_readClass`).  So a table never has a class that is partly defined.  What a
definition or a resolution adds on its way is an array class over a class that is there, or a class
that has everything its file says (`ClassTable.Completed`), and nothing that was in the table changes
(`Machine.Adds`).

A class whose definition is under way is not among those that are added, since its name is refused
wherever it is met again.  A definition that fails therefore leaves no class of its own behind
(`Action.find?_of_failed_definition`).
-/
import JavaMachine.Proofs.Circularity

namespace JavaMachine

namespace ClassTable

variable {t t' : ClassTable} {c : ClassId} {cls : Class}

/-! ## Tables that get more classes -/

/-- Every class of a table is in another one, just as it is. -/
def Keeps (t t' : ClassTable) : Prop := ∀ c cls, t.get? c = some cls → t'.get? c = some cls

theorem Keeps.refl (t : ClassTable) : t.Keeps t := fun _ _ h => h

/-- Classes that are kept twice are kept. -/
theorem Keeps.trans {t'' : ClassTable} (h : t.Keeps t') (h' : t'.Keeps t'') : t.Keeps t'' :=
  fun c cls hc => h' c cls (h c cls hc)

/-- A table that keeps its classes as they are extends itself. -/
theorem Keeps.extends (h : t.Keeps t') : t.Extends t' := fun c cls hc => ⟨cls, h c cls hc, rfl⟩

/-- A class that is added comes behind the others. -/
theorem keeps_push (t : ClassTable) (cls : Class) : t.Keeps (t.push cls) := by
  intro c d hc
  rw [get?_push_of_lt (lt_size_of_get? hc)]
  exact hc

/-- A class that is added is found by no name but its own. -/
theorem find?_push_of_ne {name : String} (h : cls.name ≠ name) :
    (t.push cls).find? name = t.find? name := by
  cases hfind : t.find? name with
  | none => exact find?_push_eq_none_iff.mpr ⟨hfind, h⟩
  | some c => exact (extends_push t cls).find? hfind

/-! ## Classes that are completely defined -/

/-- A class of the table that a name stands for.  Only a plain name is always that of its class. -/
def Named (t : ClassTable) (name : String) (c : ClassId) : Prop :=
  ∃ cls, t.get? c = some cls ∧ (PlainName name → cls.name = name)

/-- A name goes on standing for its class. -/
theorem Named.of_keeps {name : String} (h : t.Named name c) (hk : t.Keeps t') :
    t'.Named name c := by
  obtain ⟨cls, hc, hname⟩ := h
  exact ⟨cls, hk c cls hc, hname⟩

/-- So does the superclass that a class file may name. -/
theorem Keeps.rel_named {name? : Option String} {c? : Option ClassId} (hk : t.Keeps t')
    (h : Option.Rel t.Named name? c?) : Option.Rel t'.Named name? c? := by
  cases h with
  | none => exact .none
  | some hnamed => exact .some (hnamed.of_keeps hk)

/-- A class that is found under a name has it. -/
theorem named_of_find? {name : String} (h : t.find? name = some c) : t.Named name c := by
  obtain ⟨cls, hc, hname⟩ := get?_of_find? h
  exact ⟨cls, hc, fun _ => hname⟩

end ClassTable

/-- A slot that a static field starts with: zero, a constant, or a string object. -/
inductive StartsWith (pool : ConstantPool) (info : MemberInfo) : Tag → Slot → Prop
  | zero {t : Tag} (h : info.constantValue? = none) : StartsWith pool info t (.zero t)
  | constant {index : UInt16} {c : Constant} {t : Tag} {v : Value}
      (h : info.constantValue? = some index) (hc : pool.get index = .ok c)
      (hv : constantFor? c t = some v) : StartsWith pool info t (.ofValue v)
  | string {index text : UInt16} {s : String} {r : ObjectRef}
      (h : info.constantValue? = some index) (hc : pool.get index = .ok (.string text))
      (hs : pool.text text = .ok s) : StartsWith pool info .reference (.ofValue (.ref r))

/-- A field as a class file declares it, among static fields that start with `statics`. -/
structure FieldFrom (pool : ConstantPool) (owner : ClassId) (statics : List Slot)
    (info : MemberInfo) (f : Field) : Prop where
  owner : f.owner = owner
  name : pool.text info.name = .ok f.name
  descriptor : pool.text info.descriptor = .ok f.descriptor
  tag : fieldTag f.descriptor = .ok f.tag
  flags : f.flags = info.flags
  start : f.isStatic = true → ∃ s, statics[f.offset]? = some s ∧ StartsWith pool info f.tag s

/-- A field has what a class file declares of it. -/
structure FieldDeclared (pool : ConstantPool) (owner : ClassId) (info : MemberInfo) (f : Field) :
    Prop where
  owner : f.owner = owner
  name : pool.text info.name = .ok f.name
  descriptor : pool.text info.descriptor = .ok f.descriptor
  tag : fieldTag f.descriptor = .ok f.tag
  flags : f.flags = info.flags

/-- A class that has everything its file says, and no state of its own yet. -/
structure ClassFrom (cf : ClassFile) (t : ClassTable) (c : ClassId) (cls : Class) : Prop where
  name : cf.className = .ok cls.name
  ordinary : cls.kind = .ordinary
  flags : cls.flags = cf.flags
  superclass : ∃ s, cf.superClassName? = .ok s ∧ s ≠ some cls.name ∧
    Option.Rel t.Named s cls.superclass
  interfaces : ∃ names, cf.interfaceNames = .ok names ∧ List.Forall₂ t.Named names cls.interfaces
  fields : List.Forall₂ (FieldFrom cf.pool c cls.statics) cf.fields cls.fields
  methods : List.Forall₂ (fun info x => methodOf cf.pool c info = .ok x) cf.methods cls.methods
  sourceFile : cf.sourceFile? = .ok cls.sourceFile
  unused : cls.initStarted = false ∧ cls.classObject = none

/-- A class that is completely defined: an array class over a class of the table, or the class of a
file.  `source` tells which files may be read for a name. -/
inductive ClassTable.Completed (source : String → ClassFile → Prop) (t : ClassTable) (c : ClassId)
    (cls : Class) : Prop
  | array {component : ClassId} {ccls : Class} {element : Tag} (hc : t.get? component = some ccls)
      (hshape : arrayShape? ccls = some (cls.name, element))
      (hcls : cls = arrayClassOf cls.name element component)
  | file {cf : ClassFile} (hsource : source cls.name cf) (hfrom : ClassFrom cf t c cls)

variable {source : String → ClassFile → Prop} {t t' : ClassTable} {c : ClassId}
  {cls : Class}

/-- A class that comes from a file still does among more classes. -/
theorem ClassFrom.of_keeps {cf : ClassFile} (h : ClassFrom cf t c cls) (hk : t.Keeps t') :
    ClassFrom cf t' c cls where
  name := h.name
  ordinary := h.ordinary
  flags := h.flags
  superclass := by
    obtain ⟨s, hs, hne, hrel⟩ := h.superclass
    exact ⟨s, hs, hne, hk.rel_named hrel⟩
  interfaces := by
    obtain ⟨names, hnames, hall⟩ := h.interfaces
    exact ⟨names, hnames, hall.imp fun _ _ hnamed => hnamed.of_keeps hk⟩
  fields := h.fields
  methods := h.methods
  sourceFile := h.sourceFile
  unused := h.unused

/-- A class that is complete stays so among more classes. -/
theorem ClassTable.Completed.of_keeps (h : t.Completed source c cls) (hk : t.Keeps t') :
    t'.Completed source c cls := by
  cases h with
  | array hc hshape hcls => exact .array (hk _ _ hc) hshape hcls
  | file hsource hfrom => exact .file hsource (hfrom.of_keeps hk)

/-! ## Machines that get more classes -/

namespace Machine

variable {m m' m'' : Machine}

/-- From one machine to another, completely defined classes are added, and none of a plain name whose
definition is under way. -/
structure Adds (source : String → ClassFile → Prop) (m m' : Machine) : Prop where
  keeps : m.classes.Keeps m'.classes
  defining : m'.defining = m.defining
  avoids : ∀ name ∈ m.defining, PlainName name →
    m'.classes.find? name = m.classes.find? name
  added : ∀ c cls, m'.classes.get? c = some cls → m.classes.size ≤ c.index →
    m'.classes.Completed source c cls

/-- The classes and the definitions under way are the same. -/
structure SameClasses (m m' : Machine) : Prop where
  classes : m'.classes = m.classes
  defining : m'.defining = m.defining

instance : IsPreorder Machine SameClasses where
  refl := fun _ => ⟨rfl, rfl⟩
  trans := fun _ _ _ h h' => ⟨h'.classes.trans h.classes, h'.defining.trans h.defining⟩

/-- Where no class was added, there is nothing to show. -/
theorem SameClasses.adds (h : m.SameClasses m') : m.Adds source m' where
  keeps := h.classes ▸ ClassTable.Keeps.refl _
  defining := h.defining
  avoids := fun _ _ _ => by rw [h.classes]
  added := by
    intro c cls hc hnew
    rw [h.classes] at hc
    have hlt := ClassTable.lt_size_of_get? hc
    omega

/-- The classes that are added in two goes are added. -/
theorem Adds.trans (h : m.Adds source m') (h' : m'.Adds source m'') : m.Adds source m'' where
  keeps := h.keeps.trans h'.keeps
  defining := h'.defining.trans h.defining
  avoids := by
    intro name hname hplain
    rw [h'.avoids name (h.defining ▸ hname) hplain, h.avoids name hname hplain]
  added := by
    intro c cls hc hnew
    by_cases hlt : c.index < m'.classes.size
    · obtain ⟨cls', hc'⟩ := ClassTable.exists_get?_of_lt hlt
      have hsame := h'.keeps c cls' hc'
      rw [hc, Option.some.injEq] at hsame
      rw [hsame]
      exact (h.added c cls' hc' hnew).of_keeps h'.keeps
    · exact h'.added c cls hc (Nat.le_of_not_lt hlt)

instance : IsPreorder Machine (Adds source) where
  refl := fun _ => SameClasses.adds ⟨rfl, rfl⟩
  trans := fun _ _ _ => Adds.trans

/-- One class is added that is completely defined and not under way. -/
theorem adds_push (hname : PlainName cls.name → cls.name ∉ m.defining)
    (hcompleted : (m.classes.push cls).Completed source m.classes.nextId cls) :
    m.Adds source { m with classes := m.classes.push cls } where
  keeps := ClassTable.keeps_push _ _
  defining := rfl
  avoids := by
    intro name hmem hplain
    apply ClassTable.find?_push_of_ne
    rintro rfl
    exact hname hplain hmem
  added := by
    intro c x hc hnew
    rcases ClassTable.get?_push_eq_some hc with ⟨rfl, rfl⟩ | hold
    · exact hcompleted
    · have hlt := ClassTable.lt_size_of_get? hold
      omega

/-- What is added while a class is under way is added by the definition of that class. -/
theorem Adds.leaving {name : String} (h : (m.entering name).Adds source m') :
    m.Adds source (m'.leaving name) where
  keeps := h.keeps
  defining := by
    show m'.defining.erase name = m.defining
    rw [h.defining]
    exact List.erase_cons_head ..
  avoids := fun k hk => h.avoids k (List.mem_cons_of_mem name hk)
  added := h.added

end Machine

/-- A field keeps its starting slot when more static fields follow. -/
theorem FieldFrom.append {pool : ConstantPool} {owner : ClassId} {statics : List Slot}
    {info : MemberInfo} {f : Field} (h : FieldFrom pool owner statics info f) (more : List Slot) :
    FieldFrom pool owner (statics ++ more) info f where
  owner := h.owner
  name := h.name
  descriptor := h.descriptor
  tag := h.tag
  flags := h.flags
  start := by
    intro hs
    obtain ⟨s, hget, hstart⟩ := h.start hs
    have hlt := (List.getElem?_eq_some_iff.mp hget).1
    refine ⟨s, ?_, hstart⟩
    rw [List.getElem?_append_left hlt]
    exact hget

namespace Action

variable {m : Machine} {cf : ClassFile} {name : String}

/-! ## Reading a class -/

/-- What leaves classes and definitions alone adds nothing. -/
theorem Takes.adds {α : Type} {a : Action α} {Q : α → Machine → Prop}
    (h : Takes Machine.SameClasses m a Q) :
    Takes (Machine.Adds source) m a fun x m' => m.SameClasses m' ∧ Q x m' :=
  ⟨h.1.adds, fun x hx => ⟨h.1, h.2 x hx⟩⟩

/-- Interning adds no class. -/
theorem keeps_intern (s : String) :
    Takes Machine.SameClasses m (intern s) fun _ _ => True := by
  refine takes_get_bind ?_
  split
  · exact takes_pure trivial
  · refine Takes.bind (Q := fun _ _ => True) (takes_modifyGet ⟨rfl, rfl⟩ trivial) ?_
    intro r m₁ _ _
    exact takes_modify_bind ⟨rfl, rfl⟩ (takes_pure trivial)

/-- The first value of a static field is that of its constant. -/
theorem keeps_initialSlot (pool : ConstantPool) (info : MemberInfo) (t : Tag) :
    Takes Machine.SameClasses m (initialSlot pool info t) fun s _ => StartsWith pool info t s := by
  unfold initialSlot
  split
  · next hnone => exact takes_pure (.zero hnone)
  · next index hindex =>
    refine Takes.bind (Q := fun v _ => StartsWith pool info t (.ofValue v)) ?_
      fun v m₁ _ hv => takes_pure hv
    unfold constantValue
    refine takes_liftThrowable_bind fun c hc => ?_
    have hc := formatError_eq_ok.mp hc
    split
    · refine takes_liftThrowable_bind fun s hs => ?_
      refine (keeps_intern s).bind fun r m₁ _ _ => ?_
      exact takes_pure (.string hindex hc (formatError_eq_ok.mp hs))
    · split
      · next v hv => exact takes_pure (.constant hindex hc hv)
      · exact takes_raise _

/-- A plan has one more field, as a class file declares it.  Where the field is static, `Q` holds of the
slot that it starts with. -/
structure PlansField (pool : ConstantPool) (owner : ClassId) (info : MemberInfo)
    (Q : Tag → Slot → Prop) (plan plan' : FieldPlan) (f : Field) : Prop
    extends FieldDeclared pool owner info f where
  fields : plan'.fields = plan.fields ++ [f]
  statics : ∃ more, plan'.statics = plan.statics ++ more
  slot : f.isStatic = true → ∃ s, plan'.statics[f.offset]? = some s ∧ Q f.tag s

/-- Planning a field adds it, with a slot as those of starting values are. -/
theorem takes_plansField {Rel : Machine → Machine → Prop} [IsPreorder Machine Rel]
    {pool : ConstantPool} {owner : ClassId} {plan : FieldPlan} {info : MemberInfo}
    {Q : Tag → Slot → Machine → Prop}
    (hslot : ∀ t, Takes Rel m (initialSlot pool info t) fun s m' => Q t s m') :
    Takes Rel m (planField pool owner plan info) fun plan' m' =>
      ∃ f, PlansField pool owner info (fun t s => Q t s m') plan plan' f := by
  unfold planField
  refine takes_liftThrowable_bind fun fieldName hname => ?_
  refine takes_liftThrowable_bind fun descriptor hdescriptor => ?_
  refine takes_liftThrowable_bind fun tag htag => ?_
  have hname := formatError_eq_ok.mp hname
  have hdescriptor := formatError_eq_ok.mp hdescriptor
  dsimp only
  split
  · refine (hslot tag).bind fun s m₁ _ hs => takes_pure ?_
    refine ⟨{ owner, name := fieldName, descriptor, tag, offset := plan.statics.length,
              flags := info.flags }, ⟨rfl, hname, hdescriptor, htag, rfl⟩, rfl, ⟨[s], rfl⟩,
      fun _ => ⟨s, ?_, hs⟩⟩
    -- The new slot is the last one, at the offset that the field has.
    exact List.getElem?_concat_length
  · next hs =>
    refine takes_pure ?_
    refine ⟨{ owner, name := fieldName, descriptor, tag,
              offset := (FieldPlan.place plan.layout tag).2, flags := info.flags }, ⟨rfl, hname, hdescriptor, htag, rfl⟩, rfl, ⟨[], ?_⟩,
      fun h => absurd h hs⟩
    exact (List.append_nil _).symm

/-- The plan of a class has a field for each one of the file that was taken. -/
def Planned (pool : ConstantPool) (owner : ClassId) (taken : List MemberInfo) (plan : FieldPlan) :
    Prop :=
  List.Forall₂ (FieldFrom pool owner plan.statics) taken plan.fields

/-- A field that is planned is taken into the plan, and adds no class. -/
theorem keeps_planField {pool : ConstantPool} {owner : ClassId} {taken : List MemberInfo}
    {plan : FieldPlan} {info : MemberInfo} (hplan : Planned pool owner taken plan) :
    Takes Machine.SameClasses m (planField pool owner plan info) fun plan' _ =>
      Planned pool owner (taken ++ [info]) plan' := by
  refine (takes_plansField (keeps_initialSlot pool info)).mono fun plan' m' _ ⟨f, hf⟩ => ?_
  obtain ⟨more, hmore⟩ := hf.statics
  unfold Planned
  rw [hf.fields]
  refine List.rel_append (hplan.imp fun _ _ hg => hmore ▸ hg.append more) (.cons ?_ .nil)
  exact ⟨hf.owner, hf.name, hf.descriptor, hf.tag, hf.flags, hf.slot⟩

/-- The class of a file with its supertypes resolved, before it is added to the table. -/
def readMembers (cf : ClassFile) (name : String) (superclass : Option ClassId)
    (interfaces : List ClassId) : Action Class := do
  let m ← get
  let owner := m.classes.nextId
  let inherited := ((superclass.bind m.classes.get?).map Class.layout).getD {}
  let plan ← cf.fields.foldlM (planField cf.pool owner) { layout := inherited }
  let methods ← cf.methods.mapM fun info => methodOf cf.pool owner info
  let sourceFile ← formatError cf.sourceFile?
  return {
    name, superclass, kind := .ordinary, interfaces, flags := cf.flags, fields := plan.fields,
    methods, layout := plan.layout, sourceFile, statics := plan.statics,
    needsInit := methods.any (·.name = initializerName) }

/-- The class of a file, before it is added to the table. -/
def readClass (resolver : String → Action ClassId) (cf : ClassFile) (name : String) :
    Action Class := do
  let superclass ← superclassOf resolver cf name
  let interfaces ← (← formatError cf.interfaceNames).mapM resolver
  readMembers cf name superclass interfaces

/-- Adds a class to the table. -/
def addClass (cls : Class) : Action ClassId := do
  let (classes, c) ← (← get).classes.define cls
  modify ({ · with classes })
  return c

variable {resolver : String → Action ClassId}

/-- A definition reads the class, and then adds it. -/
theorem build_eq_readClass (resolver : String → Action ClassId) (cf : ClassFile) (name : String) :
    build resolver cf name = readClass resolver cf name >>= addClass := by
  unfold build readClass readMembers addClass
  simp only [bind_assoc, pure_bind]

/-- A class is added under a name that is free, and refused under any other one. -/
theorem run_addClass (cls : Class) (m : Machine) :
    addClass cls m =
      match m.classes.find? cls.name with
      | some _ => (.error (.thrown (.duplicateClass cls.name)), m)
      | none => (.ok m.classes.nextId, { m with classes := m.classes.push cls }) := by
  unfold addClass ClassTable.define
  rw [run_bind, run_get]
  dsimp only
  rw [run_liftThrowable_bind]
  cases m.classes.find? cls.name with
  | some c => rfl
  | none => rfl

/-- Reading the members adds no class, and what they give makes the class complete. -/
theorem keeps_readMembers (hname : cf.className = .ok name) {superclass : Option ClassId}
    {interfaces : List ClassId}
    (hsuper : ∃ s, cf.superClassName? = .ok s ∧ s ≠ some name ∧
      Option.Rel m.classes.Named s superclass)
    (hinterfaces : ∃ names, cf.interfaceNames = .ok names ∧
      List.Forall₂ m.classes.Named names interfaces) :
    Takes Machine.SameClasses m (readMembers cf name superclass interfaces) fun cls _ =>
      cls.name = name ∧ ClassFrom cf m.classes m.classes.nextId cls := by
  unfold readMembers
  refine takes_get_bind ?_
  dsimp only
  refine Takes.bind (takes_foldlM_taken (P := fun taken plan _ =>
    Planned cf.pool m.classes.nextId taken plan) [] cf.fields
    (fun _ _ _ _ hplan => keeps_planField hplan) .nil) ?_
  intro plan m₁ _ hplan
  refine Takes.bind (takes_mapM_forall₂
    (P := fun info x _ => methodOf cf.pool m.classes.nextId info = .ok x) cf.methods
    (fun _ _ _ _ _ hx => hx) fun info m' => takes_liftThrowable fun x hx => hx) ?_
  intro methods m₂ _ hmethods
  refine takes_liftThrowable_bind fun sourceFile hsource => takes_pure ⟨rfl, ?_⟩
  exact {
    name := hname
    ordinary := rfl
    flags := rfl
    superclass := hsuper
    interfaces := hinterfaces
    fields := hplan
    methods := hmethods
    sourceFile := formatError_eq_ok.mp hsource
    unused := ⟨rfl, rfl⟩ }

/-! ## Definitions and resolutions -/

/-- What is read is the class of the file, with what its supertypes need added before. -/
theorem adds_readClass (hname : cf.className = .ok name)
    (hres : ∀ n m, Takes (Machine.Adds source) m (resolver n) fun c m' => m'.classes.Named n c) :
    Takes (Machine.Adds source) m (readClass resolver cf name) fun cls m' =>
      cls.name = name ∧ ClassFrom cf m'.classes m'.classes.nextId cls := by
  unfold readClass
  refine (takes_superclassOf_of (Q := fun n c m => m.classes.Named n c) hres).bind ?_
  intro superclass m₁ _ hsuper
  refine takes_liftThrowable_bind fun names hnames => ?_
  have hall := takes_mapM_forall₂ (m := m₁) (P := fun n c m => m.classes.Named n c) names
    (fun _ _ _ _ h hc => hc.of_keeps h.keeps) hres
  refine hall.bind fun interfaces m₂ h₂ hinterfaces => ?_
  obtain ⟨s, hs, hne, hrel⟩ := hsuper
  refine (Takes.adds (keeps_readMembers hname ⟨s, hs, hne, h₂.keeps.rel_named hrel⟩
    ⟨names, formatError_eq_ok.mp hnames, hinterfaces⟩)).mono ?_
  rintro cls m₃ _ ⟨hsame, hcls⟩
  rw [hsame.classes]
  exact hcls

/-- A definition adds its class where it succeeds, and where it fails only what was needed to read the
class. -/
theorem build_outcome (hname : cf.className = .ok name)
    (hres : ∀ n m, Takes (Machine.Adds source) m (resolver n) fun c m' => m'.classes.Named n c) :
    ((∃ e, (build resolver cf name m).1 = .error e) ∧
        m.Adds source (build resolver cf name m).2) ∨
      ∃ cls m₁, m.Adds source m₁ ∧ cls.name = name ∧
        ClassFrom cf m₁.classes m₁.classes.nextId cls ∧
        build resolver cf name m =
          (.ok m₁.classes.nextId, { m₁ with classes := m₁.classes.push cls }) := by
  have hread : Takes (Machine.Adds source) m (readClass resolver cf name) _ :=
    adds_readClass hname hres
  rw [build_eq_readClass, run_bind]
  rcases hrun : readClass resolver cf name m with ⟨e | cls, m₁⟩
  · rw [Takes, hrun] at hread
    exact Or.inl ⟨⟨e, rfl⟩, hread.1⟩
  · obtain ⟨hadds, hcname, hfrom⟩ := hread.of_eq hrun
    dsimp only
    rw [run_addClass]
    cases m₁.classes.find? cls.name with
    | some c => exact Or.inl ⟨⟨_, rfl⟩, hadds⟩
    | none => exact Or.inr ⟨cls, m₁, hadds, hcname, hfrom, rfl⟩

/-- A definition that is not under way yet adds what its class needs, and the class itself only when
it succeeds. -/
theorem adds_whileDefining (hname : cf.className = .ok name) (hsource : source name cf)
    (hres : ∀ n m, Takes (Machine.Adds source) m (resolver n) fun c m' => m'.classes.Named n c) :
    Takes (Machine.Adds source) m (whileDefining name (build resolver cf name)) fun c m' =>
      ∃ cls, m'.classes.get? c = some cls ∧ cls.name = name := by
  unfold Takes
  rw [run_whileDefining]
  split
  · exact ⟨refl m, fun _ h => nomatch h⟩
  · next hidle =>
    rcases build_outcome (m := m.entering name) hname hres with ⟨⟨e, herror⟩, hadds⟩ |
      ⟨cls, m₁, hadds, rfl, hfrom, hrun⟩
    · refine ⟨hadds.leaving, fun c hc => ?_⟩
      rw [herror] at hc
      cases hc
    · have hdefining := hadds.leaving.defining
      rw [hrun]
      refine ⟨hadds.leaving.trans (Machine.adds_push ?_ ?_), ?_⟩
      · rw [hdefining]
        exact fun _ => hidle
      · exact .file hsource (hfrom.of_keeps (ClassTable.keeps_push _ _))
      · rintro c ⟨⟩
        exact ⟨cls, ClassTable.get?_push_nextId .., rfl⟩

/-- A definition adds classes from the source, itself and the supertypes that it resolves. -/
theorem adds_define {bytes : Bytes} {expected : Option String}
    (hsource : ∀ cf name, ClassFile.parse bytes = .ok cf → cf.className = .ok name →
      (∀ e, expected = some e → e = name) → source name cf)
    (hres : ∀ n m, Takes (Machine.Adds source) m (resolver n) fun c m' => m'.classes.Named n c) :
    Takes (Machine.Adds source) m (define resolver bytes expected) fun c m' =>
      ∃ cls, m'.classes.get? c = some cls ∧ ∀ e, expected = some e → cls.name = e := by
  refine takes_define_of fun cf name hcf hname hexpected => ?_
  refine (adds_whileDefining hname (hsource cf name hcf hname hexpected) hres).mono ?_
  rintro c m' _ ⟨cls, hc, hcname⟩
  exact ⟨cls, hc, fun e he => hcname.trans (hexpected e he).symm⟩

/-- What is loaded comes from the file that is found. -/
theorem adds_load {path : ClassPath}
    (hsource : ∀ cf, path.file? name = some cf → source name cf)
    (hres : ∀ n m, Takes (Machine.Adds source) m (resolver n) fun c m' => m'.classes.Named n c) :
    Takes (Machine.Adds source) m (load resolver path name) fun c m' =>
      m'.classes.Named name c := by
  refine takes_load_of (fun bytes hbytes => ?_) fun c m' => ClassTable.named_of_find?
  have hfile : ∀ cf n, ClassFile.parse bytes = .ok cf → cf.className = .ok n →
      (∀ e, some name = some e → e = n) → source n cf := by
    intro cf n hparse _ hexpected
    rw [← hexpected name rfl]
    apply hsource
    unfold ClassPath.file?
    rw [hbytes, Option.bind_some, hparse]
    rfl
  refine (adds_define hfile hres).mono ?_
  rintro c m' _ ⟨cls, hc, hname⟩
  exact ⟨cls, hc, fun _ => hname name rfl⟩

/-- An array class is added behind its component. -/
theorem adds_arrayClass (component : ClassId) :
    Takes (Machine.Adds source) m (arrayClass component) fun c m' =>
      ∃ cls, m'.classes.get? c = some cls := by
  refine takes_get_bind (takes_lift_bind ?_)
  rintro ⟨classes, c⟩ h
  obtain ⟨ccls, n, element, hc, hshape, hcase⟩ := ClassTable.arrayClass_eq_ok h
  rcases hcase with ⟨hfind, rfl⟩ | ⟨_, rfl, rfl⟩
  · obtain ⟨cls, hget, _⟩ := ClassTable.get?_of_find? hfind
    exact takes_modify_bind (refl m) (takes_pure ⟨cls, hget⟩)
  · have hkeeps := ClassTable.keeps_push m.classes (arrayClassOf n element component)
    refine takes_modify_bind (Machine.adds_push ?_ ?_) (takes_pure ?_)
    · intro hplain
      exact absurd (isArrayName_of_arrayShape? hshape) hplain
    · exact .array (hkeeps _ _ hc) hshape rfl
    · exact ⟨_, ClassTable.get?_push_nextId ..⟩

/-- A resolution adds completely defined classes of the class path, however it ends. -/
theorem adds_resolve {path : ClassPath}
    (hsource : ∀ n cf, path.file? n = some cf → source n cf) (name : String) :
    Takes (Machine.Adds source) m (resolve path name) fun c m' => m'.classes.Named name c := by
  refine takes_resolveWithin_of (Q := fun n c m' => m'.classes.Named n c) ?_ ?_ ?_ _ name
  · exact fun n c m => ClassTable.named_of_find?
  · intro n c m harray
    refine (adds_arrayClass c).mono ?_
    rintro a m₁ _ ⟨cls, ha⟩
    exact ⟨cls, ha, fun hplain => absurd harray hplain⟩
  · exact fun r n m hres _ => adds_load (hsource n) hres

/-- A definition adds completely defined classes, however it ends. -/
theorem adds_defineClass {path : ClassPath} {bytes : Bytes}
    (hpath : ∀ n cf, path.file? n = some cf → source n cf)
    (hbytes : ∀ cf name, ClassFile.parse bytes = .ok cf → cf.className = .ok name →
      source name cf) :
    Takes (Machine.Adds source) m (defineClass path bytes) fun c m' =>
      ∃ cls, m'.classes.get? c = some cls :=
  (adds_define (fun cf name hcf hname _ => hbytes cf name hcf hname)
    fun n _ => adds_resolve hpath n).mono fun _ _ _ ⟨cls, hc, _⟩ => ⟨cls, hc⟩

/-- A definition of a class whose name can be read: the name has to be new, and not under way. -/
theorem run_defineClass {path : ClassPath} {bytes : Bytes}
    (hparse : ClassFile.parse bytes = .ok cf) (hname : cf.className = .ok name) (m : Machine) :
    defineClass path bytes m =
      if (m.classes.find? name).isSome then (.error (.thrown (.duplicateClass name)), m)
      else whileDefining name (build (resolve path) cf name) m := by
  unfold defineClass define
  rw [run_liftThrowable_bind, hparse]
  show ((liftM (formatError cf.className) : Action String) >>= _) m = _
  rw [run_liftThrowable_bind, hname]
  show ((get : Action Machine) >>= _) m = _
  rw [run_bind, run_get]
  dsimp only
  split
  · rfl
  · rfl

/-- A definition that fails leaves its name as it was, unless that is a name of an array class. -/
theorem find?_of_failed_definition {path : ClassPath} {bytes : Bytes} {e : Stop}
    (hparse : ClassFile.parse bytes = .ok cf) (hname : cf.className = .ok name)
    (hplain : PlainName name) (hfail : (defineClass path bytes m).1 = .error e) :
    (defineClass path bytes m).2.classes.find? name = m.classes.find? name := by
  rw [run_defineClass hparse hname] at hfail ⊢
  by_cases hdefined : (m.classes.find? name).isSome = true
  · rw [if_pos hdefined]
  rw [if_neg hdefined, run_whileDefining] at hfail ⊢
  by_cases hbusy : name ∈ m.defining
  · rw [if_pos hbusy]
  rw [if_neg hbusy] at hfail ⊢
  -- While the class is read its name is under way, and so it is not added.
  have hres : ∀ n m', Takes (Machine.Adds fun _ _ => True) m' (resolve path n) _ :=
    fun n _ => adds_resolve (fun _ _ _ => trivial) n
  rcases build_outcome (m := m.entering name) hname hres with ⟨_, hadds⟩ |
    ⟨cls, m₁, _, _, _, hrun⟩
  · exact hadds.avoids name List.mem_cons_self hplain
  · rw [hrun] at hfail
    cases hfail

end Action

end JavaMachine
