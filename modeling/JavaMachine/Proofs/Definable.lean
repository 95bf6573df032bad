/-
# Class files that can be defined

A class file can be defined when the names in it are texts of its constant pool, its descriptors are
descriptors, each constant of a static field is of the kind of the field, and it is below and
implements no arrays (`ClassFile.Definable`).  All of this can be checked before the definition
begins, and once the supertypes are resolved and the name is new nothing else can go wrong:
`Action.run_assemble` says that the class is added, and that no other class is.
-/
import JavaMachine.Proofs.ResolutionSteps

namespace JavaMachine

/-! ## What a class file has to be like -/

/-- A constant that a static field of a kind can start with. -/
def ConstantPool.fits (pool : ConstantPool) (index : UInt16) (t : Tag) : Bool :=
  match pool.get index with
  | .error _ => false
  | .ok (.string text) => t = .reference && (pool.text text).isOk
  | .ok c => (constantFor? c t).isSome

namespace MemberInfo

/-- The kind that the descriptor of a field says. -/
def tag? (info : MemberInfo) (pool : ConstantPool) : Option Tag :=
  (pool.text info.descriptor).toOption.bind fun descriptor => (fieldTag descriptor).toOption

/-- A field with a descriptor of a field and, where it is static, with a constant of its kind. -/
def isField (info : MemberInfo) (pool : ConstantPool) : Bool :=
  (info.tag? pool).any fun t =>
    !hasFlag info.flags staticFlag || info.constantValue?.all (pool.fits · t)

/-- A method with a descriptor of a method. -/
def isMethod (info : MemberInfo) (pool : ConstantPool) : Bool :=
  (pool.text info.descriptor).toOption.any fun descriptor => (MethodType.parse? descriptor).isSome

/-- A member with a name that is a text. -/
def isNamed (info : MemberInfo) (pool : ConstantPool) : Bool := (pool.text info.name).isOk

end MemberInfo

namespace ClassFile

/-- The names of the superclass and of the interfaces. -/
def supertypeNames (cf : ClassFile) : List String :=
  (cf.superClassName?.toOption.bind id).toList ++ cf.interfaceNames.toOption.getD []

/-- The names of supertypes are that of the superclass, if there is one, and those of the
interfaces. -/
theorem supertypeNames_eq {cf : ClassFile} {super : Option String} {names : List String}
    (hsuper : cf.superClassName? = .ok super) (hnames : cf.interfaceNames = .ok names) :
    cf.supertypeNames = super.toList ++ names := by
  unfold supertypeNames
  rw [hsuper, hnames]
  rfl

/-- The descriptors and the constants are valid, and the supertypes are no arrays. -/
structure Described (cf : ClassFile) : Prop where
  superClassName : cf.superClassName?.isOk = true
  interfaceNames : cf.interfaceNames.isOk = true
  plain : ∀ n ∈ cf.supertypeNames, PlainName n
  fields : ∀ info ∈ cf.fields, info.isField cf.pool = true
  methods : ∀ info ∈ cf.methods, info.isMethod cf.pool = true

/-- The members and the source file have names that are texts. -/
structure Spelled (cf : ClassFile) : Prop where
  members : ∀ info ∈ cf.fields ++ cf.methods, info.isNamed cf.pool = true
  sourceFile : cf.sourceFile?.isOk = true

/-- Nothing in a class file stands in the way of its definition. -/
structure Definable (cf : ClassFile) : Prop where
  described : cf.Described
  spelled : cf.Spelled

instance (cf : ClassFile) : Decidable cf.Described :=
  decidable_of_iff
    (cf.superClassName?.isOk = true ∧ cf.interfaceNames.isOk = true ∧
      (∀ n ∈ cf.supertypeNames, PlainName n) ∧ (∀ info ∈ cf.fields, info.isField cf.pool = true) ∧
      ∀ info ∈ cf.methods, info.isMethod cf.pool = true)
    ⟨fun ⟨hs, hi, hp, hf, hm⟩ => ⟨hs, hi, hp, hf, hm⟩,
      fun ⟨hs, hi, hp, hf, hm⟩ => ⟨hs, hi, hp, hf, hm⟩⟩

instance (cf : ClassFile) : Decidable cf.Spelled :=
  decidable_of_iff
    ((∀ info ∈ cf.fields ++ cf.methods, info.isNamed cf.pool = true) ∧ cf.sourceFile?.isOk = true)
    ⟨fun ⟨hm, hs⟩ => ⟨hm, hs⟩, fun ⟨hm, hs⟩ => ⟨hm, hs⟩⟩

instance (cf : ClassFile) : Decidable cf.Definable :=
  decidable_of_iff (cf.Described ∧ cf.Spelled) ⟨fun ⟨hd, hs⟩ => ⟨hd, hs⟩, fun ⟨hd, hs⟩ => ⟨hd, hs⟩⟩

end ClassFile

/-- A check that succeeds has a result. -/
theorem exists_eq_ok_of_isOk {ε α : Type} {r : Except ε α} (h : r.isOk = true) :
    ∃ x, r = .ok x := by
  cases r with
  | error e => cases h
  | ok x => exact ⟨x, rfl⟩

/-- The exception that a computation ends with. -/
def thrown? {α : Type} (r : Except Stop α) : Option Throwable :=
  match r with
  | .error (.thrown t) => some t
  | _ => none

/-- An exception is the way the check ended. -/
theorem eq_of_thrown? {α : Type} {r : Except Stop α} {t : Throwable} (h : thrown? r = some t) :
    r = .error (.thrown t) := by
  rcases r with (t' | f | c) | x
  · exact congrArg (Except.error ∘ Stop.thrown) (Option.some.inj h)
  all_goals cases h

/-- A result is what a check gave. -/
theorem toOption_eq_some_iff {ε α : Type} {r : Except ε α} {x : α} :
    r.toOption = some x ↔ r = .ok x := by
  cases r with
  | error e => simp [Except.toOption]
  | ok y => simp [Except.toOption]

namespace Action

/-! ## Computations that succeed -/

variable {α β : Type} {a : Action α} {f : α → Action β}

/-- The computation gives a result in every state. -/
def Succeeds (a : Action α) : Prop := ∀ m, ∃ x m', a m = (.ok x, m')

theorem succeeds_pure (x : α) : Succeeds (pure x : Action α) := fun m => ⟨x, m, rfl⟩

theorem succeeds_get : Succeeds (get : Action Machine) := fun m => ⟨m, m, rfl⟩

theorem succeeds_modify (g : Machine → Machine) : Succeeds (modify g : Action PUnit) :=
  fun m => ⟨⟨⟩, g m, rfl⟩

/-- A check that passes succeeds in every machine. -/
theorem succeeds_liftThrowable {r : Except Throwable α} {x : α} (h : r = .ok x) :
    Succeeds (liftM r : Action α) := by
  intro m
  refine ⟨x, m, ?_⟩
  rw [h]
  rfl

/-- A computation that goes on with another one succeeds where both do. -/
theorem Succeeds.bind (ha : Succeeds a) (hf : ∀ x, Succeeds (f x)) : Succeeds (a >>= f) := by
  intro m
  obtain ⟨x, m₁, hx⟩ := ha m
  obtain ⟨y, m₂, hy⟩ := hf x m₁
  exact ⟨y, m₂, run_bind_eq_ok.mpr ⟨x, m₁, hx, hy⟩⟩

/-- A result that is lifted and known is what the computation goes on with. -/
theorem succeeds_liftThrowable_bind {r : Except Throwable α} {x : α} (h : r = .ok x)
    (hf : Succeeds (f x)) : Succeeds ((liftM r : Action α) >>= f) := by
  intro m
  rw [run_liftThrowable_bind, h]
  exact hf m

/-- Folding a list succeeds where each step does. -/
theorem succeeds_foldlM {γ : Type} (l : List γ) {g : α → γ → Action α}
    (hg : ∀ x, ∀ c ∈ l, Succeeds (g x c)) (x : α) : Succeeds (l.foldlM g x) := by
  induction l generalizing x with
  | nil =>
    rw [List.foldlM_nil]
    exact succeeds_pure x
  | cons c l ih =>
    rw [List.foldlM_cons]
    have hhead := hg x c List.mem_cons_self
    refine hhead.bind fun y => ih ?_ y
    intro z d hd
    exact hg z d (List.mem_cons_of_mem c hd)

/-- Going through a list succeeds where each item does. -/
theorem succeeds_mapM {γ : Type} (l : List γ) {g : γ → Action β}
    (hg : ∀ c ∈ l, Succeeds (g c)) : Succeeds (l.mapM g) := by
  induction l with
  | nil =>
    rw [List.mapM_nil]
    exact succeeds_pure _
  | cons c l ih =>
    rw [List.mapM_cons]
    have hhead := hg c List.mem_cons_self
    have hrest := ih fun d hd => hg d (List.mem_cons_of_mem c hd)
    exact hhead.bind fun x => hrest.bind fun xs => succeeds_pure _

/-! ## Members that can be defined -/

/-- Interning never fails. -/
theorem succeeds_intern (s : String) : Succeeds (intern s) := by
  refine succeeds_get.bind fun m => ?_
  split
  · exact succeeds_pure _
  · refine Succeeds.bind (fun m => ⟨_, _, rfl⟩) fun r => ?_
    exact (succeeds_modify _).bind fun _ => succeeds_pure r

/-- A constant that fits its field gives a value. -/
theorem succeeds_constantValue {pool : ConstantPool} {index : UInt16} {t : Tag}
    (h : pool.fits index t = true) : Succeeds (constantValue pool index t) := by
  unfold ConstantPool.fits at h
  unfold constantValue
  cases hc : pool.get index with
  | error e =>
    rw [hc] at h
    cases h
  | ok c =>
    refine succeeds_liftThrowable_bind (formatError_eq_ok.mpr rfl) ?_
    rw [hc] at h
    split
    · next text =>
      obtain ⟨s, hs⟩ := exists_eq_ok_of_isOk (Bool.and_eq_true_iff.mp h).2
      refine succeeds_liftThrowable_bind (formatError_eq_ok.mpr hs) ?_
      exact (succeeds_intern s).bind fun r => succeeds_pure _
    · next hother =>
      -- No value fits a text but where a reference is expected, so a constant of the kind is there.
      have hsome : (constantFor? c t).isSome = true := by
        cases c with
        | string text =>
          have ht : t = .reference := of_decide_eq_true (Bool.and_eq_true_iff.mp h).1
          exact absurd ht (hother text rfl)
        | _ => exact h
      obtain ⟨v, hv⟩ := Option.isSome_iff_exists.mp hsome
      rw [hv]
      exact succeeds_pure _

/-- A field with a name, a descriptor and a constant that fit is planned. -/
theorem succeeds_planField {pool : ConstantPool} {info : MemberInfo}
    (hnamed : info.isNamed pool = true) (hfield : info.isField pool = true) (owner : ClassId)
    (plan : FieldPlan) : Succeeds (planField pool owner plan info) := by
  obtain ⟨name, hname⟩ := exists_eq_ok_of_isOk hnamed
  obtain ⟨t, ht, hconstant⟩ := (Option.any_eq_true _ _).mp hfield
  obtain ⟨descriptor, hdescriptor, ht⟩ := Option.bind_eq_some_iff.mp ht
  rw [toOption_eq_some_iff] at hdescriptor ht
  unfold planField
  refine succeeds_liftThrowable_bind (formatError_eq_ok.mpr hname) ?_
  refine succeeds_liftThrowable_bind (formatError_eq_ok.mpr hdescriptor) ?_
  refine succeeds_liftThrowable_bind ht ?_
  dsimp only
  split
  · next hstatic =>
    rw [hstatic] at hconstant
    refine Succeeds.bind ?_ fun s => succeeds_pure _
    unfold initialSlot
    split
    · exact succeeds_pure _
    · next index hindex =>
      rw [hindex] at hconstant
      exact (succeeds_constantValue hconstant).bind fun v => succeeds_pure _
  · exact succeeds_pure _

/-- A method with a name and a descriptor that fit is read. -/
theorem exists_methodOf {pool : ConstantPool} {info : MemberInfo}
    (hnamed : info.isNamed pool = true) (hmethod : info.isMethod pool = true) (owner : ClassId) :
    ∃ x, methodOf pool owner info = .ok x := by
  obtain ⟨name, hname⟩ := exists_eq_ok_of_isOk hnamed
  obtain ⟨descriptor, hdescriptor, htype⟩ := (Option.any_eq_true _ _).mp hmethod
  rw [toOption_eq_some_iff] at hdescriptor
  obtain ⟨type, htype⟩ := Option.isSome_iff_exists.mp htype
  have hx : ∃ x, Method.ofDescriptor? owner name descriptor info.flags = some x := by
    rw [Method.ofDescriptor?, htype]
    exact ⟨_, rfl⟩
  obtain ⟨x, hx⟩ := hx
  unfold methodOf
  -- With code or without, the method of the descriptor is what is built on.
  cases hcode : info.code? with
  | none =>
    refine ⟨x, bind_eq_ok.mpr ⟨name, formatError_eq_ok.mpr hname, ?_⟩⟩
    refine bind_eq_ok.mpr ⟨descriptor, formatError_eq_ok.mpr hdescriptor, ?_⟩
    rw [hx]
    rfl
  | some c =>
    refine ⟨{ x with code := some c.code, lines := lineTable c }, ?_⟩
    refine bind_eq_ok.mpr ⟨name, formatError_eq_ok.mpr hname, ?_⟩
    refine bind_eq_ok.mpr ⟨descriptor, formatError_eq_ok.mpr hdescriptor, ?_⟩
    rw [hx]
    rfl

/-! ## Adding the class -/

/-- The fields of a definable file are planned, which makes at most strings. -/
theorem exists_plan {cf : ClassFile} (h : cf.Definable) (m : Machine) (owner : ClassId)
    (inherited : Layout) :
    ∃ plan m', cf.fields.foldlM (planField cf.pool owner) { layout := inherited } m =
      (.ok plan, m') ∧ m'.classes = m.classes ∧ m'.defining = m.defining := by
  have hsucceeds : Succeeds (cf.fields.foldlM (planField cf.pool owner) { layout := inherited }) := by
    refine succeeds_foldlM cf.fields (fun plan info hinfo => ?_) _
    have hnamed := h.spelled.members info (List.mem_append_left _ hinfo)
    exact succeeds_planField hnamed (h.described.fields info hinfo) owner plan
  have htakes : Takes (Machine.Evolves fun _ => True) m
      (cf.fields.foldlM (planField cf.pool owner) { layout := inherited }) fun plan m' =>
        (plan.Sound owner inherited ∧ Packed plan.fields plan.statics) ∧ m'.classes = m.classes :=
    takes_foldlM cf.fields (fun plan info m' hp => takes_planField hp.1.1 hp.1.2 hp.2)
      ⟨⟨FieldPlan.sound_start owner inherited, packed_nil⟩, rfl⟩
  obtain ⟨plan, m', hrun⟩ := hsucceeds m
  obtain ⟨hevolves, _, hclasses⟩ := htakes.of_eq hrun
  exact ⟨plan, m', hrun, hclasses, hevolves.defining⟩

/-- The methods of a definable file are read. -/
theorem exists_methods {cf : ClassFile} (h : cf.Definable) (m : Machine) (owner : ClassId) :
    ∃ methods m', (cf.methods.mapM fun info => (liftM (methodOf cf.pool owner info) :
      Action Method)) m = (.ok methods, m') ∧ m'.classes = m.classes ∧
        m'.defining = m.defining := by
  have hsucceeds : Succeeds (cf.methods.mapM fun info =>
      (liftM (methodOf cf.pool owner info) : Action Method)) := by
    refine succeeds_mapM cf.methods fun info hinfo => ?_
    have hnamed := h.spelled.members info (List.mem_append_right _ hinfo)
    obtain ⟨x, hx⟩ := exists_methodOf hnamed (h.described.methods info hinfo) owner
    exact succeeds_liftThrowable hx
  have htakes : Takes (Machine.Evolves fun _ => True) m (cf.methods.mapM fun info =>
      (liftM (methodOf cf.pool owner info) : Action Method)) fun _ m' => m'.classes = m.classes :=
    takes_mapM (I := fun m' => m'.classes = m.classes) cf.methods
      (fun info m' hm' => takes_liftThrowable fun _ _ => hm') rfl
  obtain ⟨methods, m', hrun⟩ := hsucceeds m
  obtain ⟨hevolves, hclasses⟩ := htakes.of_eq hrun
  exact ⟨methods, m', hrun, hclasses, hevolves.defining⟩

/-- The class of a definable file is added under a new name, and nothing else becomes of the class
table. -/
theorem run_assemble {cf : ClassFile} {name : String} {m : Machine} (h : cf.Definable)
    (hfresh : m.classes.find? name = none) (superclass : Option ClassId)
    (interfaces : List ClassId) :
    ∃ cls m', assemble cf name superclass interfaces m = (.ok m.classes.nextId, m') ∧
      cls.name = name ∧ m'.classes = m.classes.push cls ∧ m'.defining = m.defining := by
  obtain ⟨sourceFile, hsource⟩ := exists_eq_ok_of_isOk h.spelled.sourceFile
  obtain ⟨plan, m₁, hplan, hclasses₁, hdefining₁⟩ := exists_plan h m m.classes.nextId
    (((superclass.bind m.classes.get?).map Class.layout).getD {})
  obtain ⟨methods, m₂, hmethods, hclasses₂, hdefining₂⟩ := exists_methods h m₁ m.classes.nextId
  have hsame : m₂.classes = m.classes := hclasses₂.trans hclasses₁
  have hdefine : ∀ cls : Class, cls.name = name →
      m₂.classes.define cls = .ok (m.classes.push cls, m.classes.nextId) := by
    intro cls hname
    rw [hsame, ClassTable.define, hname, hfresh]
  let cls : Class :=
    { name, superclass, kind := .ordinary, interfaces, flags := cf.flags, fields := plan.fields,
      methods, layout := plan.layout, sourceFile, statics := plan.statics,
      needsInit := methods.any (·.name = initializerName) }
  refine ⟨cls, { m₂ with classes := m.classes.push cls }, ?_, rfl, rfl,
    hdefining₂.trans hdefining₁⟩
  unfold assemble
  rw [run_bind, run_get]
  refine run_bind_eq_ok.mpr ⟨plan, m₁, hplan, run_bind_eq_ok.mpr ⟨methods, m₂, hmethods, ?_⟩⟩
  rw [run_liftThrowable_bind, formatError_eq_ok.mpr hsource]
  dsimp only
  rw [run_bind, run_get]
  dsimp only
  rw [run_liftThrowable_bind, hdefine cls rfl]
  rfl

end Action

end JavaMachine
