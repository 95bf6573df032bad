/-
# What a defined class takes from its file

A definition that succeeds leaves a class that mirrors the file it was read from (`ClassMirrors`).
Its supertypes are what the names in the file resolve to, one after the other.  It has one field for
each field of the file and one method for each method, in the same order.  A method has the kinds that
its descriptor spells and the code of its first code attribute.  A static field has the value of its
first constant, in the form that its kind needs (`ConstantGives`), or else the zero of its kind.

All of it is read before the class is added.  So a definition that succeeds is a chain of computations
that succeeded (`Action.adds_define_read`, `Action.readClass_eq_ok`), each with its part of the class
as result.  What was read of the members stays true when the class is added, since all strings that
were interned stay so.
-/
import JavaMachine.Proofs.AddedClasses
import JavaMachine.Proofs.Descriptors
import JavaMachine.Proofs.Interning

namespace JavaMachine

/-! ## First attributes -/

/-- What the first attribute of a kind holds, or that there is no attribute of the kind. -/
inductive FirstOf {β : Type} (kind : β → Attribute) (l : List Attribute) : Option β → Prop
  | none (h : ∀ b, kind b ∉ l) : FirstOf kind l none
  | some {before after : List Attribute} {b : β} (h : l = before ++ kind b :: after)
      (hfirst : ∀ d, kind d ∉ before) : FirstOf kind l (some b)

/-- A search with a function that knows the attributes of a kind finds the first one. -/
theorem firstOf_findSome? {β : Type} {kind : β → Attribute} {f : Attribute → Option β}
    (hf : ∀ a b, f a = some b ↔ a = kind b) (l : List Attribute) :
    FirstOf kind l (l.findSome? f) := by
  cases hfind : l.findSome? f with
  | none =>
    refine .none fun b hmem => ?_
    rw [List.findSome?_eq_none_iff] at hfind
    exact nomatch (hfind _ hmem).symm.trans ((hf _ b).mpr rfl)
  | some b =>
    obtain ⟨before, a, after, hl, ha, hbefore⟩ := List.findSome?_eq_some_iff.mp hfind
    obtain rfl := (hf a b).mp ha
    refine .some hl fun d hmem => ?_
    exact nomatch (hbefore _ hmem).symm.trans ((hf _ d).mpr rfl)

theorem firstOf_constantValue? (info : MemberInfo) :
    FirstOf .constantValue info.attributes info.constantValue? := by
  refine firstOf_findSome? (fun a b => ?_) _
  cases a <;> simp

theorem firstOf_code? (info : MemberInfo) : FirstOf .code info.attributes info.code? := by
  refine firstOf_findSome? (fun a b => ?_) _
  cases a <;> simp

/-! ## Starting values -/

/-- A value that a constant gives a field of some kind.  Integers are cut down to the narrow kinds, any
but zero is true, and a string is the one that its text is interned as. -/
inductive ConstantGives (m : Machine) (pool : ConstantPool) : Constant → Tag → Value → Prop
  | int (v : Int32) : ConstantGives m pool (.integer v) (.primitive .int) (.int v)
  | short {v : Int32} {w : Int16} (h : w.toInt = v.toInt.bmod (2 ^ 16)) :
      ConstantGives m pool (.integer v) (.primitive .short) (.short w)
  | char {v : Int32} {w : UInt16} (h : (w.toNat : Int) = v.toInt % 65536) :
      ConstantGives m pool (.integer v) (.primitive .char) (.char w)
  | byte {v : Int32} {w : Int8} (h : w.toInt = v.toInt.bmod (2 ^ 8)) :
      ConstantGives m pool (.integer v) (.primitive .byte) (.byte w)
  | boolean {v : Int32} {b : Bool} (h : b = true ↔ v.toInt ≠ 0) :
      ConstantGives m pool (.integer v) (.primitive .boolean) (.boolean b)
  | float (bits : UInt32) : ConstantGives m pool (.float bits) (.primitive .float) (.float bits)
  | long (v : Int64) : ConstantGives m pool (.long v) (.primitive .long) (.long v)
  | double (bits : UInt64) : ConstantGives m pool (.double bits) (.primitive .double) (.double bits)
  | string {text : UInt16} {s : String} {r : ObjectRef} (hs : pool.text text = .ok s)
      (hr : Action.intern s m = (.ok r, m)) :
      ConstantGives m pool (.string text) .reference (.ref r)

/-- The value that a static field starts with: that of its first constant, or zero if it has none. -/
inductive StartValue (m : Machine) (pool : ConstantPool) (info : MemberInfo) (t : Tag) : Value → Prop
  | zero (h : FirstOf .constantValue info.attributes none) : StartValue m pool info t (.zero t)
  | constant {index : UInt16} {c : Constant} {v : Value}
      (h : FirstOf .constantValue info.attributes (some index)) (hc : pool.get index = .ok c)
      (hv : ConstantGives m pool c t v) : StartValue m pool info t v

variable {m m' : Machine} {pool : ConstantPool} {info : MemberInfo} {c : Constant} {t : Tag}
  {v : Value}

/-- The low half of a number is what is left of it modulo 65536. -/
theorem toNat_toUInt16 (v : Int32) : (v.toUInt32.toUInt16.toNat : Int) = v.toInt % 65536 := by
  have h : v.toInt = if 2 * v.toUInt32.toNat < 2 ^ 32 then (v.toUInt32.toNat : Int)
      else (v.toUInt32.toNat : Int) - (2 ^ 32 : Nat) := BitVec.toInt_eq_toNat_cond v.toBitVec
  rw [UInt32.toNat_toUInt16, h]
  split <;> omega

/-- A constant of the kind of its field gives the value, made narrower where the field is. -/
theorem constantGives_of_constantFor? (h : constantFor? c t = some v) :
    ConstantGives m pool c t v := by
  unfold constantFor? at h
  split at h <;> cases h
  · exact .int _
  · exact .short (Int32.toInt_toInt16 _)
  · exact .char (toNat_toUInt16 _)
  · exact .byte (Int32.toInt_toInt8 _)
  · exact .boolean (by simp [← Int32.toInt_inj])
  · exact .float _
  · exact .long _
  · exact .double _

/-- What a constant gives is given as long as what was interned stays so. -/
theorem ConstantGives.of_kept (h : ConstantGives m pool c t v)
    (hkept : ∀ s r, m.interned.get? s = some r → m'.interned.get? s = some r) :
    ConstantGives m' pool c t v := by
  cases h with
  | string hs hr =>
    exact .string hs (Machine.intern_of_some (hkept _ _ (Machine.interned_of_intern hr)))
  | int v => exact .int v
  | short h => exact .short h
  | char h => exact .char h
  | byte h => exact .byte h
  | boolean h => exact .boolean h
  | float bits => exact .float bits
  | long v => exact .long v
  | double bits => exact .double bits

/-- A value stays a start while its string stays interned. -/
theorem StartValue.of_kept (h : StartValue m pool info t v)
    (hkept : ∀ s r, m.interned.get? s = some r → m'.interned.get? s = some r) :
    StartValue m' pool info t v := by
  cases h with
  | zero h => exact .zero h
  | constant h hc hv => exact .constant h hc (hv.of_kept hkept)

/-- The classes are the same, and what was interned stays so. -/
structure Machine.Interns (m m' : Machine) : Prop where
  classes : m'.classes = m.classes
  kept : ∀ s r, m.interned.get? s = some r → m'.interned.get? s = some r

instance : IsPreorder Machine Machine.Interns where
  refl := fun _ => ⟨rfl, fun _ _ h => h⟩
  trans := fun _ _ _ h h' =>
    ⟨h'.classes.trans h.classes, fun s r hr => h'.kept s r (h.kept s r hr)⟩

namespace Action

open Machine (Interns)

/-- Interning notes the string. -/
theorem interns_intern (s : String) :
    Takes Interns m (intern s) fun r m' => m'.interned.get? s = some r := by
  refine ⟨⟨(keeps_intern s).1.classes, ?_⟩, fun _ hr => Machine.interned_of_intern (Prod.ext hr rfl)⟩
  exact (follows_intern Machine.allows_keepsInterned s).1.kept

/-- A static field starts with a slot that its starting value is read from. -/
theorem interns_initialSlot (pool : ConstantPool) (info : MemberInfo) (t : Tag) :
    Takes Interns m (initialSlot pool info t) fun s m' =>
      ∃ v, s.load? t = some v ∧ StartValue m' pool info t v := by
  have hfirst := firstOf_constantValue? info
  unfold initialSlot
  split
  · next hnone =>
    exact takes_pure ⟨_, Slot.load?_zero t, .zero (hnone ▸ hfirst)⟩
  · next index hindex =>
    rw [hindex] at hfirst
    refine Takes.bind (Q := fun v m' => v.tag = t ∧ StartValue m' pool info t v) ?_ ?_
    · refine takes_liftThrowable_bind fun c hc => ?_
      have hc := formatError_eq_ok.mp hc
      split
      · refine takes_liftThrowable_bind fun s hs => ?_
        refine (interns_intern s).bind fun r m₁ _ hr => takes_pure ⟨rfl, .constant hfirst hc ?_⟩
        exact .string (formatError_eq_ok.mp hs) (Machine.intern_of_some hr)
      · split
        · next v hv =>
          exact takes_pure ⟨tag_constantFor? hv,
            .constant hfirst hc (constantGives_of_constantFor? hv)⟩
        · exact takes_raise _
    · rintro v m₁ _ ⟨rfl, hv⟩
      exact takes_pure ⟨v, Slot.load?_ofValue v, hv⟩

end Action

/-! ## What a class mirrors -/

/-- A field as a class file declares it.  A static one has its starting value, whatever object it is
read from. -/
structure FieldMirrors (m : Machine) (pool : ConstantPool) (owner : ClassId) (info : MemberInfo)
    (f : Field) : Prop extends FieldDeclared pool owner info f where
  value : f.isStatic = true →
    ∃ v, StartValue m pool info f.tag v ∧ ∀ target, m.getField f target = .ok v

/-- A method as a class file declares it, with the kinds that its descriptor spells and the code of its
first code attribute. -/
structure MethodMirrors (pool : ConstantPool) (owner : ClassId) (info : MemberInfo) (x : Method) :
    Prop where
  owner : x.owner = owner
  name : pool.text info.name = .ok x.name
  descriptor : pool.text info.descriptor = .ok x.descriptor
  flags : x.flags = info.flags
  signature : ∃ type, MethodType.parse? x.descriptor = some type ∧
    type.text = x.descriptor.toList ∧ x.params = type.params.map (·.tag) ∧
    x.result = type.result.map (·.tag)
  code : ∃ code?, FirstOf .code info.attributes code? ∧ x.code = code?.map (·.code)

/-- The superclass and the interfaces of a class are what the names in its file resolve to, in the
order of the file.  A plain name goes on resolving to the same class. -/
structure SupertypesMirror (path : ClassPath) (m : Machine) (cf : ClassFile) (m' : Machine)
    (cls : Class) : Prop where
  resolved : ∃ super names m₁, cf.superClassName? = .ok super ∧ cf.interfaceNames = .ok names ∧
    cls.superclass.isSome = super.isSome ∧
    (super.toList ++ names).mapM (Action.resolve path) (m.entering cls.name) =
      (.ok (cls.superclass.toList ++ cls.interfaces), m₁)
  lasting : List.Forall₂ (fun n c => PlainName n → Action.resolve path n m' = (.ok c, m'))
    cf.supertypeNames (cls.superclass.toList ++ cls.interfaces)

/-- A class that was added for a file, on the way from one machine to another. -/
structure ClassMirrors (path : ClassPath) (m : Machine) (cf : ClassFile) (m' : Machine) (c : ClassId)
    (cls : Class) : Prop where
  name : cf.className = .ok cls.name
  added : m.classes.find? cls.name = none ∧ m'.classes.find? cls.name = some c
  flags : cls.flags = cf.flags
  sourceFile : cf.sourceFile? = .ok cls.sourceFile
  supertypes : SupertypesMirror path m cf m' cls
  fields : List.Forall₂ (FieldMirrors m' cf.pool c) cf.fields cls.fields
  methods : List.Forall₂ (MethodMirrors cf.pool c) cf.methods cls.methods
  needsInit : cls.needsInit = true ↔ ∃ x ∈ cls.methods, x.name = "<clinit>"

/-! ## Methods -/

theorem methodMirrors_of_methodOf {owner : ClassId} {x : Method}
    (h : methodOf pool owner info = .ok x) : MethodMirrors pool owner info x := by
  unfold methodOf at h
  obtain ⟨name, hname, h⟩ := bind_eq_ok.mp h
  obtain ⟨descriptor, hdescriptor, h⟩ := bind_eq_ok.mp h
  split at h
  · cases h
  · next y hy =>
    obtain ⟨type, htype, rfl⟩ := Option.map_eq_some_iff.mp hy
    have hcode := firstOf_code? info
    -- With or without code, the method is the same otherwise.
    have hmirrors : ∀ code lines, FirstOf .code info.attributes code →
        MethodMirrors pool owner info
          { owner, name, descriptor, flags := info.flags, params := type.params.map (·.tag),
            result := type.result.map (·.tag), lines, code := code.map (·.code) } := by
      intro code lines hfirst
      exact {
        owner := rfl
        name := formatError_eq_ok.mp hname
        descriptor := formatError_eq_ok.mp hdescriptor
        flags := rfl
        signature := ⟨type, htype, MethodType.text_of_parse? htype, rfl, rfl⟩
        code := ⟨code, hfirst, rfl⟩ }
    split at h
    · next hnone =>
      cases h
      exact hmirrors none [] (hnone ▸ hcode)
    · next d hsome =>
      cases h
      exact hmirrors (some d) (lineTable d) (hsome ▸ hcode)

namespace Action

open Machine (Interns)

variable {path : ClassPath} {cf : ClassFile} {name : String} {superclass : Option ClassId}
  {interfaces : List ClassId} {cls : Class} {resolver : String → Action ClassId}

/-! ## Reading -/

/-- A field of a plan, with the slot that the starting value of a static one is read from. -/
structure FieldPlanned (m : Machine) (pool : ConstantPool) (owner : ClassId) (statics : List Slot)
    (info : MemberInfo) (f : Field) : Prop extends FieldDeclared pool owner info f where
  start : f.isStatic = true → ∃ s, statics[f.offset]? = some s ∧
    ∃ v, s.load? f.tag = some v ∧ StartValue m pool info f.tag v

/-- A field stays planned when more static fields follow and more strings are interned. -/
theorem FieldPlanned.of_interns {owner : ClassId} {statics : List Slot} {f : Field}
    (h : FieldPlanned m pool owner statics info f) (more : List Slot) (hinterns : m.Interns m') :
    FieldPlanned m' pool owner (statics ++ more) info f where
  toFieldDeclared := h.toFieldDeclared
  start := by
    intro hs
    obtain ⟨s, hget, v, hload, hv⟩ := h.start hs
    have hlt := (List.getElem?_eq_some_iff.mp hget).1
    refine ⟨s, ?_, v, hload, hv.of_kept hinterns.kept⟩
    rw [List.getElem?_append_left hlt]
    exact hget

theorem interns_planField {owner : ClassId} {taken : List MemberInfo} {plan : FieldPlan}
    (hplan : List.Forall₂ (FieldPlanned m pool owner plan.statics) taken plan.fields) :
    Takes Interns m (planField pool owner plan info) fun plan' m' =>
      List.Forall₂ (FieldPlanned m' pool owner plan'.statics) (taken ++ [info]) plan'.fields := by
  refine (takes_plansField fun t => interns_initialSlot pool info t).mono
    fun plan' m' hinterns ⟨f, hf⟩ => ?_
  obtain ⟨more, hmore⟩ := hf.statics
  rw [hf.fields]
  refine List.rel_append (hplan.imp fun _ _ hg => hmore ▸ hg.of_interns more hinterns) ?_
  exact .cons ⟨hf.toFieldDeclared, hf.slot⟩ .nil

/-- What is read of a class after its supertypes. -/
structure MembersRead (cf : ClassFile) (name : String) (superclass : Option ClassId)
    (interfaces : List ClassId) (owner : ClassId) (m : Machine) (cls : Class) : Prop where
  name : cls.name = name
  superclass : cls.superclass = superclass
  interfaces : cls.interfaces = interfaces
  flags : cls.flags = cf.flags
  sourceFile : cf.sourceFile? = .ok cls.sourceFile
  fields : List.Forall₂ (FieldPlanned m cf.pool owner cls.statics) cf.fields cls.fields
  methods : List.Forall₂ (MethodMirrors cf.pool owner) cf.methods cls.methods
  needsInit : cls.needsInit = cls.methods.any (·.name = initializerName)

theorem interns_readMembers (cf : ClassFile) (name : String) (superclass : Option ClassId)
    (interfaces : List ClassId) :
    Takes Interns m (readMembers cf name superclass interfaces) fun cls m' =>
      MembersRead cf name superclass interfaces m.classes.nextId m' cls := by
  unfold readMembers
  refine takes_get_bind ?_
  dsimp only
  refine Takes.bind (takes_foldlM_taken (P := fun taken plan m' =>
    List.Forall₂ (FieldPlanned m' cf.pool m.classes.nextId plan.statics) taken plan.fields)
    [] cf.fields (fun _ _ _ _ hplan => interns_planField hplan) .nil) ?_
  intro plan m₁ _ hplan
  refine Takes.bind (takes_mapM_forall₂
    (P := fun info x _ => MethodMirrors cf.pool m.classes.nextId info x) cf.methods
    (fun _ _ _ _ _ hx => hx)
    fun info m' => takes_liftThrowable fun x hx => methodMirrors_of_methodOf hx) ?_
  intro methods m₂ hinterns hmethods
  refine takes_liftThrowable_bind fun sourceFile hsource => takes_pure ?_
  have hfields := hplan.imp fun info f (hf : FieldPlanned ..) => hf.of_interns [] hinterns
  rw [List.append_nil] at hfields
  exact ⟨rfl, rfl, rfl, rfl, formatError_eq_ok.mp hsource, hfields, hmethods, rfl⟩

/-- The superclass is what the name in the file resolves to, if there is one. -/
theorem superclassOf_eq_ok (h : superclassOf resolver cf name m = (.ok superclass, m')) :
    ∃ super, cf.superClassName? = .ok super ∧ superclass.isSome = super.isSome ∧
      super.toList.mapM resolver m = (.ok superclass.toList, m') := by
  unfold superclassOf at h
  rw [run_liftThrowable_bind] at h
  split at h
  · next super hsuper =>
    refine ⟨super, formatError_eq_ok.mp hsuper, ?_⟩
    cases super with
    | none =>
      cases h
      exact ⟨rfl, rfl⟩
    | some s =>
      dsimp only at h
      split at h
      · cases h
      · obtain ⟨c, m₁, hc, ⟨⟩⟩ := run_bind_eq_ok.mp h
        refine ⟨rfl, ?_⟩
        show [s].mapM resolver m = _
        rw [List.mapM_cons, run_bind, hc]
        rfl
  · cases h

/-- Reading a class resolves the names of its supertypes, one after the other, and then reads its
members. -/
theorem readClass_eq_ok (h : readClass resolver cf name m = (.ok cls, m')) :
    ∃ super names superclass interfaces m₁, cf.superClassName? = .ok super ∧
      cf.interfaceNames = .ok names ∧ superclass.isSome = super.isSome ∧
      (super.toList ++ names).mapM resolver m = (.ok (superclass.toList ++ interfaces), m₁) ∧
      readMembers cf name superclass interfaces m₁ = (.ok cls, m') := by
  unfold readClass at h
  obtain ⟨superclass, m₁, hsuperclass, h⟩ := run_bind_eq_ok.mp h
  obtain ⟨super, hsuper, hsome, hrun⟩ := superclassOf_eq_ok hsuperclass
  rw [run_liftThrowable_bind] at h
  split at h
  · next names hnames =>
    obtain ⟨interfaces, m₂, hinterfaces, h⟩ := run_bind_eq_ok.mp h
    refine ⟨super, names, superclass, interfaces, m₂, hsuper, formatError_eq_ok.mp hnames, hsome,
      ?_, h⟩
    rw [List.mapM_append, run_bind, hrun]
    dsimp only
    rw [run_bind, hinterfaces]
    rfl
  · cases h

/-- A class has the name that it was read under. -/
theorem name_of_readClass (h : readClass resolver cf name m = (.ok cls, m')) : cls.name = name := by
  obtain ⟨_, _, _, _, m₁, _, _, _, _, hmembers⟩ := readClass_eq_ok h
  exact ((interns_readMembers cf name _ _).of_eq hmembers).2.name

/-! ## Definitions that succeed -/

/-- A definition that succeeds was not under way before, and is not afterwards. -/
theorem whileDefining_eq_ok {α : Type} {a : Action α} {x : α}
    (h : whileDefining name a m = (.ok x, m')) :
    name ∉ m.defining ∧ ∃ m₁, a (m.entering name) = (.ok x, m₁) ∧ m' = m₁.leaving name := by
  rw [run_whileDefining] at h
  split at h
  · cases h
  · next hidle =>
    obtain ⟨hx, rfl⟩ := Prod.mk.inj h
    exact ⟨hidle, _, Prod.ext hx rfl, rfl⟩

theorem addClass_eq_ok {c : ClassId} (h : addClass cls m = (.ok c, m')) :
    m.classes.find? cls.name = none ∧ c = m.classes.nextId ∧
      m' = { m with classes := m.classes.push cls } := by
  rw [run_addClass] at h
  split at h
  · cases h
  · next hnew =>
    cases h
    exact ⟨hnew, rfl, rfl⟩

/-- A definition that succeeds reads its class, while the name of the class is under way, and adds it
to what was added for its supertypes. -/
theorem adds_define_read {bytes : Bytes} {expected : Option String}
    (hres : ∀ n m, Takes (Machine.Adds fun _ _ => True) m (resolver n) fun c m' =>
      m'.classes.Named n c) :
    Takes (Machine.Adds fun _ _ => True) m (define resolver bytes expected) fun c m' =>
      ∃ cf cls m₁, ClassFile.parse bytes = .ok cf ∧ cf.className = .ok cls.name ∧
        (∀ e, expected = some e → cls.name = e) ∧
        readClass resolver cf cls.name (m.entering cls.name) = (.ok cls, m₁) ∧
        m₁.classes.find? cls.name = none ∧ c = m₁.classes.nextId ∧
        m' = ({ m₁ with classes := m₁.classes.push cls } : Machine).leaving cls.name := by
  refine takes_define_of fun cf name hparse hname hexpected =>
    ⟨(adds_whileDefining hname trivial hres).1, fun c hc => ?_⟩
  obtain ⟨_, m₂, hbuild, hm'⟩ := whileDefining_eq_ok (Prod.ext hc rfl)
  rw [build_eq_readClass] at hbuild
  obtain ⟨cls, m₁, hread, hadd⟩ := run_bind_eq_ok.mp hbuild
  obtain ⟨hnew, rfl, rfl⟩ := addClass_eq_ok hadd
  obtain rfl := name_of_readClass hread
  exact ⟨cf, cls, m₁, hparse, hname, fun e he => (hexpected e he).symm, hread, hnew, rfl, hm'⟩

/-- A plain name is that of the class it resolves to. -/
theorem adds_resolve_found (path : ClassPath) (name : String) :
    Takes (Machine.Adds fun _ _ => True) m (resolve path name) fun c m' =>
      m'.classes.Named name c ∧ (PlainName name → m'.classes.find? name = some c) := by
  refine takes_resolveWithin_of
    (Q := fun n c m' => m'.classes.Named n c ∧ (PlainName n → m'.classes.find? n = some c))
    ?_ ?_ ?_ _ name
  · exact fun n c m h => ⟨ClassTable.named_of_find? h, fun _ => h⟩
  · intro n c m harray
    refine (adds_arrayClass c).mono ?_
    rintro a m₁ _ ⟨cls, ha⟩
    exact ⟨⟨cls, ha, fun hplain => absurd harray hplain⟩, fun hplain => absurd harray hplain⟩
  · intro r n m hres _
    refine takes_load_of (fun bytes hbytes => ?_) fun c m' h =>
      ⟨ClassTable.named_of_find? h, fun _ => h⟩
    refine (adds_define_read fun k m => (hres k m).mono fun _ _ _ h => h.1).mono ?_
    rintro c m' _ ⟨cf, cls, m₁, _, _, hexpected, _, hnew, rfl, rfl⟩
    obtain rfl := hexpected n rfl
    have hfind := ClassTable.find?_push_self hnew
    exact ⟨ClassTable.named_of_find? hfind, fun _ => hfind⟩

/-- After names were resolved one after the other, the plain ones are found. -/
theorem found_of_mapM_resolve {l : List String} {cs : List ClassId}
    (h : l.mapM (resolve path) m = (.ok cs, m')) :
    List.Forall₂ (fun n c => PlainName n → m'.classes.find? n = some c) l cs := by
  have hall : Takes (Machine.Adds fun _ _ => True) m (l.mapM (resolve path)) fun cs m' =>
      List.Forall₂ (fun n c => PlainName n → m'.classes.find? n = some c) l cs :=
    takes_mapM_forall₂ (P := fun n c m => PlainName n → m.classes.find? n = some c) l
      (fun n c m m' hadds hc hplain => hadds.keeps.extends.find? (hc hplain))
      fun n m => (adds_resolve_found path n).mono fun _ _ _ hc => hc.2
  exact (hall.of_eq h).2

end Action

/-! ## The class after its definition -/

/-- A static field that was planned is read as its starting value, once its class is in the table. -/
theorem Action.FieldPlanned.mirrors {owner : ClassId} {f : Field} {cls : Class}
    (h : Action.FieldPlanned m pool owner cls.statics info f)
    (hclass : m'.classes.get? owner = some cls) (hinterned : m'.interned = m.interned) :
    FieldMirrors m' pool owner info f where
  toFieldDeclared := h.toFieldDeclared
  value := by
    intro hs
    obtain ⟨s, hget, v, hload, hv⟩ := h.start hs
    refine ⟨v, hv.of_kept fun _ _ hr => hinterned ▸ hr, fun target => ?_⟩
    have hslot : m'.staticSlot? f = some s := by
      rw [Machine.staticSlot?, h.owner, hclass]
      exact hget
    rw [Machine.getField_static hs, hslot, Option.bind_some, hload]
    rfl

open JavaMachine.Action in
/-- **What a definition leaves.**  A definition that succeeds, from whatever bytes, on whatever machine,
leaves a class that mirrors the file that the bytes spell. -/
theorem class_mirrors_file {path : ClassPath} {bytes : Bytes} {expected : Option String}
    {c : ClassId} (h : define (resolve path) bytes expected m = (.ok c, m')) :
    ∃ cf cls, ClassFile.parse bytes = .ok cf ∧ (∀ e, expected = some e → cls.name = e) ∧
      m'.classes.get? c = some cls ∧ ClassMirrors path m cf m' c cls := by
  have hres : ∀ n m, Takes (Machine.Adds fun _ _ => True) m (resolve path n) fun c m' =>
      m'.classes.Named n c := fun n m => adds_resolve (fun _ _ _ => trivial) n
  obtain ⟨-, cf, cls, m₂, hparse, hname, hexpected, hread, hnew, rfl, rfl⟩ :=
    (adds_define_read hres).of_eq h
  have hadds := ((adds_readClass hname hres).of_eq hread).1
  obtain ⟨super, names, superclass, interfaces, m₁, hsuper, hnames, hsome, hrun, hmembers⟩ :=
    readClass_eq_ok hread
  obtain ⟨hinterns, hmembers⟩ := (interns_readMembers ..).of_eq hmembers
  have hclass : (m₂.classes.push cls).get? m₂.classes.nextId = some cls :=
    ClassTable.get?_push_nextId ..
  have hfresh : m.classes.find? cls.name = none := by
    rw [← Option.not_isSome_iff_eq_none, Option.isSome_iff_exists]
    rintro ⟨d, hd⟩
    exact nomatch (hadds.keeps.extends.find? hd).symm.trans hnew
  -- Reading the members left the table alone, so the class has the identity they were read for.
  rw [← hinterns.classes] at hmembers
  refine ⟨cf, cls, hparse, hexpected, hclass, ?_⟩
  exact {
    name := hname
    added := ⟨hfresh, ClassTable.find?_push_self hnew⟩
    flags := hmembers.flags
    sourceFile := hmembers.sourceFile
    supertypes := {
      resolved := by
        rw [hmembers.superclass, hmembers.interfaces]
        exact ⟨super, names, m₁, hsuper, hnames, hsome, hrun⟩
      lasting := by
        rw [hmembers.superclass, hmembers.interfaces, ClassFile.supertypeNames_eq hsuper hnames]
        refine (found_of_mapM_resolve hrun).imp fun n d hd hplain => ?_
        rw [resolve_eq]
        refine resolveStep_of_find? ((ClassTable.extends_push _ cls).find? ?_)
        rw [hinterns.classes]
        exact hd hplain }
    fields := by
      refine hmembers.fields.imp fun info f hf => ?_
      exact FieldPlanned.mirrors hf hclass rfl
    methods := hmembers.methods
    needsInit := by
      rw [hmembers.needsInit, List.any_eq_true]
      exact exists_congr fun x => and_congr_right fun _ => decide_eq_true_iff }

/-- A class `D` below `B` with the interface `I`.  It has static fields with the constants 300 for a
byte, 2 for a boolean and the text `D` for a string, one more static field and one of instances, an
initializer with code, and a method without. -/
def constantsFile : Bytes := [
    0xCA, 0xFE, 0xBA, 0xBE, 0x00, 0x00, 0x00, 0x34, 0x00, 0x18, 0x01, 0x00, 0x01, 0x44, 0x07,
    0x00, 0x01, 0x01, 0x00, 0x01, 0x42, 0x07, 0x00, 0x03, 0x01, 0x00, 0x01, 0x49, 0x07, 0x00,
    0x05, 0x03, 0x00, 0x00, 0x01, 0x2C, 0x01, 0x00, 0x0D, 0x43, 0x6F, 0x6E, 0x73, 0x74, 0x61,
    0x6E, 0x74, 0x56, 0x61, 0x6C, 0x75, 0x65, 0x01, 0x00, 0x01, 0x62, 0x03, 0x00, 0x00, 0x00,
    0x02, 0x01, 0x00, 0x01, 0x7A, 0x01, 0x00, 0x01, 0x5A, 0x08, 0x00, 0x01, 0x01, 0x00, 0x01,
    0x73, 0x01, 0x00, 0x12, 0x4C, 0x6A, 0x61, 0x76, 0x61, 0x2F, 0x6C, 0x61, 0x6E, 0x67, 0x2F,
    0x53, 0x74, 0x72, 0x69, 0x6E, 0x67, 0x3B, 0x01, 0x00, 0x01, 0x6A, 0x01, 0x00, 0x01, 0x4A,
    0x01, 0x00, 0x01, 0x78, 0x01, 0x00, 0x04, 0x43, 0x6F, 0x64, 0x65, 0x01, 0x00, 0x08, 0x3C,
    0x63, 0x6C, 0x69, 0x6E, 0x69, 0x74, 0x3E, 0x01, 0x00, 0x03, 0x28, 0x29, 0x56, 0x01, 0x00,
    0x01, 0x66, 0x01, 0x00, 0x06, 0x28, 0x5B, 0x4A, 0x5A, 0x29, 0x42, 0x00, 0x01, 0x00, 0x02,
    0x00, 0x04, 0x00, 0x01, 0x00, 0x06, 0x00, 0x05, 0x00, 0x08, 0x00, 0x09, 0x00, 0x03, 0x00,
    0x01, 0x00, 0x08, 0x00, 0x00, 0x00, 0x02, 0x00, 0x07, 0x00, 0x08, 0x00, 0x0B, 0x00, 0x0C,
    0x00, 0x01, 0x00, 0x08, 0x00, 0x00, 0x00, 0x02, 0x00, 0x0A, 0x00, 0x08, 0x00, 0x0E, 0x00,
    0x0F, 0x00, 0x01, 0x00, 0x08, 0x00, 0x00, 0x00, 0x02, 0x00, 0x0D, 0x00, 0x08, 0x00, 0x10,
    0x00, 0x11, 0x00, 0x00, 0x00, 0x00, 0x00, 0x12, 0x00, 0x05, 0x00, 0x00, 0x00, 0x02, 0x00,
    0x08, 0x00, 0x14, 0x00, 0x15, 0x00, 0x01, 0x00, 0x13, 0x00, 0x00, 0x00, 0x0D, 0x00, 0x01,
    0x00, 0x01, 0x00, 0x00, 0x00, 0x01, 0xB1, 0x00, 0x00, 0x00, 0x00, 0x04, 0x01, 0x00, 0x16,
    0x00, 0x17, 0x00, 0x00, 0x00, 0x00]

open JavaMachine.Action Machine in
/-- The class `D` has all that its file says: the byte is what fits of 300, and the string is the first
object. -/
theorem class_mirrors_file_constantsFile :
    ∃ c m' cf cls, define (resolve hierarchyPath) constantsFile none {} = (.ok c, m') ∧
      m'.classes.get? c = some cls ∧ ClassMirrors hierarchyPath {} cf m' c cls ∧
      cls.fields.length = 5 ∧ cls.methods.length = 2 ∧ cls.needsInit = true ∧
      cls.fields.map (fun f => (m'.getField f none).toOption) =
        [some (.byte 44), some (.boolean true), some (.ref ⟨0⟩), some (.long 0), none] := by
  have hcounts : (ClassFile.parse constantsFile).toOption.map
      (fun cf => (cf.fields.length, cf.methods.length)) = some (5, 2) := by decide +kernel
  have hread : (define (resolve hierarchyPath) constantsFile none {}).1.toOption.bind (fun c =>
      ((define (resolve hierarchyPath) constantsFile none {}).2.classes.get? c).map fun cls =>
        (cls.needsInit, cls.fields.map fun f =>
          ((define (resolve hierarchyPath) constantsFile none {}).2.getField f none).toOption)) =
      some (true, [some (.byte 44), some (.boolean true), some (.ref ⟨0⟩), some (.long 0), none]) := by
    decide +kernel
  rcases hrun : define (resolve hierarchyPath) constantsFile none {} with ⟨e | c, m'⟩
  · rw [hrun] at hread
    cases hread
  · obtain ⟨cf, cls, hparse, -, hclass, hmirrors⟩ := class_mirrors_file hrun
    rw [hrun] at hread
    simp only [Except.toOption, Option.bind_some, hclass, Option.map_some, Option.some.injEq,
      Prod.mk.injEq] at hread
    rw [hparse] at hcounts
    obtain ⟨hfields, hmethods⟩ := Prod.mk.inj (Option.some.inj hcounts)
    refine ⟨c, m', cf, cls, rfl, hclass, hmirrors, ?_, ?_, hread.1, hread.2⟩
    · rw [← hmirrors.fields.length_eq, hfields]
    · rw [← hmirrors.methods.length_eq, hmethods]

end JavaMachine
