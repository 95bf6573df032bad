/-
# Definitions by steps

Defining a class, and resolving a name, goes by steps of the machine whatever the file holds and
however the definition ends: the classes that come in on the way are those of files, with fields
laid out behind those of their superclasses, and array classes.
-/
import JavaMachine.Machine.Linking
import JavaMachine.Proofs.Making

namespace JavaMachine

variable {named : String → Prop} {m : Machine}

theorem formatError_eq_ok {α : Type} {r : Except ClassFileError α} {x : α} :
    formatError r = .ok x ↔ r = .ok x :=
  mapError_eq_ok

/-- A constant for a field of a kind is of that kind. -/
theorem tag_constantFor? {c : Constant} {t : Tag} {v : Value} (h : constantFor? c t = some v) :
    v.tag = t := by
  unfold constantFor? at h
  split at h <;> cases h <;> rfl

/-- The machine with the definition of a class under way. -/
def Machine.entering (m : Machine) (name : String) : Machine :=
  { m with defining := name :: m.defining }

/-- The machine with the definition of a class no longer under way. -/
def Machine.leaving (m : Machine) (name : String) : Machine :=
  { m with defining := m.defining.erase name }

namespace Action

/-! ## Fields -/

theorem takes_constantValue (pool : ConstantPool) (index : UInt16) (t : Tag) :
    Takes (Machine.Evolves named) m (constantValue pool index t) fun v m' =>
      v.tag = t ∧ m'.classes = m.classes := by
  unfold constantValue
  refine takes_liftThrowable_bind ?_
  intro c hc
  split
  · refine takes_liftThrowable_bind ?_
    intro s hs
    exact (takes_intern s).bind fun _ _ _ h => takes_pure ⟨rfl, h⟩
  · split
    · next v hv => exact takes_pure ⟨tag_constantFor? hv, rfl⟩
    · exact takes_raise _

theorem takes_initialSlot (pool : ConstantPool) (info : MemberInfo) (t : Tag) :
    Takes (Machine.Evolves named) m (initialSlot pool info t) fun s m' =>
      s.Holds t ∧ m'.classes = m.classes := by
  unfold initialSlot
  split
  · refine takes_pure ⟨?_, rfl⟩
    rw [Slot.Holds, Slot.load?_zero]
    rfl
  · next index _ =>
    refine (takes_constantValue pool index t).bind ?_
    rintro v m₁ _ ⟨rfl, hclasses⟩
    refine takes_pure ⟨?_, hclasses⟩
    rw [Slot.Holds, Slot.load?_ofValue]
    rfl

theorem takes_planField {pool : ConstantPool} {owner : ClassId} {inherited : Layout}
    {t : ClassTable} {plan : FieldPlan} {info : MemberInfo} (hplan : plan.Sound owner inherited)
    (hpacked : Packed plan.fields plan.statics) (hm : m.classes = t) :
    Takes (Machine.Evolves named) m (planField pool owner plan info) fun plan m' =>
      (plan.Sound owner inherited ∧ Packed plan.fields plan.statics) ∧ m'.classes = t := by
  unfold planField
  refine takes_liftThrowable_bind ?_
  intro name _
  refine takes_liftThrowable_bind ?_
  intro descriptor _
  refine takes_liftThrowable_bind ?_
  intro tag _
  dsimp only
  split
  · next hs =>
    refine (takes_initialSlot pool info tag).bind ?_
    rintro s m₁ _ ⟨hslot, hclasses⟩
    refine takes_pure ⟨⟨?_, ?_⟩, hclasses.trans hm⟩
    · exact hplan.addStatic (fun _ => rfl) (fun _ => rfl) (fun _ => rfl) (fun _ => hs) hslot
    · exact hplan.packed_addStatic hpacked (fun _ => rfl) fun _ => hs
  · next hs =>
    have hs := Bool.eq_false_iff.mpr hs
    refine takes_pure ⟨⟨?_, ?_⟩, hm⟩
    · exact hplan.addInstance (fun _ => rfl) (fun _ => rfl) (fun _ => rfl) fun _ => hs
    · exact hplan.packed_addInstance hpacked (fun _ => rfl) (fun _ => rfl) fun _ => hs

/-! ## Definitions -/

variable {resolver : String → Action ClassId}

/-- A part of a definition runs with the name of the class under way, unless it already is. -/
theorem run_whileDefining {α : Type} (name : String) (a : Action α) (m : Machine) :
    whileDefining name a m =
      if name ∈ m.defining then (.error (.thrown (.classCircularity name)), m)
      else ((a (m.entering name)).1, (a (m.entering name)).2.leaving name) := by
  unfold whileDefining
  rw [run_bind, run_get]
  show (if name ∈ m.defining then _ else _ : Action α) m = _
  split
  · rfl
  · rfl

/-- Within a definition of `name`, a computation goes by steps from the state in which the name is
under way. -/
theorem takes_whileDefining {α : Type} {name : String} {a : Action α} {Q Q' : α → Machine → Prop}
    (ha : Takes (Machine.Evolves named) (m.entering name) a Q)
    (hQ : ∀ x m', Q x m' → Q' x (m'.leaving name)) :
    Takes (Machine.Evolves named) m (whileDefining name a) Q' := by
  unfold Takes
  rw [run_whileDefining]
  split
  · exact ⟨.refl m, fun _ h => nomatch h⟩
  · refine ⟨⟨?_, ?_, ha.1.started⟩, fun x hx => hQ x _ (ha.2 x hx)⟩
    · have hin : m.Step named (m.entering name) := Machine.step_of_eq rfl rfl
      have hout : (a (m.entering name)).2.Step named ((a (m.entering name)).2.leaving name) :=
        Machine.step_of_eq rfl rfl
      exact (ha.1.steps.head hin).tail hout
    · show (a (m.entering name)).2.defining.erase name = m.defining
      rw [ha.1.defining]
      exact List.erase_cons_head ..

section Walks

variable {Rel : Machine → Machine → Prop} [IsPreorder Machine Rel] {path : ClassPath}

/-- The superclass is what the file names, resolved. -/
theorem takes_superclassOf_of {cf : ClassFile} {name : String}
    {Q : String → ClassId → Machine → Prop} (hres : ∀ n m, Takes Rel m (resolver n) (Q n)) :
    Takes Rel m (superclassOf resolver cf name) fun superclass m' =>
      ∃ s, cf.superClassName? = .ok s ∧ s ≠ some name ∧
        Option.Rel (fun n c => Q n c m') s superclass := by
  unfold superclassOf
  refine takes_liftThrowable_bind fun s hs => ?_
  have hs := formatError_eq_ok.mp hs
  split
  · exact takes_pure ⟨none, hs, (fun h => nomatch h), .none⟩
  · next s _ =>
    split
    · exact takes_raise _
    · next hne =>
      refine (hres s m).bind fun c m₁ _ hc => takes_pure ?_
      exact ⟨some s, hs, fun h => hne (Option.some.inj h), .some hc⟩

/-- A definition goes by checks, which change nothing, to its part proper. -/
theorem takes_define_of {bytes : Bytes} {expected : Option String} {Q : ClassId → Machine → Prop}
    (h : ∀ cf name, ClassFile.parse bytes = .ok cf → cf.className = .ok name →
      (∀ e, expected = some e → e = name) →
      Takes Rel m (whileDefining name (build resolver cf name)) Q) :
    Takes Rel m (define resolver bytes expected) Q := by
  unfold define
  refine takes_liftThrowable_bind fun cf hcf => takes_liftThrowable_bind fun name hname => ?_
  dsimp only
  split
  · exact (takes_raise (Q := fun _ _ => False) _).bind fun _ _ _ h => h.elim
  · next hfilter =>
    refine takes_get_bind (takes_check fun _ => ?_)
    refine h cf name (formatError_eq_ok.mp hcf) (formatError_eq_ok.mp hname) ?_
    intro e he
    rw [he, Option.filter_eq_none_iff] at hfilter
    simpa using hfilter e rfl

/-- A class is loaded by the definition from its file, after which it may be found even where that has
failed. -/
theorem takes_load_of {name : String} {Q : ClassId → Machine → Prop}
    (hdefine : ∀ bytes, path.find? (name ++ ".class") = some bytes →
      Takes Rel m (define resolver bytes (some name)) Q)
    (hfind : ∀ c m', m'.classes.find? name = some c → Q c m') :
    Takes Rel m (load resolver path name) Q := by
  unfold load
  split
  · exact takes_raise _
  · next bytes hbytes =>
    refine (hdefine bytes hbytes).attempt.bind fun r m₁ _ hr => ?_
    split
    · next c => exact takes_pure (hr c rfl)
    · split
      · refine takes_get_bind ?_
        split
        · next c hc => exact takes_pure (hfind c m₁ hc)
        · exact takes_raise _
      · exact takes_raise _

/-- A resolution finds its class, makes an array class, or loads a class with resolutions inside. -/
theorem takes_resolveWithin_of {Q : String → ClassId → Machine → Prop}
    (hfind : ∀ n c m, m.classes.find? n = some c → Q n c m)
    (harray : ∀ n c m, IsArrayName n → Takes Rel m (arrayClass c) (Q n))
    (hload : ∀ r n m, (∀ k m, Takes Rel m (r k) (Q k)) → PlainName n →
      Takes Rel m (load r path n) (Q n)) (bound : Nat) (name : String) :
    Takes Rel m (resolveWithin path bound name) (Q name) := by
  induction bound generalizing name m with
  | zero => exact takes_abort _
  | succ bound ih =>
    unfold resolveWithin
    refine takes_get_bind ?_
    split
    · next c hc => exact takes_pure (hfind name c m hc)
    · split
      · next descriptor hl =>
        split
        · exact takes_raise _
        · next component _ =>
          refine Takes.bind (Q := fun _ _ => True) ?_ fun c m₁ _ _ =>
            harray name c m₁ (isArrayName_of_toList hl)
          cases component with
          | primitive p => exact takes_pure trivial
          | named n => exact (ih n).mono fun _ _ _ _ => trivial
      · next chars hne =>
        refine hload _ name m (fun k m => ih k) ?_
        intro h
        obtain ⟨rest, hl⟩ := isArrayName_iff.mp h
        exact hne rest hl

end Walks

theorem takes_superclassOf {cf : ClassFile} {name : String}
    (hres : ∀ n m, Takes (Machine.Evolves named) m (resolver n) fun c m' =>
      c.index < m'.classes.size) :
    Takes (Machine.Evolves named) m (superclassOf resolver cf name) fun s m' =>
      ∀ c, s = some c → c.index < m'.classes.size := by
  refine (takes_superclassOf_of (Q := fun _ c m' => c.index < m'.classes.size) hres).mono ?_
  rintro _ m' _ ⟨s, _, _, hrel⟩ c rfl
  cases hrel with
  | some hc => exact hc

/-- A method of a class file is one of the class that is being built. -/
theorem owner_methodOf {pool : ConstantPool} {owner : ClassId} {info : MemberInfo} {x : Method}
    (h : methodOf pool owner info = .ok x) : x.owner = owner := by
  obtain ⟨name, _, h⟩ := bind_eq_ok.mp h
  obtain ⟨descriptor, _, h⟩ := bind_eq_ok.mp h
  split at h
  · cases h
  · next y hy =>
    obtain ⟨_, _, rfl⟩ := Option.map_eq_some_iff.mp hy
    split at h
    · cases h
      rfl
    · cases h
      rfl

/-- Names that are resolved one after the other give classes of the table. -/
theorem takes_mapM_resolver (l : List String)
    (hres : ∀ n m, Takes (Machine.Evolves named) m (resolver n) fun c m' =>
      c.index < m'.classes.size) :
    Takes (Machine.Evolves named) m (l.mapM resolver) fun cs m' =>
      ∀ c ∈ cs, c.index < m'.classes.size := by
  have hall := takes_mapM_lasting (m := m) (I := fun _ => True)
    (P := fun (c : ClassId) m => c.index < m.classes.size) l
    (fun _ _ _ _ h hc => Nat.lt_of_lt_of_le hc h.extends.size_le)
    (fun n m _ => (hres n m).mono fun _ _ _ hc => ⟨hc, trivial⟩) trivial
  exact hall.mono fun _ _ _ h => h.1

theorem takes_build {cf : ClassFile} {name : String} (hnamed : named name)
    (hres : ∀ n m, Takes (Machine.Evolves named) m (resolver n) fun c m' =>
      c.index < m'.classes.size) :
    Takes (Machine.Evolves named) m (build resolver cf name) fun c m' =>
      ∃ cls, m'.classes.get? c = some cls ∧ cls.name = name ∧ cls.kind = .ordinary := by
  unfold build
  refine (takes_superclassOf hres).bind ?_
  intro superclass m₁ h₁ hsuper
  refine takes_liftThrowable_bind ?_
  intro names _
  refine (takes_mapM_resolver names hres).bind ?_
  intro interfaces m₂ h₂ hinterfaces
  refine takes_get_bind ?_
  dsimp only
  -- Planning fields and reading methods keep the table, in which the superclass has its layout.
  have hstart := FieldPlan.sound_start m₂.classes.nextId (m₂.classes.inheritedLayout superclass)
  refine Takes.bind (takes_foldlM (P := fun plan m' => (plan.Sound m₂.classes.nextId
    (m₂.classes.inheritedLayout superclass) ∧ Packed plan.fields plan.statics) ∧
      m'.classes = m₂.classes) cf.fields
    (fun plan info m' hp => takes_planField hp.1.1 hp.1.2 hp.2) ⟨⟨hstart, packed_nil⟩, rfl⟩) ?_
  rintro plan m₃ h₃ ⟨⟨hplan, hpacked⟩, hclasses⟩
  refine Takes.bind (takes_mapM_mem (I := fun m' => m'.classes = m₃.classes)
    (P := fun x => x.owner = m₂.classes.nextId) cf.methods
    (fun info m' hm' => takes_liftThrowable fun _ hx => ⟨owner_methodOf hx, hm'⟩) rfl) ?_
  rintro methods m₄ h₄ ⟨howners, hclasses'⟩
  refine takes_liftThrowable_bind ?_
  intro sourceFile _
  refine takes_get_bind (takes_liftThrowable_bind ?_)
  rintro ⟨classes, c⟩ hdefine
  obtain ⟨hfresh, rfl, rfl⟩ := ClassTable.define_eq_ok hdefine
  refine takes_modify_bind
    (Machine.Step.evolves (.classes rfl (.file ?_ hnamed hplan.slots hpacked hfresh)) rfl ?_)
    (takes_pure ?_)
  · refine ⟨rfl, ?_, ?_, ?_, rfl, plan.statics, ?_⟩
    · intro s hs
      rw [hclasses', hclasses]
      exact Nat.lt_of_lt_of_le (hsuper s hs) h₂.extends.size_le
    · intro i hi
      rw [hclasses', hclasses]
      exact hinterfaces i hi
    · rw [hclasses', hclasses]
      exact howners
    · rw [hclasses', hclasses]
      exact hplan
  · exact ClassTable.isStarted_push rfl
  · exact ⟨_, ClassTable.get?_push_nextId .., rfl, rfl⟩

/-- A class file that is defined has a name that is new, and the one that is expected. -/
theorem takes_define {bytes : Bytes} {expected : Option String}
    (hnamed : ∀ cf name, ClassFile.parse bytes = .ok cf → cf.className = .ok name →
      (∀ e, expected = some e → e = name) → named name)
    (hres : ∀ n m, Takes (Machine.Evolves named) m (resolver n) fun c m' =>
      c.index < m'.classes.size) :
    Takes (Machine.Evolves named) m (define resolver bytes expected) fun c m' =>
      ∃ cls, m'.classes.get? c = some cls ∧ cls.kind = .ordinary ∧
        ∀ e, expected = some e → cls.name = e := by
  refine takes_define_of fun cf name hcf hname hexpected => ?_
  refine takes_whileDefining (takes_build (hnamed cf name hcf hname hexpected) hres) ?_
  rintro c m' ⟨cls, hc, hcname, hkind⟩
  exact ⟨cls, hc, hkind, fun e he => hcname.trans (hexpected e he).symm⟩

/-! ## Resolution -/

/-- A class of a plain name comes from its file by steps, and has that name. -/
theorem takes_load {path : ClassPath} {name : String} (hnamed : named name)
    (hres : ∀ n m, Takes (Machine.Evolves named) m (resolver n) fun c m' =>
      c.index < m'.classes.size) :
    Takes (Machine.Evolves named) m (load resolver path name) fun c m' =>
      ∃ cls, m'.classes.get? c = some cls ∧ cls.name = name := by
  refine takes_load_of (fun bytes _ => ?_) fun c m' => ClassTable.get?_of_find?
  refine (takes_define (fun _ n _ _ he => he name rfl ▸ hnamed) hres).mono ?_
  rintro c m' _ ⟨cls, hc, _, hname⟩
  exact ⟨cls, hc, hname name rfl⟩

/-- A resolution goes by steps to a class of the table, where files may have all plain names. -/
theorem takes_resolveWithin (hplain : ∀ n, PlainName n → named n) (path : ClassPath)
    (bound : Nat) (name : String) :
    Takes (Machine.Evolves named) m (resolveWithin path bound name) fun c m' =>
      c.index < m'.classes.size := by
  refine takes_resolveWithin_of (Q := fun _ c m' => c.index < m'.classes.size) ?_ ?_ ?_ bound name
  · intro n c m hfind
    obtain ⟨cls, hc, _⟩ := ClassTable.get?_of_find? hfind
    exact ClassTable.lt_size_of_get? hc
  · intro n c m _
    refine (takes_arrayClass c).mono ?_
    rintro a m₁ _ ⟨cls, ha, _⟩
    exact ClassTable.lt_size_of_get? ha
  · intro r n m hres hn
    refine (takes_load (hplain n hn) hres).mono ?_
    rintro c m₁ _ ⟨cls, hc, _⟩
    exact ClassTable.lt_size_of_get? hc

theorem takes_resolve (hplain : ∀ n, PlainName n → named n) (path : ClassPath) (name : String) :
    Takes (Machine.Evolves named) m (resolve path name) fun c m' => c.index < m'.classes.size :=
  takes_resolveWithin hplain path _ name

/-- Defining a class goes by steps, where files may have all plain names and the file that is read
has a name that files may have. -/
theorem takes_defineClass (hplain : ∀ n, PlainName n → named n) (path : ClassPath) {bytes : Bytes}
    (hnamed : ∀ cf name, ClassFile.parse bytes = .ok cf → cf.className = .ok name → named name) :
    Takes (Machine.Evolves named) m (defineClass path bytes) fun c m' =>
      c.index < m'.classes.size := by
  refine (takes_define (fun cf name hcf hname _ => hnamed cf name hcf hname)
    fun n m => takes_resolve hplain path n).mono ?_
  rintro c m₁ _ ⟨cls, hc, _⟩
  exact ClassTable.lt_size_of_get? hc

end Action

end JavaMachine
