/-
# Outcomes of definitions

Whatever becomes of a definition or a resolution, the definitions under way and the scratch space are
afterwards what they were before (`Machine.definition_outcome`).  For the scratch space this holds
because nothing in a definition looks at it (`Action.Oblivious`), so that the copy of the bytes that a
range of an array holds makes no difference: defining from the range is defining from the bytes
(`Action.run_defineRange`).  The classes that are added are completely defined, by
`Action.adds_defineClass` and `Action.adds_resolve`.
-/
import JavaMachine.Proofs.AddedClasses
import JavaMachine.Proofs.Operations

namespace JavaMachine

/-- The machine with another amount of scratch space. -/
def Machine.withScratch (m : Machine) (n : Nat) : Machine := { m with scratchBytes := n }

namespace Action

variable {α β : Type} {a : Action α} {f : α → Action β}

/-! ## Computations that do not look at the scratch space -/

/-- The computation runs alike whatever the scratch space is, and leaves it alone. -/
def Oblivious (a : Action α) : Prop :=
  ∀ m n, a (m.withScratch n) = ((a m).1, (a m).2.withScratch n)

/-- The scratch space is the same afterwards. -/
theorem Oblivious.scratchBytes (h : Oblivious a) (m : Machine) :
    (a m).2.scratchBytes = m.scratchBytes := by
  have hsame := h m m.scratchBytes
  have hself : m.withScratch m.scratchBytes = m := rfl
  rw [hself] at hsame
  exact congrArg (fun r => r.2.scratchBytes) hsame

theorem oblivious_pure (x : α) : Oblivious (pure x : Action α) := fun _ _ => rfl

/-- Ending early looks at nothing. -/
theorem oblivious_throw (e : Stop) : Oblivious (throw e : Action α) := fun _ _ => rfl

theorem oblivious_raise (t : Throwable) : Oblivious (raise t : Action α) := oblivious_throw _

/-- A change may not look at the scratch space. -/
theorem oblivious_modify {g : Machine → Machine}
    (hg : ∀ m n, g (m.withScratch n) = (g m).withScratch n) : Oblivious (modify g) := by
  intro m n
  show (Except.ok PUnit.unit, g (m.withScratch n)) = (Except.ok PUnit.unit, (g m).withScratch n)
  rw [hg m n]

/-- A check without the machine looks at nothing. -/
theorem oblivious_liftStop (r : Except Stop α) : Oblivious (liftM r : Action α) := by
  intro m n
  rw [run_liftStop, run_liftStop]

theorem oblivious_liftThrowable (r : Except Throwable α) : Oblivious (liftM r : Action α) :=
  oblivious_liftStop _

/-- Computations that do not look may follow each other. -/
theorem Oblivious.bind (ha : Oblivious a) (hf : ∀ x, Oblivious (f x)) : Oblivious (a >>= f) := by
  intro m n
  rw [run_bind, run_bind, ha m n]
  rcases a m with ⟨e | x, m'⟩
  · rfl
  · exact hf x m' n

/-- A computation may look at everything else. -/
theorem oblivious_get_bind {g : Machine → Action β} (hg : ∀ m n, g (m.withScratch n) = g m)
    (h : ∀ m, Oblivious (g m)) : Oblivious (get >>= g) := by
  intro m n
  rw [run_bind, run_bind, run_get, run_get]
  dsimp only
  rw [hg m n]
  exact h m m n

/-- What is decided without looking may be decided. -/
theorem oblivious_ite {c : Prop} [Decidable c] {a b : Action α} (ha : Oblivious a)
    (hb : Oblivious b) : Oblivious (if c then a else b) := by
  split
  · exact ha
  · exact hb

/-- How a computation ends does not depend on the scratch space. -/
theorem Oblivious.attempt (ha : Oblivious a) : Oblivious a.attempt := by
  intro m n
  unfold Action.attempt
  rw [ha m n]
  rcases a m with ⟨(t | g | c | _) | x, m'⟩
  all_goals rfl

/-- What is done at the end may not look either. -/
theorem Oblivious.andFinally {g : Machine → Machine} (ha : Oblivious a)
    (hg : ∀ m n, g (m.withScratch n) = (g m).withScratch n) : Oblivious (a.andFinally g) := by
  intro m n
  unfold Action.andFinally
  rw [ha m n]
  exact congrArg (fun m' => ((a m).1, m')) (hg (a m).2 n)

/-- Going through a list does not look where no item does. -/
theorem oblivious_mapM {γ : Type} (l : List γ) {g : γ → Action β} (hg : ∀ c, Oblivious (g c)) :
    Oblivious (l.mapM g) := by
  induction l with
  | nil => exact oblivious_pure _
  | cons c l ih =>
    rw [List.mapM_cons]
    exact (hg c).bind fun x => ih.bind fun xs => oblivious_pure _

/-- Folding a list does not look where no step does. -/
theorem oblivious_foldlM {γ : Type} (l : List γ) {g : α → γ → Action α}
    (hg : ∀ x c, Oblivious (g x c)) (x : α) : Oblivious (l.foldlM g x) := by
  induction l generalizing x with
  | nil => exact oblivious_pure x
  | cons c l ih =>
    rw [List.foldlM_cons]
    exact (hg x c).bind fun y => ih y

/-! ## Definitions do not look at the scratch space -/

/-- Interning looks at the strings alone. -/
theorem oblivious_intern (s : String) : Oblivious (intern s) := by
  refine oblivious_get_bind (fun _ _ => rfl) fun m => ?_
  split
  · exact oblivious_pure _
  · refine Oblivious.bind (fun _ _ => rfl) fun r => ?_
    exact (oblivious_modify fun _ _ => rfl).bind fun _ => oblivious_pure r

theorem oblivious_initialSlot (pool : ConstantPool) (info : MemberInfo) (t : Tag) :
    Oblivious (initialSlot pool info t) := by
  unfold initialSlot constantValue
  split
  · exact oblivious_pure _
  · refine Oblivious.bind ?_ fun v => oblivious_pure _
    refine (oblivious_liftThrowable _).bind fun c => ?_
    split
    · exact (oblivious_liftThrowable _).bind fun s =>
        (oblivious_intern s).bind fun r => oblivious_pure _
    · split
      · exact oblivious_pure _
      · exact oblivious_raise _

/-- A field is planned from the pool, and its constant may be interned. -/
theorem oblivious_planField (pool : ConstantPool) (owner : ClassId) (plan : FieldPlan)
    (info : MemberInfo) : Oblivious (planField pool owner plan info) := by
  unfold planField
  refine (oblivious_liftThrowable _).bind fun name => ?_
  refine (oblivious_liftThrowable _).bind fun descriptor => ?_
  refine (oblivious_liftThrowable _).bind fun tag => ?_
  exact oblivious_ite ((oblivious_initialSlot _ _ _).bind fun s => oblivious_pure _)
    (oblivious_pure _)

variable {resolver : String → Action ClassId}

/-- A class is built from its file and its supertypes. -/
theorem oblivious_build (hres : ∀ n, Oblivious (resolver n)) (cf : ClassFile) (name : String) :
    Oblivious (build resolver cf name) := by
  have hsuper : Oblivious (superclassOf resolver cf name) := by
    unfold superclassOf
    refine (oblivious_liftThrowable _).bind fun s => ?_
    split
    · exact oblivious_pure _
    · exact oblivious_ite (oblivious_raise _) ((hres _).bind fun c => oblivious_pure _)
  unfold build
  refine hsuper.bind fun superclass => ?_
  refine (oblivious_liftThrowable _).bind fun names => ?_
  refine (oblivious_mapM names hres).bind fun interfaces => ?_
  refine oblivious_get_bind (fun _ _ => rfl) fun m => ?_
  refine (oblivious_foldlM _ (fun plan info => oblivious_planField _ _ plan info) _).bind ?_
  intro plan
  refine (oblivious_mapM _ fun info => oblivious_liftThrowable _).bind fun methods => ?_
  refine (oblivious_liftThrowable _).bind fun sourceFile => ?_
  refine oblivious_get_bind (fun _ _ => rfl) fun m' => ?_
  refine (oblivious_liftThrowable _).bind fun added => ?_
  exact (oblivious_modify fun _ _ => rfl).bind fun _ => oblivious_pure _

/-- A definition looks at the classes, and at what is being defined. -/
theorem oblivious_define (hres : ∀ n, Oblivious (resolver n)) (bytes : Bytes)
    (expected : Option String) : Oblivious (define resolver bytes expected) := by
  unfold define
  refine (oblivious_liftThrowable _).bind fun cf => ?_
  refine (oblivious_liftThrowable _).bind fun name => ?_
  have hbuild : Oblivious (whileDefining name (build resolver cf name)) := by
    refine oblivious_get_bind (fun _ _ => rfl) fun m => ?_
    refine oblivious_ite ((oblivious_raise _).bind fun _ => ?_) ?_
    all_goals
      refine (oblivious_modify fun _ _ => rfl).bind fun _ => ?_
      exact (oblivious_build hres cf name).andFinally fun _ _ => rfl
  have hrest : Oblivious (do
      if ((← get).classes.find? name).isSome then raise (.duplicateClass name)
      whileDefining name (build resolver cf name) : Action ClassId) := by
    refine oblivious_get_bind (fun _ _ => rfl) fun m => ?_
    exact oblivious_ite ((oblivious_raise _).bind fun _ => hbuild) hbuild
  dsimp only
  split
  · exact (oblivious_raise _).bind fun _ => hrest
  · exact hrest

/-- An array class is made from the classes alone. -/
theorem oblivious_arrayClass (component : ClassId) : Oblivious (arrayClass component) := by
  refine oblivious_get_bind (fun _ _ => rfl) fun m => ?_
  refine (oblivious_liftStop _).bind fun found => ?_
  exact (oblivious_modify fun _ _ => rfl).bind fun _ => oblivious_pure _

/-- Loading looks at the class path. -/
theorem oblivious_load (hres : ∀ n, Oblivious (resolver n)) (path : ClassPath) (name : String) :
    Oblivious (load resolver path name) := by
  unfold load
  split
  · exact oblivious_raise _
  · refine (oblivious_define hres _ _).attempt.bind fun r => ?_
    split
    · exact oblivious_pure _
    · refine oblivious_ite (oblivious_get_bind (fun _ _ => rfl) fun m => ?_) (oblivious_raise _)
      split
      · exact oblivious_pure _
      · exact oblivious_raise _

/-- By induction on the bound, no resolution inside another one looks. -/
theorem oblivious_resolve (path : ClassPath) (name : String) : Oblivious (resolve path name) := by
  unfold resolve
  induction resolutionBound path name generalizing name with
  | zero => exact oblivious_throw _
  | succ bound ih =>
    rw [resolveWithin_succ]
    refine oblivious_get_bind (fun _ _ => rfl) fun m => ?_
    split
    · exact oblivious_pure _
    · split
      · split
        · exact oblivious_raise _
        · next component _ =>
          refine Oblivious.bind ?_ fun c => oblivious_arrayClass c
          cases component with
          | primitive p => exact oblivious_pure _
          | named n => exact ih n
      · exact oblivious_load ih path name

/-- Defining from bytes needs no scratch space. -/
theorem oblivious_defineClass (path : ClassPath) (bytes : Bytes) :
    Oblivious (defineClass path bytes) :=
  oblivious_define (fun n => oblivious_resolve path n) bytes none

/-- Defining from a range of an array is defining from the bytes that the range holds, where it holds
any. -/
theorem run_defineRange (path : ClassPath) (array : Option ObjectRef) (offset length : Int32)
    (m : Machine) :
    defineRange path array offset length m =
      match m.classFileRange array offset length with
      | .ok bytes => defineClass path bytes m
      | .error e => (.error e, m) := by
  unfold defineRange
  rw [run_bind, run_get]
  dsimp only
  rw [run_bind, run_liftStop]
  cases m.classFileRange array offset length with
  | error e => rfl
  | ok bytes =>
    have hoblivious := oblivious_defineClass path bytes
    dsimp only
    show ((defineClass path bytes).andFinally fun m =>
      m.withScratch (m.scratchBytes - bytes.length))
        (m.withScratch (m.scratchBytes + bytes.length)) = _
    unfold Action.andFinally
    rw [hoblivious]
    have hback : m.scratchBytes + bytes.length - bytes.length =
        (defineClass path bytes m).2.scratchBytes := by
      rw [hoblivious.scratchBytes, Nat.add_sub_cancel]
    show ((defineClass path bytes m).1, (defineClass path bytes m).2.withScratch
      (m.scratchBytes + bytes.length - bytes.length)) = _
    rw [hback]
    rfl

end Action

/-! ## What is added -/

/-- A class that is completely defined: it has everything its file says, its fields are laid out
behind those of its superclass, its static fields have slots of their kinds, and it is found by its
name. -/
structure ClassTable.Finished (source : String → ClassFile → Prop) (t : ClassTable) (c : ClassId)
    (cls : Class) : Prop where
  completed : t.Completed source c cls
  laidOut : cls.kind = .ordinary → t.Linked c cls
  slots : SlotsFit cls.fields cls.statics
  found : t.find? cls.name = some c

/-- A class file that is given, or that the class path has for a name. -/
def ClassPath.Offers (path : ClassPath) (given : Bytes → Prop) (name : String) (cf : ClassFile) :
    Prop :=
  path.file? name = some cf ∨ ∃ bytes, given bytes ∧ ClassFile.parse bytes = .ok cf

namespace Machine

variable {m m' : Machine} {path : ClassPath} {source : String → ClassFile → Prop}

/-- From one machine to another, no definition is left under way, no scratch space is left behind, and
classes are added that are completely defined. -/
structure Settles (source : String → ClassFile → Prop) (m m' : Machine) : Prop where
  defining : m'.defining = m.defining
  scratch : m'.scratchBytes = m.scratchBytes
  keeps : m.classes.Keeps m'.classes
  added : ∀ c cls, m'.classes.get? c = some cls → m.classes.size ≤ c.index →
    m'.classes.Finished source c cls

/-- Where nothing is done nothing is left behind. -/
theorem settles_self (m : Machine) : m.Settles source m where
  defining := rfl
  scratch := rfl
  keeps := .refl _
  added := by
    intro c cls hc hnew
    have hlt := ClassTable.lt_size_of_get? hc
    omega

/-- Classes that are added completely, with nothing left under way, settle. -/
theorem Adds.settles (h : m.Adds source m') (hw : m.WellFormed fun _ => True)
    (hevolves : m.Evolves (fun _ => True) m') (hscratch : m'.scratchBytes = m.scratchBytes) :
    m.Settles source m' where
  defining := h.defining
  scratch := hscratch
  keeps := h.keeps
  added := by
    intro c cls hc hnew
    have hw' := (hevolves.wellFormed hw).classes
    refine ⟨h.added c cls hc hnew, ?_, hw'.slots c cls hc, hw'.unique.find?_name hc⟩
    intro hordinary
    cases hw'.origin c cls hc with
    | bootstrap hb hfixed =>
      -- The classes that are always there are no new ones.
      have hlt := ClassTable.lt_size_of_get? hb
      have hle := hw.classes.bootstrap.size_le
      omega
    | array hcomp hshape hfixed =>
      have hkind := Class.eq_of_fixed (d := JavaMachine.arrayClassOf ..) hfixed Class.kind
        fun _ => rfl
      rw [hordinary] at hkind
      cases hkind
    | file hlinked hnamed => exact hlinked

/-- A definition settles, whatever becomes of it. -/
theorem settles_defineClass (hw : m.WellFormed fun _ => True) (path : ClassPath) (bytes : Bytes) :
    m.Settles (path.Offers (· = bytes)) (Action.defineClass path bytes m).2 := by
  have hadds : m.Adds (path.Offers (· = bytes)) (Action.defineClass path bytes m).2 :=
    (Action.adds_defineClass (fun _ _ hfile => Or.inl hfile)
      fun _ _ hparse _ => Or.inr ⟨bytes, rfl, hparse⟩).1
  have hevolves : m.Evolves (fun _ => True) (Action.defineClass path bytes m).2 :=
    (Action.takes_defineClass (fun _ _ => trivial) path fun _ _ _ _ => trivial).1
  exact hadds.settles hw hevolves ((Action.oblivious_defineClass path bytes).scratchBytes m)

/-- A resolution settles, whatever becomes of it. -/
theorem settles_resolve (hw : m.WellFormed fun _ => True) (path : ClassPath) (name : String) :
    m.Settles (path.Offers fun _ => False) (Action.resolve path name m).2 := by
  have hadds : m.Adds (path.Offers fun _ => False) (Action.resolve path name m).2 :=
    (Action.adds_resolve (fun _ _ hfile => Or.inl hfile) name).1
  have hevolves : m.Evolves (fun _ => True) (Action.resolve path name m).2 :=
    (Action.takes_resolve (fun _ _ => trivial) path name).1
  exact hadds.settles hw hevolves ((Action.oblivious_resolve path name).scratchBytes m)

/-- A definition from a range settles, as the copy is given back. -/
theorem settles_defineRange (hw : m.WellFormed fun _ => True) (path : ClassPath)
    (array : Option ObjectRef) (offset length : Int32) :
    m.Settles (path.Offers fun bytes => m.classFileRange array offset length = .ok bytes)
      (Action.defineRange path array offset length m).2 := by
  rw [Action.run_defineRange]
  cases m.classFileRange array offset length with
  | error e => exact settles_self m
  | ok bytes =>
    have hsame : (fun b => (.ok bytes : Except Stop Bytes) = .ok b) = (· = bytes) := by
      funext b
      rw [Except.ok.injEq]
      exact propext eq_comm
    rw [hsame]
    exact settles_defineClass hw path bytes

/-- The bytes in a range of a byte array. -/
theorem classFileRange_eq {r : ObjectRef} {o : Object} {data : Bytes} {offset length : Int32}
    (ho : m.heap.get? r = some o) (hbody : o.body = .array (.primitive .byte data))
    (hoffset : 0 ≤ offset) (hlength : 0 ≤ length)
    (hfit : offset.toInt.toNat + length.toInt.toNat ≤ data.length) :
    m.classFileRange (some r) offset length =
      .ok ((data.drop offset.toInt.toNat).take length.toInt.toNat) := by
  have hrange : rangeWithin? offset length data.length =
      some (offset.toInt.toNat, length.toInt.toNat) := if_pos ⟨hoffset, hlength, hfit⟩
  show (m.byteArray r _ >>= _) = _
  rw [Action.byteArray_eq ho hbody]
  simp only [bind, Except.bind, hrange]
  rfl

/-- A definition that fails adds no class of its name. -/
theorem not_added_of_failed_definition (hw : m.WellFormed fun _ => True) {bytes : Bytes}
    {cf : ClassFile} {name : String} {e : Stop} (hparse : ClassFile.parse bytes = .ok cf)
    (hname : cf.className = .ok name) (hplain : PlainName name)
    (hfail : (Action.defineClass path bytes m).1 = .error e) {c : ClassId} {cls : Class}
    (hc : (Action.defineClass path bytes m).2.classes.get? c = some cls) (hcname : cls.name = name) :
    m.classes.get? c = some cls := by
  have hevolves : m.Evolves (fun _ => True) (Action.defineClass path bytes m).2 :=
    (Action.takes_defineClass (fun _ _ => trivial) path fun _ _ _ _ => trivial).1
  have hfind := (hevolves.wellFormed hw).classes.unique.find?_name hc
  rw [hcname, Action.find?_of_failed_definition hparse hname hplain hfail] at hfind
  obtain ⟨old, hold, _⟩ := ClassTable.get?_of_find? hfind
  have hkept := (settles_defineClass hw path bytes).keeps c old hold
  rw [hc, Option.some.injEq] at hkept
  rw [hkept]
  exact hold

/-- In a reachable machine, a definition, a definition from a range of an array, and a resolution leave
no definition under way and no scratch space behind, and add only classes that are completely
defined, however they end.  A definition from a range is one from the bytes of the range.  Where a
definition fails, its class is not in the table unless it was there before, except for a class that
is named as an array class. -/
theorem definition_outcome (h : m.Reachable path fun _ => True) :
    (∀ bytes, m.Settles (path.Offers (· = bytes)) (Action.defineClass path bytes m).2) ∧
    (∀ array offset length,
      m.Settles (path.Offers fun bytes => m.classFileRange array offset length = .ok bytes)
        (Action.defineRange path array offset length m).2) ∧
    (∀ name, m.Settles (path.Offers fun _ => False) (Action.resolve path name m).2) ∧
    (∀ r o data offset length, m.heap.get? r = some o → o.body = .array (.primitive .byte data) →
      0 ≤ offset → 0 ≤ length → offset.toInt.toNat + length.toInt.toNat ≤ data.length →
      Action.defineRange path (some r) offset length m =
        Action.defineClass path ((data.drop offset.toInt.toNat).take length.toInt.toNat) m) ∧
    ∀ bytes cf name e, ClassFile.parse bytes = .ok cf → cf.className = .ok name →
      PlainName name → (Action.defineClass path bytes m).1 = .error e →
      ∀ c cls, (Action.defineClass path bytes m).2.classes.get? c = some cls → cls.name = name →
        m.classes.get? c = some cls := by
  have hw : m.WellFormed fun _ => True := h.wellFormed fun _ _ => trivial
  refine ⟨?_, ?_, ?_, ?_, ?_⟩
  · intro bytes
    exact settles_defineClass hw path bytes
  · intro array offset length
    exact settles_defineRange hw path array offset length
  · intro name
    exact settles_resolve hw path name
  · intro r o data offset length ho hbody hoffset hlength hfit
    rw [Action.run_defineRange, classFileRange_eq ho hbody hoffset hlength hfit]
  · intro bytes cf name e hparse hname hplain hfail c cls hc hcname
    exact not_added_of_failed_definition hw hparse hname hplain hfail hc hcname

/-- A class `Z` below `A` that names `X` as an interface. -/
def doomedFile : Bytes := [
    0xCA, 0xFE, 0xBA, 0xBE, 0x00, 0x00, 0x00, 0x34, 0x00, 0x07, 0x01, 0x00, 0x01, 0x5A, 0x07,
    0x00, 0x01, 0x01, 0x00, 0x01, 0x41, 0x07, 0x00, 0x03, 0x01, 0x00, 0x01, 0x58, 0x07, 0x00,
    0x05, 0x00, 0x01, 0x00, 0x02, 0x00, 0x04, 0x00, 0x01, 0x00, 0x06, 0x00, 0x00, 0x00, 0x00,
    0x00, 0x00]

/-- A machine with an array of four bytes. -/
def bufferMachine : Machine :=
  ((Operation.newArray (.ofPrimitive .byte) 4).run hierarchyPath {}).2

theorem reachable_bufferMachine : bufferMachine.Reachable hierarchyPath fun _ => True :=
  reachable_new.operation (.newArray (.ofPrimitive .byte) 4) trivial

/-- The class `Z` is refused for its interface, after its superclass was added, and nothing but that is
left behind; bytes that are no class file are refused alike from the array. -/
theorem definition_outcome_bufferMachine :
    ∃ e m', Action.defineClass hierarchyPath doomedFile bufferMachine = (.error e, m') ∧
      (∀ c cls, m'.classes.get? c = some cls → cls.name ≠ "Z") ∧
      (∃ c cls, m'.classes.get? c = some cls ∧ cls.name = "A" ∧
        m'.classes.Finished (hierarchyPath.Offers (· = doomedFile)) c cls) ∧
      m'.defining = [] ∧ m'.scratchBytes = 0 ∧
      Action.defineRange hierarchyPath (some ⟨0⟩) 1 2 bufferMachine =
        Action.defineClass hierarchyPath [0, 0] bufferMachine := by
  have hread : ∃ cf ∈ (ClassFile.parse doomedFile).toOption, cf.className.toOption = some "Z" := by
    decide +kernel
  have hfails : (Action.defineClass hierarchyPath doomedFile bufferMachine).1.isOk = false := by
    decide +kernel
  have hfresh : bufferMachine.classes.find? "Z" = none := by decide +kernel
  have hadded : ((Action.defineClass hierarchyPath doomedFile bufferMachine).2.classes.get?
      ⟨29⟩).map Class.name = some "A" := by decide +kernel
  have hsize : bufferMachine.classes.size = 27 := by decide +kernel
  have hidle : bufferMachine.defining = [] ∧ bufferMachine.scratchBytes = 0 := by decide +kernel
  have hbytes : (bufferMachine.heap.get? ⟨0⟩).map Object.body =
      some (.array (.primitive .byte [0, 0, 0, 0])) := by decide +kernel
  obtain ⟨hdefine, _, _, hrange, hnew⟩ := definition_outcome reachable_bufferMachine
  have hsettles := hdefine doomedFile
  have hnew := hnew doomedFile
  rcases hrun : Action.defineClass hierarchyPath doomedFile bufferMachine with ⟨e | c, m'⟩
  · rw [hrun] at hsettles hnew hadded
    refine ⟨e, m', rfl, ?_, ?_, ?_, ?_, ?_⟩
    · intro c cls hc hcname
      obtain ⟨cf, hcf, hname⟩ := hread
      have hold := hnew cf "Z" e (toOption_eq_some_iff.mp hcf) (toOption_eq_some_iff.mp hname)
        (by decide) rfl c cls hc hcname
      exact ClassTable.find?_eq_none_iff.mp hfresh c cls hold hcname
    · obtain ⟨cls, hc, hname⟩ := Option.map_eq_some_iff.mp hadded
      refine ⟨⟨29⟩, cls, hc, hname, hsettles.added ⟨29⟩ cls hc ?_⟩
      rw [hsize]
      decide
    · exact hsettles.defining.trans hidle.1
    · exact hsettles.scratch.trans hidle.2
    · obtain ⟨o, ho, hbody⟩ := Option.map_eq_some_iff.mp hbytes
      have htaken : (([0, 0, 0, 0] : Bytes).drop (1 : Int32).toInt.toNat).take
          (2 : Int32).toInt.toNat = [0, 0] := by decide
      rw [hrange ⟨0⟩ o _ 1 2 ho hbody (by decide) (by decide) (by decide), htaken]
  · rw [hrun] at hfails
    cases hfails

end Machine

end JavaMachine
