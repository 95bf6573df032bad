/-
# Resolutions inside resolutions

Resolving a name asks for other names: that of the component of an array class, or those of the
superclass and the interfaces of a class that comes from its file (`Action.Asks`).  What is asked
for needs less than the name itself, so the bound on resolutions inside each other is never reached,
and a resolution is one step of resolution around resolutions (`Action.resolve_eq`).  A step ends
without a value or an exception only where a resolution that it asks for does, or over the class
`void`.
-/
import JavaMachine.Proofs.ClassFiles
import JavaMachine.Proofs.Linking

namespace JavaMachine

namespace Action

variable {path : ClassPath} {m : Machine} {name : String} {r : String → Action ClassId}

/-! ## One step of resolution -/

/-- The class of a name, with the resolutions inside left open. -/
def resolveStep (r : String → Action ClassId) (path : ClassPath) (name : String) :
    Action ClassId := do
  match (← get).classes.find? name with
  | some c => return c
  | none =>
    match name.toList with
    | '[' :: descriptor =>
      match componentName? descriptor with
      | none => raise (.classNotFound name)
      | some component => arrayClass (← resolveComponent r component)
    | _ => load r path name

/-- Resolution within a bound is a step around resolutions within the next lower one. -/
theorem resolveWithin_succ (path : ClassPath) (bound : Nat) (name : String) :
    resolveWithin path (bound + 1) name = resolveStep (resolveWithin path bound) path name := rfl

/-- A name that has a class is resolved at once. -/
theorem resolveStep_of_find? {c : ClassId} (h : m.classes.find? name = some c) :
    resolveStep r path name m = (.ok c, m) := by
  unfold resolveStep
  rw [run_bind, run_get]
  dsimp only
  rw [h]
  rfl

/-- An array name is resolved through its component. -/
theorem resolveStep_array {descriptor : List Char} (hfresh : m.classes.find? name = none)
    (hname : name.toList = '[' :: descriptor) :
    resolveStep r path name m =
      match componentName? descriptor with
      | none => (.error (.thrown (.classNotFound name)), m)
      | some component => (resolveComponent r component >>= arrayClass) m := by
  unfold resolveStep
  rw [run_bind, run_get]
  dsimp only
  rw [hfresh, hname]
  show (match componentName? descriptor with
    | none => raise (.classNotFound name)
    | some component => resolveComponent r component >>= arrayClass : Action ClassId) m = _
  cases componentName? descriptor <;> rfl

/-- Any other name is loaded. -/
theorem resolveStep_plain (hfresh : m.classes.find? name = none) (hname : PlainName name) :
    resolveStep r path name m = load r path name m := by
  have hload : (match name.toList with
      | '[' :: descriptor =>
        match componentName? descriptor with
        | none => raise (.classNotFound name)
        | some component => resolveComponent r component >>= arrayClass
      | _ => load r path name : Action ClassId) = load r path name := by
    split
    · next descriptor hl =>
      exact absurd (isArrayName_of_toList hl) hname
    · rfl
  unfold resolveStep
  rw [run_bind, run_get]
  dsimp only
  rw [hfresh]
  exact congrFun hload m

/-! ## Definitions from the class path -/

/-- The definition of a class from its file begins: there is a file for the name, with a class of
that name, which is neither defined nor under way. -/
structure Loads (path : ClassPath) (m : Machine) (name : String) (cf : ClassFile) : Prop where
  fresh : m.classes.find? name = none
  plain : PlainName name
  found : ∃ bytes, path.find? (name ++ ".class") = some bytes ∧ ClassFile.parse bytes = .ok cf
  named : cf.className = .ok name
  idle : name ∉ m.defining

/-- What loading a class makes of the outcome of its definition. -/
def settle (name : String) : Except Stop ClassId × Machine → Except Stop ClassId × Machine
  | (.error (.thrown t), m) =>
    if t.kind = .linkage then
      match m.classes.find? name with
      | some c => (.ok c, m)
      | none => (.error (.thrown t), m)
    else (.error (.thrown t), m)
  | x => x

/-- Loading a class ends with a fault exactly where its definition does. -/
theorem settle_fault_iff {x : Except Stop ClassId} {e : Stop} (he : ∀ t, e ≠ .thrown t) :
    (settle name (x, m)).1 = .error e ↔ x = .error e := by
  rcases x with (t | f | c | _) | c
  · have hne : (Except.error (.thrown t) : Except Stop ClassId) ≠ .error e :=
      fun h => he t (Except.error.inj h).symm
    unfold settle
    dsimp only
    refine ⟨fun h => ?_, fun h => absurd h hne⟩
    split at h
    · split at h
      · cases h
      · exact absurd h hne
    · exact absurd h hne
  all_goals exact Iff.rfl

/-- What is found is defined, and settled under the name. -/
theorem load_of_find? {bytes : Bytes} (h : path.find? (name ++ ".class") = some bytes) :
    load r path name m = settle name (define r bytes (some name) m) := by
  unfold load
  rw [h]
  dsimp only
  rw [run_bind]
  unfold attempt
  rcases define r bytes (some name) m with ⟨(t | f | c | _) | c, m'⟩
  · unfold settle
    dsimp only
    split
    · rw [run_bind, run_get]
      dsimp only
      cases m'.classes.find? name <;> rfl
    · rfl
  all_goals rfl

/-- What is checked before the definition of a class that is expected to have a name: the file holds
a class of that name, and no class has it yet. -/
def expectedFile (t : ClassTable) (bytes : Bytes) (name : String) : Except Throwable ClassFile := do
  let cf ← formatError (ClassFile.parse bytes)
  let n ← formatError cf.className
  if name ≠ n then .error (.wrongName name n)
  else if (t.find? n).isSome then .error (.duplicateClass n)
  else .ok cf

/-- A file is as expected when it parses, has the name, and the name is free. -/
theorem expectedFile_eq_ok {t : ClassTable} {bytes : Bytes} {cf : ClassFile} :
    expectedFile t bytes name = .ok cf ↔
      ClassFile.parse bytes = .ok cf ∧ cf.className = .ok name ∧ t.find? name = none := by
  constructor
  · intro h
    obtain ⟨cf', hcf, h⟩ := bind_eq_ok.mp h
    obtain ⟨n, hn, h⟩ := bind_eq_ok.mp h
    split at h
    · cases h
    · next hname =>
      have hsame : name = n := Decidable.not_not.mp hname
      split at h
      · cases h
      · next hfresh =>
        cases h
        subst hsame
        exact ⟨formatError_eq_ok.mp hcf, formatError_eq_ok.mp hn,
          Option.not_isSome_iff_eq_none.mp hfresh⟩
  · rintro ⟨hcf, hn, hfresh⟩
    refine bind_eq_ok.mpr ⟨cf, formatError_eq_ok.mpr hcf, ?_⟩
    refine bind_eq_ok.mpr ⟨name, formatError_eq_ok.mpr hn, ?_⟩
    rw [if_neg (not_not_intro rfl), hfresh]
    rfl

/-- Defining the class of an expected name: the checks, and then the definition proper. -/
theorem define_of_expected (r : String → Action ClassId) (bytes : Bytes) (name : String)
    (m : Machine) :
    define r bytes (some name) m =
      match expectedFile m.classes bytes name with
      | .error t => (.error (.thrown t), m)
      | .ok cf => whileDefining name (build r cf name) m := by
  unfold define
  rw [run_liftThrowable_bind]
  cases hparse : formatError (ClassFile.parse bytes) with
  | error t =>
    rw [expectedFile, hparse]
    rfl
  | ok cf =>
    have hchecks : expectedFile m.classes bytes name = (formatError cf.className).bind fun n =>
        if name ≠ n then .error (.wrongName name n)
        else if (m.classes.find? n).isSome then .error (.duplicateClass n)
        else .ok cf := by
      rw [expectedFile, hparse]
      rfl
    dsimp only
    rw [hchecks, run_liftThrowable_bind]
    cases formatError cf.className with
    | error t => rfl
    | ok n =>
      rw [Except.bind]
      dsimp only
      -- The expected name passes the filter exactly when the file has another one.
      by_cases hn : name = n
      · have hfilter : (some name).filter (· ≠ n) = none := by
          rw [Option.filter_eq_none_iff]
          rintro _ ⟨⟩
          simpa using hn
        rw [hfilter, if_neg (not_not_intro hn), ← hn]
        dsimp only
        rw [run_bind, run_get]
        dsimp only
        by_cases hd : (m.classes.find? name).isSome = true
        · rw [if_pos hd, if_pos hd]
          rfl
        · rw [if_neg hd, if_neg hd]
      · have hfilter : (some name).filter (· ≠ n) = some name := by
          rw [Option.filter_some, if_pos]
          simpa using hn
        rw [hfilter, if_pos hn]
        rfl

/-- A name that is not being defined is loaded from the file that is found. -/
theorem loads_of_expectedFile {bytes : Bytes} {cf : ClassFile} (hplain : PlainName name)
    (hfind : path.find? (name ++ ".class") = some bytes)
    (hcf : expectedFile m.classes bytes name = .ok cf) (hidle : name ∉ m.defining) :
    Loads path m name cf :=
  ⟨(expectedFile_eq_ok.mp hcf).2.2, hplain, ⟨bytes, hfind, (expectedFile_eq_ok.mp hcf).1⟩,
    (expectedFile_eq_ok.mp hcf).2.1, hidle⟩

/-- Loading a class is its definition, where that begins. -/
theorem load_of_loads {cf : ClassFile} (h : Loads path m name cf) :
    load r path name m =
      settle name ((build r cf name (m.entering name)).1,
        (build r cf name (m.entering name)).2.leaving name) := by
  obtain ⟨bytes, hfind, hcf⟩ := h.found
  rw [load_of_find? hfind, define_of_expected, expectedFile_eq_ok.mpr ⟨hcf, h.named, h.fresh⟩]
  dsimp only
  rw [run_whileDefining, if_neg h.idle]

/-- Loading a class whose definition does not begin fails with an exception, whatever the
resolutions inside do. -/
theorem load_of_not_loads (hfresh : m.classes.find? name = none) (hplain : PlainName name)
    (hnot : ∀ cf, ¬ Loads path m name cf) :
    ∃ t, ∀ r, load r path name m = (.error (.thrown t), m) := by
  cases hfind : path.find? (name ++ ".class") with
  | none =>
    refine ⟨.classNotFound name, fun r => ?_⟩
    unfold load
    rw [hfind]
    rfl
  | some bytes =>
    -- A failure before the definition begins leaves the state as it was, in which the name is new.
    have hthrown : ∀ t, (∀ r, define r bytes (some name) m = (.error (.thrown t), m)) →
        ∃ t, ∀ r, load r path name m = (.error (.thrown t), m) := by
      intro t ht
      refine ⟨t, fun r => ?_⟩
      rw [load_of_find? hfind, ht]
      unfold settle
      dsimp only
      rw [hfresh]
      split <;> rfl
    cases hcf : expectedFile m.classes bytes name with
    | error t => exact hthrown t fun r => by rw [define_of_expected, hcf]
    | ok cf =>
      have hdefining : name ∈ m.defining := Classical.byContradiction fun hidle =>
        hnot cf (loads_of_expectedFile hplain hfind hcf hidle)
      refine hthrown (.classCircularity name) fun r => ?_
      rw [define_of_expected, hcf]
      dsimp only
      rw [run_whileDefining, if_pos hdefining]
/-! ## What a definition asks for -/

/-- What is left of a definition once the supertypes are resolved. -/
def assemble (cf : ClassFile) (name : String) (superclass : Option ClassId)
    (interfaces : List ClassId) : Action ClassId := do
  let m ← get
  let owner := m.classes.nextId
  let inherited := ((superclass.bind m.classes.get?).map Class.layout).getD {}
  let plan ← cf.fields.foldlM (planField cf.pool owner) { layout := inherited }
  let methods ← cf.methods.mapM fun info => methodOf cf.pool owner info
  let sourceFile ← formatError cf.sourceFile?
  let cls : Class :=
    { name, superclass, kind := .ordinary, interfaces, flags := cf.flags, fields := plan.fields,
      methods, layout := plan.layout, sourceFile, statics := plan.statics,
      needsInit := methods.any (·.name = initializerName) }
  let (classes, c) ← (← get).classes.define cls
  modify ({ · with classes })
  return c

/-- Building is resolving the supertypes, and then putting the class together. -/
theorem build_eq (r : String → Action ClassId) (cf : ClassFile) (name : String) :
    build r cf name = (do
      let superclass ← superclassOf r cf name
      let interfaces ← (← formatError cf.interfaceNames).mapM r
      assemble cf name superclass interfaces) := rfl

/-- The superclass that a class file names, where it is not the class itself. -/
def superclassName? (cf : ClassFile) (name : String) : Except Throwable (Option String) :=
  match formatError cf.superClassName? with
  | .ok (some s) => if s = name then .error (.classCircularity name) else .ok (some s)
  | x => x

/-- A superclass is resolved where the file names one. -/
theorem superclassOf_eq (r : String → Action ClassId) (cf : ClassFile) (name : String)
    (m : Machine) :
    superclassOf r cf name m =
      match superclassName? cf name with
      | .error t => (.error (.thrown t), m)
      | .ok none => (.ok none, m)
      | .ok (some s) => ((r s m).1.map some, (r s m).2) := by
  unfold superclassOf superclassName?
  rw [run_liftThrowable_bind]
  rcases formatError cf.superClassName? with t | _ | s
  · rfl
  · rfl
  · dsimp only
    by_cases hs : s = name
    · rw [if_pos hs, if_pos hs]
      rfl
    · rw [if_neg hs, if_neg hs]
      dsimp only
      rw [run_bind]
      rcases r s m with ⟨e | c, m'⟩ <;> rfl

theorem answering_intern (s : String) : Answering (intern s) := by
  refine answering_get.bind fun m => ?_
  split
  · exact answering_pure _
  · refine Answering.bind (fun _ => answers_ok _) fun r => ?_
    exact (answering_modify _).bind fun _ => answering_pure r

/-- A field is planned, or its constant is refused. -/
theorem answering_planField (pool : ConstantPool) (owner : ClassId) (plan : FieldPlan)
    (info : MemberInfo) : Answering (planField pool owner plan info) := by
  have hconstant : ∀ index t, Answering (constantValue pool index t) := by
    intro index t
    refine (answering_liftThrowable _).bind fun c => ?_
    split
    · exact (answering_liftThrowable _).bind fun s =>
        (answering_intern s).bind fun r => answering_pure _
    · split
      · exact answering_pure _
      · exact answering_raise _
  have hslot : ∀ t, Answering (initialSlot pool info t) := by
    intro t
    unfold initialSlot
    split
    · exact answering_pure _
    · exact (hconstant _ t).bind fun v => answering_pure _
  refine (answering_liftThrowable _).bind fun name => ?_
  refine (answering_liftThrowable _).bind fun descriptor => ?_
  refine (answering_liftThrowable _).bind fun tag => ?_
  dsimp only
  split
  · exact (hslot tag).bind fun s => answering_pure _
  · exact answering_pure _

/-- A definition whose supertypes are resolved gives an answer. -/
theorem answering_assemble (cf : ClassFile) (name : String) (superclass : Option ClassId)
    (interfaces : List ClassId) : Answering (assemble cf name superclass interfaces) := by
  refine answering_get.bind fun m => ?_
  refine (answering_foldlM _ (fun plan info => answering_planField _ _ plan info) _).bind ?_
  intro plan
  refine (answering_mapM _ fun info => answering_liftThrowable _).bind fun methods => ?_
  refine (answering_liftThrowable _).bind fun sourceFile => ?_
  refine answering_get.bind fun m' => (answering_liftThrowable _).bind fun result => ?_
  exact (answering_modify _).bind fun _ => answering_pure _

/-- Resolving a name asks for another one in a state of its own. -/
inductive Asks (r : String → Action ClassId) (path : ClassPath) (m : Machine) (name : String) :
    Machine → String → Prop
  | component {descriptor : List Char} {n : String} (hfresh : m.classes.find? name = none)
      (hname : name.toList = '[' :: descriptor)
      (hcomponent : componentName? descriptor = some (.named n)) : Asks r path m name m n
  | superclass {cf : ClassFile} {s : String} (hload : Loads path m name cf)
      (hs : superclassName? cf name = .ok (some s)) : Asks r path m name (m.entering name) s
  | interface {cf : ClassFile} {superclass : Option ClassId} {before after : List String}
      {n : String} {cs : List ClassId} {m₁ m₂ : Machine} (hload : Loads path m name cf)
      (hsuper : superclassOf r cf name (m.entering name) = (.ok superclass, m₁))
      (hnames : cf.interfaceNames = .ok (before ++ n :: after))
      (hbefore : before.mapM r m₁ = (.ok cs, m₂)) : Asks r path m name m₂ n

/-! ## Resolving several names -/

/-- Names that are resolved one after the other, the first of which is resolved before the rest. -/
theorem mapM_cons_eq_ok {n : String} {l : List String} {m m' : Machine} {cs : List ClassId} :
    (n :: l).mapM r m = (.ok cs, m') ↔
      ∃ c m₁ cs', r n m = (.ok c, m₁) ∧ l.mapM r m₁ = (.ok cs', m') ∧ cs = c :: cs' := by
  rw [List.mapM_cons]
  constructor
  · intro h
    obtain ⟨c, m₁, hr, h⟩ := run_bind_eq_ok.mp h
    obtain ⟨cs', m₂, hl, h⟩ := run_bind_eq_ok.mp h
    cases h
    exact ⟨c, m₁, cs', hr, hl, rfl⟩
  · rintro ⟨c, m₁, cs', hr, hl, rfl⟩
    exact run_bind_eq_ok.mpr ⟨c, m₁, hr, run_bind_eq_ok.mpr ⟨cs', m', hl, rfl⟩⟩

/-- Two ways to resolve that agree on each name in its turn agree on all of them. -/
theorem mapM_congr {r r' : String → Action ClassId} {l : List String} {m : Machine}
    (h : ∀ before n after cs m', l = before ++ n :: after → before.mapM r m = (.ok cs, m') →
      r' n m' = r n m') : l.mapM r' m = l.mapM r m := by
  induction l generalizing m with
  | nil => rfl
  | cons n l ih =>
    rw [List.mapM_cons, List.mapM_cons]
    refine run_bind_congr (h [] n l [] m rfl rfl) fun c m₁ hr => ?_
    refine run_bind_congr (ih ?_) fun _ _ _ => rfl
    intro before k after cs m' hl hbefore
    refine h (n :: before) k after (c :: cs) m' (by rw [hl, List.cons_append]) ?_
    exact mapM_cons_eq_ok.mpr ⟨c, m₁, cs, hr, hbefore, rfl⟩

variable {e : Stop}

/-- A fault of resolving several names is that of one name, with the names before it resolved. -/
theorem mapM_fault_iff {l : List String} {m : Machine} (he : ∀ t, e ≠ .thrown t) :
    (l.mapM r m).1 = .error e ↔
      ∃ before n after cs m', l = before ++ n :: after ∧ before.mapM r m = (.ok cs, m') ∧
        (r n m').1 = .error e := by
  induction l generalizing m with
  | nil =>
    refine ⟨fun h => (nomatch h), ?_⟩
    rintro ⟨before, _, _, _, _, h, _⟩
    cases before <;> cases h
  | cons a l ih =>
    have hrest : ∀ (c : ClassId) (m₁ : Machine),
        ((l.mapM r >>= fun cs => pure (c :: cs) : Action (List ClassId)) m₁).1 = .error e ↔
          (l.mapM r m₁).1 = .error e :=
      fun c m₁ => bind_fault_iff (fun cs => answering_pure _) he
    rw [List.mapM_cons, run_bind_eq_error]
    constructor
    · rintro (h | ⟨c, m₁, hr, h⟩)
      · exact ⟨[], a, l, [], m, rfl, rfl, h⟩
      · obtain ⟨before, n, after, cs, m', rfl, hbefore, hn⟩ := ih.mp ((hrest c m₁).mp h)
        exact ⟨a :: before, n, after, c :: cs, m', rfl,
          mapM_cons_eq_ok.mpr ⟨c, m₁, cs, hr, hbefore, rfl⟩, hn⟩
    · rintro ⟨before, n, after, cs, m', hl, hbefore, hn⟩
      cases before with
      | nil =>
        cases hl
        cases hbefore
        exact Or.inl hn
      | cons b before =>
        cases hl
        obtain ⟨c, m₁, cs', hr, hbefore, _⟩ := mapM_cons_eq_ok.mp hbefore
        refine Or.inr ⟨c, m₁, hr, (hrest c m₁).mpr ?_⟩
        exact ih.mpr ⟨before, n, after, cs', m', rfl, hbefore, hn⟩

/-! ## Definitions -/

/-- A name is loaded from one file at most. -/
theorem Loads.eq {cf cf' : ClassFile} (h : Loads path m name cf) (h' : Loads path m name cf') :
    cf = cf' := by
  obtain ⟨bytes, hfind, hparse⟩ := h.found
  obtain ⟨bytes', hfind', hparse'⟩ := h'.found
  rw [hfind, Option.some.injEq] at hfind'
  rw [← hfind', hparse] at hparse'
  exact Except.ok.inj hparse'

/-- Two ways to resolve that agree on what a definition asks for define alike. -/
theorem build_congr {r r' : String → Action ClassId} {cf : ClassFile}
    (hload : Loads path m name cf) (h : ∀ m' n, Asks r path m name m' n → r' n m' = r n m') :
    build r' cf name (m.entering name) = build r cf name (m.entering name) := by
  have hsuper : superclassOf r' cf name (m.entering name) =
      superclassOf r cf name (m.entering name) := by
    rw [superclassOf_eq, superclassOf_eq]
    rcases hs : superclassName? cf name with t | _ | s
    · rfl
    · rfl
    · dsimp only
      rw [h _ s (.superclass hload hs)]
  rw [build_eq, build_eq]
  refine run_bind_congr hsuper fun superclass m₁ hr => ?_
  rw [run_liftThrowable_bind, run_liftThrowable_bind]
  cases hnames : formatError cf.interfaceNames with
  | error t => rfl
  | ok names =>
    refine run_bind_congr (mapM_congr ?_) fun _ _ _ => rfl
    rintro before n after cs m' rfl hbefore
    exact h m' n (.interface hload hr (formatError_eq_ok.mp hnames) hbefore)

/-- What is made of a result does not change how a computation fails. -/
theorem map_eq_error_iff {ε α β : Type} {x : Except ε α} {f : α → β} {e : ε} :
    x.map f = .error e ↔ x = .error e := by
  cases x with
  | error e' =>
    exact ⟨fun h => congrArg _ (Except.error.inj h), fun h => congrArg _ (Except.error.inj h)⟩
  | ok y => exact ⟨fun h => (nomatch h), fun h => (nomatch h)⟩

/-- A superclass ends otherwise than by an exception only where its resolution does. -/
theorem superclassOf_fault_iff {cf : ClassFile} (he : ∀ t, e ≠ .thrown t) :
    (superclassOf r cf name m).1 = .error e ↔
      ∃ s, superclassName? cf name = .ok (some s) ∧ (r s m).1 = .error e := by
  rw [superclassOf_eq]
  rcases superclassName? cf name with t | _ | s
  · refine ⟨fun h => absurd (Except.error.inj h).symm (he t), ?_⟩
    rintro ⟨_, h, _⟩
    cases h
  · refine ⟨fun h => (nomatch h), ?_⟩
    rintro ⟨_, h, _⟩
    cases h
  · refine ⟨fun h => ⟨s, rfl, map_eq_error_iff.mp h⟩, ?_⟩
    rintro ⟨_, ⟨⟩, h⟩
    exact map_eq_error_iff.mpr h

/-- A fault of a definition is one of a resolution that it asks for. -/
theorem build_fault_iff {cf : ClassFile} (hload : Loads path m name cf)
    (he : ∀ t, e ≠ .thrown t) :
    (build r cf name (m.entering name)).1 = .error e ↔
      ∃ m' n, Asks r path m name m' n ∧ (r n m').1 = .error e := by
  rw [build_eq, run_bind_eq_error, superclassOf_fault_iff he]
  constructor
  · rintro (⟨s, hs, h⟩ | ⟨superclass, m₁, hr, h⟩)
    · exact ⟨_, s, .superclass hload hs, h⟩
    · obtain ⟨names, hnames, h⟩ := (liftThrowable_bind_fault_iff he).mp h
      have hl : (names.mapM r m₁).1 = .error e :=
        (bind_fault_iff (answering_assemble cf name superclass) he).mp h
      obtain ⟨before, n, after, cs, m', rfl, hbefore, hn⟩ := (mapM_fault_iff he).mp hl
      exact ⟨m', n, .interface hload hr (formatError_eq_ok.mp hnames) hbefore, hn⟩
  · rintro ⟨m', n, hasks, hn⟩
    cases hasks with
    | component hfresh hname hcomponent =>
      exact absurd (isArrayName_of_toList hname) hload.plain
    | superclass hload' hs =>
      rw [hload'.eq hload] at hs
      exact Or.inl ⟨n, hs, hn⟩
    | @interface cf' superclass before after _ cs m₁ _ hload' hr hnames hbefore =>
      rw [hload'.eq hload] at hr hnames
      have hl := (mapM_fault_iff he).mpr ⟨before, n, after, cs, m', rfl, hbefore, hn⟩
      refine Or.inr ⟨superclass, m₁, hr, (liftThrowable_bind_fault_iff he).mpr ?_⟩
      refine ⟨_, formatError_eq_ok.mpr hnames, ?_⟩
      exact (bind_fault_iff (answering_assemble cf name superclass) he).mpr hl

/-! ## Steps of resolution -/

/-- What is asked for when a name is resolved that is no name of an array class. -/
theorem Asks.exists_loads {n : String} {m' : Machine} (h : Asks r path m name m' n)
    (hplain : PlainName name) : ∃ cf, Loads path m name cf := by
  cases h with
  | component hfresh hname hcomponent => exact absurd (isArrayName_of_toList hname) hplain
  | superclass hload hs => exact ⟨_, hload⟩
  | interface hload hr hnames hbefore => exact ⟨_, hload⟩

/-- A name that asks for others has no class yet. -/
theorem Asks.fresh {n : String} {m' : Machine} (h : Asks r path m name m' n) :
    m.classes.find? name = none := by
  cases h with
  | component hfresh hname hcomponent => exact hfresh
  | superclass hload hs => exact hload.fresh
  | interface hload hr hnames hbefore => exact hload.fresh

/-- What is asked for when a name of an array class is resolved: its component, at once. -/
theorem Asks.component_of_array {n : String} {m' : Machine} {descriptor : List Char}
    (h : Asks r path m name m' n) (hname : name.toList = '[' :: descriptor) :
    m' = m ∧ componentName? descriptor = some (.named n) := by
  cases h with
  | component hfresh hname' hcomponent =>
    rw [hname, List.cons.injEq] at hname'
    rw [hname'.2]
    exact ⟨rfl, hcomponent⟩
  | superclass hload hs => exact absurd (isArrayName_of_toList hname) hload.plain
  | interface hload hr hnames hbefore => exact absurd (isArrayName_of_toList hname) hload.plain

/-- Loading depends on no resolutions but those that it asks for. -/
theorem load_congr {r r' : String → Action ClassId} (hfresh : m.classes.find? name = none)
    (hplain : PlainName name) (h : ∀ m' n, Asks r path m name m' n → r' n m' = r n m') :
    load r' path name m = load r path name m := by
  by_cases hload : ∃ cf, Loads path m name cf
  · obtain ⟨cf, hload⟩ := hload
    rw [load_of_loads hload, load_of_loads hload, build_congr hload h]
  · obtain ⟨t, ht⟩ := load_of_not_loads hfresh hplain (not_exists.mp hload)
    rw [ht, ht]

/-- A fault of loading a class is one of a resolution that it asks for. -/
theorem load_fault_iff (hfresh : m.classes.find? name = none) (hplain : PlainName name)
    (he : ∀ t, e ≠ .thrown t) :
    (load r path name m).1 = .error e ↔
      ∃ m' n, Asks r path m name m' n ∧ (r n m').1 = .error e := by
  by_cases hload : ∃ cf, Loads path m name cf
  · obtain ⟨cf, hload⟩ := hload
    rw [← build_fault_iff hload he, load_of_loads hload]
    exact settle_fault_iff he
  · obtain ⟨t, ht⟩ := load_of_not_loads hfresh hplain (not_exists.mp hload)
    rw [ht]
    constructor
    · intro h
      exact absurd (Except.error.inj h).symm (he t)
    · rintro ⟨m', n, hasks, _⟩
      exact absurd (hasks.exists_loads hplain) hload

/-- Two ways to resolve that agree on what is asked for make one step alike. -/
theorem resolveStep_congr {r r' : String → Action ClassId}
    (h : ∀ m' n, Asks r path m name m' n → r' n m' = r n m') :
    resolveStep r' path name m = resolveStep r path name m := by
  cases hfind : m.classes.find? name with
  | some c => rw [resolveStep_of_find? hfind, resolveStep_of_find? hfind]
  | none =>
    by_cases hplain : PlainName name
    · rw [resolveStep_plain hfind hplain, resolveStep_plain hfind hplain, load_congr hfind hplain h]
    · obtain ⟨descriptor, hname⟩ := isArrayName_iff.mp (Decidable.not_not.mp hplain)
      rw [resolveStep_array hfind hname, resolveStep_array hfind hname]
      rcases hk : componentName? descriptor with _ | p | n
      · rfl
      · rfl
      · exact run_bind_congr (h m n (.component hfind hname hk)) fun _ _ _ => rfl

/-- A fault of resolving a name of an array class is one of resolving its component, or of making
the array class. -/
theorem resolveStep_array_fault_iff {descriptor : List Char} (he : ∀ t, e ≠ .thrown t)
    (hfresh : m.classes.find? name = none) (hname : name.toList = '[' :: descriptor) :
    (resolveStep r path name m).1 = .error e ↔
      ∃ k, componentName? descriptor = some k ∧ ((resolveComponent r k m).1 = .error e ∨
        ∃ c m', resolveComponent r k m = (.ok c, m') ∧ (arrayClass c m').1 = .error e) := by
  rw [resolveStep_array hfresh hname]
  cases componentName? descriptor with
  | none =>
    refine ⟨fun h => absurd (Except.error.inj h).symm (he _), ?_⟩
    rintro ⟨_, h, _⟩
    cases h
  | some k =>
    refine ⟨fun h => ⟨k, rfl, run_bind_eq_error.mp h⟩, ?_⟩
    rintro ⟨_, ⟨⟩, h⟩
    exact run_bind_eq_error.mpr h

/-- A fault of one step is one of a resolution that it asks for, or of making an array class. -/
theorem resolveStep_fault_iff (he : ∀ t, e ≠ .thrown t) :
    (resolveStep r path name m).1 = .error e ↔
      (∃ m' n, Asks r path m name m' n ∧ (r n m').1 = .error e) ∨
        ∃ descriptor k c m', m.classes.find? name = none ∧ name.toList = '[' :: descriptor ∧
          componentName? descriptor = some k ∧ resolveComponent r k m = (.ok c, m') ∧
          (arrayClass c m').1 = .error e := by
  cases hfind : m.classes.find? name with
  | some c =>
    rw [resolveStep_of_find? hfind]
    refine ⟨fun h => (nomatch h), ?_⟩
    rintro (⟨m', n, hasks, _⟩ | ⟨_, _, _, _, hfresh, _⟩)
    · rw [hasks.fresh] at hfind
      cases hfind
    · cases hfresh
  | none =>
    by_cases hplain : PlainName name
    · rw [resolveStep_plain hfind hplain, load_fault_iff hfind hplain he]
      refine ⟨Or.inl, ?_⟩
      rintro (h | ⟨descriptor, _, _, _, _, hname, _⟩)
      · exact h
      · exact absurd (isArrayName_of_toList hname) hplain
    · obtain ⟨descriptor, hname⟩ := isArrayName_iff.mp (Decidable.not_not.mp hplain)
      rw [resolveStep_array_fault_iff he hfind hname]
      constructor
      · rintro ⟨k, hk, h | ⟨c, m', hc, h⟩⟩
        · cases k with
          | primitive p => cases h
          | named n => exact Or.inl ⟨m, n, .component hfind hname hk, h⟩
        · exact Or.inr ⟨descriptor, k, c, m', rfl, hname, hk, hc, h⟩
      · rintro (⟨m', n, hasks, hn⟩ | ⟨descriptor', k, c, m', _, hname', hk, hc, h⟩)
        · obtain ⟨rfl, hk⟩ := hasks.component_of_array hname
          exact ⟨.named n, hk, Or.inl hn⟩
        · rw [hname, List.cons.injEq] at hname'
          exact ⟨k, hname'.2 ▸ hk, Or.inr ⟨c, m', hc, h⟩⟩

/-! ## Enough resolutions inside each other -/

/-- The name of a component is shorter than that of its array. -/
theorem length_le_of_componentName? {descriptor : List Char} {n : String}
    (h : componentName? descriptor = some (.named n)) : n.length ≤ descriptor.length := by
  unfold componentName? at h
  split at h
  · cases h
  · split at h
    · cases h
      rw [String.length_ofList, List.length_dropLast, List.length_cons]
      omega
    · cases h
  · cases h
    exact Nat.le_of_eq String.length_ofList
  · obtain ⟨p, _, hp⟩ := Option.map_eq_some_iff.mp h
    cases hp
  · cases h

/-- A class that is named as the component of an array class has a shorter name. -/
theorem length_lt_of_componentName? {descriptor : List Char} {n : String}
    (hname : name.toList = '[' :: descriptor) (h : componentName? descriptor = some (.named n)) :
    n.length < name.length := by
  have hlength := length_le_of_componentName? h
  rw [← String.length_toList (s := name), hname, List.length_cons]
  omega

theorem superClassName?_of_superclassName? {cf : ClassFile} {s : String}
    (h : superclassName? cf name = .ok (some s)) : cf.superClassName? = .ok (some s) := by
  unfold superclassName? at h
  split at h
  · next s' hs =>
    split at h
    · cases h
    · cases h
      exact formatError_eq_ok.mp hs
  · exact formatError_eq_ok.mp h

/-- After the superclass is resolved, nothing else is being defined than before. -/
theorem defining_superclassOf {cf : ClassFile} {superclass : Option ClassId} {m m' : Machine}
    (hr : ∀ n m, (r n m).2.defining = m.defining)
    (h : superclassOf r cf name m = (.ok superclass, m')) : m'.defining = m.defining := by
  rw [superclassOf_eq] at h
  rcases hs : superclassName? cf name with t | _ | s
  · rw [hs] at h
    cases h
  · rw [hs] at h
    cases h
    rfl
  · rw [hs] at h
    have hm' : (r s m).2 = m' := congrArg Prod.snd h
    rw [← hm']
    exact hr s m

/-- After the interfaces are resolved, nothing else is being defined than before. -/
theorem defining_mapM {l : List String} {cs : List ClassId} {m m' : Machine}
    (hr : ∀ n m, (r n m).2.defining = m.defining) (h : l.mapM r m = (.ok cs, m')) :
    m'.defining = m.defining := by
  induction l generalizing m cs with
  | nil =>
    cases h
    rfl
  | cons n l ih =>
    obtain ⟨c, m₁, cs', hn, hl, _⟩ := mapM_cons_eq_ok.mp h
    have hm₁ := hr n m
    rw [hn] at hm₁
    exact (ih hl).trans hm₁

/-- What is asked for needs less, where resolutions leave the definitions under way as they are. -/
theorem Asks.need_lt {n : String} {m' : Machine} (h : Asks r path m name m' n)
    (hr : ∀ n m, (r n m).2.defining = m.defining) :
    path.need m'.defining n < path.need m.defining name := by
  -- With the definition under way a file less is left, which outweighs the length of any name.
  have hentered : ∀ {cf : ClassFile} {n : String}, Loads path m name cf →
      n.length ≤ maxNameLength → path.need (m.entering name).defining n <
        path.need m.defining name := by
    intro cf n hload hshort
    obtain ⟨bytes, hfind, hparse⟩ := hload.found
    exact ClassPath.need_cons_lt (ClassPath.mem_contents_of_find? hfind)
      (ClassFile.nameOf?_eq_some hparse hload.named) hload.idle hshort
  cases h with
  | @component descriptor _ hfresh hname hcomponent =>
    have hlength := length_lt_of_componentName? hname hcomponent
    unfold ClassPath.need
    omega
  | superclass hload hs =>
    obtain ⟨bytes, hfind, hparse⟩ := hload.found
    exact hentered hload
      (ClassFile.length_le_of_superClassName? hparse (superClassName?_of_superclassName? hs))
  | interface hload hsuper hnames hbefore =>
    obtain ⟨bytes, hfind, hparse⟩ := hload.found
    have hdefining := (defining_mapM hr hbefore).trans (defining_superclassOf hr hsuper)
    rw [hdefining]
    exact hentered hload (ClassFile.length_le_of_mem_interfaceNames hparse hnames
      (List.mem_append_right _ List.mem_cons_self))

/-- A resolution leaves no definition under way. -/
theorem defining_resolveWithin (path : ClassPath) (bound : Nat) (name : String) (m : Machine) :
    (resolveWithin path bound name m).2.defining = m.defining := by
  have htakes : Takes (Machine.Evolves PlainName) m (resolveWithin path bound name) _ :=
    takes_resolveWithin (fun _ h => h) path bound name
  exact htakes.1.defining

/-- Any two bounds that cover what is needed give the same resolution. -/
theorem resolveWithin_congr {b b' : Nat} (h : path.need m.defining name ≤ b)
    (h' : path.need m.defining name ≤ b') :
    resolveWithin path b' name m = resolveWithin path b name m := by
  have hpos : 0 < path.need m.defining name := by
    unfold ClassPath.need
    omega
  -- Neither bound runs out, since what is asked for needs less than the name itself.
  induction b generalizing b' name m with
  | zero => omega
  | succ b ih =>
    cases b' with
    | zero => omega
    | succ b' =>
      rw [resolveWithin_succ, resolveWithin_succ]
      refine resolveStep_congr fun m' n hasks => ?_
      have hlt := hasks.need_lt (defining_resolveWithin path b)
      refine ih (by omega) (by omega) ?_
      unfold ClassPath.need
      omega

/-- A resolution is one step of resolution around resolutions. -/
theorem resolve_eq (path : ClassPath) (name : String) (m : Machine) :
    resolve path name m = resolveStep (resolve path) path name m := by
  have hbound := path.need_le_resolutionBound m.defining name
  have hone : resolutionBound path name = name.length + path.size * (maxNameLength + 1) + 1 := by
    unfold resolutionBound
    omega
  unfold resolve
  rw [hone, resolveWithin_succ]
  refine (resolveStep_congr fun m' n hasks => ?_).symm
  have hlt := hasks.need_lt (defining_resolveWithin path _)
  exact resolveWithin_congr (by omega) (path.need_le_resolutionBound m'.defining n)

end Action

end JavaMachine
