/-
# Circular hierarchies

To define a class from its file, the classes that the file names as superclass and interfaces are
defined first, unless they are there already.  The classes that a definition waits for are therefore
those that can be reached along such names (`ClassTable.Awaits`), and a definition can only end when
none of them waits for itself (`ClassTable.Circular`).

Definitions under way are remembered by name, and each of them waits for what is being resolved.  So
a name that is met again waits for itself.  Conversely, a class that was added did not wait for
itself, since everything that it waited for was there before it.  From this it follows that a class
of a file can be resolved exactly when it reaches no circle, and which classes are added then
(`Machine.resolve_circular`).
-/
import JavaMachine.Proofs.Definable

namespace JavaMachine

/-! ## What a definition waits for -/

namespace ClassPath

/-- The class file that the class path has for a name. -/
def file? (path : ClassPath) (name : String) : Option ClassFile :=
  (path.find? (name ++ ".class")).bind fun bytes => (ClassFile.parse bytes).toOption

/-- The class path has a file for a name, which holds a class of that name and can be defined. -/
def Defines (path : ClassPath) (name : String) : Prop :=
  ∃ cf, path.file? name = some cf ∧ cf.className = .ok name ∧ cf.Definable

instance (path : ClassPath) (name : String) : Decidable (path.Defines name) :=
  decidable_of_iff
    (∃ cf ∈ path.file? name, cf.className.toOption = some name ∧ cf.Definable)
    ⟨fun ⟨cf, hf, hn, hd⟩ => ⟨cf, hf, toOption_eq_some_iff.mp hn, hd⟩,
      fun ⟨cf, hf, hn, hd⟩ => ⟨cf, hf, toOption_eq_some_iff.mpr hn, hd⟩⟩

end ClassPath

namespace ClassTable

/-- The definition of a class has to wait for another class: its file names that class as a
supertype, and the table does not have it. -/
def Awaits (path : ClassPath) (t : ClassTable) (name other : String) : Prop :=
  ∃ cf, path.file? name = some cf ∧ other ∈ cf.supertypeNames ∧ t.find? other = none

instance (path : ClassPath) (t : ClassTable) (name other : String) :
    Decidable (Awaits path t name other) :=
  inferInstanceAs (Decidable (∃ cf ∈ path.file? name, other ∈ cf.supertypeNames ∧
    t.find? other = none))

/-- The definition of a class leads to that of another one, or it is that class itself. -/
def Reaches (path : ClassPath) (t : ClassTable) : String → String → Prop :=
  Relation.ReflTransGen (Awaits path t)

/-- The definition of a class leads to a class that waits for itself. -/
def Circular (path : ClassPath) (t : ClassTable) (name : String) : Prop :=
  ∃ other, Reaches path t name other ∧ Relation.TransGen (Awaits path t) other other

/-- A class of a name is in the second table, and behind the classes of the first. -/
def Added (t t' : ClassTable) (name : String) : Prop :=
  ∃ c cls, t'.get? c = some cls ∧ t.size ≤ c.index ∧ cls.name = name

variable {path : ClassPath} {t t' t'' : ClassTable} {name other : String}

theorem Circular.of_awaits (h : Awaits path t name other) (hc : Circular path t other) :
    Circular path t name := by
  obtain ⟨z, hreach, hcycle⟩ := hc
  exact ⟨z, .head h hreach, hcycle⟩

theorem Added.ne_none (h : Added t t' name) : t'.find? name ≠ none := by
  obtain ⟨c, cls, hc, _, hname⟩ := h
  intro hnone
  exact find?_eq_none_iff.mp hnone c cls hc hname

theorem Added.mono (h : Added t t' name) (hext : t'.Extends t'') : Added t t'' name := by
  obtain ⟨c, cls, hc, hsize, hname⟩ := h
  obtain ⟨cls', hc', hfixed⟩ := hext c cls hc
  exact ⟨c, cls', hc', hsize, (Class.eq_of_fixed hfixed Class.name fun _ => rfl).trans hname⟩

theorem not_added_self : ¬ Added t t name := by
  rintro ⟨c, cls, hc, hsize, _⟩
  have hlt := lt_size_of_get? hc
  omega

/-- What an extension of a table finds is what the table finds, or was added. -/
theorem added_of_ne_none (hext : t.Extends t') (hfresh : t.find? name = none)
    (h : t'.find? name ≠ none) : Added t t' name := by
  obtain ⟨c, hc⟩ := Option.ne_none_iff_exists'.mp h
  obtain ⟨cls, hget, hname⟩ := get?_of_find? hc
  refine ⟨c, cls, hget, Nat.le_of_not_lt fun hlt => ?_, hname⟩
  obtain ⟨old, hold⟩ := exists_get?_of_lt hlt
  have hsame := Class.eq_of_fixed (hext.fixed_eq hold hget) Class.name fun _ => rfl
  exact find?_eq_none_iff.mp hfresh c old hold (hsame.symm.trans hname)

theorem added_push_iff {cls : Class} (hle : t.size ≤ t'.size) :
    Added t (t'.push cls) name ↔ Added t t' name ∨ cls.name = name := by
  constructor
  · rintro ⟨c, x, hc, hsize, hname⟩
    rcases get?_push_eq_some hc with ⟨_, rfl⟩ | hc
    · exact Or.inr hname
    · exact Or.inl ⟨c, x, hc, hsize, hname⟩
  · rintro (h | hname)
    · exact h.mono (extends_push t' cls)
    · exact ⟨t'.nextId, cls, get?_push_nextId t' cls, hle, hname⟩

end ClassTable

namespace Action

open ClassTable

variable {α β : Type} {path : ClassPath} {t₀ : ClassTable} {name : String}
  {busy busy' : List String} {m : Machine} {Q Q' : α → Machine → Prop} {R : β → Machine → Prop}

/-! ## Loading classes into a table -/

/-- What holds at each time of a resolution that began with the table `t₀`: a class that was added
was new, waits for added classes only, and leads to no circle; and what is busy is not defined. -/
structure Progress (path : ClassPath) (t₀ : ClassTable) (busy : List String) (m : Machine) :
    Prop where
  extends_start : t₀.Extends m.classes
  fresh : ∀ k, Added t₀ m.classes k → t₀.find? k = none
  closed : ∀ k s, Added t₀ m.classes k → Awaits path t₀ k s → Added t₀ m.classes s
  straight : ∀ k, Added t₀ m.classes k → ¬ Circular path t₀ k
  busy : ∀ d ∈ busy, m.classes.find? d = none

theorem Progress.mono (h : Progress path t₀ busy m) (hsub : ∀ d ∈ busy', d ∈ busy) :
    Progress path t₀ busy' m :=
  ⟨h.extends_start, h.fresh, h.closed, h.straight, fun d hd => h.busy d (hsub d hd)⟩

/-- What an added class leads to was added, too. -/
theorem Progress.added_of_reaches (h : Progress path t₀ busy m) {k s : String}
    (hk : Added t₀ m.classes k) (hreach : Reaches path t₀ k s) : Added t₀ m.classes s := by
  induction hreach with
  | refl => exact hk
  | tail _ hawaits ih => exact h.closed _ _ ih hawaits

/-- What became of a computation on behalf of the definition of a class: it added classes that the
class leads to, and gave a result unless the class leads to a circle. -/
structure Loading (path : ClassPath) (t₀ : ClassTable) (name : String) (busy : List String)
    (m : Machine) (x : Except Stop α × Machine) (Q : α → Machine → Prop) : Prop where
  progress : Progress path t₀ busy x.2
  grows : m.classes.Extends x.2.classes
  defining : x.2.defining = m.defining
  reached : ∀ k, Added t₀ x.2.classes k → Added t₀ m.classes k ∨ Reaches path t₀ name k
  result : (∃ v, x.1 = .ok v ∧ Q v x.2) ∨
    ∃ t, x.1 = .error (.thrown t) ∧ t.kind.className = "java/lang/ClassCircularityError" ∧
      Circular path t₀ name

/-- A result that is given at once. -/
theorem loading_ok {v : α} (hm : Progress path t₀ busy m) (hQ : Q v m) :
    Loading path t₀ name busy m (.ok v, m) Q where
  progress := hm
  grows := ClassTable.Extends.refl _
  defining := rfl
  reached := fun _ hk => Or.inl hk
  result := Or.inl ⟨v, rfl, hQ⟩

/-- An error that is given at once, for a circle. -/
theorem loading_circularity (other : String) (hm : Progress path t₀ busy m)
    (hcircular : Circular path t₀ name) :
    Loading path t₀ name busy m (.error (.thrown (.classCircularity other)), m) Q where
  progress := hm
  grows := ClassTable.Extends.refl _
  defining := rfl
  reached := fun _ hk => Or.inl hk
  result := Or.inr ⟨_, rfl, rfl, hcircular⟩

theorem Loading.mono {x : Except Stop α × Machine} (h : Loading path t₀ name busy m x Q)
    (hQ : ∀ v, Q v x.2 → Q' v x.2) : Loading path t₀ name busy m x Q' := by
  refine { h with result := ?_ }
  rcases h.result with ⟨v, hv, hq⟩ | herror
  · exact Or.inl ⟨v, hv, hQ v hq⟩
  · exact Or.inr herror

/-- What is done for a class that another one waits for is done for that one. -/
theorem Loading.of_awaits {other : String} {x : Except Stop α × Machine}
    (h : Loading path t₀ other busy m x Q) (hawaits : Awaits path t₀ name other) :
    Loading path t₀ name busy m x Q := by
  refine { h with reached := ?_, result := ?_ }
  · intro k hk
    rcases h.reached k hk with hold | hreach
    · exact Or.inl hold
    · exact Or.inr (.head hawaits hreach)
  · rcases h.result with hok | ⟨t, ht, hclass, hcircular⟩
    · exact Or.inl hok
    · exact Or.inr ⟨t, ht, hclass, hcircular.of_awaits hawaits⟩

/-- A computation that goes on with another one loads what both do.  The second one may define what
was busy. -/
theorem Loading.bind {a : Action α} {f : α → Action β} (ha : Loading path t₀ name busy m (a m) Q)
    (hsub : ∀ d ∈ busy', d ∈ busy)
    (hf : ∀ v m', Progress path t₀ busy m' → m.classes.Extends m'.classes →
      m'.defining = m.defining → Q v m' → Loading path t₀ name busy' m' (f v m') R) :
    Loading path t₀ name busy' m ((a >>= f) m) R := by
  obtain ⟨hprogress, hgrows, hdefining, hreached, hresult⟩ := ha
  rw [run_bind]
  rcases ham : a m with ⟨e | v, m'⟩
  all_goals
    rw [ham] at hprogress hgrows hdefining hreached hresult
  · rcases hresult with ⟨_, hv, _⟩ | ⟨t, ht, hclass, hcircular⟩
    · cases hv
    · cases ht
      exact ⟨hprogress.mono hsub, hgrows, hdefining, hreached, Or.inr ⟨t, rfl, hclass, hcircular⟩⟩
  · rcases hresult with ⟨_, hv, hq⟩ | ⟨t, ht, _⟩
    · cases hv
      have hrest := hf v m' hprogress hgrows hdefining hq
      refine ⟨hrest.progress, hgrows.trans hrest.grows, hrest.defining.trans hdefining, ?_,
        hrest.result⟩
      intro k hk
      rcases hrest.reached k hk with hmiddle | hreach
      · exact hreached k hmiddle
      · exact Or.inr hreach
    · cases ht

/-! ## Definitions from the class path -/

/-- The class path has a file for a class whose definition is under way. -/
theorem load_of_defining {r : String → Action ClassId} {cf : ClassFile}
    (hfile : path.file? name = some cf) (hnamed : cf.className = .ok name)
    (hfresh : m.classes.find? name = none) (hdefining : name ∈ m.defining) :
    load r path name m = (.error (.thrown (.classCircularity name)), m) := by
  obtain ⟨bytes, hfind, hparse⟩ := Option.bind_eq_some_iff.mp hfile
  rw [toOption_eq_some_iff] at hparse
  rw [load_of_find? hfind, define_of_expected, expectedFile_eq_ok.mpr ⟨hparse, hnamed, hfresh⟩]
  dsimp only
  rw [run_whileDefining, if_pos hdefining]
  rfl

variable {cf : ClassFile} {resolver : String → Action ClassId}

/-- Supertypes are resolved one after the other, each on behalf of the definition that waits. -/
theorem loading_supertypes (l : List String) (hm : Progress path t₀ busy m)
    (hres : ∀ s ∈ l, ∀ m', Progress path t₀ busy m' → m'.defining = m.defining →
      Loading path t₀ name busy m' (resolver s m') fun _ m'' => m''.classes.find? s ≠ none) :
    Loading path t₀ name busy m (l.mapM resolver m) fun _ m' =>
      ∀ s ∈ l, m'.classes.find? s ≠ none := by
  induction l generalizing m with
  | nil =>
    rw [List.mapM_nil]
    exact loading_ok hm fun s hs => absurd hs List.not_mem_nil
  | cons s l ih =>
    rw [List.mapM_cons]
    have hhead := hres s List.mem_cons_self m hm rfl
    refine hhead.bind (fun d hd => hd) fun c m₁ hm₁ _ hd₁ hs => ?_
    have hrest := ih hm₁ fun k hk m' hm' hd' =>
      hres k (List.mem_cons_of_mem s hk) m' hm' (hd'.trans hd₁)
    refine hrest.bind (fun d hd => hd) fun cs m₂ hm₂ hgrows _ hl => loading_ok hm₂ ?_
    intro k hk
    rcases List.mem_cons.mp hk with rfl | hk
    · -- What was found before the rest was resolved is still found.
      obtain ⟨c, hc⟩ := Option.ne_none_iff_exists'.mp hs
      rw [hgrows.find? hc]
      exact Option.some_ne_none c
    · exact hl k hk

/-- The class of a file is added once its supertypes are there, and then leads to no circle. -/
theorem loading_assemble (hfile : path.file? name = some cf) (hdefinable : cf.Definable)
    (hfresh : t₀.find? name = none) (hm : Progress path t₀ (name :: busy) m)
    (hidle : name ∉ busy) (hsupers : ∀ s ∈ cf.supertypeNames, m.classes.find? s ≠ none)
    (superclass : Option ClassId) (interfaces : List ClassId) :
    Loading path t₀ name busy m (assemble cf name superclass interfaces m) fun c m' =>
      m'.classes.find? name = some c := by
  have hnew := hm.busy name List.mem_cons_self
  obtain ⟨cls, m', hrun, hname, hclasses, hdefining⟩ :=
    run_assemble hdefinable hnew superclass interfaces
  have hgrows : m.classes.Extends m'.classes := hclasses ▸ extends_push m.classes cls
  have hadded : ∀ k, Added t₀ m'.classes k ↔ Added t₀ m.classes k ∨ k = name := by
    intro k
    rw [hclasses, added_push_iff hm.extends_start.size_le, hname, eq_comm]
  -- What the class waits for was added, because it is there and was not there at the start.
  have hawaits : ∀ s, Awaits path t₀ name s → Added t₀ m.classes s := by
    rintro s ⟨cf', hfile', hmem, hs⟩
    rw [hfile, Option.some.injEq] at hfile'
    subst hfile'
    exact added_of_ne_none hm.extends_start hs (hsupers s hmem)
  have hstraight : ¬ Circular path t₀ name := by
    rintro ⟨z, hreach, hcycle⟩
    rcases Relation.ReflTransGen.cases_head hreach with rfl | ⟨s, hs, hsz⟩
    · -- The class would wait for itself, and would have been added before.
      obtain ⟨s, hs, hsn⟩ := Relation.TransGen.head'_iff.mp hcycle
      exact (hm.added_of_reaches (hawaits s hs) hsn).ne_none hnew
    · exact hm.straight s (hawaits s hs) ⟨z, hsz, hcycle⟩
  rw [hrun]
  refine ⟨⟨hm.extends_start.trans hgrows, ?_, ?_, ?_, ?_⟩, hgrows, hdefining, ?_, ?_⟩
  · intro k hk
    rcases (hadded k).mp hk with hold | rfl
    · exact hm.fresh k hold
    · exact hfresh
  · intro k s hk hks
    rcases (hadded k).mp hk with hold | rfl
    · exact (hm.closed k s hold hks).mono hgrows
    · exact (hawaits s hks).mono hgrows
  · intro k hk
    rcases (hadded k).mp hk with hold | rfl
    · exact hm.straight k hold
    · exact hstraight
  · intro d hd
    rw [hclasses, find?_push_eq_none_iff, hname]
    refine ⟨hm.busy d (List.mem_cons_of_mem name hd), ?_⟩
    rintro rfl
    exact hidle hd
  · intro k hk
    rcases (hadded k).mp hk with hold | rfl
    · exact Or.inl hold
    · exact Or.inr .refl
  · refine Or.inl ⟨_, rfl, ?_⟩
    rw [hclasses, ← hname]
    exact find?_push_self (hname ▸ hnew)

/-- A definition resolves the supertypes and adds the class. -/
theorem loading_build (hfile : path.file? name = some cf) (hdefinable : cf.Definable)
    (hfresh : t₀.find? name = none) (hm : Progress path t₀ (name :: busy) m) (hidle : name ∉ busy)
    (hres : ∀ s ∈ cf.supertypeNames, ∀ m', Progress path t₀ (name :: busy) m' →
      m'.defining = m.defining →
        Loading path t₀ name (name :: busy) m' (resolver s m') fun _ m'' =>
          m''.classes.find? s ≠ none) :
    Loading path t₀ name busy m (build resolver cf name m) fun c m' =>
      m'.classes.find? name = some c := by
  have hsub : ∀ d ∈ busy, d ∈ name :: busy := fun d hd => List.mem_cons_of_mem name hd
  obtain ⟨super, hsuper⟩ := exists_eq_ok_of_isOk hdefinable.described.superClassName
  obtain ⟨names, hnames⟩ := exists_eq_ok_of_isOk hdefinable.described.interfaceNames
  have hsupertypes : cf.supertypeNames = super.toList ++ names :=
    ClassFile.supertypeNames_eq hsuper hnames
  have hfirst : Loading path t₀ name (name :: busy) m (superclassOf resolver cf name m) fun _ m' =>
      ∀ s ∈ super.toList, m'.classes.find? s ≠ none := by
    unfold superclassOf
    rw [run_liftThrowable_bind, formatError_eq_ok.mpr hsuper]
    dsimp only
    cases super with
    | none => exact loading_ok hm fun s hs => absurd hs List.not_mem_nil
    | some s =>
      have hmem : s ∈ cf.supertypeNames := by
        rw [hsupertypes]
        exact List.mem_append_left _ List.mem_cons_self
      dsimp only
      split
      · next hself =>
        -- The file names the class as its own superclass.
        subst hself
        have hawaits : Awaits path t₀ s s := ⟨cf, hfile, hmem, hfresh⟩
        exact loading_circularity s hm ⟨s, .refl, .single hawaits⟩
      · refine (hres s hmem m hm rfl).bind (fun d hd => hd) fun c m' hm' _ _ hs => ?_
        refine loading_ok hm' fun k hk => ?_
        rw [List.mem_singleton.mp hk]
        exact hs
  rw [build_eq]
  refine hfirst.bind hsub fun superclass m₁ hm₁ _ hd₁ hs => ?_
  rw [run_liftThrowable_bind, formatError_eq_ok.mpr hnames]
  dsimp only
  have hrest := loading_supertypes names hm₁ fun s hs m' hm' hd' => by
    refine hres s ?_ m' hm' (hd'.trans hd₁)
    rw [hsupertypes]
    exact List.mem_append_right _ hs
  refine hrest.bind hsub fun interfaces m₂ hm₂ hgrows _ hl => ?_
  refine loading_assemble hfile hdefinable hfresh hm₂ hidle ?_ superclass interfaces
  intro k hk
  rw [hsupertypes] at hk
  rcases List.mem_append.mp hk with hk | hk
  · obtain ⟨c, hc⟩ := Option.ne_none_iff_exists'.mp (hs k hk)
    rw [hgrows.find? hc]
    exact Option.some_ne_none c
  · exact hl k hk

/-- The end of a definition takes the name off those under way, and passes on what became of it. -/
theorem Loading.settle {x : Except Stop ClassId × Machine}
    (h : Loading path t₀ name m.defining (m.entering name) x fun c m' =>
      m'.classes.find? name = some c) :
    Loading path t₀ name m.defining m (settle name (x.1, x.2.leaving name)) fun c m' =>
      m'.classes.find? name = some c := by
  have hkept : Action.settle name (x.1, x.2.leaving name) = (x.1, x.2.leaving name) := by
    rcases h.result with ⟨c, hc, _⟩ | ⟨t, ht, hclass, _⟩
    · rw [hc]
      rfl
    · rw [ht]
      unfold Action.settle
      dsimp only
      -- Only an error of linkage would be looked at again.
      rw [if_neg]
      intro hlinkage
      rw [hlinkage] at hclass
      exact absurd hclass (by decide)
  have hdefining : (x.2.leaving name).defining = m.defining := by
    show x.2.defining.erase name = m.defining
    rw [h.defining]
    exact List.erase_cons_head ..
  rw [hkept]
  exact ⟨⟨h.progress.extends_start, h.progress.fresh, h.progress.closed, h.progress.straight,
    h.progress.busy⟩, h.grows, hdefining, h.reached, h.result⟩

theorem length_le_of_mem_supertypeNames {bytes : Bytes} {s : String}
    (hparse : ClassFile.parse bytes = .ok cf) (hs : s ∈ cf.supertypeNames) :
    s.length ≤ maxNameLength := by
  rcases List.mem_append.mp hs with hs | hs
  · obtain ⟨super, hsuper, hid⟩ := Option.bind_eq_some_iff.mp (Option.mem_toList.mp hs)
    rw [show super = some s from hid] at hsuper
    exact ClassFile.length_le_of_superClassName? hparse (toOption_eq_some_iff.mp hsuper)
  · cases hnames : cf.interfaceNames with
    | error e =>
      rw [hnames] at hs
      exact absurd hs List.not_mem_nil
    | ok names =>
      rw [hnames] at hs
      exact ClassFile.length_le_of_mem_interfaceNames hparse hnames hs

/-- Resolving a name loads what the class leads to, where the definitions under way wait for it. -/
theorem loading_resolve (hm : Progress path t₀ m.defining m) (hplain : PlainName name)
    (hfresh : t₀.find? name = none) (hfiles : ∀ k, Reaches path t₀ name k → path.Defines k)
    (hwait : ∀ d ∈ m.defining, Relation.TransGen (Awaits path t₀) d name) :
    Loading path t₀ name m.defining m (resolve path name m) fun c m' =>
      m'.classes.find? name = some c := by
  -- What is asked for needs less, since a file less is left to define.
  generalize hn : path.need m.defining name = n
  induction n using Nat.strongRecOn generalizing name m with
  | ind n ih =>
    rw [resolve_eq]
    cases hfind : m.classes.find? name with
    | some c =>
      rw [resolveStep_of_find? hfind]
      exact loading_ok hm hfind
    | none =>
      rw [resolveStep_plain hfind hplain]
      obtain ⟨cf, hfile, hnamed, hdefinable⟩ := hfiles name .refl
      by_cases hdefining : name ∈ m.defining
      · rw [load_of_defining hfile hnamed hfind hdefining]
        exact loading_circularity name hm ⟨name, .refl, hwait name hdefining⟩
      · obtain ⟨bytes, hbytes, hparse⟩ := Option.bind_eq_some_iff.mp hfile
        rw [toOption_eq_some_iff] at hparse
        rw [load_of_loads ⟨hfind, hplain, ⟨bytes, hbytes, hparse⟩, hnamed, hdefining⟩]
        have hentered : Progress path t₀ (name :: m.defining) (m.entering name) := by
          refine ⟨hm.extends_start, hm.fresh, hm.closed, hm.straight, fun d hd => ?_⟩
          rcases List.mem_cons.mp hd with rfl | hd
          · exact hfind
          · exact hm.busy d hd
        apply Loading.settle
        refine loading_build hfile hdefinable hfresh hentered hdefining fun s hs m' hm' hd' => ?_
        cases hstart : t₀.find? s with
        | some c =>
          have hfound := hm'.extends_start.find? hstart
          rw [resolve_eq, resolveStep_of_find? hfound]
          refine loading_ok hm' ?_
          rw [hfound]
          exact Option.some_ne_none c
        | none =>
          have hawaits : Awaits path t₀ name s := ⟨cf, hfile, hs, hstart⟩
          have hd' : m'.defining = name :: m.defining := hd'
          have hlt : path.need m'.defining s < n := by
            rw [hd', ← hn]
            exact ClassPath.need_cons_lt (ClassPath.mem_contents_of_find? hbytes)
              (ClassFile.nameOf?_eq_some hparse hnamed) hdefining
              (length_le_of_mem_supertypeNames hparse hs)
          have hwait' : ∀ d ∈ m'.defining, Relation.TransGen (Awaits path t₀) d s := by
            intro d hd
            rw [hd'] at hd
            rcases List.mem_cons.mp hd with rfl | hd
            · exact .single hawaits
            · exact (hwait d hd).tail hawaits
          have hrest := ih _ hlt (hd' ▸ hm') (hdefinable.described.plain s hs) hstart
            (fun k hk => hfiles k (.head hawaits hk)) hwait' rfl
          rw [hd'] at hrest
          refine (hrest.of_awaits hawaits).mono fun c hc => ?_
          rw [hc]
          exact Option.some_ne_none c

end Action

namespace Machine

open ClassTable

variable {m : Machine} {path : ClassPath} {name : String}

/-- While no definition is under way, a name that is not found and leads to definable files only is
resolved exactly when it leads to no circle.  Then exactly the classes that it leads to are added;
otherwise there is an error, and no class is added that leads to a circle. -/
theorem resolve_circular (hidle : m.defining = []) (hplain : PlainName name)
    (hfresh : m.classes.find? name = none)
    (hfiles : ∀ k, Reaches path m.classes name k → path.Defines k) :
    (¬ Circular path m.classes name →
      ∃ c m', Action.resolve path name m = (.ok c, m') ∧ m'.classes.find? name = some c ∧
        m.classes.Extends m'.classes ∧
        ∀ k, Added m.classes m'.classes k ↔ Reaches path m.classes name k) ∧
    (Circular path m.classes name →
      ∃ t m', Action.resolve path name m = (.error (.thrown t), m') ∧
        t.kind.className = "java/lang/ClassCircularityError" ∧ m.classes.Extends m'.classes ∧
        ∀ k, Circular path m.classes k → ¬ Added m.classes m'.classes k) := by
  have hstart : Action.Progress path m.classes m.defining m := by
    refine ⟨ClassTable.Extends.refl _, ?_, ?_, ?_, ?_⟩
    · exact fun k hk => absurd hk not_added_self
    · exact fun k s hk => absurd hk not_added_self
    · exact fun k hk => absurd hk not_added_self
    · intro d hd
      rw [hidle] at hd
      exact absurd hd List.not_mem_nil
  have hwait : ∀ d ∈ m.defining, Relation.TransGen (Awaits path m.classes) d name := by
    intro d hd
    rw [hidle] at hd
    exact absurd hd List.not_mem_nil
  obtain ⟨hprogress, hgrows, _, hreached, hresult⟩ :=
    Action.loading_resolve hstart hplain hfresh hfiles hwait
  have hpair : Action.resolve path name m =
      ((Action.resolve path name m).1, (Action.resolve path name m).2) := rfl
  constructor
  · intro hstraight
    obtain ⟨c, hc, hfind⟩ := hresult.resolve_right fun ⟨_, _, _, h⟩ => hstraight h
    refine ⟨c, _, hc ▸ hpair, hfind, hgrows, fun k => ⟨fun hk => ?_, fun hk => ?_⟩⟩
    · exact (hreached k hk).resolve_left not_added_self
    · have hname : Added m.classes (Action.resolve path name m).2.classes name := by
        apply added_of_ne_none hgrows hfresh
        rw [hfind]
        exact Option.some_ne_none c
      exact hprogress.added_of_reaches hname hk
  · intro hcircular
    rcases hresult with ⟨c, hc, hfind⟩ | ⟨t, ht, hclass, _⟩
    · have hname : Added m.classes (Action.resolve path name m).2.classes name := by
        apply added_of_ne_none hgrows hfresh
        rw [hfind]
        exact Option.some_ne_none c
      exact absurd hcircular (hprogress.straight name hname)
    · exact ⟨t, _, ht ▸ hpair, hclass, hgrows, fun k hk hadded => hprogress.straight k hadded hk⟩

/-- A class `A` below `B`, with the interface `I`. -/
def topFile : Bytes := [
    0xCA, 0xFE, 0xBA, 0xBE, 0x00, 0x00, 0x00, 0x34, 0x00, 0x07, 0x01, 0x00, 0x01, 0x41, 0x07,
    0x00, 0x01, 0x01, 0x00, 0x01, 0x42, 0x07, 0x00, 0x03, 0x01, 0x00, 0x01, 0x49, 0x07, 0x00,
    0x05, 0x00, 0x01, 0x00, 0x02, 0x00, 0x04, 0x00, 0x01, 0x00, 0x06, 0x00, 0x00, 0x00, 0x00,
    0x00, 0x00]

/-- A class `B` with the interface `I`. -/
def middleFile : Bytes := [
    0xCA, 0xFE, 0xBA, 0xBE, 0x00, 0x00, 0x00, 0x34, 0x00, 0x07, 0x01, 0x00, 0x01, 0x42, 0x07,
    0x00, 0x01, 0x01, 0x00, 0x10, 0x6A, 0x61, 0x76, 0x61, 0x2F, 0x6C, 0x61, 0x6E, 0x67, 0x2F,
    0x4F, 0x62, 0x6A, 0x65, 0x63, 0x74, 0x07, 0x00, 0x03, 0x01, 0x00, 0x01, 0x49, 0x07, 0x00,
    0x05, 0x00, 0x01, 0x00, 0x02, 0x00, 0x04, 0x00, 0x01, 0x00, 0x06, 0x00, 0x00, 0x00, 0x00,
    0x00, 0x00]

/-- An interface `I`. -/
def sharedFile : Bytes := [
    0xCA, 0xFE, 0xBA, 0xBE, 0x00, 0x00, 0x00, 0x34, 0x00, 0x05, 0x01, 0x00, 0x01, 0x49, 0x07,
    0x00, 0x01, 0x01, 0x00, 0x10, 0x6A, 0x61, 0x76, 0x61, 0x2F, 0x6C, 0x61, 0x6E, 0x67, 0x2F,
    0x4F, 0x62, 0x6A, 0x65, 0x63, 0x74, 0x07, 0x00, 0x03, 0x06, 0x01, 0x00, 0x02, 0x00, 0x04,
    0x00, 0x00, 0x00, 0x00, 0x00, 0x00, 0x00, 0x00]

/-- A class `X` below `Y`. -/
def loopFile : Bytes := [
    0xCA, 0xFE, 0xBA, 0xBE, 0x00, 0x00, 0x00, 0x34, 0x00, 0x05, 0x01, 0x00, 0x01, 0x58, 0x07,
    0x00, 0x01, 0x01, 0x00, 0x01, 0x59, 0x07, 0x00, 0x03, 0x00, 0x01, 0x00, 0x02, 0x00, 0x04,
    0x00, 0x00, 0x00, 0x00, 0x00, 0x00, 0x00, 0x00]

/-- A class `Y` that names `X` as an interface. -/
def backFile : Bytes := [
    0xCA, 0xFE, 0xBA, 0xBE, 0x00, 0x00, 0x00, 0x34, 0x00, 0x07, 0x01, 0x00, 0x01, 0x59, 0x07,
    0x00, 0x01, 0x01, 0x00, 0x10, 0x6A, 0x61, 0x76, 0x61, 0x2F, 0x6C, 0x61, 0x6E, 0x67, 0x2F,
    0x4F, 0x62, 0x6A, 0x65, 0x63, 0x74, 0x07, 0x00, 0x03, 0x01, 0x00, 0x01, 0x58, 0x07, 0x00,
    0x05, 0x00, 0x01, 0x00, 0x02, 0x00, 0x04, 0x00, 0x01, 0x00, 0x06, 0x00, 0x00, 0x00, 0x00,
    0x00, 0x00]

/-- A class path with all five files. -/
def hierarchyPath : ClassPath :=
  ⟨[.memory ⟨[("A.class", topFile), ("B.class", middleFile), ("I.class", sharedFile),
    ("X.class", loopFile), ("Y.class", backFile)]⟩]⟩

/-- What a name of a list leads to is in the list, where the supertypes of its names are. -/
theorem mem_of_reaches {t : ClassTable} {names : List String}
    (hclosed : ∀ k ∈ names, ∀ cf ∈ path.file? k, ∀ s ∈ cf.supertypeNames, t.find? s = none →
      s ∈ names) (hname : name ∈ names) {k : String} (h : Reaches path t name k) : k ∈ names := by
  induction h with
  | refl => exact hname
  | tail _ hawaits ih =>
    obtain ⟨cf, hfile, hmem, hnone⟩ := hawaits
    exact hclosed _ ih cf hfile _ hmem hnone

/-- The interface `I` is reached in two ways, which is no circle, while `X` and `Y` wait for each
other. -/
theorem resolve_circular_hierarchyPath :
    (∃ c m', Action.resolve hierarchyPath "A" {} = (.ok c, m') ∧
      Added ClassTable.bootstrap m'.classes "I" ∧ ¬ Added ClassTable.bootstrap m'.classes "X") ∧
    ∃ t m', Action.resolve hierarchyPath "X" {} = (.error (.thrown t), m') ∧
      t.kind.className = "java/lang/ClassCircularityError" ∧
      ¬ Added ClassTable.bootstrap m'.classes "Y" := by
  have hdefines : ∀ k ∈ ["A", "B", "I", "X", "Y"], hierarchyPath.Defines k := by decide +kernel
  have hdiamond : ∀ k ∈ ["A", "B", "I"], ∀ cf ∈ hierarchyPath.file? k, ∀ s ∈ cf.supertypeNames,
      ClassTable.bootstrap.find? s = none → s ∈ ["A", "B", "I"] := by decide +kernel
  have hloop : ∀ k ∈ ["X", "Y"], ∀ cf ∈ hierarchyPath.file? k, ∀ s ∈ cf.supertypeNames,
      ClassTable.bootstrap.find? s = none → s ∈ ["X", "Y"] := by decide +kernel
  have hAB : Awaits hierarchyPath ClassTable.bootstrap "A" "B" := by decide +kernel
  have hBI : Awaits hierarchyPath ClassTable.bootstrap "B" "I" := by decide +kernel
  have hXY : Awaits hierarchyPath ClassTable.bootstrap "X" "Y" := by decide +kernel
  have hYX : Awaits hierarchyPath ClassTable.bootstrap "Y" "X" := by decide +kernel
  have hok : (Action.resolve hierarchyPath "A" {}).1.isOk = true := by decide +kernel
  constructor
  · obtain ⟨hstraight, hcircular⟩ := @resolve_circular {} hierarchyPath "A" rfl (by decide)
      (by decide +kernel) fun k hk =>
        hdefines k (List.mem_append_left ["X", "Y"] (mem_of_reaches hdiamond (by decide) hk))
    by_cases hc : Circular hierarchyPath ClassTable.bootstrap "A"
    · obtain ⟨t, m', hrun, _⟩ := hcircular hc
      rw [hrun] at hok
      cases hok
    · obtain ⟨c, m', hrun, _, _, hadded⟩ := hstraight hc
      refine ⟨c, m', hrun, (hadded "I").mpr (.head hAB (.single hBI)), fun hX => ?_⟩
      exact absurd (mem_of_reaches hdiamond (by decide) ((hadded "X").mp hX)) (by decide)
  · obtain ⟨_, hcircular⟩ := @resolve_circular {} hierarchyPath "X" rfl (by decide)
      (by decide +kernel) fun k hk =>
        hdefines k (List.mem_append_right ["A", "B", "I"] (mem_of_reaches hloop (by decide) hk))
    have hcycle : Circular hierarchyPath ClassTable.bootstrap "Y" :=
      ⟨"Y", .refl, .tail (.single hYX) hXY⟩
    obtain ⟨t, m', hrun, hclass, _, hnot⟩ := hcircular (hcycle.of_awaits hXY)
    exact ⟨t, m', hrun, hclass, hnot "Y" hcycle⟩

/-- A class `A` whose source file is named by a class entry. -/
def unspelledFile : Bytes := [
    0xCA, 0xFE, 0xBA, 0xBE, 0x00, 0x00, 0x00, 0x34, 0x00, 0x06, 0x01, 0x00, 0x01, 0x41, 0x07,
    0x00, 0x01, 0x01, 0x00, 0x10, 0x6A, 0x61, 0x76, 0x61, 0x2F, 0x6C, 0x61, 0x6E, 0x67, 0x2F,
    0x4F, 0x62, 0x6A, 0x65, 0x63, 0x74, 0x07, 0x00, 0x03, 0x01, 0x00, 0x0A, 0x53, 0x6F, 0x75,
    0x72, 0x63, 0x65, 0x46, 0x69, 0x6C, 0x65, 0x00, 0x01, 0x00, 0x02, 0x00, 0x04, 0x00, 0x00,
    0x00, 0x00, 0x00, 0x00, 0x00, 0x01, 0x00, 0x05, 0x00, 0x00, 0x00, 0x02, 0x00, 0x02]

/-- A class path with that file alone. -/
def unspelledPath : ClassPath := ⟨[.memory ⟨[("A.class", unspelledFile)]⟩]⟩

theorem eq_of_unspelledPath {k : String} (h : unspelledPath.find? (k ++ ".class") ≠ none) :
    k = "A" := by
  have hkey : (k ++ ".class") = "A.class" := by
    refine Classical.byContradiction fun hne => h ?_
    have hbeq : ((k ++ ".class") == "A.class") = false := by simp [hne]
    have hlookup : List.lookup (k ++ ".class") [("A.class", unspelledFile)] = none := by
      rw [List.lookup_cons, hbeq]
      rfl
    show List.findSome? (·.find? (k ++ ".class")) unspelledPath.entries = none
    refine List.findSome?_eq_none_iff.mpr fun e he => ?_
    rw [List.mem_singleton.mp he]
    exact hlookup
  have hlist : k.toList ++ ".class".toList = "A".toList ++ ".class".toList := by
    rw [← String.toList_append, hkey]
    rfl
  exact String.toList_injective (List.append_cancel_right hlist)

/-- A class whose descriptors and constants are valid and which waits for no other class is not
defined, because its source file has no name. -/
theorem described_not_defined :
    (∀ k, unspelledPath.find? (k ++ ".class") ≠ none → ∃ cf, unspelledPath.file? k = some cf ∧
      cf.className = .ok k ∧ cf.Described) ∧
    ({} : Machine).classes.find? "A" = none ∧
    ¬ Circular unspelledPath ({} : Machine).classes "A" ∧
    ∃ t, (Action.resolve unspelledPath "A" {}).1 = .error (.thrown t) ∧
      t.kind.className = "java/lang/ClassFormatError" := by
  have hdescribed : ∃ cf ∈ unspelledPath.file? "A", cf.className.toOption = some "A" ∧
      cf.Described := by decide +kernel
  have hnone : ∀ cf ∈ unspelledPath.file? "A", ∀ s ∈ cf.supertypeNames,
      ({} : Machine).classes.find? s ≠ none := by decide +kernel
  have hwaits : ∀ k, ¬ Awaits unspelledPath ({} : Machine).classes "A" k := by
    rintro k ⟨cf, hfile, hmem, hfresh⟩
    exact hnone cf hfile k hmem hfresh
  refine ⟨?_, by decide +kernel, ?_, ?_⟩
  · intro k hk
    obtain ⟨cf, hfile, hname, hcf⟩ := hdescribed
    rw [eq_of_unspelledPath hk]
    exact ⟨cf, hfile, toOption_eq_some_iff.mp hname, hcf⟩
  · rintro ⟨z, hreach, hcycle⟩
    have hz : z = "A" := by
      rcases Relation.ReflTransGen.cases_head hreach with h | ⟨s, hs, _⟩
      · exact h.symm
      · exact absurd hs (hwaits s)
    obtain ⟨s, hs, _⟩ := Relation.TransGen.head'_iff.mp (hz ▸ hcycle)
    exact hwaits s hs
  · have hclass : ∃ t ∈ thrown? (Action.resolve unspelledPath "A" {}).1,
        t.kind.className = "java/lang/ClassFormatError" := by decide +kernel
    obtain ⟨t, ht, hkind⟩ := hclass
    exact ⟨t, eq_of_thrown? ht, hkind⟩

end Machine

end JavaMachine
