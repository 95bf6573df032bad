/-
# Initializers run once and in order

Whatever an engine does while it runs a method, and however deep its calls nest, the account of what
initialization has come to stays right (`Keeps`).  This goes by induction on the depth of nesting,
on the script that the engine follows and, for the initialization of a class, on the chain of its
superclasses.  Two properties of whole runs follow: an initializer is handed over at most once and
after that of the direct superclass, and a class whose initialization succeeds has had all
initializers run that its chain of superclasses calls for.
-/
import JavaMachine.Proofs.Definable
import JavaMachine.Proofs.InitializerAccount

namespace JavaMachine

open InitEvent

/-! ## Computations that keep the account -/

variable {W α β : Type}

/-- A state of a run in which some classes are busy. -/
structure Stands (busy : List ClassId) (s : Machine × W × List InitEvent) : Prop where
  wellFormed : s.1.WellFormed fun _ => True
  account : Account s.1.classes s.2.2 busy

/-- From one state of a run to a later one, within which all initializers end that it hands over. -/
def Leads (s s' : Machine × W × List InitEvent) : Prop :=
  Continues s.1.classes s'.1.classes s.2.2 s'.2.2

/-- A computation that an engine may run: outside of every initializer no class is busy, and the
account stays right. -/
def Keeps (a : Exec (W × List InitEvent) α) : Prop :=
  ∀ busy s, Stands busy s → (Idle s.2.2 → busy = []) → Stands busy (a s).2 ∧ Leads s (a s).2

variable {a : Exec (W × List InitEvent) α} {f : α → Exec (W × List InitEvent) β}

/-- A computation that changes neither classes nor objects nor events. -/
theorem keeps_of_eq (h : ∀ s, (a s).2.1.classes = s.1.classes ∧ (a s).2.1.heap = s.1.heap ∧
    (a s).2.2.2 = s.2.2) : Keeps a := by
  intro busy s hs _
  obtain ⟨hclasses, hheap, hevents⟩ := h s
  refine ⟨⟨?_, ?_⟩, ?_⟩
  · exact (Machine.step_of_eq hclasses hheap).wellFormed hs.wellFormed
  · rw [hclasses, hevents]
    exact hs.account
  · unfold Leads
    rw [hclasses, hevents]
    exact Continues.refl ..

theorem keeps_pure (x : α) : Keeps (pure x : Exec (W × List InitEvent) α) :=
  keeps_of_eq fun _ => ⟨rfl, rfl, rfl⟩

theorem keeps_raise (t : Throwable) : Keeps (raise t : Exec (W × List InitEvent) α) :=
  keeps_of_eq fun _ => ⟨rfl, rfl, rfl⟩

theorem keeps_machine : Keeps (Exec.machine : Exec (W × List InitEvent) Machine) :=
  keeps_of_eq fun _ => ⟨rfl, rfl, rfl⟩

theorem keeps_liftStop (r : Except Stop α) : Keeps (liftM r : Exec (W × List InitEvent) α) := by
  cases r with
  | ok x => exact keeps_pure x
  | error e => exact keeps_of_eq fun _ => ⟨rfl, rfl, rfl⟩

/-- What is noted in two parts is noted in order. -/
theorem Keeps.bind (ha : Keeps a) (hf : ∀ x, Keeps (f x)) : Keeps (a >>= f) := by
  intro busy s hs hbusy
  rw [run_bind]
  obtain ⟨hs₁, hlead₁⟩ := ha busy s hs hbusy
  rcases hrun : a s with ⟨e | x, s₁⟩
  · rw [hrun] at hs₁ hlead₁
    exact ⟨hs₁, hlead₁⟩
  · rw [hrun] at hs₁ hlead₁
    -- What was not idle before is not idle now.
    have hbusy₁ : Idle s₁.2.2 → busy = [] := fun hidle => hbusy (hlead₁.idle hs.account hidle)
    obtain ⟨hs₂, hlead₂⟩ := hf x busy s₁ hs₁ hbusy₁
    exact ⟨hs₂, hlead₁.trans hlead₂⟩

/-- What a computation ends with does not matter to what it noted. -/
theorem Keeps.attempt (ha : Keeps a) : Keeps (Exec.attempt a) := by
  intro busy s hs hbusy
  have h := ha busy s hs hbusy
  unfold Exec.attempt
  rcases hrun : a s with ⟨(t | f | c) | x, s₁⟩
  all_goals
    rw [hrun] at h
    exact h

/-- A computation on the machine goes by steps and begins no class. -/
theorem Stands.onMachine {busy : List ClassId} {s : Machine × W × List InitEvent}
    (hs : Stands busy s) {b : Action α} {Q : α → Machine → Prop}
    (hb : Action.Takes (Machine.Evolves fun _ => True) s.1 b Q) :
    Stands busy ((Exec.onMachine b : Exec (W × List InitEvent) α) s).2 ∧
      Leads s ((Exec.onMachine b : Exec (W × List InitEvent) α) s).2 := by
  have hevolves := hb.1
  have hkept : ∀ c, s.1.classes.isStarted c = true → (b s.1).2.classes.isStarted c = true := by
    intro c hc
    rw [hevolves.started]
    exact hc
  refine ⟨⟨hevolves.wellFormed hs.wellFormed, ?_⟩, .of_grows hevolves.extends hkept _⟩
  apply hs.account.of_grows hevolves.extends hkept
  · intro c hc
    rw [hevolves.started] at hc
    exact Or.inr hc
  · exact fun _ hc => hc

/-! ## The account of an initialization -/

/-- What initializing a class comes to, however it ends. -/
structure Initialized (c : ClassId) (busy : List ClassId) (s : Machine × W × List InitEvent)
    (r : Except Stop Unit) (s' : Machine × W × List InitEvent) : Prop where
  stands : Stands busy s'
  leads : Leads s s'
  started : s.1.classes.needsInit c = true → s'.1.classes.isStarted c = true
  failed : ∀ e, r = .error e → c.index < s.1.classes.size →
    ∃ d ∈ s'.1.classes.ancestors c, .failed d ∈ s'.2.2

/-- What initializing the superclass of a class comes to, while the class itself is busy. -/
structure SuperInitialized (c : ClassId) (busy : List ClassId) (s : Machine × W × List InitEvent)
    (r : Except Stop Unit) (s' : Machine × W × List InitEvent) : Prop where
  stands : Stands (c :: busy) s'
  leads : Leads s s'
  upward : ∀ a, s'.1.classes.superclass? c = some a → s'.1.classes.needsInit a.1 = true →
    s'.1.classes.isStarted a.1 = true
  failed : ∀ e, r = .error e → ∃ d ∈ s'.1.classes.ancestors c, .failed d ∈ s'.2.2

variable {busy : List ClassId} {s s₁ : Machine × W × List InitEvent} {c : ClassId}
  {p : Platform (W × List InitEvent)}

/-- A class that is begun is busy. -/
theorem Stands.begin (hs : Stands busy s) (hc : c.index < s.1.classes.size) :
    Stands (c :: busy) (s.1.begin c, s.2) ∧
      Leads s (s.1.begin c, s.2) := by
  have hgrows := ClassTable.extends_begin s.1.classes c
  have hkept : ∀ d, s.1.classes.isStarted d = true → (s.1.classes.begin c).isStarted d = true :=
    fun d hd => (ClassTable.isStarted_begin hc d).mpr (Or.inr hd)
  refine ⟨⟨?_, ?_⟩, .of_grows hgrows hkept _⟩
  · have hstep : s.1.Step (fun _ => True) (s.1.begin c) :=
      .classes rfl (.mark (fun _ => rfl) fun _ => rfl)
    exact hstep.wellFormed hs.wellFormed
  · apply hs.account.of_grows hgrows hkept
    · intro d hd
      rcases (ClassTable.isStarted_begin hc d).mp hd with rfl | hd
      · exact Or.inl List.mem_cons_self
      · exact Or.inr hd
    · exact fun d hd => List.mem_cons_of_mem c hd

/-- Once its superclass is done, the initializer of a class may be handed over: the superclass was
begun and is not busy, so its initializer has returned if nothing failed. -/
theorem SuperInitialized.order {r : Except Stop Unit} (h : SuperInitialized c busy s r s₁)
    (hbusy : Idle s₁.2.2 → ∀ b ∈ busy, c.index < b.index) (hnone : ∀ d, .failed d ∉ s₁.2.2)
    (hidle : Idle s₁.2.2) {a : { a : ClassId // a.index < c.index }}
    (ha : s₁.1.classes.superclass? c = some a) (hx : s₁.1.classes.initializer? a.1 ≠ none) :
    .handed a.1 ∈ s₁.2.2 ∧ .returned a.1 ∈ s₁.2.2 := by
  obtain ⟨x, hx'⟩ := Option.ne_none_iff_exists'.mp hx
  have hneeds := (h.stands.wellFormed.classes.needsInit_of_initializer? hx').1
  have hnotbusy : a.1 ∉ c :: busy := by
    intro hmem
    have hlt := a.2
    rcases List.mem_cons.mp hmem with heq | hmem
    · rw [heq] at hlt
      omega
    · have hlt' := hbusy hidle a.1 hmem
      omega
  exact h.stands.account.returned (h.upward a ha hneeds) hx hnotbusy hnone hidle

/-- Once its superclass is done, the initializer of a class is handed over, in order, and ends. -/
theorem SuperInitialized.own {t : ThreadId} {x : Method} {s₀ : Machine × W × List InitEvent}
    (hp : ∀ t x receiver args, Keeps (p.invoke t x receiver args))
    (h : SuperInitialized c busy s₀ (.ok ()) s₁) (hlead : Leads s s₁)
    (hfresh : s.1.classes.isStarted c = false) (hstarted : s₁.1.classes.isStarted c = true)
    (hx : s₁.1.classes.initializer? c = some x) (hfirst : .handed c ∉ s₁.2.2)
    (hbusy : Idle s₁.2.2 → ∀ b ∈ busy, c.index < b.index) :
    Initialized c busy s
      ((discard ((p.noting InitEvent.record).invoke t x none []) :
        Exec (W × List InitEvent) Unit) s₁).1
      ((discard ((p.noting InitEvent.record).invoke t x none []) :
        Exec (W × List InitEvent) Unit) s₁).2 := by
  obtain ⟨m₁, w₁, events⟩ := s₁
  have howner : x.owner = c := (h.stands.wellFormed.classes.needsInit_of_initializer? hx).2
  have hhands := h.stands.account.hands hstarted hfirst
    fun hnone hidle _ ha hxa => h.order hbusy hnone hidle ha hxa
  have hready : Stands busy (m₁, w₁, InitEvent.record events (.handed c)) := by
    refine ⟨h.stands.wellFormed, hhands.release (fun _ => Or.inl ?_) h.upward⟩
    simp
  have hrunning : Idle (events ++ [.handed c]) → busy = [] := by
    intro hidle
    rcases ended_append.mp (hidle c (by simp)) with hended | hended
    · exact absurd (h.stands.account.handed c hended) hfirst
    · exact absurd hended not_ended_handed
  obtain ⟨hstands, hleads⟩ := hp t x none [] busy _ hready hrunning
  rw [run_discard, run_noting, howner]
  rcases hrun : p.invoke t x none [] (m₁, w₁, InitEvent.record events (.handed c)) with
    ⟨e | v, m₂, w₂, events₂⟩
  all_goals
    rw [hrun] at hstands hleads
    have hmem : .handed c ∈ events₂ := by
      obtain ⟨new, heq, _⟩ := hleads.added
      have hlist : events₂ = events ++ [.handed c] ++ new := heq
      rw [hlist]
      simp
    have hstarted₂ := hstands.account.begun c hmem
  · have hends := hstands.account.ends hmem (Or.inr rfl)
    refine ⟨⟨hstands.wellFormed, hends⟩, ?_, fun _ => hstarted₂, ?_⟩
    · exact hlead.around hfresh hleads (Or.inr rfl)
    · intro _ _ _
      exact ⟨c, ClassTable.self_mem_ancestors .., by simp [InitEvent.record]⟩
  · have hends := hstands.account.ends hmem (Or.inl rfl)
    refine ⟨⟨hstands.wellFormed, hends⟩, ?_, fun _ => hstarted₂, ?_⟩
    · exact hlead.around hfresh hleads (Or.inl rfl)
    · intro e he
      cases he

/-- Once its superclass is done, the class runs its own initializer, or is done if it has none. -/
theorem SuperInitialized.initialized (hp : ∀ t x receiver args, Keeps (p.invoke t x receiver args))
    (t : ThreadId) (hs : Stands busy s) (hlt : c.index < s.1.classes.size)
    (hfresh : s.1.classes.isStarted c = false)
    (hbusy : Idle s.2.2 → ∀ b ∈ busy, c.index < b.index)
    (h : SuperInitialized c busy (s.1.begin c, s.2) (.ok ()) s₁) :
    Initialized c busy s (runInitializer (p.noting InitEvent.record) t s.1.classes c s₁).1
      (runInitializer (p.noting InitEvent.record) t s.1.classes c s₁).2 := by
  have hbegun : (s.1.classes.begin c).isStarted c = true :=
    (ClassTable.isStarted_begin hlt c).mpr (Or.inl rfl)
  have hleads := (hs.begin hlt).2.trans h.leads
  have hstarted := h.leads.kept c hbegun
  have hx₁ := hleads.grows.initializer? hlt
  unfold runInitializer
  cases hx : s.1.classes.initializer? c with
  | none =>
    rw [hx] at hx₁
    refine ⟨⟨h.stands.wellFormed, ?_⟩, hleads, fun _ => hstarted, fun _ he => nomatch he⟩
    exact h.stands.account.release (fun hne => absurd hx₁ hne) h.upward
  | some x =>
    rw [hx] at hx₁
    have hfirst : .handed c ∉ s₁.2.2 := by
      apply h.leads.not_handed hbegun
      intro hmem
      rw [hs.account.begun c hmem] at hfresh
      cases hfresh
    have hbusy₁ : Idle s₁.2.2 → ∀ b ∈ busy, c.index < b.index :=
      fun hidle => hbusy (hleads.idle hs.account hidle)
    exact h.own hp hleads hfresh hstarted hx₁ hfirst hbusy₁

/-- The initialization of a class fails when that of its superclass does. -/
theorem SuperInitialized.error {e : Stop} (hs : Stands busy s) (hlt : c.index < s.1.classes.size)
    (h : SuperInitialized c busy (s.1.begin c, s.2) (.error e) s₁) :
    Initialized c busy s (.error e) s₁ where
  stands := by
    have hfailed := h.failed e rfl
    exact ⟨h.stands.wellFormed, h.stands.account.release (fun _ => Or.inr hfailed) h.upward⟩
  leads := (hs.begin hlt).2.trans h.leads
  started := fun _ => h.leads.kept c ((ClassTable.isStarted_begin hlt c).mpr (Or.inl rfl))
  failed := fun _ _ _ => h.failed e rfl

/-- A class that is left alone stays as it is. -/
theorem Stands.initialized (hs : Stands busy s) {r : Except Stop Unit}
    (hstarted : s.1.classes.needsInit c = true → s.1.classes.isStarted c = true)
    (herror : ∀ e, r = .error e → ¬ c.index < s.1.classes.size) : Initialized c busy s r s where
  stands := hs
  leads := .refl _ _
  started := hstarted
  failed := fun e he hlt => absurd hlt (herror e he)

/-- A class without a superclass has none to initialize. -/
theorem Stands.superInitialized (hs : Stands (c :: busy) s)
    (hsuper : s.1.classes.superclass? c = none) : SuperInitialized c busy s (.ok ()) s where
  stands := hs
  leads := .refl _ _
  upward := by
    intro a ha
    rw [hsuper] at ha
    cases ha
  failed := by
    intro e he
    cases he

/-- The initialization of a superclass, as the class below it sees it. -/
theorem Initialized.superInitialized {a : { a : ClassId // a.index < c.index }}
    {r : Except Stop Unit} (h : Initialized a.1 (c :: busy) s r s₁)
    (hsuper : s.1.classes.superclass? c = some a) (hlt : c.index < s.1.classes.size) :
    SuperInitialized c busy s r s₁ := by
  have hsame : s₁.1.classes.superclass? c = some a := by
    rw [← h.leads.grows.agreesOn.superclass? hlt]
    exact hsuper
  have halt := Nat.lt_trans a.2 hlt
  refine ⟨h.stands, h.leads, ?_, ?_⟩
  · intro b hb hneeds
    rw [hsame, Option.some.injEq] at hb
    subst hb
    rw [h.leads.grows.needsInit halt] at hneeds
    exact h.started hneeds
  · intro e he
    obtain ⟨d, hd, hfailed⟩ := h.failed e he halt
    exact ⟨d, ClassTable.mem_ancestors_iff.mpr (Or.inr ⟨a, hsame, hd⟩), hfailed⟩

/-- The initialization of a class keeps the account: the class is begun, then its superclass is
initialized, then its initializer runs.  A failure is that of an initializer on the way. -/
theorem initialized (hp : ∀ t x receiver args, Keeps (p.invoke t x receiver args)) (t : ThreadId)
    (c : ClassId) {busy : List ClassId} {s : Machine × W × List InitEvent} (hs : Stands busy s)
    (hbusy : Idle s.2.2 → ∀ b ∈ busy, c.index < b.index) :
    Initialized c busy s (initializeClass (p.noting InitEvent.record) t c s).1
      (initializeClass (p.noting InitEvent.record) t c s).2 := by
  -- The induction is on the handle, since superclasses are older.
  generalize hn : c.index = n
  induction n using Nat.strongRecOn generalizing c busy s with
  | ind n ih =>
    obtain ⟨m, w, events⟩ := s
    cases hc : m.classes.get? c with
    | none =>
      rw [run_initializeClass_unknown hc]
      apply hs.initialized
      · intro hneeds
        simp [ClassTable.needsInit, hc] at hneeds
      · intro e _ hlt
        obtain ⟨cls, hcls⟩ := ClassTable.exists_get?_of_lt hlt
        rw [hc] at hcls
        cases hcls
    | some cls =>
      have hlt := ClassTable.lt_size_of_get? hc
      by_cases hgo : (cls.needsInit && !cls.initStarted) = true
      · have hfresh : m.classes.isStarted c = false := by
          simp only [Bool.and_eq_true, Bool.not_eq_true'] at hgo
          simp [ClassTable.isStarted, hc, hgo.2]
        rw [run_initializeClass hc hgo, run_bind]
        -- First the superclass, while the class is busy.
        have hsuper : SuperInitialized c busy (m.begin c, w, events)
            (initializeSuper (p.noting InitEvent.record) t m.classes c (m.begin c, w, events)).1
            (initializeSuper (p.noting InitEvent.record) t m.classes c (m.begin c, w, events)).2 := by
          have hstands := (hs.begin hlt).1
          have hgrows := ClassTable.extends_begin m.classes c
          have hsame := hgrows.agreesOn.superclass? hlt
          unfold initializeSuper
          cases hsup : m.classes.superclass? c with
          | none =>
            rw [hsup] at hsame
            exact hstands.superInitialized hsame.symm
          | some a =>
            rw [hsup] at hsame
            have hbusy₀ : Idle events → ∀ b ∈ c :: busy, a.1.index < b.index := by
              intro hidle b hb
              rcases List.mem_cons.mp hb with rfl | hb
              · exact a.2
              · exact Nat.lt_trans a.2 (hbusy hidle b hb)
            have hinit := ih a.1.index (hn ▸ a.2) a.1 hstands hbusy₀ rfl
            exact hinit.superInitialized hsame.symm (Nat.lt_of_lt_of_le hlt hgrows.size_le)
        rcases hrun : initializeSuper (p.noting InitEvent.record) t m.classes c
          (m.begin c, w, events) with ⟨e | _, s₁⟩
        · rw [hrun] at hsuper
          exact hsuper.error hs hlt
        · rw [hrun] at hsuper
          exact hsuper.initialized hp t hs hlt hfresh hbusy
      · have hskip : (cls.needsInit && !cls.initStarted) = false := Bool.eq_false_iff.mpr hgo
        rw [run_initializeClass_skip hc hskip]
        apply hs.initialized
        · intro hneeds
          simp only [ClassTable.needsInit, hc, Option.any_some] at hneeds
          simp only [hneeds, Bool.true_and, Bool.not_eq_false'] at hskip
          simp [ClassTable.isStarted, hc, hskip]
        · intro e he
          cases he

/-! ## What an engine may ask for -/

/-- Initialization hands over a class behind its superclasses, by induction on their chain. -/
theorem keeps_initializeClass (hp : ∀ t x receiver args, Keeps (p.invoke t x receiver args))
    (t : ThreadId) (c : ClassId) : Keeps (initializeClass (p.noting InitEvent.record) t c) := by
  intro busy s hs hbusy
  have hinit := initialized hp t c hs fun hidle b hb => by
    rw [hbusy hidle] at hb
    exact absurd hb List.not_mem_nil
  exact ⟨hinit.stands, hinit.leads⟩

theorem keeps_invokeWrapped (hp : ∀ t x receiver args, Keeps (p.invoke t x receiver args))
    (t : ThreadId) (x : Method) (receiver : Option ObjectRef) (args : List Value) :
    Keeps (invokeWrapped p t x receiver args) := by
  refine (hp t x receiver args).attempt.bind ?_
  intro r
  cases r with
  | ok v => exact keeps_pure v
  | error e => exact keeps_raise _

theorem keeps_boxedResult (x : Method) (v : Value) :
    Keeps (boxedResult x v : Exec (W × List InitEvent) Value) := by
  unfold boxedResult
  cases x.result with
  | some _ => exact fun _ s hs _ => hs.onMachine (Action.takes_box v)
  | none => exact keeps_pure _

/-- A reflective call initializes a class, and then notes nothing more itself. -/
theorem keeps_invokeMethodOver (hp : ∀ t x receiver args, Keeps (p.invoke t x receiver args))
    (t : ThreadId) (x : Method) (target arguments : Option ObjectRef) :
    Keeps (invokeMethodOver (p.noting InitEvent.record) p t x target arguments) := by
  have hrest : ∀ receiver args, Keeps (invokeWrapped p t x receiver args >>= boxedResult x) :=
    fun receiver args => (keeps_invokeWrapped hp t x receiver args).bind (keeps_boxedResult x)
  unfold invokeMethodOver
  refine keeps_machine.bind fun m => (keeps_liftStop _).bind fun array => ?_
  refine (keeps_liftStop _).bind fun receiver => (keeps_liftStop _).bind fun args => ?_
  dsimp only
  split
  · exact (keeps_initializeClass hp t x.owner).bind fun _ => hrest receiver args
  · exact hrest receiver args

/-- An operation that is available is given what it has to be given, and begins no class. -/
theorem takes_runAvailable {m : Machine} (hw : m.WellFormed fun _ => True) (path : ClassPath)
    (op : Operation) :
    Action.Takes (Machine.Evolves fun _ => True) m (op.runAvailable path) fun _ _ => True := by
  unfold Action.Takes Operation.runAvailable
  by_cases h : op.Available m
  · rw [if_pos h]
    have hstart : ∀ c, op ≠ .startInitialization c := by
      rintro c rfl
      cases h.1
    exact Action.takes_operation (fun _ _ => trivial) hw path op h.admissible hstart
  · rw [if_neg h]
    exact ⟨.refl m, fun _ _ => trivial⟩

/-- Every request of an engine keeps the order. -/
theorem keeps_request (hp : ∀ t x receiver args, Keeps (p.invoke t x receiver args))
    (t : ThreadId) (r : Request) : Keeps (r.run InitEvent.record p t) := by
  cases r with
  | operation op =>
    have hop : Keeps (Exec.onMachine (op.runAvailable p.classPath) :
        Exec (W × List InitEvent) Unit) :=
      fun _ s hs _ => hs.onMachine (takes_runAvailable hs.wellFormed p.classPath op)
    exact hop.bind fun _ => keeps_pure _
  | elsewhere f => exact keeps_of_eq fun _ => ⟨rfl, rfl, rfl⟩
  | initClass c => exact (keeps_initializeClass hp t c).bind fun _ => keeps_pure _
  | invoke x target arguments => exact keeps_invokeMethodOver hp t x target arguments

/-! ## Runs of an engine -/

/-- A script keeps the order, request by request. -/
theorem keeps_script (hp : ∀ t x receiver args, Keeps (p.invoke t x receiver args)) (t : ThreadId)
    (script : Script W) : Keeps (script.run InitEvent.record p t) := by
  induction script with
  | finish result w => exact keeps_of_eq fun _ => ⟨rfl, rfl, rfl⟩
  | request r w next ih =>
    intro busy s hs hbusy
    have hw : Stands busy (s.1, w, s.2.2) := ⟨hs.wellFormed, hs.account⟩
    obtain ⟨hs₁, hlead₁⟩ := keeps_request hp t r busy _ hw hbusy
    have hbusy₁ := fun hidle => hbusy (hlead₁.idle hs.account hidle)
    obtain ⟨hs₂, hlead₂⟩ := ih _ _ _ busy _ hs₁ hbusy₁
    exact ⟨hs₂, hlead₁.trans hlead₂⟩

/-- Whatever the engine does, the account stays right. -/
theorem keeps_platform (e : Engine W) (path : ClassPath) (depth : Nat) (t : ThreadId) (x : Method)
    (receiver : Option ObjectRef) (args : List Value) :
    Keeps ((e.platform InitEvent.record path depth).invoke t x receiver args) := by
  induction depth generalizing t x receiver args with
  | zero => exact keeps_raise _
  | succ depth ih =>
    intro busy s hs hbusy
    exact keeps_script ih t (e t x receiver args s.1 s.2.1) busy s hs hbusy

/-- The states that a sequence of scripts leads to from a new machine.  Each script may nest calls
to a depth of its own. -/
inductive Attained (e : Engine W) (path : ClassPath) : Machine × W × List InitEvent → Prop
  | new (w : W) : Attained e path ({}, w, [])
  | script {s : Machine × W × List InitEvent} (h : Attained e path s) (depth : Nat) (t : ThreadId)
      (script : Script W) :
      Attained e path (script.run InitEvent.record (e.platform InitEvent.record path depth) t s).2

/-- Between scripts no class is busy. -/
theorem Attained.stands {e : Engine W} {path : ClassPath} {s : Machine × W × List InitEvent}
    (h : Attained e path s) : Stands [] s := by
  induction h with
  | new w => exact ⟨Machine.wellFormed_new _, account_new⟩
  | script h depth t script ih =>
    exact (keeps_script (keeps_platform e path depth) t script [] _ ih fun _ => rfl).1

/-- Between scripts no initializer is running. -/
theorem Attained.idle {e : Engine W} {path : ClassPath} {s : Machine × W × List InitEvent}
    (h : Attained e path s) : Idle s.2.2 := by
  induction h with
  | new w => exact fun c hc => absurd hc List.not_mem_nil
  | @script s h depth t script ih =>
    have hkeeps := keeps_script (keeps_platform e path depth) t script
    exact (hkeeps [] s h.stands fun _ => rfl).2.idle_of ih

/-! ## Properties of whole runs -/

variable {e : Engine W} {path : ClassPath}

/-- In every run of every engine, the initializer of a class is handed over at most once.  As long as
no initializer has failed, one that is handed over while no other one is running comes after that of
the direct superclass, which has returned.  (Whatever ran when `initializeClass` was called still
runs when it hands the initializer of the class over, and whatever it ran meanwhile has ended, so
nothing runs at the one moment exactly if nothing ran at the other.) -/
theorem handed_once_after_superclass {s : Machine × W × List InitEvent} (h : Attained e path s) :
    (∀ c, s.2.2.count (.handed c) ≤ 1) ∧
      ∀ before c after, s.2.2 = before ++ .handed c :: after → (∀ d, .failed d ∉ before) →
        Idle before → ∀ cls a, s.1.classes.get? c = some cls → cls.superclass = some a →
          s.1.classes.initializer? a ≠ none → .handed a ∈ before ∧ .returned a ∈ before := by
  have hstands := h.stands
  refine ⟨hstands.account.once, ?_⟩
  intro before c after hevents hnone hidle cls a hc hsuper hx
  have hprefix : before ++ [.handed c] <+: s.2.2 := by
    refine ⟨after, ?_⟩
    rw [hevents]
    simp
  have hwalk := hstands.wellFormed.classes.founded.superclass?_eq hc hsuper
  exact hstands.account.ordered before c hprefix hnone hidle _ hwalk hx

/-- A class `A` with an initializer. -/
def initializerFile : Bytes := [
    0xCA, 0xFE, 0xBA, 0xBE, 0x00, 0x00, 0x00, 0x34, 0x00, 0x07, 0x01, 0x00, 0x01, 0x41, 0x07, 0x00,
    0x01, 0x01, 0x00, 0x10, 0x6A, 0x61, 0x76, 0x61, 0x2F, 0x6C, 0x61, 0x6E, 0x67, 0x2F, 0x4F, 0x62,
    0x6A, 0x65, 0x63, 0x74, 0x07, 0x00, 0x03, 0x01, 0x00, 0x08, 0x3C, 0x63, 0x6C, 0x69, 0x6E, 0x69,
    0x74, 0x3E, 0x01, 0x00, 0x03, 0x28, 0x29, 0x56, 0x00, 0x01, 0x00, 0x02, 0x00, 0x04, 0x00, 0x00,
    0x00, 0x00, 0x00, 0x01, 0x00, 0x08, 0x00, 0x05, 0x00, 0x06, 0x00, 0x00, 0x00, 0x00]

/-- A class `D` below `A` with an initializer. -/
def initializerSubclassFile : Bytes := [
    0xCA, 0xFE, 0xBA, 0xBE, 0x00, 0x00, 0x00, 0x34, 0x00, 0x07, 0x01, 0x00, 0x01, 0x44, 0x07, 0x00,
    0x01, 0x01, 0x00, 0x01, 0x41, 0x07, 0x00, 0x03, 0x01, 0x00, 0x08, 0x3C, 0x63, 0x6C, 0x69, 0x6E,
    0x69, 0x74, 0x3E, 0x01, 0x00, 0x03, 0x28, 0x29, 0x56, 0x00, 0x01, 0x00, 0x02, 0x00, 0x04, 0x00,
    0x00, 0x00, 0x00, 0x00, 0x01, 0x00, 0x08, 0x00, 0x05, 0x00, 0x06, 0x00, 0x00, 0x00, 0x00]

/-- A script that defines the classes of some files and then goes on. -/
def defineAll (files : List Bytes) (rest : Script Unit) : Script Unit :=
  files.foldr (fun bytes rest => .request (.operation (.define bytes)) () fun _ _ _ => rest) rest

/-- The state after a script, from a new machine. -/
def sessionOf (e : Engine Unit) (script : Script Unit) : Machine × Unit × List InitEvent :=
  (script.run InitEvent.record (e.platform InitEvent.record {} 2) (.ofNumber 1) ({}, (), [])).2

theorem attained_sessionOf (e : Engine Unit) (script : Script Unit) :
    Attained e {} (sessionOf e script) :=
  .script (.new ()) 2 (.ofNumber 1) script

/-- An engine on which every method initializes the class `D` and ends. -/
def reentrantEngine : Engine Unit := fun _ _ _ _ _ _ =>
  .request (.initClass ⟨27⟩) () fun _ _ _ => .finish (.ok .null) ()

/-- The state in which both classes are defined and `D` is initialized. -/
def reentrantSession : Machine × Unit × List InitEvent :=
  sessionOf reentrantEngine (defineAll [initializerFile, initializerSubclassFile]
    (.request (.initClass ⟨27⟩) () fun _ _ _ => .finish (.ok .null) ()))

/-- The initializer of `A` comes back for `D`, and that of `D` is still handed over once, after that
of `A` has returned. -/
theorem handed_once_after_superclass_reentrantSession :
    reentrantSession.2.2 = [.handed ⟨26⟩, .returned ⟨26⟩, .handed ⟨27⟩, .returned ⟨27⟩] ∧
      reentrantSession.2.2.count (.handed ⟨27⟩) ≤ 1 ∧
      ∃ before after, reentrantSession.2.2 = before ++ .handed ⟨27⟩ :: after ∧
        .handed ⟨26⟩ ∈ before ∧ .returned ⟨26⟩ ∈ before := by
  have hevents : reentrantSession.2.2 =
      [.handed ⟨26⟩, .returned ⟨26⟩, .handed ⟨27⟩, .returned ⟨27⟩] := by decide +kernel
  have hsuper : (reentrantSession.1.classes.get? ⟨27⟩).bind Class.superclass = some ⟨26⟩ := by
    decide +kernel
  have hx : reentrantSession.1.classes.initializer? ⟨26⟩ ≠ none := by decide +kernel
  obtain ⟨cls, hc, hs⟩ := Option.bind_eq_some_iff.mp hsuper
  have hnone : ∀ d, .failed d ∉ [InitEvent.handed ⟨26⟩, .returned ⟨26⟩] := by simp
  have hidle : Idle [.handed ⟨26⟩, .returned ⟨26⟩] := by
    intro c hmem
    simp at hmem
    subst hmem
    simp [Ended]
  obtain ⟨honce, horder⟩ := handed_once_after_superclass
    (attained_sessionOf reentrantEngine (defineAll [initializerFile, initializerSubclassFile]
      (.request (.initClass ⟨27⟩) () fun _ _ _ => .finish (.ok .null) ())))
  refine ⟨hevents, honce ⟨27⟩, [.handed ⟨26⟩, .returned ⟨26⟩], [.returned ⟨27⟩], hevents, ?_⟩
  exact horder [.handed ⟨26⟩, .returned ⟨26⟩] ⟨27⟩ [.returned ⟨27⟩] hevents hnone hidle cls ⟨26⟩ hc
    hs hx

/-- When a class is initialized while no initializer is running, and that succeeds, then the
initializer of each class above it has been run to its end that is reached through classes which
initialization begins, unless that of a class still further up has failed. -/
theorem handed_of_initializeClass {s s' : Machine × W × List InitEvent} (h : Attained e path s)
    {depth : Nat} {t : ThreadId} {c : ClassId}
    (hrun : initializeClass ((e.platform InitEvent.record path depth).noting InitEvent.record) t c s =
      (.ok (), s'))
    {a : ClassId} (ha : a ∈ s.1.classes.ancestors c) (hx : s.1.classes.initializer? a ≠ none)
    (hchain : ∀ b ∈ s.1.classes.ancestors c, a ∈ s.1.classes.ancestors b →
      s.1.classes.needsInit b = true) :
    (.handed a ∈ s'.2.2 ∧ Ended s'.2.2 a) ∨
      ∃ d ∈ s.1.classes.ancestors a, d ≠ a ∧ .failed d ∈ s'.2.2 := by
  have hinit := initialized (keeps_platform e path depth) t c h.stands fun _ b hb =>
    absurd hb List.not_mem_nil
  rw [hrun] at hinit
  have hgrows : s.1.classes.Extends s'.1.classes := hinit.leads.grows
  have hneeds := hchain c (ClassTable.self_mem_ancestors _ c) ha
  have hlt := ClassTable.lt_size_of_needsInit hneeds
  have hlt' : ∀ b ∈ s.1.classes.ancestors c, b.index < s.1.classes.size :=
    fun b hb => Nat.lt_of_le_of_lt (ClassTable.index_le_of_mem_ancestors hb) hlt
  have halt := hlt' a ha
  -- The chain is the same in the new table.
  have hstarted : s'.1.classes.isStarted a = true := by
    apply hinit.stands.account.isStarted_of_mem_ancestors (hinit.started hneeds)
    · rw [hgrows.ancestors hlt]
      exact ha
    · intro b hb hab
      rw [hgrows.ancestors hlt] at hb
      rw [hgrows.ancestors (hlt' b hb)] at hab
      rw [hgrows.needsInit (hlt' b hb)]
      exact hchain b hb hab
  have hx' : s'.1.classes.initializer? a ≠ none := by
    rw [hgrows.initializer? halt]
    exact hx
  have hended : .handed a ∈ s'.2.2 → .handed a ∈ s'.2.2 ∧ Ended s'.2.2 a :=
    fun hmem => ⟨hmem, hinit.leads.idle_of h.idle a hmem⟩
  rcases hinit.stands.account.settled a hstarted hx' with hb | hhanded | ⟨d, hd, hfailed⟩
  · exact absurd hb List.not_mem_nil
  · exact Or.inl (hended hhanded)
  · rw [hgrows.ancestors halt] at hd
    by_cases hda : d = a
    · subst hda
      exact Or.inl (hended (hinit.stands.account.handed d (Or.inr hfailed)))
    · exact Or.inr ⟨d, hd, hda, hfailed⟩

/-- An engine all of whose methods end in the same way. -/
def constantEngine (result : Except Stop Value) : Engine Unit := fun _ _ _ _ _ _ =>
  .finish result ()

/-- The initialization of a class in a state. -/
def initializeIn (e : Engine Unit) (c : ClassId) (s : Machine × Unit × List InitEvent) :
    Except Stop Unit × Machine × Unit × List InitEvent :=
  initializeClass ((e.platform InitEvent.record {} 2).noting InitEvent.record) (.ofNumber 1) c s

/-- The state in which `A` and `D` are defined, on an engine whose methods all return. -/
def definedSession : Machine × Unit × List InitEvent :=
  sessionOf (constantEngine (.ok .null))
    (defineAll [initializerFile, initializerSubclassFile] (.finish (.ok .null) ()))

/-- Initializing `D` runs the initializer of `A` to its end. -/
theorem handed_of_initializeClass_definedSession :
    (initializeIn (constantEngine (.ok .null)) ⟨27⟩ definedSession).1 = .ok () ∧
      ⟨26⟩ ∈ definedSession.1.classes.ancestors ⟨27⟩ ∧
      .handed ⟨26⟩ ∈ (initializeIn (constantEngine (.ok .null)) ⟨27⟩ definedSession).2.2.2 ∧
      Ended (initializeIn (constantEngine (.ok .null)) ⟨27⟩ definedSession).2.2.2 ⟨26⟩ := by
  have hisOk : (initializeIn (constantEngine (.ok .null)) ⟨27⟩ definedSession).1.isOk = true := by
    decide +kernel
  obtain ⟨_, hok⟩ := exists_eq_ok_of_isOk hisOk
  have ha : ⟨26⟩ ∈ definedSession.1.classes.ancestors ⟨27⟩ := by decide +kernel
  have hx : definedSession.1.classes.initializer? ⟨26⟩ ≠ none := by decide +kernel
  have hchain : ∀ b ∈ definedSession.1.classes.ancestors ⟨27⟩,
      ⟨26⟩ ∈ definedSession.1.classes.ancestors b →
        definedSession.1.classes.needsInit b = true := by decide +kernel
  have hnone : ∀ d ∈ definedSession.1.classes.ancestors ⟨26⟩,
      .failed d ∉ (initializeIn (constantEngine (.ok .null)) ⟨27⟩ definedSession).2.2.2 := by
    decide +kernel
  rcases handed_of_initializeClass (attained_sessionOf _ _) (Prod.ext hok rfl) ha hx hchain with
    hrun | ⟨d, hd, _, hfailed⟩
  · exact ⟨hok, ha, hrun⟩
  · exact absurd hfailed (hnone d hd)

/-- A class `B` below `A` without an initializer. -/
def plainSubclassFile : Bytes := [
    0xCA, 0xFE, 0xBA, 0xBE, 0x00, 0x00, 0x00, 0x34, 0x00, 0x05, 0x01, 0x00, 0x01, 0x42, 0x07, 0x00,
    0x01, 0x01, 0x00, 0x01, 0x41, 0x07, 0x00, 0x03, 0x00, 0x01, 0x00, 0x02, 0x00, 0x04, 0x00, 0x00,
    0x00, 0x00, 0x00, 0x00, 0x00, 0x00]

/-- The state in which `A` and `B` are defined, on an engine whose methods all return. -/
def plainSession : Machine × Unit × List InitEvent :=
  sessionOf (constantEngine (.ok .null))
    (defineAll [initializerFile, plainSubclassFile] (.finish (.ok .null) ()))

/-- How a method fails. -/
def runtimeFailure : Except Stop Value := .error (.thrown (.ofClass "java/lang/RuntimeException"))

/-- The state after an initialization of `D`, on an engine whose methods all fail. -/
def failedSession : Machine × Unit × List InitEvent :=
  sessionOf (constantEngine runtimeFailure) (defineAll [initializerFile, initializerSubclassFile]
    (.request (.initClass ⟨27⟩) () fun _ _ _ => .finish (.ok .null) ()))

/-- Initializing `B`, which has no initializer, does not run that of its superclass, although it
succeeds.  Neither does initializing `D` run its own initializer once that of its superclass has
failed. -/
theorem initialized_without_handing :
    (Attained (constantEngine (.ok .null)) {} plainSession ∧
      (initializeIn (constantEngine (.ok .null)) ⟨27⟩ plainSession).1 = .ok () ∧
      ⟨26⟩ ∈ plainSession.1.classes.ancestors ⟨27⟩ ∧
      plainSession.1.classes.initializer? ⟨26⟩ ≠ none ∧
      .handed ⟨26⟩ ∉ (initializeIn (constantEngine (.ok .null)) ⟨27⟩ plainSession).2.2.2) ∧
    (Attained (constantEngine runtimeFailure) {} failedSession ∧
      (initializeIn (constantEngine runtimeFailure) ⟨27⟩ failedSession).1 = .ok () ∧
      failedSession.1.classes.initializer? ⟨27⟩ ≠ none ∧
      .handed ⟨27⟩ ∉ (initializeIn (constantEngine runtimeFailure) ⟨27⟩ failedSession).2.2.2) := by
  have hplain : (initializeIn (constantEngine (.ok .null)) ⟨27⟩ plainSession).1.isOk = true ∧
      ⟨26⟩ ∈ plainSession.1.classes.ancestors ⟨27⟩ ∧
      plainSession.1.classes.initializer? ⟨26⟩ ≠ none ∧
      .handed ⟨26⟩ ∉ (initializeIn (constantEngine (.ok .null)) ⟨27⟩ plainSession).2.2.2 := by
    decide +kernel
  have hfailed : (initializeIn (constantEngine runtimeFailure) ⟨27⟩ failedSession).1.isOk = true ∧
      failedSession.1.classes.initializer? ⟨27⟩ ≠ none ∧
      .handed ⟨27⟩ ∉ (initializeIn (constantEngine runtimeFailure) ⟨27⟩ failedSession).2.2.2 := by
    decide +kernel
  obtain ⟨hisOk, hplain⟩ := hplain
  obtain ⟨hisOk', hfailed⟩ := hfailed
  obtain ⟨_, hok⟩ := exists_eq_ok_of_isOk hisOk
  obtain ⟨_, hok'⟩ := exists_eq_ok_of_isOk hisOk'
  exact ⟨⟨attained_sessionOf _ _, hok, hplain⟩, attained_sessionOf _ _, hok', hfailed⟩

end JavaMachine
