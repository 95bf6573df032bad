/-
# Steps of a machine

Whatever a computation does to classes and objects it does in steps (`Machine.Step`): the class
table takes a step of its own, or objects are added in the shape of their class, written to without
changing their shape, or freed.  `Action.Takes` says of a computation how the state that it comes to
is related to the one that it goes from, such as by steps alone, and what holds of its result.  For a
reflexive and transitive relation it is closed under everything computations are put together with,
so that each computation is followed from its parts.
-/
import JavaMachine.Platform
import JavaMachine.Proofs.Objects
import Mathlib.Data.List.Forall2
import Mathlib.Logic.Relation
import Mathlib.Order.Defs.Unbundled

namespace JavaMachine

variable {named : String → Prop}

/-! ## Steps -/

/-- A step of a machine.  What the machine keeps beside classes and objects may change at will. -/
inductive Machine.Step (named : String → Prop) : Machine → Machine → Prop
  | classes {m m' : Machine} (hheap : m'.heap = m.heap)
      (hstep : ClassTable.Step named m.classes m'.classes) : Step named m m'
  | objects {m m' : Machine} (hclasses : m'.classes = m.classes)
      (hobjects : ∀ r o', m'.heap.get? r = some o' →
        m.classes.Shapes o'.owner o'.body ∨
          ∃ o, m.heap.get? r = some o ∧ o'.owner = o.owner ∧ o.body.SameShape o'.body) :
      Step named m m'

/-- A machine whose class table is well formed and whose objects have the shapes of their classes.
-/
structure Machine.WellFormed (named : String → Prop) (m : Machine) : Prop where
  classes : m.classes.WellFormed named
  shapes : ∀ r o, m.heap.get? r = some o → m.classes.Shapes o.owner o.body

/-- A machine comes to another one by steps, with the same definitions under way and the same
classes begun. -/
structure Machine.Evolves (named : String → Prop) (m m' : Machine) : Prop where
  steps : Relation.ReflTransGen (Machine.Step named) m m'
  defining : m'.defining = m.defining
  started : ∀ c, m'.classes.isStarted c = m.classes.isStarted c

namespace Machine

variable {m m' m'' : Machine}

/-- A step keeps the classes that are there. -/
theorem Step.extends (h : Step named m m') : m.classes.Extends m'.classes := by
  cases h with
  | classes hheap hstep => exact hstep.extends
  | objects hclasses hobjects => exact hclasses ▸ ClassTable.Extends.refl m.classes

/-- A step keeps a machine well formed. -/
theorem Step.wellFormed (h : Step named m m') (hw : m.WellFormed named) : m'.WellFormed named := by
  cases h with
  | classes hheap hstep =>
    refine ⟨hstep.wellFormed hw.classes, ?_⟩
    intro r o ho
    rw [hheap] at ho
    exact (hw.shapes r o ho).of_extends hstep.extends
  | objects hclasses hobjects =>
    refine ⟨hclasses ▸ hw.classes, ?_⟩
    intro r o' ho'
    rw [hclasses]
    rcases hobjects r o' ho' with hshape | ⟨o, ho, howner, hsame⟩
    · exact hshape
    · rw [howner]
      exact (hw.shapes r o ho).of_sameShape hsame

/-- A run of steps keeps the classes that are there. -/
theorem extends_of_steps (h : Relation.ReflTransGen (Step named) m m') :
    m.classes.Extends m'.classes := by
  induction h with
  | refl => exact ClassTable.Extends.refl _
  | tail _ hstep ih => exact ih.trans hstep.extends

/-- A run of steps leads from a well-formed machine to a well-formed one. -/
theorem wellFormed_of_steps (h : Relation.ReflTransGen (Step named) m m')
    (hw : m.WellFormed named) : m'.WellFormed named := by
  induction h with
  | refl => exact hw
  | tail _ hstep ih => exact hstep.wellFormed ih

theorem Evolves.refl (m : Machine) : Evolves named m m := ⟨.refl, rfl, fun _ => rfl⟩

/-- What comes of two computations in a row is again the work of steps. -/
theorem Evolves.trans (h : Evolves named m m') (h' : Evolves named m' m'') : Evolves named m m'' :=
  ⟨h.steps.trans h'.steps, h'.defining.trans h.defining,
    fun c => (h'.started c).trans (h.started c)⟩

instance : IsPreorder Machine (Evolves named) where
  refl := Evolves.refl
  trans _ _ _ := Evolves.trans

/-- No class is lost on the way. -/
theorem Evolves.extends (h : Evolves named m m') : m.classes.Extends m'.classes :=
  extends_of_steps h.steps

/-- A machine stays well-formed on the way. -/
theorem Evolves.wellFormed (h : Evolves named m m') (hw : m.WellFormed named) :
    m'.WellFormed named :=
  wellFormed_of_steps h.steps hw

/-- A single step at which no class is started, and nothing is being defined that was not. -/
theorem Step.evolves (h : Step named m m') (hd : m'.defining = m.defining)
    (hs : ∀ c, m'.classes.isStarted c = m.classes.isStarted c) : Evolves named m m' :=
  ⟨.single h, hd, hs⟩

/-- What is no class and no object may change at will. -/
theorem step_of_eq (hclasses : m'.classes = m.classes) (hheap : m'.heap = m.heap) :
    Step named m m' := by
  refine .objects hclasses ?_
  intro r o ho
  rw [hheap] at ho
  exact Or.inr ⟨o, ho, rfl, o.body.sameShape_refl⟩

/-- What is no class, no object and no definition under way may change at will. -/
theorem evolves_of_eq (hclasses : m'.classes = m.classes) (hheap : m'.heap = m.heap)
    (hdefining : m'.defining = m.defining) : Evolves named m m' :=
  (step_of_eq hclasses hheap).evolves hdefining fun _ => by rw [hclasses]

end Machine

/-! ## Running computations -/

/-- A check that raises an exception is passed in a computation that succeeds. -/
theorem check_eq_ok {β : Type} {c : Prop} [Decidable c] {t : Throwable} {k : Unit → Except Stop β}
    {b : β} (h : (if c then raise t >>= k else k ()) = .ok b) : ¬ c ∧ k () = .ok b := by
  split at h
  · cases h
  · next hc => exact ⟨hc, h⟩

/-- A computation succeeds alike whatever becomes of its failures. -/
theorem mapError_eq_ok {ε ε' α : Type} {r : Except ε α} {f : ε → ε'} {x : α} :
    r.mapError f = .ok x ↔ r = .ok x := by
  cases r with
  | error e => exact ⟨fun h => (nomatch h), fun h => (nomatch h)⟩
  | ok y => exact ⟨fun h => congrArg _ (Except.ok.inj h), fun h => congrArg _ (Except.ok.inj h)⟩

/-- A value or an exception, and no broken invariant. -/
def Answers {α : Type} (r : Except Stop α) : Prop := (∃ x, r = .ok x) ∨ ∃ t, r = .error (.thrown t)

instance {α : Type} (r : Except Stop α) : Decidable (Answers r) :=
  match r with
  | .ok x => isTrue (Or.inl ⟨x, rfl⟩)
  | .error (.thrown t) => isTrue (Or.inr ⟨t, rfl⟩)
  | .error (.broken _) => isFalse (by rintro (⟨_, h⟩ | ⟨_, h⟩) <;> cases h)
  | .error (.exit _) => isFalse (by rintro (⟨_, h⟩ | ⟨_, h⟩) <;> cases h)
  | .error .blocked => isFalse (by rintro (⟨_, h⟩ | ⟨_, h⟩) <;> cases h)

theorem answers_ok {α : Type} (x : α) : Answers (.ok x : Except Stop α) := Or.inl ⟨x, rfl⟩

/-- An exception is an answer. -/
theorem answers_thrown {α : Type} (t : Throwable) : Answers (.error (.thrown t) : Except Stop α) :=
  Or.inr ⟨t, rfl⟩

/-- A chain of two computations gives an answer where the first one does, and the second one on its
result. -/
theorem Answers.bind {α β : Type} {r : Except Stop α} {f : α → Except Stop β} (hr : Answers r)
    (hf : ∀ x, r = .ok x → Answers (f x)) : Answers (r >>= f) := by
  rcases hr with ⟨x, rfl⟩ | ⟨t, rfl⟩
  · exact hf x rfl
  · exact answers_thrown t

/-- A broken invariant is no answer. -/
theorem not_answers_broken {α : Type} (f : Fault) :
    ¬ Answers (.error (.broken f) : Except Stop α) := by
  rintro (⟨_, h⟩ | ⟨_, h⟩)
  · cases h
  · cases h

/-- A chain of two computations goes on from the result of the first one and the state after it. -/
theorem run_bind {σ α β : Type} (a : ExceptT Stop (StateM σ) α) (f : α → ExceptT Stop (StateM σ) β)
    (s : σ) :
    (a >>= f) s =
      match a s with
      | (.ok x, s') => f x s'
      | (.error e, s') => (.error e, s') := by
  show ExceptT.bindCont f (a s).1 (a s).2 = _
  rcases a s with ⟨_ | _, s'⟩ <;> rfl

/-- A step without a state of its own hands the state on as it is. -/
theorem run_lift_bind {σ α β : Type} (r : Except Stop α) (f : α → ExceptT Stop (StateM σ) β)
    (s : σ) :
    ((liftM r : ExceptT Stop (StateM σ) α) >>= f) s =
      match r with
      | .ok x => f x s
      | .error e => (.error e, s) := by
  cases r <;> rfl

/-- The result of a computation is dropped, and its state is kept. -/
theorem run_discard {σ α : Type} (a : ExceptT Stop (StateM σ) α) (s : σ) :
    (discard a : ExceptT Stop (StateM σ) PUnit) s = ((a s).1.map fun _ => ⟨⟩, (a s).2) := by
  rcases h : a s with ⟨_ | _, s'⟩
  · simp only [Functor.discard, Functor.mapConst, ExceptT.map, ExceptT.mk, Function.comp, bind,
      StateT.bind, h, Except.map]
    rfl
  · simp only [Functor.discard, Functor.mapConst, ExceptT.map, ExceptT.mk, Function.comp, bind,
      StateT.bind, h, Except.map]
    rfl

/-- Handing out an exception changes nothing else. -/
theorem Exec.state_attempt {W α : Type} (a : Exec W α) (s : Machine × W) :
    (attempt a s).2 = (a s).2 := by
  unfold attempt
  rcases a s with ⟨(t | g | c) | x, s₁⟩ <;> rfl

namespace Action

variable {α β : Type} {m : Machine}

/-- A chain of two computations gives a result when both do. -/
theorem run_bind_eq_ok {a : Action α} {f : α → Action β} {y : β} {m' : Machine} :
    (a >>= f) m = (.ok y, m') ↔ ∃ x m₁, a m = (.ok x, m₁) ∧ f x m₁ = (.ok y, m') := by
  rw [run_bind]
  rcases a m with ⟨e | x, m₁⟩
  · refine ⟨fun h => (nomatch h), ?_⟩
    rintro ⟨_, _, h, _⟩
    cases h
  · refine ⟨fun h => ⟨x, m₁, rfl, h⟩, ?_⟩
    rintro ⟨_, _, ⟨⟩, h⟩
    exact h

/-- A chain of two computations fails where the first one does, or where the second one does after
the first one. -/
theorem run_bind_eq_error {a : Action α} {f : α → Action β} {e : Stop} :
    ((a >>= f) m).1 = .error e ↔
      (a m).1 = .error e ∨ ∃ x m₁, a m = (.ok x, m₁) ∧ (f x m₁).1 = .error e := by
  rw [run_bind]
  rcases a m with ⟨e' | x, m₁⟩
  · refine ⟨fun h => Or.inl (congrArg _ (Except.error.inj h)), ?_⟩
    rintro (h | ⟨_, _, h, _⟩)
    · exact congrArg _ (Except.error.inj h)
    · cases h
  · refine ⟨fun h => Or.inr ⟨x, m₁, rfl, h⟩, ?_⟩
    rintro (h | ⟨_, _, ⟨⟩, h⟩)
    · cases h
    · exact h

/-- Chains of computations that run alike, one after the other. -/
theorem run_bind_congr {a a' : Action α} {f f' : α → Action β} (ha : a' m = a m)
    (hf : ∀ x m₁, a m = (.ok x, m₁) → f' x m₁ = f x m₁) : (a' >>= f') m = (a >>= f) m := by
  rw [run_bind, run_bind, ha]
  rcases ham : a m with ⟨e | x, m₁⟩
  · rfl
  · exact hf x m₁ ham

theorem run_get (m : Machine) : (get : Action Machine) m = (.ok m, m) := rfl

theorem run_liftStop (r : Except Stop α) (m : Machine) : (liftM r : Action α) m = (r, m) := by
  cases r <;> rfl

/-- Exceptions of a step are those of the computation. -/
theorem run_liftThrowable_bind (r : Except Throwable α) (f : α → Action β) (m : Machine) :
    ((liftM r : Action α) >>= f) m =
      match r with
      | .ok x => f x m
      | .error t => (.error (.thrown t), m) := by
  cases r <;> rfl

/-- A step that gives a result is followed by what uses it. -/
theorem run_liftThrowable_bind_of_ok {r : Except Throwable α} {x : α} (h : r = .ok x)
    (f : α → Action β) (m : Machine) : ((liftM r : Action α) >>= f) m = f x m := by
  rw [run_liftThrowable_bind, h]

/-- What looks at the machine runs in the machine that it saw. -/
theorem run_get_bind (f : Machine → Action β) (m : Machine) :
    ((get : Action Machine) >>= f) m = f m m := rfl

/-! ## Computations that keep to a relation -/

/-- From a state, the computation comes to a related one, and a result that it gives is as said. -/
def Takes (Rel : Machine → Machine → Prop) (m : Machine) (a : Action α)
    (Q : α → Machine → Prop) : Prop :=
  Rel m (a m).2 ∧ ∀ x, (a m).1 = .ok x → Q x (a m).2

variable {Rel : Machine → Machine → Prop}
variable {a : Action α} {f : α → Action β} {Q Q' : α → Machine → Prop} {R : β → Machine → Prop}

/-- What is known of a result may be weakened. -/
theorem Takes.mono (h : Takes Rel m a Q) (hQ : ∀ x m', Rel m m' → Q x m' → Q' x m') :
    Takes Rel m a Q' :=
  ⟨h.1, fun x hx => hQ x _ h.1 (h.2 x hx)⟩

/-- What holds of a run that gives a result. -/
theorem Takes.of_eq (h : Takes Rel m a Q) {x : α} {m' : Machine} (ha : a m = (.ok x, m')) :
    Rel m m' ∧ Q x m' := by
  rw [Takes, ha] at h
  exact ⟨h.1, h.2 x rfl⟩

/-- Looking at the machine is no step. -/
theorem takes_get_bind {g : Machine → Action β} (h : Takes Rel m (g m) R) :
    Takes Rel m (get >>= g) R := h

/-- A change is a step by itself. -/
theorem takes_modify {g : Machine → Machine} {R : PUnit → Machine → Prop}
    (hg : Rel m (g m)) (h : R ⟨⟩ (g m)) : Takes Rel m (modify g) R :=
  ⟨hg, fun _ _ => h⟩

/-- A change that gives a result is a step by itself. -/
theorem takes_modifyGet {g : Machine → α × Machine} (hg : Rel m (g m).2)
    (h : Q (g m).1 (g m).2) : Takes Rel m (modifyGet g) Q := by
  refine ⟨hg, ?_⟩
  rintro _ ⟨⟩
  exact h

/-- A computation whose result is not used comes to the same state. -/
theorem Takes.discard (ha : Takes Rel m a Q) : Takes Rel m (discard a) fun _ _ => True := by
  rw [Takes, run_discard]
  exact ⟨ha.1, fun _ _ => trivial⟩

/-- A computation whose exceptions are handed out comes to the same state. -/
theorem Takes.attempt (ha : Takes Rel m a Q) :
    Takes Rel m a.attempt fun r m' => ∀ x, r = .ok x → Q x m' := by
  unfold Takes Action.attempt
  -- Only an exception is handed out as a result; any other end stays one.
  rcases ham : a m with ⟨(t | f | c) | x, m'⟩
  all_goals rw [Takes, ham] at ha
  · refine ⟨ha.1, ?_⟩
    rintro y ⟨⟩ z hz
    cases hz
  · exact ⟨ha.1, fun _ h => nomatch h⟩
  · exact ⟨ha.1, fun _ h => nomatch h⟩
  · exact ⟨ha.1, fun _ h => nomatch h⟩
  · refine ⟨ha.1, ?_⟩
    rintro y ⟨⟩ z ⟨⟩
    exact ha.2 x rfl

variable [IsPreorder Machine Rel]

/-- A result is given without a step. -/
theorem takes_pure {x : α} (h : Q x m) : Takes Rel m (pure x) Q := by
  refine ⟨refl m, ?_⟩
  rintro y ⟨⟩
  exact h

/-- Ending early is no step, and gives no result. -/
theorem takes_throw (e : Stop) : Takes Rel m (throw e) Q :=
  ⟨refl m, fun _ h => nomatch h⟩

theorem takes_raise (t : Throwable) : Takes Rel m (raise t) Q := takes_throw _

theorem takes_abort (f : Fault) : Takes Rel m (abort f) Q := takes_throw _

/-- A computation that goes on with another one keeps to what both keep to. -/
theorem Takes.bind (ha : Takes Rel m a Q)
    (hf : ∀ x m', Rel m m' → Q x m' → Takes Rel m' (f x) R) :
    Takes Rel m (a >>= f) R := by
  unfold Takes
  rw [run_bind]
  rcases ham : a m with ⟨e | x, m'⟩
  · rw [Takes, ham] at ha
    exact ⟨ha.1, fun _ h => nomatch h⟩
  · rw [Takes, ham] at ha
    have hx := hf x m' ha.1 (ha.2 x rfl)
    exact ⟨IsTrans.trans _ _ _ ha.1 hx.1, hx.2⟩

/-- A check that raises an exception lets the rest run only where it is passed. -/
theorem takes_check {c : Prop} [Decidable c] {t : Throwable} {k : Unit → Action β}
    (h : ¬ c → Takes Rel m (k ()) R) : Takes Rel m (if c then raise t >>= k else k ()) R := by
  split
  · exact (takes_raise (Q := fun _ _ => False) t).bind fun _ _ _ h => h.elim
  · next hc => exact h hc

/-- What a check gives is known in what follows. -/
theorem takes_lift_bind {r : Except Stop α}
    (h : ∀ x, r = .ok x → Takes Rel m (f x) R) : Takes Rel m (liftM r >>= f) R := by
  cases r with
  | ok x => exact h x rfl
  | error e => exact ⟨refl m, fun _ hx => nomatch hx⟩

/-- A check is no step. -/
theorem takes_liftThrowable {r : Except Throwable α} (h : ∀ x, r = .ok x → Q x m) :
    Takes Rel m (liftM r : Action α) Q := by
  cases r with
  | ok x => exact takes_pure (h x rfl)
  | error e => exact takes_throw _

/-- What a check that raises exceptions gives is known in what follows. -/
theorem takes_liftThrowable_bind {r : Except Throwable α}
    (h : ∀ x, r = .ok x → Takes Rel m (f x) R) : Takes Rel m (liftM r >>= f) R := by
  cases r with
  | ok x => exact h x rfl
  | error e => exact ⟨refl m, fun _ hx => nomatch hx⟩

/-- A change of the state, and what follows from there. -/
theorem takes_modify_bind {g : Machine → Machine} {k : PUnit → Action β}
    (hg : Rel m (g m)) (h : Takes Rel (g m) (k ⟨⟩) R) :
    Takes Rel m (modify g >>= k) R :=
  ⟨IsTrans.trans _ _ _ hg h.1, h.2⟩

/-- A computation that changes the state in one go, or fails and changes nothing. -/
theorem takes_updating {u : Machine → Except Stop Machine}
    (h : ∀ m', u m = .ok m' → Rel m m') :
    Takes Rel m (updating u) fun _ _ => True := by
  unfold Takes updating
  cases hu : u m with
  | ok m' => exact ⟨h m' hu, fun _ _ => trivial⟩
  | error e => exact ⟨refl m, fun _ _ => trivial⟩

/-- What is done however a computation ends is done after its steps. -/
theorem Takes.andFinally {g : Machine → Machine} (ha : Takes Rel m a Q)
    (hg : ∀ m', Rel m m' → Rel m' (g m'))
    (hQ : ∀ x m', Rel m m' → Q x m' → Q' x (g m')) :
    Takes Rel m (a.andFinally g) Q' :=
  ⟨IsTrans.trans _ _ _ ha.1 (hg _ ha.1), fun x hx => hQ x _ ha.1 (ha.2 x hx)⟩

/-- Computations for the items of a list, one after the other, each with a result of a kind that lasts:
all results are of that kind in the end. -/
theorem takes_mapM_lasting {γ : Type} {I : Machine → Prop} {P : β → Machine → Prop} (l : List γ)
    {g : γ → Action β} (hlasting : ∀ x m m', I m → Rel m m' → P x m → P x m')
    (hg : ∀ c m, I m → Takes Rel m (g c) fun x m' => P x m' ∧ I m') (hm : I m) :
    Takes Rel m (l.mapM g) fun xs m' => (∀ x ∈ xs, P x m') ∧ I m' := by
  induction l generalizing m with
  | nil =>
    rw [List.mapM_nil]
    exact takes_pure ⟨fun _ h => absurd h List.not_mem_nil, hm⟩
  | cons c l ih =>
    rw [List.mapM_cons]
    refine (hg c m hm).bind ?_
    rintro x m₁ _ ⟨hx, h₁⟩
    refine (ih h₁).bind ?_
    rintro xs m₂ hrel ⟨hxs, h₂⟩
    exact takes_pure ⟨List.forall_mem_cons.mpr ⟨hlasting x m₁ m₂ h₁ hrel hx, hxs⟩, h₂⟩

/-- So they are where the kind does not depend on the state. -/
theorem takes_mapM_mem {γ : Type} {I : Machine → Prop} {P : β → Prop} (l : List γ)
    {g : γ → Action β} (hg : ∀ c m, I m → Takes Rel m (g c) fun x m' => P x ∧ I m') (hm : I m) :
    Takes Rel m (l.mapM g) fun xs m' => (∀ x ∈ xs, P x) ∧ I m' :=
  takes_mapM_lasting (P := fun x _ => P x) l (fun _ _ _ _ _ hx => hx) hg hm

/-- Going through a list takes the steps of its items, where each of them finds what the one before
kept. -/
theorem takes_mapM {γ : Type} {I : Machine → Prop} (l : List γ) {g : γ → Action β}
    (hg : ∀ c m, I m → Takes Rel m (g c) fun _ m' => I m') (hm : I m) :
    Takes Rel m (l.mapM g) fun _ m' => I m' := by
  have hall := takes_mapM_mem (P := fun _ => True) l
    (fun c m h => (hg c m h).mono fun _ _ _ h => ⟨trivial, h⟩) hm
  exact hall.mono fun _ _ _ h => h.2

/-- So each result stands to its item as said, where that lasts. -/
theorem takes_mapM_forall₂ {γ : Type} {P : γ → β → Machine → Prop} (l : List γ)
    {g : γ → Action β} (hlasting : ∀ c x m m', Rel m m' → P c x m → P c x m')
    (hg : ∀ c m, Takes Rel m (g c) (P c)) :
    Takes Rel m (l.mapM g) fun xs m' => List.Forall₂ (fun c x => P c x m') l xs := by
  induction l generalizing m with
  | nil =>
    rw [List.mapM_nil]
    exact takes_pure .nil
  | cons c l ih =>
    rw [List.mapM_cons]
    refine (hg c m).bind fun x m₁ _ hx => ?_
    refine ih.bind fun xs m₂ hrel hxs => ?_
    exact takes_pure (.cons (hlasting c x m₁ m₂ hrel hx) hxs)

/-- A result built up along a list has a property of the items that were taken, when each item goes on
with it. -/
theorem takes_foldlM_taken {γ : Type} {P : List γ → α → Machine → Prop} (taken l : List γ)
    {g : α → γ → Action α}
    (hg : ∀ taken x c m, P taken x m → Takes Rel m (g x c) (P (taken ++ [c]))) {x : α}
    (hx : P taken x m) : Takes Rel m (l.foldlM g x) (P (taken ++ l)) := by
  induction l generalizing m x taken with
  | nil =>
    rw [List.foldlM_nil, List.append_nil]
    exact takes_pure hx
  | cons c l ih =>
    rw [List.foldlM_cons, List.append_cons]
    exact (hg taken x c m hx).bind fun y m' _ hy => ih _ hy

/-- A result built up along a list keeps a property, when each item keeps it and so do steps. -/
theorem takes_foldlM {γ : Type} {P : α → Machine → Prop} (l : List γ) {g : α → γ → Action α}
    (hg : ∀ x c m, P x m → Takes Rel m (g x c) P) {x : α} (hx : P x m) :
    Takes Rel m (l.foldlM g x) P :=
  takes_foldlM_taken (P := fun _ => P) [] l (fun _ => hg) hx

/-! ## Computations that give an answer -/

/-- What is lifted ends with an exception or not at all, so another failure is that of what follows.
-/
theorem liftThrowable_bind_fault_iff {r : Except Throwable α} {e : Stop}
    (he : ∀ t, e ≠ .thrown t) :
    (((liftM r : Action α) >>= f) m).1 = .error e ↔ ∃ x, r = .ok x ∧ (f x m).1 = .error e := by
  rw [run_liftThrowable_bind]
  cases r with
  | error t =>
    refine ⟨fun h => absurd (Except.error.inj h).symm (he t), ?_⟩
    rintro ⟨_, h, _⟩
    cases h
  | ok x =>
    refine ⟨fun h => ⟨x, rfl, h⟩, ?_⟩
    rintro ⟨_, ⟨⟩, h⟩
    exact h

/-- The computation gives an answer in every state. -/
def Answering (a : Action α) : Prop := ∀ m, Answers (a m).1

theorem answering_pure (x : α) : Answering (pure x : Action α) := fun _ => answers_ok x

/-- An exception is an answer in every state. -/
theorem answering_raise (t : Throwable) : Answering (raise t : Action α) :=
  fun _ => answers_thrown t

theorem answering_get : Answering (get : Action Machine) := fun m => answers_ok m

/-- A change without a result always answers. -/
theorem answering_modify (g : Machine → Machine) : Answering (modify g : Action PUnit) :=
  fun _ => answers_ok _

theorem answering_liftThrowable (r : Except Throwable α) : Answering (liftM r : Action α) := by
  intro m
  cases r with
  | ok x => exact answers_ok x
  | error t => exact answers_thrown t

/-- A computation that goes on with another one gives an answer where both do. -/
theorem Answering.bind (ha : Answering a) (hf : ∀ x, Answering (f x)) : Answering (a >>= f) := by
  intro m
  rw [run_bind]
  have hm := ha m
  rcases ham : a m with ⟨e | x, m'⟩
  · rw [ham] at hm
    rcases hm with ⟨x, hx⟩ | ⟨t, ht⟩
    · cases hx
    · cases ht
      exact answers_thrown t
  · exact hf x m'

/-- Where what follows gives an answer, a failure other than an exception is that of what comes
before. -/
theorem bind_fault_iff {e : Stop} (hf : ∀ x, Answering (f x)) (he : ∀ t, e ≠ .thrown t) :
    ((a >>= f) m).1 = .error e ↔ (a m).1 = .error e := by
  rw [run_bind_eq_error]
  refine ⟨?_, Or.inl⟩
  rintro (h | ⟨x, m₁, _, h⟩)
  · exact h
  · rcases hf x m₁ with ⟨y, hy⟩ | ⟨t, ht⟩
    · rw [hy] at h
      cases h
    · rw [ht] at h
      exact absurd (Except.error.inj h).symm (he t)

/-- Going through a list answers where each item does. -/
theorem answering_mapM {γ : Type} (l : List γ) {g : γ → Action β} (hg : ∀ c, Answering (g c)) :
    Answering (l.mapM g) := by
  induction l with
  | nil =>
    rw [List.mapM_nil]
    exact answering_pure _
  | cons c l ih =>
    rw [List.mapM_cons]
    exact (hg c).bind fun x => ih.bind fun xs => answering_pure _

/-- Folding a list answers where each step does. -/
theorem answering_foldlM {γ : Type} (l : List γ) {g : α → γ → Action α}
    (hg : ∀ x c, Answering (g x c)) (x : α) : Answering (l.foldlM g x) := by
  induction l generalizing x with
  | nil =>
    rw [List.foldlM_nil]
    exact answering_pure x
  | cons c l ih =>
    rw [List.foldlM_cons]
    exact (hg x c).bind fun y => ih y

end Action

end JavaMachine
