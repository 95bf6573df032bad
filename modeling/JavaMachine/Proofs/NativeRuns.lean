/-
# Runs of native methods

The native methods of the class library work on classes and objects by operations of the machine
alone, whatever their arguments are (`leads_builtins`).  Those that call back into the engine do so
too, on a platform whose engine does, and so does the call of a native method with all that surrounds
it.  Being led on by operations is one of the relations that native methods keep to
(`Platform.Leads.keepsTo`), and what holds in every reachable machine holds after each of them.
-/
import JavaMachine.Proofs.HeapRuns
import JavaMachine.Proofs.NativeEffects

namespace JavaMachine

variable {path : ClassPath} {named : String → Prop} {m m' : Machine}

namespace Machine

instance : IsPreorder Machine (Later path named) where
  refl _ := .refl
  trans _ _ _ := .trans

theorem later_of_eq (hclasses : m'.classes = m.classes) (hheap : m'.heap = m.heap) :
    Later path named m m' :=
  .single (.elsewhere hclasses hheap)

/-- Operations are steps of a run, whatever files may be named. -/
theorem Later.heapRun (h : Later path named m m') : HeapRun path m m' := by
  induction h with
  | refl => exact .refl
  | tail _ hstep ih =>
    cases hstep with
    | operation op _ => exact ih.tail (.operation op)
    | elsewhere _ hheap => exact ih.tail (.elsewhere hheap)

/-- Whatever is done with a monitor is done elsewhere. -/
theorem UsesMonitor.later {r : ObjectRef} (h : UsesMonitor r m m') : Later path named m m' :=
  later_of_eq h.classes h.heap

end Machine

/-! ## Computations that lead on by operations -/

/-- From a state, the computation leads on by operations. -/
abbrev Action.Leads {α : Type} (path : ClassPath) (named : String → Prop) (m : Machine)
    (a : Action α) : Prop :=
  Takes (Machine.Later path named) m a fun _ _ => True

/-- A computation that an operation runs for its effect leads on by that operation. -/
theorem Action.leads_of_operation {α : Type} {a : Action α} (op : Operation)
    (hop : op.Admissible named m) (hrun : op.run path = discard a) :
    Action.Leads path named m a :=
  ⟨Operation.state_run hrun m ▸ .single (.operation op hop), fun _ _ => trivial⟩

/-- From a state, the computation leads on by operations of the machine. -/
def Exec.Leads {W α : Type} (path : ClassPath) (named : String → Prop) (s : Machine × W)
    (a : Exec W α) : Prop :=
  Machine.Later path named s.1 (a s).2.1

/-- A platform whose engine leads on by operations. -/
def Platform.Leads {W : Type} (named : String → Prop) (p : Platform W) : Prop :=
  ∀ t x receiver args s, Exec.Leads p.classPath named s (p.invoke t x receiver args)

theorem Operation.Plain.admissible {op : Operation} (h : op.Plain) : op.Admissible named m := by
  cases op with
  | define bytes => exact h.elim
  | defineRange array offset length => exact h.elim
  | fieldObject f => exact h.elim
  | setField f target v => exact h.elim
  | _ => trivial

/-- Native methods lead on by operations on a platform whose engine does. -/
theorem Platform.Leads.keepsTo {W : Type} {p : Platform W} (hp : p.Leads named) :
    p.KeepsTo (Machine.Later p.classPath named) where
  operation _ op hop := .single (.operation op hop.admissible)
  elsewhere hclasses hheap _ := Machine.later_of_eq hclasses hheap
  invoke := hp

/-! ## Engines -/

section Scripts

variable {W N : Type} (note : N → InitEvent → N) {p : Platform (W × N)} {s : Machine × W × N}

theorem Platform.Leads.noting (hp : p.Leads named) : (p.noting note).Leads named := by
  intro t x receiver args ⟨m, w, n⟩
  have h := hp t x receiver args (m, w, note n (.handed x.owner))
  unfold Exec.Leads at h ⊢
  rw [run_noting]
  rcases hrun : p.invoke t x receiver args (m, w, note n (.handed x.owner)) with ⟨e | v, m₁, w₁, n₁⟩
  · rw [hrun] at h
    exact h
  · rw [hrun] at h
    exact h

/-- What an engine asks for is done by operations, where files may have all names. -/
theorem leads_request (hp : p.Leads fun _ => True) (t : ThreadId) (r : Request) :
    Exec.Leads p.classPath (fun _ => True) s (r.run note p t) := by
  cases r with
  | operation op =>
    refine Exec.Follows.bind_pure (Exec.follows_onMachine ⟨?_, fun _ _ => trivial⟩)
    unfold Operation.runAvailable
    by_cases h : op.Available s.1
    · rw [if_pos h]
      exact .single (.operation op h.admissible)
    · rw [if_neg h]
      exact .refl
  | elsewhere f =>
    have hother : ∀ m : Machine, Machine.Later p.classPath (fun _ => True) m
        { f m with classes := m.classes, heap := m.heap } :=
      fun _ => Machine.later_of_eq rfl rfl
    exact Exec.Follows.bind_pure (Exec.follows_modifyMachine (hother _))
  | initClass c =>
    exact Exec.Follows.bind_pure (follows_initializeClass (hp.noting note).keepsTo t c)
  | invoke x target arguments =>
    exact follows_invokeMethodOver hp.keepsTo (hp.noting note).keepsTo t x target arguments

theorem leads_script (hp : p.Leads fun _ => True) (t : ThreadId) (script : Script W) :
    Exec.Leads p.classPath (fun _ => True) s (script.run note p t) := by
  induction script generalizing s with
  | finish result w => exact Relation.ReflTransGen.refl
  | request r w next ih =>
    obtain ⟨m, w₀, n⟩ := s
    have hrequest := leads_request note (s := (m, w, n)) hp t r
    unfold Exec.Leads at hrequest ⊢
    unfold Script.run
    exact hrequest.trans (ih _ _ _)

theorem classPath_platform (e : Engine W) (path : ClassPath) (depth : Nat) :
    (e.platform note path depth).classPath = path := by
  cases depth <;> rfl

/-- Every engine works on classes and objects by operations alone, however deep its calls nest. -/
theorem leads_platform (e : Engine W) (path : ClassPath) (depth : Nat) :
    (e.platform note path depth).Leads fun _ => True := by
  induction depth with
  | zero => exact fun _ _ _ _ _ => Relation.ReflTransGen.refl
  | succ depth ih =>
    intro t x receiver args ⟨m, w, n⟩
    have hscript := leads_script note (s := (m, w, n)) ih t (e t x receiver args m w)
    rw [classPath_platform] at hscript
    exact hscript

end Scripts

/-! ## Native methods -/

/-- A class file in the arguments of a native method that defines one has a name that files may have.
-/
def Arguments.FileNamed (named : String → Prop) (m : Machine) (args : Arguments) : Prop :=
  ∀ array offset length bytes, args.reference 0 = .ok array → args.int 1 = .ok offset →
    args.int 2 = .ok length → m.classFileRange array offset length = .ok bytes →
      JavaMachine.FileNamed named bytes

section Natives

variable {W : Type} {p : Platform W} {s : Machine × W} {args : Arguments}

/-- Every native method of the class library leads on by operations, on a platform whose engine does
and with no file to define but one with a name that files may have. -/
theorem leads_builtins (hp : p.Leads named) (t : ThreadId) (hfile : args.FileNamed named s.1) :
    ∀ entry ∈ builtins W, Exec.Leads p.classPath named s (entry.2 p t args) := by
  refine follows_builtins hp.keepsTo t args (fun array offset length h0 h1 h2 => ?_) ?_ ?_
  · exact Action.leads_of_operation (.defineRange array offset length)
      (fun bytes => hfile array offset length bytes h0 h1 h2) rfl
  · exact Action.leads_of_operation (.collect t (p.keep s.2)) trivial rfl
  · exact fun r _ u => ⟨(Action.uses_run (r := r) u).1.later, fun _ _ => trivial⟩

namespace Machine

/-- A reachable machine is reachable after every native method of the class library. -/
theorem Reachable.native (h : s.1.Reachable p.classPath named) (hp : p.Leads named) (t : ThreadId)
    (hfile : args.FileNamed named s.1) {entry : String × Native W} (hentry : entry ∈ builtins W) :
    (entry.2 p t args s).2.1.Reachable p.classPath named :=
  h.trans (leads_builtins hp t hfile entry hentry)

/-- Calls of native methods of the class library lead on by operations, whatever they are given. -/
theorem later_runNative (hp : p.Leads fun _ => True) (t : ThreadId) (place : MethodPlace)
    (args : Arguments) :
    Later p.classPath (fun _ => True) s.1
      (runNative p (Registry.bootstrap W) t place args s).2.1 := by
  refine follows_runNative (s := s) hp.keepsTo place fun symbol native hnative m _ _ => ?_
  have hfile : args.FileNamed (fun _ => True) m := fun _ _ _ _ _ _ _ _ _ _ _ _ => trivial
  exact leads_builtins (s := (m, s.2)) hp t hfile _ (Registry.mem_of_get?_ofList hnative)

/-- So they are parts of a run of the heap. -/
theorem heapRun_runNative (hp : p.Leads fun _ => True) (t : ThreadId) (place : MethodPlace)
    (args : Arguments) :
    HeapRun p.classPath s.1 (runNative p (Registry.bootstrap W) t place args s).2.1 :=
  (later_runNative hp t place args).heapRun

end Machine

end Natives

end JavaMachine
