/-
# Calls of native methods and the calls under way

The native methods that call back into the engine leave the calls under way on every thread as they
are, on a platform whose engine does.

Beside the state of its platform a run notes how many threads were made, and what came of the native
methods that an engine called (`CallNotes`).  A computation spares some threads (`Exec.Spares`) when,
as long as the numbers of threads have not come round, it gives back their calls with nothing pending
as it found them, overwrites no pending exception, and changes no link that was made.
-/
import JavaMachine.Proofs.NativeRuns
import JavaMachine.Proofs.QuietNatives

namespace JavaMachine

/-! ## Links -/

namespace Machine

variable {W : Type}

/-- A method by its place. -/
def method? (m : Machine) (place : MethodPlace) : Option Method :=
  (m.classes.get? place.1).bind fun cls => cls.methods[place.2]?

/-- Every method that is linked is linked to the first of its symbols that is registered. -/
def RightlyLinked (registry : Registry W) (m : Machine) : Prop :=
  ∀ place symbol, m.links.get? place = some symbol →
    ∃ cls x, m.classes.get? place.1 = some cls ∧ cls.methods[place.2]? = some x ∧
      (candidateSymbols cls.name x).find? registry.contains = some symbol

/-- From one machine to another links are only added, and they are the right ones. -/
structure KeepsLinks (registry : Registry W) (m m' : Machine) : Prop where
  classes : m.classes.Extends m'.classes
  links : ∀ place symbol, m.links.get? place = some symbol → m'.links.get? place = some symbol
  right : m.RightlyLinked registry → m'.RightlyLinked registry

variable {registry : Registry W} {m m' m'' : Machine}

/-- New classes bring no links along. -/
theorem RightlyLinked.of_extends (h : m.RightlyLinked registry) (hlinks : m'.links = m.links)
    (hext : m.classes.Extends m'.classes) : m'.RightlyLinked registry := by
  intro place symbol hsymbol
  rw [hlinks] at hsymbol
  obtain ⟨cls, x, hcls, hx, hfind⟩ := h place symbol hsymbol
  obtain ⟨cls', hcls', hfixed⟩ := hext _ _ hcls
  have hname : cls'.name = cls.name := Class.eq_of_fixed hfixed Class.name fun _ => rfl
  have hmethods : cls'.methods = cls.methods := Class.eq_of_fixed hfixed Class.methods fun _ => rfl
  exact ⟨cls', x, hcls', hmethods ▸ hx, hname ▸ hfind⟩

namespace KeepsLinks

theorem refl (m : Machine) : m.KeepsLinks registry m := ⟨.refl _, fun _ _ => id, id⟩

/-- Links that are kept twice are kept. -/
theorem trans (h : m.KeepsLinks registry m') (h' : m'.KeepsLinks registry m'') :
    m.KeepsLinks registry m'' where
  classes := h.classes.trans h'.classes
  links place symbol := h'.links place symbol ∘ h.links place symbol
  right := h'.right ∘ h.right

/-- What is neither a class nor a link may change. -/
theorem of_eq (hclasses : m'.classes = m.classes) (hlinks : m'.links = m.links) :
    m.KeepsLinks registry m' where
  classes := hclasses ▸ .refl _
  links _ _ h := hlinks ▸ h
  right h := h.of_extends hlinks (hclasses ▸ .refl _)

end KeepsLinks

/-- What keeps the calls keeps the links. -/
theorem KeepsCalls.keepsLinks (h : m.KeepsCalls m') : m.KeepsLinks registry m' where
  classes := h.classes
  links _ _ hsymbol := h.links ▸ hsymbol
  right hm := hm.of_extends h.links h.classes

end Machine

/-! ## What is noted -/

/-- A call of a native method that an engine made. -/
structure NativeReport where
  thread : ThreadId
  /-- The calls under way before it, with nothing pending. -/
  frames : List Frame
  /-- The exception that linking the method ended with, or else the method itself. -/
  failure : Option Throwable
  result : Except Stop Value
  /-- The calls under way after it, and what is pending then. -/
  after : Option (List Frame × Option Throwable)

/-- The call overwrote no pending exception and raised none, and where it came back the calls are as
they were, the failure is what is pending, and with a failure the result is null. -/
structure NativeReport.Right (r : NativeReport) : Prop where
  harmless : Harmless r.result
  caught : ∀ e, r.result ≠ .error (.thrown e)
  restored : ∀ v, r.result = .ok v → r.after = some (r.frames, r.failure)
  null : ∀ v, r.result = .ok v → r.failure.isSome → v = .null

/-- All that a run notes. -/
structure CallNotes where
  /-- How many threads were made. -/
  made : Nat := 0
  reports : List NativeReport := []

namespace CallNotes

/-- Notes that a thread was made. -/
def addThread (n : CallNotes) : CallNotes := { n with made := n.made + 1 }

/-- Notes a call of a native method. -/
def addReport (n : CallNotes) (r : NativeReport) : CallNotes := { n with reports := n.reports ++ [r] }

end CallNotes

section Runs

variable {W : Type} {s s' s'' : Machine × W × CallNotes}

/-- The numbers of threads have not come round. -/
def Few (s : Machine × W × CallNotes) : Prop := s.2.2.made + 1 < 2 ^ 64

instance decidableFew (s : Machine × W × CallNotes) : Decidable (Few s) := inferInstanceAs (Decidable (_ < _))

/-- A state of a run in which all is in order: the threads were numbered from one on, and the native
methods that were called did as they should. -/
structure Orderly (s : Machine × W × CallNotes) : Prop where
  next : s.1.threads.next.toNat = s.2.2.made + 1
  numbered : ∀ t, (s.1.calls? t).isSome → t.raw.toNat ≤ s.2.2.made
  reports : ∀ r ∈ s.2.2.reports, r.Right

/-- Some threads have the same calls under way in both machines, if there are any and nothing is
pending. -/
def Machine.Spares (kept : ThreadId → Prop) (m m' : Machine) : Prop :=
  ∀ t, kept t → ∀ frames, frames ≠ [] → m.calls? t = some (frames, none) →
    m'.calls? t = some (frames, none)

/-- Fewer threads were made before than after. -/
theorem Few.of_le (h : Few s') (hle : s.2.2.made ≤ s'.2.2.made) : Few s :=
  Nat.lt_of_le_of_lt (Nat.add_le_add_right hle 1) h

/-- What keeps the calls keeps order, as it makes no thread. -/
theorem Orderly.of_keepsCalls (h : Orderly s) (hkeeps : s.1.KeepsCalls s'.1)
    (hworld : s'.2 = s.2) : Orderly s' where
  next := by rw [hkeeps.next, hworld, h.next]
  numbered t ht := by
    rw [hkeeps.calls] at ht
    rw [hworld]
    exact h.numbered t ht
  reports := by
    rw [hworld]
    exact h.reports

/-- The name of the next thread is its number. -/
theorem Orderly.raw_next (h : Orderly s) :
    (ThreadId.ofNumber s.1.threads.next).raw.toNat = s.2.2.made + 1 := by
  have hne : s.1.threads.next ≠ 0 := by
    intro hzero
    have hnext := h.next
    rw [hzero] at hnext
    exact absurd hnext (Nat.zero_ne_add_one _)
  rw [ThreadId.raw_ofNumber hne, h.next]

/-- The number of the next thread is not in use. -/
theorem Orderly.calls?_next (h : Orderly s) :
    s.1.calls? (ThreadId.ofNumber s.1.threads.next) = none := by
  rw [← Option.not_isSome_iff_eq_none]
  intro hsome
  have hle := h.numbered _ hsome
  rw [h.raw_next] at hle
  omega

/-! ## Ends of computations -/

section Ends

variable {α β : Type}

/-- Of the ways to end early, exceptions are answers. -/
theorem answers_error_iff {e : Stop} :
    Answers (.error e : Except Stop α) ↔ ∃ t, e = .thrown t := by
  refine ⟨?_, ?_⟩
  · rintro (⟨_, h⟩ | ⟨t, h⟩)
    · cases h
    · exact ⟨t, Except.error.inj h⟩
  · rintro ⟨t, rfl⟩
    exact answers_thrown t

/-- What is made of a result does not change whether there is an answer. -/
theorem answers_map_iff {r : Except Stop α} {f : α → β} : Answers (r.map f) ↔ Answers r := by
  cases r with
  | ok x => exact ⟨fun _ => answers_ok x, fun _ => answers_ok _⟩
  | error e => exact answers_error_iff.trans answers_error_iff.symm

namespace Exec

variable {V : Type} {a : Exec V α} {s : Machine × V}

/-- A computation that is attempted answers like the computation itself. -/
theorem answers_of_attempt (h : Answers (attempt a s).1) : Answers (a s).1 := by
  unfold attempt at h
  rcases hrun : a s with ⟨(t | g | c) | x, s₁⟩
  all_goals rw [hrun] at h
  · exact answers_thrown t
  · exact answers_error_iff.mpr (answers_error_iff.mp h)
  · exact answers_error_iff.mpr (answers_error_iff.mp h)
  · exact answers_error_iff.mpr (answers_error_iff.mp h)
  · exact answers_ok x

end Exec

/-- What a computation ends with may be looked at. -/
theorem Harmless.attempt {V : Type} {a : Exec V α} {s : Machine × V} (h : Harmless (a s).1) :
    Harmless (Exec.attempt a s).1 := by
  unfold Exec.attempt
  rcases hrun : a s with ⟨(t | g | c) | x, s₁⟩
  all_goals rw [hrun] at h
  · exact harmless_ok _
  · exact h.of_error
  · exact h.of_error
  · exact h.of_error
  · exact harmless_ok _

end Ends

/-! ## Computations that spare threads -/

namespace Exec

variable {registry : Registry (W × CallNotes)} {kept kept' : ThreadId → Prop} {α β : Type}

/-- From a state a computation came to an end at which the calls of some threads are as they were, the
run is in order, no pending exception was overwritten and no link that was made has changed. -/
structure Spared (registry : Registry (W × CallNotes)) (kept : ThreadId → Prop)
    (s : Machine × W × CallNotes) (out : Except Stop α × Machine × W × CallNotes) : Prop where
  made : s.2.2.made ≤ out.2.2.2.made
  links : s.1.KeepsLinks registry out.2.1
  orderly : Few out.2 → Orderly s → Orderly out.2
  harmless : Few out.2 → Orderly s → Harmless out.1
  calls : Few out.2 → Orderly s → Answers out.1 → s.1.Spares kept out.2.1

/-- From a state, the computation spares some threads. -/
abbrev Spares (registry : Registry (W × CallNotes)) (kept : ThreadId → Prop)
    (s : Machine × W × CallNotes) (a : Exec (W × CallNotes) α) : Prop :=
  Spared registry kept s (a s)

variable {out : Except Stop α × Machine × W × CallNotes}

/-- To spare some threads is to spare any of them. -/
theorem Spared.mono (h : Spared registry kept s out) (hle : ∀ t, kept' t → kept t) :
    Spared registry kept' s out :=
  ⟨h.made, h.links, h.orderly, h.harmless,
    fun hfew hs ha t ht => h.calls hfew hs ha t (hle t ht)⟩

/-- A failure of the first part of a computation is one of the whole. -/
theorem Spared.of_error {e : Stop} (h : Spared registry kept s ((.error e : Except Stop α), s')) :
    Spared registry kept s ((.error e : Except Stop β), s') :=
  ⟨h.made, h.links, h.orderly, fun hfew hs => (h.harmless hfew hs).of_error,
    fun hfew hs ha => h.calls hfew hs (answers_error_iff.mpr (answers_error_iff.mp ha))⟩

/-- A computation whose exception is handed out goes on from the state that it ended in. -/
theorem Spared.handed {e : Throwable}
    (h : Spared registry kept s ((.error (.thrown e) : Except Stop α), s')) (x : β) :
    Spared registry kept s (.ok x, s') :=
  ⟨h.made, h.links, h.orderly, fun _ _ => harmless_ok x,
    fun hfew hs _ => h.calls hfew hs (answers_thrown e)⟩

/-- What follows a result makes no fewer threads, so there were few already before it. -/
theorem Spared.trans {x : β} (h : Spared registry kept s (.ok x, s'))
    (h' : Spared registry kept s' out) : Spared registry kept s out := by
  have hmid : Few out.2 → Few s' := fun hfew => hfew.of_le h'.made
  refine ⟨h.made.trans h'.made, h.links.trans h'.links, ?_, ?_, ?_⟩
  · exact fun hfew hs => h'.orderly hfew (h.orderly (hmid hfew) hs)
  · exact fun hfew hs => h'.harmless hfew (h.orderly (hmid hfew) hs)
  · intro hfew hs hans t ht frames hne hcalls
    have hkept := h.calls (hmid hfew) hs (answers_ok x) t ht frames hne hcalls
    exact h'.calls hfew (h.orderly (hmid hfew) hs) hans t ht frames hne hkept

/-- Ending early changes nothing, so only the fault counts. -/
theorem spared_throw {e : Stop} (h : e ≠ .broken .pendingOverwritten) :
    Spared registry kept s ((.error e : Except Stop α), s) :=
  ⟨Nat.le_refl _, .refl _, fun _ => id, fun _ _ => harmless_error_iff.mpr h,
    fun _ _ _ _ _ _ _ => id⟩

variable {a : Exec (W × CallNotes) α} {f : α → Exec (W × CallNotes) β}

/-- A quiet computation spares all threads. -/
theorem Quiet.spares (h : Quiet s a) : Spares registry kept s a where
  made := by rw [h.world]
  links := h.keeps.keepsLinks
  orderly _ hs := hs.of_keepsCalls h.keeps h.world
  harmless _ _ := h.harmless
  calls _ _ _ t _ frames _ ht := by rw [h.keeps.calls, ht]

theorem spares_pure (x : α) : Spares registry kept s (pure x : Exec (W × CallNotes) α) :=
  (quiet_pure x).spares

/-- What follows is asked for only where the first part did not end early. -/
theorem Spares.bind (ha : Spares registry kept s a)
    (hf : ∀ x s', a s = (.ok x, s') → Spares registry kept s' (f x)) :
    Spares registry kept s (a >>= f) := by
  unfold Spares at ha ⊢
  rw [run_bind]
  rcases has : a s with ⟨e | x, s'⟩
  · rw [has] at ha
    exact ha.of_error
  · rw [has] at ha
    exact ha.trans (hf x s' has)

theorem spares_machine_bind {g : Machine → Exec (W × CallNotes) β}
    (h : Spares registry kept s (g s.1)) : Spares registry kept s (machine >>= g) :=
  h

/-- A step that only reads has to be harmless. -/
theorem spares_lift_bind {r : Except Stop α} (hr : Harmless r)
    (hf : ∀ x, r = .ok x → Spares registry kept s (f x)) :
    Spares registry kept s (liftM r >>= f) := by
  cases r with
  | ok x => exact hf x rfl
  | error e => exact spared_throw (harmless_error_iff.mp hr)

theorem spares_liftThrowable_bind {r : Except Throwable α}
    (hf : ∀ x, r = .ok x → Spares registry kept s (f x)) :
    Spares registry kept s (liftM r >>= f) := by
  cases r with
  | ok x => exact hf x rfl
  | error e => exact spared_throw nofun

theorem Spares.discard (h : Spares registry kept s a) :
    Spares registry kept s (discard a : Exec (W × CallNotes) PUnit) := by
  unfold Spares
  rw [run_discard]
  exact ⟨h.made, h.links, h.orderly, fun hfew hs => (h.harmless hfew hs).map _,
    fun hfew hs ha => h.calls hfew hs (answers_map_iff.mp ha)⟩

/-- What a computation ends with may be looked at. -/
theorem Spares.attempt (h : Spares registry kept s a) :
    Spares registry kept s (Exec.attempt a) := by
  have hstate := state_attempt a s
  refine ⟨hstate ▸ h.made, hstate ▸ h.links, hstate ▸ h.orderly, ?_, ?_⟩
  · rw [hstate]
    exact fun hfew hs => (h.harmless hfew hs).attempt
  · rw [hstate]
    exact fun hfew hs ha => h.calls hfew hs (answers_of_attempt ha)

/-! ### The same run with another engine -/

section Alike

variable {t : ThreadId} {frames : List Frame} {a' : Exec (W × CallNotes) α}
  {f' : α → Exec (W × CallNotes) β}

/-- From a state, the first computation spares some threads.  If `t` is one of them, and its calls are
those given with nothing pending, the second computation runs the same. -/
structure SparesAlike (registry : Registry (W × CallNotes)) (t : ThreadId)
    (frames : List Frame) (kept : ThreadId → Prop) (s : Machine × W × CallNotes)
    (a a' : Exec (W × CallNotes) α) : Prop extends Spared registry kept s (a s) where
  same : kept t → frames ≠ [] → Few (a s).2 → Orderly s → s.1.calls? t = some (frames, none) →
    a' s = a s

/-- A computation that uses no engine is the same beside another one. -/
theorem Spares.alike (h : Spares registry kept s a) : SparesAlike registry t frames kept s a a :=
  ⟨h, fun _ _ _ _ _ => rfl⟩

/-- To spare some threads is to spare any of them. -/
theorem SparesAlike.mono (h : SparesAlike registry t frames kept s a a') (hle : ∀ t, kept' t → kept t) :
    SparesAlike registry t frames kept' s a a' :=
  ⟨h.toSpared.mono hle, fun ht => h.same (hle t ht)⟩

/-- Two computations that agree are followed by two that do. -/
theorem SparesAlike.bind (ha : SparesAlike registry t frames kept s a a')
    (hf : ∀ x s', a s = (.ok x, s') → SparesAlike registry t frames kept s' (f x) (f' x)) :
    SparesAlike registry t frames kept s (a >>= f) (a' >>= f') := by
  refine ⟨Spares.bind ha.toSpared fun x s' hx => (hf x s' hx).toSpared, ?_⟩
  intro ht hne hfew hs hcalls
  rw [run_bind] at hfew
  rw [run_bind, run_bind]
  rcases has : a s with ⟨e | x, s'⟩
  · rw [has] at hfew
    have hsame := ha.same ht hne (by rw [has]; exact hfew) hs hcalls
    rw [hsame, has]
  · rw [has] at hfew
    have hx := hf x s' has
    have hmid : Few (a s).2 := by
      rw [has]
      exact hfew.of_le hx.made
    have horderly := ha.orderly hmid hs
    have hkept := ha.calls hmid hs (by rw [has]; exact answers_ok x) t ht frames hne hcalls
    rw [has] at horderly hkept
    rw [ha.same ht hne hmid hs hcalls, has]
    exact hx.same ht hne hfew horderly hkept

/-- A run that first takes a step, after which threads with calls under way are spared. -/
theorem SparesAlike.of_step (kept' : ThreadId → Prop) {b b' : Exec (W × CallNotes) α}
    (hrun : a s = b s')
    (hrun' : a' s = b' s') (hmade : s.2.2.made ≤ s'.2.2.made)
    (hlinks : s.1.KeepsLinks registry s'.1) (horderly : Few s' → Orderly s → Orderly s')
    (hcalls : Few s' → Orderly s → ∀ t, kept t → ∀ frames, s.1.calls? t = some (frames, none) →
      kept' t ∧ s'.1.calls? t = some (frames, none))
    (hb : SparesAlike registry t frames kept' s' b b') :
    SparesAlike registry t frames kept s a a' := by
  have hmid : Few (b s').2 → Few s' := fun hfew => hfew.of_le hb.made
  refine ⟨⟨hrun ▸ hmade.trans hb.made, hrun ▸ hlinks.trans hb.links, ?_, ?_, ?_⟩, ?_⟩
  all_goals rw [hrun]
  · exact fun hfew hs => hb.orderly hfew (horderly (hmid hfew) hs)
  · exact fun hfew hs => hb.harmless hfew (horderly (hmid hfew) hs)
  · intro hfew hs hans u hu fs hne hfs
    obtain ⟨hkept, hstill⟩ := hcalls (hmid hfew) hs u hu fs hfs
    exact hb.calls hfew (horderly (hmid hfew) hs) hans u hkept fs hne hstill
  · intro ht hne hfew hs hg
    obtain ⟨hkept, hstill⟩ := hcalls (hmid hfew) hs t ht frames hg
    rw [hrun']
    exact hb.same hkept hne hfew (horderly (hmid hfew) hs) hstill

/-- Both look at the same machine. -/
theorem alike_machine_bind {k k' : Machine → Exec (W × CallNotes) β}
    (h : SparesAlike registry t frames kept s (k s.1) (k' s.1)) :
    SparesAlike registry t frames kept s (machine >>= k) (machine >>= k') :=
  ⟨spares_machine_bind h.toSpared, h.same⟩

/-- Both read the same. -/
theorem alike_lift_bind {r : Except Stop α} (hr : Harmless r)
    (hf : ∀ x, r = .ok x → SparesAlike registry t frames kept s (f x) (f' x)) :
    SparesAlike registry t frames kept s (liftM r >>= f) (liftM r >>= f') := by
  refine ⟨spares_lift_bind hr fun x hx => (hf x hx).toSpared, ?_⟩
  cases r with
  | ok x => exact (hf x rfl).same
  | error e => exact fun _ _ _ _ _ => rfl

theorem alike_liftThrowable_bind {r : Except Throwable α}
    (hf : ∀ x, r = .ok x → SparesAlike registry t frames kept s (f x) (f' x)) :
    SparesAlike registry t frames kept s (liftM r >>= f) (liftM r >>= f') := by
  refine ⟨spares_liftThrowable_bind fun x hx => (hf x hx).toSpared, ?_⟩
  cases r with
  | ok x => exact (hf x rfl).same
  | error e => exact fun _ _ _ _ _ => rfl

theorem SparesAlike.discard (h : SparesAlike registry t frames kept s a a') :
    SparesAlike registry t frames kept s (discard a : Exec (W × CallNotes) PUnit) (discard a') := by
  refine ⟨Spares.discard h.toSpared, fun ht hne hfew hs hcalls => ?_⟩
  rw [run_discard] at hfew ⊢
  rw [run_discard, h.same ht hne hfew hs hcalls]

/-- What the computations end with may be looked at. -/
theorem SparesAlike.attempt (h : SparesAlike registry t frames kept s a a') :
    SparesAlike registry t frames kept s (Exec.attempt a) (Exec.attempt a') := by
  refine ⟨Spares.attempt h.toSpared, fun ht hne hfew hs hcalls => ?_⟩
  rw [state_attempt] at hfew
  unfold Exec.attempt
  rw [h.same ht hne hfew hs hcalls]

end Alike

end Exec

/-! ## Engines -/

/-- The platform with another engine. -/
def Platform.withEngine {V : Type} (p : Platform V)
    (invoke : ThreadId → Method → Option ObjectRef → List Value → Exec V Value) : Platform V :=
  { p with invoke }

/-- Another engine does the same as that of a platform, wherever the calls of a thread are those given
and nothing is pending on it. -/
def Platform.AgreesUnder {V : Type} (p : Platform V) (t : ThreadId) (frames : List Frame)
    (invoke : ThreadId → Method → Option ObjectRef → List Value → Exec V Value) : Prop :=
  ∀ u x receiver args s, s.1.calls? t = some (frames, none) →
    invoke u x receiver args s = p.invoke u x receiver args s

/-- Every native method of a registry calls out or is quiet. -/
def Registry.CallsOrQuiet {V : Type} (registry : Registry V) : Prop :=
  ∀ symbol native, registry.get? symbol = some native → native.CallsOut ∨ native.Quiet

/-- A platform whose engine spares all threads, whose host notes each thread that was made, and which
loads no libraries. -/
structure Platform.Sparing (registry : Registry (W × CallNotes)) (p : Platform (W × CallNotes)) :
    Prop where
  invoke : ∀ u x receiver args s,
    Exec.Spares registry (fun _ => True) s (p.invoke u x receiver args)
  start : ∀ request w n, ∃ verdict w', p.start request (w, n) = (verdict, w', n.addThread)
  loader : p.loader = none

section Engines

variable {registry : Registry (W × CallNotes)} {p : Platform (W × CallNotes)} {t : ThreadId}
  {frames : List Frame}
  {invoke : ThreadId → Method → Option ObjectRef → List Value → Exec (W × CallNotes) Value}

open Exec

/-- The engine itself spares all threads, and so does another one that agrees with it. -/
theorem Platform.Sparing.alike_invoke (hp : p.Sparing registry)
    (hagree : p.AgreesUnder t frames invoke) (u : ThreadId) (x : Method)
    (receiver : Option ObjectRef) (args : List Value) :
    SparesAlike registry t frames (fun _ => True) s (p.invoke u x receiver args)
      ((p.withEngine invoke).invoke u x receiver args) :=
  ⟨hp.invoke u x receiver args s, fun _ _ _ _ hcalls => hagree u x receiver args s hcalls⟩

/-- An initializer is a call of the engine. -/
theorem Platform.Sparing.alike_runInitializer (hp : p.Sparing registry)
    (hagree : p.AgreesUnder t frames invoke) (u : ThreadId) (classes : ClassTable) (c : ClassId) :
    SparesAlike registry t frames (fun _ => True) s (runInitializer p u classes c)
      (runInitializer (p.withEngine invoke) u classes c) := by
  unfold runInitializer
  split
  · next x _ => exact (hp.alike_invoke hagree u x none []).discard
  · exact (spares_pure _).alike

/-- Initializing a class runs its initializers one after another, up the chain of its
superclasses. -/
theorem Platform.Sparing.alike_initializeClass (hp : p.Sparing registry)
    (hagree : p.AgreesUnder t frames invoke) (u : ThreadId) (c : ClassId) :
    SparesAlike registry t frames (fun _ => True) s (initializeClass p u c)
      (initializeClass (p.withEngine invoke) u c) := by
  generalize hn : c.index = n
  induction n using Nat.strongRecOn generalizing c s with
  | ind n ih =>
    rw [initializeClass, initializeClass]
    refine alike_machine_bind (alike_lift_bind (harmless_getClass ..) fun cls hcls => ?_)
    have hx : s.1.classes.initializer? c = cls.method? initializerName "()V" := by
      unfold ClassTable.initializer?
      rw [ClassTable.get_eq_ok_iff.mp hcls, Option.bind_some]
    have hown := fun s' : Machine × W × CallNotes =>
      hp.alike_runInitializer (s := s') hagree u s.1.classes c
    unfold runInitializer at hown
    rw [hx] at hown
    split
    · refine SparesAlike.bind (Spares.alike (Quiet.spares ?_)) fun _ s₁ _ => ?_
      · exact quiet_modifyMachine (.of_classes (ClassTable.extends_update fun _ => rfl))
      dsimp only
      split
      · next sup _ =>
        exact (ih sup.1.index (hn ▸ sup.2) sup.1 rfl).bind fun _ s₂ _ => hown s₂
      · exact hown s₁
    · exact (spares_pure _).alike

/-- An exception of the engine is wrapped after the engine has come back. -/
theorem Platform.Sparing.alike_invokeWrapped (hp : p.Sparing registry)
    (hagree : p.AgreesUnder t frames invoke) (u : ThreadId) (x : Method)
    (receiver : Option ObjectRef) (args : List Value) :
    SparesAlike registry t frames (fun _ => True) s (invokeWrapped p u x receiver args)
      (invokeWrapped (p.withEngine invoke) u x receiver args) := by
  refine (hp.alike_invoke hagree u x receiver args).attempt.bind fun r s₁ _ => ?_
  cases r with
  | ok v => exact (spares_pure v).alike
  | error e => exact Spares.alike (quiet_raise _).spares

/-- A reflective call checks its arguments, initializes the class, and then calls the engine. -/
theorem Platform.Sparing.alike_invokeMethod (hp : p.Sparing registry)
    (hagree : p.AgreesUnder t frames invoke) (u : ThreadId) (x : Method)
    (target arguments : Option ObjectRef) :
    SparesAlike registry t frames (fun _ => True) s (invokeMethod p u x target arguments)
      (invokeMethod (p.withEngine invoke) u x target arguments) := by
  have hrest : ∀ (s : Machine × W × CallNotes) receiver args,
      SparesAlike registry t frames (fun _ => True) s
        (invokeWrapped p u x receiver args >>= boxedResult x)
        (invokeWrapped (p.withEngine invoke) u x receiver args >>= boxedResult x) := by
    intro s receiver args
    refine (hp.alike_invokeWrapped hagree u x receiver args).bind fun v s₁ _ => ?_
    unfold boxedResult
    split
    · exact Spares.alike (quiet_onMachine (Action.quiet_box v)).spares
    · exact (spares_pure _).alike
  refine alike_machine_bind (alike_lift_bind (harmless_nonNull arguments) fun array _ => ?_)
  refine alike_lift_bind (harmless_callReceiver ..) fun receiver _ => ?_
  refine alike_lift_bind (harmless_callArguments ..) fun args _ => ?_
  dsimp only
  split
  · exact (hp.alike_initializeClass hagree u x.owner).bind fun _ s₁ _ => hrest s₁ receiver args
  · exact hrest s receiver args

/-! ### Starting threads -/

/-- The body of a thread is a call of the engine. -/
theorem Platform.Sparing.alike_runThread (hp : p.Sparing registry)
    (hagree : p.AgreesUnder t frames invoke) (u : ThreadId) :
    SparesAlike registry t frames (fun _ => True) s (runThread p u)
      (runThread (p.withEngine invoke) u) := by
  refine alike_machine_bind (alike_lift_bind (harmless_thread ..) fun x _ => ?_)
  split
  · exact (spares_pure _).alike
  · refine alike_lift_bind (harmless_classOf ..) fun c _ => ?_
    split
    · exact (spares_pure _).alike
    · next y _ => exact (hp.alike_invoke hagree u y _ []).discard

/-- The context of a thread is dropped, which spares all other threads. -/
theorem spares_detach (u : ThreadId) :
    Spares registry (· ≠ u) s (Exec.onMachine (Action.detach u)) := by
  show Spared registry _ s ((Action.detach u s.1).1, (Action.detach u s.1).2, s.2)
  rw [Action.run_detach]
  cases s.1.threads.contexts.get? u with
  | none => exact spared_throw nofun
  | some x =>
    refine ⟨Nat.le_refl _, .of_eq rfl rfl, ?_, fun _ _ => harmless_ok _, ?_⟩
    · refine fun _ hs => ⟨hs.next, fun v hv => hs.numbered v ?_, hs.reports⟩
      rw [Machine.calls?_forget] at hv
      split at hv
      · cases hv
      · exact hv
    · intro _ _ _ v hv fs _ hcalls
      rw [Machine.calls?_forget, if_neg hv]
      exact hcalls

/-- A thread that ends is not spared itself. -/
theorem Platform.Sparing.alike_finishThread (hp : p.Sparing registry)
    (hagree : p.AgreesUnder t frames invoke) (u : ThreadId) :
    SparesAlike registry t frames (· ≠ u) s (finishThread p u)
      (finishThread (p.withEngine invoke) u) := by
  refine SparesAlike.bind ?_ fun _ s₁ _ => (spares_detach u).discard.alike
  exact (hp.alike_runThread hagree u).attempt.discard.mono fun _ _ => trivial

/-- The state after a thread was made, and noted. -/
def afterMaking (s : Machine × W × CallNotes) (peer : Option ObjectRef) (w : W) :
    Machine × W × CallNotes :=
  ({ s.1 with threads := (s.1.threads.attach peer).1 }, w, s.2.2.addThread)

/-- A thread is made under the next number. -/
theorem Orderly.afterMaking (hs : Orderly s) {peer : Option ObjectRef} {w : W}
    (hfew : Few (afterMaking s peer w)) : Orderly (afterMaking s peer w) where
  next := by
    have hnext := hs.next
    have hlt : s.2.2.made + 1 + 1 < 2 ^ 64 := hfew
    show (s.1.threads.next + 1).toNat = s.2.2.made + 1 + 1
    rw [UInt64.toNat_add, hnext]
    show (s.2.2.made + 1 + 1) % 2 ^ 64 = _
    omega
  numbered u hu := by
    have hcalls := s.1.calls?_attach peer u
    show u.raw.toNat ≤ s.2.2.made + 1
    by_cases hnew : u = ThreadId.ofNumber s.1.threads.next
    · rw [hnew, hs.raw_next]
    · rw [if_neg hnew] at hcalls
      have hold := hs.numbered u (hcalls ▸ hu)
      omega
  reports := hs.reports

/-- What a start does once the host has answered about the new thread. -/
def answered (p : Platform (W × CallNotes)) (u : ThreadId) :
    StartVerdict → Exec (W × CallNotes) (Option ThreadId)
  | .refused => discard (Exec.onMachine (Action.detach u)) >>= fun _ => pure none
  | .inline => finishThread p u >>= fun _ => pure (some u)
  | .deferred => pure (some u)

/-- A host gives a verdict on a thread that was made, which does not depend on the engine. -/
theorem run_startThread (hstart : ∀ request w n, ∃ verdict w',
    p.start request (w, n) = (verdict, w', n.addThread)) (peer : ObjectRef) :
    ∃ verdict w, ∀ q : Platform (W × CallNotes), q.start = p.start → q.config = p.config →
      startThread q peer s =
        answered q (.ofNumber s.1.threads.next) verdict (afterMaking s (some peer) w) := by
  obtain ⟨m, w, n⟩ := s
  obtain ⟨verdict, w', hverdict⟩ := hstart (p.startRequest (.ofNumber m.threads.next)) w n
  refine ⟨verdict, w', fun q hq hconfig => ?_⟩
  have hask : ∀ m₁ : Machine, askHost q (q.startRequest (.ofNumber m.threads.next)) (m₁, w, n) =
      (.ok verdict, m₁, w', n.addThread) := by
    intro m₁
    have hrequest : q.startRequest (.ofNumber m.threads.next) =
        p.startRequest (.ofNumber m.threads.next) := by
      unfold Platform.startRequest
      rw [hconfig]
    show (Except.ok (q.start _ (w, n)).1, m₁, (q.start _ (w, n)).2) = _
    rw [hrequest, hq, hverdict]
  unfold startThread
  rw [run_bind]
  show (askHost q (q.startRequest (.ofNumber m.threads.next)) >>= _ : Exec (W × CallNotes) _)
    ({ m with threads := (m.threads.attach (some peer)).1 }, w, n) = _
  rw [run_bind, hask]
  cases verdict <;> rfl

/-- A thread that is started inside a call is made, and gone at the end, when it has run at once. -/
theorem Platform.Sparing.alike_startThread (hp : p.Sparing registry)
    (hagree : p.AgreesUnder t frames invoke) (peer : ObjectRef) :
    SparesAlike registry t frames (fun _ => True) s (startThread p peer)
      (startThread (p.withEngine invoke) peer) := by
  obtain ⟨verdict, w, hrun⟩ := run_startThread (s := s) hp.start peer
  refine SparesAlike.of_step (· ≠ .ofNumber s.1.threads.next) (hrun p rfl rfl)
    (hrun (p.withEngine invoke) rfl rfl) (Nat.le_succ _) (.of_eq rfl rfl)
    (fun hfew hs => hs.afterMaking hfew) ?_ ?_
  · -- No call is under way on the new thread, nor was one before it was made.
    intro _ hs u _ fs hcalls
    have hne : u ≠ .ofNumber s.1.threads.next := by
      rintro rfl
      rw [hs.calls?_next] at hcalls
      cases hcalls
    refine ⟨hne, ?_⟩
    show { s.1 with threads := (s.1.threads.attach (some peer)).1 }.calls? u = _
    rw [Machine.calls?_attach, if_neg hne, hcalls]
  · cases verdict with
    | refused => exact (spares_detach _).discard.alike.bind fun _ _ _ => (spares_pure _).alike
    | inline => exact (hp.alike_finishThread hagree _).bind fun _ _ _ => (spares_pure _).alike
    | deferred => exact (spares_pure _).alike

/-! ### Native methods -/

/-- Without a loader, loading a library only fails. -/
theorem Platform.Sparing.alike_loadLibrary (hp : p.Sparing registry) (name : String) :
    SparesAlike registry t frames (fun _ => True) s (p.loadLibrary name)
      ((p.withEngine invoke).loadLibrary name) := by
  have hquiet : Quiet s (p.loadLibrary name) := by
    unfold Platform.loadLibrary
    rw [hp.loader]
    exact ⟨.refl _, rfl, harmless_ok _⟩
  exact hquiet.spares.alike

/-- A native method that calls out, or is quiet, spares all threads; and with another engine that does
the same under some calls it runs the same under these. -/
theorem Platform.Sparing.alike_native (hp : p.Sparing registry)
    (hagree : p.AgreesUnder t frames invoke) {native : Native (W × CallNotes)}
    (hnative : native.CallsOut ∨ native.Quiet) (u : ThreadId) (args : Arguments) :
    SparesAlike registry t frames (fun _ => True) s (native p u args)
      (native (p.withEngine invoke) u args) := by
  rcases hnative with hcalls | hquiet
  · cases hcalls with
    | classInitialize =>
      refine alike_liftThrowable_bind fun r _ => alike_machine_bind ?_
      refine alike_lift_bind (harmless_reflectedClass ..) fun c _ => ?_
      exact (hp.alike_initializeClass hagree u c).bind fun _ _ _ => (spares_pure _).alike
    | threadStart =>
      refine alike_liftThrowable_bind fun peer _ => ?_
      refine (hp.alike_startThread hagree peer).bind fun started s₁ _ => ?_
      cases started <;> exact (spares_pure _).alike
    | methodInvoke =>
      refine alike_liftThrowable_bind fun r _ => alike_machine_bind ?_
      refine alike_lift_bind (harmless_reflectedMethod ..) fun x _ => ?_
      refine alike_liftThrowable_bind fun target _ => alike_liftThrowable_bind fun arguments _ => ?_
      exact hp.alike_invokeMethod hagree u x target arguments
    | loadLibrary =>
      refine alike_liftThrowable_bind fun r _ => alike_machine_bind ?_
      refine alike_lift_bind (harmless_stringValue ..) fun name _ => ?_
      refine (hp.alike_loadLibrary name).bind fun outcome s₁ _ => ?_
      split
      · exact (spares_pure _).alike
      · exact Spares.alike (quiet_raise _).spares
  · rw [show native (p.withEngine invoke) u args = native p u args from hquiet.engineless ..]
    exact (hquiet.run p u args s).spares.alike

/-! ### On the platform itself -/

/-- Which calls of which thread another engine would be compared under does not matter here. -/
theorem Platform.agreesUnder_self (p : Platform (W × CallNotes)) (t : ThreadId)
    (frames : List Frame) : p.AgreesUnder t frames p.invoke :=
  fun _ _ _ _ _ _ => rfl

/-- Initializing a class spares all threads. -/
theorem Platform.Sparing.spares_initializeClass (hp : p.Sparing registry) (u : ThreadId)
    (c : ClassId) : Spares registry (fun _ => True) s (initializeClass p u c) :=
  (hp.alike_initializeClass (p.agreesUnder_self u []) u c).toSpared

/-- A reflective call spares all threads. -/
theorem Platform.Sparing.spares_invokeMethod (hp : p.Sparing registry) (u : ThreadId) (x : Method)
    (target arguments : Option ObjectRef) :
    Spares registry (fun _ => True) s (invokeMethod p u x target arguments) :=
  (hp.alike_invokeMethod (p.agreesUnder_self u []) u x target arguments).toSpared

/-- A thread that ends spares all others. -/
theorem Platform.Sparing.spares_finishThread (hp : p.Sparing registry) (u : ThreadId) :
    Spares registry (· ≠ u) s (finishThread p u) :=
  (hp.alike_finishThread (p.agreesUnder_self u []) u).toSpared

/-- Native methods that call out spare all threads, and the others are quiet. -/
theorem Platform.Sparing.spares_native (hp : p.Sparing registry) {native : Native (W × CallNotes)}
    (hnative : native.CallsOut ∨ native.Quiet) (u : ThreadId) (args : Arguments) :
    Spares registry (fun _ => True) s (native p u args) :=
  (hp.alike_native (p.agreesUnder_self u []) hnative u args).toSpared

end Engines

end Runs

end JavaMachine
