/-
# Where a trace starts

The trace of an exception is meant to start at the call that created it.  When it is captured in the
class of all exceptions, the constructors of the exception and of its superclasses are under way on
top of that call; they are the run of constructors at the front that belong to this class or to
classes below it (`StartsAtCreation`).  The run that is skipped goes on through constructors of any
class.  It is therefore the right one exactly if the exception was not created in a constructor, and
otherwise the constructors that led to it are lost from the trace as well
(`captureTrace_starts_at_creation_iff`).
-/
import JavaMachine.Native.Calls
import Mathlib.Data.List.TakeWhile

namespace JavaMachine

/-! ## Constructors of exceptions -/

/-- A call of a constructor. -/
def Frame.IsConstructor (f : Frame) : Prop := f.method.name = constructorName

/-- A call of a constructor of the class of all exceptions, or of a class below it. -/
def Frame.IsExceptionConstructor (t : ClassTable) (f : Frame) : Prop :=
  f.IsConstructor ∧ t.isSubclass f.method.owner .throwable = true

instance (f : Frame) : Decidable f.IsConstructor :=
  inferInstanceAs (Decidable (f.method.name = constructorName))

instance (t : ClassTable) (f : Frame) : Decidable (f.IsExceptionConstructor t) :=
  inferInstanceAs (Decidable (f.IsConstructor ∧ t.isSubclass f.method.owner .throwable = true))

/-- The innermost call is one of the class of all exceptions. -/
def BeginsInThrowable (frames : List Frame) : Prop :=
  ∃ f ∈ frames.head?, f.method.owner = .throwable

/-- What a trace has to leave out: when the innermost call is one of the class of all exceptions, the
longest run of constructors of exceptions in front; nothing otherwise. -/
inductive StartsAtCreation (t : ClassTable) : List Frame → List Frame → Prop
  | elsewhere {frames : List Frame} (hfront : ¬ BeginsInThrowable frames) :
      StartsAtCreation t frames frames
  | constructors {run rest : List Frame} (hfront : BeginsInThrowable (run ++ rest))
      (hrun : ∀ f ∈ run, f.IsExceptionConstructor t)
      (hlongest : ∀ f ∈ rest.head?, ¬ f.IsExceptionConstructor t) :
      StartsAtCreation t (run ++ rest) rest

/-- What is left of a list without the items in front that are of a kind. -/
theorem dropWhile_eq_iff {α : Type} {P : α → Prop} [DecidablePred P] {l rest : List α} :
    l.dropWhile (fun x => P x) = rest ↔
      ∃ run, l = run ++ rest ∧ (∀ x ∈ run, P x) ∧ ∀ x ∈ rest.head?, ¬ P x := by
  constructor
  · rintro rfl
    refine ⟨_, List.takeWhile_append_dropWhile.symm, ?_, ?_⟩
    · intro x hx
      simpa using List.mem_takeWhile_imp hx
    · intro x hx
      have hnot := List.head?_dropWhile_not (fun x => decide (P x)) l
      rw [Option.mem_def.mp hx] at hnot
      simpa using hnot
  · rintro ⟨run, rfl, hrun, hrest⟩
    rw [List.dropWhile_append_of_pos (by simpa using hrun)]
    cases rest with
    | nil => rfl
    | cons x rest => simp [hrest x rfl]

/-- The calls without the constructors of exceptions in front, where these are to be left out. -/
def creationTrace (t : ClassTable) (frames : List Frame) : List Frame :=
  match frames with
  | [] => []
  | f :: _ =>
    if f.method.owner = .throwable then
      frames.dropWhile fun f => f.IsExceptionConstructor t
    else frames

/-- Where the front frame is in the root of exceptions, the constructors of exceptions in front are
skipped. -/
theorem creationTrace_of_front {t : ClassTable} {frames : List Frame}
    (h : BeginsInThrowable frames) :
    creationTrace t frames = frames.dropWhile fun f => f.IsExceptionConstructor t := by
  cases frames with
  | nil => rfl
  | cons f frames =>
    obtain ⟨_, ⟨⟩, howner⟩ := h
    exact if_pos howner

/-- Any other frames are all of the trace. -/
theorem creationTrace_of_not_front {t : ClassTable} {frames : List Frame}
    (h : ¬ BeginsInThrowable frames) : creationTrace t frames = frames := by
  cases frames with
  | nil => rfl
  | cons f frames => exact if_neg fun howner => h ⟨f, rfl, howner⟩

/-- There is one trace that leaves out what has to be left out. -/
theorem startsAtCreation_iff {t : ClassTable} {frames trace : List Frame} :
    StartsAtCreation t frames trace ↔ trace = creationTrace t frames := by
  constructor
  · intro h
    cases h with
    | elsewhere hfront => rw [creationTrace_of_not_front hfront]
    | constructors hfront hrun hlongest =>
      rw [creationTrace_of_front hfront]
      exact (dropWhile_eq_iff.mpr ⟨_, rfl, hrun, hlongest⟩).symm
  · intro htrace
    by_cases hfront : BeginsInThrowable frames
    · rw [creationTrace_of_front hfront, eq_comm] at htrace
      obtain ⟨run, rfl, hrun, hlongest⟩ := dropWhile_eq_iff.mp htrace
      exact .constructors hfront hrun hlongest
    · rw [htrace, creationTrace_of_not_front hfront]
      exact .elsewhere hfront

/-! ## The run that is skipped -/

/-- What is skipped beyond the constructors of exceptions are the constructors behind these. -/
theorem skipConstructors_eq (t : ClassTable) {frames : List Frame}
    (h : BeginsInThrowable frames) :
    skipConstructors frames = (creationTrace t frames).dropWhile fun f => f.IsConstructor := by
  have hskip : skipConstructors frames = frames.dropWhile fun f => f.IsConstructor := by
    cases frames with
    | nil => rfl
    | cons f frames =>
      obtain ⟨_, ⟨⟩, howner⟩ := h
      exact if_pos howner
  obtain ⟨run, hsplit, hrun, -⟩ := dropWhile_eq_iff.mp (creationTrace_of_front (t := t) h).symm
  obtain ⟨more, hrest, hmore, hfirst⟩ :=
    (dropWhile_eq_iff (P := Frame.IsConstructor) (l := creationTrace t frames)).mp rfl
  rw [hskip]
  refine dropWhile_eq_iff.mpr ⟨run ++ more, ?_, ?_, hfirst⟩
  · rw [List.append_assoc, ← hrest]
    exact hsplit
  · intro f hf
    rcases List.mem_append.mp hf with hf | hf
    · exact (hrun f hf).1
    · exact hmore f hf

/-- Where no constructor is in front, skipping them and starting at the creation are the same. -/
theorem skipConstructors_of_not_front (t : ClassTable) {frames : List Frame}
    (h : ¬ BeginsInThrowable frames) : skipConstructors frames = creationTrace t frames := by
  rw [creationTrace_of_not_front h]
  cases frames with
  | nil => rfl
  | cons f frames => exact if_neg fun howner => h ⟨f, rfl, howner⟩

/-- **Where a trace starts.**  With no more calls than are to be skipped the trace is empty.  Otherwise
there is one trace of the remaining calls that starts at the call which created the exception.  The
trace that is captured lacks a run of constructors of it, up to the first call that is none, where the
innermost call is one of the class of all exceptions; and lacks nothing elsewhere.  So it is that
trace exactly if the exception was not created in a constructor. -/
theorem captureTrace_starts_at_creation_iff (t : ClassTable) (x : Thread) (skip : Nat) :
    (x.frames.length < skip + 1 → captureTrace x skip = []) ∧
    ∃ trace, (∀ trace', StartsAtCreation t (x.frames.drop skip) trace' ↔ trace' = trace) ∧
      (captureTrace x skip = trace ↔
        (BeginsInThrowable (x.frames.drop skip) → ∀ f ∈ trace.head?, ¬ f.IsConstructor)) ∧
      ∃ lost, trace = lost ++ captureTrace x skip ∧ (∀ f ∈ lost, f.IsConstructor) ∧
        (lost ≠ [] → BeginsInThrowable (x.frames.drop skip)) ∧
        (BeginsInThrowable (x.frames.drop skip) →
          ∀ f ∈ (captureTrace x skip).head?, ¬ f.IsConstructor) := by
  constructor
  · intro hfew
    rw [captureTrace, List.drop_eq_nil_of_le (Nat.le_of_lt_succ hfew)]
    rfl
  refine ⟨creationTrace t (x.frames.drop skip), fun _ => startsAtCreation_iff, ?_⟩
  unfold captureTrace
  by_cases hfront : BeginsInThrowable (x.frames.drop skip)
  · rw [skipConstructors_eq t hfront]
    obtain ⟨lost, hsplit, hlost, hfirst⟩ :=
      (dropWhile_eq_iff (P := Frame.IsConstructor)).mp rfl
    refine ⟨⟨?_, ?_⟩, lost, hsplit, hlost, fun _ => hfront, fun _ => hfirst⟩
    · intro hsame _
      rw [hsame] at hfirst
      exact hfirst
    · intro hcreator
      exact dropWhile_eq_iff.mpr ⟨[], rfl, by simp, hcreator hfront⟩
  · rw [skipConstructors_of_not_front t hfront]
    refine ⟨⟨fun _ h => absurd h hfront, fun _ => rfl⟩, [], rfl, by simp, by simp, ?_⟩
    exact fun h => absurd h hfront

/-- The table of a new machine with an ordinary class `A` and an exception class `E`. -/
def creatorTable : ClassTable :=
  (ClassTable.bootstrap.push (ordinaryClass "A" (some .object))).push
    (ordinaryClass "E" (some .throwable))

/-- A call of a method without parameters and result. -/
def callOf (owner : ClassId) (name : String) (ip : Nat) : Frame :=
  { method := { owner, name, descriptor := "()V", flags := publicFlag, params := [],
                result := none }
    ip }

/-- A thread in which the constructor of `A`, called by a method of `A`, creates an exception `E`. -/
def creatorThread : Thread :=
  { peer := none
    frames := [callOf .throwable constructorName 1, callOf ⟨27⟩ constructorName 4,
      callOf ⟨26⟩ constructorName 9, callOf ⟨26⟩ "main" 2] }

theorem startsAtCreation_creatorThread :
    StartsAtCreation creatorTable (creatorThread.frames.drop 0)
      [callOf ⟨26⟩ constructorName 9, callOf ⟨26⟩ "main" 2] := by
  have hrun : ∀ f ∈ creatorThread.frames.take 2, f.IsExceptionConstructor creatorTable := by
    decide +kernel
  exact .constructors ⟨_, rfl, rfl⟩ hrun (by decide +kernel)

/-- The constructor that created the exception is lost from the trace. -/
theorem creating_constructor_lost :
    StartsAtCreation creatorTable (creatorThread.frames.drop 0)
        [callOf ⟨26⟩ constructorName 9, callOf ⟨26⟩ "main" 2] ∧
      captureTrace creatorThread 0 = [callOf ⟨26⟩ "main" 2] :=
  ⟨startsAtCreation_creatorThread, by decide +kernel⟩

/-- It is a constructor that the captured trace lacks; and with four calls to skip nothing is left. -/
theorem captureTrace_starts_at_creation_creatorThread :
    captureTrace creatorThread 4 = [] ∧
      captureTrace creatorThread 0 ≠ [callOf ⟨26⟩ constructorName 9, callOf ⟨26⟩ "main" 2] := by
  constructor
  · exact (captureTrace_starts_at_creation_iff creatorTable creatorThread 4).1 (by decide)
  · obtain ⟨trace, hunique, hiff, -⟩ :=
      (captureTrace_starts_at_creation_iff creatorTable creatorThread 0).2
    obtain rfl := (hunique _).mp startsAtCreation_creatorThread
    intro hsame
    have hfront : BeginsInThrowable (creatorThread.frames.drop 0) := ⟨_, rfl, rfl⟩
    exact hiff.mp hsame hfront _ rfl rfl

end JavaMachine
