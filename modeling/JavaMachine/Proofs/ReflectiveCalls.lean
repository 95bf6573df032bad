/-
# What a reflective call does

A reflective call either hands its method to the engine, or refuses the call before anything runs.
What it has to be given to be ready is `Machine.CallReady`, said in terms of objects: a receiver of
the declaring class unless the method is static, and an array of references with one convertible
element for each parameter.  `Machine.CallRefused` lists the refusals, each with what came before it
in order, so that it also says which check comes first.

The engine is recorded (`Platform.recording`), which makes what it is called with part of the state:
a call that is ready adds one entry, after what initializing the class of a static method added, and a
call that is refused leaves everything as it was (`invokeMethod_outcome`).  What the caller is given for
the end of the method is `CallAnswer`: a new exception around the one that was raised, or the value, in
a box of its own if it is primitive.
-/
import JavaMachine.Proofs.ArraySafety
import JavaMachine.Proofs.Conversions
import JavaMachine.Proofs.EngineRuns
import JavaMachine.Proofs.HeapAccounts

namespace JavaMachine

/-! ## Mapping a fallible step over a list -/

section MapM

variable {ε α β : Type} {f : α → Except ε β} {l : List α} {e : ε}

theorem mapM_cons_eq (a : α) (l : List α) :
    (a :: l).mapM f = f a >>= fun b => l.mapM f >>= fun bs => .ok (b :: bs) := by
  rw [List.mapM_cons]
  rfl

/-- A list of results has one result for each item. -/
theorem mapM_eq_ok_iff {bs : List β} :
    l.mapM f = .ok bs ↔ List.Forall₂ (fun a b => f a = .ok b) l bs := by
  induction l generalizing bs with
  | nil =>
    rw [List.mapM_nil, List.forall₂_nil_left_iff]
    exact ⟨fun h => (Except.ok.inj h).symm, fun h => congrArg _ h.symm⟩
  | cons a l ih =>
    rw [mapM_cons_eq, bind_eq_ok, List.forall₂_cons_left_iff]
    constructor
    · rintro ⟨b, hb, h⟩
      obtain ⟨bs', hbs, h⟩ := bind_eq_ok.mp h
      exact ⟨b, bs', hb, ih.mp hbs, (Except.ok.inj h).symm⟩
    · rintro ⟨b, bs', hb, hbs, rfl⟩
      exact ⟨b, hb, bind_eq_ok.mpr ⟨bs', ih.mpr hbs, rfl⟩⟩

/-- A failure is that of the first item that fails. -/
theorem mapM_eq_error_iff :
    l.mapM f = .error e ↔ ∃ before a after, l = before ++ a :: after ∧
      (∀ x ∈ before, ∃ b, f x = .ok b) ∧ f a = .error e := by
  induction l with
  | nil =>
    rw [List.mapM_nil]
    constructor
    · intro h
      cases h
    · rintro ⟨before, a, after, h, _⟩
      cases before <;> cases h
  | cons x l ih =>
    rw [mapM_cons_eq]
    cases hx : f x with
    | error e' =>
      show Except.error e' = .error e ↔ _
      constructor
      · intro h
        exact ⟨[], x, l, rfl, fun _ h => absurd h List.not_mem_nil, hx.trans (congrArg _ (Except.error.inj h))⟩
      · rintro ⟨before, a, after, hl, hbefore, ha⟩
        cases before with
        | nil =>
          cases hl
          exact congrArg _ (Except.error.inj (hx.symm.trans ha))
        | cons y before =>
          cases hl
          obtain ⟨b, hb⟩ := hbefore x List.mem_cons_self
          rw [hx] at hb
          cases hb
    | ok y =>
      have hrest : (l.mapM f >>= fun bs => .ok (y :: bs)) = .error e ↔ l.mapM f = .error e := by
        cases l.mapM f with
        | error e' => exact ⟨fun h => h, fun h => h⟩
        | ok bs => exact ⟨fun h => (nomatch h), fun h => (nomatch h)⟩
      show (l.mapM f >>= fun bs => .ok (y :: bs)) = .error e ↔ _
      rw [hrest, ih]
      constructor
      · rintro ⟨before, a, after, rfl, hbefore, ha⟩
        exact ⟨x :: before, a, after, rfl, List.forall_mem_cons.mpr ⟨⟨y, hx⟩, hbefore⟩, ha⟩
      · rintro ⟨before, a, after, hl, hbefore, ha⟩
        cases before with
        | nil =>
          cases hl
          rw [hx] at ha
          cases ha
        | cons z before =>
          cases hl
          exact ⟨before, a, after, rfl, (List.forall_mem_cons.mp hbefore).2, ha⟩

end MapM

/-! ## Converting arguments -/

namespace Machine

variable {m : Machine} {x : Method} {target arguments receiver : Option ObjectRef}

/-- An argument that a call is given is brought to the kind of a parameter: any reference goes to a
parameter of reference kind, and what is in a box goes to one of its own primitive kind, or of one
that it is widened to. -/
inductive Converts (m : Machine) : Tag → Option ObjectRef → Value → Prop
  | reference (arg : Option ObjectRef) : Converts m .reference arg (.reference arg)
  | unboxed {p : Primitive} {r : ObjectRef} {o : Object} {v : Value} (ho : m.heap.get? r = some o)
      (hbody : o.body = .boxed v) (htag : v.tag = .primitive p) : Converts m (.primitive p) (some r) v
  | widened {p : Primitive} {r : ObjectRef} {o : Object} {v w : Value} (ho : m.heap.get? r = some o)
      (hbody : o.body = .boxed v) (hw : v.widen? (.primitive p) = some w) :
      Converts m (.primitive p) (some r) w

/-- An argument is refused by a parameter: null by one of primitive kind, and an object by one that it is
not brought to. -/
inductive ArgumentRefused (m : Machine) : Tag → Option ObjectRef → Throwable → Prop
  | null (p : Primitive) : ArgumentRefused m (.primitive p) none
      (.illegalArgument ("null for " ++ p.name ++ " parameter"))
  | unfit {t : Tag} {r : ObjectRef} {e : Throwable} (h : m.ConversionRefused t (.ref r) e) :
      ArgumentRefused m t (some r) e

/-- An object is taken as an argument the way it is brought to any place of that kind. -/
theorem callArgument_some (t : Tag) (r : ObjectRef) :
    m.callArgument t (some r) = m.heap.coerceFor t (.ref r) := by
  cases t <;> rfl

/-- An argument is taken exactly where it converts to the kind of the parameter. -/
theorem callArgument_eq_ok_iff {t : Tag} {arg : Option ObjectRef} {v : Value} :
    m.callArgument t arg = .ok v ↔ m.Converts t arg v := by
  cases arg with
  | none =>
    cases t with
    | reference =>
      constructor
      · rintro ⟨⟩
        exact .reference none
      · rintro ⟨⟩
        rfl
    | primitive p => exact ⟨fun h => (nomatch h), fun h => (nomatch h)⟩
  | some r =>
    rw [callArgument_some, coerceFor_eq_ok_iff]
    constructor
    · intro h
      -- Only what is in a box has a primitive kind.
      cases h with
      | reference => exact .reference _
      | kept hu htag =>
        cases hu with
        | box ho hbody => exact .unboxed ho hbody htag
        | other => cases htag
      | widened hu hw =>
        cases hu with
        | box ho hbody => exact .widened ho hbody hw
        | other => cases hw
    · intro h
      cases h with
      | reference => exact .reference _
      | unboxed ho hbody htag => exact .kept (.box ho hbody) htag
      | widened ho hbody hw => exact .widened (.box ho hbody) hw

/-- An argument is refused for its reason. -/
theorem callArgument_eq_error_iff {t : Tag} {arg : Option ObjectRef} {e : Throwable} :
    m.callArgument t arg = .error e ↔ m.ArgumentRefused t arg e := by
  cases arg with
  | none =>
    cases t with
    | reference => exact ⟨fun h => (nomatch h), fun h => (nomatch h)⟩
    | primitive p =>
      constructor
      · rintro ⟨⟩
        exact .null p
      · rintro ⟨⟩
        rfl
  | some r =>
    rw [callArgument_some, coerceFor_eq_error_iff]
    refine ⟨.unfit, fun h => ?_⟩
    cases h with
    | unfit h => exact h

/-! ## Calls that are ready, and calls that are refused -/

/-- The receiver of a call: none for a static method, and otherwise a live object of a class that is
the declaring class or below it. -/
inductive Receives (m : Machine) (x : Method) (target : Option ObjectRef) :
    Option ObjectRef → Prop
  | static (hs : x.isStatic = true) : Receives m x target none
  | object {r : ObjectRef} {o : Object} (hs : x.isStatic = false) (htarget : target = some r)
      (ho : m.heap.get? r = some o) (ha : m.classes.isAssignable x.owner o.owner = true) :
      Receives m x target (some r)

/-- The arguments are an array of references, with one for each parameter that converts to it. -/
def Passes (m : Machine) (x : Method) (arguments : Option ObjectRef) (values : List Value) : Prop :=
  ∃ array o slots, arguments = some array ∧ m.heap.get? array = some o ∧
    o.body = .array (.references slots) ∧ slots.length = x.params.length ∧
    List.Forall₂ (fun a v => m.Converts a.1 a.2 v) (x.params.zip slots) values

/-- A call with all that it needs: `receiver` and `values` are what the method is run with. -/
structure CallReady (m : Machine) (x : Method) (target arguments receiver : Option ObjectRef)
    (values : List Value) : Prop where
  receives : m.Receives x target receiver
  passes : m.Passes x arguments values

/-- A call that is refused with an exception. The checks come in the order of the cases: each case but
the first has arguments, and those about the arguments have a receiver. -/
inductive CallRefused (m : Machine) (x : Method) (target arguments : Option ObjectRef) :
    Throwable → Prop
  | noArguments (harguments : arguments = none) : CallRefused m x target arguments .nullPointer
  | noReceiver {array : ObjectRef} (harguments : arguments = some array) (hs : x.isStatic = false)
      (htarget : target = none) : CallRefused m x target arguments .nullPointer
  | foreignReceiver {array r : ObjectRef} {o : Object} {cls owner : Class}
      (harguments : arguments = some array) (hs : x.isStatic = false) (htarget : target = some r)
      (ho : m.heap.get? r = some o) (hcls : m.classes.get? o.owner = some cls)
      (howner : m.classes.get? x.owner = some owner)
      (ha : m.classes.isAssignable x.owner o.owner = false) :
      CallRefused m x target arguments (.illegalArgument
        ("object of class " ++ cls.dotted ++ " is not an instance of " ++ owner.dotted))
  | noArray {array : ObjectRef} {receiver : Option ObjectRef} {o : Object}
      (harguments : arguments = some array) (hreceiver : m.Receives x target receiver)
      (ho : m.heap.get? array = some o) (hbody : ∀ slots, o.body ≠ .array (.references slots)) :
      CallRefused m x target arguments (.illegalArgument "arguments are not an Object[]")
  | wrongCount {array : ObjectRef} {receiver : Option ObjectRef} {o : Object}
      {slots : List (Option ObjectRef)} (harguments : arguments = some array)
      (hreceiver : m.Receives x target receiver) (ho : m.heap.get? array = some o)
      (hbody : o.body = .array (.references slots)) (hlength : slots.length ≠ x.params.length) :
      CallRefused m x target arguments (.wrongArgumentCount x.params.length slots.length)
  | unfit {array : ObjectRef} {receiver : Option ObjectRef} {o : Object}
      {slots : List (Option ObjectRef)} {before after : List (Tag × Option ObjectRef)} {t : Tag}
      {arg : Option ObjectRef} {e : Throwable} (harguments : arguments = some array)
      (hreceiver : m.Receives x target receiver) (ho : m.heap.get? array = some o)
      (hbody : o.body = .array (.references slots)) (hlength : slots.length = x.params.length)
      (hzip : x.params.zip slots = before ++ (t, arg) :: after)
      (hbefore : ∀ a ∈ before, ∃ v, m.Converts a.1 a.2 v) (harg : m.ArgumentRefused t arg e) :
      CallRefused m x target arguments e

theorem callReceiver_eq_ok_iff :
    m.callReceiver x target = .ok receiver ↔ m.Receives x target receiver := by
  unfold callReceiver
  cases hs : x.isStatic with
  | true =>
    rw [if_pos rfl]
    constructor
    · rintro ⟨⟩
      exact .static hs
    · intro h
      cases h with
      | static => rfl
      | object hs' => rw [hs] at hs'; cases hs'
  | false =>
    rw [if_neg Bool.false_ne_true, bind_eq_ok]
    constructor
    · rintro ⟨r, hr, h⟩
      obtain ⟨c, hc, h⟩ := bind_eq_ok.mp h
      obtain ⟨o, ho, rfl⟩ := classOf_eq_ok hc
      cases target with
      | none => cases hr
      | some r' =>
        cases hr
        split at h
        · next ha =>
          cases h
          exact .object hs rfl ho ha
        · obtain ⟨_, _, h⟩ := bind_eq_ok.mp h
          obtain ⟨_, _, h⟩ := bind_eq_ok.mp h
          cases h
    · intro h
      cases h with
      | static hs' => rw [hs] at hs'; cases hs'
      | object _ htarget ho ha =>
        refine ⟨_, htarget ▸ rfl, bind_eq_ok.mpr ⟨_, get_of_live ho, ?_⟩⟩
        rw [if_pos ha]
        rfl

/-- The arguments of an array of references. -/
theorem callArguments_of_references {array : ObjectRef} {o : Object}
    {slots : List (Option ObjectRef)} (ho : m.heap.get? array = some o)
    (hbody : o.body = .array (.references slots)) :
    m.callArguments x array =
      if slots.length ≠ x.params.length then
        .error (.thrown (.wrongArgumentCount x.params.length slots.length))
      else
        ((x.params.zip slots).mapM fun a => m.callArgument a.1 a.2).mapError Stop.thrown := by
  unfold callArguments
  rw [Heap.get_eq_ok_iff.mpr ho]
  dsimp only [bind, Except.bind]
  rw [hbody]
  dsimp only
  split <;> rfl

/-- What is no array of references does not give arguments. -/
theorem callArguments_of_not_references {array : ObjectRef} {o : Object}
    (ho : m.heap.get? array = some o) (hbody : ∀ slots, o.body ≠ .array (.references slots)) :
    m.callArguments x array =
      .error (.thrown (.illegalArgument "arguments are not an Object[]")) := by
  unfold callArguments
  rw [Heap.get_eq_ok_iff.mpr ho]
  dsimp only [bind, Except.bind]
  split
  · next slots h => exact absurd h (hbody slots)
  · rfl

/-- An array gives arguments exactly where its elements pass for the parameters. -/
theorem callArguments_eq_ok_iff {array : ObjectRef} {values : List Value} :
    m.callArguments x array = .ok values ↔ m.Passes x (some array) values := by
  have hconverts : ∀ (l : List (Tag × Option ObjectRef)) (vs : List Value),
      (l.mapM fun a => m.callArgument a.1 a.2) = .ok vs ↔
        List.Forall₂ (fun a v => m.Converts a.1 a.2 v) l vs := by
    intro l vs
    rw [mapM_eq_ok_iff]
    simp only [callArgument_eq_ok_iff]
  constructor
  · intro h
    obtain ⟨o, ho, _⟩ := bind_eq_ok.mp h
    have hlive := Heap.get_eq_ok_iff.mp ho
    by_cases hbody : ∃ slots, o.body = .array (.references slots)
    · obtain ⟨slots, hbody⟩ := hbody
      rw [callArguments_of_references hlive hbody] at h
      split at h
      · cases h
      · next hlength =>
        exact ⟨array, o, slots, rfl, hlive, hbody, Decidable.not_not.mp hlength,
          (hconverts _ _).mp (mapError_eq_ok.mp h)⟩
    · rw [callArguments_of_not_references hlive fun slots h => hbody ⟨slots, h⟩] at h
      cases h
  · rintro ⟨_, o, slots, ⟨⟩, ho, hbody, hlength, hall⟩
    rw [callArguments_of_references ho hbody, if_neg (Decidable.not_not.mpr hlength)]
    exact mapError_eq_ok.mpr ((hconverts _ _).mpr hall)

/-- What the checks of a call come to: the receiver and the arguments that the method is run with. -/
def callParts (m : Machine) (x : Method) (target arguments : Option ObjectRef) :
    Except Stop (Option ObjectRef × List Value) := do
  let array ← nonNull arguments
  let receiver ← m.callReceiver x target
  let values ← m.callArguments x array
  return (receiver, values)

/-- The checks are passed exactly by a call that is ready. -/
theorem callParts_eq_ok_iff {values : List Value} :
    m.callParts x target arguments = .ok (receiver, values) ↔
      m.CallReady x target arguments receiver values := by
  constructor
  · intro h
    obtain ⟨array, harray, h⟩ := bind_eq_ok.mp h
    obtain ⟨receiver', hreceiver, h⟩ := bind_eq_ok.mp h
    obtain ⟨values', hvalues, h⟩ := bind_eq_ok.mp h
    cases h
    cases arguments with
    | none => cases harray
    | some array' =>
      cases harray
      exact ⟨callReceiver_eq_ok_iff.mp hreceiver, callArguments_eq_ok_iff.mp hvalues⟩
  · rintro ⟨hreceives, hpasses⟩
    obtain ⟨array, _, _, rfl, _⟩ := id hpasses
    refine bind_eq_ok.mpr ⟨array, rfl, bind_eq_ok.mpr ⟨receiver, ?_, bind_eq_ok.mpr ⟨values, ?_, rfl⟩⟩⟩
    · exact callReceiver_eq_ok_iff.mpr hreceives
    · exact callArguments_eq_ok_iff.mpr hpasses

/-- With arguments and a receiver, a failure is one of taking the arguments. -/
theorem callParts_of_receives {array : ObjectRef} {e : Stop} (hreceiver : m.Receives x target receiver)
    (he : m.callArguments x array = .error e) : m.callParts x target (some array) = .error e := by
  show (m.callReceiver x target >>= fun receiver => m.callArguments x array >>= _) = _
  rw [callReceiver_eq_ok_iff.mpr hreceiver, he]
  rfl

/-- A call that is refused fails a check with that exception. -/
theorem CallRefused.callParts_eq {e : Throwable} (h : m.CallRefused x target arguments e) :
    m.callParts x target arguments = .error (.thrown e) := by
  -- The cases come in the order of the checks, and each one has passed those before it.
  cases h with
  | noArguments harguments =>
    subst harguments
    rfl
  | noReceiver harguments hs htarget =>
    subst harguments htarget
    show (m.callReceiver x none >>= _) = _
    rw [callReceiver, if_neg (by rw [hs]; decide)]
    rfl
  | foreignReceiver harguments hs htarget ho hcls howner ha =>
    subst harguments htarget
    show (m.callReceiver x _ >>= _) = _
    rw [callReceiver, if_neg (by rw [hs]; decide)]
    show ((m.classOf _ >>= fun c => if m.classes.isAssignable x.owner c = true then _ else _) >>= _) = _
    rw [get_of_live ho]
    show ((if m.classes.isAssignable x.owner _ = true then _ else _) >>= _) = _
    rw [ha, ClassTable.dotted, ClassTable.dotted, ClassTable.get_eq_ok_iff.mpr hcls,
      ClassTable.get_eq_ok_iff.mpr howner]
    rfl
  | noArray harguments hreceiver ho hbody =>
    subst harguments
    exact callParts_of_receives hreceiver (callArguments_of_not_references ho hbody)
  | wrongCount harguments hreceiver ho hbody hlength =>
    subst harguments
    refine callParts_of_receives hreceiver ?_
    rw [callArguments_of_references ho hbody, if_pos hlength]
  | @unfit array receiver o slots before after t arg e harguments hreceiver ho hbody hlength hzip
      hbefore harg =>
    subst harguments
    have hfirst : ((x.params.zip slots).mapM fun a => m.callArgument a.1 a.2) = .error e := by
      refine mapM_eq_error_iff.mpr
        ⟨_, _, _, hzip, fun a ha => ?_, callArgument_eq_error_iff.mpr harg⟩
      obtain ⟨v, hv⟩ := hbefore a ha
      exact ⟨v, callArgument_eq_ok_iff.mpr hv⟩
    refine callParts_of_receives hreceiver ?_
    rw [callArguments_of_references ho hbody, if_neg (Decidable.not_not.mpr hlength), hfirst]
    rfl

/-- A receiver that is null or live is one for the method, or the call is refused for it. -/
theorem WellFormed.receives_or_refused {named : String → Prop} (hw : m.WellFormed named)
    (hx : ∃ owner, m.classes.get? x.owner = some owner) (htarget : m.NullOrLive target)
    {array : ObjectRef} (harguments : arguments = some array) :
    (∃ receiver, m.Receives x target receiver) ∨ ∃ e, m.CallRefused x target arguments e := by
  cases hs : x.isStatic with
  | true => exact Or.inl ⟨none, .static hs⟩
  | false =>
    cases htarget' : target with
    | none => exact Or.inr ⟨_, .noReceiver harguments hs rfl⟩
    | some r =>
      obtain ⟨o, ho⟩ := htarget r htarget'
      obtain ⟨cls, hcls⟩ := hw.exists_class ho
      obtain ⟨owner, howner⟩ := hx
      cases ha : m.classes.isAssignable x.owner o.owner with
      | true => exact Or.inl ⟨some r, .object hs rfl ho ha⟩
      | false => exact Or.inr ⟨_, .foreignReceiver harguments hs rfl ho hcls howner ha⟩

/-- A call with references that are null or live is ready, or refused. -/
theorem WellFormed.ready_or_refused {named : String → Prop} (hw : m.WellFormed named)
    (hx : ∃ owner, m.classes.get? x.owner = some owner) (htarget : m.NullOrLive target)
    (harguments : m.NullOrLive arguments) :
    (∃ receiver values, m.CallReady x target arguments receiver values) ∨
      ∃ e, m.CallRefused x target arguments e := by
  cases harray : arguments with
  | none => exact Or.inr ⟨_, .noArguments rfl⟩
  | some array =>
    rcases hw.receives_or_refused hx htarget (rfl : some array = some array) with
      ⟨receiver, hreceiver⟩ | hrefused
    · obtain ⟨o, ho⟩ := harguments array harray
      by_cases hbody : ∃ slots, o.body = .array (.references slots)
      · obtain ⟨slots, hbody⟩ := hbody
        by_cases hlength : slots.length = x.params.length
        · -- Either all elements convert, or there is a first one that does not.
          cases hall : (x.params.zip slots).mapM fun a => m.callArgument a.1 a.2 with
          | ok values =>
            refine Or.inl ⟨receiver, values, hreceiver, callArguments_eq_ok_iff.mp ?_⟩
            rw [callArguments_of_references ho hbody, if_neg (Decidable.not_not.mpr hlength), hall]
            rfl
          | error e =>
            obtain ⟨before, a, after, hzip, hbefore, ha⟩ := mapM_eq_error_iff.mp hall
            refine Or.inr
              ⟨e, .unfit rfl hreceiver ho hbody hlength hzip ?_ (callArgument_eq_error_iff.mp ha)⟩
            intro b hb
            obtain ⟨v, hv⟩ := hbefore b hb
            exact ⟨v, callArgument_eq_ok_iff.mp hv⟩
        · exact Or.inr ⟨_, .wrongCount rfl hreceiver ho hbody hlength⟩
      · exact Or.inr ⟨_, .noArray rfl hreceiver ho fun slots h => hbody ⟨slots, h⟩⟩
    · exact Or.inr hrefused

end Machine

/-! ## Runs of calls -/

section Runs

variable {W : Type} {p : Platform W} {t : ThreadId} {x : Method} {m : Machine} {w : W}
  {target arguments receiver : Option ObjectRef} {values : List Value}

/-- What runs before the method itself: the class of a static method is initialized. -/
def prepareClass (p : Platform W) (t : ThreadId) (x : Method) : Exec W Unit :=
  if x.isStatic then initializeClass p t x.owner else pure ()

/-- One machine is the other with a primitive value in a new box at a reference. -/
structure Machine.Boxes (m m' : Machine) (kind : Primitive) (v : Value) (r : ObjectRef) : Prop where
  /-- Where the free list is in order, nothing was live there, and the box is there now. -/
  box : m.heap.Sound → m.heap.get? r = none ∧
    ∃ hash, m'.heap.get? r = some { owner := .box kind, hash, body := .boxed v }
  others : ∀ q, q ≠ r → m'.heap.get? q = m.heap.get? q
  elsewhere : m' = { m with heap := m'.heap }

/-- What a call of a method answers with, and the machine then, from what the method ended with in some
machine. -/
inductive CallAnswer (x : Method) (m : Machine) :
    Except Stop Value → Except Stop Value → Machine → Prop
  /-- An exception is the cause of another one, which has no message. -/
  | failed (e : Throwable) : CallAnswer x m (.error (.thrown e))
      (.error (.thrown
        { kind := .invocationTarget, message := none, cause := some e, object := none })) m
  | stopped {stop : Stop} (h : ∀ e, stop ≠ .thrown e) : CallAnswer x m (.error stop) (.error stop) m
  | nothing (v : Value) (h : x.result = none) : CallAnswer x m (.ok v) (.ok .null) m
  | reference (r : Option ObjectRef) (h : x.result.isSome) :
      CallAnswer x m (.ok (.reference r)) (.ok (.reference r)) m
  | boxed {v : Value} {kind : Primitive} {r : ObjectRef} {m' : Machine} (h : x.result.isSome)
      (hv : v.tag = .primitive kind) (hbox : m.Boxes m' kind v r) :
      CallAnswer x m (.ok v) (.ok (.ref r)) m'

/-- Adding an object leaves all others as they are. -/
theorem get?_allocate_of_ne {h : Heap} {owner : ClassId} {body : Body} {q : ObjectRef}
    (hq : q ≠ (h.allocate owner body).2) : (h.allocate owner body).1.get? q = h.get? q := by
  cases hfree : h.free with
  | nil =>
    rw [Heap.allocate_of_nil hfree] at hq ⊢
    rw [Heap.get?, Array.getElem?_push, if_neg fun hindex => hq (ObjectRef.eq_iff_index.mpr hindex.symm)]
    rfl
  | cons i free =>
    rw [Heap.allocate_of_cons hfree] at hq ⊢
    rw [Heap.get?, Array.getElem?_setIfInBounds,
      if_neg fun hindex => hq (ObjectRef.eq_iff_index.mpr hindex)]
    rfl

/-- A primitive value is boxed in a new object. -/
theorem boxes_allocate (m : Machine) (kind : Primitive) (v : Value) :
    m.Boxes { m with heap := (m.heap.allocate (.box kind) (.boxed v)).1 } kind v
      (m.heap.allocate (.box kind) (.boxed v)).2 where
  box hs := by
    obtain ⟨hfree, hget⟩ := hs.allocate_spec (.box kind) (.boxed v)
    exact ⟨hfree, _, (hget _).trans (if_pos rfl)⟩
  others q hq := get?_allocate_of_ne hq
  elsewhere := rfl

/-- The caller is answered once the method has run, and what the platform keeps is as the method left
it. -/
theorem callAnswer_invokeWrapped (p : Platform W) (t : ThreadId) (x : Method)
    (receiver : Option ObjectRef) (values : List Value) (s : Machine × W) :
    ∃ answer m, (invokeWrapped p t x receiver values >>= boxedResult x) s =
        (answer, m, (p.invoke t x receiver values s).2.2) ∧
      CallAnswer x (p.invoke t x receiver values s).2.1 (p.invoke t x receiver values s).1 answer
        m := by
  rw [run_bind, invokeWrapped, run_bind, Exec.attempt]
  rcases p.invoke t x receiver values s with ⟨(e | f | c | _) | v, m, w⟩
  · exact ⟨_, _, rfl, .failed e⟩
  · exact ⟨_, _, rfl, .stopped nofun⟩
  · exact ⟨_, _, rfl, .stopped nofun⟩
  · exact ⟨_, _, rfl, .stopped nofun⟩
  · show ∃ answer m', boxedResult x v (m, w) = _ ∧ _
    unfold boxedResult
    cases hresult : x.result with
    | none => exact ⟨_, _, rfl, .nothing v hresult⟩
    | some tag =>
      have hsome : x.result.isSome := hresult ▸ rfl
      cases htag : v.tag with
      | primitive kind =>
        have hbox : Action.box v m = (.ok (.ref (m.heap.allocate (.box kind) (.boxed v)).2),
            { m with heap := (m.heap.allocate (.box kind) (.boxed v)).1 }) := by
          unfold Action.box
          rw [htag]
          rfl
        refine ⟨_, _, ?_, .boxed hsome htag (boxes_allocate m kind v)⟩
        show ((Action.box v m).1, (Action.box v m).2, w) = _
        rw [hbox]
      | reference =>
        cases v with
        | reference r => exact ⟨_, _, rfl, .reference r hsome⟩
        | _ => cases htag

/-- A call runs when its checks are passed. -/
theorem run_invokeMethod :
    invokeMethod p t x target arguments (m, w) =
      match m.callParts x target arguments with
      | .error e => (.error e, m, w)
      | .ok (receiver, values) =>
        (prepareClass p t x >>= fun _ =>
          invokeWrapped p t x receiver values >>= boxedResult x) (m, w) := by
  unfold invokeMethod Machine.callParts prepareClass
  rw [run_bind]
  dsimp only [Exec.machine]
  rw [run_lift_bind]
  rcases Machine.nonNull arguments with e | array
  · rfl
  · dsimp only
    rw [run_lift_bind]
    rcases m.callReceiver x target with e | receiver
    · rfl
    · dsimp only
      rw [run_lift_bind]
      show _ = (match m.callArguments x array >>= fun values => Except.ok (receiver, values) with
        | .error e => (.error e, m, w)
        | .ok (receiver, values) => _ : Except Stop Value × Machine × W)
      rcases m.callArguments x array with e | values
      · rfl
      · show (if x.isStatic = true then _ else _ : Exec W Value) (m, w) =
          ((if x.isStatic = true then _ else pure ()) >>= fun _ => _ : Exec W Value) (m, w)
        split <;> rfl

/-- A call that is refused runs nothing and changes nothing, on every platform. -/
theorem run_invokeMethod_of_refused {e : Throwable} (h : m.CallRefused x target arguments e) :
    invokeMethod p t x target arguments (m, w) = (.error (.thrown e), m, w) := by
  rw [run_invokeMethod, h.callParts_eq]

/-- A call that is ready prepares the class, runs the method, and answers for it. -/
theorem run_invokeMethod_of_ready (h : m.CallReady x target arguments receiver values) :
    invokeMethod p t x target arguments (m, w) =
      match prepareClass p t x (m, w) with
      | (.error e, s) => (.error e, s)
      | (.ok _, s) => (invokeWrapped p t x receiver values >>= boxedResult x) s := by
  rw [run_invokeMethod, Machine.callParts_eq_ok_iff.mpr h]
  dsimp only
  rw [run_bind]
  rcases prepareClass p t x (m, w) with ⟨e | u, s⟩ <;> rfl

/-! ## Calls of the engine -/

/-- What the engine is called with. -/
structure EngineCall where
  thread : ThreadId
  method : Method
  receiver : Option ObjectRef
  args : List Value

/-- A platform on which every call of the engine is recorded, the latest last. -/
def Platform.recording (p : Platform W) : Platform (W × List EngineCall) where
  invoke t x receiver args := fun (m, w, calls) =>
    let (result, m, w) := p.invoke t x receiver args (m, w)
    (result, m, w, calls ++ [⟨t, x, receiver, args⟩])
  start request := fun (w, calls) =>
    let (verdict, w) := p.start request w
    (verdict, w, calls)
  keep := fun (w, _) => p.keep w
  classPath := p.classPath
  libraryPath := p.libraryPath
  loader := p.loader.map .onFirst
  config := p.config

/-- A reflective call in a reachable machine, of a method of a class that is there, with references
that are null or live. It is ready, or else refused. A call that is refused comes to nothing but the
exception: neither the engine nor an initializer has run, and the machine is as it was. A call that is
ready initializes the class of a static method, whose failure is passed on as it is. Then the engine is
called once, on the method, with the receiver and the converted arguments, and what it ends with is
answered for: an exception that it ends with is the cause of the one that the call ends with, and a value
is boxed. -/
theorem invokeMethod_outcome {path : ClassPath} (h : m.Reachable path fun _ => True)
    (hx : ∃ owner, m.classes.get? x.owner = some owner) (htarget : m.NullOrLive target)
    (harguments : m.NullOrLive arguments) (p : Platform W) (t : ThreadId) (w : W)
    (calls : List EngineCall) :
    ((∃ receiver values, m.CallReady x target arguments receiver values) ↔
      ¬ ∃ e, m.CallRefused x target arguments e) ∧
    (∀ e, m.CallRefused x target arguments e →
      invokeMethod p.recording t x target arguments (m, w, calls) =
        (.error (.thrown e), m, w, calls)) ∧
    ∀ receiver values, m.CallReady x target arguments receiver values →
      ∀ prepared m₁ w₁ calls₁,
        prepareClass p.recording t x (m, w, calls) = (prepared, m₁, w₁, calls₁) →
          (∀ e, prepared = .error e →
            invokeMethod p.recording t x target arguments (m, w, calls) =
              (.error e, m₁, w₁, calls₁)) ∧
          (prepared = .ok () → ∀ result m₂ w₂,
            p.invoke t x receiver values (m₁, w₁) = (result, m₂, w₂) →
              ∃ answer m₃, invokeMethod p.recording t x target arguments (m, w, calls) =
                  (answer, m₃, w₂, calls₁ ++ [⟨t, x, receiver, values⟩]) ∧
                CallAnswer x m₂ result answer m₃) := by
  have hw := h.wellFormed fun _ _ => trivial
  refine ⟨⟨?_, ?_⟩, fun e => run_invokeMethod_of_refused, ?_⟩
  · rintro ⟨receiver, values, hready⟩ ⟨e, hrefused⟩
    -- The checks are a function of the machine, and cannot both be passed and fail.
    have hparts := Machine.callParts_eq_ok_iff.mpr hready
    rw [hrefused.callParts_eq] at hparts
    cases hparts
  · intro hnot
    rcases hw.ready_or_refused hx htarget harguments with hready | hrefused
    · exact hready
    · exact absurd hrefused hnot
  · intro receiver values hready prepared m₁ w₁ calls₁ hprepare
    rw [run_invokeMethod_of_ready hready, hprepare]
    constructor
    · rintro e rfl
      rfl
    · rintro rfl result m₂ w₂ hinvoke
      have hrecorded : p.recording.invoke t x receiver values (m₁, w₁, calls₁) =
          (result, m₂, w₂, calls₁ ++ [⟨t, x, receiver, values⟩]) := by
        dsimp only [Platform.recording]
        rw [hinvoke]
      have hanswer := callAnswer_invokeWrapped p.recording t x receiver values (m₁, w₁, calls₁)
      rw [hrecorded] at hanswer
      exact hanswer

end Runs

/-- A machine with a box of the integer 7, and an array of objects that holds it. -/
def boxMachine : Machine :=
  [Operation.box (.int 7), .newArray .object 1, .arrayStore (some ⟨1⟩) 0 (.ref ⟨0⟩)].foldl
    (fun m op => (op.run {} m).2) {}

theorem reachable_boxMachine : boxMachine.Reachable {} fun _ => True :=
  ((Machine.reachable_new.operation (.box (.int 7)) trivial).operation
    (.newArray .object 1) trivial).operation (.arrayStore (some ⟨1⟩) 0 (.ref ⟨0⟩)) trivial

/-- A method of all objects, with one parameter of the kind of long integers. -/
def longMethod : Method :=
  { owner := .object, name := "advance", descriptor := "(J)V", flags := publicFlag,
    params := [.primitive .long], result := none }

/-- A method of all objects that answers with an integer. -/
def answeringMethod : Method := { longMethod with result := some (.primitive .int) }

/-- A platform whose engine ends at once, in one way. -/
def Platform.ending (result : Except Stop Value) : Platform Unit :=
  { Platform.idle with invoke := fun _ _ _ _ s => (result, s) }

/-- A method that is called on the box, with the array for its arguments, is given the integer as a long
one. -/
theorem callReady_boxMachine (result : Option Tag) :
    boxMachine.CallReady { longMethod with result } (some ⟨0⟩) (some ⟨1⟩) (some ⟨0⟩) [.long 7] := by
  have hlive : ∀ i : Fin 2, (boxMachine.heap.get? ⟨i.val⟩).isSome = true := by decide +kernel
  obtain ⟨box, hbox⟩ := Option.isSome_iff_exists.mp (hlive 0)
  obtain ⟨array, harray⟩ := Option.isSome_iff_exists.mp (hlive 1)
  have hboxed : (boxMachine.heap.get? ⟨0⟩).map Object.body = some (.boxed (.int 7)) := by
    decide +kernel
  have hslots : (boxMachine.heap.get? ⟨1⟩).map Object.body =
      some (.array (.references [some ⟨0⟩])) := by decide +kernel
  have hassignable : (boxMachine.heap.get? ⟨0⟩).map
      (fun o => boxMachine.classes.isAssignable .object o.owner) = some true := by decide +kernel
  have hbox' : boxMachine.heap.get? ⟨0⟩ = some box := hbox
  have harray' : boxMachine.heap.get? ⟨1⟩ = some array := harray
  rw [hbox', Option.map_some, Option.some.injEq] at hboxed hassignable
  rw [harray', Option.map_some, Option.some.injEq] at hslots
  have hobject : longMethod.isStatic = false := by decide
  exact ⟨.object hobject rfl hbox' hassignable, ⟨1⟩, array, _, rfl, harray', hslots, rfl,
    .cons (.widened hbox' hboxed rfl) .nil⟩

/-- The engine gets the integer as a long one, and nothing when there are no arguments. What it answers
with is boxed, and its exception is the cause of another one. -/
theorem invokeMethod_outcome_widened :
    invokeMethod Platform.idle.recording (.ofNumber 1) longMethod (some ⟨0⟩) (some ⟨1⟩)
        (boxMachine, (), []) =
      (.ok .null, boxMachine, (), [⟨.ofNumber 1, longMethod, some ⟨0⟩, [.long 7]⟩]) ∧
    invokeMethod Platform.idle.recording (.ofNumber 1) longMethod (some ⟨0⟩) none
        (boxMachine, (), []) =
      (.error (.thrown .nullPointer), boxMachine, (), []) ∧
    invokeMethod (Platform.ending (.error (.thrown (.runtime "too far")))).recording (.ofNumber 1)
        longMethod (some ⟨0⟩) (some ⟨1⟩) (boxMachine, (), []) =
      (.error (.thrown
          { kind := .invocationTarget, message := none, cause := some (.runtime "too far"),
            object := none }),
        boxMachine, (), [⟨.ofNumber 1, longMethod, some ⟨0⟩, [.long 7]⟩]) ∧
    ∃ r m, invokeMethod (Platform.ending (.ok (.int 3))).recording (.ofNumber 1) answeringMethod
          (some ⟨0⟩) (some ⟨1⟩) (boxMachine, (), []) =
        (.ok (.ref r), m, (), [⟨.ofNumber 1, answeringMethod, some ⟨0⟩, [.long 7]⟩]) ∧
      boxMachine.Boxes m .int (.int 3) r := by
  have hlive : ∀ i : Fin 2, (boxMachine.heap.get? ⟨i.val⟩).isSome = true := by decide +kernel
  have hnull : ∀ i : Fin 2, boxMachine.NullOrLive (some ⟨i.val⟩) := by
    rintro i _ ⟨⟩
    exact Option.isSome_iff_exists.mp (hlive i)
  have howner : (boxMachine.classes.get? .object).isSome = true := by decide +kernel
  have hx := Option.isSome_iff_exists.mp howner
  refine ⟨?_, ?_, ?_, ?_⟩
  · have hcall := (invokeMethod_outcome (x := longMethod) reachable_boxMachine hx (hnull 0) (hnull 1)
      Platform.idle (.ofNumber 1) () []).2.2 _ _ (callReady_boxMachine none) (.ok ()) boxMachine () []
      rfl
    obtain ⟨answer, m, hrun, hanswer⟩ := hcall.2 rfl (.ok .null) boxMachine () rfl
    cases hanswer with
    | nothing => exact hrun
    | reference _ h => cases h
    | boxed h => cases h
  · have hnone : boxMachine.NullOrLive none := nofun
    exact (invokeMethod_outcome (x := longMethod) reachable_boxMachine hx (hnull 0) hnone
      Platform.idle (.ofNumber 1) () []).2.1 _ (.noArguments rfl)
  · have hcall := (invokeMethod_outcome (x := longMethod) reachable_boxMachine hx (hnull 0) (hnull 1)
      (.ending (.error (.thrown (.runtime "too far")))) (.ofNumber 1) () []).2.2 _ _
      (callReady_boxMachine none) (.ok ()) boxMachine () [] rfl
    obtain ⟨answer, m, hrun, hanswer⟩ := hcall.2 rfl _ boxMachine () rfl
    cases hanswer with
    | failed => exact hrun
    | stopped h => exact absurd rfl (h _)
  · have hcall := (invokeMethod_outcome (x := answeringMethod) reachable_boxMachine hx (hnull 0)
      (hnull 1) (.ending (.ok (.int 3))) (.ofNumber 1) () []).2.2 _ _ (callReady_boxMachine _) (.ok ())
      boxMachine () [] rfl
    obtain ⟨answer, m, hrun, hanswer⟩ := hcall.2 rfl _ boxMachine () rfl
    cases hanswer with
    | nothing _ h => cases h
    | boxed _ hv hbox =>
      cases hv
      exact ⟨_, m, hrun, hbox⟩

end JavaMachine
