/-
# Numbers of open resources

A run of the native methods on resources opens, reads and closes them in any order, on any number of
platforms, and leaves the open resources alone otherwise (`ResourceRun`).  A call does one of three
things to them: it leaves them as they are, opens one under the number after the last one, or closes
one (`ResourceStep`).  So the last number counts what was opened, no number comes twice, and what is open
under a number is what was found when the number was given out, until a call closes it
(`resource_numbers`).
-/
import JavaMachine.Proofs.ResourceReads
import Mathlib.Algebra.Group.Int.Defs

namespace JavaMachine

/-! ## Runs -/

/-- A native method on resources. -/
inductive ResourceMethod where
  | opening
  | reading
  | readingInto
  | closing
deriving DecidableEq, Repr

def ResourceMethod.native {W : Type} : ResourceMethod → Native W
  | opening => Builtin.resourceOpen
  | reading => .ofAction Builtin.resourceRead
  | readingInto => .ofAction Builtin.resourceReadInto
  | closing => .ofAction Builtin.resourceClose

/-- A call of a native method on resources, and how it ended. -/
structure ResourceEvent where
  method : ResourceMethod
  args : Arguments
  result : Except Stop Value

/-- Calls of native methods on resources, one after the other.  Each has a platform of its own, so that
what is on the class path may change meanwhile. -/
inductive ResourceRun (m₀ : Machine) : List ResourceEvent → Machine → Prop
  | refl : ResourceRun m₀ [] m₀
  | call {events : List ResourceEvent} {m m' : Machine} {W : Type} {p : Platform W} {t : ThreadId}
      {w w' : W} {method : ResourceMethod} {args : Arguments} {result : Except Stop Value}
      (run : ResourceRun m₀ events m) (h : method.native p t args (m, w) = (result, (m', w'))) :
      ResourceRun m₀ (events ++ [⟨method, args, result⟩]) m'
  | elsewhere {events : List ResourceEvent} {m m' : Machine} (run : ResourceRun m₀ events m)
      (h : m'.resources = m.resources) : ResourceRun m₀ events m'

/-- How often a resource was asked for. -/
def openings (events : List ResourceEvent) : Nat := events.countP (·.method = .opening)

/-- A number that some opening has given. -/
def Returned (events : List ResourceEvent) (number : Int64) : Prop :=
  ∃ e ∈ events, e.method = .opening ∧ e.result = .ok (.long number)

/-- A call asks for a number to be closed. -/
def Closes (events : List ResourceEvent) (number : Int64) : Prop :=
  ∃ e ∈ events, e.method = .closing ∧ e.args.long 0 = .ok number

/-- One more call counts for at most one more opening. -/
theorem openings_append_singleton (events : List ResourceEvent) (e : ResourceEvent) :
    openings (events ++ [e]) = openings events + if e.method = .opening then 1 else 0 := by
  unfold openings
  rw [List.countP_append, List.countP_singleton]
  simp only [decide_eq_true_eq]

/-- A number is given out by an opening. -/
theorem returned_append_singleton {events : List ResourceEvent} {e : ResourceEvent} {n : Int64} :
    Returned (events ++ [e]) n ↔
      Returned events n ∨ (e.method = .opening ∧ e.result = .ok (.long n)) := by
  simp [Returned, or_and_right, exists_or]

/-- A number is closed by a closing. -/
theorem closes_append_singleton {events : List ResourceEvent} {e : ResourceEvent} {n : Int64} :
    Closes (events ++ [e]) n ↔ Closes events n ∨ (e.method = .closing ∧ e.args.long 0 = .ok n) := by
  simp [Closes, or_and_right, exists_or]

/-! ## What a call does -/

/-- What a call does to the open resources. -/
inductive ResourceStep (o o' : OpenResources) (e : ResourceEvent) : Prop
  | same (h : o' = o) (hopening : e.method = .opening → ∀ n, e.result = .ok (.long n) → n = 0)
      (hclosing : e.method = .closing → ∀ n, e.args.long 0 = .ok n → o.opened.get? n = none)
  | opened (data : Bytes) (hmethod : e.method = .opening)
      (hresult : e.result = .ok (.long (o.last + 1))) (h : o' = (o.add data).1)
  | closed (n : Int64) (hmethod : e.method = .closing) (hargs : e.args.long 0 = .ok n)
      (h : o' = { o with opened := o.opened.erase n })

section Calls

variable {W : Type} {p : Platform W} {t : ThreadId} {w : W} {m m' : Machine} {args : Arguments}
  {r : ObjectRef} {path : String} {number : Int64}

/-- Opening gives zero for a path that leads nowhere, and else the number after the last one. -/
theorem run_resourceOpen (hr : args.object 0 = .ok r) (hpath : m.stringValue r = .ok path) :
    Builtin.resourceOpen p t args (m, w) =
      match p.classPath.find? path with
      | none => (.ok (.long 0), (m, w))
      | some data => (.ok (.long (m.resources.last + 1)),
          ({ m with resources := (m.resources.add data).1 }, w)) := by
  unfold Builtin.resourceOpen
  rw [hr]
  show (liftM (m.stringValue r) >>= _ : Exec W Value) (m, w) = _
  rw [hpath]
  show (match p.classPath.find? path with | none => _ | some data => _ : Exec W Value) (m, w) = _
  cases p.classPath.find? path <;> rfl

/-- Without a string for a path nothing is opened. -/
theorem run_resourceOpen_error (h : ∀ r path, args.object 0 = .ok r → m.stringValue r ≠ .ok path) :
    ∃ e, Builtin.resourceOpen p t args (m, w) = (.error e, (m, w)) := by
  unfold Builtin.resourceOpen
  rcases hr : args.object 0 with e | r
  · exact ⟨.thrown e, rfl⟩
  · show ∃ e, (liftM (m.stringValue r) >>= _ : Exec W Value) (m, w) = _
    rcases hpath : m.stringValue r with e | path
    · exact ⟨e, rfl⟩
    · exact absurd hpath (h r path hr)

/-- Closing forgets what is open under the number. -/
theorem run_resourceClose (hnumber : args.long 0 = .ok number) :
    Builtin.resourceClose args m =
      match m.resources.opened.get? number with
      | none => (.error (.thrown (OpenResources.unknown number)), m)
      | some _ => (.ok .null, { m with resources :=
          { m.resources with opened := m.resources.opened.erase number } }) := by
  unfold Builtin.resourceClose
  rw [Action.run_liftThrowable_bind_of_ok hnumber, Action.run_get_bind,
    Action.run_liftThrowable_bind, OpenResources.close]
  cases m.resources.opened.get? number <;> rfl

/-- A number under which nothing is open is refused before anything else is looked at. -/
theorem run_of_not_opened {f : Arguments → Action Value}
    (hf : f = Builtin.resourceRead ∨ f = Builtin.resourceReadInto ∨ f = Builtin.resourceClose)
    (hnumber : args.long 0 = .ok number) (hnone : m.resources.opened.get? number = none) :
    f args m = (.error (.thrown (OpenResources.unknown number)), m) := by
  have hget : m.resources.get number = .error (OpenResources.unknown number) := by
    rw [OpenResources.get, hnone]
  rcases hf with rfl | rfl | rfl
  · unfold Builtin.resourceRead
    rw [Action.run_liftThrowable_bind_of_ok hnumber, Action.run_get_bind,
      Action.run_liftThrowable_bind, hget]
  · unfold Builtin.resourceReadInto
    rw [Action.run_liftThrowable_bind_of_ok hnumber, Action.run_get_bind,
      Action.run_liftThrowable_bind, hget]
  · rw [run_resourceClose hnumber, hnone]

/-- The same resources are open. -/
def Machine.SameResources (m m' : Machine) : Prop := m'.resources = m.resources

instance : IsPreorder Machine Machine.SameResources where
  refl := fun _ => rfl
  trans := fun _ _ _ h h' => h'.trans h

open Machine (SameResources) in
theorem sameResources_read (m : Machine) (args : Arguments) :
    Action.Takes SameResources m (Builtin.resourceRead args) fun _ _ => True := by
  refine Action.takes_liftThrowable_bind fun number _ => Action.takes_get_bind ?_
  refine Action.takes_liftThrowable_bind fun data _ => ?_
  refine Action.takes_liftThrowable_bind fun position _ => ?_
  split
  · exact Action.takes_pure trivial
  · split <;> exact Action.takes_pure trivial

open Machine (SameResources) in
theorem sameResources_readInto (m : Machine) (args : Arguments) :
    Action.Takes SameResources m (Builtin.resourceReadInto args) fun _ _ => True := by
  refine Action.takes_liftThrowable_bind fun number _ => Action.takes_get_bind ?_
  refine Action.takes_liftThrowable_bind fun data _ => ?_
  refine Action.takes_liftThrowable_bind fun position _ => ?_
  refine Action.takes_liftThrowable_bind fun buffer _ => ?_
  refine Action.takes_liftThrowable_bind fun offset _ => ?_
  refine Action.takes_liftThrowable_bind fun length _ => ?_
  dsimp only
  split
  · exact Action.takes_pure trivial
  · refine (Action.takes_updating fun m' h => ?_).bind fun _ _ _ _ => Action.takes_pure trivial
    obtain ⟨_, _, _, _, rfl⟩ := Action.writeBytes_eq_ok h
    exact rfl

/-- A call does one of the three things, whatever it is given. -/
theorem resourceStep_of_call {method : ResourceMethod} {result : Except Stop Value} {w' : W}
    (h : method.native p t args (m, w) = (result, (m', w'))) :
    ResourceStep m.resources m'.resources ⟨method, args, result⟩ := by
  cases method with
  | opening =>
    by_cases hgiven : ∃ r path, args.object 0 = .ok r ∧ m.stringValue r = .ok path
    · obtain ⟨r, path, hr, hpath⟩ := hgiven
      have hrun := (run_resourceOpen (p := p) (t := t) (w := w) hr hpath).symm.trans h
      split at hrun
      · cases hrun
        exact .same rfl (fun _ n hn => (Value.long.inj (Except.ok.inj hn)).symm) nofun
      · next data hdata =>
        cases hrun
        exact .opened data rfl rfl rfl
    · obtain ⟨e, hrun⟩ := run_resourceOpen_error (p := p) (t := t) (w := w)
        fun r path hr hpath => hgiven ⟨r, path, hr, hpath⟩
      cases hrun.symm.trans h
      exact .same rfl nofun nofun
  | reading =>
    have hsame : m'.resources = m.resources := by
      obtain ⟨-, rfl, -⟩ := h
      exact (sameResources_read m args).1
    exact .same hsame nofun nofun
  | readingInto =>
    have hsame : m'.resources = m.resources := by
      obtain ⟨-, rfl, -⟩ := h
      exact (sameResources_readInto m args).1
    exact .same hsame nofun nofun
  | closing =>
    have hclose : Builtin.resourceClose args m = (result, m') := by
      obtain ⟨rfl, rfl, -⟩ := h
      rfl
    rcases hnumber : args.long 0 with e | n
    · have hrun : Builtin.resourceClose args m = (.error (.thrown e), m) := by
        unfold Builtin.resourceClose
        rw [Action.run_liftThrowable_bind, hnumber]
      cases hrun.symm.trans hclose
      exact .same rfl nofun fun _ n hn => nomatch hnumber.symm.trans hn
    · have hrun := (run_resourceClose hnumber).symm.trans hclose
      split at hrun
      · next hnone =>
        cases hrun
        refine .same rfl nofun fun _ k hk => ?_
        obtain rfl := Except.ok.inj (hnumber.symm.trans hk)
        exact hnone
      · cases hrun
        exact .closed n rfl hnumber rfl

end Calls

namespace ResourceStep

variable {o o' : OpenResources} {e : ResourceEvent} {n : Int64}

/-- The last number stays, or goes up by one when a resource is opened. -/
theorem last_eq (h : ResourceStep o o' e) :
    o'.last = o.last ∨ (e.method = .opening ∧ o'.last = o.last + 1) := by
  rcases h with ⟨rfl, -, -⟩ | ⟨data, hmethod, -, rfl⟩ | ⟨k, -, -, rfl⟩
  · exact .inl rfl
  · exact .inr ⟨hmethod, rfl⟩
  · exact .inl rfl

/-- A number that opening gives is zero, or else the last one from then on. -/
theorem number_eq (h : ResourceStep o o' e) (hmethod : e.method = .opening)
    (hresult : e.result = .ok (.long n)) : n = 0 ∨ n = o'.last := by
  rcases h with ⟨-, hzero, -⟩ | ⟨data, -, hnext, rfl⟩ | ⟨k, hclosing, -, -⟩
  · exact .inl (hzero hmethod n hresult)
  · exact .inr (Value.long.inj (Except.ok.inj (hresult.symm.trans hnext)))
  · exact nomatch hmethod.symm.trans hclosing

/-- What is open under a number that is not given out now stays open, unless the number is closed. -/
theorem opened_iff (h : ResourceStep o o' e) (hn : e.method = .opening → n ≠ o.last + 1)
    (data : Bytes) :
    o'.opened.get? n = some data ↔
      ¬ (e.method = .closing ∧ e.args.long 0 = .ok n) ∧ o.opened.get? n = some data := by
  rcases h with ⟨rfl, -, hclosing⟩ | ⟨other, hmethod, -, rfl⟩ | ⟨k, hmethod, hargs, rfl⟩
  · refine ⟨fun hdata => ⟨?_, hdata⟩, And.right⟩
    rintro ⟨hmethod, hargs⟩
    exact nomatch (hclosing hmethod n hargs).symm.trans hdata
  · rw [OpenResources.add, Table.get?_insert, if_neg (hn hmethod), hmethod]
    exact (and_iff_right nofun).symm
  · rw [Table.get?_erase, hmethod, hargs]
    by_cases hk : n = k
    · subst hk
      simp
    · have hother : ¬ k = n := fun h => hk h.symm
      simp [hk, hother]

end ResourceStep

/-! ## What a run does -/

namespace ResourceRun

variable {m m' : Machine} {events : List ResourceEvent} {n : Int64}

/-- The next number is one more, as long as there is one. -/
theorem toInt_succ (h0 : 0 ≤ n.toInt) (h : n.toInt + 1 < 2 ^ 63) : (n + 1).toInt = n.toInt + 1 := by
  rw [Int64.toInt_add]
  show (n.toInt + 1).bmod (2 ^ 64) = _
  exact Int.bmod_eq_of_le (by omega) (by omega)

/-- The last number goes up by what is opened. -/
theorem last_le (run : ResourceRun m events m') (h0 : 0 ≤ m.resources.last.toInt)
    (hfew : m.resources.last.toInt + openings events < 2 ^ 63) :
    m.resources.last.toInt ≤ m'.resources.last.toInt ∧
      m'.resources.last.toInt ≤ m.resources.last.toInt + openings events := by
  induction run with
  | refl => exact ⟨Int.le_refl _, by omega⟩
  | elsewhere run h ih =>
    rw [h]
    exact ih hfew
  | call run h ih =>
    rw [openings_append_singleton] at hfew ⊢
    obtain ⟨hle, hge⟩ := ih (by omega)
    rcases (resourceStep_of_call h).last_eq with h | ⟨hmethod, h⟩
    · rw [h]
      omega
    · rw [if_pos hmethod] at hfew ⊢
      rw [h, toInt_succ (by omega) (by omega)]
      omega

/-- No number that was given is beyond the last one. -/
theorem returned_le (run : ResourceRun m events m') (h0 : 0 ≤ m.resources.last.toInt)
    (hfew : m.resources.last.toInt + openings events < 2 ^ 63) (hn : Returned events n) :
    n.toInt ≤ m'.resources.last.toInt := by
  induction run with
  | refl =>
    obtain ⟨e, he, -⟩ := hn
    cases he
  | elsewhere run h ih =>
    rw [h]
    exact ih hfew hn
  | call run h ih =>
    have hlast := (run.call h).last_le h0 hfew
    rw [openings_append_singleton] at hfew
    obtain ⟨hle, hge⟩ := run.last_le h0 (by omega)
    have hstep := resourceStep_of_call h
    rcases returned_append_singleton.mp hn with hn | ⟨hmethod, hn⟩
    · have hbefore := ih (by omega) hn
      rcases hstep.last_eq with h | ⟨hmethod, h⟩
      · rwa [h]
      · rw [if_pos hmethod] at hfew
        rw [h, toInt_succ (by omega) (by omega)]
        omega
    · rcases hstep.number_eq hmethod hn with rfl | rfl
      · exact Int.le_trans h0 hlast.1
      · exact Int.le_refl _

/-- What is open under a number that was given stays open until the number is closed, and is gone from
then on. -/
theorem opened_iff (run : ResourceRun m events m') (h0 : 0 ≤ m.resources.last.toInt)
    (hfew : m.resources.last.toInt + openings events < 2 ^ 63)
    (hn : n.toInt ≤ m.resources.last.toInt) (data : Bytes) :
    m'.resources.opened.get? n = some data ↔
      ¬ Closes events n ∧ m.resources.opened.get? n = some data := by
  induction run with
  | refl =>
    have hnone : ¬ Closes [] n := by
      rintro ⟨e, he, -⟩
      cases he
    exact (and_iff_right hnone).symm
  | elsewhere run h ih =>
    rw [h]
    exact ih hfew
  | @call events m₁ m₂ _ _ _ _ _ method args _ run h ih =>
    have hstep := resourceStep_of_call h
    rw [openings_append_singleton] at hfew
    obtain ⟨hle, hge⟩ := run.last_le h0 (by omega)
    have hnew : method = .opening → n ≠ m₁.resources.last + 1 := by
      rintro hmethod rfl
      rw [if_pos hmethod] at hfew
      rw [toInt_succ (by omega) (by omega)] at hn
      omega
    rw [hstep.opened_iff hnew, ih (by omega), closes_append_singleton, not_or]
    tauto

/-- The next number is not zero, as long as there is one. -/
theorem next_ne_zero (run : ResourceRun m events m') (hfresh : m.resources = {})
    (hfew : openings events + 1 < 2 ^ 63) : m'.resources.last + 1 ≠ 0 := by
  have hzero : m.resources.last.toInt = 0 := by rw [hfresh]; rfl
  obtain ⟨hlast, hle⟩ := run.last_le (by omega) (by omega)
  have hnext := toInt_succ (n := m'.resources.last) (by omega) (by omega)
  intro h
  rw [h] at hnext
  have hnone : (0 : Int64).toInt = 0 := rfl
  omega

end ResourceRun

/-! ## What is read -/

open Builtin in
/-- How a read of many bytes ends.  It gives -1 from behind the end on and before the start, and is
refused where there is no room for the bytes. -/
inductive CopyOut (m : Machine) (data : Bytes) (position : Int32) (buffer : ObjectRef)
    (offset length : Int32) : Except Stop Value × Machine → Prop
  | ended (h : bytesToRead data position length < 0 ∨ position < 0) :
      CopyOut m data position buffer offset length (.ok (.int (-1)), m)
  | copied {target : Bytes} {count : Int32} {m' : Machine} (hposition : 0 ≤ position)
      (hcount : count.toInt = bytesToRead data position length ∧ 0 ≤ count.toInt)
      (hbuffer : m.HasBytes buffer target) (hoffset : 0 ≤ offset)
      (hfit : offset.toInt + count.toInt ≤ target.length)
      (hfilled : m.Filled m' buffer offset.toInt.toNat
        ((data.drop position.toInt.toNat).take count.toInt.toNat)) :
      CopyOut m data position buffer offset length (.ok (.int count), m')
  | noRoom {target : Bytes} (hposition : 0 ≤ position)
      (hcount : 0 ≤ bytesToRead data position length) (hbuffer : m.HasBytes buffer target)
      (hfit : ¬ (0 ≤ offset ∧ offset.toInt + bytesToRead data position length ≤ target.length)) :
      CopyOut m data position buffer offset length
        (.error (.thrown (.arrayIndexOutOfBounds offset.toInt target.length)), m)
  | noBytes {e : Stop} (hposition : 0 ≤ position) (hcount : 0 ≤ bytesToRead data position length)
      (hbuffer : ∀ target, ¬ m.HasBytes buffer target) :
      CopyOut m data position buffer offset length (.error e, m)

open Builtin in
/-- Every use of a number sees the bytes, and it can be closed. -/
structure Machine.Serves (m : Machine) (number : Int64) (data : Bytes) : Prop where
  read : ∀ args position, Arguments.long args 0 = .ok number → args.int 1 = .ok position →
    resourceRead args m =
      (.ok (.int (if position < 0 then -1 else reportAt data position.toInt.toNat)), m)
  readInto : ∀ args position buffer offset length, Arguments.long args 0 = .ok number →
    args.int 1 = .ok position → args.object 2 = .ok buffer → args.int 3 = .ok offset →
    args.int 4 = .ok length → CopyOut m data position buffer offset length (resourceReadInto args m)
  close : ∀ args, Arguments.long args 0 = .ok number → ∃ m', resourceClose args m = (.ok .null, m')

open Builtin in
/-- Every use of a number is an illegal argument, and changes nothing. -/
def Machine.Refuses (m : Machine) (number : Int64) : Prop :=
  ∀ args, Arguments.long args 0 = .ok number →
    ∀ f ∈ [resourceRead, resourceReadInto, resourceClose], ∃ t : Throwable,
      t.kind = .illegalArgument ∧ f args m = (.error (.thrown t), m)

section Uses

variable {m : Machine} {number : Int64} {data : Bytes} {position offset length : Int32}
  {buffer : ObjectRef} {args : Arguments}

open Builtin

theorem copyOut_resourceReadInto (h0 : args.long 0 = .ok number) (h1 : args.int 1 = .ok position)
    (h2 : args.object 2 = .ok buffer) (h3 : args.int 3 = .ok offset) (h4 : args.int 4 = .ok length)
    (hopen : m.resources.opened.get? number = some data) :
    CopyOut m data position buffer offset length (resourceReadInto args m) := by
  rw [run_resourceReadInto h0 h1 h2 h3 h4 hopen]
  split
  · next hended => exact .ended hended
  · next hgoes =>
    obtain ⟨hcount, hposition⟩ := not_or.mp hgoes
    have hcount : 0 ≤ bytesToRead data position length := Int.not_lt.mp hcount
    have hposition : 0 ≤ position := Int32.not_lt.mp hposition
    have hstart : 0 ≤ position.toInt := Int32.le_iff_toInt_le.mp hposition
    have hlength := length_take_bytesToRead hstart hcount
    by_cases hbuffer : ∃ target, m.HasBytes buffer target
    · obtain ⟨target, hbuffer⟩ := hbuffer
      by_cases hfit : 0 ≤ offset ∧
          offset.toInt + bytesToRead data position length ≤ target.length
      · have hzero : 0 ≤ offset.toInt := Int32.le_iff_toInt_le.mp hfit.1
        have hroom : offset.toInt.toNat + ((data.drop position.toInt.toNat).take
            (bytesToRead data position length).toNat).length ≤ target.length := by omega
        have hnumber := toInt_ofInt_bytesToRead hcount
        rw [Machine.writeBytes_eq hbuffer hfit.1 hroom]
        refine .copied hposition ⟨hnumber, by omega⟩ hbuffer hfit.1 (by omega) ?_
        rw [hnumber]
        exact Machine.filled_writeArray hbuffer hroom
      · have hroom : ¬ (0 ≤ offset ∧ offset.toInt.toNat + ((data.drop position.toInt.toNat).take
            (bytesToRead data position length).toNat).length ≤ target.length) := by
          rintro ⟨hoffset, hroom⟩
          have hzero : 0 ≤ offset.toInt := Int32.le_iff_toInt_le.mp hoffset
          exact hfit ⟨hoffset, by omega⟩
        rw [Machine.writeBytes_of_not_fit hbuffer hroom]
        exact .noRoom hposition hcount hbuffer hfit
    · rcases hwrite : writeBytes m buffer offset _ with e | m'
      · exact .noBytes hposition hcount (not_exists.mp hbuffer)
      · exact absurd (Machine.hasBytes_of_writeBytes hwrite) hbuffer

/-- A resource that is open is read at its number. -/
theorem serves_of_opened (hopen : m.resources.opened.get? number = some data) :
    m.Serves number data where
  read := fun _ _ hnumber hposition => run_resourceRead hnumber hposition hopen
  readInto := fun _ _ _ _ _ h0 h1 h2 h3 h4 => copyOut_resourceReadInto h0 h1 h2 h3 h4 hopen
  close := by
    intro args hnumber
    rw [run_resourceClose hnumber, hopen]
    exact ⟨_, rfl⟩

/-- A number under which nothing is open is refused. -/
theorem refuses_of_not_opened (hnone : m.resources.opened.get? number = none) :
    m.Refuses number := by
  intro args hnumber f hf
  refine ⟨OpenResources.unknown number, rfl, run_of_not_opened ?_ hnumber hnone⟩
  simpa using hf

end Uses

/-- **Numbers of open resources.**  After any run of the native methods on resources, with fewer than
2^63 openings in all, opening a path gives zero exactly when it leads nowhere.  Otherwise it gives a
number that was never given before.  Whatever is called after that, the number stands for the bytes that
were found, until it is closed.  From then on it is refused. -/
theorem resource_numbers {m₀ m : Machine} {before : List ResourceEvent} (hfresh : m₀.resources = {})
    (run : ResourceRun m₀ before m) (hfew : openings before + 1 < 2 ^ 63) {W : Type} {p : Platform W}
    {t : ThreadId} {w : W} {args : Arguments} {r : ObjectRef} {path : String}
    (hr : args.object 0 = .ok r) (hpath : m.stringValue r = .ok path) :
    ∃ n m', Builtin.resourceOpen p t args (m, w) = (.ok (.long n), (m', w)) ∧
      (n = 0 ↔ p.classPath.find? path = none) ∧ (n ≠ 0 → ¬ Returned before n) ∧
      ∀ data, p.classPath.find? path = some data → ∀ after m'', ResourceRun m' after m'' →
        openings before + 1 + openings after < 2 ^ 63 →
          (¬ Closes after n → m''.Serves n data) ∧ (Closes after n → m''.Refuses n) := by
  have hzero : m₀.resources.last.toInt = 0 := by rw [hfresh]; rfl
  obtain ⟨hlast, hle⟩ := run.last_le (by omega) (by omega)
  have hnext := ResourceRun.toInt_succ (n := m.resources.last) (by omega) (by omega)
  have hreturned : ∀ n, Returned before n → n.toInt ≤ m.resources.last.toInt :=
    fun n hn => run.returned_le (by omega) (by omega) hn
  have hopen := run_resourceOpen (p := p) (t := t) (w := w) hr hpath
  cases hfind : p.classPath.find? path with
  | none =>
    rw [hfind] at hopen
    exact ⟨0, m, hopen, iff_of_true rfl rfl, fun h => absurd rfl h, nofun⟩
  | some data =>
    rw [hfind] at hopen
    have hpositive := run.next_ne_zero hfresh hfew
    have hgiven : (m.resources.add data).1.opened.get? (m.resources.last + 1) = some data := by
      rw [OpenResources.add, Table.get?_insert, if_pos rfl]
    refine ⟨_, _, hopen, iff_of_false hpositive nofun, fun _ hn => ?_, ?_⟩
    · have hold := hreturned _ hn
      omega
    · rintro _ ⟨⟩ after m'' hafter hfew
      have hiff := hafter.opened_iff (n := m.resources.last + 1)
        (show 0 ≤ (m.resources.last + 1).toInt by omega)
        (show (m.resources.last + 1).toInt + openings after < 2 ^ 63 by omega) (Int.le_refl _)
      refine ⟨fun hopen => serves_of_opened ((hiff data).mpr ⟨hopen, hgiven⟩), fun hclosed => ?_⟩
      refine refuses_of_not_opened (Option.eq_none_iff_forall_ne_some.mpr fun other hother => ?_)
      exact ((hiff other).mp hother).1 hclosed

/-- A platform with two resources. -/
def libraryPlatform : Platform Unit where
  invoke := fun _ _ _ _ => pure .null
  start := fun _ w => (.refused, w)
  keep := fun _ _ _ => true
  classPath := ⟨[.memory ⟨[("a", [0x68, 0x69]), ("b", [0x6A])]⟩]⟩

/-- A machine with strings for the paths of both. -/
def libraryMachine : Machine := (Action.newString "b" (Action.newString "a" {}).2).2

/-- The machine after a call. -/
def ResourceMethod.after (method : ResourceMethod) (args : Arguments) (m : Machine) : Machine :=
  (method.native libraryPlatform (.ofNumber 1) args (m, ())).2.1

theorem ResourceRun.after {m₀ m : Machine} {events : List ResourceEvent}
    (run : ResourceRun m₀ events m) (method : ResourceMethod) (args : Arguments) :
    ResourceRun m₀ (events ++
      [⟨method, args, (method.native libraryPlatform (.ofNumber 1) args (m, ())).1⟩])
      (method.after args m) :=
  run.call rfl

/-- The machine after both resources were opened and the second one was closed. -/
def borrowedMachine : Machine :=
  ResourceMethod.closing.after [.long 2] (ResourceMethod.opening.after [.ref ⟨1⟩]
    (ResourceMethod.opening.after [.ref ⟨0⟩] libraryMachine))

/-- The number 2 is not given again.  Closing the number 1 does not touch the number 3. -/
theorem resource_numbers_borrowedMachine :
    ∃ m', Builtin.resourceOpen libraryPlatform (.ofNumber 1) [.ref ⟨0⟩] (borrowedMachine, ()) =
        (.ok (.long 3), (m', ())) ∧
      (ResourceMethod.closing.after [.long 1] m').Serves 3 [0x68, 0x69] ∧
      (ResourceMethod.closing.after [.long 3] m').Refuses 3 := by
  have hfirst : ResourceRun libraryMachine [] libraryMachine := .refl
  have hrun := ((hfirst.after .opening [.ref ⟨0⟩]).after .opening [.ref ⟨1⟩]).after .closing [.long 2]
  have hgiven : Arguments.object [.ref ⟨0⟩] 0 = .ok ⟨0⟩ := rfl
  have hpath : borrowedMachine.stringValue ⟨0⟩ = .ok "a" := rfl
  obtain ⟨n, m', hopen, -, -, hlater⟩ := resource_numbers (p := libraryPlatform)
    (t := .ofNumber 1) (w := ()) rfl hrun (by decide) hgiven hpath
  have hn : n = 3 := by
    have h := congrArg Prod.fst hopen
    exact (Value.long.inj (Except.ok.inj h)).symm
  subst hn
  have hserved := hlater [0x68, 0x69] (by rfl)
  have hfew : 2 + 1 + 0 < 2 ^ 63 := by decide
  refine ⟨m', hopen, (hserved _ _ (ResourceRun.refl.after .closing [.long 1]) hfew).1 ?_,
    (hserved _ _ (ResourceRun.refl.after .closing [.long 3]) hfew).2 ?_⟩
  · rintro ⟨e, he, -, hargs⟩
    obtain rfl := List.mem_singleton.mp he
    cases hargs
  · exact ⟨_, List.mem_singleton_self _, rfl, rfl⟩

end JavaMachine
