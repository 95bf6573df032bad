/-
# Two ways to read a resource

An open resource is read one byte at a time, or many bytes at once into a byte array.  The bytes that
come into the array are those that reading them one by one reports, and nothing else changes
(`Machine.Filled`).  The two ways differ in where a resource ends.  Reading a byte gives -1 from the
position behind the last byte on.  Reading into an array gives -1 only beyond that position; at it,
there are zero bytes to copy, and zero is what it gives (`resource_reads_agree_iff`).
-/
import JavaMachine.Proofs.ArrayCopies
import JavaMachine.Proofs.Operations

namespace JavaMachine

/-! ## Bytes of arrays -/

namespace Machine

variable {m m' : Machine} {r : ObjectRef} {data target bytes : Bytes}

/-- The byte of a byte array at an index. -/
def byteAt? (m : Machine) (r : ObjectRef) (i : Nat) : Option UInt8 :=
  match (m.heap.get? r).map Object.body with
  | some (.array (.primitive .byte data)) => data[i]?
  | _ => none

/-- The object is a byte array that holds these bytes. -/
def HasBytes (m : Machine) (r : ObjectRef) (data : Bytes) : Prop :=
  ∃ o, m.heap.get? r = some o ∧ o.body = .array (.primitive .byte data)

/-- The bytes of a buffer are read one by one. -/
theorem HasBytes.byteAt? (h : m.HasBytes r data) (i : Nat) : m.byteAt? r i = data[i]? := by
  obtain ⟨o, ho, hbody⟩ := h
  rw [Machine.byteAt?, ho, Option.map_some, hbody]

/-- Bytes were written into a byte array from an index on: it has them there, its own ones elsewhere,
and all else is as it was. -/
structure Filled (m m' : Machine) (r : ObjectRef) (start : Nat) (bytes : Bytes) : Prop where
  inside : ∀ i < bytes.length, m'.byteAt? r (start + i) = bytes[i]?
  outside : ∀ i, ¬ (start ≤ i ∧ i < start + bytes.length) → m'.byteAt? r i = m.byteAt? r i
  header : (m'.heap.get? r).map (fun o => (o.owner, o.hash)) =
    (m.heap.get? r).map fun o => (o.owner, o.hash)
  others : ∀ q, q ≠ r → m'.heap.get? q = m.heap.get? q
  elsewhere : m' = { m with heap := { m.heap with slots := m'.heap.slots } }

variable {offset : Int32}

/-- Bytes that fit into a byte array are written over a part of it. -/
theorem writeBytes_eq (h : m.HasBytes r target) (hoffset : 0 ≤ offset)
    (hfit : offset.toInt.toNat + bytes.length ≤ target.length) :
    Builtin.writeBytes m r offset bytes =
      .ok (m.writeArray r (.primitive .byte
        (ArrayBody.overwrite target offset.toInt.toNat bytes))) := by
  obtain ⟨o, ho, hbody⟩ := h
  unfold Builtin.writeBytes
  rw [Action.byteArray_eq ho hbody]
  simp only [bind, Except.bind]
  rw [if_pos ⟨hoffset, hfit⟩]
  rfl

/-- Bytes that do not fit are refused. -/
theorem writeBytes_of_not_fit (h : m.HasBytes r target)
    (hfit : ¬ (0 ≤ offset ∧ offset.toInt.toNat + bytes.length ≤ target.length)) :
    Builtin.writeBytes m r offset bytes =
      .error (.thrown (.arrayIndexOutOfBounds offset.toInt target.length)) := by
  obtain ⟨o, ho, hbody⟩ := h
  unfold Builtin.writeBytes
  rw [Action.byteArray_eq ho hbody]
  simp only [bind, Except.bind]
  rw [if_neg hfit]
  rfl

/-- Bytes are written into byte arrays alone. -/
theorem hasBytes_of_writeBytes (h : Builtin.writeBytes m r offset bytes = .ok m') :
    ∃ target, m.HasBytes r target := by
  obtain ⟨a, data, ha, hshape, -⟩ := Action.writeBytes_eq_ok h
  obtain ⟨o, ho, hbody⟩ := arrayBody_eq_ok ha
  cases a with
  | primitive p target =>
    obtain ⟨rfl, -⟩ := hshape
    exact ⟨target, o, ho, hbody⟩
  | references slots => exact hshape.elim

/-- A buffer has the bytes that it was given last. -/
theorem hasBytes_writeArray (h : m.HasBytes r target) (bytes : Bytes) :
    (m.writeArray r (.primitive .byte bytes)).HasBytes r bytes := by
  obtain ⟨o, ho, -⟩ := h
  refine ⟨{ o with body := .array (.primitive .byte bytes) }, ?_, rfl⟩
  rw [get?_writeArray, Heap.get?_updateBody, if_pos rfl, ho]
  rfl

/-- Bytes that fit are written where they belong, and all others stay. -/
theorem filled_writeArray (h : m.HasBytes r target) {start : Nat}
    (hfit : start + bytes.length ≤ target.length) :
    m.Filled (m.writeArray r (.primitive .byte (ArrayBody.overwrite target start bytes))) r start
      bytes := by
  have hwritten := hasBytes_writeArray h (ArrayBody.overwrite target start bytes)
  have hstart : start ≤ target.length := by omega
  have hget : ∀ i, (ArrayBody.overwrite target start bytes)[i]? =
      if start ≤ i ∧ i < start + bytes.length then bytes[i - start]? else target[i]? :=
    ArrayBody.getElem?_overwrite hstart
  exact {
    inside := by
      intro i hi
      rw [hwritten.byteAt?, hget, if_pos ⟨by omega, by omega⟩, Nat.add_sub_cancel_left]
    outside := by
      intro i hi
      rw [hwritten.byteAt?, hget, if_neg hi, h.byteAt?]
    header := by
      obtain ⟨o, ho, -⟩ := h
      rw [get?_writeArray, Heap.get?_updateBody, if_pos rfl, ho]
      rfl
    others := by
      intro q hq
      rw [get?_writeArray, Heap.get?_updateBody, if_neg hq]
    elsewhere := rfl }

/-- Where no bytes are written, nothing changes. -/
theorem writeBytes_nil (h : m.HasBytes r target) (hoffset : 0 ≤ offset)
    (hfit : offset.toInt.toNat ≤ target.length) : Builtin.writeBytes m r offset [] = .ok m := by
  have hsame : ArrayBody.overwrite target offset.toInt.toNat [] = target := by
    simp [ArrayBody.overwrite]
  rw [writeBytes_eq h hoffset (by simpa using hfit), hsame]
  obtain ⟨o, ho, hbody⟩ := h
  have hself := Heap.updateBody_self ho
  rw [hbody] at hself
  show Except.ok { m with heap := m.heap.updateBody r fun _ => _ } = _
  rw [hself]

end Machine

/-! ## Reading -/

namespace Builtin

variable {m m' : Machine} {number : Int64} {data target : Bytes} {position offset length : Int32}
  {buffer : ObjectRef}

/-- Reads the byte of a resource at a position. -/
def readByte (number : Int64) (position : Int32) : Action Value :=
  resourceRead [.long number, .int position]

/-- Reads bytes of a resource, from a position on, into a byte array. -/
def readBytes (number : Int64) (position : Int32) (buffer : ObjectRef) (offset length : Int32) :
    Action Value :=
  resourceReadInto [.long number, .int position, .ref buffer, .int offset, .int length]

/-- What a read of a byte reports at a position: the byte, or -1. -/
def reportAt (data : Bytes) (position : Nat) : Int32 :=
  (data[position]?).elim (-1) fun b => b.toUInt32.toInt32

/-- A byte that is there is reported as a number from 0 to 255. -/
theorem reportAt_of_some {i : Nat} {b : UInt8} (h : data[i]? = some b) :
    reportAt data i = b.toUInt32.toInt32 := by
  rw [reportAt, h, Option.elim_some]

/-- A byte is reported as a number from 0 on, so that -1 stands for the end alone. -/
theorem reportAt_eq_neg_one_iff {i : Nat} : reportAt data i = -1 ↔ data.length ≤ i := by
  have hbyte : ∀ b : UInt8, b.toUInt32.toInt32 ≠ -1 := by
    intro b h
    have hnat : b.toNat = 4294967295 := congrArg (fun v => v.toUInt32.toNat) h
    have hlt := b.toNat_lt
    omega
  rw [← List.getElem?_eq_none_iff]
  cases h : data[i]? with
  | none => simp [reportAt, h]
  | some b => simp [reportAt_of_some h, hbyte b]

theorem run_resourceRead {args : Arguments} (hnumber : args.long 0 = .ok number)
    (hint : args.int 1 = .ok position) (hopen : m.resources.opened.get? number = some data) :
    resourceRead args m =
      (.ok (.int (if position < 0 then -1 else reportAt data position.toInt.toNat)), m) := by
  have hget : m.resources.get number = .ok data := by rw [OpenResources.get, hopen]
  unfold resourceRead
  rw [Action.run_liftThrowable_bind_of_ok hnumber, Action.run_get_bind,
    Action.run_liftThrowable_bind_of_ok hget, Action.run_liftThrowable_bind_of_ok hint]
  by_cases hposition : position < 0
  · rw [if_pos hposition, if_pos hposition]
    rfl
  · rw [if_neg hposition, if_neg hposition, reportAt]
    cases data[position.toInt.toNat]? <;> rfl

/-- Reading one byte at a position that is not negative. -/
theorem run_readByte (hopen : m.resources.opened.get? number = some data)
    (hposition : 0 ≤ position) :
    readByte number position m = (.ok (.int (reportAt data position.toInt.toNat)), m) := by
  unfold readByte
  rw [run_resourceRead rfl rfl hopen, if_neg (Int32.not_lt.mpr hposition)]

/-- How many bytes a read into an array has to copy; less than zero beyond the end. -/
def bytesToRead (data : Bytes) (position length : Int32) : Int :=
  min length.toInt (data.length - position.toInt)

theorem toInt_ofInt_bytesToRead (h : 0 ≤ bytesToRead data position length) :
    (Int32.ofInt (bytesToRead data position length)).toInt = bytesToRead data position length := by
  have hbound := length.toInt_lt
  have hle : bytesToRead data position length ≤ length.toInt := Int.min_le_left ..
  exact Int32.toInt_ofInt_of_le (by omega) (by omega)

/-- There are as many bytes as there are to copy. -/
theorem length_take_bytesToRead (hposition : 0 ≤ position.toInt)
    (h : 0 ≤ bytesToRead data position length) :
    (((data.drop position.toInt.toNat).take (bytesToRead data position length).toNat).length : Int) =
      bytesToRead data position length := by
  have hle : bytesToRead data position length ≤ data.length - position.toInt := Int.min_le_right ..
  rw [List.length_take, List.length_drop]
  omega

theorem run_resourceReadInto {args : Arguments} (h0 : args.long 0 = .ok number)
    (h1 : args.int 1 = .ok position) (h2 : args.object 2 = .ok buffer)
    (h3 : args.int 3 = .ok offset) (h4 : args.int 4 = .ok length)
    (hopen : m.resources.opened.get? number = some data) :
    resourceReadInto args m =
      if bytesToRead data position length < 0 ∨ position < 0 then (.ok (.int (-1)), m)
      else
        match writeBytes m buffer offset
          ((data.drop position.toInt.toNat).take (bytesToRead data position length).toNat) with
        | .ok m' => (.ok (.int (Int32.ofInt (bytesToRead data position length))), m')
        | .error e => (.error e, m) := by
  have hget : m.resources.get number = .ok data := by rw [OpenResources.get, hopen]
  unfold resourceReadInto
  rw [Action.run_liftThrowable_bind_of_ok h0, Action.run_get_bind,
    Action.run_liftThrowable_bind_of_ok hget, Action.run_liftThrowable_bind_of_ok h1,
    Action.run_liftThrowable_bind_of_ok h2, Action.run_liftThrowable_bind_of_ok h3,
    Action.run_liftThrowable_bind_of_ok h4, ← bytesToRead]
  by_cases hended : bytesToRead data position length < 0 ∨ position < 0
  · rw [if_pos hended, if_pos hended]
    rfl
  · rw [if_neg hended, if_neg hended, run_bind, Action.updating]
    cases writeBytes m buffer offset _ <;> rfl

theorem run_readBytes (hopen : m.resources.opened.get? number = some data)
    (hposition : 0 ≤ position) :
    readBytes number position buffer offset length m =
      if bytesToRead data position length < 0 then (.ok (.int (-1)), m)
      else
        match writeBytes m buffer offset
          ((data.drop position.toInt.toNat).take (bytesToRead data position length).toNat) with
        | .ok m' => (.ok (.int (Int32.ofInt (bytesToRead data position length))), m')
        | .error e => (.error e, m) := by
  unfold readBytes
  rw [run_resourceReadInto rfl rfl rfl rfl rfl hopen]
  simp only [Int32.not_lt.mpr hposition, or_false]

/-- The end is reported from the length on. -/
theorem readByte_ends_iff (hopen : m.resources.opened.get? number = some data)
    (hposition : 0 ≤ position) :
    (readByte number position m).1 = .ok (.int (-1)) ↔ (data.length : Int) ≤ position.toInt := by
  have hstart : 0 ≤ position.toInt := Int32.le_iff_toInt_le.mp hposition
  rw [run_readByte hopen hposition, Except.ok.injEq, Value.int.injEq, reportAt_eq_neg_one_iff]
  omega

/-- A read into an array beyond the end of a resource gives -1. -/
theorem run_readBytes_beyond (hopen : m.resources.opened.get? number = some data)
    (hposition : 0 ≤ position) (hbeyond : (data.length : Int) < position.toInt) :
    readBytes number position buffer offset length m = (.ok (.int (-1)), m) := by
  rw [run_readBytes hopen hposition, if_pos (by unfold bytesToRead; omega)]

/-- A read into an array at the end of a resource copies nothing, and gives zero. -/
theorem run_readBytes_at_end (hopen : m.resources.opened.get? number = some data)
    (hposition : 0 ≤ position) (hbuffer : m.HasBytes buffer target) (hoffset : 0 ≤ offset)
    (hlength : 0 < length.toInt) (hfit : offset.toInt + length.toInt ≤ target.length)
    (hend : position.toInt = data.length) :
    readBytes number position buffer offset length m = (.ok (.int 0), m) := by
  have hzero : 0 ≤ offset.toInt := Int32.le_iff_toInt_le.mp hoffset
  have hcount : bytesToRead data position length = 0 := by
    unfold bytesToRead
    omega
  rw [run_readBytes hopen hposition, hcount, if_neg (by decide), Int.toNat_zero, List.take_zero,
    Machine.writeBytes_nil hbuffer hoffset (by omega)]
  rfl

/-- A read into an array before the end of a resource copies as many bytes as there are, at most as
many as were asked for. -/
theorem run_readBytes_before_end (hopen : m.resources.opened.get? number = some data)
    (hposition : 0 ≤ position) (hbuffer : m.HasBytes buffer target) (hoffset : 0 ≤ offset)
    (hlength : 0 < length.toInt) (hfit : offset.toInt + length.toInt ≤ target.length)
    (hbefore : position.toInt < data.length) :
    ∃ (count : Int32) (m' : Machine) (bytes : Bytes),
      readBytes number position buffer offset length m = (.ok (.int count), m') ∧
      count.toInt = min length.toInt (data.length - position.toInt) ∧
      bytes = (data.drop position.toInt.toNat).take count.toInt.toNat ∧
      m.Filled m' buffer offset.toInt.toNat bytes := by
  have hstart : 0 ≤ position.toInt := Int32.le_iff_toInt_le.mp hposition
  have hpositive : ¬ bytesToRead data position length < 0 := by
    unfold bytesToRead
    omega
  have hcount := toInt_ofInt_bytesToRead (Int.not_lt.mp hpositive)
  have hfits : offset.toInt.toNat + ((data.drop position.toInt.toNat).take
      (bytesToRead data position length).toNat).length ≤ target.length := by
    have hzero : 0 ≤ offset.toInt := Int32.le_iff_toInt_le.mp hoffset
    have hlen := length_take_bytesToRead hstart (Int.not_lt.mp hpositive)
    have hle : bytesToRead data position length ≤ length.toInt := Int.min_le_left ..
    omega
  refine ⟨Int32.ofInt (bytesToRead data position length),
    m.writeArray buffer (.primitive .byte (ArrayBody.overwrite target offset.toInt.toNat
      ((data.drop position.toInt.toNat).take (bytesToRead data position length).toNat))),
    _, ?_, hcount, rfl, ?_⟩
  · rw [run_readBytes hopen hposition, if_neg hpositive, Machine.writeBytes_eq hbuffer hoffset hfits]
  · rw [hcount]
    exact Machine.filled_writeArray hbuffer hfits

theorem readBytes_ends_iff (hopen : m.resources.opened.get? number = some data)
    (hposition : 0 ≤ position) (hbuffer : m.HasBytes buffer target) (hoffset : 0 ≤ offset)
    (hlength : 0 < length.toInt) (hfit : offset.toInt + length.toInt ≤ target.length) :
    (readBytes number position buffer offset length m).1 = .ok (.int (-1)) ↔
      (data.length : Int) < position.toInt := by
  rcases Int.lt_trichotomy position.toInt data.length with hlt | heq | hgt
  · -- a count is positive before the end
    obtain ⟨count, m', bytes, hrun, hcount, -⟩ :=
      run_readBytes_before_end hopen hposition hbuffer hoffset hlength hfit hlt
    have hne : count ≠ -1 := by
      rintro rfl
      have hminus : (-1 : Int32).toInt = -1 := rfl
      omega
    rw [hrun]
    simp only [Except.ok.injEq, Value.int.injEq]
    exact iff_of_false hne (by omega)
  · rw [run_readBytes_at_end hopen hposition hbuffer hoffset hlength hfit heq]
    exact iff_of_false (by simp) (by omega)
  · rw [run_readBytes_beyond hopen hposition hgt]
    exact iff_of_true rfl hgt

end Builtin

open Builtin in
/-- Bytes that come into an array are those that reading byte by byte reports; the two ways to read
tell the end of a resource alike but at the position right behind the last byte. -/
theorem resource_reads_agree_iff {m : Machine} {number : Int64} {data target : Bytes}
    {position offset length : Int32} {buffer : ObjectRef}
    (hopen : m.resources.opened.get? number = some data) (hposition : 0 ≤ position)
    (hbuffer : m.HasBytes buffer target) (hoffset : 0 ≤ offset) (hlength : 0 < length)
    (hfit : offset.toInt + length.toInt ≤ target.length) :
    (((readBytes number position buffer offset length m).1 = .ok (.int (-1)) ↔
        (readByte number position m).1 = .ok (.int (-1))) ↔
      position.toInt ≠ data.length) ∧
    (position.toInt = data.length →
      readByte number position m = (.ok (.int (-1)), m) ∧
      readBytes number position buffer offset length m = (.ok (.int 0), m)) ∧
    (data.length < position.toInt →
      readByte number position m = (.ok (.int (-1)), m) ∧
      readBytes number position buffer offset length m = (.ok (.int (-1)), m)) ∧
    (position.toInt < data.length →
      ∃ (count : Int32) (m' : Machine) (bytes : Bytes),
        readBytes number position buffer offset length m = (.ok (.int count), m') ∧
        count.toInt = min length.toInt (data.length - position.toInt) ∧
        (bytes.length : Int) = count.toInt ∧
        m.Filled m' buffer offset.toInt.toNat bytes ∧
        ∀ (i : Nat) (b : UInt8), bytes[i]? = some b → ∀ p : Int32, p.toInt = position.toInt + i →
          readByte number p m = (.ok (.int b.toUInt32.toInt32), m) ∧
          readByte number p m' = (.ok (.int b.toUInt32.toInt32), m')) := by
  have hlength' : 0 < length.toInt := Int32.lt_iff_toInt_lt.mp hlength
  have hstart : 0 ≤ position.toInt := Int32.le_iff_toInt_le.mp hposition
  have hpast : (data.length : Int) ≤ position.toInt →
      readByte number position m = (.ok (.int (-1)), m) := by
    intro h
    rw [run_readByte hopen hposition, reportAt_eq_neg_one_iff.mpr (by omega)]
  refine ⟨?_, fun h => ⟨hpast (by omega), ?_⟩,
    fun h => ⟨hpast (by omega), run_readBytes_beyond hopen hposition h⟩, fun h => ?_⟩
  · rw [readByte_ends_iff hopen hposition,
      readBytes_ends_iff hopen hposition hbuffer hoffset hlength' hfit]
    omega
  · exact run_readBytes_at_end hopen hposition hbuffer hoffset hlength' hfit h
  · obtain ⟨count, m', bytes, hrun, hcount, rfl, hfilled⟩ :=
      run_readBytes_before_end hopen hposition hbuffer hoffset hlength' hfit h
    refine ⟨count, m', _, hrun, hcount, ?_, hfilled, ?_⟩
    · rw [List.length_take, List.length_drop]
      omega
    · intro i b hb p hp
      have hsome : data[p.toInt.toNat]? = some b := by
        obtain ⟨hi, -⟩ := List.getElem?_eq_some_iff.mp hb
        rw [List.length_take] at hi
        rw [List.getElem?_take_of_lt (by omega), List.getElem?_drop] at hb
        rw [← hb]
        congr 1
        omega
      have hp0 : 0 ≤ p := by
        rw [Int32.le_iff_toInt_le, hp]
        exact Int.add_nonneg hstart (Int.natCast_nonneg i)
      have hopen' : m'.resources.opened.get? number = some data := by
        rw [hfilled.elsewhere]
        exact hopen
      rw [run_readByte hopen hp0, run_readByte hopen' hp0, reportAt_of_some hsome]
      exact ⟨rfl, rfl⟩

/-- A machine with an array of four bytes and an open resource of two. -/
def streamMachine : Machine :=
  { ((Operation.newArray (.ofPrimitive .byte) 4).run {} {}).2 with
    resources := (({} : OpenResources).add [0x68, 0x69]).1 }

theorem opened_streamMachine : streamMachine.resources.opened.get? 1 = some [0x68, 0x69] := by
  decide +kernel

theorem hasBytes_streamMachine : streamMachine.HasBytes ⟨0⟩ [0, 0, 0, 0] :=
  Option.map_eq_some_iff.mp (show (streamMachine.heap.get? ⟨0⟩).map Object.body =
    some (.array (.primitive .byte [0, 0, 0, 0])) by decide +kernel)

open Builtin in
/-- Behind the last byte, the one way to read reports the end and the other does not. -/
theorem end_reported_as_zero :
    streamMachine.resources.opened.get? 1 = some [0x68, 0x69] ∧
      streamMachine.HasBytes ⟨0⟩ [0, 0, 0, 0] ∧
      readByte 1 2 streamMachine = (.ok (.int (-1)), streamMachine) ∧
      readBytes 1 2 ⟨0⟩ 0 4 streamMachine = (.ok (.int 0), streamMachine) :=
  ⟨opened_streamMachine, hasBytes_streamMachine, run_readByte opened_streamMachine (by decide),
    run_readBytes_at_end opened_streamMachine (by decide) hasBytes_streamMachine (by decide)
      (by decide) (by decide) (by decide)⟩

open Builtin in
/-- From the second byte on there is one byte to read; it comes to the index it is wanted at. -/
theorem resource_reads_agree_iff_streamMachine :
    ∃ m', readBytes 1 1 ⟨0⟩ 2 2 streamMachine = (.ok (.int 1), m') ∧
      m'.byteAt? ⟨0⟩ 2 = some 0x69 ∧ m'.byteAt? ⟨0⟩ 3 = some 0 ∧
      readByte 1 1 m' = (.ok (.int 0x69), m') := by
  obtain ⟨-, -, -, hbefore⟩ := resource_reads_agree_iff opened_streamMachine
    (show (0 : Int32) ≤ 1 by decide) hasBytes_streamMachine (show (0 : Int32) ≤ 2 by decide)
    (show (0 : Int32) < 2 by decide) (by decide)
  obtain ⟨count, m', bytes, hrun, hcount, hlength, hfilled, hreports⟩ := hbefore (by decide)
  obtain rfl : count = 1 := Int32.toInt_inj.mp hcount
  obtain ⟨b, rfl⟩ := List.length_eq_one_iff.mp (Int.ofNat.inj hlength)
  have hread := hreports 0 b rfl 1 rfl
  have hb : b = 0x69 := by
    have hfirst := run_readByte opened_streamMachine (show (0 : Int32) ≤ 1 by decide)
    have hreport : b.toUInt32.toInt32 = 0x69 :=
      Value.int.inj (Except.ok.inj (congrArg Prod.fst (hread.1.symm.trans hfirst)))
    have hunit : b.toUInt32 = 0x69 := congrArg Int32.toUInt32 hreport
    rw [← UInt8.toUInt8_toUInt32 b, hunit]
    rfl
  subst hb
  exact ⟨m', hrun, hfilled.inside 0 (by decide),
    (hfilled.outside 3 (by decide)).trans (hasBytes_streamMachine.byteAt? 3), hread.2⟩

end JavaMachine
