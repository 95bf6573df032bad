/-
# Handles

Objects, classes and threads are named by handles: small values that are compared and stored, and
that mean something only together with the heap, the class table or the thread table they index.
-/

namespace JavaMachine

/-- The name of an object: its position in the heap's arena. -/
structure ObjectRef where
  index : Nat
deriving DecidableEq, Repr

/-- The name of a class: its position in the class table. -/
structure ClassId where
  index : Nat
deriving DecidableEq, Repr

/-- The name of a thread: a 64-bit number other than zero, which is left to mean "no thread". -/
structure ThreadId where
  raw : UInt64
  raw_ne_zero : raw ≠ 0
deriving DecidableEq

namespace ThreadId

/-! ## Numbers and signed handles -/

/-- The thread numbered `raw`; zero stands for the first thread. -/
def ofNumber (raw : UInt64) : ThreadId :=
  if h : raw = 0 then ⟨1, by decide⟩ else ⟨raw, h⟩

/-- The thread that a signed 64-bit handle names: only a positive handle names one. -/
def ofHandle? (handle : Int64) : Option ThreadId :=
  if 0 < handle then some (ofNumber handle.toUInt64) else none

/-- The signed 64-bit handle of a thread. -/
def handle (t : ThreadId) : Int64 := t.raw.toInt64

/-- A number other than zero is kept. -/
theorem raw_ofNumber {raw : UInt64} (h : raw ≠ 0) : (ofNumber raw).raw = raw := by
  simp [ofNumber, h]

/-- Zero is read as one. -/
theorem raw_ofNumber_zero : (ofNumber 0).raw = 1 := rfl

/-- A handle that is zero or negative names no thread. -/
theorem ofHandle?_eq_none_iff (h : Int64) : ofHandle? h = none ↔ ¬ 0 < h := by
  simp [ofHandle?]

end ThreadId

end JavaMachine
