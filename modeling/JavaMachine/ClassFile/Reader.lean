/-
# Reading bytes

A reader takes a value off the front of a sequence of bytes and leaves the rest. Numbers are
big-endian. A reader that needs more bytes than there are fails with `unexpectedEnd`.
-/
import JavaMachine.ClassFile.Basic

namespace JavaMachine

/-- A reader of class-file bytes. -/
abbrev Reader := StateT Bytes (Except ClassFileError)

/-- The first `n` items of a list and the rest, if there are that many. -/
def takeExactly? {α : Type} : Nat → List α → Option (List α × List α)
  | 0, l => some ([], l)
  | _ + 1, [] => none
  | n + 1, a :: l => (takeExactly? n l).map fun (front, rest) => (a :: front, rest)

/-- Taking `n` items splits the list behind its first `n` items. -/
theorem takeExactly?_eq_some_iff {α : Type} {n : Nat} {l front rest : List α} :
    takeExactly? n l = some (front, rest) ↔ front.length = n ∧ l = front ++ rest := by
  induction n generalizing l front with
  | zero =>
    cases front with
    | nil => simp [takeExactly?, eq_comm]
    | cons a front => simp [takeExactly?]
  | succ n ih =>
    cases l with
    | nil => cases front <;> simp [takeExactly?]
    | cons a l =>
      cases front with
      | nil => simp [takeExactly?]
      | cons b front =>
        simp only [takeExactly?, Option.map_eq_some_iff, Prod.exists, Prod.mk.injEq,
          List.cons.injEq, List.length_cons, Nat.add_right_cancel_iff, List.cons_append]
        constructor
        · rintro ⟨f, r, hr, ⟨rfl, rfl⟩, rfl⟩
          exact ⟨(ih.1 hr).1, rfl, (ih.1 hr).2⟩
        · rintro ⟨hn, rfl, hl⟩
          exact ⟨front, rest, ih.2 ⟨hn, hl⟩, ⟨rfl, rfl⟩, rfl⟩

namespace Reader

/-- The next `n` bytes. -/
def bytes (n : Nat) : Reader Bytes := fun input =>
  match takeExactly? n input with
  | some split => .ok split
  | none => .error .unexpectedEnd

/-- The number that some bytes spell, the highest byte first. -/
def bigEndian (bs : Bytes) : Nat := bs.foldl (fun n b => n * 256 + b.toNat) 0

/-- The next `n` bytes as a number. -/
def number (n : Nat) : Reader Nat := do return bigEndian (← bytes n)

def u1 : Reader UInt8 := do return UInt8.ofNat (← number 1)

def u2 : Reader UInt16 := do return UInt16.ofNat (← number 2)

def u4 : Reader UInt32 := do return UInt32.ofNat (← number 4)

def u8 : Reader UInt64 := do return UInt64.ofNat (← number 8)

/-- `n` values, one after the other. -/
def times {α : Type} (item : Reader α) : Nat → Reader (List α)
  | 0 => return []
  | n + 1 => do
    let a ← item
    let rest ← times item n
    return a :: rest

/-- A table: a two-byte count and that many values. -/
def table {α : Type} (item : Reader α) : Reader (List α) := do
  times item (← u2).toNat

/-- The result of a reader on bytes of its own, and what the reader left of them. -/
def within {α : Type} (r : Reader α) (input : Bytes) : Reader (α × Bytes) :=
  StateT.lift (r.run input)

end Reader

end JavaMachine
