/-
# What readers take off their input

A reader takes the bytes of a value off the front of its input (`Reader.Reads`).  A reader is
delimiting (`Reader.Delimiting`) when what it takes settles where it ends: it takes the same bytes for
the same value whatever stands behind them, and a piece of them that is cut off anywhere is an
unexpected end.  Both notions are closed under everything that readers are put together with.

A reader never looks behind the end of its input, so two readers that agree on short inputs go on
agreeing in whatever is put together from them (`Reader.AgreeUpTo`).
-/
import JavaMachine.ClassFile.Parser
import JavaMachine.Proofs.ClassTable
import Mathlib.Algebra.Group.Nat.Defs
import Mathlib.Data.List.Induction

namespace JavaMachine

namespace Reader

variable {α β : Type} {r r' : Reader α} {f f' : α → Reader β} {x : α} {y : β}
  {input rest front back : Bytes}

/-! ## Chains of readers -/

/-- A reader that gives a result is followed by what uses it. -/
theorem run_bind_of_ok (h : r input = .ok (x, rest)) : (r >>= f) input = f x rest := by
  show (r input >>= fun p => f p.1 p.2) = _
  rw [h]
  rfl

/-- A reader that fails is followed by nothing. -/
theorem run_bind_of_error {e : ClassFileError} (h : r input = .error e) :
    (r >>= f) input = .error e := by
  show (r input >>= fun p => f p.1 p.2) = _
  rw [h]
  rfl

/-- A chain of two readers gives a result when both do, the second one on what the first one leaves.
-/
theorem run_bind_eq_ok :
    (r >>= f) input = .ok (y, rest) ↔ ∃ x mid, r input = .ok (x, mid) ∧ f x mid = .ok (y, rest) := by
  constructor
  · intro h
    obtain ⟨⟨x, mid⟩, hx, hy⟩ := bind_eq_ok.mp h
    exact ⟨x, mid, hx, hy⟩
  · rintro ⟨x, mid, hx, hy⟩
    rw [run_bind_of_ok hx, hy]

/-- Chains do the same where the first readers do and what follows does on what they leave. -/
theorem run_bind_congr (hr : r input = r' input)
    (hf : ∀ x mid, r input = .ok (x, mid) → f x mid = f' x mid) :
    (r >>= f) input = (r' >>= f') input := by
  cases hrun : r input with
  | error e => rw [run_bind_of_error hrun, run_bind_of_error (hr.symm.trans hrun)]
  | ok p =>
    obtain ⟨x, mid⟩ := p
    rw [run_bind_of_ok hrun, run_bind_of_ok (hr.symm.trans hrun), hf x mid hrun]

/-! ## Taking a value off the front -/

/-- The reader takes just these bytes off the front, for this value. -/
def Reads (r : Reader α) (front : Bytes) (x : α) : Prop :=
  ∀ rest, r (front ++ rest) = .ok (x, rest)

/-- A result without bytes is read off anything. -/
theorem reads_pure (x : α) : Reads (pure x) [] x := fun _ => rfl

/-- A chain of readers takes the bytes of the first one and then those of the second one. -/
theorem Reads.bind (hr : Reads r front x) (hf : Reads (f x) back y) :
    Reads (r >>= f) (front ++ back) y := by
  intro rest
  rw [List.append_assoc, run_bind_of_ok (hr _), hf]

/-- What follows and takes nothing leaves the bytes as they are. -/
theorem Reads.bind_nil (hr : Reads r front x) (hf : Reads (f x) [] y) : Reads (r >>= f) front y := by
  have h := hr.bind hf
  rw [List.append_nil] at h
  exact h

/-- A reader whose result is only wrapped takes the same bytes. -/
theorem Reads.map (hr : Reads r front x) (g : α → β) : Reads (g <$> r) front (g x) :=
  hr.bind_nil (f := fun x => pure (g x)) (reads_pure (g x))

/-- What is read from bytes of their own is taken off no input. -/
theorem reads_lift {a : Except ClassFileError α} (h : a = .ok x) :
    Reads (StateT.lift a : Reader α) [] x := by
  intro rest
  rw [h]
  rfl

/-- Taking `n` bytes splits the input behind its first `n` bytes. -/
theorem bytes_eq_ok_iff {n : Nat} {bs : Bytes} :
    bytes n input = .ok (bs, rest) ↔ bs.length = n ∧ input = bs ++ rest := by
  rw [← takeExactly?_eq_some_iff]
  unfold bytes
  cases takeExactly? n input with
  | none => simp
  | some split => simp

/-- Plain bytes stand for themselves. -/
theorem reads_bytes (bs : Bytes) : Reads (bytes bs.length) bs bs :=
  fun _ => bytes_eq_ok_iff.mpr ⟨rfl, rfl⟩

/-- Values one after the other are taken with the bytes of each. -/
theorem reads_times (pieces : List (α × Bytes)) (h : ∀ p ∈ pieces, Reads r p.2 p.1) :
    Reads (times r pieces.length) (pieces.flatMap Prod.snd) (pieces.map Prod.fst) := by
  induction pieces with
  | nil => exact reads_pure []
  | cons p pieces ih =>
    obtain ⟨hp, hpieces⟩ := List.forall_mem_cons.mp h
    have hrest : Reads (do let xs ← times r pieces.length; return p.1 :: xs)
        (pieces.flatMap Prod.snd) (p.1 :: pieces.map Prod.fst) := (ih hpieces).map (p.1 :: ·)
    exact hp.bind hrest

/-! ## Numbers -/

/-- A number as `width` bytes, the highest first. -/
def bigEndianBytes : (width : Nat) → Nat → Bytes
  | 0, _ => []
  | width + 1, n => bigEndianBytes width (n / 256) ++ [UInt8.ofNat n]

theorem length_bigEndianBytes (width n : Nat) : (bigEndianBytes width n).length = width := by
  induction width generalizing n with
  | zero => rfl
  | succ width ih => simp [bigEndianBytes, ih]

/-- As many bytes as a number needs spell that number. -/
theorem bigEndian_bigEndianBytes {width n : Nat} (hn : n < 256 ^ width) :
    bigEndian (bigEndianBytes width n) = n := by
  induction width generalizing n with
  | zero =>
    have hzero : n = 0 := by simpa using hn
    simp [bigEndianBytes, bigEndian, hzero]
  | succ width ih =>
    have hhigh : n / 256 < 256 ^ width := by
      rw [Nat.pow_succ] at hn
      exact Nat.div_lt_of_lt_mul (by omega)
    have hsplit := ih hhigh
    unfold bigEndian at hsplit ⊢
    rw [bigEndianBytes, List.foldl_append, hsplit, List.foldl_cons, List.foldl_nil,
      UInt8.toNat_ofNat']
    omega

/-- A number that fits is read off its bytes, the highest first. -/
theorem reads_number (width : Nat) {n : Nat} (hn : n < 256 ^ width) :
    Reads (number width) (bigEndianBytes width n) n := by
  have h := (reads_bytes (bigEndianBytes width n)).map bigEndian
  rw [length_bigEndianBytes, bigEndian_bigEndianBytes hn] at h
  exact h

theorem reads_u1 (v : UInt8) : Reads u1 (bigEndianBytes 1 v.toNat) v := by
  have h := (reads_number 1 v.toNat_lt).map UInt8.ofNat
  rw [UInt8.ofNat_toNat] at h
  exact h

theorem reads_u2 (v : UInt16) : Reads u2 (bigEndianBytes 2 v.toNat) v := by
  have h := (reads_number 2 v.toNat_lt).map UInt16.ofNat
  rw [UInt16.ofNat_toNat] at h
  exact h

theorem reads_u4 (v : UInt32) : Reads u4 (bigEndianBytes 4 v.toNat) v := by
  have h := (reads_number 4 v.toNat_lt).map UInt32.ofNat
  rw [UInt32.ofNat_toNat] at h
  exact h

theorem reads_u8 (v : UInt64) : Reads u8 (bigEndianBytes 8 v.toNat) v := by
  have h := (reads_number 8 v.toNat_lt).map UInt64.ofNat
  rw [UInt64.ofNat_toNat] at h
  exact h

/-- A number that fits two bytes is read back as a count. -/
theorem reads_count {n : Nat} (hn : n < 2 ^ 16) : Reads u2 (bigEndianBytes 2 n) (UInt16.ofNat n) := by
  have h := reads_u2 (UInt16.ofNat n)
  rw [UInt16.toNat_ofNat_of_lt' hn] at h
  exact h

/-- A number that fits four bytes is read back as a length. -/
theorem reads_length {n : Nat} (hn : n < 2 ^ 32) : Reads u4 (bigEndianBytes 4 n) (UInt32.ofNat n) := by
  have h := reads_u4 (UInt32.ofNat n)
  rw [UInt32.toNat_ofNat_of_lt' hn] at h
  exact h

/-! ## Delimiting readers -/

/-- These bytes, cut off before their end, are an unexpected end. -/
def EndsEarly (r : Reader α) (front : Bytes) : Prop :=
  ∀ cut, cut <+: front → cut ≠ front → r cut = .error .unexpectedEnd

/-- The bytes that the reader takes settle its result and where it ends. -/
def Delimiting (r : Reader α) : Prop :=
  ∀ input x rest, r input = .ok (x, rest) →
    ∃ front, input = front ++ rest ∧ Reads r front x ∧ EndsEarly r front

/-- A reader leaves at most its input. -/
theorem Delimiting.length_le (hr : Delimiting r) (h : r input = .ok (x, rest)) :
    rest.length ≤ input.length := by
  obtain ⟨front, rfl, _⟩ := hr input x rest h
  simp

/-- No part of no bytes is cut off. -/
theorem endsEarly_nil (r : Reader α) : EndsEarly r [] := by
  intro cut hcut hne
  exact absurd (List.prefix_nil.mp hcut) hne

/-- What takes no bytes has no end to settle. -/
theorem delimiting_pure (x : α) : Delimiting (pure x) := by
  intro input y rest h
  cases h
  exact ⟨[], rfl, reads_pure x, endsEarly_nil _⟩

/-- A reader that always fails is delimiting. -/
theorem delimiting_throw (e : ClassFileError) : Delimiting (throw e : Reader α) := by
  intro input y rest h
  cases h

/-- A check takes no bytes. -/
theorem delimiting_lift (a : Except ClassFileError α) :
    Delimiting (StateT.lift a : Reader α) := by
  intro input x rest h
  cases ha : a with
  | error e =>
    rw [ha] at h
    cases h
  | ok y =>
    rw [ha] at h
    cases h
    exact ⟨[], rfl, reads_lift rfl, endsEarly_nil _⟩

/-- A chain of two readers ends early where either of them does: a cut lies in the bytes of the first
one, or leaves those whole and lies in the bytes of the second one. -/
theorem EndsEarly.bind (hcut : EndsEarly r front) (hr : Reads r front x)
    (hcut' : EndsEarly (f x) back) : EndsEarly (r >>= f) (front ++ back) := by
  rintro cut ⟨tail, htail⟩ hne
  rcases List.append_eq_append_iff.mp htail with ⟨as, hfront, _⟩ | ⟨bs, hbs, hback⟩
  · by_cases hwhole : cut = front
    · have hshort : [] ≠ back := by
        rintro rfl
        apply hne
        rw [hwhole, List.append_nil]
      have hrun := hr []
      rw [List.append_nil] at hrun
      rw [hwhole, run_bind_of_ok hrun]
      exact hcut' [] List.nil_prefix hshort
    · exact run_bind_of_error (hcut cut ⟨as, hfront.symm⟩ hwhole)
  · have hshort : bs ≠ back := by
      rintro rfl
      exact hne hbs
    rw [hbs, run_bind_of_ok (hr bs)]
    exact hcut' bs ⟨tail, hback.symm⟩ hshort

/-- Where two readers settle where they end, both in a row do. -/
theorem Delimiting.bind (hr : Delimiting r) (hf : ∀ x, Delimiting (f x)) :
    Delimiting (r >>= f) := by
  intro input y rest h
  obtain ⟨x, mid, hx, hy⟩ := run_bind_eq_ok.mp h
  obtain ⟨front, rfl, hreads, hcut⟩ := hr input x mid hx
  obtain ⟨back, rfl, hreads', hcut'⟩ := hf x mid y rest hy
  refine ⟨front ++ back, ?_, hreads.bind hreads', hcut.bind hreads hcut'⟩
  simp

/-- What is made of a result does not matter. -/
theorem Delimiting.map (hr : Delimiting r) (g : α → β) : Delimiting (g <$> r) :=
  hr.bind fun x => delimiting_pure (g x)

/-- Fewer bytes than are asked for are an unexpected end. -/
theorem delimiting_bytes (n : Nat) : Delimiting (bytes n) := by
  intro input bs rest h
  obtain ⟨rfl, rfl⟩ := bytes_eq_ok_iff.mp h
  refine ⟨bs, rfl, reads_bytes bs, ?_⟩
  rintro cut ⟨tail, rfl⟩ hne
  have hlength : tail.length ≠ 0 := by
    intro hzero
    apply hne
    rw [List.length_eq_zero_iff.mp hzero, List.append_nil]
  have hnone : takeExactly? (cut ++ tail).length cut = none := by
    rw [Option.eq_none_iff_forall_ne_some]
    rintro ⟨a, b⟩ hab
    obtain ⟨ha, hcut⟩ := takeExactly?_eq_some_iff.mp hab
    have hle := congrArg List.length hcut
    simp only [List.length_append] at ha hle
    omega
  unfold bytes
  rw [hnone]

/-- A number takes as many bytes as its width. -/
theorem delimiting_number (n : Nat) : Delimiting (number n) := (delimiting_bytes n).map bigEndian

/-- A number is spelled by the bytes in front, and what is left is all behind them. -/
theorem number_eq_ok {n k : Nat} (h : number n input = .ok (k, rest)) :
    k = bigEndian (input.take n) ∧ rest = input.drop n := by
  obtain ⟨bs, mid, hbs, hk⟩ := run_bind_eq_ok.mp h
  cases hk
  obtain ⟨rfl, rfl⟩ := bytes_eq_ok_iff.mp hbs
  rw [List.take_left, List.drop_left]
  exact ⟨rfl, rfl⟩

/-- A number needs no more bytes than spell it. -/
theorem bigEndian_lt (bs : Bytes) : bigEndian bs < 256 ^ bs.length := by
  induction bs using List.reverseRecOn with
  | nil => decide
  | append_singleton bs b ih =>
    have hb := b.toNat_lt
    rw [bigEndian, List.foldl_append, ← bigEndian, List.length_append, List.length_singleton,
      Nat.pow_succ, List.foldl_cons, List.foldl_nil]
    omega

/-- Two bytes are the first two. -/
theorem u2_eq_ok {v : UInt16} (h : u2 input = .ok (v, rest)) :
    v.toNat = bigEndian (input.take 2) ∧ rest = input.drop 2 := by
  obtain ⟨k, mid, hk, hv⟩ := run_bind_eq_ok.mp h
  cases hv
  obtain ⟨rfl, rfl⟩ := number_eq_ok hk
  have hwidth : 256 ^ (input.take 2).length ≤ 2 ^ 16 :=
    Nat.pow_le_pow_right (by decide) (List.length_take_le 2 input)
  have hlt := Nat.lt_of_lt_of_le (bigEndian_lt (input.take 2)) hwidth
  rw [UInt16.toNat_ofNat', Nat.mod_eq_of_lt hlt]
  exact ⟨rfl, rfl⟩

theorem rest_of_u4 {v : UInt32} (h : u4 input = .ok (v, rest)) : rest = input.drop 4 := by
  obtain ⟨k, mid, hk, hv⟩ := run_bind_eq_ok.mp h
  cases hv
  exact (number_eq_ok hk).2

/-- A number is as many bytes longer than what it leaves as it is wide. -/
theorem length_of_number {n k : Nat} (h : number n input = .ok (k, rest)) :
    input.length = n + rest.length := by
  obtain ⟨bs, mid, hbs, hk⟩ := run_bind_eq_ok.mp h
  cases hk
  obtain ⟨rfl, rfl⟩ := bytes_eq_ok_iff.mp hbs
  exact List.length_append

/-- Two bytes are taken, no more and no less. -/
theorem length_of_u2 {v : UInt16} (h : u2 input = .ok (v, rest)) :
    input.length = 2 + rest.length := by
  obtain ⟨k, mid, hk, hv⟩ := run_bind_eq_ok.mp h
  cases hv
  exact length_of_number hk

theorem delimiting_u1 : Delimiting u1 := (delimiting_number 1).map UInt8.ofNat

theorem delimiting_u2 : Delimiting u2 := (delimiting_number 2).map UInt16.ofNat

theorem delimiting_u4 : Delimiting u4 := (delimiting_number 4).map UInt32.ofNat

theorem delimiting_u8 : Delimiting u8 := (delimiting_number 8).map UInt64.ofNat

/-- Repeating a reader settles its end each time. -/
theorem delimiting_times (hr : Delimiting r) (n : Nat) : Delimiting (times r n) := by
  induction n with
  | zero => exact delimiting_pure []
  | succ n ih => exact hr.bind fun x => ih.bind fun xs => delimiting_pure (x :: xs)

/-- The count in front of a table settles how many items there are. -/
theorem delimiting_table (hr : Delimiting r) : Delimiting (table r) :=
  delimiting_u2.bind fun n => delimiting_times hr n.toNat

/-! ## Readers that agree on short inputs -/

/-- The two readers do the same on every input of at most `n` bytes. -/
def AgreeUpTo (n : Nat) (r r' : Reader α) : Prop :=
  ∀ input : Bytes, input.length ≤ n → r input = r' input

/-- Every reader agrees with itself. -/
theorem AgreeUpTo.refl (n : Nat) (r : Reader α) : AgreeUpTo n r r := fun _ _ => rfl

/-- Chains agree when the first readers do and what follows does, for they leave no longer input. -/
theorem AgreeUpTo.bind {n : Nat} (hr : AgreeUpTo n r r') (hd : Delimiting r)
    (hf : ∀ x, AgreeUpTo n (f x) (f' x)) : AgreeUpTo n (r >>= f) (r' >>= f') := by
  intro input hlength
  refine run_bind_congr (hr input hlength) fun x mid hx => ?_
  have hle := hd.length_le hx
  exact hf x mid (by omega)

/-- Readers that agree may be repeated, as the input gets no longer. -/
theorem agreeUpTo_times {n : Nat} (hr : AgreeUpTo n r r') (hd : Delimiting r) (k : Nat) :
    AgreeUpTo n (times r k) (times r' k) := by
  induction k with
  | zero => exact .refl n _
  | succ k ih =>
    refine hr.bind hd fun x => ih.bind (delimiting_times hd k) fun xs => ?_
    exact .refl n _

/-- Tables of items that are read alike are read alike. -/
theorem agreeUpTo_table {n : Nat} (hr : AgreeUpTo n r r') (hd : Delimiting r) :
    AgreeUpTo n (table r) (table r') :=
  (AgreeUpTo.refl n u2).bind delimiting_u2 fun k => agreeUpTo_times hr hd k.toNat

end Reader

end JavaMachine
