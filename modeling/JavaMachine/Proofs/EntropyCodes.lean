/-
# Tables of entropy codes

What is known of a number that is read is carried along by `Intake.Gives`. A distribution that is read gives
out all cells of its table (`whole_of_readDistribution?`): the reader keeps how many are vacant, and no
share is larger than that.

Of such a distribution a table is made whose states never lead out of it (`gives_state`). The cells of a symbol
are numbered from its share on, so no number reaches twice the size of the table; shifted up by the bits
that lead on, it and the next one lie within one size of the table.
-/
import JavaMachine.Archive.Zstandard.Entropy
import Mathlib.Algebra.Group.Nat.Defs
import Mathlib.Data.List.Induction

namespace JavaMachine

/-! ## What an intake gives -/

namespace Intake

variable {α β γ : Type} {P Q : β → Prop} {x y : Intake α β}

/-- Whatever is read has a property. -/
def Gives (P : β → Prop) (x : Intake α β) : Prop :=
  ∀ items b rest, x items = some (b, rest) → P b

namespace Gives

theorem pure {b : β} (h : P b) : Gives P (Pure.pure b : Intake α β) := by
  rintro items _ _ ⟨⟩
  exact h

theorem failure : Gives P (Alternative.failure : Intake α β) := by
  rintro items _ _ ⟨⟩

/-- What is read first is known where the rest is read. -/
theorem bind {R : γ → Prop} {z : Intake α γ} {f : γ → Intake α β} (hz : Gives R z)
    (hf : ∀ c, R c → Gives P (f c)) : Gives P (z >>= f) := by
  intro items b rest h
  obtain ⟨⟨c, left⟩, hfirst, hthen⟩ := Option.bind_eq_some_iff.mp h
  exact hf c (hz _ _ _ hfirst) _ _ _ hthen

/-- What is made of an item that is read is known from what is known of the item. -/
theorem map {R : γ → Prop} {z : Intake α γ} {f : γ → β} (hz : Gives R z) (hf : ∀ c, R c → P (f c)) :
    Gives P (f <$> z) := by
  intro items b rest h
  obtain ⟨⟨c, left⟩, hfirst, hthen⟩ := Option.bind_eq_some_iff.mp h
  cases hthen
  exact hf c (hz _ _ _ hfirst)

/-- As many items are taken as are asked for. -/
theorem take (n : Nat) : Gives (fun front : List α => front.length = n) (Intake.take n) :=
  fun _ _ _ h => (take_eq_some_iff.mp h).1

/-- Where nothing has to be known of what is read. -/
theorem any (x : Intake α β) : Gives (fun _ => True) x := fun _ _ _ _ => trivial

theorem ite {p : Prop} [Decidable p] (hx : p → Gives P x) (hy : ¬ p → Gives P y) :
    Gives P (if p then x else y) := by
  split
  · next h => exact hx h
  · next h => exact hy h

/-- What is read behind a check is read where the check is passed. -/
theorem check {p : Prop} [Decidable p] (hx : ¬ p → Gives P x) :
    Gives P (if p then (Alternative.failure : Intake α PUnit) >>= fun _ => x else x) :=
  ite (fun _ => bind (R := fun _ => False) failure fun _ h => h.elim) hx

end Gives

end Intake

open Intake (Gives)

namespace BitIntake

/-- A number that is spelled with the lowest bit first fits in its bits. -/
theorem gives_numberLowFirst (n : Nat) : Gives (· < 2 ^ n) (numberLowFirst n) := by
  refine (Gives.take n).map ?_
  rintro bits rfl
  induction bits with
  | nil => exact Nat.one_pos
  | cons b bits ih =>
    have hbit := Bool.toNat_lt b
    rw [ofBitsLowFirst] at ih ⊢
    rw [List.foldr_cons, List.length_cons, Nat.pow_succ]
    omega

/-- So does one that is spelled with the highest bit first. -/
theorem gives_numberHighFirst (n : Nat) : Gives (· < 2 ^ n) (numberHighFirst n) := by
  refine (Gives.take n).map ?_
  rintro bits rfl
  induction bits using List.reverseRecOn with
  | nil => exact Nat.one_pos
  | append_singleton bits b ih =>
    have hbit := Bool.toNat_lt b
    rw [ofBitsHighFirst] at ih ⊢
    rw [List.foldl_append, List.foldl_cons, List.foldl_nil, List.length_append, List.length_singleton,
      Nat.pow_succ]
    omega

end BitIntake

namespace Zstandard

/-! ## Distributions -/

/-- How many cells some shares take. -/
def cellsOf : (shares : List Int) → Nat
  | [] => 0
  | s :: shares => s.natAbs + cellsOf shares

theorem cellsOf_append (shares shares' : List Int) :
    cellsOf (shares ++ shares') = cellsOf shares + cellsOf shares' := by
  induction shares with
  | nil => exact (Nat.zero_add _).symm
  | cons s shares ih => rw [List.cons_append, cellsOf, cellsOf, ih, Nat.add_assoc]

theorem cellsOf_reverse (shares : List Int) : cellsOf shares.reverse = cellsOf shares := by
  induction shares with
  | nil => rfl
  | cons s shares ih =>
    rw [List.reverse_cons, cellsOf_append, ih, cellsOf, cellsOf, cellsOf, Nat.add_zero, Nat.add_comm]

/-- Symbols without a share take no cells. -/
theorem cellsOf_replicate_zero (n : Nat) : cellsOf (List.replicate n 0) = 0 := by
  induction n with
  | zero => rfl
  | succ n ih => rw [List.replicate_succ, cellsOf, ih]; rfl

/-- No share is larger than all of them. -/
theorem natAbs_le_cellsOf {shares : List Int} {s : Int} (h : s ∈ shares) : s.natAbs ≤ cellsOf shares := by
  induction shares with
  | nil => cases h
  | cons t shares ih =>
    rw [cellsOf]
    rcases List.mem_cons.mp h with rfl | h
    · exact Nat.le_add_right _ _
    · exact Nat.le_trans (ih h) (Nat.le_add_left _ _)

/-- A distribution over the symbols up to `highest` that gives out all cells of its table. -/
structure Distribution.Whole (highest : Nat) (d : Distribution) : Prop where
  accuracy_le : d.accuracy ≤ 15
  cells : cellsOf d.shares = 2 ^ d.accuracy
  length_le : d.shares.length ≤ highest + 1
  share_ge : ∀ s ∈ d.shares, -1 ≤ s

/-- A share leaves at least one of the vacant cells. -/
theorem gives_share {vacant : Nat} (h : 2 ≤ vacant) :
    Gives (fun s => -1 ≤ s ∧ s.natAbs < vacant) (share vacant) := by
  have hlow : 2 ^ Nat.log2 vacant ≤ vacant := Nat.log2_self_le (by omega)
  have hhigh : vacant < 2 ^ (Nat.log2 vacant + 1) := Nat.lt_log2_self
  rw [Nat.pow_succ] at hhigh
  unfold share
  refine (BitIntake.gives_numberLowFirst _).bind fun n hn => ?_
  simp only [Nat.shiftLeft_eq, Nat.one_mul, Nat.pow_succ]
  refine .ite (fun hshort => .pure (by omega)) fun hlong => (Gives.any _).bind fun more _ => ?_
  exact .ite (fun _ => .pure (by omega)) fun _ => .pure (by omega)

/-- What is vacant is what the shares to come take, and one cell more. -/
theorem gives_shares {highest vacant : Nat} (bound : Nat) {sofar : List Int} (hvacant : 1 ≤ vacant)
    (hlength : sofar.length ≤ highest + 1) (hge : ∀ s ∈ sofar, -1 ≤ s) :
    Gives (fun all => cellsOf all + 1 = cellsOf sofar + vacant ∧ all.length ≤ highest + 1 ∧
      ∀ s ∈ all, -1 ≤ s) (shares highest bound vacant sofar) := by
  induction bound generalizing vacant sofar with
  | zero => exact .failure
  | succ bound ih =>
    rw [shares]
    refine .ite (fun hlast => .pure ?_) fun hmore => .check fun hleft => ?_
    · rw [cellsOf_reverse, hlast, List.length_reverse]
      exact ⟨rfl, hlength, fun s hs => hge s (List.mem_reverse.mp hs)⟩
    · refine (gives_share (by omega)).bind fun s ⟨hs, hroom⟩ => .ite (fun hzero => ?_) fun hshare => ?_
      · refine (Gives.any _).bind fun more _ => .check fun hfew => ?_
        have hlength' : (List.replicate (more + 1) 0 ++ sofar).length ≤ highest + 1 := by
          rw [List.length_append, List.length_replicate]
          omega
        have hge' : ∀ s ∈ List.replicate (more + 1) 0 ++ sofar, -1 ≤ s := by
          intro s hs
          rcases List.mem_append.mp hs with hs | hs
          · rw [(List.mem_replicate.mp hs).2]
            decide
          · exact hge s hs
        have hgo := ih hvacant hlength' hge'
        rwa [cellsOf_append, cellsOf_replicate_zero, Nat.zero_add] at hgo
      · have hlength' : (s :: sofar).length ≤ highest + 1 := by
          rw [List.length_cons]
          omega
        have hgo := ih (by omega : 1 ≤ vacant - s.natAbs) hlength' (List.forall_mem_cons.mpr ⟨hs, hge⟩)
        have hcells : cellsOf (s :: sofar) + (vacant - s.natAbs) = cellsOf sofar + vacant := by
          rw [cellsOf]
          omega
        rwa [hcells] at hgo

/-- A distribution that is read gives out all cells of its table, and what is left of the bytes stood at
their end. -/
theorem whole_of_readDistribution? {highest : Nat} {bytes rest : Bytes} {d : Distribution}
    (h : readDistribution? highest bytes = some (d, rest)) : d.Whole highest ∧ rest <:+ bytes := by
  obtain ⟨⟨d', left⟩, hread, hthen⟩ := Option.bind_eq_some_iff.mp h
  cases hthen
  refine ⟨?_, List.drop_suffix _ _⟩
  refine (?_ : Gives (Distribution.Whole highest) _) _ _ _ hread
  refine (Gives.any _).bind fun n _ => .check fun hfew => ?_
  refine (gives_shares _ (Nat.le_add_left 1 _) (Nat.zero_le _)
    fun _ hs => absurd hs List.not_mem_nil).bind fun all hall => .pure ?_
  obtain ⟨hcells, hlength, hge⟩ := hall
  refine ⟨by dsimp only; omega, ?_, hlength, hge⟩
  rw [Nat.shiftLeft_eq, Nat.one_mul, cellsOf] at hcells
  dsimp only
  omega

/-! ## Tables -/

namespace EntropyTable

/-- A cell whose bits lead to states of a table of two to the `accuracy` cells. -/
def Leads (accuracy : Nat) (c : Cell) : Prop :=
  c.width ≤ accuracy ∧ c.base + 2 ^ c.width ≤ 2 ^ accuracy

/-- A number below twice the size of a table leads on within it. -/
theorem leads_of_lt {accuracy number : Nat} (symbol : Nat) (h : number < 2 ^ (accuracy + 1)) :
    Leads accuracy { symbol, width := accuracy - Nat.log2 number
                     base := number <<< (accuracy - Nat.log2 number) - 1 <<< accuracy } := by
  refine ⟨Nat.sub_le _ _, ?_⟩
  dsimp only
  rw [Nat.shiftLeft_eq, Nat.shiftLeft_eq, Nat.one_mul]
  rcases Nat.eq_zero_or_pos number with rfl | hpos
  · simp
  · have hwidth : Nat.log2 number ≤ accuracy :=
      Nat.lt_succ_iff.mp ((Nat.log2_lt (by omega)).mpr h)
    have hpow : 2 ^ Nat.log2 number * 2 ^ (accuracy - Nat.log2 number) = 2 ^ accuracy := by
      rw [← Nat.pow_add, Nat.add_sub_cancel' hwidth]
    -- The number and the next one, shifted up, are between one and two sizes of the table.
    have hlow := Nat.mul_le_mul_right (2 ^ (accuracy - Nat.log2 number))
      (Nat.log2_self_le (by omega : number ≠ 0))
    have hhigh := Nat.mul_le_mul_right (2 ^ (accuracy - Nat.log2 number))
      (Nat.succ_le_of_lt (Nat.lt_log2_self (n := number)))
    rw [Nat.succ_mul, Nat.pow_succ, Nat.mul_right_comm, hpow] at hhigh
    rw [hpow] at hlow
    omega

/-- Every cell gets a symbol. -/
theorem size_spread (d : Distribution) : (spread d).size = 2 ^ d.accuracy := by
  have hfold : ∀ (dealt : List (Nat × Nat)) (cells : Array Nat),
      (dealt.foldl (fun cells a => cells.setIfInBounds a.1 a.2) cells).size = cells.size := by
    intro dealt
    induction dealt with
    | nil => exact fun _ => rfl
    | cons a dealt ih => exact fun cells => (ih _).trans Array.size_setIfInBounds
  rw [spread]
  exact (hfold _ _).trans (by rw [Array.size_replicate, Nat.shiftLeft_eq, Nat.one_mul])

/-- What is known once `i` cells are made: all of them lead on within the table, and no symbol's next number
is more than `i` above the size of the table. -/
structure Numbered (accuracy i : Nat) (s : Array Cell × Array Nat) : Prop where
  size : s.1.size = i
  leads : ∀ c ∈ s.1, Leads accuracy c
  number_le : ∀ n ∈ s.2, n ≤ 2 ^ accuracy + i

variable {highest : Nat} {d : Distribution}

/-- A table has all its cells, and they lead on within it. -/
theorem numbered_ofDistribution (h : d.Whole highest) : (ofDistribution d).cells.size = 2 ^ d.accuracy ∧
    ∀ c ∈ (ofDistribution d).cells, Leads d.accuracy c := by
  have hall : ∃ s, (ofDistribution d).cells = s.1 ∧ Numbered d.accuracy (spread d).size s := by
    refine ⟨_, rfl, Array.foldl_induction (fun i s => Numbered d.accuracy i s) ?_ ?_⟩
    · refine ⟨rfl, fun c hc => absurd hc (Array.not_mem_empty c), fun n hn => ?_⟩
      obtain ⟨s, hs, rfl⟩ := List.mem_map.mp (List.mem_toArray.mp hn)
      exact h.cells ▸ natAbs_le_cellsOf hs
    · rintro i ⟨cells, numbers⟩ ⟨hsize, hleads, hnumbers⟩
      have hi : i.val < 2 ^ d.accuracy := Nat.lt_of_lt_of_eq i.isLt (size_spread d)
      have hnumber : numbers.getD (spread d)[i] 0 ≤ 2 ^ d.accuracy + i := by
        rw [Array.getD_eq_getD_getElem?]
        cases hget : numbers[(spread d)[i]]? with
        | none => exact Nat.zero_le _
        | some n => exact hnumbers n (Array.mem_of_getElem? hget)
      refine ⟨?_, fun c hc => ?_, fun n hn => ?_⟩
      · exact (Array.size_push _).trans (congrArg (· + 1) hsize)
      · rcases Array.mem_push.mp hc with hc | rfl
        · exact hleads c hc
        · exact leads_of_lt _ (by rw [Nat.pow_succ]; omega)
      · rcases Array.mem_or_eq_of_mem_setIfInBounds hn with hn | rfl
        · exact Nat.le_succ_of_le (hnumbers n hn)
        · exact Nat.succ_le_succ hnumber
  obtain ⟨s, hcells, hs⟩ := hall
  rw [hcells]
  exact ⟨hs.size.trans (size_spread d), hs.leads⟩

/-- The state to start with is one of the table, and no state leads out of it. -/
theorem gives_state (h : d.Whole highest) : Gives (· < 2 ^ d.accuracy) (ofDistribution d).start ∧
    ∀ state, Gives (· < 2 ^ d.accuracy) ((ofDistribution d).next state) := by
  refine ⟨BitIntake.gives_numberHighFirst _, fun state => ?_⟩
  have hcell : Leads d.accuracy ((ofDistribution d).cell state) := by
    rw [cell, Array.getD_eq_getD_getElem?]
    cases hget : (ofDistribution d).cells[state]? with
    | none => exact ⟨Nat.zero_le _, Nat.one_le_two_pow⟩
    | some c => exact (numbered_ofDistribution h).2 c (Array.mem_of_getElem? hget)
  exact (BitIntake.gives_numberHighFirst _).bind fun n hn => .pure (by have := hcell.2; omega)

end EntropyTable

end Zstandard

end JavaMachine
