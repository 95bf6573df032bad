/-
# Undoing the layers of a block

A block is made from bytes in four steps, each of which is undone by the definition that belongs to it.

* Runs of equal bytes are shortened (`shortened`, `expandRuns?_shortened`).
* The rotations of the result are sorted, and the last byte of each is kept. The rows that end in a byte are
  in order, so they still are when that byte moves to their front; put behind each other for all bytes, they
  are the table again, each row moved on by one byte (`map_followers`). So the table is walked from row to
  row (`unrotate_of_sorted`).
* Bytes become places in an alphabet that moves each byte met to the front, and runs of the first place
  become numbers (`packed`, `lastColumn?_packed`).
* Of an older kind of block, some bits are flipped (`unscramble_unscramble`).
-/
import JavaMachine.Archive.Bzip2.Scramble
import JavaMachine.Archive.Bzip2.Transform
import Mathlib.Data.List.Induction
import Mathlib.Data.List.Lex
import Mathlib.Data.List.Nodup
import Mathlib.Data.List.Perm.Basic
import Mathlib.Data.List.Rotate

namespace JavaMachine

namespace Bzip2

/-! ## Flipped bits -/

/-- The bytes of a block, each byte before the last of a stretch with its lowest bit flipped. -/
def flipped (begun left : Nat) : Bytes → Bytes
  | [] => []
  | b :: rest =>
    let begun' := if left = 0 then begun + 1 else begun
    let left' := if left = 0 then stretchLengths.getD (begun % 512) 0 else left
    (if left' = 2 then b ^^^ 1 else b) :: flipped begun' (left' - 1) rest

/-- What is written for a block is the block with these bits flipped. -/
theorem toList_out_foldl_push (bytes : Bytes) (u : Unscrambling) :
    (bytes.foldl Unscrambling.push u).out.toList = u.out.toList ++ flipped u.begun u.left bytes := by
  induction bytes generalizing u with
  | nil => exact (List.append_nil _).symm
  | cons b bytes ih =>
    rw [List.foldl_cons, ih]
    by_cases h : u.left = 0 <;> simp [Unscrambling.push, flipped, h]

/-- Which bits are flipped does not depend on the bytes. -/
theorem flipped_flipped (begun left : Nat) (bytes : Bytes) :
    flipped begun left (flipped begun left bytes) = bytes := by
  induction bytes generalizing begun left with
  | nil => rfl
  | cons b bytes ih =>
    have htwice : ∀ (n : Nat) (b : UInt8), (if n = 2 then (if n = 2 then b ^^^ 1 else b) ^^^ 1
        else if n = 2 then b ^^^ 1 else b) = b := by
      intro n b
      by_cases h : n = 2
      · rw [if_pos h, if_pos h, UInt8.xor_assoc, UInt8.xor_self, UInt8.xor_zero]
      · rw [if_neg h, if_neg h]
    simp only [flipped, ih, htwice]

/-- Scrambling a block is what undoes it. -/
theorem unscramble_unscramble (bytes : Array UInt8) : unscramble (unscramble bytes) = bytes := by
  have hlist : ∀ bytes : Array UInt8, (unscramble bytes).toList = flipped 0 0 bytes.toList := by
    intro bytes
    rw [unscramble, ← Array.foldl_toList, toList_out_foldl_push]
    rfl
  apply Array.toList_inj.mp
  rw [hlist, hlist, flipped_flipped]

/-! ## Shortened runs -/

/-- Some bytes with their runs shortened: of a run, four bytes are kept, with the number of those behind
them. The last byte was met `count` times in a row, and after the fourth time `more` times again. -/
def shortened (last : UInt8) (count more : Nat) : Bytes → Bytes
  | [] => if count = 4 then [UInt8.ofNat more] else []
  | b :: rest =>
    if count = 4 then
      if b = last ∧ more < 255 then shortened last 4 (more + 1) rest
      else UInt8.ofNat more :: b :: shortened b 1 0 rest
    else b :: shortened b (if last = b then count + 1 else 1) 0 rest

/-- Four bytes and a number become the run again. -/
theorem push_number {e : Expansion} (h : e.count = 4) {more : Nat} (hmore : more ≤ 255) :
    e.push (UInt8.ofNat more) = { out := e.out ++ Array.replicate more e.last } := by
  have hnumber : (UInt8.ofNat more).toNat = more := UInt8.toNat_ofNat_of_lt' (by
    show more < 256
    omega)
  rw [Expansion.push, if_pos h, hnumber]

/-- Any other byte is written as it is. -/
theorem push_byte {e : Expansion} (h : e.count ≠ 4) (b : UInt8) : e.push b =
    { out := e.out.push b, last := b, count := if e.last = b then e.count + 1 else 1 } := by
  rw [Expansion.push, if_neg h]

/-- Expanding goes on from where shortening was. Bytes that are only counted are still to be written. -/
theorem foldl_push_shortened (bytes : Bytes) (e : Expansion) (more : Nat) (hcount : e.count ≤ 4)
    (hmore : more ≤ 255) (hnone : e.count ≠ 4 → more = 0) :
    ((shortened e.last e.count more bytes).foldl Expansion.push e).count ≠ 4 ∧
    ((shortened e.last e.count more bytes).foldl Expansion.push e).out.toList =
      e.out.toList ++ List.replicate more e.last ++ bytes := by
  induction bytes generalizing e more with
  | nil =>
    unfold shortened
    by_cases h : e.count = 4
    · rw [if_pos h, List.foldl_cons, push_number h hmore]
      simp
    · rw [if_neg h, hnone h]
      simp [h]
  | cons b rest ih =>
    unfold shortened
    by_cases h : e.count = 4
    · rw [if_pos h]
      split
      · next hrun =>
        -- One more byte of the run is counted.
        have hgo := ih e (more + 1) hcount (by omega) (absurd h)
        rw [h] at hgo
        rw [hgo.2, List.replicate_succ', hrun.1]
        exact ⟨hgo.1, by simp⟩
      · rw [List.foldl_cons, List.foldl_cons, push_number h hmore, push_byte (by simp)]
        have hone : (if (0 : UInt8) = b then 0 + 1 else 1) = 1 := ite_self 1
        rw [hone]
        have hgo := ih { out := (e.out ++ Array.replicate more e.last).push b, last := b, count := 1 } 0
          (Nat.le_add_left 1 3) (by decide) (fun _ => rfl)
        exact ⟨hgo.1, hgo.2.trans (by simp)⟩
    · rw [if_neg h, List.foldl_cons, push_byte h, hnone h]
      have hnext : (if e.last = b then e.count + 1 else 1) ≤ 4 := by split <;> omega
      have hgo := ih { out := e.out.push b, last := b, count := if e.last = b then e.count + 1 else 1 } 0
        hnext (by decide) (fun _ => rfl)
      exact ⟨hgo.1, hgo.2.trans (by simp)⟩

/-- Bytes whose runs were shortened come back as they were. -/
theorem expandRuns?_shortened (bytes : Bytes) :
    expandRuns? (shortened 0 0 0 bytes).toArray = some bytes.toArray := by
  obtain ⟨hcount, hout⟩ := foldl_push_shortened bytes {} 0 (by decide) (by decide) (fun _ => rfl)
  have hfold : (shortened 0 0 0 bytes).toArray.foldl Expansion.push {} =
      (shortened 0 0 0 bytes).foldl Expansion.push {} := List.foldl_toArray ..
  rw [expandRuns?, hfold, if_neg hcount]
  refine congrArg some (Array.toList_inj.mp ?_)
  rw [hout]
  rfl

/-! ## Sorted rotations -/

/-- A row with its last byte moved to the front. -/
def backward (row : Bytes) : Bytes := row.getLast?.toList ++ row.dropLast

/-- The last byte of a row. -/
def lastByte (row : Bytes) : UInt8 := row.getLastD 0

/-- No row stands behind one that comes later in the order of words. -/
def InOrder (rows : List Bytes) : Prop := rows.Pairwise fun a b => ¬ List.Lex (· < ·) b a

/-- All rotations of a word. -/
def rotations (word : Bytes) : List Bytes := (List.range word.length).map word.rotate

/-- The table of the rotations of a word, in order. -/
structure Sorts (rows : List Bytes) (word : Bytes) : Prop where
  inOrder : InOrder rows
  perm : rows.Perm (rotations word)

/-- Moving a row on by one byte is undone by moving its last byte to the front. -/
theorem backward_rotate (row : Bytes) : backward (row.rotate 1) = row := by
  cases row with
  | nil => rfl
  | cons b row => simp [backward]

/-- And the other way round. -/
theorem rotate_backward {row : Bytes} (h : row ≠ []) : (backward row).rotate 1 = row := by
  rw [backward, List.getLast?_eq_some_getLast h]
  show (row.getLast h :: row.dropLast).rotate 1 = row
  rw [List.rotate_cons_succ, List.rotate_zero]
  exact List.dropLast_append_getLast h

/-- A row that is not empty ends in its last byte. -/
theorem backward_eq {row : Bytes} (h : row ≠ []) : backward row = lastByte row :: row.dropLast := by
  rw [backward, lastByte, List.getLastD_eq_getLast?, List.getLast?_eq_some_getLast h]
  rfl

/-- The rotations of a word are those of any other rotation. -/
theorem map_backward_rotations_perm (word : Bytes) :
    ((rotations word).map backward).Perm (rotations word) := by
  have hnext : ((rotations word).map (·.rotate 1)).Perm (rotations word) := by
    unfold rotations
    rw [List.map_map]
    cases hlength : word.length with
    | zero => exact .refl _
    | succ n =>
      -- The last rotation moved on is the first one.
      have hlast : (word.rotate n).rotate 1 = word.rotate 0 := by
        rw [List.rotate_rotate, ← hlength, List.rotate_length, List.rotate_zero]
      rw [List.range_succ, List.map_append, List.map_singleton, Function.comp_apply, hlast,
        ← List.range_succ, List.range_succ_eq_map, List.map_cons, List.map_map]
      refine (List.perm_append_singleton _ _).trans (.of_eq ?_)
      exact congrArg _ (List.map_congr_left fun i _ => List.rotate_rotate ..)
  refine (hnext.map backward).symm.trans (.of_eq ?_)
  rw [List.map_map]
  exact (List.map_congr_left fun row _ => backward_rotate row).trans (List.map_id _)

/-- Rows that end in one byte are in the order of what stands in front of it. -/
theorem lex_append_singleton {a b : Bytes} (hlength : a.length = b.length) (h : List.Lex (· < ·) a b)
    (c : UInt8) : List.Lex (· < ·) (a ++ [c]) (b ++ [c]) := by
  induction h with
  | nil => cases hlength
  | rel h => exact .rel h
  | cons _ ih => exact .cons (ih (Nat.succ.inj hlength))

/-- The places of the bytes that are `c`. -/
def placesOf (c : Nat) (bytes : Bytes) : List Nat :=
  (List.range bytes.length).filter fun i => (bytes.getD i 0).toNat = c

/-- One more byte has the place behind all others. -/
theorem placesOf_append_singleton (c : Nat) (bytes : Bytes) (b : UInt8) :
    placesOf c (bytes ++ [b]) = placesOf c bytes ++ if b.toNat = c then [bytes.length] else [] := by
  have hfront : (List.range bytes.length).filter (fun i => ((bytes ++ [b]).getD i 0).toNat = c) =
      placesOf c bytes := by
    refine List.filter_congr fun i hi => ?_
    rw [List.getD_eq_getElem?_getD, List.getElem?_append_left (List.mem_range.mp hi),
      List.getD_eq_getElem?_getD]
  have hlast : (bytes ++ [b]).getD bytes.length 0 = b := by
    rw [List.getD_eq_getElem?_getD, List.getElem?_concat_length]
    rfl
  rw [placesOf, List.length_append, List.length_singleton, List.range_succ, List.filter_append, hfront,
    List.filter_singleton, hlast]
  by_cases h : b.toNat = c <;> simp [h]

/-- The places of the last column are ordered by their bytes, and equal bytes by where they are. -/
theorem toList_followers (last : Array UInt8) :
    (followers last).toList = (List.range 256).flatMap fun c => placesOf c last.toList := by
  have hplaces : ∀ bytes : Bytes, (bytes.zipIdx.foldl
      (fun (places : Array (Array Nat)) a => places.modify a.1.toNat (·.push a.2))
        (Array.replicate 256 #[])).toList =
      (List.range 256).map fun c => (placesOf c bytes).toArray := by
    intro bytes
    induction bytes using List.reverseRecOn with
    | nil =>
      rw [List.zipIdx_nil, List.foldl_nil, Array.toList_replicate]
      refine (List.eq_replicate_iff.mpr ⟨by rw [List.length_map, List.length_range], ?_⟩).symm
      rintro places hplaces
      obtain ⟨c, _, rfl⟩ := List.mem_map.mp hplaces
      rfl
    | append_singleton bytes b ih =>
      rw [List.zipIdx_append, List.foldl_append]
      simp only [List.zipIdx_cons, List.zipIdx_nil, List.foldl_cons, List.foldl_nil, Array.toList_modify,
        ih, placesOf_append_singleton]
      refine List.ext_getElem? fun c => ?_
      rw [List.getElem?_modify, List.getElem?_map, List.getElem?_map]
      by_cases hc : c < 256
      · rw [List.getElem?_range hc]
        by_cases h : b.toNat = c <;> simp [h]
      · rw [List.getElem?_eq_none (by rw [List.length_range]; omega)]
        rfl
  rw [followers, Array.toList_flatten, ← Array.foldl_toList, Array.toList_zipIdx, hplaces, List.map_map]
  rfl

/-- Every place of the last column is there once. -/
theorem followers_perm (last : Array UInt8) : (followers last).toList.Perm (List.range last.size) := by
  rw [toList_followers]
  refine (List.perm_ext_iff_of_nodup ?_ List.nodup_range).mpr fun i => ?_
  · refine List.nodup_flatMap.mpr ⟨fun c _ => List.nodup_range.filter _, ?_⟩
    refine List.pairwise_lt_range.imp fun hlt i hi hj => ?_
    have hi := of_decide_eq_true (List.mem_filter.mp hi).2
    have hj := of_decide_eq_true (List.mem_filter.mp hj).2
    omega
  · simp only [List.mem_flatMap, placesOf, List.mem_filter, List.mem_range, decide_eq_true_eq,
      Array.length_toList]
    exact ⟨fun ⟨_, _, hi, _⟩ => hi, fun hi => ⟨_, UInt8.toNat_lt _, hi, rfl⟩⟩

/-- Rows that are not empty are in order with their last bytes in front if these are, or if they are the same
and the rows were in order. -/
theorem not_lex_backward {a b : Bytes} (ha : a ≠ []) (hb : b ≠ []) (hlength : a.length = b.length)
    (h : (lastByte a).toNat < (lastByte b).toNat ∨ lastByte a = lastByte b ∧ ¬ List.Lex (· < ·) b a) :
    ¬ List.Lex (· < ·) (backward b) (backward a) := by
  have hwhole : ∀ {r : Bytes}, r ≠ [] → r.dropLast ++ [lastByte r] = r := by
    intro r hr
    rw [lastByte, List.getLastD_eq_getLast?, List.getLast?_eq_some_getLast hr]
    exact List.dropLast_append_getLast hr
  rw [backward_eq ha, backward_eq hb, List.cons_lex_cons_iff, UInt8.lt_iff_toNat_lt]
  rintro (hlt | ⟨heq, hlex⟩)
  · rcases h with h | ⟨heq, _⟩
    · omega
    · rw [heq] at hlt
      omega
  · rcases h with h | ⟨_, h⟩
    · rw [heq] at h
      omega
    · have hfull := lex_append_singleton (by rw [List.length_dropLast, List.length_dropLast, hlength]) hlex
        (lastByte b)
      rw [hwhole hb, heq, hwhole ha] at hfull
      exact h hfull

variable {rows : List Bytes} {word : Bytes} {i row : Nat}

/-- The places of a byte in the last column are those of rows that end in it. -/
theorem exists_row_of_mem_placesOf {c : Nat} (h : i ∈ placesOf c (rows.map lastByte)) :
    ∃ r, rows[i]? = some r ∧ (lastByte r).toNat = c := by
  obtain ⟨hi, hc⟩ := List.mem_filter.mp h
  rw [List.mem_range, List.length_map] at hi
  have hat := List.getElem?_eq_getElem hi
  refine ⟨_, hat, ?_⟩
  rw [List.getD_eq_getElem?_getD, List.getElem?_map, hat] at hc
  exact of_decide_eq_true hc

namespace Sorts

/-- All rows are as long as the word. -/
theorem length_eq (h : Sorts rows word) {r : Bytes} (hr : r ∈ rows) : r.length = word.length := by
  obtain ⟨i, _, rfl⟩ := List.mem_map.mp (h.perm.subset hr)
  exact List.length_rotate ..

/-- There is no row that is empty. -/
theorem ne_nil (h : Sorts rows word) {r : Bytes} (hr : r ∈ rows) : r ≠ [] := by
  obtain ⟨i, hi, _⟩ := List.mem_map.mp (h.perm.subset hr)
  have hpos := Nat.zero_lt_of_lt (List.mem_range.mp hi)
  exact List.length_pos_iff.mp (h.length_eq hr ▸ hpos)

/-- The rows that the places of the last column lead to, each with its last byte in front, are the rows of
the table in order. -/
theorem map_followers (h : Sorts rows word) :
    (followers (rows.map lastByte).toArray).toList.map (fun i => backward (rows.getD i [])) = rows := by
  have hbackward : ∀ {i j a b}, rows[i]? = some a → rows[j]? = some b →
      ((lastByte a).toNat < (lastByte b).toNat ∨ lastByte a = lastByte b ∧ ¬ List.Lex (· < ·) b a) →
      ¬ List.Lex (· < ·) (backward (rows.getD j [])) (backward (rows.getD i [])) := by
    intro i j a b hi hj hab
    have ha := List.mem_of_getElem? hi
    have hb := List.mem_of_getElem? hj
    rw [List.getD_eq_getElem?_getD, List.getD_eq_getElem?_getD, hi, hj]
    exact not_lex_backward (h.ne_nil ha) (h.ne_nil hb) ((h.length_eq ha).trans (h.length_eq hb).symm) hab
  have hsorted : ((followers (rows.map lastByte).toArray).toList.map
      fun i => backward (rows.getD i [])).Pairwise fun a b => ¬ List.Lex (· < ·) b a := by
    rw [toList_followers]
    refine List.pairwise_map.mpr (List.pairwise_flatMap.mpr ⟨fun c _ => ?_, ?_⟩)
    · -- Rows that end in one byte stay in order.
      refine (List.pairwise_lt_range.filter _).imp_of_mem fun {i j} hi hj hlt => ?_
      obtain ⟨a, ha, hc⟩ := exists_row_of_mem_placesOf hi
      obtain ⟨b, hb, hd⟩ := exists_row_of_mem_placesOf hj
      refine hbackward ha hb (Or.inr ⟨UInt8.toNat_inj.mp (hc.trans hd.symm), ?_⟩)
      obtain ⟨hirows, rfl⟩ := List.getElem?_eq_some_iff.mp ha
      obtain ⟨hjrows, rfl⟩ := List.getElem?_eq_some_iff.mp hb
      exact List.pairwise_iff_getElem.mp h.inOrder i j hirows hjrows hlt
    · refine List.pairwise_lt_range.imp fun {c d} hlt i hi j hj => ?_
      obtain ⟨a, ha, rfl⟩ := exists_row_of_mem_placesOf hi
      obtain ⟨b, hb, rfl⟩ := exists_row_of_mem_placesOf hj
      exact hbackward ha hb (Or.inl hlt)
  have hall : (List.range rows.length).map (fun i => backward (rows.getD i [])) = rows.map backward := by
    refine List.ext_getElem (by simp) fun i hi _ => ?_
    rw [List.length_map, List.length_range] at hi
    simp [hi]
  have hsame := (followers_perm (rows.map lastByte).toArray).map fun i => backward (rows.getD i [])
  rw [List.size_toArray, List.length_map, hall] at hsame
  have hanti : ∀ a b : Bytes, ¬ List.Lex (· < ·) b a → ¬ List.Lex (· < ·) a b → a = b :=
    fun a b h h' => Std.Trichotomous.trichotomous a b h' h
  have hperm : (rows.map backward).Perm rows :=
    ((h.perm.map backward).trans (map_backward_rotations_perm word)).trans h.perm.symm
  exact (hsame.trans hperm).eq_of_pairwise (fun a b _ _ => hanti a b) hsorted h.inOrder

/-- What follows a row is the row moved on by one byte. -/
theorem getElem?_follower (h : Sorts rows word) {r : Bytes} (hr : rows[i]? = some r) :
    rows[(followers (rows.map lastByte).toArray).getD i 0]? = some (r.rotate 1) := by
  have hat : ((followers (rows.map lastByte).toArray).toList.map
      fun i => backward (rows.getD i []))[i]? = some r := by rw [h.map_followers, hr]
  rw [List.getElem?_map, Option.map_eq_some_iff] at hat
  obtain ⟨f, hf, hback⟩ := hat
  have hlt : f < rows.length := by
    have hmem := (followers_perm _).subset (List.mem_of_getElem? hf)
    rwa [List.size_toArray, List.length_map, List.mem_range] at hmem
  have hget : (followers (rows.map lastByte).toArray).getD i 0 = f := by
    rw [Array.getD_eq_getD_getElem?, ← Array.getElem?_toList, hf]
    rfl
  rw [List.getD_eq_getElem?_getD, List.getElem?_eq_getElem hlt] at hback
  rw [hget, List.getElem?_eq_getElem hlt, ← hback]
  exact congrArg some (rotate_backward (h.ne_nil (List.getElem_mem hlt))).symm

/-- A walk from row to row meets the bytes of the word one by one. -/
theorem toList_walk (h : Sorts rows word) {t : Nat} (n : Nat) (ht : t + n ≤ word.length)
    (hrow : rows[row]? = some (word.rotate (t + 1))) (out : Array UInt8) :
    (walk (rows.map lastByte).toArray (followers (rows.map lastByte).toArray) n row out).toList =
      out.toList ++ (word.drop t).take n := by
  induction n generalizing t row out with
  | zero => simp [walk]
  | succ n ih =>
    have hlt : t < word.length := by omega
    have hlast : (rows.map lastByte).toArray.getD row 0 = word[t] := by
      rw [Array.getD_eq_getD_getElem?, List.getElem?_toArray, List.getElem?_map, hrow]
      show lastByte (word.rotate (t + 1)) = _
      rw [lastByte, List.rotate_eq_drop_append_take (by omega), List.take_succ_eq_append_getElem hlt,
        ← List.append_assoc, List.getLastD_concat]
    have hnext := h.getElem?_follower hrow
    rw [List.rotate_rotate] at hnext
    rw [walk, ih (by omega) hnext, hlast, Array.toList_push, List.drop_eq_getElem_cons hlt,
      List.take_succ_cons, List.append_assoc, List.singleton_append]

end Sorts

/-- The word comes back from the last column of its sorted rotations. -/
theorem unrotate_of_sorted (h : Sorts rows word) (hrow : rows[row]? = some word) :
    unrotate (rows.map lastByte).toArray row = word.toArray := by
  have hsize : (rows.map lastByte).toArray.size = word.length := by
    rw [List.size_toArray, List.length_map, h.perm.length_eq, rotations, List.length_map,
      List.length_range]
  have hfirst := h.getElem?_follower hrow
  apply Array.toList_inj.mp
  show (walk _ _ (rows.map lastByte).toArray.size _ #[]).toList = _
  rw [hsize, h.toList_walk (t := 0) _ (by omega) hfirst]
  simp

/-- Every word that is not empty has such a table, and is one of its rows. -/
theorem exists_sorts (h : word ≠ []) :
    ∃ (rows : List Bytes) (row : Nat), Sorts rows word ∧ rows[row]? = some word := by
  have hperm := List.mergeSort_perm (rotations word) fun a b => decide (a ≤ b)
  have horder : (List.mergeSort (rotations word) fun a b => decide (a ≤ b)).Pairwise fun a b => a ≤ b := by
    refine (List.pairwise_mergeSort (fun a b c hab hbc => ?_) (fun a b => ?_) _).imp of_decide_eq_true
    · exact decide_eq_true (List.le_trans (of_decide_eq_true hab) (of_decide_eq_true hbc))
    · rcases List.le_total a b with h | h <;> simp [h]
  have hword : word ∈ rotations word :=
    List.mem_map.mpr ⟨0, List.mem_range.mpr (List.length_pos_iff.mpr h), List.rotate_zero word⟩
  obtain ⟨row, hrow⟩ := List.getElem?_of_mem (hperm.mem_iff.mpr hword)
  exact ⟨_, row, ⟨horder, hperm⟩, hrow⟩

/-! ## Places in the alphabet -/

/-- A number by its digits one and two, which are written as 0 and 1, the lowest first. -/
def runDigits : Nat → List Nat
  | 0 => []
  | n + 1 => n % 2 :: runDigits (n / 2)

/-- The symbols for some bytes: their places in an alphabet that moves each one met to the front, and
numbers for runs of the first place. A run of that length is not written yet. -/
def packed (alphabet : List UInt8) (run : Nat) : Bytes → List Nat
  | [] => runDigits run
  | b :: rest =>
    if alphabet.head? = some b then packed alphabet (run + 1) rest
    else runDigits run ++ (alphabet.idxOf b + 1) :: packed (b :: alphabet.erase b) 0 rest

/-- The digits of a number make the run longer by it, as many times as their unit counts. -/
theorem foldlM_push_runDigits (limit n : Nat) (u : Unpacking) (h : n * u.unit < 1 <<< 21) :
    ∃ unit, (runDigits n).foldlM (Unpacking.push limit) u =
      some { u with run := u.run + n * u.unit, unit } := by
  induction n using Nat.strongRecOn generalizing u with
  | ind n ih =>
    cases n with
    | zero => exact ⟨u.unit, by rw [runDigits, Nat.zero_mul]; rfl⟩
    | succ n =>
      have hunit : u.unit < 1 <<< 21 := Nat.lt_of_le_of_lt (Nat.le_mul_of_pos_left _ n.succ_pos) h
      have hsplit : n % 2 + 1 + n / 2 * 2 = n + 1 := by omega
      have hrun : (n % 2 + 1) * u.unit + n / 2 * (2 * u.unit) = (n + 1) * u.unit := by
        rw [← Nat.mul_assoc, ← Nat.add_mul, hsplit]
      have hpush : u.push limit (n % 2) =
          some { u with run := u.run + (n % 2 + 1) * u.unit, unit := 2 * u.unit } := by
        rw [Unpacking.push, if_pos (Nat.mod_lt _ (by decide)), if_pos hunit]
      obtain ⟨unit, hrest⟩ := ih (n / 2) (by omega)
        { u with run := u.run + (n % 2 + 1) * u.unit, unit := 2 * u.unit }
        (Nat.lt_of_le_of_lt (by rw [← hrun]; exact Nat.le_add_left _ _) h)
      refine ⟨unit, ?_⟩
      rw [runDigits, List.foldlM_cons, hpush, Option.bind_eq_bind, Option.bind_some, hrest, ← hrun,
        Nat.add_assoc]

/-- A place behind the first one is looked up once the run in front of it is written. -/
theorem push_place {limit place : Nat} {u : Unpacking} {b : UInt8} (hplace : 0 < place)
    (hat : u.alphabet[place]? = some b) (hroom : u.out.size + u.run < limit) :
    u.push limit (place + 1) = some
      { alphabet := b :: u.alphabet.eraseIdx place
        out := (u.out ++ Array.replicate u.run (u.alphabet.headD 0)).push b } := by
  rw [Unpacking.push, if_neg (by omega), Unpacking.flush, if_pos (Nat.le_of_lt hroom)]
  show (moveToFront? place u.alphabet >>= fun r => _) = _
  rw [moveToFront?, hat]
  show (if (u.out ++ Array.replicate u.run _).size < limit then _ else none) = _
  rw [if_pos (by rw [Array.size_append, Array.size_replicate]; exact hroom)]

/-- Reading symbols goes on from where packing was. A run that is not written yet is still to come. -/
theorem foldlM_push_packed {limit : Nat} (hlimit : limit < 1 <<< 21) (bytes : Bytes)
    {alphabet : List UInt8} (run : Nat) (out : Array UInt8) (hmem : ∀ b ∈ bytes, b ∈ alphabet)
    (hroom : out.size + run + bytes.length ≤ limit) :
    ((packed alphabet run bytes).foldlM (Unpacking.push limit) { alphabet, out }).bind
        (fun u => (u.flush limit).map (·.out.toList)) =
      some (out.toList ++ (List.replicate run (alphabet.headD 0) ++ bytes)) := by
  induction bytes generalizing alphabet run out with
  | nil =>
    obtain ⟨unit, hdigits⟩ := foldlM_push_runDigits limit run { alphabet, out }
      (by rw [Nat.mul_one]; omega)
    rw [Nat.mul_one, Nat.zero_add] at hdigits
    rw [packed, hdigits, Option.bind_some, Unpacking.flush, if_pos (by simpa using hroom)]
    simp
  | cons b rest ih =>
    obtain ⟨hb, hrest⟩ := List.forall_mem_cons.mp hmem
    rw [List.length_cons] at hroom
    by_cases hhead : alphabet.head? = some b
    · -- The run gets longer by one.
      rw [packed, if_pos hhead, ih (run + 1) out hrest (by omega), List.replicate_succ',
        List.headD_eq_head?_getD, hhead]
      simp
    · obtain ⟨unit, hdigits⟩ := foldlM_push_runDigits limit run { alphabet, out }
        (by rw [Nat.mul_one]; omega)
      rw [Nat.mul_one, Nat.zero_add] at hdigits
      have hat := List.getElem?_idxOf hb
      have hplace : 0 < alphabet.idxOf b := by
        refine Nat.pos_of_ne_zero fun h => hhead ?_
        rw [List.head?_eq_getElem?, ← h, hat]
      have hkept : ∀ c ∈ rest, c ∈ b :: alphabet.erase b := by
        intro c hc
        by_cases heq : c = b
        · exact List.mem_cons.mpr (Or.inl heq)
        · exact List.mem_cons_of_mem _ ((List.mem_erase_of_ne heq).mpr (hrest c hc))
      have hsize : ((out ++ Array.replicate run (alphabet.headD 0)).push b).size = out.size + run + 1 := by
        rw [Array.size_push, Array.size_append, Array.size_replicate]
      have hpush : ({ alphabet, out, run, unit } : Unpacking).push limit (alphabet.idxOf b + 1) = some
          { alphabet := b :: alphabet.erase b
            out := (out ++ Array.replicate run (alphabet.headD 0)).push b } := by
        rw [← List.eraseIdx_idxOf_eq_erase]
        exact push_place hplace hat (by dsimp only; omega)
      rw [packed, if_neg hhead, List.foldlM_append, hdigits, Option.bind_eq_bind, Option.bind_some,
        List.foldlM_cons, hpush, Option.bind_eq_bind, Option.bind_some, ih 0 _ hkept (by omega)]
      simp

/-- The bytes come back from the symbols that they were packed into. -/
theorem lastColumn?_packed {limit : Nat} (hlimit : limit < 1 <<< 21) {bytes : Bytes}
    {alphabet : List UInt8} (hmem : ∀ b ∈ bytes, b ∈ alphabet) (hroom : bytes.length ≤ limit) :
    lastColumn? limit alphabet (packed alphabet 0 bytes).toArray = some bytes.toArray := by
  have hrun := foldlM_push_packed hlimit bytes 0 #[] hmem (by simpa using hroom)
  obtain ⟨u, hu, hflush⟩ := Option.bind_eq_some_iff.mp hrun
  obtain ⟨u', hu', hout⟩ := Option.map_eq_some_iff.mp hflush
  rw [lastColumn?, List.foldlM_toArray, hu]
  show (u.flush limit >>= fun u => some u.out) = _
  rw [hu']
  exact congrArg some (Array.toList_inj.mp hout)

/-! ## All layers -/

/-- All bytes can be written as a block, unless there are none or too many of them for it. -/
theorem exists_symbols {limit : Nat} (hlimit : limit < 1 <<< 21) {bytes : Bytes} (hne : bytes ≠ [])
    {alphabet : List UInt8} (hmem : ∀ b ∈ shortened 0 0 0 bytes, b ∈ alphabet)
    (hroom : (shortened 0 0 0 bytes).length ≤ limit) :
    ∃ symbols row, (lastColumn? limit alphabet symbols).bind
      (fun last => expandRuns? (unrotate last row)) = some bytes.toArray := by
  have hword : shortened 0 0 0 bytes ≠ [] := by
    cases bytes with
    | nil => exact absurd rfl hne
    | cons b rest => exact List.cons_ne_nil _ _
  obtain ⟨rows, row, h, hrow⟩ := exists_sorts hword
  have hlast : ∀ b ∈ rows.map lastByte, b ∈ alphabet := by
    intro b hb
    obtain ⟨r, hr, rfl⟩ := List.mem_map.mp hb
    obtain ⟨i, _, rfl⟩ := List.mem_map.mp (h.perm.subset hr)
    refine hmem _ (List.mem_rotate.mp (?_ : lastByte _ ∈ List.rotate _ i))
    rw [lastByte, List.getLastD_eq_getLast?, List.getLast?_eq_some_getLast (h.ne_nil hr)]
    exact List.getLast_mem _
  have hlength : (rows.map lastByte).length ≤ limit := by
    rwa [List.length_map, h.perm.length_eq, rotations, List.length_map, List.length_range]
  refine ⟨(packed alphabet 0 (rows.map lastByte)).toArray, row, ?_⟩
  rw [lastColumn?_packed hlimit hlast hlength, Option.bind_some, unrotate_of_sorted h hrow,
    expandRuns?_shortened]

end Bzip2

end JavaMachine
