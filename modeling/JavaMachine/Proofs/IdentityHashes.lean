/-
# Identity hashes

A new object moves the seed of a heap on by an odd number, and nothing else moves it.  So the seeds
go through all words of 32 bits before one comes back (`nodup_iterate_nextSeed`).  A seed is mixed
to a word of its own (`wordOfSeed_injective`), of which the hash of the object is all but the highest
bit, so that two words come to the same hash.

What is done with a heap is a list of calls (`HeapCall`).  Whatever else they do, the objects that
they add get the hashes that follow from the seed alone (`Heap.hashes_eq`).
-/
import JavaMachine.Proofs.HeapRuns
import Mathlib.Data.List.Iterate
import Mathlib.Data.List.Nodup
import Mathlib.Data.List.Perm.Subperm

namespace JavaMachine

/-! ## Mixing -/

/-- Words are told apart by their xors with themselves shifted down. -/
theorem xor_shiftRight_injective {n : UInt32} (hn : 0 < n.toNat % 32) :
    Function.Injective fun x : UInt32 => x ^^^ x >>> n := by
  intro x y hxy
  have hdiff : (x ^^^ y) ^^^ (x ^^^ y) >>> n = 0 := by
    rw [UInt32.shiftRight_xor]
    calc (x ^^^ y) ^^^ (x >>> n ^^^ y >>> n)
        = (x ^^^ x >>> n) ^^^ (y ^^^ y >>> n) := by ac_rfl
      _ = 0 := UInt32.xor_eq_zero_iff.mpr hxy
  -- Shifting down makes every number smaller but zero, and leaves the difference as it is.
  have hshift := congrArg UInt32.toNat (UInt32.xor_eq_zero_iff.mp hdiff)
  rw [UInt32.toNat_shiftRight, Nat.shiftRight_eq_div_pow] at hshift
  have hzero : (x ^^^ y).toNat = 0 := by
    by_contra hpos
    have hless := Nat.div_lt_self (Nat.pos_of_ne_zero hpos) (Nat.one_lt_two_pow hn.ne')
    omega
  exact UInt32.xor_eq_zero_iff.mp (UInt32.toNat_inj.mp hzero)

/-- Words are told apart by their products with one that has an inverse. -/
theorem mul_injective_of_inverse {c inverse : UInt32} (hc : c * inverse = 1) :
    Function.Injective fun x : UInt32 => x * c := by
  intro x y hxy
  have hback := congrArg (· * inverse) hxy
  simpa only [UInt32.mul_assoc, hc, UInt32.mul_one] using hback

/-- The word that a seed is mixed to. -/
def wordOfSeed (seed : UInt32) : UInt32 :=
  let mixed := (seed ^^^ seed >>> 16) * 0x85EBCA6B
  mixed ^^^ mixed >>> 13

/-- A hash is the word of its seed, made non-negative. -/
theorem hashOfSeed_eq (seed : UInt32) : hashOfSeed seed = wordOfSeed seed &&& 0x7FFFFFFF := rfl

/-- Each stage of mixing can be undone, so no two seeds come to one word. -/
theorem wordOfSeed_injective : Function.Injective wordOfSeed := by
  have hmul : (0x85EBCA6B : UInt32) * 0xA5CB9243 = 1 := by decide
  exact (xor_shiftRight_injective (by decide)).comp
    ((mul_injective_of_inverse hmul).comp (xor_shiftRight_injective (by decide)))

/-- As a signed number, a hash is the word of its seed without the highest bit. -/
theorem toInt_hashOfSeed (seed : UInt32) :
    (hashOfSeed seed).toInt32.toInt = ((wordOfSeed seed).toNat % 2 ^ 31 : Nat) := by
  have hnat : (hashOfSeed seed).toBitVec.toNat = (wordOfSeed seed).toNat % 2 ^ 31 := by
    rw [UInt32.toNat_toBitVec, hashOfSeed_eq, UInt32.toNat_and]
    exact Nat.and_two_pow_sub_one_eq_mod _ 31
  have hlt : (wordOfSeed seed).toNat % 2 ^ 31 < 2 ^ 31 := Nat.mod_lt _ (by decide)
  have hsign : 2 * (hashOfSeed seed).toBitVec.toNat < 2 ^ 32 := by omega
  show (hashOfSeed seed).toBitVec.toInt = _
  rw [BitVec.toInt_eq_toNat_of_lt hsign, hnat]

/-! ## Seeds one after the other -/

/-- A seed is moved on by the same number every time. -/
theorem iterate_nextSeed (seed : UInt32) (n : Nat) :
    nextSeed^[n] seed = seed + UInt32.ofNat n * 0x9E3779B9 := by
  induction n with
  | zero => simp
  | succ n ih =>
    rw [Function.iterate_succ_apply', ih, nextSeed, UInt32.ofNat_add, UInt32.add_mul,
      UInt32.add_assoc]
    rfl

/-- No seed comes back before all of them were there. -/
theorem nodup_iterate_nextSeed (seed : UInt32) {n : Nat} (hn : n ≤ 2 ^ 32) :
    (List.iterate nextSeed seed n).Nodup := by
  have hmul : (0x9E3779B9 : UInt32) * 0x144CBC89 = 1 := by decide
  rw [← List.range_map_iterate]
  refine List.nodup_range.map_on fun i hi j hj hij => ?_
  rw [List.mem_range] at hi hj
  rw [iterate_nextSeed, iterate_nextSeed, UInt32.add_right_inj] at hij
  have hword : UInt32.ofNat i = UInt32.ofNat j := mul_injective_of_inverse hmul hij
  have hmod := congrArg UInt32.toNat hword
  rwa [UInt32.toNat_ofNat', UInt32.toNat_ofNat', Nat.mod_eq_of_lt (hi.trans_le hn),
    Nat.mod_eq_of_lt (hj.trans_le hn)] at hmod

/-! ## Counting hashes -/

/-- Of distinct numbers below `2 * n`, at most two have a given remainder by `n`. -/
theorem countP_mod_le_two {l : List Nat} {n : Nat} (hl : l.Nodup) (hlt : ∀ x ∈ l, x < 2 * n)
    (r : Nat) : l.countP (fun x => x % n = r) ≤ 2 := by
  rw [List.countP_eq_length_filter]
  have hsub : l.filter (fun x => x % n = r) ⊆ [r, r + n] := by
    intro x hx
    obtain ⟨hmem, hmod⟩ := List.mem_filter.mp hx
    have hdivmod := Nat.div_add_mod x n
    have hdiv : x / n < 2 := Nat.div_lt_of_lt_mul (Nat.mul_comm 2 n ▸ hlt x hmem)
    rw [decide_eq_true_eq] at hmod
    rw [hmod] at hdivmod
    generalize x / n = q at hdivmod hdiv
    have hq : q = 0 ∨ q = 1 := by omega
    rcases hq with rfl | rfl
    · simp [← hdivmod]
    · simp [← hdivmod, Nat.add_comm]
  exact (List.subperm_of_subset (hl.filter _) hsub).length_le

/-- Of all numbers below `2 * n`, exactly two have a given remainder by `n`. -/
theorem countP_mod_eq_two {l : List Nat} {n r : Nat} (hl : l.Nodup) (hlt : ∀ x ∈ l, x < 2 * n)
    (hlength : l.length = 2 * n) (hr : r < n) : l.countP (fun x => x % n = r) = 2 := by
  have hall : l.Perm (List.range (2 * n)) := by
    have hsub : l ⊆ List.range (2 * n) := fun x hx => List.mem_range.mpr (hlt x hx)
    refine (List.subperm_of_subset hl hsub).perm_of_length_le ?_
    rw [List.length_range, hlength]
  have htwo : [r, r + n] ⊆ l.filter fun x => x % n = r := by
    intro x hx
    rw [List.mem_filter, hall.mem_iff, List.mem_range, decide_eq_true_eq]
    rcases List.mem_pair.mp hx with rfl | rfl
    · exact ⟨by omega, Nat.mod_eq_of_lt hr⟩
    · exact ⟨by omega, by rw [Nat.add_mod_right, Nat.mod_eq_of_lt hr]⟩
  have hnodup : [r, r + n].Nodup := by
    have hpos : n ≠ 0 := by omega
    simp [hpos]
  have hge := (List.subperm_of_subset hnodup htwo).length_le
  rw [← List.countP_eq_length_filter] at hge
  exact Nat.le_antisymm (countP_mod_le_two hl hlt r) hge

/-- The first `n` hashes that follow from a seed. -/
def hashesFrom (seed : UInt32) (n : Nat) : List Int32 :=
  (List.iterate nextSeed (nextSeed seed) n).map fun s => (hashOfSeed s).toInt32

/-- The numbers of which the first `n` hashes that follow from a seed are the remainders. -/
def wordsFrom (seed : UInt32) (n : Nat) : List Nat :=
  (List.iterate nextSeed (nextSeed seed) n).map fun s => (wordOfSeed s).toNat

variable {seed : UInt32} {n : Nat}

theorem length_hashesFrom (seed : UInt32) (n : Nat) : (hashesFrom seed n).length = n := by
  rw [hashesFrom, List.length_map, List.length_iterate]

/-- The words of seeds are distinct, as the seeds are. -/
theorem nodup_wordsFrom (seed : UInt32) (hn : n ≤ 2 ^ 32) : (wordsFrom seed n).Nodup :=
  (nodup_iterate_nextSeed _ hn).map fun _ _ h => wordOfSeed_injective (UInt32.toNat_inj.mp h)

/-- A word has 32 bits, one more than a hash. -/
theorem lt_of_mem_wordsFrom {w : Nat} (hw : w ∈ wordsFrom seed n) : w < 2 * 2 ^ 31 := by
  obtain ⟨s, _, rfl⟩ := List.mem_map.mp hw
  have hlt := (wordOfSeed s).toNat_lt
  omega

/-- No hash is negative. -/
theorem nonneg_of_mem_hashesFrom {i : Int32} (hi : i ∈ hashesFrom seed n) : 0 ≤ i := by
  obtain ⟨s, _, rfl⟩ := List.mem_map.mp hi
  rw [Int32.le_iff_toInt_le, toInt_hashOfSeed]
  exact Int.natCast_nonneg _

/-- A hash comes as often as its number is the remainder of a word. -/
theorem count_hashesFrom (seed : UInt32) (n : Nat) {i : Int32} (hi : 0 ≤ i) :
    (hashesFrom seed n).count i =
      (wordsFrom seed n).countP fun w => w % 2 ^ 31 = i.toInt.toNat := by
  rw [Int32.le_iff_toInt_le, Int32.toInt_zero] at hi
  rw [hashesFrom, wordsFrom, List.count_eq_countP, List.countP_map, List.countP_map]
  refine List.countP_congr fun s _ => ?_
  rw [Function.comp_apply, Function.comp_apply, beq_iff_eq, decide_eq_true_eq, ← Int32.toInt_inj,
    toInt_hashOfSeed]
  generalize (wordOfSeed s).toNat % 2 ^ 31 = w
  omega

/-- As long as no seed has come back, a hash is given to two objects at most. -/
theorem count_hashesFrom_le (seed : UInt32) (hn : n ≤ 2 ^ 32) (i : Int32) :
    (hashesFrom seed n).count i ≤ 2 := by
  by_cases hi : 0 ≤ i
  · rw [count_hashesFrom seed n hi]
    exact countP_mod_le_two (nodup_wordsFrom seed hn) (fun _ => lt_of_mem_wordsFrom) _
  · rw [List.count_eq_zero_of_not_mem fun hmem => hi (nonneg_of_mem_hashesFrom hmem)]
    omega

/-- When all seeds were there, each hash was given to two objects. -/
theorem count_hashesFrom_eq (seed : UInt32) {i : Int32} (hi : 0 ≤ i) :
    (hashesFrom seed (2 ^ 32)).count i = 2 := by
  have hlength : (wordsFrom seed (2 ^ 32)).length = 2 * 2 ^ 31 := by
    rw [wordsFrom, List.length_map, List.length_iterate]
    omega
  have hlt : i.toInt.toNat < 2 ^ 31 := by
    have hmax := i.toInt_lt
    omega
  rw [count_hashesFrom seed _ hi]
  exact countP_mod_eq_two (nodup_wordsFrom seed (Nat.le_refl _)) (fun _ => lt_of_mem_wordsFrom)
    hlength hlt

/-! ## Calls on a heap -/

/-- A call on a heap: an object is added, the contents of one are replaced, a write is recorded, the
list of objects written to is taken, or objects are freed. -/
inductive HeapCall where
  | allocate (owner : ClassId) (body : Body)
  | updateBody (r : ObjectRef) (f : Body → Body)
  | noteWrite (r : ObjectRef)
  | takeWritten
  | sweep (keep : ObjectRef → Object → Bool)

/-- Whether a call adds an object. -/
def HeapCall.adds : HeapCall → Bool
  | allocate _ _ => true
  | _ => false

namespace Heap

/-- The heap after a call. -/
def call (h : Heap) : HeapCall → Heap
  | .allocate owner body => (h.allocate owner body).1
  | .updateBody r f => h.updateBody r f
  | .noteWrite r => h.noteWrite r
  | .takeWritten => h.takeWritten.1
  | .sweep keep => (h.sweep keep).1

/-- The heap after calls one after the other. -/
def calls (h : Heap) (cs : List HeapCall) : Heap := cs.foldl call h

/-- The identity hash of the live object at a reference. -/
def identityHash? (h : Heap) (r : ObjectRef) : Option Int32 :=
  (h.get? r).map fun o => o.hash.toInt32

/-- The identity hash of the object that a call adds, asked for at its reference. -/
def newHash? (h : Heap) : HeapCall → Option Int32
  | .allocate owner body => (h.allocate owner body).1.identityHash? (h.allocate owner body).2
  | _ => none

/-- The identity hashes of the objects that calls add, in their order. -/
def hashes (h : Heap) : List HeapCall → List Int32
  | [] => []
  | c :: cs => (h.newHash? c).toList ++ (h.call c).hashes cs

/-- The free slots are slots of the heap. -/
def FreeInside (h : Heap) : Prop := ∀ i ∈ h.free, i < h.slots.size

variable {h : Heap}

/-! ## What a call does to the seed -/

/-- Freeing objects leaves the seed alone. -/
theorem seed_freeAll (h : Heap) (l : List (ObjectRef × Object)) : (h.freeAll l).seed = h.seed := by
  induction l generalizing h with
  | nil => rfl
  | cons p l ih => exact ih (h.freeOne p.1 p.2)

/-- Writing to an object leaves the seed alone. -/
theorem seed_noteWrite (h : Heap) (r : ObjectRef) : (h.noteWrite r).seed = h.seed := by
  unfold noteWrite
  split <;> rfl

/-- A new object moves the seed on. -/
theorem seed_allocate (h : Heap) (owner : ClassId) (body : Body) :
    (h.allocate owner body).1.seed = nextSeed h.seed := by
  unfold Heap.allocate
  split <;> rfl

/-- Nothing but a new object moves the seed. -/
theorem seed_call (h : Heap) (c : HeapCall) :
    (h.call c).seed = if c.adds then nextSeed h.seed else h.seed := by
  cases c with
  | allocate owner body => exact h.seed_allocate owner body
  | updateBody r f => rfl
  | noteWrite r => exact h.seed_noteWrite r
  | takeWritten => rfl
  | sweep keep => exact h.seed_freeAll (h.rejected keep)

/-! ## What a call does to the free slots -/

/-- A new heap has no free slots. -/
theorem freeInside_new (seed : UInt32) : ({ seed } : Heap).FreeInside :=
  fun _ hi => absurd hi List.not_mem_nil

/-- A new object takes a free slot, or one behind all others. -/
theorem FreeInside.allocate (hf : h.FreeInside) (owner : ClassId) (body : Body) :
    (h.allocate owner body).1.FreeInside := by
  cases hfree : h.free with
  | nil =>
    rw [allocate_of_nil hfree]
    intro i hi
    have hlt := hf i hi
    show i < (h.slots.push _).size
    rw [Array.size_push]
    omega
  | cons j free =>
    rw [allocate_of_cons hfree]
    intro i hi
    show i < (h.slots.setIfInBounds j _).size
    rw [Array.size_setIfInBounds]
    exact hf i (hfree ▸ List.mem_cons_of_mem j hi)

/-- Slots that are freed are slots of the heap. -/
theorem FreeInside.freeAll (hf : h.FreeInside) {l : List (ObjectRef × Object)}
    (hl : ∀ p ∈ l, p.1.index < h.slots.size) : (h.freeAll l).FreeInside := by
  induction l generalizing h with
  | nil => exact hf
  | cons p l ih =>
    obtain ⟨hp, hl⟩ := List.forall_mem_cons.mp hl
    have hsize : (h.freeOne p.1 p.2).slots.size = h.slots.size := Array.size_setIfInBounds ..
    refine ih (h := h.freeOne p.1 p.2) (fun i hi => ?_) (hsize ▸ hl)
    rw [hsize]
    rcases List.mem_cons.mp hi with rfl | hi
    · exact hp
    · exact hf i hi

/-- Every call keeps the free slots inside. -/
theorem FreeInside.call (hf : h.FreeInside) (c : HeapCall) : (h.call c).FreeInside := by
  cases c with
  | allocate owner body => exact hf.allocate owner body
  | updateBody r f =>
    intro i hi
    exact (hf i hi).trans_eq Array.size_modify.symm
  | noteWrite r =>
    show (h.noteWrite r).FreeInside
    unfold noteWrite
    split
    · exact hf
    · exact hf
  | takeWritten => exact hf
  | sweep keep =>
    refine hf.freeAll (l := h.rejected keep) fun p hp => ?_
    have hslot := get?_eq_some_iff.mp (mem_objects_iff.mp (h.rejected_subset keep hp))
    exact (Array.getElem?_eq_some_iff.mp hslot).1

theorem FreeInside.calls (hf : h.FreeInside) (cs : List HeapCall) : (h.calls cs).FreeInside := by
  induction cs generalizing h with
  | nil => exact hf
  | cons c cs ih => exact ih (hf.call c)

/-! ## The hashes of new objects -/

/-- A new object is found at its reference. -/
theorem FreeInside.get?_allocate (hf : h.FreeInside) (owner : ClassId) (body : Body) :
    (h.allocate owner body).1.get? (h.allocate owner body).2 = some (h.nextObject owner body) := by
  rw [get?_eq_some_iff]
  cases hfree : h.free with
  | nil =>
    rw [allocate_of_nil hfree]
    exact Array.getElem?_push_size
  | cons i free =>
    rw [allocate_of_cons hfree]
    exact Array.getElem?_setIfInBounds_self_of_lt (hf i (hfree ▸ List.mem_cons_self))

/-- A call that adds an object gives out the hash of the next seed, and any other call none. -/
theorem FreeInside.newHash?_eq (hf : h.FreeInside) (c : HeapCall) :
    h.newHash? c = if c.adds then some (hashOfSeed (nextSeed h.seed)).toInt32 else none := by
  cases c with
  | allocate owner body =>
    show (h.allocate owner body).1.identityHash? (h.allocate owner body).2 = _
    rw [identityHash?, hf.get?_allocate]
    rfl
  | _ => rfl

/-- The hashes that calls give out follow from the seed and the number of new objects alone. -/
theorem hashes_eq (hf : h.FreeInside) (cs : List HeapCall) :
    h.hashes cs = hashesFrom h.seed (cs.countP HeapCall.adds) := by
  induction cs generalizing h with
  | nil => rfl
  | cons c cs ih =>
    rw [hashes, hf.newHash?_eq, ih (hf.call c), seed_call]
    cases hc : c.adds with
    | true =>
      rw [List.countP_cons_of_pos hc]
      rfl
    | false =>
      rw [List.countP_cons_of_neg (by simp [hc])]
      rfl

example : ({} : Heap).hashes [.allocate .object (.fields [] []), .sweep fun _ _ => false,
    .allocate .string (.string "text")] = [325668660, 1550994225] := by decide +kernel

/-! ## The calls of a run -/

/-- Calls are made one after the other. -/
theorem calls_append (h : Heap) (cs cs' : List HeapCall) :
    h.calls (cs ++ cs') = (h.calls cs).calls cs' := List.foldl_append

/-- Every change of a heap is made of calls. -/
theorem Change.exists_calls {h' : Heap} (hc : h.Change h') : ∃ cs, h' = h.calls cs := by
  cases hc with
  | @allocate owner body _ => exact ⟨[.allocate owner body], rfl⟩
  | @rewrite r _ body => exact ⟨[.updateBody r fun _ => body], rfl⟩
  | @store r _ body => exact ⟨[.updateBody r fun _ => body, .noteWrite r], rfl⟩
  | @note r => exact ⟨[.noteWrite r], rfl⟩

end Heap

namespace Machine

variable {path : ClassPath} {m m' : Machine}

/-- What a computation does to the heap is made of calls. -/
theorem HeapChanges.exists_calls (h : m.HeapChanges m') : ∃ cs, m'.heap = m.heap.calls cs := by
  unfold HeapChanges at h
  generalize m'.heap = k at h ⊢
  induction h with
  | refl => exact ⟨[], rfl⟩
  | tail _ hlast ih =>
    obtain ⟨cs, rfl⟩ := ih
    obtain ⟨cs', rfl⟩ := hlast.exists_calls
    exact ⟨cs ++ cs', (Heap.calls_append _ cs cs').symm⟩

/-- What one step of a run does to the heap is made of calls. -/
theorem HeapStep.exists_calls (h : HeapStep path m m') : ∃ cs, m'.heap = m.heap.calls cs := by
  rcases h.cases with hchanges | ⟨owner, body, hadded⟩ | ⟨keep, hswept⟩ | htaken
  · exact hchanges.exists_calls
  · exact ⟨[.allocate owner body], hadded⟩
  · exact ⟨[.sweep keep], hswept⟩
  · exact ⟨[.takeWritten], htaken⟩

/-- Whatever a machine does with its heap is done by calls. -/
theorem HeapRun.exists_calls (h : HeapRun path m m') : ∃ cs, m'.heap = m.heap.calls cs := by
  induction h with
  | refl => exact ⟨[], rfl⟩
  | tail _ hstep ih =>
    obtain ⟨cs, hcs⟩ := ih
    obtain ⟨cs', hcs'⟩ := hstep.exists_calls
    exact ⟨cs ++ cs', by rw [hcs', hcs, Heap.calls_append]⟩

end Machine

namespace Heap

/-- Identity hashes after any calls on a new heap, whatever seed it was given.

* Calls give out one hash for each new object, and no hash is negative.
* Up to `2 ^ 32` new objects in a row, no three have the same hash.
* Of exactly `2 ^ 32` new objects in a row, each hash that is not negative belongs to exactly two.
* Every run of a machine is a list of such calls on its heap. -/
theorem identity_hashes_of_calls {seed : UInt32} {before : List HeapCall} {h : Heap}
    (hbefore : h = ({ seed } : Heap).calls before) :
    (∀ cs, (h.hashes cs).length = cs.countP HeapCall.adds ∧ ∀ i ∈ h.hashes cs, 0 ≤ i) ∧
    (∀ cs, cs.countP HeapCall.adds ≤ 2 ^ 32 → ∀ i, (h.hashes cs).count i ≤ 2) ∧
    (∀ cs, cs.countP HeapCall.adds = 2 ^ 32 → ∀ i, 0 ≤ i → (h.hashes cs).count i = 2) ∧
    ∀ (path : ClassPath) (m m' : Machine), m.heap = h → Machine.HeapRun path m m' →
      ∃ cs, m'.heap = h.calls cs := by
  have hf : h.FreeInside := hbefore ▸ (freeInside_new seed).calls before
  refine ⟨fun cs => ?_, fun cs hcount i => ?_, fun cs hcount i hi => ?_, ?_⟩
  · rw [hashes_eq hf]
    exact ⟨length_hashesFrom _ _, fun i hi => nonneg_of_mem_hashesFrom hi⟩
  · rw [hashes_eq hf]
    exact count_hashesFrom_le h.seed hcount i
  · rw [hashes_eq hf, hcount]
    exact count_hashesFrom_eq h.seed hi
  · rintro path m m' rfl hrun
    exact hrun.exists_calls

/-- A machine whose heap was given a seed of its own, with a slot that is free again. -/
def seededMachine : Machine :=
  { heap := ({ seed := 0xDEADBEEF } : Heap).calls
      [.allocate .object (.fields [] []), .sweep fun _ _ => false] }

/-- Objects that are added one after the other, each freed before the next. -/
def shortLives (n : Nat) : List HeapCall :=
  (List.replicate n [.allocate .object (.fields [] []), .sweep fun _ _ => false]).flatten

/-- Each short life adds one object. -/
theorem countP_shortLives (n : Nat) : (shortLives n).countP HeapCall.adds = n := by
  induction n with
  | zero => rfl
  | succ n ih =>
    rw [shortLives, List.replicate_succ, List.flatten_cons, List.countP_append, ← shortLives, ih,
      Nat.add_comm]
    rfl

/-- Once through all seeds, the largest hash is given out twice; the new objects of a machine have
their hashes. -/
theorem identity_hashes_of_calls_seededMachine :
    (shortLives (2 ^ 32)).countP HeapCall.adds = 2 ^ 32 ∧
      (seededMachine.heap.hashes (shortLives (2 ^ 32))).length = 2 ^ 32 ∧
      (seededMachine.heap.hashes (shortLives 1000000)).count 0 ≤ 2 ∧
      (seededMachine.heap.hashes (shortLives (2 ^ 32))).count 0x7FFFFFFF = 2 ∧
      ∃ cs, ((Operation.newString "text").run {} seededMachine).2.heap =
        seededMachine.heap.calls cs := by
  have hcount := countP_shortLives (2 ^ 32)
  have hfewer : (shortLives 1000000).countP HeapCall.adds ≤ 2 ^ 32 := by
    rw [countP_shortLives]
    omega
  have hrun : Machine.HeapRun {} seededMachine
      ((Operation.newString "text").run {} seededMachine).2 :=
    .single (.operation (.newString "text"))
  obtain ⟨hall, hle, heq, hcalls⟩ := identity_hashes_of_calls (h := seededMachine.heap) rfl
  exact ⟨hcount, (hall _).1.trans hcount, hle _ hfewer _, heq _ hcount _ (by decide),
    hcalls {} seededMachine _ rfl hrun⟩

end Heap

end JavaMachine
