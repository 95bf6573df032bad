/-
# Reading prefix codes

A prefix code is read without marks between its words. `PrefixTree.Codes` tells which words a tree has,
and reading takes exactly a word off the front (`decode?_eq_some_iff`). Which word that is depends on
nothing that stands behind it, since no word of a tree starts with another.

The words of a canonical code are numbers in ascending order: each is above all continuations of the
words before it, so they are apart from each other (`pairwise_apart_words`), and none of them is lost
when they are put into a tree (`decode?_ofLengths_iff`). Where the lengths say that the words use up all
there is, each number lies between the continuations of one of them, so the code reads everything that is
long enough (`reads_of_isComplete`).
-/
import JavaMachine.Archive.Huffman
import Mathlib.Algebra.Group.Nat.Defs
import Mathlib.Data.List.Induction
import Mathlib.Data.List.Sigma

namespace JavaMachine

namespace PrefixTree

/-! ## The words of a tree -/

/-- A word of the code, and what it stands for. -/
inductive Codes : PrefixTree → List Bool → Nat → Prop
  | leaf (s : Nat) : Codes (leaf s) [] s
  | zero {z o : PrefixTree} {word : List Bool} {s : Nat} :
      Codes z word s → Codes (node z o) (false :: word) s
  | one {z o : PrefixTree} {word : List Bool} {s : Nat} :
      Codes o word s → Codes (node z o) (true :: word) s

/-- What is left of a tree behind a bit. -/
def child : PrefixTree → Bool → PrefixTree
  | node z o, b => if b then o else z
  | _, _ => absent

/-- Only a leaf has the word without bits. -/
theorem codes_nil_iff {tree : PrefixTree} {s : Nat} : tree.Codes [] s ↔ tree = leaf s := by
  constructor
  · rintro ⟨⟩
    rfl
  · rintro rfl
    exact .leaf s

/-- Behind its first bit, a word is one of what is left of the tree. -/
theorem codes_cons_iff {tree : PrefixTree} {b : Bool} {word : List Bool} {s : Nat} :
    tree.Codes (b :: word) s ↔ (tree.child b).Codes word s := by
  constructor
  · rintro (_ | h | h) <;> exact h
  · intro h
    cases tree with
    | absent | leaf => cases h
    | node z o =>
      cases b with
      | false => exact .zero h
      | true => exact .one h

/-- Reading takes one word off the front, and leaves what stands behind it. -/
theorem decode?_eq_some_iff {tree : PrefixTree} {bits rest : List Bool} {s : Nat} :
    tree.decode? bits = some (s, rest) ↔ ∃ word, tree.Codes word s ∧ bits = word ++ rest := by
  induction tree generalizing bits with
  | absent =>
    constructor
    · nofun
    · rintro ⟨_, ⟨⟩, _⟩
  | leaf n =>
    constructor
    · rintro ⟨⟩
      exact ⟨[], .leaf s, rfl⟩
    · rintro ⟨_, ⟨⟩, rfl⟩
      rfl
  | node z o ihz iho =>
    constructor
    · rcases bits with _ | ⟨_ | _, bits⟩
      · nofun
      · intro h
        obtain ⟨word, hword, rfl⟩ := ihz.mp h
        exact ⟨_, .zero hword, rfl⟩
      · intro h
        obtain ⟨word, hword, rfl⟩ := iho.mp h
        exact ⟨_, .one hword, rfl⟩
    · rintro ⟨_, _ | h | h, rfl⟩
      · exact ihz.mpr ⟨_, h, rfl⟩
      · exact iho.mpr ⟨_, h, rfl⟩

/-- A text starts with at most one word of a tree. -/
theorem Codes.cancel {tree : PrefixTree} {word word' rest rest' : List Bool} {s s' : Nat}
    (h : tree.Codes word s) (h' : tree.Codes word' s') (heq : word ++ rest = word' ++ rest') :
    word = word' ∧ s = s' ∧ rest = rest' := by
  have hread : tree.decode? (word ++ rest) = some (s, rest) := decode?_eq_some_iff.mpr ⟨word, h, rfl⟩
  have hread' : tree.decode? (word ++ rest) = some (s', rest') :=
    decode?_eq_some_iff.mpr ⟨word', h', heq⟩
  rw [hread] at hread'
  obtain ⟨rfl, rfl⟩ := Prod.mk.inj (Option.some.inj hread')
  exact ⟨List.append_cancel_right heq, rfl, rfl⟩

/-- Every symbol takes at least one bit, unless the tree is a leaf. -/
theorem length_lt_of_decode? {tree : PrefixTree} {bits rest : List Bool} {s : Nat}
    (hleaf : ∀ n, tree ≠ leaf n) (h : tree.decode? bits = some (s, rest)) :
    rest.length < bits.length := by
  obtain ⟨word, hword, rfl⟩ := decode?_eq_some_iff.mp h
  cases word with
  | nil => exact absurd (codes_nil_iff.mp hword) (hleaf s)
  | cons b word =>
    rw [List.cons_append, List.length_cons, List.length_append]
    omega

/-! ## Adding words -/

/-- Neither of two words is a beginning of the other. -/
def Apart (word word' : List Bool) : Prop := ¬ word <+: word' ∧ ¬ word' <+: word

/-- A bit that both words begin with does not tell them apart. -/
theorem apart_cons_iff {b : Bool} {word word' : List Bool} :
    Apart (b :: word) (b :: word') ↔ Apart word word' := by
  simp only [Apart, List.cons_prefix_cons, true_and]

/-- A word is added behind its first bit. -/
theorem child_insert {tree : PrefixTree} (hleaf : ∀ n, tree ≠ leaf n) (s : Nat) (b c : Bool)
    (word : List Bool) : (tree.insert s (b :: word)).child c =
      if c = b then (tree.child c).insert s word else tree.child c := by
  cases tree with
  | leaf n => exact absurd rfl (hleaf n)
  | absent | node => cases b <;> cases c <;> rfl

/-- A leaf takes no more words. -/
theorem insert_leaf (n s : Nat) (word : List Bool) : (leaf n).insert s word = leaf n := by
  cases word <;> rfl

/-- Words that are there stay. -/
theorem Codes.insert {tree : PrefixTree} {word : List Bool} {s : Nat} (h : tree.Codes word s)
    (n : Nat) (new : List Bool) : (tree.insert n new).Codes word s := by
  induction h generalizing new with
  | leaf s =>
    rw [insert_leaf]
    exact .leaf s
  | zero h ih =>
    rcases new with _ | ⟨_ | _, new⟩
    · exact .zero h
    · exact .zero (ih new)
    · exact .zero h
  | one h ih =>
    rcases new with _ | ⟨_ | _, new⟩
    · exact .one h
    · exact .one h
    · exact .one (ih new)

/-- No other word than the new one is added. -/
theorem codes_of_insert {tree : PrefixTree} {word new : List Bool} {s n : Nat}
    (h : (tree.insert n new).Codes word s) : tree.Codes word s ∨ (word = new ∧ s = n) := by
  induction new generalizing tree word with
  | nil =>
    cases tree with
    | absent =>
      cases h
      exact Or.inr ⟨rfl, rfl⟩
    | leaf | node => exact Or.inl h
  | cons b new ih =>
    by_cases hleaf : ∃ i, tree = leaf i
    · obtain ⟨i, rfl⟩ := hleaf
      rw [insert_leaf] at h
      exact Or.inl h
    · cases word with
      | nil =>
        cases tree with
        | leaf i => exact absurd ⟨i, rfl⟩ hleaf
        | absent | node => cases b <;> cases h
      | cons c word =>
        rw [codes_cons_iff, child_insert (fun i hi => hleaf ⟨i, hi⟩)] at h
        split at h
        · rename_i hc
          subst hc
          obtain h | ⟨rfl, rfl⟩ := ih h
          · exact Or.inl (codes_cons_iff.mpr h)
          · exact Or.inr ⟨rfl, rfl⟩
        · exact Or.inl (codes_cons_iff.mpr h)

/-- Every branch of the tree leads to a word. -/
def Trim : PrefixTree → Prop
  | node z o => (∃ word s, (node z o).Codes word s) ∧ z.Trim ∧ o.Trim
  | _ => True

theorem Trim.child {tree : PrefixTree} (h : tree.Trim) (b : Bool) : (tree.child b).Trim := by
  cases tree with
  | absent | leaf => trivial
  | node z o =>
    cases b with
    | false => exact h.2.1
    | true => exact h.2.2

/-- A word that is apart from all words of a tree is added to it. -/
theorem codes_insert {tree : PrefixTree} {new : List Bool} (htrim : tree.Trim)
    (h : ∀ word s, tree.Codes word s → Apart new word) (n : Nat) :
    (tree.insert n new).Codes new n := by
  induction new generalizing tree with
  | nil =>
    -- All words start with the empty one, so nothing is there.
    have hnone : ∀ word s, ¬ tree.Codes word s := fun word s hword =>
      (h word s hword).1 List.nil_prefix
    cases tree with
    | absent => exact .leaf n
    | leaf i => exact absurd (.leaf i) (hnone _ _)
    | node z o =>
      obtain ⟨word, s, hword⟩ := htrim.1
      exact absurd hword (hnone _ _)
  | cons b new ih =>
    have hleaf : ∀ i, tree ≠ leaf i := by
      rintro i rfl
      exact (h [] i (.leaf i)).2 List.nil_prefix
    rw [codes_cons_iff, child_insert hleaf, if_pos rfl]
    exact ih (htrim.child b) fun word s hword =>
      apart_cons_iff.mp (h (b :: word) s (codes_cons_iff.mpr hword))

/-- Adding a word leaves no branch without one. -/
theorem Trim.insert {tree : PrefixTree} (h : tree.Trim) (n : Nat) (new : List Bool) :
    (tree.insert n new).Trim := by
  induction new generalizing tree with
  | nil => cases tree <;> exact h
  | cons b new ih =>
    cases tree with
    | leaf => trivial
    | absent =>
      have htrim : absent.Trim := trivial
      have hword : (absent.insert n (b :: new)).Codes (b :: new) n :=
        codes_insert htrim (fun _ _ => nofun) n
      cases b with
      | false => exact ⟨⟨_, _, hword⟩, ih trivial, trivial⟩
      | true => exact ⟨⟨_, _, hword⟩, trivial, ih trivial⟩
    | node z o =>
      obtain ⟨⟨word, s, hword⟩, hz, ho⟩ := h
      have hkept := hword.insert n (b :: new)
      cases b with
      | false => exact ⟨⟨_, _, hkept⟩, ih hz, ho⟩
      | true => exact ⟨⟨_, _, hkept⟩, hz, ih ho⟩

/-- The tree of words that are apart from each other has these words and no others. -/
theorem codes_ofWords_iff {words : List (Nat × List Bool)}
    (h : words.Pairwise fun a b => Apart b.2 a.2) {word : List Bool} {s : Nat} :
    (ofWords words).Codes word s ↔ (s, word) ∈ words := by
  suffices hfold : ∀ (words : List (Nat × List Bool)) (tree : PrefixTree), tree.Trim →
      words.Pairwise (fun a b => Apart b.2 a.2) →
      (∀ a ∈ words, ∀ w i, tree.Codes w i → Apart a.2 w) →
      ((words.foldl (fun tree a => tree.insert a.1 a.2) tree).Codes word s ↔
        tree.Codes word s ∨ (s, word) ∈ words) by
    have hnone := hfold words absent trivial h fun _ _ _ _ => nofun
    exact hnone.trans ⟨fun h => h.resolve_left nofun, Or.inr⟩
  intro words
  induction words with
  | nil => intro tree _ _ _; simp
  | cons a words ih =>
    intro tree htrim hapart htree
    obtain ⟨ha, hwords⟩ := List.pairwise_cons.mp hapart
    have hnew := codes_insert htrim (htree a (List.mem_cons_self ..)) a.1
    rw [List.foldl_cons, ih _ (htrim.insert a.1 a.2) hwords ?_]
    · constructor
      · rintro (h | h)
        · obtain h | ⟨rfl, rfl⟩ := codes_of_insert h
          · exact Or.inl h
          · exact Or.inr (List.mem_cons_self ..)
        · exact Or.inr (List.mem_cons_of_mem _ h)
      · rintro (h | h)
        · exact Or.inl (h.insert a.1 a.2)
        · rcases List.mem_cons.mp h with rfl | h
          · exact Or.inl hnew
          · exact Or.inr h
    · intro b hb w i hw
      obtain hw | ⟨rfl, rfl⟩ := codes_of_insert hw
      · exact htree b (List.mem_cons_of_mem _ hb) w i hw
      · exact ha b hb

/-! ## Words of numbers -/

theorem length_wordOf (n l : Nat) : (wordOf n l).length = l := by
  induction l with
  | zero => rfl
  | succ l ih => rw [wordOf, List.length_cons, ih]

/-- A word starts with the word of its higher bits. -/
theorem wordOf_add (n k l : Nat) : wordOf n (k + l) = wordOf (n >>> l) k ++ wordOf n l := by
  induction k with
  | zero => rw [Nat.zero_add, wordOf, List.nil_append]
  | succ k ih => rw [Nat.add_right_comm, wordOf, wordOf, ih, Nat.testBit_shiftRight, Nat.add_comm l k,
      List.cons_append]

/-- A word tells the bits of its number. -/
theorem testBit_of_wordOf_eq {n m l : Nat} (h : wordOf n l = wordOf m l) {i : Nat} (hi : i < l) :
    n.testBit i = m.testBit i := by
  induction l with
  | zero => omega
  | succ l ih =>
    obtain ⟨hbit, hrest⟩ := List.cons.inj h
    rcases Nat.lt_succ_iff_lt_or_eq.mp hi with hi | rfl
    · exact ih hrest hi
    · exact hbit

/-- Numbers that fit have different words. -/
theorem wordOf_inj {n m l : Nat} (hn : n < 2 ^ l) (hm : m < 2 ^ l) (h : wordOf n l = wordOf m l) :
    n = m := by
  apply Nat.eq_of_testBit_eq
  intro i
  by_cases hi : i < l
  · exact testBit_of_wordOf_eq h hi
  · have hpow : 2 ^ l ≤ 2 ^ i := Nat.pow_le_pow_right (by omega) (by omega)
    rw [Nat.testBit_lt_two_pow (by omega : n < 2 ^ i), Nat.testBit_lt_two_pow (by omega : m < 2 ^ i)]

/-- Every word is that of a number that fits. -/
theorem exists_wordOf (word : List Bool) : ∃ n, n < 2 ^ word.length ∧ wordOf n word.length = word := by
  induction word using List.reverseRecOn with
  | nil => exact ⟨0, by simp, rfl⟩
  | append_singleton word b ih =>
    obtain ⟨n, hn, hword⟩ := ih
    have hbit : b.toNat < 2 := Bool.toNat_lt b
    refine ⟨2 * n + b.toNat, ?_, ?_⟩
    · rw [List.length_append, List.length_singleton, Nat.pow_succ]
      omega
    · have hhigh : (2 * n + b.toNat) >>> 1 = n := by
        rw [Nat.shiftRight_eq_div_pow]
        omega
      rw [List.length_append, List.length_singleton, wordOf_add, hhigh, hword]
      cases b <;> simp [wordOf]

/-- The words that start with the word of `c` are those of the numbers from `c` on, and below the next
one, with more bits behind. -/
theorem wordOf_isPrefix_iff {c d l n : Nat} (hl : l ≤ n) (hc : c < 2 ^ l) (hd : d < 2 ^ n) :
    wordOf c l <+: wordOf d n ↔ c * 2 ^ (n - l) ≤ d ∧ d < (c + 1) * 2 ^ (n - l) := by
  obtain ⟨k, rfl⟩ := Nat.exists_eq_add_of_le hl
  have hpos : 0 < 2 ^ k := Nat.two_pow_pos k
  have hhigh : d >>> k < 2 ^ l := by
    rw [Nat.shiftRight_eq_div_pow, Nat.div_lt_iff_lt_mul hpos, ← Nat.pow_add]
    exact hd
  have hiff : wordOf c l <+: wordOf d (l + k) ↔ c = d >>> k := by
    rw [wordOf_add, List.prefix_iff_eq_take, length_wordOf, List.take_left' (length_wordOf _ _)]
    exact ⟨wordOf_inj hc hhigh, fun h => by rw [h]⟩
  rw [hiff, Nat.shiftRight_eq_div_pow, Nat.add_sub_cancel_left, ← Nat.le_div_iff_mul_le hpos,
    ← Nat.div_lt_iff_lt_mul hpos]
  omega

/-- The words of two numbers are apart where the longer one is above the continuations of the other. -/
theorem apart_wordOf {c d l n : Nat} (hl : l ≤ n) (hc : c < 2 ^ l) (hd : d < 2 ^ n)
    (h : (c + 1) * 2 ^ (n - l) ≤ d) : Apart (wordOf d n) (wordOf c l) := by
  have hprefix : ¬ wordOf c l <+: wordOf d n := fun hp =>
    absurd ((wordOf_isPrefix_iff hl hc hd).mp hp).2 (Nat.not_lt.mpr h)
  refine ⟨fun hp => ?_, hprefix⟩
  have hlength := hp.length_le
  rw [length_wordOf, length_wordOf] at hlength
  have heq := hp.eq_of_length (by rw [length_wordOf, length_wordOf]; omega)
  exact hprefix (heq ▸ List.prefix_rfl)

/-! ## Canonical codes -/

variable {pairs : List (Nat × Nat)} {code length : Nat}

/-- Numbers keep their places when they are made longer in two steps. -/
theorem shift_shift {l n : Nat} (hl : length ≤ l) (hn : l ≤ n) (code : Nat) :
    code * 2 ^ (l - length) * 2 ^ (n - l) = code * 2 ^ (n - length) := by
  rw [Nat.mul_assoc, ← Nat.pow_add]
  congr 2
  omega

/-- Each word is that of a number that fits, not below the one to start from. -/
theorem exists_wordOf_of_mem_words (hpairs : pairs.Pairwise fun a b => a.1 ≤ b.1)
    (hlength : ∀ a ∈ pairs, length ≤ a.1) {s : Nat} {word : List Bool}
    (h : (s, word) ∈ words code length pairs) :
    ∃ l c, (l, s) ∈ pairs ∧ code * 2 ^ (l - length) ≤ c ∧ c < 2 ^ l ∧ word = wordOf c l := by
  induction pairs generalizing code length with
  | nil => cases h
  | cons a pairs ih =>
    obtain ⟨ha, hpairs⟩ := List.pairwise_cons.mp hpairs
    have hal := hlength a (List.mem_cons_self ..)
    simp only [words, Nat.shiftLeft_eq, Nat.one_mul] at h
    split at h
    · rename_i hcode
      rcases List.mem_cons.mp h with h | h
      · cases h
        exact ⟨a.1, _, List.mem_cons_self .., Nat.le_refl _, hcode, rfl⟩
      · obtain ⟨l, c, hmem, hle, hc, rfl⟩ := ih hpairs ha h
        refine ⟨l, c, List.mem_cons_of_mem _ hmem, Nat.le_trans ?_ hle, hc, rfl⟩
        rw [← shift_shift hal (ha _ hmem)]
        exact Nat.mul_le_mul_right _ (Nat.le_succ _)
    · cases h

/-- Words of ascending lengths are apart. -/
theorem pairwise_apart_words (hpairs : pairs.Pairwise fun a b => a.1 ≤ b.1) :
    (words code length pairs).Pairwise fun a b => Apart b.2 a.2 := by
  induction pairs generalizing code length with
  | nil => exact .nil
  | cons a pairs ih =>
    obtain ⟨ha, hpairs⟩ := List.pairwise_cons.mp hpairs
    simp only [words, Nat.shiftLeft_eq, Nat.one_mul]
    split
    · rename_i hcode
      refine List.pairwise_cons.mpr ⟨?_, ih hpairs⟩
      rintro ⟨s, word⟩ hmem
      obtain ⟨l, c, hl, hle, hc, rfl⟩ := exists_wordOf_of_mem_words hpairs ha hmem
      exact apart_wordOf (ha _ hl) hcode hc hle
    · exact .nil

/-- The part of all words of `n` bits that words of some lengths take, in words. -/
def taken (n : Nat) : (pairs : List (Nat × Nat)) → Nat
  | [] => 0
  | a :: pairs => 2 ^ (n - a.1) + taken n pairs

/-- What is taken does not depend on the order of the words. -/
theorem taken_perm {n : Nat} {pairs' : List (Nat × Nat)} (h : pairs.Perm pairs') :
    taken n pairs = taken n pairs' := by
  induction h with
  | nil => rfl
  | cons a _ ih => rw [taken, taken, ih]
  | swap a b _ =>
    simp only [taken]
    omega
  | trans _ _ ih ih' => exact ih.trans ih'

/-- Where there is room for all words, none is left out. -/
theorem exists_mem_words {n : Nat} (hpairs : pairs.Pairwise fun a b => a.1 ≤ b.1)
    (hlength : ∀ a ∈ pairs, length ≤ a.1) (hn : ∀ a ∈ pairs, a.1 ≤ n)
    (hroom : code * 2 ^ (n - length) + taken n pairs ≤ 2 ^ n) {l s : Nat} (h : (l, s) ∈ pairs) :
    ∃ word, word.length = l ∧ (s, word) ∈ words code length pairs := by
  induction pairs generalizing code length with
  | nil => cases h
  | cons a pairs ih =>
    obtain ⟨ha, hpairs⟩ := List.pairwise_cons.mp hpairs
    have hal := hlength a (List.mem_cons_self ..)
    have han := hn a (List.mem_cons_self ..)
    have hpow : 2 ^ a.1 * 2 ^ (n - a.1) = 2 ^ n := by
      rw [← Nat.pow_add, Nat.add_sub_cancel' han]
    have hpos : 0 < 2 ^ (n - a.1) := Nat.two_pow_pos _
    rw [taken, ← shift_shift hal han] at hroom
    have hcode : code * 2 ^ (a.1 - length) < 2 ^ a.1 := by
      apply Nat.lt_of_mul_lt_mul_right (a := 2 ^ (n - a.1))
      omega
    simp only [words, Nat.shiftLeft_eq, Nat.one_mul, if_pos hcode]
    rcases List.mem_cons.mp h with rfl | h
    · exact ⟨_, length_wordOf _ _, List.mem_cons_self ..⟩
    · have hrest : (code * 2 ^ (a.1 - length) + 1) * 2 ^ (n - a.1) + taken n pairs ≤ 2 ^ n := by
        rw [Nat.add_mul, Nat.one_mul]
        omega
      obtain ⟨word, hword, hmem⟩ := ih hpairs ha (fun b hb => hn b (List.mem_cons_of_mem _ hb)) hrest h
      exact ⟨word, hword, List.mem_cons_of_mem _ hmem⟩

/-- Where words use up all that is left, each number from there on starts with one of them. -/
theorem exists_isPrefix_of_words {n d : Nat} (hpairs : pairs.Pairwise fun a b => a.1 ≤ b.1)
    (hlength : ∀ a ∈ pairs, length ≤ a.1) (hn : ∀ a ∈ pairs, a.1 ≤ n)
    (hfull : 2 ^ n ≤ code * 2 ^ (n - length) + taken n pairs)
    (hfrom : code * 2 ^ (n - length) ≤ d) (hd : d < 2 ^ n) :
    ∃ a ∈ words code length pairs, a.2 <+: wordOf d n := by
  induction pairs generalizing code length with
  | nil =>
    rw [taken] at hfull
    omega
  | cons a pairs ih =>
    obtain ⟨ha, hpairs⟩ := List.pairwise_cons.mp hpairs
    have hal := hlength a (List.mem_cons_self ..)
    have han := hn a (List.mem_cons_self ..)
    have hpow : 2 ^ a.1 * 2 ^ (n - a.1) = 2 ^ n := by
      rw [← Nat.pow_add, Nat.add_sub_cancel' han]
    rw [← shift_shift hal han] at hfull hfrom
    rw [taken] at hfull
    have hcode : code * 2 ^ (a.1 - length) < 2 ^ a.1 := by
      apply Nat.lt_of_mul_lt_mul_right (a := 2 ^ (n - a.1))
      omega
    simp only [words, Nat.shiftLeft_eq, Nat.one_mul, if_pos hcode]
    by_cases hnext : d < (code * 2 ^ (a.1 - length) + 1) * 2 ^ (n - a.1)
    · exact ⟨_, List.mem_cons_self .., (wordOf_isPrefix_iff han hcode hd).mpr ⟨hfrom, hnext⟩⟩
    · have hrest : 2 ^ n ≤ (code * 2 ^ (a.1 - length) + 1) * 2 ^ (n - a.1) + taken n pairs := by
        rw [Nat.add_mul, Nat.one_mul]
        omega
      obtain ⟨b, hb, hprefix⟩ := ih hpairs ha (fun b hb => hn b (List.mem_cons_of_mem _ hb)) hrest
        (Nat.not_lt.mp hnext)
      exact ⟨b, List.mem_cons_of_mem _ hb, hprefix⟩

/-! ## The code of some lengths -/

variable {lengths : List Nat}

/-- The (length, symbol) pairs of a code, the shortest first. -/
def byLength (lengths : List Nat) : List (Nat × Nat) :=
  (List.range (longest lengths)).flatMap fun l => lengths.zipIdx.filter (·.1 = l + 1)

/-- No word is longer than the longest. -/
theorem le_longest {l : Nat} (h : l ∈ lengths) : l ≤ longest lengths := by
  suffices hfold : ∀ (lengths : List Nat) (m : Nat), m ≤ lengths.foldl max m ∧
      ∀ l ∈ lengths, l ≤ lengths.foldl max m from (hfold lengths 0).2 l h
  intro lengths
  induction lengths with
  | nil => exact fun m => ⟨Nat.le_refl m, nofun⟩
  | cons a lengths ih =>
    intro m
    obtain ⟨hm, hall⟩ := ih (max m a)
    refine ⟨Nat.le_trans (Nat.le_max_left m a) hm, fun l hl => ?_⟩
    rcases List.mem_cons.mp hl with rfl | hl
    · exact Nat.le_trans (Nat.le_max_right m l) hm
    · exact hall l hl

/-- The pairs are those of the symbols that have a word. -/
theorem mem_byLength {l s : Nat} : (l, s) ∈ byLength lengths ↔ 0 < l ∧ lengths[s]? = some l := by
  simp only [byLength, List.mem_flatMap, List.mem_range, List.mem_filter, decide_eq_true_eq,
    List.mem_zipIdx_iff_getElem?]
  constructor
  · rintro ⟨k, _, hs, rfl⟩
    exact ⟨Nat.succ_pos k, hs⟩
  · rintro ⟨hl, hs⟩
    have hle := le_longest (List.mem_of_getElem? hs)
    exact ⟨l - 1, by omega, hs, by omega⟩

theorem le_longest_of_mem_byLength {a : Nat × Nat} (h : a ∈ byLength lengths) :
    a.1 ≤ longest lengths := le_longest (List.mem_of_getElem? (mem_byLength.mp h).2)

theorem pairwise_byLength (lengths : List Nat) :
    (byLength lengths).Pairwise fun a b => a.1 ≤ b.1 := by
  refine List.pairwise_flatMap.mpr ⟨fun l _ => ?_, ?_⟩
  · refine List.pairwise_of_forall_mem_list fun a ha b hb => ?_
    have ha := of_decide_eq_true (List.mem_filter.mp ha).2
    have hb := of_decide_eq_true (List.mem_filter.mp hb).2
    omega
  · refine List.pairwise_lt_range.imp fun hlt a ha b hb => ?_
    have ha := of_decide_eq_true (List.mem_filter.mp ha).2
    have hb := of_decide_eq_true (List.mem_filter.mp hb).2
    omega

/-- Ordering the pairs by length leaves out those without a word. -/
theorem byLength_perm (lengths : List Nat) :
    (byLength lengths).Perm (lengths.zipIdx.filter (0 < ·.1)) := by
  have hnodup : lengths.zipIdx.Nodup := (List.nodup_zipIdx_map_snd lengths).of_map _
  refine (List.perm_ext_iff_of_nodup ?_ (hnodup.filter _)).mpr ?_
  · refine List.nodup_flatMap.mpr ⟨fun l _ => hnodup.filter _, ?_⟩
    refine List.pairwise_lt_range.imp fun hlt a ha hb => ?_
    have ha := of_decide_eq_true (List.mem_filter.mp ha).2
    have hb := of_decide_eq_true (List.mem_filter.mp hb).2
    omega
  · rintro ⟨l, s⟩
    rw [mem_byLength, List.mem_filter, List.mem_zipIdx_iff_getElem?, decide_eq_true_eq, and_comm]

/-- The words of complete codes take all there are. -/
theorem isComplete_iff :
    isComplete lengths = true ↔ taken (longest lengths) (byLength lengths) =
      2 ^ longest lengths := by
  have hsum : ∀ pairs : List (Nat × Nat), (pairs.map Prod.fst).foldr
      (fun l sum => 1 <<< (longest lengths - l) + sum) 0 = taken (longest lengths) pairs := by
    intro pairs
    induction pairs with
    | nil => rfl
    | cons a pairs ih => rw [List.map_cons, List.foldr_cons, ih, taken, Nat.shiftLeft_eq, Nat.one_mul]
  have hfilter : (lengths.zipIdx.filter (0 < ·.1)).map Prod.fst = lengths.filter (0 < ·) := by
    conv => rhs; rw [← List.zipIdx_map_fst 0 lengths, List.filter_map]
    rfl
  rw [isComplete, decide_eq_true_eq, ← hfilter, hsum, taken_perm (byLength_perm lengths),
    Nat.shiftLeft_eq, Nat.one_mul]

/-- The words of a code, each with what it stands for. -/
def canonicalWords (lengths : List Nat) : List (Nat × List Bool) := words 0 0 (byLength lengths)

/-- The tree of some lengths has just the words of their canonical code. -/
theorem codes_ofLengths_iff {word : List Bool} {s : Nat} :
    (ofLengths lengths).Codes word s ↔ (s, word) ∈ canonicalWords lengths :=
  codes_ofWords_iff (pairwise_apart_words (pairwise_byLength lengths))

/-- A word has the length that is given for its symbol. -/
theorem getElem?_of_mem_canonicalWords {word : List Bool} {s : Nat}
    (h : (s, word) ∈ canonicalWords lengths) : 0 < word.length ∧ lengths[s]? = some word.length := by
  obtain ⟨l, c, hmem, _, _, rfl⟩ := exists_wordOf_of_mem_words (pairwise_byLength lengths)
    (fun _ _ => Nat.zero_le _) h
  rw [length_wordOf]
  exact mem_byLength.mp hmem

/-- Every word has a bit. -/
theorem ofLengths_ne_leaf (s : Nat) : ofLengths lengths ≠ leaf s := fun h =>
  absurd (getElem?_of_mem_canonicalWords (codes_ofLengths_iff.mp (codes_nil_iff.mpr h))).1
    (Nat.lt_irrefl 0)

/-- Reading in the code of some lengths is taking one of its words off the front. -/
theorem decode?_ofLengths_iff {bits rest : List Bool} {s : Nat} :
    (ofLengths lengths).decode? bits = some (s, rest) ↔
      ∃ word, (s, word) ∈ canonicalWords lengths ∧ bits = word ++ rest := by
  simp only [decode?_eq_some_iff, codes_ofLengths_iff]

/-- A complete code has a word for each symbol that is given a length, and reads all that is long
enough. -/
theorem reads_of_isComplete (h : isComplete lengths = true) :
    (∀ s l, lengths[s]? = some l → 0 < l →
      ∃ word, word.length = l ∧ (s, word) ∈ canonicalWords lengths) ∧
    ∀ bits : List Bool, longest lengths ≤ bits.length →
      ∃ s rest, (ofLengths lengths).decode? bits = some (s, rest) := by
  have hfull := isComplete_iff.mp h
  have hn := fun a (ha : a ∈ byLength lengths) => le_longest_of_mem_byLength ha
  constructor
  · intro s l hs hl
    exact exists_mem_words (pairwise_byLength lengths) (fun _ _ => Nat.zero_le _) hn
      (by rw [Nat.zero_mul, Nat.zero_add, hfull]) (mem_byLength.mpr ⟨hl, hs⟩)
  · intro bits hbits
    obtain ⟨d, hd, hword⟩ := exists_wordOf (bits.take (longest lengths))
    rw [List.length_take_of_le hbits] at hd hword
    obtain ⟨⟨s, word⟩, hmem, hprefix⟩ := exists_isPrefix_of_words (pairwise_byLength lengths)
      (fun _ _ => Nat.zero_le _) hn (by rw [hfull]; omega) (by rw [Nat.zero_mul]; exact Nat.zero_le _) hd
    rw [hword] at hprefix
    obtain ⟨rest, hrest⟩ := hprefix.trans (List.take_prefix _ _)
    exact ⟨s, rest, decode?_ofLengths_iff.mpr ⟨word, hmem, hrest.symm⟩⟩

end PrefixTree

end JavaMachine
