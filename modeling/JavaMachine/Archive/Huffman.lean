/-
# Prefix codes

A prefix code is a binary tree with the symbols at its leaves. A canonical code is given by the
lengths of its code words alone: shorter words come first, and words of one length are in the order
of their symbols.
-/
import JavaMachine.Archive.Bits

namespace JavaMachine

/-- A binary tree with symbols at its leaves; an absent branch is a word that codes nothing. -/
inductive PrefixTree where
  | absent
  | leaf (symbol : Nat)
  | node (zero one : PrefixTree)
deriving DecidableEq, Repr

namespace PrefixTree

/-- Reads one word off some bits: its symbol, and the bits behind it. There is none when the bits end
inside a word, or when no word starts like them. -/
def decode? : PrefixTree → List Bool → Option (Nat × List Bool)
  | absent, _ => none
  | leaf s, bits => some (s, bits)
  | node _ _, [] => none
  | node zero one, b :: bits => if b then one.decode? bits else zero.decode? bits

/-- The next symbol. -/
def next (tree : PrefixTree) : BitIntake Nat := tree.decode?

/-- The next `n` symbols. -/
def nextSymbols (tree : PrefixTree) : (n : Nat) → (sofar : Array Nat) → BitIntake (Array Nat)
  | 0, sofar => return sofar
  | n + 1, sofar => do tree.nextSymbols n (sofar.push (← tree.next))

/-- Adds a word for a symbol. Nothing is added when the word, a beginning of it or a continuation of
it is there already. -/
def insert (s : Nat) : List Bool → PrefixTree → PrefixTree
  | [], absent => leaf s
  | b :: word, absent =>
    if b then node absent (insert s word absent) else node (insert s word absent) absent
  | b :: word, node zero one =>
    if b then node zero (insert s word one) else node (insert s word zero) one
  | _, t => t

/-- The code with a word for each of some symbols. -/
def ofWords (words : List (Nat × List Bool)) : PrefixTree :=
  words.foldl (fun tree (s, word) => insert s word tree) absent

/-- The `length` lowest bits of a number, the highest first. -/
def wordOf (code : Nat) : (length : Nat) → List Bool
  | 0 => []
  | n + 1 => code.testBit n :: wordOf code n

/-- The words of a canonical code, from the (length, symbol) pairs in their order: each word is the
one before plus one, made longer by zeros where the length grows. There are no words behind the one
of ones alone. -/
def words (code length : Nat) : List (Nat × Nat) → List (Nat × List Bool)
  | [] => []
  | (l, s) :: rest =>
    let code := code <<< (l - length)
    if code < 1 <<< l then (s, wordOf code l) :: words (code + 1) l rest else []

/-- The length of the longest word. -/
def longest (lengths : List Nat) : Nat := lengths.foldl max 0

/-- The canonical code in which symbol `s` has a word of length `lengths[s]`, or none if that is
zero. -/
def ofLengths (lengths : List Nat) : PrefixTree :=
  ofWords (words 0 0 ((List.range (longest lengths)).flatMap fun l =>
    lengths.zipIdx.filter (·.1 = l + 1)))

/-- Whether words of some lengths use up all bit sequences: a word of length `l` takes one part in
two to the `l` of them. -/
def isComplete (lengths : List Nat) : Bool :=
  let n := longest lengths
  (lengths.filter (0 < ·)).foldr (fun l sum => 1 <<< (n - l) + sum) 0 = 1 <<< n

end PrefixTree

example : (PrefixTree.ofLengths [2, 1, 3, 3]).decode? [true, true, false, true] =
    some (2, [true]) := by decide +kernel
example : PrefixTree.isComplete [2, 1, 3, 3] ∧ !PrefixTree.isComplete [2, 1, 3] ∧
    !PrefixTree.isComplete [1, 1, 1] := by decide +kernel

end JavaMachine
