import Sequences.Fault

/-!
Sources of random words. A permuted congruential generator runs through all
128-bit states in one cycle and scrambles each of them into a word. A fixed
list of words is the other source; it can run out.
-/

namespace Sequences

inductive Generator where
  | congruential (state : BitVec 128)
  /-- The words to come, and how many were taken before them. -/
  | words (rest : List UInt64) (used : Nat)

/-- Computations that draw random words. Words that were taken stay taken if
the source then runs out. -/
abbrev Draw := ExceptT Fault (StateM Generator)

namespace Generator

def ofSeeds (high low : UInt64) : Generator :=
  .congruential (high.toBitVec ++ low.toBitVec)

def ofWords (words : List UInt64) : Generator := .words words 0

/-- The linear congruence that moves from one state to the next. -/
def step (state : BitVec 128) : BitVec 128 :=
  state * (2549297995355413924#64 ++ 4865540595714422341#64) +
    (6364136223846793005#64 ++ 1442695040888963407#64)

/-- Folds a state into a word, so that no bit of the word is a plain bit of
the state. -/
def scramble (state : BitVec 128) : UInt64 :=
  let high : UInt64 := ⟨state.extractLsb' 64 64⟩
  let low : UInt64 := ⟨state.extractLsb' 0 64⟩
  let high := high ^^^ (high >>> 32)
  let high := high * 0xda942042e4dd58b5
  let high := high ^^^ (high >>> 48)
  high * (low ||| 1)

/-- The word of a state is the scrambled next state. -/
def next : Generator → Except Fault UInt64 × Generator
  | congruential state => (.ok (scramble (step state)), .congruential (step state))
  | words [] used => (.error .exhausted, .words [] used)
  | words (word :: rest) used => (.ok word, .words rest (used + 1))

/-- How many words were taken from a list of words. -/
def used? : Generator → Option Nat
  | congruential _ => none
  | words _ used => some used

/-- The number of states of the congruence, which is the length of its one
cycle. -/
def period : Nat := 0x100000000000000000000000000000000

/-- A number of demands among which, for a list of words, one must fail, and
for the other source every word that it can deliver has come. -/
def horizon : Generator → Nat
  | congruential _ => period
  | words rest _ => rest.length + 1

end Generator

def Draw.word : Draw UInt64 := ExceptT.mk Generator.next

end Sequences
