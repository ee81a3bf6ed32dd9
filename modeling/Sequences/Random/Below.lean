import Sequences.Random.Generator

/-!
Uniform numbers below a bound. A word is scaled to the bound by taking the
upper half of the product of the two. The products whose lower half is small
would favour some numbers, so these words are rejected and others are drawn;
there are fewer of them than the bound. For a power of two nothing needs to
be rejected, and the low bits of the word are the number.
-/

namespace Sequences

namespace Draw

/-- The number of words. -/
def wordCount : Nat := 0x10000000000000000

/-- The number that a word stands for, unless it is rejected. -/
def scaled? (bound : Nat) (word : UInt64) : Option Nat :=
  let product := word.toNat * bound
  if product % wordCount < wordCount % bound then none else some (product / wordCount)

/-- Draws up to `tries` words until one is accepted. -/
def retry (bound : Nat) : Nat → Draw Nat
  | 0 => throw .exhausted
  | tries + 1 => do
    match scaled? bound (← word) with
    | some number => return number
    | none => retry bound tries

def isPowerOfTwo (n : Nat) : Bool := n &&& (n - 1) == 0

/-- A number below the bound. The horizon of the source suffices for the
tries: a list of words runs out before, and the cycle of the other source
contains words that are accepted. -/
def below (bound : Nat) : Draw Nat := do
  if isPowerOfTwo bound then
    return (← word).toNat % bound
  else
    retry bound (← get).horizon

end Draw

end Sequences
