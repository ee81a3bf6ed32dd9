import Sequences.Fault
import Sequences.Feed.Source
import Sequences.Feed.Visit

/-!
Fibonacci terms in 64-bit words, in three forms: a term that wraps around, a
term that is refused if it does not fit, and the run of all terms that do
fit.
-/

namespace Sequences

namespace Fibonacci

/-- The last index whose term fits into a word. -/
def maxIndex : Nat := 93

/-- Terms `n` and `n + 1` modulo `2 ^ 64`, from the terms at half the index. -/
def pair (n : Nat) : UInt64 × UInt64 :=
  if n = 0 then (0, 1)
  else
    let (a, b) := pair (n / 2)
    let even := a * (2 * b - a)
    let odd := a * a + b * b
    if n % 2 = 0 then (even, odd) else (odd, even + odd)

/-- The term modulo `2 ^ 64`. -/
def wrapped (n : Nat) : UInt64 := (pair n).1

/-- Adds so many times, beginning with the terms `a` and `b`, and gives the last sum. -/
def accumulate : Nat → UInt64 → UInt64 → UInt64
  | 0, _, b => b
  | count + 1, a, b => accumulate count b (a + b)

/-- The term modulo `2 ^ 64` again, by one addition for every index behind the first two. The
number of additions is a word. -/
def summed (n : UInt32) : UInt64 :=
  if n < 2 then n.toUInt64 else accumulate (n - 1).toNat 0 1

/-- The term modulo `2 ^ 64`, by the recurrence. -/
def term : Nat → UInt64
  | 0 => 0
  | 1 => 1
  | n + 2 => term n + term (n + 1)

/-- However often is added, the result is the term at the index that is reached. -/
theorem accumulate_eq_term (count i : Nat) :
    accumulate count (term i) (term (i + 1)) = term (i + count + 1) := by
  induction count generalizing i with
  | zero => rfl
  | succ count ih =>
      rw [accumulate, ← term, ih, Nat.add_right_comm i 1 count, Nat.add_assoc i count 1]

/-- The first two terms are their own indices. -/
theorem toUInt64_eq_term {n : UInt32} (hSmall : n.toNat < 2) : n.toUInt64 = term n.toNat := by
  apply UInt64.toNat_inj.mp
  rw [UInt32.toNat_toUInt64]
  rcases (by omega : n.toNat = 0 ∨ n.toNat = 1) with hZero | hOne
  · rw [hZero]
    rfl
  · rw [hOne]
    rfl

theorem summed_eq_term (n : UInt32) : summed n = term n.toNat := by
  have hTwo : n < 2 ↔ n.toNat < 2 := UInt32.lt_iff_toNat_lt
  unfold summed
  split
  next hSmall => exact toUInt64_eq_term (hTwo.mp hSmall)
  next hLarge =>
    rw [hTwo] at hLarge
    have hOne : 1 ≤ n := by
      rw [UInt32.le_iff_toNat_le, UInt32.toNat_one]
      omega
    have hFirst : accumulate (n - 1).toNat 0 1 = term (0 + (n - 1).toNat + 1) :=
      accumulate_eq_term _ 0
    rw [hFirst, UInt32.toNat_sub_of_le _ _ hOne, UInt32.toNat_one]
    congr 1
    omega

/-- A term by the terms of two indices that add up to the one before. -/
theorem term_add (m n : Nat) :
    term (m + n + 1) = term m * term n + term (m + 1) * term (n + 1) := by
  induction m generalizing n with
  | zero => simp [term]
  | succ m ih =>
      have hShift : m + 1 + n + 1 = m + (n + 1) + 1 := by omega
      rw [hShift, ih, term, term]
      grind

theorem term_double_add_one (n : Nat) :
    term (2 * n + 1) = term n * term n + term (n + 1) * term (n + 1) := by
  rw [Nat.two_mul, term_add]

theorem term_double (n : Nat) : term (2 * n) = term n * (2 * term (n + 1) - term n) := by
  cases n with
  | zero => rfl
  | succ n =>
      have hSplit : 2 * (n + 1) = n + (n + 1) + 1 := by omega
      rw [hSplit, term_add, term]
      grind

/-- Doubling the index keeps both terms right. -/
theorem pair_eq (n : Nat) : pair n = (term n, term (n + 1)) := by
  fun_induction pair n with
  | case1 => rfl
  | case2 n hn a b hHalf even odd hEven ih =>
      obtain ⟨rfl, rfl⟩ := Prod.mk.inj (hHalf.symm.trans ih)
      have hDouble : n = 2 * (n / 2) := by omega
      rw [hDouble, term_double, term_double_add_one]
  | case3 n hn a b hHalf even odd hOdd ih =>
      obtain ⟨rfl, rfl⟩ := Prod.mk.inj (hHalf.symm.trans ih)
      have hDouble : n = 2 * (n / 2) + 1 := by omega
      rw [hDouble, term, term_double, term_double_add_one]

/-- Doubling the index and adding term by term give the same, for every index. -/
theorem wrapped_eq_summed (n : UInt32) : wrapped n.toNat = summed n := by
  rw [wrapped, pair_eq, summed_eq_term]

/-- The sum, unless it does not fit. -/
def add? (a b : UInt64) : Option UInt64 :=
  if a + b < a then none else some (a + b)

/-- A sum that fits is the sum of the numbers. -/
theorem toNat_of_add?_eq_some {a b sum : UInt64} (hSum : add? a b = some sum) :
    sum.toNat = a.toNat + b.toNat := by
  have ha := a.toNat_lt
  have hb := b.toNat_lt
  unfold add? at hSum
  split at hSum
  next => cases hSum
  next hFits =>
    cases hSum
    rw [UInt64.lt_iff_toNat_lt, UInt64.toNat_add] at hFits
    rw [UInt64.toNat_add]
    omega

/-- Climbs from the terms `a` and `b`, until the index has passed `n` or a term
does not fit. The index is a word as well: if `n` is the largest one, no index
passes it. What ends the climb is that every step makes the terms larger. -/
def climb (n index : UInt32) (a b : UInt64) (hPos : 0 < b) : Except Failure UInt64 :=
  if index ≤ n then
    match hSum : add? a b with
    | none => .error (.overflow n.toNat index.toNat)
    | some sum => climb n (index + 1) b sum (by
      have hNat := toNat_of_add?_eq_some hSum
      rw [UInt64.lt_iff_toNat_lt, UInt64.toNat_zero] at hPos ⊢
      omega)
  else .ok b
termination_by 36893488147419103232 - (a.toNat + b.toNat)
decreasing_by
  have hNat := toNat_of_add?_eq_some hSum
  have hb := b.toNat_lt
  have hSumLt := sum.toNat_lt
  rw [UInt64.lt_iff_toNat_lt, UInt64.toNat_zero] at hPos
  omega

/-- The term itself, or the first index on the way to it at which the terms
no longer fit. -/
def checked (n : UInt32) : Except Failure UInt64 :=
  if n < 2 then .ok n.toUInt64 else climb n 2 0 1 (by decide)

/-- The word that is reported, and what was wrong. A term that does not fit is
reported as zero. -/
def report (n : UInt32) : UInt64 × Option Failure :=
  match checked n with
  | .ok term => (term, none)
  | .error failure => (0, some failure)

/-- The indices and terms from index `n` on, where the next two terms are `a` and
`b`. There are none behind the last index, and every index comes to it, one that
has passed it by wrapping around. -/
def termsFrom (n : UInt32) (a b : UInt64) : List (Nat × UInt64) :=
  (n.toNat, a) :: if n = .ofNat maxIndex then [] else termsFrom (n + 1) b (a + b)
termination_by (.ofNat maxIndex - n).toNat
decreasing_by
  rename_i hMore
  have hn := n.toNat_lt
  have hMax : (UInt32.ofNat maxIndex).toNat = 93 := rfl
  rw [← UInt32.toNat_inj, hMax] at hMore
  rw [UInt32.toNat_sub, UInt32.toNat_sub, UInt32.toNat_add, UInt32.toNat_one, hMax]
  omega

/-- All terms that fit, with their indices. -/
def terms : List (Nat × UInt64) := termsFrom 0 0 1

/-- The terms as an input that can be read any number of times. -/
def feed : Feed (Nat × UInt64) (Nat × UInt64) := .replay ⟨"fibonacci", []⟩ terms false

/-- What successive readings of the terms receive. -/
def readings (limits : List Limit) : List (List (Nat × UInt64)) :=
  (feed.visits limits ⟨[]⟩).map Visit.got

/-- The terms that fit as an input of a plan. -/
def source : Source UInt64 := ⟨terms.map Prod.snd, false, false⟩

/-- An overflow report as it reads when another report passes it on. -/
def passedOn (failure : Failure) : String := "wrapped: " ++ failure.message

end Fibonacci

end Sequences
