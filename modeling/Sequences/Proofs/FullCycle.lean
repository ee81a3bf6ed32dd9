import Mathlib.Algebra.Ring.GeomSum
import Mathlib.Data.BitVec
import Mathlib.Data.Fintype.Card
import Mathlib.Data.Nat.ModEq
import Mathlib.Data.Nat.Prime.Basic
import Mathlib.Dynamics.PeriodicPts.Lemmas
import Mathlib.Tactic.Ring
import Sequences.Random.Below

/-! The cycle of a congruential generator. A number of steps moves a state by an odd number
times a sum of powers of the factor, and a power of two divides such a sum only if it divides
the number of steps. So no state comes back before all others have been met, and since every
word comes from a state, every word is drawn at some time. -/
namespace Sequences

namespace Generator

/-- The powers below the given one, added up. -/
def powerSum (a : Nat) (n : Nat) : Nat := ∑ i ∈ Finset.range n, a ^ i

theorem powerSum_succ (a n : Nat) : powerSum a (n + 1) = a * powerSum a n + 1 :=
  geom_sum_succ

theorem powerSum_two_mul (a n : Nat) : powerSum a (2 * n) = powerSum a n * (a ^ n + 1) := by
  unfold powerSum
  rw [Nat.two_mul, Finset.sum_range_add]
  simp only [pow_add, ← Finset.mul_sum]
  ring

theorem powerSum_mod_two {a : Nat} (ha : a % 4 = 1) (n : Nat) : powerSum a n % 2 = n % 2 := by
  induction n with
  | zero => rfl
  | succ n ih =>
      have hOdd : a % 2 = 1 := by omega
      rw [powerSum_succ, Nat.add_mod, Nat.mul_mod, hOdd, ih]
      omega

theorem two_pow_dvd_of_dvd_powerSum {a : Nat} (ha : a % 4 = 1) {k n : Nat}
    (hDvd : 2 ^ k ∣ powerSum a n) : 2 ^ k ∣ n := by
  induction k generalizing n with
  | zero => exact one_dvd n
  | succ k ih =>
      have hEven : n % 2 = 0 := by
        rw [← powerSum_mod_two ha]
        exact Nat.mod_eq_zero_of_dvd ((dvd_pow_self 2 k.succ_ne_zero).trans hDvd)
      obtain ⟨m, rfl⟩ := Nat.dvd_of_mod_eq_zero hEven
      -- The sum over twice as many powers has a factor that is even, but not divisible by four,
      -- so what is left of the power of two divides the sum over half of them.
      have hPow : a ^ m % 4 = 1 := by simp [Nat.pow_mod, ha]
      obtain ⟨q, hq⟩ : ∃ q, a ^ m + 1 = 2 * (2 * q + 1) := ⟨a ^ m / 4, by omega⟩
      have hCoprime : Nat.Coprime (2 ^ k) (2 * q + 1) := by
        apply Nat.Coprime.pow_left
        simp
      rw [powerSum_two_mul, hq, Nat.mul_left_comm, pow_succ'] at hDvd
      have hHalf := Nat.dvd_of_mul_dvd_mul_left Nat.two_pos hDvd
      rw [pow_succ']
      exact Nat.mul_dvd_mul_left 2 (ih (hCoprime.dvd_of_dvd_mul_right hHalf))

/-- The factor and the summand of the congruence. -/
def factor : Nat := (2549297995355413924#64 ++ 4865540595714422341#64).toNat

def summand : Nat := (6364136223846793005#64 ++ 1442695040888963407#64).toNat

theorem period_eq : period = 2 ^ 128 := rfl

theorem factor_mod_four : factor % 4 = 1 := by decide

theorem summand_mod_two : summand % 2 = 1 := by decide

theorem toNat_step (state : BitVec 128) :
    (step state).toNat ≡ state.toNat * factor + summand [MOD period] := by
  rw [step, BitVec.toNat_add, BitVec.toNat_mul, Nat.mod_add_mod]
  exact Nat.mod_modEq _ _

theorem eq_of_modEq {state other : BitVec 128} (hMod : state.toNat ≡ other.toNat [MOD period]) :
    state = other :=
  BitVec.eq_of_toNat_eq (hMod.eq_of_lt_of_lt state.isLt other.isLt)

theorem coprime_period {n : Nat} (hOdd : n % 2 = 1) : Nat.Coprime period n := by
  rw [period_eq]
  exact Nat.Coprime.pow_left _ (Nat.coprime_two_left.mpr (Nat.odd_iff.mpr hOdd))

theorem step_injective : Function.Injective step := by
  intro state other hStep
  have hMod : state.toNat * factor + summand ≡ other.toNat * factor + summand [MOD period] := by
    have hSame := (toNat_step state).symm
    rw [hStep] at hSame
    exact hSame.trans (toNat_step other)
  have hFactor : Nat.Coprime period factor := by
    have hFour := factor_mod_four
    exact coprime_period (by omega)
  exact eq_of_modEq (hMod.add_right_cancel' _ |>.cancel_right_of_coprime hFactor)

/-- How far so many steps move a state. -/
theorem toNat_iterate_step (state : BitVec 128) (n : Nat) :
    (step^[n] state).toNat ≡
      state.toNat + (state.toNat * (factor - 1) + summand) * powerSum factor n [MOD period] := by
  have hFour := factor_mod_four
  -- A variable in place of the numeral, with which nothing has to be computed.
  obtain ⟨less, hFactor⟩ : ∃ less, factor = less + 1 := ⟨factor - 1, by omega⟩
  rw [hFactor, Nat.add_sub_cancel]
  induction n with
  | zero =>
      rw [powerSum, Finset.sum_range_zero, Nat.mul_zero]
      exact Nat.ModEq.refl _
  | succ n ih =>
      have hMoved := (toNat_step (step^[n] state)).trans ((ih.mul_right factor).add_right summand)
      rw [hFactor] at hMoved
      rw [Function.iterate_succ_apply', powerSum_succ]
      convert hMoved using 1
      ring

/-- A state comes back only after all others, since it is moved by an odd number times a sum
of powers. -/
theorem period_dvd_of_iterate_step_eq {state : BitVec 128} {n : Nat}
    (hBack : step^[n] state = state) : period ∣ n := by
  have hFour := factor_mod_four
  have hMod := toNat_iterate_step state n
  rw [hBack] at hMod
  have hDvd : period ∣ (state.toNat * (factor - 1) + summand) * powerSum factor n :=
    (Nat.modEq_zero_iff_dvd.mp (Nat.ModEq.add_left_cancel' state.toNat hMod.symm))
  have hOdd : (state.toNat * (factor - 1) + summand) % 2 = 1 := by
    have hEven : (factor - 1) % 2 = 0 := by omega
    rw [Nat.add_mod, Nat.mul_mod, hEven, Nat.mul_zero, summand_mod_two]
  have hSum := (coprime_period hOdd).dvd_of_dvd_mul_left hDvd
  rw [period_eq] at hSum ⊢
  exact two_pow_dvd_of_dvd_powerSum hFour hSum

theorem period_le_minimalPeriod (state : BitVec 128) :
    period ≤ Function.minimalPeriod step state := by
  have hFinite : Finite (BitVec 128) := .of_equiv _ (BitVec.equivFin (m := 128)).symm.toEquiv
  have hPeriodic := step_injective.mem_periodicPts state
  apply Nat.le_of_dvd (Function.minimalPeriod_pos_of_mem_periodicPts hPeriodic)
  exact period_dvd_of_iterate_step_eq Function.iterate_minimalPeriod

/-- From every state all states are met. There are as many as the steps until it comes back. -/
theorem exists_iterate_step (state target : BitVec 128) :
    ∃ n < period, step^[n] state = target := by
  have hLe := period_le_minimalPeriod state
  have hInjective : Function.Injective fun n : Fin period => step^[n] state := by
    intro m n hSame
    apply Fin.ext
    exact Function.iterate_injOn_Iio_minimalPeriod (m.isLt.trans_le hLe) (n.isLt.trans_le hLe) hSame
  let states : Fin period ≃ BitVec 128 := (BitVec.equivFin (m := 128)).symm.toEquiv
  obtain ⟨n, hn⟩ := (Finite.injective_iff_surjective_of_equiv states).mp hInjective target
  exact ⟨n, n.isLt, hn⟩

/-- Mixing the upper bits of a word into its lower ones is undone by doing it again, if twice
the shift leaves nothing of the word. -/
theorem xor_shift_xor_shift (word shift : UInt64) (hShift : 32 ≤ shift.toNat % 64) :
    (word ^^^ (word >>> shift)) ^^^ ((word ^^^ (word >>> shift)) >>> shift) = word := by
  have hNat : (shift.toBitVec % 64).toNat = shift.toNat % 64 := BitVec.toNat_umod
  have hBeyond : word.toBitVec >>> ((shift.toBitVec % 64).toNat + (shift.toBitVec % 64).toNat) =
      0#64 := BitVec.ushiftRight_eq_zero (by omega)
  apply UInt64.eq_of_toBitVec_eq
  simp only [UInt64.toBitVec_xor, UInt64.toBitVec_shiftRight, BitVec.ushiftRight_eq',
    BitVec.ushiftRight_xor_distrib, ← BitVec.shiftRight_add]
  rw [hBeyond, BitVec.xor_zero, BitVec.xor_assoc, BitVec.xor_self, BitVec.xor_zero]

/-- Every word is what some state is folded into. Its lower half can be zero, and the folding
of the upper half can be undone step by step. -/
theorem exists_scramble (word : UInt64) : ∃ state, scramble state = word := by
  let product := word ^^^ (word >>> 48)
  let mixed := product * 0x8b838d0354ead59d
  let high := mixed ^^^ (mixed >>> 32)
  refine ⟨high.toBitVec ++ 0#64, ?_⟩
  have hHigh : (⟨(high.toBitVec ++ 0#64).extractLsb' 64 64⟩ : UInt64) = high :=
    UInt64.eq_of_toBitVec_eq BitVec.extractLsb'_append_eq_left
  have hLow : (⟨(high.toBitVec ++ 0#64).extractLsb' 0 64⟩ : UInt64) = 0 :=
    UInt64.eq_of_toBitVec_eq BitVec.extractLsb'_append_eq_right
  have hMixed : high ^^^ (high >>> 32) = mixed := xor_shift_xor_shift mixed 32 (by decide)
  have hInverse : (0x8b838d0354ead59d : UInt64) * 0xda942042e4dd58b5 = 1 := by decide
  have hProduct : mixed * 0xda942042e4dd58b5 = product := by
    rw [UInt64.mul_assoc, hInverse, UInt64.mul_one]
  have hWord : product ^^^ (product >>> 48) = word := xor_shift_xor_shift word 48 (by decide)
  have hOne : (0 : UInt64) ||| 1 = 1 := by decide
  simp only [scramble, hHigh, hLow, hMixed, hProduct, hWord, hOne, UInt64.mul_one]

end Generator

end Sequences
