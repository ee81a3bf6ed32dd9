import Mathlib.Data.Nat.Fib.Basic
import Mathlib.Tactic.NormNum.NatFib
import Sequences.Fibonacci
import Sequences.Proofs.Delivery

/-! The three forms of Fibonacci terms against the terms themselves. A term that
wraps around is right modulo the size of a word, and the other two forms give
a term only where it is exact. That the climb to a checked term ends is part
of its definition; here it is shown where it ends. -/
namespace Sequences

theorem Limit.cut_map {β γ : Type} (limit : Limit) (f : β → γ) (xs : List β) :
    (limit.cut xs).map f = limit.cut (xs.map f) := by
  cases limit with
  | none => rfl
  | some k => exact List.map_take

namespace Fibonacci

/-- The last term that fits, and the first that does not. -/
theorem fib_maxIndex_lt : Nat.fib maxIndex < 2 ^ 64 ∧ 2 ^ 64 ≤ Nat.fib (maxIndex + 1) := by
  unfold maxIndex
  norm_num

theorem fib_lt_iff (n : Nat) : Nat.fib n < 2 ^ 64 ↔ n ≤ maxIndex := by
  obtain ⟨hFits, hTooLarge⟩ := fib_maxIndex_lt
  constructor
  · intro hLt
    by_contra hMore
    have hMono : Nat.fib (maxIndex + 1) ≤ Nat.fib n := Nat.fib_mono (by omega)
    omega
  · intro hLe
    exact (Nat.fib_mono hLe).trans_lt hFits

theorem isLeast_tooLarge : IsLeast {i | 2 ^ 64 ≤ Nat.fib i} (maxIndex + 1) := by
  refine ⟨fib_maxIndex_lt.2, fun i hi => ?_⟩
  by_contra hLess
  exact ((fib_lt_iff i).mpr (by omega)).not_ge hi

theorem term_eq_fib (n : Nat) : term n = .ofNat (Nat.fib n) := by
  fun_induction term n with
  | case1 => rfl
  | case2 => rfl
  | case3 n ihFirst ihSecond => rw [ihFirst, ihSecond, Nat.fib_add_two, UInt64.ofNat_add]

theorem toNat_term {n : Nat} (hFits : n ≤ maxIndex) : (term n).toNat = Nat.fib n := by
  rw [term_eq_fib, UInt64.toNat_ofNat', Nat.mod_eq_of_lt ((fib_lt_iff n).mpr hFits)]

theorem toNat_summed (n : UInt32) : (summed n).toNat = Nat.fib n.toNat % 2 ^ 64 := by
  rw [summed_eq_term, term_eq_fib, UInt64.toNat_ofNat']

/-- The recurrence also holds of terms that have wrapped around. The index itself does not
wrap around as long as there is a next one. -/
theorem summed_add_one {n : UInt32} (hFirst : 1 ≤ n) (hLast : n < 4294967295) :
    summed (n + 1) = summed n + summed (n - 1) := by
  have hBefore : (n - 1).toNat = n.toNat - 1 := UInt32.toNat_sub_of_le n 1 hFirst
  have hOne : 1 ≤ n.toNat := UInt32.le_iff_toNat_le.mp hFirst
  have hLess : n.toNat < 4294967295 := UInt32.lt_iff_toNat_lt.mp hLast
  have hNext : (n + 1).toNat = n.toNat + 1 := by
    rw [UInt32.toNat_add, UInt32.toNat_one]
    omega
  obtain ⟨i, hi⟩ : ∃ i, n.toNat = i + 1 := ⟨n.toNat - 1, by omega⟩
  rw [summed_eq_term, summed_eq_term, summed_eq_term, hNext, hBefore, hi, Nat.add_sub_cancel,
    term, UInt64.add_comm]

/-- A sum is refused exactly if it does not fit. -/
theorem add?_eq_none_iff {a b : UInt64} : add? a b = none ↔ 2 ^ 64 ≤ a.toNat + b.toNat := by
  have ha := a.toNat_lt
  have hb := b.toNat_lt
  unfold add?
  rw [ite_eq_left_iff, UInt64.lt_iff_toNat_lt, UInt64.toNat_add]
  simp only [reduceCtorEq, imp_false, not_not]
  omega

/-- The climb, from any index that it reaches. While the terms fit, the index is
below the largest word by far, so it does not wrap around; and behind the
last term that fits there is no further step. -/
theorem climb_eq {n index : UInt32} {a b : UInt64} (hPos : 0 < b) {i : Nat}
    (hIndex : index.toNat = i + 2) (ha : a.toNat = Nat.fib i) (hb : b.toNat = Nat.fib (i + 1))
    (hBelow : i < maxIndex) (hReached : i < n.toNat) :
    climb n index a b hPos =
      if n.toNat ≤ maxIndex then .ok (term n.toNat)
      else .error (.overflow n.toNat (maxIndex + 1)) := by
  fun_induction climb n index a b hPos generalizing i with
  | case1 index a b hPos hLe hSum =>
      rw [add?_eq_none_iff, ha, hb, ← Nat.fib_add_two] at hSum
      have hTooLarge : ¬i + 2 ≤ maxIndex := fun hFits => ((fib_lt_iff _).mpr hFits).not_ge hSum
      rw [UInt32.le_iff_toNat_le, hIndex] at hLe
      rw [if_neg (by omega), hIndex, show i + 2 = maxIndex + 1 by omega]
  | case2 index a b hPos hLe sum hSum ih =>
      have hNat := toNat_of_add?_eq_some hSum
      rw [ha, hb, ← Nat.fib_add_two] at hNat
      have hFits : i + 2 ≤ maxIndex := (fib_lt_iff _).mp (hNat ▸ sum.toNat_lt)
      rw [UInt32.le_iff_toNat_le, hIndex] at hLe
      have hSmall : maxIndex < 94 := by decide
      refine ih (i := i + 1) ?_ hb hNat (by omega) (by omega)
      rw [UInt32.toNat_add, hIndex, UInt32.toNat_one, Nat.mod_eq_of_lt (by omega)]
  | case3 index a b hPos hPassed =>
      rw [UInt32.le_iff_toNat_le, hIndex] at hPassed
      have hLast : n.toNat = i + 1 := by omega
      rw [if_pos (by omega)]
      refine congrArg Except.ok (UInt64.toNat_inj.mp ?_)
      rw [hb, toNat_term (by omega), hLast]

theorem checked_eq (n : UInt32) :
    checked n = if n.toNat ≤ maxIndex then .ok (term n.toNat)
      else .error (.overflow n.toNat (maxIndex + 1)) := by
  have hTwo : n < 2 ↔ n.toNat < 2 := UInt32.lt_iff_toNat_lt
  have hMax : 2 ≤ maxIndex := by decide
  unfold checked
  split
  next hSmall =>
    rw [hTwo] at hSmall
    rw [if_pos (by omega), toUInt64_eq_term hSmall]
  next hLarge =>
    rw [hTwo] at hLarge
    exact climb_eq (i := 0) (by decide) rfl rfl rfl (by omega) (by omega)

/-- What is reported for a term that fits, and for one that does not. -/
theorem report_eq (n : UInt32) :
    report n = if n.toNat ≤ maxIndex then (term n.toNat, none)
      else (0, some (.overflow n.toNat (maxIndex + 1))) := by
  rw [report, checked_eq]
  by_cases hFits : n.toNat ≤ maxIndex
  · simp only [if_pos hFits]
  · simp only [if_neg hFits]

/-- The run that is left at an index up to the last one. -/
theorem termsFrom_eq {count : Nat} {n : UInt32} (hLeft : n.toNat + count = maxIndex) :
    termsFrom n (term n.toNat) (term (n.toNat + 1)) =
      (List.range' n.toNat (count + 1)).map fun i => (i, term i) := by
  have hLast (m : UInt32) : m = .ofNat maxIndex ↔ m.toNat = maxIndex := UInt32.toNat_inj.symm
  induction count generalizing n with
  | zero =>
      rw [termsFrom, if_pos ((hLast n).mpr hLeft)]
      rfl
  | succ count ih =>
      have hMax : maxIndex < 94 := by decide
      have hNext : (n + 1).toNat = n.toNat + 1 := by
        rw [UInt32.toNat_add, UInt32.toNat_one]
        omega
      have hRest := ih (n := n + 1) (by omega)
      rw [hNext, term] at hRest
      rw [termsFrom, if_neg (mt (hLast n).mp (by omega)), hRest]
      rfl

theorem terms_eq : terms = (List.range (maxIndex + 1)).map fun n => (n, term n) := by
  rw [List.range_eq_range']
  exact termsFrom_eq (n := 0) (Nat.zero_add maxIndex)

/-- All exact terms, with their indices. -/
def exactTerms : List (Nat × Nat) := (List.range (maxIndex + 1)).map fun n => (n, Nat.fib n)

theorem terms_map_toNat : terms.map (fun (n, term) => (n, term.toNat)) = exactTerms := by
  rw [terms_eq, exactTerms, List.map_map]
  refine List.map_congr_left fun n hn => ?_
  rw [List.mem_range] at hn
  exact congrArg (Prod.mk n) (toNat_term (by omega))

theorem readings_eq (limits : List Limit) :
    readings limits = limits.map fun limit => limit.cut terms := by
  have hRepeats : feed.Repeats terms := Feed.replay_repeats _ terms
  have hVisits := Feed.visitsFrom_of_repeats hRepeats hRepeats.initial limits ⟨[]⟩
  have hGot := congrArg (List.map Prod.fst) hVisits
  rw [List.map_map, List.map_map] at hGot
  exact hGot

/-- The terms that are listed are those that are not refused. -/
theorem mem_terms_iff (n : UInt32) (term : UInt64) :
    (n.toNat, term) ∈ terms ↔ report n = (term, none) := by
  rw [terms_eq, report_eq, List.mem_map]
  constructor
  · rintro ⟨i, hi, hPair⟩
    obtain ⟨rfl, rfl⟩ := Prod.mk.inj hPair
    rw [List.mem_range] at hi
    rw [if_pos (by omega)]
  · intro hTerm
    split at hTerm
    next hFits =>
      obtain ⟨rfl, -⟩ := Prod.mk.inj hTerm
      exact ⟨n.toNat, List.mem_range.mpr (by omega), rfl⟩
    next => cases hTerm

theorem pairwise_terms : terms.Pairwise fun first second => first.1 < second.1 := by
  rw [terms_eq, List.pairwise_map]
  exact List.pairwise_lt_range

/-- The three forms agree, and none gives a term that has wrapped around for an
exact one. A term is refused exactly if it does not fit, and every refusal
names the same first term that does not. The readings bring the exact terms in
order, which are those that are not refused. -/
theorem forms_agree :
    (∀ n : UInt32,
      ((∃ term, report n = (term, none) ∧ term.toNat = Nat.fib n.toNat) ↔
        Nat.fib n.toNat < 2 ^ 64) ∧
      (Nat.fib n.toNat < 2 ^ 64 ↔ n.toNat ≤ maxIndex) ∧
      (Nat.fib n.toNat < 2 ^ 64 → (wrapped n.toNat).toNat = Nat.fib n.toNat) ∧
      (Nat.fib n.toNat < 2 ^ 64 → (summed n).toNat = Nat.fib n.toNat)) ∧
    (∃ first, IsLeast {i | 2 ^ 64 ≤ Nat.fib i} first ∧
      ∀ n : UInt32, 2 ^ 64 ≤ Nat.fib n.toNat →
        report n = (0, some (.overflow n.toNat first))) ∧
    (∀ limits : List Limit,
      (readings limits).map (List.map fun (n, term) => (n, term.toNat)) =
        limits.map fun limit => limit.cut exactTerms) ∧
    ∃ all, readings [none] = [all] ∧ (all.Pairwise fun first second => first.1 < second.1) ∧
      (∀ pair ∈ all, pair.1 < UInt32.size) ∧
      ∀ (n : UInt32) (term : UInt64), (n.toNat, term) ∈ all ↔ report n = (term, none) := by
  have hSummed (n : UInt32) (hFits : Nat.fib n.toNat < 2 ^ 64) :
      (summed n).toNat = Nat.fib n.toNat := by
    rw [toNat_summed, Nat.mod_eq_of_lt hFits]
  refine ⟨fun n => ⟨?_, fib_lt_iff n.toNat, fun hFits => ?_, hSummed n⟩, ⟨maxIndex + 1,
    isLeast_tooLarge, fun n hTooLarge => ?_⟩, fun limits => ?_, terms, readings_eq [none],
    pairwise_terms, fun pair hPair => ?_, mem_terms_iff⟩
  · constructor
    · rintro ⟨term, -, hTerm⟩
      rw [← hTerm]
      exact term.toNat_lt
    · intro hFits
      rw [fib_lt_iff] at hFits
      exact ⟨term n.toNat, by rw [report_eq, if_pos hFits], toNat_term hFits⟩
  · rw [wrapped_eq_summed, hSummed n hFits]
  · rw [← not_lt, fib_lt_iff] at hTooLarge
    rw [report_eq, if_neg hTooLarge]
  · rw [readings_eq, List.map_map]
    refine List.map_congr_left fun limit _ => ?_
    rw [Function.comp_apply, Limit.cut_map, terms_map_toNat]
  · rw [terms_eq] at hPair
    obtain ⟨n, hn, rfl⟩ := List.mem_map.mp hPair
    have hSmall : maxIndex + 1 < UInt32.size := by decide
    exact (List.mem_range.mp hn).trans hSmall

/-- The last term that fits, and the largest index, which no index passes. -/
theorem forms_agree_at_ends :
    Nat.fib 93 < 2 ^ 64 ∧ (wrapped 93).toNat = Nat.fib 93 ∧ (summed 93).toNat = Nat.fib 93 ∧
      report 93 = (12200160415121876738, none) ∧
      2 ^ 64 ≤ Nat.fib 4294967295 ∧
      report 4294967295 = (0, some (.overflow 4294967295 94)) := by
  obtain ⟨hTerms, ⟨first, hFirst, hRefused⟩, -⟩ := forms_agree
  obtain ⟨hExact, hIndex, hWrapped, hSummed⟩ := hTerms 93
  have hFits : Nat.fib 93 < 2 ^ 64 := hIndex.mpr (by decide)
  obtain ⟨term, hReport, hTerm⟩ := hExact.mpr hFits
  have hValue : term = 12200160415121876738 := by
    apply UInt64.toNat_inj.mp
    rw [hTerm]
    change Nat.fib 93 = 12200160415121876738
    norm_num
  have hTooLarge : 2 ^ 64 ≤ Nat.fib 4294967295 :=
    not_lt.mp fun hLt => absurd ((fib_lt_iff _).mp hLt) (by decide)
  have hLeast : first = 94 := hFirst.unique isLeast_tooLarge
  rw [hValue] at hReport
  rw [hLeast] at hRefused
  exact ⟨hFits, hWrapped hFits, hSummed hFits, hReport, hTooLarge, hRefused 4294967295 hTooLarge⟩

/-- The sums that wrap around are the terms modulo the size of a word, for every index, and
doubling the index gives the same. So each is the sum of the two before it, also behind the last
term that fits. -/
theorem summed_wraps (n : UInt32) :
    (summed n).toNat = Nat.fib n.toNat % 2 ^ 64 ∧ wrapped n.toNat = summed n ∧
      (1 ≤ n → n < 4294967295 → summed (n + 1) = summed n + summed (n - 1)) :=
  ⟨toNat_summed n, wrapped_eq_summed n, summed_add_one⟩

/-- The first term that wraps around, and the last index that has a next one. -/
theorem summed_wraps_beyond :
    (summed 94).toNat = 1293530146158671551 ∧ Nat.fib 94 = 2 ^ 64 + 1293530146158671551 ∧
      summed 94 = summed 93 + summed 92 ∧ summed 95 = summed 94 + summed 93 ∧
      summed 4294967295 = summed 4294967294 + summed 4294967293 := by
  have hTerm : Nat.fib 94 = 2 ^ 64 + 1293530146158671551 := by norm_num
  obtain ⟨hMod, -, hNext⟩ := summed_wraps 94
  have hBefore := (summed_wraps 93).2.2 (by decide) (by decide)
  have hLast := (summed_wraps 4294967294).2.2 (by decide) (by decide)
  change (summed 94).toNat = Nat.fib 94 % 2 ^ 64 at hMod
  rw [hTerm] at hMod
  exact ⟨hMod, hTerm, hBefore, hNext (by decide) (by decide), hLast⟩

end Fibonacci

end Sequences
