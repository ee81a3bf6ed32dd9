import Sequences.Proofs.Halving
import Sequences.Proofs.Regrouping

/-! What a search costs and what its answer is worth, on lists that need not be in order
and with a comparator that need not be consistent. The range of candidates at least
halves with every comparison, whatever it comes out as, and a place that was compared
is never in it again. Reckoned in words, the ends and the middle of the range stay
between zero and the length, so that nothing overflows. -/
namespace Sequences

variable {α τ : Type} {n : Nat}

/-- The answer of a search: a place and that there is one, or minus one and that there
is none. -/
def placeAndFlag (found : Option (Fin n)) : Int × Bool :=
  (indexOrMinusOne (found.map Fin.val), found.isSome)

/-- All comparisons with these places came out unequal, after so many calls. -/
def Unequal (cmp : Probe (Fin n) Ordering) (calls : Nat) (asked : List (Fin n)) : Prop :=
  ∀ k i, asked[k]? = some i → ∃ order, cmp (calls + k + 1) i = .ok order ∧ order ≠ .eq

/-- How a search ends that asked about these places. It finds the place that it asked
about last, or all comparisons were unequal. The comparator may also give up. -/
inductive SearchEnd (cmp : Probe (Fin n) Ordering) (calls : Nat) :
    List (Fin n) → Except Fault (Int × Bool) → Prop where
  | found {earlier : List (Fin n)} {place : Fin n} (hEarlier : Unequal cmp calls earlier)
      (hLast : cmp (calls + earlier.length + 1) place = .ok .eq) :
      SearchEnd cmp calls (earlier ++ [place]) (.ok ((place : Nat), true))
  | absent {asked : List (Fin n)} (hAsked : Unequal cmp calls asked) :
      SearchEnd cmp calls asked (.ok (-1, false))
  | failed {earlier : List (Fin n)} {place : Fin n} {fault : Fault}
      (hEarlier : Unequal cmp calls earlier)
      (hLast : cmp (calls + earlier.length + 1) place = .error fault) :
      SearchEnd cmp calls (earlier ++ [place]) (.error fault)

section SearchEnd

variable {cmp : Probe (Fin n) Ordering} {calls : Nat} {place : Fin n} {order : Ordering}

theorem unequal_nil (cmp : Probe (Fin n) Ordering) (calls : Nat) : Unequal cmp calls [] := by
  intro k i hi
  cases hi

theorem Unequal.cons {asked : List (Fin n)} (hOrder : cmp (calls + 1) place = .ok order)
    (hNe : order ≠ .eq) (hLater : Unequal cmp (calls + 1) asked) :
    Unequal cmp calls (place :: asked) := by
  intro k i hi
  cases k with
  | zero =>
      cases hi
      exact ⟨order, hOrder, hNe⟩
  | succ k =>
      rw [← Nat.add_assoc, Nat.add_right_comm calls k 1]
      exact hLater k i hi

/-- One comparison more at the beginning, which came out unequal. -/
theorem SearchEnd.after {asked : List (Fin n)} {answer : Except Fault (Int × Bool)}
    (hOrder : cmp (calls + 1) place = .ok order) (hNe : order ≠ .eq)
    (hLater : SearchEnd cmp (calls + 1) asked answer) :
    SearchEnd cmp calls (place :: asked) answer := by
  have hCount (earlier : List (Fin n)) :
      calls + 1 + earlier.length + 1 = calls + (place :: earlier).length + 1 := by
    rw [List.length_cons]
    omega
  cases hLater with
  | found hEarlier hLast =>
      rw [hCount] at hLast
      exact .found (hEarlier.cons hOrder hNe) hLast
  | absent hAsked => exact .absent (hAsked.cons hOrder hNe)
  | failed hEarlier hLast =>
      rw [hCount] at hLast
      exact .failed (hEarlier.cons hOrder hNe) hLast

/-- A comparator that always answers lets every search end with an answer. -/
theorem SearchEnd.exists_answer {asked : List (Fin n)} {answer : Except Fault (Int × Bool)}
    (hEnd : SearchEnd cmp calls asked answer)
    (hAnswers : ∀ call i, ∃ order, cmp call i = .ok order) : ∃ pair, answer = .ok pair := by
  cases hEnd with
  | found hEarlier hLast => exact ⟨_, rfl⟩
  | absent hAsked => exact ⟨_, rfl⟩
  | @failed earlier place fault hEarlier hLast =>
      obtain ⟨order, hOrder⟩ := hAnswers (calls + earlier.length + 1) place
      cases hLast.symm.trans hOrder

end SearchEnd

/-- The search of a range: it keeps within the range, asks about no place twice, and
asks at most as often as the size of the range has binary digits. -/
structure Effort (cmp : Probe (Fin n) Ordering) (calls left right : Nat) (search : Halving n) :
    Prop where
  within : ∀ i ∈ search.asked, left ≤ i ∧ i < right
  nodup : search.asked.Nodup
  few : ∀ k, right - left < 2 ^ k → search.asked.length ≤ k
  ends : SearchEnd cmp calls search.asked (search.outcome.map placeAndFlag)

section Effort

variable {cmp : Probe (Fin n) Ordering} {calls left right : Nat} {mid : Fin n}

theorem effort_of_last {outcome : Except Fault (Option (Fin n))} (hLeft : left ≤ mid)
    (hRight : mid < right) (hEnd : SearchEnd cmp calls [mid] (outcome.map placeAndFlag)) :
    Effort cmp calls left right ⟨[mid], outcome⟩ := by
  constructor
  case within => simp [hLeft, hRight]
  case nodup => exact List.nodup_singleton mid
  case few =>
    intro k hSize
    cases k with
    | zero => omega
    | succ k => exact Nat.succ_le_succ (Nat.zero_le k)
  case ends => exact hEnd

/-- A comparison that came out unequal leaves a part of the range without the place that
was compared, and with no more than half of the places. -/
theorem Effort.after {left' right' : Nat} {order : Ordering} {later : Halving n}
    (hOrder : cmp (calls + 1) mid = .ok order) (hNe : order ≠ .eq) (hLeft : left ≤ mid)
    (hRight : mid < right) (hPart : left ≤ left' ∧ right' ≤ right)
    (hWithout : mid < left' ∨ right' ≤ mid) (hHalf : right' - left' ≤ (right - left) / 2)
    (hLater : Effort cmp (calls + 1) left' right' later) :
    Effort cmp calls left right (later.after mid) := by
  constructor
  case within =>
    intro i hi
    rcases List.mem_cons.mp hi with rfl | hi
    · exact ⟨hLeft, hRight⟩
    · have hThere := hLater.within i hi
      omega
  case nodup =>
    apply List.nodup_cons.mpr
    refine ⟨fun hMem => ?_, hLater.nodup⟩
    have hThere := hLater.within mid hMem
    omega
  case few =>
    intro k hSize
    cases k with
    | zero => omega
    | succ k =>
        rw [Nat.pow_succ] at hSize
        exact Nat.succ_le_succ (hLater.few k (by omega))
  case ends => exact hLater.ends.after hOrder hNe

/-- The run lemma, along the ranges that the search goes through. -/
theorem halve_effort (cmp : Probe (Fin n) Ordering) (calls left right : Nat) (hRight : right ≤ n) :
    Effort cmp calls left right (halve cmp calls left right hRight) := by
  have hNone := unequal_nil cmp
  fun_induction halve cmp calls left right hRight with
  | case1 calls left right hRight hRange mid fault hCmp =>
      apply effort_of_last
      · exact Nat.le_add_right left _
      · simp only [mid]
        omega
      · exact .failed (hNone calls) hCmp
  | case2 calls left right hRight hRange mid hCmp =>
      apply effort_of_last
      · exact Nat.le_add_right left _
      · simp only [mid]
        omega
      · exact .found (hNone calls) hCmp
  | case3 calls left right hRight hRange mid hCmp ih =>
      have hMid : (mid : Nat) = left + (right - left) / 2 := rfl
      apply Effort.after hCmp (by decide) _ _ _ _ _ ih <;> omega
  | case4 calls left right hRight hRange mid hCmp ih =>
      have hMid : (mid : Nat) = left + (right - left) / 2 := rfl
      apply Effort.after hCmp (by decide) _ _ _ _ _ ih <;> omega
  | case5 calls left right hRight hRange =>
      constructor
      case within => simp
      case nodup => exact List.nodup_nil
      case few => simp
      case ends => exact .absent (hNone calls)

end Effort

/-- The middle of a range, reckoned in words. The difference is halved before it is
added, so that no sum can overflow. -/
def middle (left right : Int64) : Int64 := left + (right - left) / 2

/-- All that is reckoned about a range comes out as it would without a limit on the size
of numbers. -/
structure ReckonedExactly (left right : Int64) : Prop where
  difference : (right - left).toInt = right.toInt - left.toInt
  half : ((right - left) / 2).toInt = (right.toInt - left.toInt) / 2
  middle : (middle left right).toInt = left.toInt + (right.toInt - left.toInt) / 2
  next : (Sequences.middle left right + 1).toInt = (Sequences.middle left right).toInt + 1

theorem reckonedExactly {left right : Int64} (hLeft : 0 ≤ left.toInt)
    (hRange : left.toInt < right.toInt) : ReckonedExactly left right := by
  have hBound := right.toInt_lt
  have hDifference : (right - left).toInt = right.toInt - left.toInt := by
    rw [Int64.toInt_sub, Int.bmod_eq_of_le] <;> omega
  have hHalf : ((right - left) / 2).toInt = (right.toInt - left.toInt) / 2 := by
    rw [toInt_div_of_pos (by omega) (by decide), hDifference]
    rfl
  have hMiddle : (middle left right).toInt = left.toInt + (right.toInt - left.toInt) / 2 := by
    rw [middle, Int64.toInt_add, hHalf, Int.bmod_eq_of_le] <;> omega
  refine ⟨hDifference, hHalf, hMiddle, ?_⟩
  rw [Int64.toInt_add, Int64.toInt_one, hMiddle, Int.bmod_eq_of_le] <;> omega

/-- The middle is within the range, and the place behind it is not behind its end. -/
theorem middle_within {left right : Int64} (hLeft : 0 ≤ left.toInt) (hRange : left < right) :
    left.toInt ≤ (middle left right).toInt ∧ (middle left right).toInt < right.toInt ∧
      (middle left right + 1).toInt = (middle left right).toInt + 1 := by
  have hInts := Int64.lt_iff_toInt_lt.mp hRange
  have hExact := reckonedExactly hLeft hInts
  have hMiddle := hExact.middle
  exact ⟨by omega, by omega, hExact.next⟩

section Words

variable {m : Type → Type} [Monad m]

/-- The search of a range that is given in words and reckoned in words. Sums and
differences wrap around. -/
def bisectWords (cmp : Int64 → m Ordering) (left right : Int64) (hLeft : 0 ≤ left.toInt) :
    m (Option Int64) :=
  if hRange : left < right then do
    match ← cmp (middle left right) with
    | .lt =>
      bisectWords cmp (middle left right + 1) right
        (by have hMiddle := middle_within hLeft hRange; omega)
    | .eq => return some (middle left right)
    | .gt => bisectWords cmp left (middle left right) hLeft
  else
    pure none
termination_by (right.toInt - left.toInt).toNat
decreasing_by
  all_goals
    have hMiddle := middle_within hLeft hRange
    omega

/-- Whatever the comparator does besides, both searches let it do the same. It is asked
about words that are places of the list, and about no others. -/
theorem bisectWords_eq_bisectRange [LawfulMonad m] (cmp : Int64 → m Ordering) {l r : Int64}
    (hLeft : 0 ≤ l.toInt) {left right : Nat} (hRight : right ≤ n) (hl : l.toInt = left)
    (hr : r.toInt = right) :
    bisectWords cmp l r hLeft = Option.map (fun i : Fin n => Int64.ofNat i) <$>
      bisectRange (fun i : Fin n => cmp (Int64.ofNat i)) left right hRight := by
  rw [bisectWords, bisectRange]
  by_cases hRange : left < right
  · have hWords : l < r := by
      rw [Int64.lt_iff_toInt_lt]
      omega
    have hWithin := middle_within hLeft hWords
    have hMiddle := (reckonedExactly hLeft (Int64.lt_iff_toInt_lt.mp hWords)).middle
    have hMid : Int64.ofNat (left + (right - left) / 2) = middle l r := by
      have hBound := r.toInt_lt
      rw [← Int64.toInt_inj, Int64.toInt_ofNat_of_lt (by omega)]
      omega
    rw [dif_pos hWords, dif_pos hRange, map_bind, hMid]
    congr 1
    funext order
    cases order with
    | eq => rw [map_pure, Option.map_some, hMid]
    | lt => exact bisectWords_eq_bisectRange cmp _ hRight (by omega) hr
    | gt => exact bisectWords_eq_bisectRange cmp hLeft (by omega) hl (by omega)
  · have hWords : ¬l < r := by
      rw [Int64.lt_iff_toInt_lt]
      omega
    rw [dif_neg hWords, dif_neg hRange, map_pure, Option.map_none]
termination_by right - left

end Words

theorem bisectM_finding (cmp : Probe (Fin n) Ordering) :
    (bisectM (Inquiry.ask cmp)).finding =
      ⟨(halve cmp 0 0 n (Nat.le_refl n)).outcome, (halve cmp 0 0 n (Nat.le_refl n)).asked⟩ := by
  have hRun := bisectRange_run cmp id 0 n (Nat.le_refl n) #[]
  simp only [id_eq] at hRun
  rw [Inquiry.finding, bisectM, hRun]
  simp

/-- Searching any list with any comparator. The places that are asked about are those of
a search of the places alone. They are all different, there are few of them, and the
answer is what the comparisons with them came out as. The same search in words asks about
the same places. -/
theorem search_effort (generator : Generator) (cmp : Probe (α × τ) Ordering) (list : Stored α)
    (target : τ) :
    let n := list.items.length
    let placeCmp : Probe (Fin n) Ordering := fun call i => cmp call (list.items.get i, target)
    let search := (bisectM (Inquiry.ask placeCmp)).finding
    ((Operation.search list target cmp :
        Operation α τ (Stored α) (Stored (Stored α))).perform generator).1 =
      .ofFinding (fun i => .search (list.items.get i) target)
        (fun found => .ok (.position (found.map Fin.val))) search ∧
    search.calls.Nodup ∧
    search.calls.length ≤ (if n = 0 then 0 else Nat.log 2 n + 1) ∧
    SearchEnd placeCmp 0 search.calls (search.outcome.map placeAndFlag) ∧
    ((∀ call question, ∃ order, cmp call question = .ok order) →
      ∃ answer, search.outcome = .ok answer) ∧
    (n < 2 ^ 63 → (∀ i : Fin n, (Int64.ofNat i).toInt = i) ∧
      ∀ (m : Type → Type) [Monad m] [LawfulMonad m] (wordCmp : Int64 → m Ordering),
        bisectWords wordCmp 0 (.ofNat n) (by decide) =
          Option.map (fun i : Fin n => Int64.ofNat i) <$>
            bisectM fun i : Fin n => wordCmp (.ofNat i)) ∧
    ∀ left right : Int64, 0 ≤ left.toInt → left.toInt < right.toInt →
      ReckonedExactly left right := by
  intro n placeCmp search
  have hEffort := halve_effort placeCmp 0 0 n (Nat.le_refl n)
  have hSearch : search = _ := bisectM_finding placeCmp
  have hEnd : SearchEnd placeCmp 0 search.calls (search.outcome.map placeAndFlag) := by
    rw [hSearch]
    exact hEffort.ends
  refine ⟨?_, ?_, ?_, hEnd, ?_, ?_, fun left right => reckonedExactly⟩
  · rw [hSearch, Operation.perform, searchM_finding]
    exact Report.ofFinding_map _ _ _ _
      ⟨(halving cmp list.items target).outcome, (halving cmp list.items target).asked⟩
  · rw [hSearch]
    exact hEffort.nodup
  · rw [hSearch]
    split
    next hEmpty => exact hEffort.few 0 (by omega)
    next hSome => exact hEffort.few _ (Nat.lt_pow_succ_log_self Nat.one_lt_two n)
  · intro hAnswers
    obtain ⟨pair, hPair⟩ := hEnd.exists_answer fun call i => hAnswers call _
    cases hOutcome : search.outcome with
    | error fault => simp [hOutcome, Except.map] at hPair
    | ok found => exact ⟨found, rfl⟩
  · intro hWord
    constructor
    · intro i
      exact Int64.toInt_ofNat_of_lt (i.isLt.trans hWord)
    · intro m _ _ wordCmp
      exact bisectWords_eq_bisectRange wordCmp _ (Nat.le_refl n) rfl (Int64.toInt_ofNat_of_lt hWord)

/-- A comparator that says below and above by turns, whatever it is asked. -/
def byTurns {χ : Type} : Probe χ Ordering := .ofAnswers fun call _ =>
  if call % 2 = 1 then .lt else .gt

/-- Five elements out of order, with such a comparator. -/
theorem search_effort_byTurns :
    let list : Stored UInt64 := some [5, 1, 4, 1, 3]
    let search := (bisectM (Inquiry.ask fun call (i : Fin 5) =>
      byTurns call (list.items.get i, (1 : UInt64)))).finding
    ((Operation.search list 1 byTurns : Operation UInt64 UInt64 (Stored UInt64)
        (Stored (Stored UInt64))).perform (.ofWords [])).1 =
      ⟨.ok (.position none), [.search 4 1, .search 3 1, .search 1 1]⟩ ∧
    search.calls = [2, 4, 3] ∧ search.calls.Nodup ∧ search.calls.length ≤ Nat.log 2 5 + 1 ∧
    search.outcome = .ok none ∧ (∃ answer, search.outcome = .ok answer) ∧
    bisectWords (Inquiry.ask byTurns) 0 5 (by decide) =
      Option.map (fun i : Fin 5 => Int64.ofNat i) <$>
        bisectM (fun i : Fin 5 => Inquiry.ask byTurns (Int64.ofNat i)) ∧
    ReckonedExactly 4611686018427387904 9223372036854775807 := by
  intro list search
  obtain ⟨hReport, hNodup, hCount, -, hAnswers, hWords, hExact⟩ :=
    search_effort (.ofWords []) byTurns list (1 : UInt64)
  have hCalls : search.calls = [2, 4, 3] := by cbv
  have hOutcome : search.outcome = .ok none := by cbv
  refine ⟨?_, hCalls, hNodup, hCount, hOutcome, hAnswers fun _ _ => ⟨_, rfl⟩,
    (hWords (by decide)).2 (Inquiry Int64) _, hExact _ _ (by decide) (by decide)⟩
  rw [hReport]
  cbv

end Sequences
