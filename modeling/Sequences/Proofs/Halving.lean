import Sequences.Proofs.Course
import Sequences.Proofs.StableMerge

/-! Search by halving, as the places that it asks about. The search looks at one
place in the middle of what is left and goes on with one half. If the target
divides the list, whatever compares equal to it never leaves the range, so an
empty range means that there is no such element. Which of several equal elements
is found is not said here. -/
namespace Sequences

variable {α τ χ : Type} {n : Nat}

/-- A search: the places that were asked about, and what came of it. -/
structure Halving (n : Nat) where
  asked : List (Fin n)
  outcome : Except Fault (Option (Fin n))

/-- The search that asks about one more place before. -/
def Halving.after (place : Fin n) (later : Halving n) : Halving n :=
  { later with asked := place :: later.asked }

/-- The search of the places from `left` to `right`, the latter excluded, after so
many calls of the comparator. -/
def halve (cmp : Probe (Fin n) Ordering) (calls left right : Nat) (hRight : right ≤ n) :
    Halving n :=
  if hRange : left < right then
    let mid : Fin n := ⟨left + (right - left) / 2, by omega⟩
    match cmp (calls + 1) mid with
    | .error fault => ⟨[mid], .error fault⟩
    | .ok .eq => ⟨[mid], .ok (some mid)⟩
    | .ok .lt => (halve cmp (calls + 1) (left + (right - left) / 2 + 1) right hRight).after mid
    | .ok .gt => (halve cmp (calls + 1) left (left + (right - left) / 2) (by omega)).after mid
  else ⟨[], .ok none⟩
termination_by right - left

/-- The computation asks about these places, in this order. -/
theorem bisectRange_run (probe : Probe χ Ordering) (question : Fin n → χ) (left right : Nat)
    (hRight : right ≤ n) (asked : Array χ) :
    (bisectRange (fun i => Inquiry.ask probe (question i)) left right hRight).run.run asked =
      let search := halve (fun call i => probe call (question i)) asked.size left right hRight
      (search.outcome, asked ++ search.asked.map question) := by
  have hAsk {asked : Array χ} {calls : Nat} (hCalls : asked.size = calls) {i : Fin n}
      {answer : Except Fault Ordering} (hCmp : probe (calls + 1) (question i) = answer) :
      (Inquiry.ask probe (question i)).run.run asked = (answer, asked.push (question i)) := by
    rw [← hCmp, ← hCalls]
    rfl
  have hCount {asked : Array χ} {calls : Nat} (hCalls : asked.size = calls) (i : Fin n) :
      (asked.push (question i)).size = calls + 1 := by
    rw [Array.size_push, hCalls]
  generalize hCalls : asked.size = calls
  fun_induction halve (fun call i => probe call (question i)) calls left right hRight
    generalizing asked with
  | case1 calls left right hRight hRange mid fault hCmp =>
      rw [bisectRange, dif_pos hRange, Inquiry.run_bind_of_error (hAsk hCalls hCmp)]
      simp
  | case2 calls left right hRight hRange mid hCmp =>
      rw [bisectRange, dif_pos hRange, Inquiry.run_bind_of_ok (hAsk hCalls hCmp), Inquiry.run_pure]
      simp [mid]
  | case3 calls left right hRight hRange mid hCmp ih =>
      rw [bisectRange, dif_pos hRange, Inquiry.run_bind_of_ok (hAsk hCalls hCmp),
        ih _ (hCount hCalls mid)]
      simp [Halving.after]
  | case4 calls left right hRight hRange mid hCmp ih =>
      rw [bisectRange, dif_pos hRange, Inquiry.run_bind_of_ok (hAsk hCalls hCmp),
        ih _ (hCount hCalls mid)]
      simp [Halving.after]
  | case5 calls left right hRight hRange =>
      rw [bisectRange, dif_neg hRange, Inquiry.run_pure]
      simp

/-- The whole search of a list for a target. -/
def halving (cmp : Probe (α × τ) Ordering) (xs : List α) (target : τ) : Halving xs.length :=
  halve (fun call i => cmp call (xs.get i, target)) 0 0 xs.length (Nat.le_refl _)

theorem searchM_finding (cmp : Probe (α × τ) Ordering) (xs : List α) (target : τ) :
    (searchM (fun x t => Inquiry.ask cmp (x, t)) xs target).finding =
      ⟨(halving cmp xs target).outcome.map (Option.map Fin.val),
        (halving cmp xs target).asked.map fun i => (xs.get i, target)⟩ := by
  have hRun := bisectRange_run cmp (fun i : Fin xs.length => (xs.get i, target)) 0 xs.length
    (Nat.le_refl _) #[]
  rw [Inquiry.finding, searchM, bisectM, Inquiry.run_bind_pure hRun]
  simp [halving]

/-- The list falls into three parts: first what compares below the target, then what
compares equal to it, then what compares above it. Each of them may be empty. -/
def ThreeParts (cmp : α → τ → Ordering) (target : τ) (xs : List α) : Prop :=
  ∃ below equal above, xs = below ++ equal ++ above ∧ (∀ x ∈ below, cmp x target = .lt) ∧
    (∀ x ∈ equal, cmp x target = .eq) ∧ ∀ x ∈ above, cmp x target = .gt

/-- Two places divide the list: where the first part ends and where the last begins. -/
theorem ThreeParts.exists_places {cmp : α → τ → Ordering} {target : τ} {xs : List α}
    (hParts : ThreeParts cmp target xs) :
    ∃ low high : Nat, high ≤ xs.length ∧ ∀ (i : Nat) (x : α), xs[i]? = some x →
      (cmp x target = .lt ↔ i < low) ∧ (cmp x target = .gt ↔ high ≤ i) := by
  obtain ⟨below, equal, above, rfl, hBelow, hEqual, hAbove⟩ := hParts
  refine ⟨below.length, (below ++ equal).length, by simp, ?_⟩
  intro i x hx
  rw [List.getElem?_append, List.getElem?_append] at hx
  rw [List.length_append] at hx ⊢
  split at hx
  next hHigh =>
    split at hx
    next hLow =>
      rw [hBelow x (List.mem_of_getElem? hx)]
      simp only [reduceCtorEq, true_iff, false_iff]
      omega
    next hLow =>
      rw [hEqual x (List.mem_of_getElem? hx)]
      simp only [reduceCtorEq, false_iff]
      omega
  next hHigh =>
    rw [hAbove x (List.mem_of_getElem? hx)]
    simp only [reduceCtorEq, true_iff, false_iff]
    omega

/-- A list in order has three parts at every target. -/
theorem Ascending.threeParts {cmp : α → α → Ordering} [Std.TransCmp cmp] {xs : List α}
    (hOrder : Ascending cmp xs) (target : α) : ThreeParts cmp target xs := by
  induction xs with
  | nil => exact ⟨[], [], [], rfl, by simp, by simp, by simp⟩
  | cons x xs ih =>
      obtain ⟨below, equal, above, hXs, hBelow, hEqual, hAbove⟩ := ih hOrder.of_cons
      -- Nothing behind `x` is below it. So if `x` is not below the target, nothing is.
      have hNoneBelow (hNot : cmp x target ≠ .lt) : below = [] := by
        apply List.eq_nil_iff_forall_not_mem.mpr
        intro y hy
        have hMem : y ∈ x :: xs := by simp [hXs, hy]
        apply hNot
        exact Std.TransCmp.lt_of_isLE_of_lt (hOrder.isLE_of_mem hMem) (hBelow y hy)
      cases hx : cmp x target with
      | lt =>
          refine ⟨x :: below, equal, above, by simp [hXs], ?_, hEqual, hAbove⟩
          exact List.forall_mem_cons.mpr ⟨hx, hBelow⟩
      | eq =>
          refine ⟨[], x :: equal, above, ?_, by simp, ?_, hAbove⟩
          · simp [hXs, hNoneBelow (by simp [hx])]
          · exact List.forall_mem_cons.mpr ⟨hx, hEqual⟩
      | gt =>
          have hNoneEqual : equal = [] := by
            apply List.eq_nil_iff_forall_not_mem.mpr
            intro y hy
            have hMem : y ∈ x :: xs := by simp [hXs, hy]
            have hLE := hOrder.isLE_of_mem hMem
            rw [Std.TransCmp.congr_right (hEqual y hy), hx] at hLE
            cases hLE
          refine ⟨[], [], x :: above, ?_, by simp, by simp, ?_⟩
          · simp [hXs, hNoneBelow (by simp [hx]), hNoneEqual]
          · exact List.forall_mem_cons.mpr ⟨hx, hAbove⟩

/-- The range always reaches from the first part to the last: both halves that the
search can go on with keep the places where these meet the rest. -/
theorem halve_of_places {sign : Fin n → Ordering} {low high : Nat}
    (hPlaces : ∀ i, (sign i = .lt ↔ i < low) ∧ (sign i = .gt ↔ high ≤ i))
    (calls left right : Nat) (hRight : right ≤ n) (hLow : left ≤ low) (hHigh : high ≤ right) :
    ∃ found, (halve (fun _ i => .ok (sign i)) calls left right hRight).outcome = .ok found ∧
      (∀ i, found = some i → sign i = .eq) ∧ (found = none → high ≤ low) := by
  fun_induction halve (fun _ i => .ok (sign i)) calls left right hRight with
  | case1 calls left right hRight hRange mid fault hCmp => cases hCmp
  | case2 calls left right hRight hRange mid hCmp =>
      refine ⟨some mid, rfl, ?_, by simp⟩
      intro i hi
      cases hi
      exact Except.ok.inj hCmp
  | case3 calls left right hRight hRange mid hCmp ih =>
      have hBelow : mid < low := (hPlaces mid).1.mp (Except.ok.inj hCmp)
      exact ih hBelow hHigh
  | case4 calls left right hRight hRange mid hCmp ih =>
      have hAbove : high ≤ mid := (hPlaces mid).2.mp (Except.ok.inj hCmp)
      exact ih hLow hAbove
  | case5 calls left right hRight hRange =>
      refine ⟨none, rfl, by simp, ?_⟩
      intro _
      omega

/-- The report of a search under a comparator that always answers. -/
def searchReport (cmp : α → τ → Ordering) (generator : Generator) (list : Stored α)
    (target : τ) : Report α τ :=
  ((Operation.search list target (comparisonProbe none cmp) :
    Operation α τ (Stored α) (Stored (Stored α))).perform generator).1

/-- What a search tells about the list: a place whose element compares equal to the
target or, as the place minus one, that there is none. -/
structure Decided (cmp : α → τ → Ordering) (target : τ) (xs : List α) (found : Option Nat) :
    Prop where
  present : (∃ x ∈ xs, cmp x target = .eq) → ∃ (i : Nat) (x : α),
    (indexOrMinusOne found, found.isSome) = ((i : Int), true) ∧ xs[i]? = some x ∧
      cmp x target = .eq
  absent : (∀ x ∈ xs, cmp x target ≠ .eq) → (indexOrMinusOne found, found.isSome) = (-1, false)

/-- A search of this list for this target reports whether it has such an element. -/
def Decides (cmp : α → τ → Ordering) (list : Stored α) (target : τ) : Prop :=
  ∀ generator : Generator, ∃ found,
    (searchReport cmp generator list target).outcome = .ok (.position found) ∧
      Decided cmp target list.items found

theorem ThreeParts.decides {cmp : α → τ → Ordering} {list : Stored α} {target : τ}
    (hParts : ThreeParts cmp target list.items) : Decides cmp list target := by
  intro generator
  obtain ⟨low, high, hHigh, hPlaces⟩ := hParts.exists_places
  have hSigns (i : Fin list.items.length) := hPlaces i (list.items.get i)
    (List.getElem?_eq_getElem i.isLt)
  obtain ⟨found, hOutcome, hFound, hNone⟩ :=
    halve_of_places hSigns 0 0 list.items.length (Nat.le_refl _) (Nat.zero_le _) hHigh
  have hSearch : (halving (comparisonProbe none cmp) list.items target).outcome = .ok found :=
    hOutcome
  refine ⟨found.map Fin.val, ?_, ?_⟩
  · simp only [searchReport, Operation.perform, Report.ofFinding, searchM_finding, hSearch]
    rfl
  · cases found with
    | none =>
        refine ⟨?_, fun _ => rfl⟩
        rintro ⟨x, hx, hEq⟩
        -- An element that compares equal would stand between the first part and the last.
        obtain ⟨i, hi⟩ := List.mem_iff_getElem?.mp hx
        have hPlace := hPlaces i x hi
        have hMeet := hNone rfl
        simp only [hEq, reduceCtorEq, false_iff] at hPlace
        omega
    | some i =>
        have hEq := hFound i rfl
        refine ⟨fun _ => ⟨i, list.items.get i, rfl, List.getElem?_eq_getElem i.isLt, hEq⟩, ?_⟩
        intro hAbsent
        exact absurd hEq (hAbsent _ (List.get_mem ..))

namespace Binary64

/-- Neither is a number, or both are the same number, as the two zeros are. -/
def Coincides (x y : Binary64) : Prop :=
  (x.isNaN ∧ y.isNaN) ∨ (¬x.isNaN ∧ ¬y.isNaN ∧ x.value = y.value)

theorem compare_eq_iff {x y : Binary64} : compare x y = .eq ↔ x.Coincides y := by
  by_cases hx : x.isNaN
  · by_cases hy : y.isNaN
    · simp [Coincides, hx, hy, compare_eq_of_isNaN]
    · simp [Coincides, hx, hy, compare_lt_of_isNaN]
  · by_cases hy : y.isNaN
    · have hSwap : compare x y = (compare y x).swap := Std.OrientedCmp.eq_swap
      simp [Coincides, hx, hy, hSwap, compare_lt_of_isNaN]
    · simp [Coincides, hx, hy, compare_eq_compare_value]

/-- What the search takes for equal among floating-point numbers. -/
structure EqualityLaws : Prop where
  equal_iff : ∀ x y : Binary64, compare x y = .eq ↔ x.Coincides y
  nan : ∀ x y : Binary64, y.isNaN → (x.Coincides y ↔ x.isNaN)
  zero : ∀ x y : Binary64, x.magnitude = 0 → y.magnitude = 0 → x.Coincides y

theorem equalityLaws : EqualityLaws where
  equal_iff _ _ := compare_eq_iff
  nan x y hy := by simp [Coincides, hy]
  zero x y hx hy := compare_eq_iff.mp (orderLaws.alike_zero x y hx hy)

end Binary64

/-- A search decides every target on a list in the natural order of its type. -/
def DecidesNaturally (α : Type) [Ord α] [Element α] : Prop :=
  (Element.comparisons : Registry (α → α → Ordering)).lookup "natural" = some compare ∧
    ∀ (list : Stored α) (target : α), Ascending compare list.items → Decides compare list target

theorem decidesNaturally {α : Type} [Ord α] [Std.TransOrd α] [Element α]
    (hNatural : (Element.comparisons : Registry (α → α → Ordering)).lookup "natural" =
      some compare) : DecidesNaturally α := by
  refine ⟨hNatural, ?_⟩
  intro list target hOrder
  exact (hOrder.threeParts target).decides

/-- Searching decides whether some element compares equal to the target, on every list
that the target divides. Lists in order are such lists, whatever the target. -/
theorem search_decides :
    (∀ (α τ : Type) (cmp : α → τ → Ordering) (list : Stored α) (target : τ),
      ThreeParts cmp target list.items → Decides cmp list target) ∧
    DecidesNaturally Int64 ∧ DecidesNaturally UInt64 ∧ DecidesNaturally Bytes ∧
    DecidesNaturally Binary64 ∧ Binary64.EqualityLaws :=
  ⟨fun _ _ _ _ _ hParts => hParts.decides, decidesNaturally rfl, decidesNaturally rfl,
    decidesNaturally rfl, decidesNaturally rfl, Binary64.equalityLaws⟩

/-- Entries by their numbers, and floating-point numbers among which the target occurs
with another payload or another sign only. -/
theorem search_entries_and_zeros :
    let entries : List Entry := [⟨1, [97]⟩, ⟨2, [98]⟩, ⟨2, [99]⟩, ⟨5, [100]⟩]
    let numbers : List Binary64 := [⟨0x7ff8000000000001⟩, ⟨0x8000000000000000⟩,
      ⟨0x3ff0000000000000⟩]
    ThreeParts Entry.compareTo (.number 2) entries ∧
      Decides Entry.compareTo (some entries) (.number 2) ∧
      (searchReport Entry.compareTo (.ofWords []) (some entries) (.number 2)).outcome =
        .ok (.position (some 2)) ∧
      Ascending compare numbers ∧
      Decides compare (some numbers) ⟨0⟩ ∧
      (searchReport compare (.ofWords []) (some numbers) ⟨0⟩).outcome = .ok (.position (some 1)) ∧
      Decides compare (some numbers) ⟨0xfff8000000000002⟩ ∧
      (searchReport compare (.ofWords []) (some numbers) ⟨0xfff8000000000002⟩).outcome =
        .ok (.position (some 0)) := by
  intro entries numbers
  have hParts : ThreeParts Entry.compareTo (.number 2) entries :=
    ⟨[⟨1, [97]⟩], [⟨2, [98]⟩, ⟨2, [99]⟩], [⟨5, [100]⟩], rfl, by decide, by decide, by decide⟩
  have hOrder : Ascending compare numbers := by unfold Ascending; decide
  obtain ⟨hAny, -, -, -, ⟨-, hNumbers⟩, -⟩ := search_decides
  exact ⟨hParts, hAny _ _ _ (some entries) _ hParts, by cbv, hOrder,
    hNumbers (some numbers) _ hOrder, by cbv, hNumbers (some numbers) _ hOrder, by cbv⟩

end Sequences
