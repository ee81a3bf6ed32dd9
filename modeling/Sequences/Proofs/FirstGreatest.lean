import Sequences.Proofs.StableMerge

/-! The greatest element of a list, where several may compare equal to it. The answer is
the first of these: everything before it is below it, and nothing behind it is above. Two
such lists in a row have one of their two answers, and only if the second is strictly
above the first it is that one. -/
namespace Sequences

variable {α : Type} {cmp : α → α → Ordering} {xs as bs : List α} {x y : α}

/-- No element is above the one at this place. -/
def Unsurpassed (cmp : α → α → Ordering) (xs : List α) (i : Fin xs.length) : Prop :=
  ∀ j, (cmp (xs.get j) (xs.get i)).isLE

/-- The element stands in the list with all before it below it and none behind it above
it. -/
def Leading (cmp : α → α → Ordering) (xs : List α) (x : α) : Prop :=
  ∃ before after, xs = before ++ x :: after ∧ (∀ y ∈ before, cmp y x = .lt) ∧
    ∀ y ∈ after, (cmp y x).isLE

section Leading

variable [Std.TransCmp cmp]

theorem leading_singleton (cmp : α → α → Ordering) (x : α) : Leading cmp [x] x :=
  ⟨[], [], rfl, List.forall_mem_nil _, List.forall_mem_nil _⟩

theorem Leading.isLE_of_mem (hLeading : Leading cmp xs x) (hy : y ∈ xs) : (cmp y x).isLE := by
  obtain ⟨before, after, rfl, hBelow, hBehind⟩ := hLeading
  rcases List.mem_append.mp hy with hy | hy
  · rw [hBelow y hy]
    rfl
  · rcases List.mem_cons.mp hy with rfl | hy
    · exact Std.ReflCmp.isLE_rfl
    · exact hBehind y hy

/-- The candidate of what was passed and the candidate of what follows. If the second is
strictly above the first, it is above all that was passed; if not, nothing that follows is
above the first. -/
theorem Leading.append (hLeft : Leading cmp as x) (hRight : Leading cmp bs y) :
    Leading cmp (as ++ bs) (if (cmp y x).isGT then y else x) := by
  have hAs {z : α} (hz : z ∈ as) := hLeft.isLE_of_mem hz
  have hBs {z : α} (hz : z ∈ bs) := hRight.isLE_of_mem hz
  split
  next hAbove =>
    have hxy : cmp x y = .lt := Std.OrientedCmp.gt_iff_lt.mp (by simpa using hAbove)
    obtain ⟨before, after, rfl, hBelow, hBehind⟩ := hRight
    refine ⟨as ++ before, after, (List.append_assoc ..).symm, ?_, hBehind⟩
    intro z hz
    rcases List.mem_append.mp hz with hz | hz
    · exact Std.TransCmp.lt_of_isLE_of_lt (hAs hz) hxy
    · exact hBelow z hz
  next hNot =>
    have hyx : (cmp y x).isLE := Ordering.isLE_iff_ne_gt.mpr (by simpa using hNot)
    obtain ⟨before, after, rfl, hBelow, hBehind⟩ := hLeft
    refine ⟨before, after ++ bs, by simp, hBelow, ?_⟩
    intro z hz
    rcases List.mem_append.mp hz with hz | hz
    · exact hBehind z hz
    · exact Std.TransCmp.isLE_trans (hBs hz) hyx

theorem Leading.foldl (hLeading : Leading cmp as x) (bs : List α) :
    Leading cmp (as ++ bs) (bs.foldl (fun best y => if (cmp y best).isGT then y else best) x) := by
  induction bs generalizing as x with
  | nil => rwa [List.append_nil]
  | cons b bs ih =>
      have hNext := ih (hLeading.append (leading_singleton cmp b))
      rwa [List.append_assoc, List.singleton_append] at hNext

theorem exists_leading_maximum (cmp : α → α → Ordering) [Std.TransCmp cmp] (hNe : xs ≠ []) :
    ∃ x, maximum cmp xs = some x ∧ Leading cmp xs x := by
  cases xs with
  | nil => exact absurd rfl hNe
  | cons x xs => exact ⟨_, maximum_cons cmp x xs, (leading_singleton cmp x).foldl xs⟩

/-- The place of a leading element is the first one that is not surpassed: an element
before it is below it. -/
theorem Leading.exists_isLeast (hLeading : Leading cmp xs x) :
    ∃ i, IsLeast {i | Unsurpassed cmp xs i} i ∧ xs.get i = x := by
  have hAll {y : α} (hy : y ∈ xs) := hLeading.isLE_of_mem hy
  obtain ⟨before, after, rfl, hBelow, -⟩ := hLeading
  have hPlace : before.length < (before ++ x :: after).length := by simp
  have hGet : (before ++ x :: after).get ⟨before.length, hPlace⟩ = x := by simp
  refine ⟨⟨before.length, hPlace⟩, ⟨?_, ?_⟩, hGet⟩
  · intro j
    rw [hGet]
    exact hAll (List.get_mem ..)
  · intro i hi
    -- An earlier place would hold an element below `x`, which then surpasses it.
    by_contra hLt
    rw [not_le, Fin.lt_def] at hLt
    have hMem : (before ++ x :: after).get i ∈ before := by
      rw [List.get_eq_getElem, List.getElem_append_left hLt]
      exact List.getElem_mem ..
    have hNot := hi ⟨before.length, hPlace⟩
    rw [hGet, Std.OrientedCmp.gt_iff_lt.mpr (hBelow _ hMem)] at hNot
    cases hNot

theorem Leading.unique (hx : Leading cmp xs x) (hy : Leading cmp xs y) : x = y := by
  obtain ⟨i, hi, rfl⟩ := hx.exists_isLeast
  obtain ⟨j, hj, rfl⟩ := hy.exists_isLeast
  rw [hi.unique hj]

theorem maximum_append (cmp : α → α → Ordering) [Std.TransCmp cmp] (hAs : as ≠ [])
    (hBs : bs ≠ []) :
    ∃ x y, maximum cmp as = some x ∧ maximum cmp bs = some y ∧
      maximum cmp (as ++ bs) = some (if (cmp y x).isGT then y else x) := by
  obtain ⟨x, hLeft, hx⟩ := exists_leading_maximum cmp hAs
  obtain ⟨y, hRight, hy⟩ := exists_leading_maximum cmp hBs
  obtain ⟨z, hBoth, hz⟩ := exists_leading_maximum cmp (List.append_ne_nil_of_left_ne_nil hAs bs)
  exact ⟨x, y, hLeft, hRight, by rw [hBoth, hz.unique (hx.append hy)]⟩

end Leading

theorem foldlM_ask_run {probe : Probe (α × α) Ordering}
    (hProbe : ∀ call x y, probe call (x, y) = .ok (cmp x y)) (best : α) (asked : Array (α × α)) :
    ∃ later, (xs.foldlM (fun best y => do
        return if (← Inquiry.ask probe (y, best)).isGT then y else best) best).run.run asked =
      (.ok (xs.foldl (fun best y => if (cmp y best).isGT then y else best) best), later) := by
  induction xs generalizing best asked with
  | nil => exact ⟨asked, Inquiry.run_pure best asked⟩
  | cons x xs ih =>
      have hAnswer := Inquiry.run_ask (hProbe (asked.size + 1) x best)
      obtain ⟨later, hRest⟩ := ih (if (cmp x best).isGT then x else best) (asked.push (x, best))
      refine ⟨later, ?_⟩
      rw [List.foldlM_cons, bind_assoc, Inquiry.run_bind_of_ok hAnswer, pure_bind, hRest,
        List.foldl_cons]

theorem maximumM_outcome {probe : Probe (α × α) Ordering}
    (hProbe : ∀ call x y, probe call (x, y) = .ok (cmp x y)) (xs : List α) :
    (maximumM (fun x y => Inquiry.ask probe (x, y)) xs).finding.outcome =
      .ok (maximum cmp xs) := by
  cases xs with
  | nil => rfl
  | cons x xs =>
      obtain ⟨later, hRun⟩ := foldlM_ask_run hProbe x #[]
      rw [Inquiry.finding, maximumM, Inquiry.run_bind_of_ok hRun, maximum_cons]
      rfl

/-- The report of the greatest element under a comparison that always answers. -/
def maximumReport (τ : Type) (cmp : α → α → Ordering) (generator : Generator)
    (list : Stored α) : Report α τ :=
  ((Operation.maximum list (comparisonProbe none cmp) :
    Operation α τ (Stored α) (Stored (Stored α))).perform generator).1

theorem maximumReport_of_eq_some (τ : Type) (generator : Generator) {list : Stored α}
    (hSome : maximum cmp list.items = some x) :
    (maximumReport τ cmp generator list).outcome = .ok (.value x) := by
  have hProbe (call : Nat) (x y : α) : comparisonProbe none cmp call (x, y) = .ok (cmp x y) := rfl
  simp only [maximumReport, Operation.perform, Report.ofFinding, maximumM_outcome hProbe, hSome]

theorem maximumReport_of_eq_nil (τ : Type) (cmp : α → α → Ordering) (generator : Generator)
    {list : Stored α} (hNil : list.items = []) :
    (maximumReport τ cmp generator list).outcome = .error .empty := by
  simp only [maximumReport, Operation.perform, hNil]
  rfl

namespace Binary64

/-- What is greatest among floating-point numbers. It is not a number only if nothing there
is, and then it is the first element. It is a zero only as the first zero of either sign. -/
structure FirstGreatest (xs : List Binary64) (x : Binary64) : Prop where
  nan_iff : x.isNaN ↔ ∀ y ∈ xs, y.isNaN
  nan_first : x.isNaN → xs.head? = some x
  zero_first : x.magnitude = 0 → xs.find? (fun y => y.magnitude == 0) = some x
  largest : ∀ y ∈ xs, ¬x.isNaN → ¬y.isNaN → y.value ≤ x.value

/-- Above something that is not a number everything else is, and nothing is below it. -/
theorem isNaN_of_isLE {x y : Binary64} (hx : x.isNaN) (hLE : (compare y x).isLE) : y.isNaN := by
  by_contra hy
  rw [Std.OrientedCmp.gt_iff_lt.mpr (compare_lt_of_isNaN hx hy)] at hLE
  cases hLE

theorem compare_ne_lt_of_isNaN {x y : Binary64} (hx : x.isNaN) : compare y x ≠ .lt := by
  intro hLt
  have hy := isNaN_of_isLE hx (by rw [hLt]; rfl)
  rw [compare_eq_of_isNaN hy hx] at hLt
  cases hLt

theorem firstGreatest_of_leading {xs : List Binary64} {x : Binary64}
    (hLeading : Leading compare xs x) : FirstGreatest xs x := by
  have hAll {y : Binary64} (hy : y ∈ xs) := hLeading.isLE_of_mem hy
  obtain ⟨before, after, rfl, hBelow, -⟩ := hLeading
  constructor
  case nan_iff =>
    constructor
    · intro hx y hy
      exact isNaN_of_isLE hx (hAll hy)
    · intro hNaN
      exact hNaN x (by simp)
  case nan_first =>
    intro hx
    have hNone : before = [] := by
      apply List.eq_nil_iff_forall_not_mem.mpr
      intro y hy
      exact compare_ne_lt_of_isNaN hx (hBelow y hy)
    rw [hNone]
    rfl
  case zero_first =>
    intro hx
    have hNone : ∀ y ∈ before, ¬(y.magnitude == 0) = true := by
      intro y hy hZero
      have hEq := orderLaws.alike_zero y x (by simpa using hZero) hx
      rw [hBelow y hy] at hEq
      cases hEq
    rw [List.find?_append, List.find?_eq_none.mpr hNone, List.find?_cons_of_pos (by simp [hx])]
    rfl
  case largest =>
    intro y hy hx hyNumber
    have hLE := hAll hy
    rwa [compare_eq_compare_value hyNumber hx, Int.isLE_compare] at hLE

end Binary64

/-- The greatest element is the first one that no element surpasses, and there is one
unless the list is empty. Of two lists in a row it is the first list's, except where the
second list's is strictly above. Floating-point numbers are compared by their order, in
which different bits can be alike. -/
theorem maximum_isFirst :
    (∀ (α τ : Type) (cmp : α → α → Ordering) [Std.TransCmp cmp] (generator : Generator),
      let greatest (list : Stored α) := (maximumReport τ cmp generator list).outcome
      (∀ list, greatest list = .error .empty ↔ list.items = []) ∧
      (∀ list, list.items ≠ [] → ∃ i, IsLeast {i | Unsurpassed cmp list.items i} i ∧
        greatest list = .ok (.value (list.items.get i))) ∧
      ∀ left right, left.items ≠ [] → right.items ≠ [] → ∃ x y,
        greatest left = .ok (.value x) ∧ greatest right = .ok (.value y) ∧
        greatest (some (left.items ++ right.items)) =
          .ok (.value (if (cmp y x).isGT then y else x))) ∧
    (Element.comparisons : Registry (Binary64 → Binary64 → Ordering)).lookup "natural" =
      some compare ∧
    ∀ (τ : Type) (generator : Generator) (list : Stored Binary64), list.items ≠ [] → ∃ x,
      (maximumReport τ compare generator list).outcome = .ok (.value x) ∧
        Binary64.FirstGreatest list.items x := by
  refine ⟨?_, rfl, ?_⟩
  · intro α τ cmp _ generator greatest
    refine ⟨fun list => ⟨?_, maximumReport_of_eq_nil τ cmp generator⟩, ?_, ?_⟩
    · intro hEmpty
      by_contra hNe
      obtain ⟨x, hMaximum, -⟩ := exists_leading_maximum cmp hNe
      cases hEmpty.symm.trans (maximumReport_of_eq_some τ generator hMaximum)
    · intro list hNe
      obtain ⟨x, hMaximum, hLeading⟩ := exists_leading_maximum cmp hNe
      obtain ⟨i, hLeast, rfl⟩ := hLeading.exists_isLeast
      exact ⟨i, hLeast, maximumReport_of_eq_some τ generator hMaximum⟩
    · intro left right hLeft hRight
      obtain ⟨x, y, hx, hy, hBoth⟩ := maximum_append cmp hLeft hRight
      exact ⟨x, y, maximumReport_of_eq_some τ generator hx,
        maximumReport_of_eq_some τ generator hy, maximumReport_of_eq_some τ generator hBoth⟩
  · intro τ generator list hNe
    obtain ⟨x, hMaximum, hLeading⟩ := exists_leading_maximum compare hNe
    exact ⟨x, maximumReport_of_eq_some τ generator hMaximum,
      Binary64.firstGreatest_of_leading hLeading⟩

/-- Entries by their numbers, where two are greatest, and a zero behind its opposite. -/
theorem maximum_entries_and_zeros :
    let entries : List Entry := [⟨2, [97]⟩, ⟨5, [98]⟩, ⟨1, [99]⟩, ⟨5, [100]⟩]
    let numbers : List Binary64 := [⟨0x7ff8000000000001⟩, ⟨0xbff0000000000000⟩,
      ⟨0x8000000000000000⟩, ⟨0⟩]
    (maximumReport Unit (compareOn Entry.number) (.ofWords []) (some entries)).outcome =
        .ok (.value ⟨5, [98]⟩) ∧
      (∃ i, IsLeast {i | Unsurpassed (compareOn Entry.number) entries i} i ∧
        entries.get i = ⟨5, [98]⟩) ∧
      (maximumReport Unit compare (.ofWords []) (some numbers)).outcome =
        .ok (.value ⟨0x8000000000000000⟩) ∧
      Binary64.FirstGreatest numbers ⟨0x8000000000000000⟩ := by
  intro entries numbers
  have hEntry : (maximumReport Unit (compareOn Entry.number) (.ofWords [])
    (some entries)).outcome = .ok (.value ⟨5, [98]⟩) := by cbv
  have hNumber : (maximumReport Unit compare (.ofWords []) (some numbers)).outcome =
    .ok (.value ⟨0x8000000000000000⟩) := by cbv
  obtain ⟨hAny, -, hNumbers⟩ := maximum_isFirst
  obtain ⟨-, hPlaces, -⟩ := hAny Entry Unit (compareOn Entry.number) (.ofWords [])
  obtain ⟨i, hLeast, hGet⟩ := hPlaces (some entries) (List.cons_ne_nil _ _)
  obtain ⟨x, hReport, hGreatest⟩ :=
    hNumbers Unit (.ofWords []) (some numbers) (List.cons_ne_nil _ _)
  have hValue := Result.value.inj (Except.ok.inj (hGet.symm.trans hEntry))
  cases hNumber.symm.trans hReport
  exact ⟨hEntry, ⟨i, hLeast, hValue⟩, hNumber, hGreatest⟩

end Sequences
