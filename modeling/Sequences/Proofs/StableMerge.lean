import Sequences.Proofs.Eager
import Sequences.Workspace.Operation

/-! Merging as sorting. For a comparison that orders its elements and two
lists in that order, the merge is the one list that a stable sort of their
concatenation can give. Elements may compare equal without being equal, so
the order among them is part of every statement here. -/
namespace Sequences

variable {α : Type}

/-- In order, where neighbours may compare equal. -/
def Ascending (cmp : α → α → Ordering) (xs : List α) : Prop :=
  xs.Pairwise fun x y => (cmp x y).isLE

/-- The elements that compare equal to `z`, in the order of the list. -/
def alike (cmp : α → α → Ordering) (z : α) (xs : List α) : List α :=
  xs.filter fun x => cmp x z == .eq

section Alike

variable {cmp : α → α → Ordering} {x z : α} {xs : List α}

theorem mem_alike : x ∈ alike cmp z xs ↔ x ∈ xs ∧ cmp x z = .eq := by
  simp [alike]

theorem alike_append (cmp : α → α → Ordering) (z : α) (as bs : List α) :
    alike cmp z (as ++ bs) = alike cmp z as ++ alike cmp z bs :=
  List.filter_append ..

theorem alike_cons_of_eq (hEq : cmp x z = .eq) :
    alike cmp z (x :: xs) = x :: alike cmp z xs :=
  List.filter_cons_of_pos (by simp [hEq])

theorem alike_cons_of_ne (hNe : cmp x z ≠ .eq) : alike cmp z (x :: xs) = alike cmp z xs :=
  List.filter_cons_of_neg (by simp [hNe])

end Alike

/-- The second list has the elements of the first in order, and those that
compare equal stand in it as they stood in the first. -/
structure StableSort (cmp : α → α → Ordering) (xs ys : List α) : Prop where
  ascending : Ascending cmp ys
  perm : ys.Perm xs
  alike_eq : ∀ z, alike cmp z ys = alike cmp z xs

section Sorting

variable {cmp : α → α → Ordering} [Std.TransCmp cmp] {as bs xs ys zs : List α}

theorem isLE_total (cmp : α → α → Ordering) [Std.TransCmp cmp] (x y : α) :
    ((cmp x y).isLE || (cmp y x).isLE) = true := by
  have hSwap : cmp y x = (cmp x y).swap := Std.OrientedCmp.eq_swap
  rw [hSwap]
  cases cmp x y <;> rfl

theorem Ascending.isLE_of_mem {x y : α} (hOrder : Ascending cmp (x :: xs))
    (hMem : y ∈ x :: xs) : (cmp x y).isLE := by
  rcases List.mem_cons.mp hMem with rfl | hMem
  · exact Std.ReflCmp.isLE_rfl
  · exact List.rel_of_pairwise_cons hOrder hMem

theorem alike_self_cons_ne_nil (cmp : α → α → Ordering) [Std.TransCmp cmp] (x : α)
    (xs : List α) : alike cmp x (x :: xs) ≠ [] := by
  rw [alike_cons_of_eq Std.ReflCmp.compare_self]
  exact List.cons_ne_nil _ _

/-- The first element of one list is not above that of the other, since the
other list has an element that compares equal to it. -/
theorem isLE_of_alike_eq {y z : α} (hOrder : Ascending cmp (z :: zs))
    (hAlike : alike cmp y (y :: ys) = alike cmp y (z :: zs)) : (cmp z y).isLE := by
  have hMem : y ∈ alike cmp y (z :: zs) := by
    rw [← hAlike, alike_cons_of_eq Std.ReflCmp.compare_self]
    exact List.mem_cons_self ..
  exact hOrder.isLE_of_mem (mem_alike.mp hMem).1

/-- A list in order is known by its elements that compare equal, class by
class. By induction on the first list: both begin in the same class, and the
classes tell which element of it comes first. -/
theorem Ascending.eq_of_alike_eq (hYs : Ascending cmp ys) (hZs : Ascending cmp zs)
    (hAlike : ∀ x, alike cmp x ys = alike cmp x zs) : ys = zs := by
  induction ys generalizing zs with
  | nil =>
      cases zs with
      | nil => rfl
      | cons z zs => exact absurd (hAlike z).symm (alike_self_cons_ne_nil cmp z zs)
  | cons y ys ih =>
      cases zs with
      | nil => exact absurd (hAlike y) (alike_self_cons_ne_nil cmp y ys)
      | cons z zs =>
          have hEq : cmp z y = .eq := Std.OrientedCmp.isLE_antisymm
            (isLE_of_alike_eq hZs (hAlike y)) (isLE_of_alike_eq hYs (hAlike z).symm)
          have hHeads := hAlike y
          rw [alike_cons_of_eq Std.ReflCmp.compare_self, alike_cons_of_eq hEq] at hHeads
          obtain ⟨rfl, -⟩ := List.cons.inj hHeads
          congr 1
          refine ih hYs.of_cons hZs.of_cons fun x => ?_
          have hTails := hAlike x
          by_cases hx : cmp y x = .eq
          · rw [alike_cons_of_eq hx, alike_cons_of_eq hx] at hTails
            exact (List.cons.inj hTails).2
          · rwa [alike_cons_of_ne hx, alike_cons_of_ne hx] at hTails

theorem StableSort.unique (hYs : StableSort cmp xs ys) (hZs : StableSort cmp xs zs) : ys = zs :=
  hYs.ascending.eq_of_alike_eq hZs.ascending fun z => (hYs.alike_eq z).trans (hZs.alike_eq z).symm

/-- All elements of a class are in order, so they are a sublist of the sorted
list, and they are as many there as before. -/
theorem stableSort_mergeSort (cmp : α → α → Ordering) [Std.TransCmp cmp] (xs : List α) :
    StableSort cmp xs (xs.mergeSort fun x y => (cmp x y).isLE) where
  ascending := List.pairwise_mergeSort (fun _ _ _ => Std.TransCmp.isLE_trans) (isLE_total cmp) xs
  perm := List.mergeSort_perm ..
  alike_eq z := by
    have hOrder : Ascending cmp (alike cmp z xs) := by
      refine List.pairwise_of_forall_mem_list fun x hx y hy => ?_
      have hyz : cmp z y = .eq := Std.OrientedCmp.eq_comm.mp (mem_alike.mp hy).2
      rw [Std.TransCmp.congr_left (mem_alike.mp hx).2, hyz]
      rfl
    have hSub : (alike cmp z xs).Sublist (xs.mergeSort fun x y => (cmp x y).isLE) :=
      List.sublist_mergeSort (fun _ _ _ => Std.TransCmp.isLE_trans) (isLE_total cmp) hOrder
        List.filter_sublist
    have hClass : (alike cmp z xs).Sublist
        (alike cmp z (xs.mergeSort fun x y => (cmp x y).isLE)) := by
      have hFilter := hSub.filter fun x => cmp x z == .eq
      rwa [alike, List.filter_filter, funext fun _ => Bool.and_self _] at hFilter
    exact (hClass.eq_of_length ((List.mergeSort_perm ..).filter _).length_eq.symm).symm

/-- Where the right list is taken from, the whole left list is above what is
taken, so none of its elements is in the same class. -/
theorem alike_eq_nil_of_gt {a b z : α} (hOrder : Ascending cmp (a :: as))
    (hGt : ¬(cmp a b).isLE) (hEq : cmp b z = .eq) : alike cmp z (a :: as) = [] := by
  refine List.eq_nil_iff_forall_not_mem.mpr fun x hx => hGt ?_
  obtain ⟨hMem, hxz⟩ := mem_alike.mp hx
  have hBelow := hOrder.isLE_of_mem hMem
  rwa [Std.TransCmp.congr_right hxz, ← Std.TransCmp.congr_right hEq] at hBelow

theorem alike_merge (hAs : Ascending cmp as) (z : α) :
    alike cmp z (merge cmp as bs) = alike cmp z as ++ alike cmp z bs := by
  induction as generalizing bs with
  | nil => rw [merge_nil_left]; rfl
  | cons a as ihLeft =>
      induction bs with
      | nil => rw [merge_nil_right]; exact (List.append_nil _).symm
      | cons b bs ihRight =>
          rw [merge_cons_cons]
          by_cases hLE : (cmp a b).isLE
          · rw [if_pos hLE]
            by_cases ha : cmp a z = .eq
            · rw [alike_cons_of_eq ha, alike_cons_of_eq ha, ihLeft hAs.of_cons, List.cons_append]
            · rw [alike_cons_of_ne ha, alike_cons_of_ne ha, ihLeft hAs.of_cons]
          · rw [if_neg hLE]
            by_cases hb : cmp b z = .eq
            · rw [alike_cons_of_eq hb, alike_cons_of_eq hb, ihRight,
                alike_eq_nil_of_gt hAs hLE hb, List.nil_append, List.nil_append]
            · rw [alike_cons_of_ne hb, alike_cons_of_ne hb, ihRight]

theorem stableSort_merge (hAs : Ascending cmp as) (hBs : Ascending cmp bs) :
    StableSort cmp (as ++ bs) (merge cmp as bs) where
  ascending := by
    rw [merge_eq_listMerge]
    exact List.pairwise_merge (fun _ _ _ => Std.TransCmp.isLE_trans) (isLE_total cmp) as bs hAs hBs
  perm := by
    rw [merge_eq_listMerge]
    exact List.merge_perm_append ..
  alike_eq z := by rw [alike_merge hAs, alike_append]

end Sorting

namespace Binary64

/-- The size of a number in units of the least positive one. The infinite
size comes out above all others. -/
def units (magnitude : Nat) : Nat :=
  if magnitude < 2 ^ 52 then magnitude
  else (2 ^ 52 + magnitude % 2 ^ 52) * 2 ^ (magnitude / 2 ^ 52 - 1)

/-- The number itself in these units. Both zeros are zero. -/
def value (x : Binary64) : Int :=
  if x.isNegative then -units x.magnitude else units x.magnitude

/-- Within one exponent the fractions decide. A larger exponent makes up for
every fraction, also where the smaller one is the least and leaves out the
leading bit. -/
theorem units_lt_units {m n : Nat} (hLt : m < n) : units m < units n := by
  unfold units
  by_cases hn : n < 2 ^ 52
  · rw [if_pos (Nat.lt_trans hLt hn), if_pos hn]
    exact hLt
  · rw [if_neg hn]
    by_cases hm : m < 2 ^ 52
    · rw [if_pos hm]
      exact Nat.lt_of_lt_of_le (by omega) (Nat.le_mul_of_pos_right _ (Nat.two_pow_pos _))
    · rw [if_neg hm]
      have hExponent : m / 2 ^ 52 ≤ n / 2 ^ 52 := Nat.div_le_div_right (Nat.le_of_lt hLt)
      rcases Nat.lt_or_eq_of_le hExponent with hLess | hSame
      · calc (2 ^ 52 + m % 2 ^ 52) * 2 ^ (m / 2 ^ 52 - 1)
            < 2 ^ 53 * 2 ^ (m / 2 ^ 52 - 1) :=
              Nat.mul_lt_mul_of_pos_right (by omega) (Nat.two_pow_pos _)
          _ = 2 ^ 52 * 2 ^ (m / 2 ^ 52) := by
              rw [← Nat.pow_add, ← Nat.pow_add]
              congr 1
              omega
          _ ≤ (2 ^ 52 + n % 2 ^ 52) * 2 ^ (n / 2 ^ 52 - 1) :=
              Nat.mul_le_mul (by omega) (Nat.pow_le_pow_right (by omega) (by omega))
      · rw [hSame]
        exact Nat.mul_lt_mul_of_pos_right (by omega) (Nat.two_pow_pos _)

theorem units_lt_units_iff {m n : Nat} : units m < units n ↔ m < n := by
  refine ⟨fun hUnits => ?_, units_lt_units⟩
  rcases Nat.lt_trichotomy m n with hLt | rfl | hGt
  · exact hLt
  · exact absurd hUnits (Nat.lt_irrefl _)
  · exact absurd (units_lt_units hGt) (Nat.lt_asymm hUnits)

theorem compare_eq_of_isNaN {x y : Binary64} (hx : x.isNaN) (hy : y.isNaN) :
    compare x y = .eq := by
  change compare x.rank y.rank = .eq
  rw [rank, rank, if_pos hx, if_pos hy]
  exact Std.ReflCmp.compare_self

theorem compare_lt_of_isNaN {x y : Binary64} (hx : x.isNaN) (hy : ¬y.isNaN) :
    compare x y = .lt := by
  have hBound : y.magnitude < 0x8000000000000000 := Nat.mod_lt _ (by decide)
  change compare x.rank y.rank = .lt
  rw [rank, rank, if_pos hx, if_neg hy, Int.compare_eq_lt]
  split <;> omega

theorem rank_lt_rank_iff {x y : Binary64} (hx : ¬x.isNaN) (hy : ¬y.isNaN) :
    x.rank < y.rank ↔ x.value < y.value := by
  have hZero : units 0 = 0 := rfl
  have hxy := @units_lt_units_iff x.magnitude y.magnitude
  have hyx := @units_lt_units_iff y.magnitude x.magnitude
  have hxPos := @units_lt_units_iff 0 x.magnitude
  have hyPos := @units_lt_units_iff 0 y.magnitude
  rw [rank, rank, if_neg hx, if_neg hy, value, value]
  split <;> split <;> omega

/-- Among numbers the order of the bits is the order of the values. -/
theorem compare_eq_compare_value {x y : Binary64} (hx : ¬x.isNaN) (hy : ¬y.isNaN) :
    compare x y = compare x.value y.value := by
  change compare x.rank y.rank = compare x.value y.value
  rw [Int.compare_eq_ite_lt, Int.compare_eq_ite_lt]
  simp only [rank_lt_rank_iff hx hy, rank_lt_rank_iff hy hx]

/-- What the order of the bits is: the values that are not numbers are alike
and below all numbers, and numbers are ordered by their values. -/
structure OrderLaws : Prop where
  alike_nan : ∀ x y : Binary64, x.isNaN → y.isNaN → compare x y = .eq
  nan_below : ∀ x y : Binary64, x.isNaN → ¬y.isNaN → compare x y = .lt
  by_value : ∀ x y : Binary64, ¬x.isNaN → ¬y.isNaN → compare x y = compare x.value y.value
  alike_zero : ∀ x y : Binary64, x.magnitude = 0 → y.magnitude = 0 → compare x y = .eq

theorem value_eq_zero {x : Binary64} (hx : x.magnitude = 0) : x.value = 0 := by
  rw [value, hx]
  split <;> rfl

theorem orderLaws : OrderLaws where
  alike_nan _ _ := compare_eq_of_isNaN
  nan_below _ _ := compare_lt_of_isNaN
  by_value _ _ := compare_eq_compare_value
  alike_zero x y hx hy := by
    rw [compare_eq_compare_value (by simp [isNaN, hx]) (by simp [isNaN, hy]),
      value_eq_zero hx, value_eq_zero hy]
    rfl

end Binary64

/-- The report of a merge, whoever looks for elements of what type. -/
def mergeReport (τ : Type) (cmp : α → α → Ordering) (generator : Generator)
    (left right : Stored α) : Report α τ :=
  ((Operation.merge left right (comparisonProbe none cmp) :
    Operation α τ (Stored α) (Stored (Stored α))).perform generator).1

theorem mergeReport_outcome (τ : Type) (cmp : α → α → Ordering) (generator : Generator)
    (left right : Stored α) :
    (mergeReport τ cmp generator left right).outcome =
      .ok (.list (.ofList (merge cmp left.items right.items))) := by
  have hCmp : ∀ call, ∀ a ∈ left.items, ∀ b ∈ right.items,
      comparisonProbe none cmp call (a, b) = .ok (cmp a b) := fun _ _ _ _ _ => rfl
  simp only [mergeReport, Operation.perform_merge, Report.ofFinding, mergeM_outcome hCmp]

/-- Of two lists in order a merge reports the stable sort. Among elements that
compare equal those of the left list come first. -/
def SortsStably (cmp : α → α → Ordering) : Prop :=
  ∀ (τ : Type) (generator : Generator) (left right : Stored α),
    Ascending cmp left.items → Ascending cmp right.items →
      ∃ ys, (mergeReport τ cmp generator left right).outcome = .ok (.list (.ofList ys)) ∧
        StableSort cmp (left.items ++ right.items) ys ∧
        (∀ z, alike cmp z ys = alike cmp z left.items ++ alike cmp z right.items) ∧
        (∀ zs, StableSort cmp (left.items ++ right.items) zs → zs = ys) ∧
        ys = (left.items ++ right.items).mergeSort fun x y => (cmp x y).isLE

theorem sortsStably (cmp : α → α → Ordering) [Std.TransCmp cmp] : SortsStably cmp := by
  intro τ generator left right hLeft hRight
  have hSort := stableSort_merge hLeft hRight
  refine ⟨merge cmp left.items right.items, mergeReport_outcome .., hSort,
    alike_merge hLeft, ?_, ?_⟩
  · intro zs hZs
    exact hZs.unique hSort
  · exact hSort.unique (stableSort_mergeSort cmp _)

/-- The comparison that a type is ordered by is its natural one, and merging
with it needs no more than lists in order. -/
def SortsNaturally (α : Type) [Ord α] [Element α] : Prop :=
  (Element.comparisons : Registry (α → α → Ordering)).lookup "natural" = some compare ∧
    SortsStably (compare : α → α → Ordering)

/-- Merging is stable sorting, for every comparison that orders its elements
and for the orders of the element types. An order is oriented and transitive;
it may leave different elements alike. -/
theorem merge_sortsStably :
    (∀ (α : Type) (cmp : α → α → Ordering) [Std.TransCmp cmp], SortsStably cmp) ∧
      SortsNaturally Int64 ∧ SortsNaturally UInt64 ∧ SortsNaturally Bytes ∧
      SortsNaturally Binary64 ∧ Binary64.OrderLaws :=
  ⟨fun _ cmp _ => sortsStably cmp, ⟨rfl, sortsStably compare⟩, ⟨rfl, sortsStably compare⟩,
    ⟨rfl, sortsStably compare⟩, ⟨rfl, sortsStably compare⟩, Binary64.orderLaws⟩

/-- Both zeros and two payloads that are not numbers. -/
theorem merge_zeros_and_payloads :
    let left : List Binary64 := [⟨0x7ff8000000000001⟩, ⟨0x8000000000000000⟩, ⟨0x3ff0000000000000⟩]
    let right : List Binary64 := [⟨0xfff8000000000002⟩, ⟨0⟩]
    let merged : List Binary64 := [⟨0x7ff8000000000001⟩, ⟨0xfff8000000000002⟩,
      ⟨0x8000000000000000⟩, ⟨0⟩, ⟨0x3ff0000000000000⟩]
    Ascending compare left ∧ Ascending compare right ∧
      (mergeReport Unit compare (.ofWords []) (some left) (some right)).outcome =
        .ok (.list (some merged)) ∧
      StableSort compare (left ++ right) merged := by
  intro left right merged
  have hLeft : Ascending compare left := by unfold Ascending; decide
  have hRight : Ascending compare right := by unfold Ascending; decide
  have hMerged : (mergeReport Unit compare (.ofWords []) (some left) (some right)).outcome =
      .ok (.list (some merged)) := by cbv
  obtain ⟨ys, hOutcome, hSort, -⟩ :=
    merge_sortsStably.1 Binary64 compare Unit (.ofWords []) (some left) (some right) hLeft hRight
  rw [hMerged] at hOutcome
  have hItems := congrArg Stored.items (Result.list.inj (Except.ok.inj hOutcome))
  rw [Stored.items_ofList] at hItems
  change merged = ys at hItems
  exact ⟨hLeft, hRight, hMerged, hItems ▸ hSort⟩

end Sequences
