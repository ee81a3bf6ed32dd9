import Sequences.Proofs.Refusal

/-! Which elements are kept when only the first element of every key is. An element
is kept just if no element before it has its key. The set of keys seen holds the
keys of kept elements only, so this needs that equality of keys is symmetric and
transitive. It need not be reflexive: a key that differs from itself differs from
all others, and its element is always kept. -/
namespace Sequences

variable {α κ : Type}

instance : PartialEquivBEq Binary64 where
  symm {x y} hxy := by
    simp only [BEq.beq, Bool.and_eq_true] at hxy ⊢
    simp_all
  trans {x y z} hxy hyz := by
    simp only [BEq.beq, Bool.and_eq_true] at hxy hyz ⊢
    simp_all

namespace Value

theorem equal_symm {x y : Value} (hxy : x.equal y) : y.equal x := by
  fun_induction equal x y with
  | case1 => rfl
  | case2 x y => exact BEq.symm hxy
  | case3 x y => exact BEq.symm hxy
  | case4 x y => exact BEq.symm hxy
  | case5 x y => exact BEq.symm hxy
  | case6 x y => exact BEq.symm hxy
  | case7 x₁ x₂ y₁ y₂ ihFirst ihSecond =>
      obtain ⟨hFirst, hSecond⟩ := Bool.and_eq_true_iff.mp hxy
      exact Bool.and_eq_true_iff.mpr ⟨ihFirst hFirst, ihSecond hSecond⟩
  | case8 => cases hxy

/-- Values that are equal are of one kind, and among values of one kind equality is
that of their contents. -/
theorem equal_trans {x y z : Value} (hxy : x.equal y) (hyz : y.equal z) : x.equal z := by
  fun_induction equal x y generalizing z with
  | case1 => exact hyz
  | case2 x y =>
      cases z with
      | int z => exact BEq.trans hxy hyz
      | _ => cases hyz
  | case3 x y =>
      cases z with
      | uint z => exact BEq.trans hxy hyz
      | _ => cases hyz
  | case4 x y =>
      cases z with
      | float z => exact BEq.trans hxy hyz
      | _ => cases hyz
  | case5 x y =>
      cases z with
      | text z => exact BEq.trans hxy hyz
      | _ => cases hyz
  | case6 x y =>
      cases z with
      | bool z => exact BEq.trans hxy hyz
      | _ => cases hyz
  | case7 x₁ x₂ y₁ y₂ ihFirst ihSecond =>
      cases z with
      | pair z₁ z₂ =>
          obtain ⟨hFirst, hSecond⟩ := Bool.and_eq_true_iff.mp hxy
          obtain ⟨hFirst', hSecond'⟩ := Bool.and_eq_true_iff.mp hyz
          exact Bool.and_eq_true_iff.mpr ⟨ihFirst hFirst hFirst', ihSecond hSecond hSecond'⟩
      | _ => cases hyz
  | case8 => cases hxy

instance : PartialEquivBEq Value where
  symm := equal_symm
  trans := equal_trans

end Value

/-- A key that is found already makes no other key be found. -/
theorem contains_cons_of_contains [BEq κ] [PartialEquivBEq κ] {seen : List κ} {k : κ}
    (hSeen : seen.contains k) (l : κ) : (k :: seen).contains l = seen.contains l := by
  rw [List.contains_cons]
  cases hSame : l == k with
  | false => rfl
  | true =>
      obtain ⟨old, hOld, hEq⟩ := List.contains_iff_exists_mem_beq.mp hSeen
      exact (List.contains_iff_exists_mem_beq.mpr ⟨old, hOld, BEq.trans hSame hEq⟩).symm

/-- No element before this place has the key of the element at it. -/
def IsFirst [BEq κ] (key : α → κ) (xs : List α) (i : Fin xs.length) : Prop :=
  ∀ j < i, (key (xs.get j) == key (xs.get i)) = false

section IsFirst

variable [BEq κ] (key : α → κ) (x : α) (xs : List α)

theorem isFirst_zero : IsFirst key (x :: xs) (0 : Fin (xs.length + 1)) := by
  intro j hj
  exact absurd hj (Nat.not_lt_zero j)

theorem isFirst_succ_iff (i : Fin xs.length) :
    IsFirst key (x :: xs) i.succ ↔ (key x == key (xs.get i)) = false ∧ IsFirst key xs i := by
  unfold IsFirst
  constructor
  · intro hFirst
    refine ⟨hFirst (0 : Fin (xs.length + 1)) i.succ_pos, ?_⟩
    intro j hj
    exact hFirst j.succ (Fin.succ_lt_succ_iff.mpr hj)
  · rintro ⟨hHead, hTail⟩ j hj
    cases j using Fin.cases with
    | zero => exact hHead
    | succ j => exact hTail j (Fin.succ_lt_succ_iff.mp hj)

end IsFirst

section Kept

variable [BEq κ] (key : α → κ)

/-- The places of the elements that are kept, if these keys were seen before. -/
def keptPlaces (seen : List κ) : (xs : List α) → List (Fin xs.length)
  | [] => []
  | x :: xs =>
    if seen.contains (key x) then (keptPlaces seen xs).map Fin.succ
    else (0 : Fin (xs.length + 1)) :: (keptPlaces (key x :: seen) xs).map Fin.succ

theorem map_get_keptPlaces (seen : List κ) (xs : List α) :
    (keptPlaces key seen xs).map xs.get = distinctFrom key seen xs := by
  induction xs generalizing seen with
  | nil => rfl
  | cons x xs ih =>
      rw [distinctFrom_cons, keptPlaces]
      split
      · rw [← ih, List.map_map]
        rfl
      · rw [← ih, List.map_cons, List.map_map]
        rfl

theorem pairwise_keptPlaces (seen : List κ) (xs : List α) :
    (keptPlaces key seen xs).Pairwise (· < ·) := by
  induction xs generalizing seen with
  | nil => exact .nil
  | cons x xs ih =>
      have hShift (places : List (Fin xs.length)) (hPlaces : places.Pairwise (· < ·)) :
          (places.map Fin.succ).Pairwise (· < ·) :=
        hPlaces.map Fin.succ fun _ _ => Fin.succ_lt_succ_iff.mpr
      rw [keptPlaces]
      split
      · exact hShift _ (ih seen)
      · refine .cons ?_ (hShift _ (ih (key x :: seen)))
        intro i hi
        obtain ⟨j, -, rfl⟩ := List.mem_map.mp hi
        exact j.succ_pos

variable [PartialEquivBEq κ]

/-- By induction on the list, for all keys seen before. If the key of the first
element was seen, then so was every key that equals it. -/
theorem mem_keptPlaces_iff (seen : List κ) (xs : List α) (i : Fin xs.length) :
    i ∈ keptPlaces key seen xs ↔ seen.contains (key (xs.get i)) = false ∧ IsFirst key xs i := by
  induction xs generalizing seen with
  | nil => exact i.elim0
  | cons x xs ih =>
      cases i using Fin.cases with
      | zero =>
          have hFirst := isFirst_zero key x xs
          rw [keptPlaces]
          split
          next hSeen => simp [hSeen]
          next hNew => simp [hNew, hFirst]
      | succ j =>
          have hComm : (key (xs.get j) == key x) = (key x == key (xs.get j)) := BEq.comm
          have hShift (places : List (Fin xs.length)) : j.succ ∈ places.map Fin.succ ↔ j ∈ places :=
            List.mem_map_of_injective (Fin.succ_injective _)
          rw [isFirst_succ_iff, keptPlaces]
          split
          next hSeen =>
            have hSame := contains_cons_of_contains hSeen (key (xs.get j))
            rw [List.contains_cons, hComm] at hSame
            rw [hShift, ih, ← hSame, Bool.or_eq_false_iff]
            tauto
          next hNew =>
            rw [List.mem_cons, or_iff_right (Fin.succ_ne_zero j), hShift, ih, List.contains_cons,
              hComm, Bool.or_eq_false_iff]
            tauto

/-- The first place with a key comes before all others with it. -/
theorem exists_isFirst_of_not {key : α → κ} {xs : List α} {i : Fin xs.length}
    (hNot : ¬IsFirst key xs i) :
    ∃ j < i, IsFirst key xs j ∧ key (xs.get j) == key (xs.get i) := by
  induction i using WellFoundedLT.induction with
  | ind i ih =>
      simp only [IsFirst, not_forall, Bool.not_eq_false] at hNot
      obtain ⟨j, hj, hSame⟩ := hNot
      by_cases hFirst : IsFirst key xs j
      · exact ⟨j, hj, hFirst, hSame⟩
      · obtain ⟨k, hk, hEarliest, hSame'⟩ := ih j hj hFirst
        exact ⟨k, hk.trans hj, hEarliest, BEq.trans hSame' hSame⟩

theorem isFirst_of_beq_self_eq_false {key : α → κ} {xs : List α} {i : Fin xs.length}
    (hSelf : (key (xs.get i) == key (xs.get i)) = false) : IsFirst key xs i := by
  intro j _
  by_contra hNot
  have hSame : key (xs.get j) == key (xs.get i) := by simpa using hNot
  have hEq : key (xs.get i) == key (xs.get i) := BEq.trans (BEq.symm hSame) hSame
  rw [hSelf] at hEq
  cases hEq

end Kept

/-- Exactly the places, in order, of elements whose key no earlier element has. What
follows from this is part of it: keys that differ from themselves stay, no key stays
twice, and what goes is stood for by something earlier. -/
structure FirstPlaces [BEq κ] (key : α → κ) (xs : List α) (places : List (Fin xs.length)) :
    Prop where
  ascending : places.Pairwise (· < ·)
  mem_iff : ∀ i, i ∈ places ↔ ∀ j < i, (key (xs.get j) == key (xs.get i)) = false
  unequal : ∀ i, (key (xs.get i) == key (xs.get i)) = false → i ∈ places
  apart : ∀ i ∈ places, ∀ j ∈ places, i ≠ j → (key (xs.get i) == key (xs.get j)) = false
  represented : ∀ i, i ∉ places → ∃ j ∈ places, j < i ∧ key (xs.get j) == key (xs.get i)

theorem firstPlaces_keptPlaces [BEq κ] [PartialEquivBEq κ] (key : α → κ) (xs : List α) :
    FirstPlaces key xs (keptPlaces key [] xs) := by
  have hMem (i : Fin xs.length) : i ∈ keptPlaces key [] xs ↔ IsFirst key xs i := by
    simp [mem_keptPlaces_iff]
  constructor
  case ascending => exact pairwise_keptPlaces key [] xs
  case mem_iff => exact hMem
  case unequal =>
    intro i hSelf
    exact (hMem i).mpr (isFirst_of_beq_self_eq_false hSelf)
  case apart =>
    intro i hi j hj hNe
    rcases lt_or_gt_of_ne hNe with hLt | hGt
    · exact (hMem j).mp hj i hLt
    · rw [BEq.comm]
      exact (hMem i).mp hi j hGt
  case represented =>
    intro i hi
    obtain ⟨j, hj, hFirst, hSame⟩ := exists_isFirst_of_not ((hMem i).not.mp hi)
    exact ⟨j, (hMem j).mpr hFirst, hj, hSame⟩

theorem distinctM_finding_keptPlaces [BEq κ] {key : Probe α κ} {f : α → κ} {xs : List α}
    (hKey : ∀ call, ∀ x ∈ xs, key call x = .ok (f x)) :
    (distinctM (Inquiry.ask key) [] xs).finding =
      ⟨.ok ((keptPlaces f [] xs).map xs.get), xs⟩ := by
  rw [Inquiry.finding, distinctM_run hKey, map_get_keptPlaces]
  simp

theorem ofList_keptPlaces_eq_none_iff [BEq κ] (key : α → κ) (xs : List α) :
    Stored.ofList ((keptPlaces key [] xs).map xs.get) = none ↔ xs = [] := by
  rw [Stored.ofList_eq_none_iff, List.map_eq_nil_iff]
  cases xs <;> simp [keptPlaces]

/-- Keeping the first element of every key keeps the first places, and it asks for
every key once, in order. The keys may be of any type whose equality is symmetric and
transitive. Values are such a type, and an operation on them fails only at keys that
cannot be looked up. -/
theorem distinct_keepsFirsts :
    (∀ (α κ : Type) [BEq κ] [PartialEquivBEq κ] (key : α → κ) (xs : List α),
      ∃ places, FirstPlaces key xs places ∧
        (distinctM (Inquiry.ask (.ofFun key)) [] xs).finding = ⟨.ok (places.map xs.get), xs⟩ ∧
        (Stored.ofList (places.map xs.get) = none ↔ xs = [])) ∧
    ∀ (α τ : Type) (key : α → Value) (generator : Generator) (list : Stored α),
      (∀ x ∈ list.items, (key x).unhashable? = none) →
      ∃ places result, FirstPlaces key list.items places ∧
        distinctReport τ (keyProbe none key) generator list =
          ⟨.ok (.list result), list.items.map .key⟩ ∧
        result = .ofList (places.map list.items.get) ∧ (result = none ↔ list.items = []) := by
  constructor
  · intro α κ _ _ key xs
    exact ⟨keptPlaces key [] xs, firstPlaces_keptPlaces key xs,
      distinctM_finding_keptPlaces fun _ _ _ => rfl, ofList_keptPlaces_eq_none_iff key xs⟩
  · intro α τ key generator list hHashable
    have hKey (call : Nat) (x : α) (hx : x ∈ list.items) :
        keyProbe none key call x = .ok (key x) := by
      change (key x).hashed = _
      rw [Value.hashed, hHashable x hx]
    refine ⟨keptPlaces key [] list.items, _, firstPlaces_keptPlaces key list.items, ?_, rfl,
      ofList_keptPlaces_eq_none_iff key list.items⟩
    simp only [distinctReport, Operation.perform_distinct, Report.ofFinding,
      distinctM_finding_keptPlaces hKey]

/-- Values that differ from themselves, alone and in pairs, and both zeros. -/
theorem distinct_unequalValues :
    let nan : Value := .float ⟨0x7ff8000000000001⟩
    let values : List Value := [nan, nan, .float ⟨0⟩, .float ⟨0x8000000000000000⟩,
      .pair nan (.int 1), .pair nan (.int 1), .int 1, .int 1]
    let kept : List Value := [nan, nan, .float ⟨0⟩, .pair nan (.int 1), .pair nan (.int 1), .int 1]
    (∀ x ∈ values, x.unhashable? = none) ∧
      distinctReport Unit (keyProbe none id) (.ofWords []) (some values) =
        ⟨.ok (.list (some kept)), values.map .key⟩ ∧
      ∃ places, FirstPlaces id values places ∧ places.map values.get = kept := by
  intro nan values kept
  have hHashable : ∀ x ∈ values, x.unhashable? = none := by decide
  have hReport : distinctReport Unit (keyProbe none id) (.ofWords []) (some values) =
    ⟨.ok (.list (some kept)), values.map .key⟩ := by cbv
  obtain ⟨places, result, hPlaces, hSame, hResult, -⟩ :=
    distinct_keepsFirsts.2 Value Unit id (.ofWords []) (some values) hHashable
  have hOutcome := congrArg Report.outcome (hReport.symm.trans hSame)
  have hItems := congrArg Stored.items (Result.list.inj (Except.ok.inj hOutcome))
  rw [hResult, Stored.items_ofList] at hItems
  exact ⟨hHashable, hReport, places, hPlaces, hItems.symm⟩

end Sequences
