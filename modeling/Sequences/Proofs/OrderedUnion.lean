import Sequences.Proofs.Refusal
import Sequences.Proofs.StableMerge

/-! Merging two lists in order and keeping the first element of every key. If the
key tells apart exactly what the comparison does, the result is the ordered union
of the two lists: of every class of elements that compare equal it has the first
one of the left list, or else the first one of the right list. -/
namespace Sequences

variable {α κ : Type} {cmp : α → α → Ordering}

/-- The keys of two elements are equal just if the elements compare equal. -/
def Discerns [BEq κ] (cmp : α → α → Ordering) (key : α → κ) : Prop :=
  ∀ x y, key x == key y ↔ cmp x y = .eq

/-- In order, and of every class the first element of the left list or, if there is
none, of the right one. No other class occurs. -/
structure OrderedUnion (cmp : α → α → Ordering) (as bs ys : List α) : Prop where
  strict : ys.Pairwise fun x y => cmp x y = .lt
  chosen : ∀ z, alike cmp z ys =
    ((as.find? fun x => cmp x z == .eq).or (bs.find? fun x => cmp x z == .eq)).toList

section Distinct

variable [BEq κ] {key : α → κ}

theorem distinctFrom_sublist (key : α → κ) (seen : List κ) (xs : List α) :
    (distinctFrom key seen xs).Sublist xs := by
  induction xs generalizing seen with
  | nil => exact .slnil
  | cons x xs ih =>
      rw [distinctFrom_cons]
      split
      · exact (ih seen).cons x
      · exact (ih (key x :: seen)).cons_cons x

theorem Ascending.distinct {xs : List α} (hOrder : Ascending cmp xs) (key : α → κ) :
    Ascending cmp (distinct key xs) :=
  hOrder.sublist (distinctFrom_sublist key [] xs)

variable [Std.TransCmp cmp]

theorem contains_map_key_iff (hKey : Discerns cmp key) (kept : List α) (x : α) :
    (kept.map key).contains (key x) = true ↔ ∃ y ∈ kept, cmp y x = .eq := by
  rw [List.contains_iff_exists_mem_beq]
  constructor
  · rintro ⟨k, hk, hSame⟩
    obtain ⟨y, hy, rfl⟩ := List.mem_map.mp hk
    exact ⟨y, hy, Std.OrientedCmp.eq_comm.mp ((hKey x y).mp hSame)⟩
  · rintro ⟨y, hy, hEq⟩
    exact ⟨key y, List.mem_map_of_mem hy, (hKey x y).mpr (Std.OrientedCmp.eq_comm.mp hEq)⟩

/-- By induction on the list. What was kept before says whether a class is still to
come, so its first element is kept if nothing of it was kept before. -/
theorem alike_distinctFrom (hKey : Discerns cmp key) (z : α) (kept xs : List α) :
    alike cmp z (distinctFrom key (kept.map key) xs) =
      (alike cmp z xs).take (1 - (alike cmp z kept).length) := by
  induction xs generalizing kept with
  | nil => simp [alike]
  | cons x xs ih =>
      have hSeen := contains_map_key_iff hKey kept x
      rw [distinctFrom_cons]
      by_cases hx : cmp x z = .eq
      · have hClass : (kept.map key).contains (key x) = true ↔ alike cmp z kept ≠ [] := by
          rw [hSeen, ne_eq, List.eq_nil_iff_forall_not_mem, not_forall_not]
          simp only [mem_alike, Std.TransCmp.congr_right hx]
        rw [alike_cons_of_eq hx]
        split
        next hOld =>
          have hNone : 1 - (alike cmp z kept).length = 0 := by
            have hPos := List.length_pos_iff.mpr (hClass.mp hOld)
            omega
          rw [ih kept, hNone, List.take_zero, List.take_zero]
        next hNew =>
          have hFirst : alike cmp z kept = [] := not_not.mp (mt hClass.mpr hNew)
          rw [alike_cons_of_eq hx, ← List.map_cons, ih (x :: kept), alike_cons_of_eq hx, hFirst]
          rfl
      · rw [alike_cons_of_ne hx]
        split
        · exact ih kept
        · rw [alike_cons_of_ne hx, ← List.map_cons, ih (x :: kept), alike_cons_of_ne hx]

theorem alike_distinct (hKey : Discerns cmp key) (z : α) (xs : List α) :
    alike cmp z (distinct key xs) = (alike cmp z xs).take 1 :=
  alike_distinctFrom hKey z [] xs

/-- In order, and no class has two elements. -/
theorem Ascending.strict {xs : List α} (hOrder : Ascending cmp xs)
    (hOne : ∀ z, (alike cmp z xs).length ≤ 1) : xs.Pairwise fun x y => cmp x y = .lt := by
  induction xs with
  | nil => exact .nil
  | cons x xs ih =>
      obtain ⟨hHead, hTail⟩ := List.pairwise_cons.mp hOrder
      refine List.pairwise_cons.mpr ⟨fun y hy => ?_, ih hTail fun z => ?_⟩
      · have hNe : cmp x y ≠ .eq := by
          intro hEq
          have hMem : y ∈ alike cmp x xs := mem_alike.mpr ⟨hy, Std.OrientedCmp.eq_comm.mp hEq⟩
          have hTwo := hOne x
          rw [alike_cons_of_eq Std.ReflCmp.compare_self, List.length_cons] at hTwo
          have hPos := List.length_pos_of_mem hMem
          omega
        have hLE := hHead y hy
        revert hNe hLE
        cases cmp x y <;> simp
      · exact (((List.sublist_cons_self x xs).filter _).length_le).trans (hOne z)

/-- Class by class: what is kept of a merge is the first of the left class, or else
of the right one, whether or not both lists were thinned out before. -/
theorem orderedUnion_distinct_merge (hKey : Discerns cmp key) {as bs : List α}
    (hAs : Ascending cmp as) (hBs : Ascending cmp bs) :
    OrderedUnion cmp as bs (distinct key (merge cmp as bs)) := by
  have hAlike (z : α) : alike cmp z (distinct key (merge cmp as bs)) =
      (alike cmp z as ++ alike cmp z bs).take 1 := by
    rw [alike_distinct hKey, alike_merge hAs]
  have hOrder := (stableSort_merge hAs hBs).ascending.distinct key
  refine ⟨hOrder.strict fun z => ?_, fun z => ?_⟩
  · rw [hAlike, List.length_take]
    exact Nat.min_le_left ..
  · rw [hAlike, List.take_one, List.head?_append, alike, alike, List.head?_filter,
      List.head?_filter]

theorem distinct_merge_distinct (hKey : Discerns cmp key) {as bs : List α}
    (hAs : Ascending cmp as) (hBs : Ascending cmp bs) :
    distinct key (merge cmp (distinct key as) (distinct key bs)) =
      distinct key (merge cmp as bs) := by
  have hThin := (stableSort_merge (hAs.distinct key) (hBs.distinct key)).ascending
  have hFull := (stableSort_merge hAs hBs).ascending
  refine (hThin.distinct key).eq_of_alike_eq (hFull.distinct key) fun z => ?_
  rw [alike_distinct hKey, alike_distinct hKey, alike_merge (hAs.distinct key), alike_merge hAs,
    alike_distinct hKey, alike_distinct hKey]
  cases alike cmp z as <;> simp

end Distinct

/-- A value that equals itself has no part without equality. -/
theorem Value.unhashable?_of_beq_self : {value : Value} → (value == value) = true →
    value.unhashable? = none
  | .pair first second, hSelf => by
      obtain ⟨hFirst, hSecond⟩ : (first == first) = true ∧ (second == second) = true := by
        simpa [BEq.beq, equal] using hSelf
      rw [unhashable?, unhashable?_of_beq_self hFirst, unhashable?_of_beq_self hSecond]
      rfl
  | .null, _ | .int _, _ | .uint _, _ | .float _, _ | .text _, _ | .bool _, _ => rfl

theorem distinctReport_outcome [Std.TransCmp cmp] {key : α → Value} (hKey : Discerns cmp key)
    (τ : Type) (generator : Generator) (list : Stored α) :
    (distinctReport τ (keyProbe none key) generator list).outcome =
      .ok (.list (.ofList (distinct key list.items))) := by
  refine distinctReport_outcome_of_hashable τ generator fun x _ => ?_
  have hSelf : (key x == key x) = true := (hKey x x).mpr Std.ReflCmp.compare_self
  exact Value.unhashable?_of_beq_self hSelf

/-- A merge of two lists in order, thinned out by a key that discerns what the
comparison does, is their ordered union. It makes no difference if both lists are
thinned out before. -/
theorem merge_distinct_orderedUnion (cmp : α → α → Ordering) [Std.TransCmp cmp]
    (left right : Stored α) (hLeft : Ascending cmp left.items)
    (hRight : Ascending cmp right.items) :
    (∀ (κ : Type) [BEq κ] (key : α → κ), Discerns cmp key →
      OrderedUnion cmp left.items right.items
          (distinct key (merge cmp left.items right.items)) ∧
        distinct key (merge cmp (distinct key left.items) (distinct key right.items)) =
          distinct key (merge cmp left.items right.items)) ∧
    ∀ (key : α → Value), Discerns cmp key → ∀ (τ : Type) (generator : Generator),
      let thin (list : Stored α) := (distinctReport τ (keyProbe none key) generator list).outcome
      let join (as bs : Stored α) := (mergeReport τ cmp generator as bs).outcome
      ∃ ys merged, join left right = .ok (.list merged) ∧ thin merged = .ok (.list (.ofList ys)) ∧
        OrderedUnion cmp left.items right.items ys ∧
        ∃ as bs remerged, thin left = .ok (.list as) ∧ thin right = .ok (.list bs) ∧
          join as bs = .ok (.list remerged) ∧ thin remerged = .ok (.list (.ofList ys)) := by
  refine ⟨fun κ _ key hKey => ?_, fun key hKey τ generator => ?_⟩
  · exact ⟨orderedUnion_distinct_merge hKey hLeft hRight, distinct_merge_distinct hKey hLeft hRight⟩
  · intro thin join
    have hThin (list : Stored α) : thin list = .ok (.list (.ofList (distinct key list.items))) :=
      distinctReport_outcome hKey τ generator list
    have hJoin (as bs : Stored α) :
      join as bs = .ok (.list (.ofList (merge cmp as.items bs.items))) := mergeReport_outcome ..
    refine ⟨_, _, hJoin left right, ?_, orderedUnion_distinct_merge hKey hLeft hRight,
      _, _, _, hThin left, hThin right, hJoin _ _, ?_⟩
    · rw [hThin, Stored.items_ofList]
    · rw [hThin, Stored.items_ofList, Stored.items_ofList, Stored.items_ofList,
        distinct_merge_distinct hKey hLeft hRight]

/-- Entries by their numbers, where the labels tell which of them was chosen. -/
theorem merge_distinct_labelled :
    let left : List Entry := [⟨1, [97]⟩, ⟨1, [98]⟩, ⟨3, [99]⟩]
    let right : List Entry := [⟨1, [100]⟩, ⟨2, [101]⟩, ⟨2, [102]⟩]
    let union : List Entry := [⟨1, [97]⟩, ⟨2, [101]⟩, ⟨3, [99]⟩]
    let key (entry : Entry) : Value := .int entry.number
    let merged : List Entry :=
      [⟨1, [97]⟩, ⟨1, [98]⟩, ⟨1, [100]⟩, ⟨2, [101]⟩, ⟨2, [102]⟩, ⟨3, [99]⟩]
    Ascending (compareOn Entry.number) left ∧ Ascending (compareOn Entry.number) right ∧
      Discerns (compareOn Entry.number) key ∧
      (mergeReport Unit (compareOn Entry.number) (.ofWords []) (some left) (some right)).outcome =
        .ok (.list (some merged)) ∧
      (distinctReport Unit (keyProbe none key) (.ofWords []) (some merged)).outcome =
        .ok (.list (some union)) ∧
      OrderedUnion (compareOn Entry.number) left right union := by
  intro left right union key merged
  have hLeft : Ascending (compareOn Entry.number) left := by unfold Ascending; decide
  have hRight : Ascending (compareOn Entry.number) right := by unfold Ascending; decide
  have hKey : Discerns (compareOn Entry.number) key := by
    intro x y
    change (x.number == y.number) = true ↔ compare x.number y.number = .eq
    rw [beq_iff_eq, Std.LawfulEqCmp.compare_eq_iff_eq]
  have hMerged : (mergeReport Unit (compareOn Entry.number) (.ofWords []) (some left)
    (some right)).outcome = .ok (.list (some merged)) := by cbv
  have hUnion : (distinctReport Unit (keyProbe none key) (.ofWords []) (some merged)).outcome =
    .ok (.list (some union)) := by cbv
  obtain ⟨ys, _, hJoin, hThin, hYs, -⟩ := (merge_distinct_orderedUnion (compareOn Entry.number)
    (some left) (some right) hLeft hRight).2 key hKey Unit (.ofWords [])
  cases hMerged.symm.trans hJoin
  have hItems := congrArg Stored.items (Result.list.inj (Except.ok.inj (hUnion.symm.trans hThin)))
  rw [Stored.items_ofList] at hItems
  change union = ys at hItems
  exact ⟨hLeft, hRight, hKey, hMerged, hUnion, hItems ▸ hYs⟩

end Sequences
