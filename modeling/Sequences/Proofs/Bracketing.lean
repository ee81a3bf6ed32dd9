import Sequences.Proofs.StableMerge

/-! Merging more than two lists, two at a time. Which of three lists gives the first
element depends on their first elements alone, so it does not matter which two of them
are merged first, and then the same is true of any number of lists. The comparison has
to be an order. The lists need not be in it. -/
namespace Sequences

variable {α : Type} {cmp : α → α → Ordering}

section First

variable {a b : α} {as bs : List α}

theorem merge_cons_of_isLE (hLE : ∀ b ∈ bs.head?, (cmp a b).isLE) :
    merge cmp (a :: as) bs = a :: merge cmp as bs := by
  cases bs with
  | nil => rw [merge_nil_right, merge_nil_right]
  | cons b bs => rw [merge_cons_cons, if_pos (hLE b rfl)]

theorem merge_cons_of_not_isLE (hGT : ∀ a ∈ as.head?, ¬(cmp a b).isLE) :
    merge cmp as (b :: bs) = b :: merge cmp as bs := by
  cases as with
  | nil => rw [merge_nil_left, merge_nil_left]
  | cons a as => rw [merge_cons_cons, if_neg (hGT a rfl)]

/-- A merge begins with the first element of one of its lists. -/
theorem forall_head?_merge {P : α → Prop} (hLeft : ∀ a ∈ as.head?, P a)
    (hRight : ∀ b ∈ bs.head?, P b) : ∀ z ∈ (merge cmp as bs).head?, P z := by
  cases as with
  | nil => rwa [merge_nil_left]
  | cons a as =>
      cases bs with
      | nil => rwa [merge_nil_right]
      | cons b bs =>
          rw [merge_cons_cons]
          split
          · exact hLeft
          · exact hRight

end First

/-- One of three elements comes first: the first one if it is above no other, else the
second one if it is not above the third, else the third one. -/
theorem first_of_three (cmp : α → α → Ordering) [Std.TransCmp cmp] (a b c : α) :
    ((cmp a b).isLE ∧ (cmp a c).isLE) ∨ (¬(cmp a b).isLE ∧ (cmp b c).isLE) ∨
      (¬(cmp a c).isLE ∧ ¬(cmp b c).isLE) := by
  by_cases hbc : (cmp b c).isLE
  · by_cases hab : (cmp a b).isLE
    · exact .inl ⟨hab, Std.TransCmp.isLE_trans hab hbc⟩
    · exact .inr (.inl ⟨hab, hbc⟩)
  · have hcb : (cmp c b).isLE := by simpa [hbc] using isLE_total cmp b c
    by_cases hac : (cmp a c).isLE
    · exact .inl ⟨Std.TransCmp.isLE_trans hac hcb, hac⟩
    · exact .inr (.inr ⟨hac, hbc⟩)

/-- The induction follows the element that comes first. It leaves the list that it
stands in, and the other two stay as they are. -/
theorem merge_assoc (cmp : α → α → Ordering) [Std.TransCmp cmp] (as bs cs : List α) :
    merge cmp (merge cmp as bs) cs = merge cmp as (merge cmp bs cs) := by
  induction as generalizing bs cs with
  | nil => rw [merge_nil_left, merge_nil_left]
  | cons a as ihLeft =>
      induction bs generalizing cs with
      | nil => rw [merge_nil_right, merge_nil_left]
      | cons b bs ihMiddle =>
          induction cs with
          | nil => rw [merge_nil_right, merge_nil_right]
          | cons c cs ihRight =>
              rcases first_of_three cmp a b c with ⟨hab, hac⟩ | ⟨hab, hbc⟩ | ⟨hac, hbc⟩
              · have hBelow : ∀ z ∈ (merge cmp (b :: bs) (c :: cs)).head?, (cmp a z).isLE := by
                  apply forall_head?_merge
                  · simpa using hab
                  · simpa using hac
                rw [merge_cons_of_isLE hBelow, ← ihLeft, merge_cons_cons, if_pos hab,
                  merge_cons_cons, if_pos hac]
              · rw [merge_cons_cons cmp a b, if_neg hab, merge_cons_cons cmp b c, if_pos hbc,
                  ihMiddle, merge_cons_cons cmp b c, if_pos hbc, merge_cons_cons, if_neg hab]
              · have hAbove : ∀ z ∈ (merge cmp (a :: as) (b :: bs)).head?, ¬(cmp z c).isLE := by
                  apply forall_head?_merge
                  · simpa using hac
                  · simpa using hbc
                rw [merge_cons_of_not_isLE hAbove, ihRight, merge_cons_cons cmp b c, if_neg hbc,
                  merge_cons_cons, if_neg hac]

theorem foldr_merge_append (cmp : α → α → Ordering) [Std.TransCmp cmp]
    (lefts rights : List (List α)) :
    (lefts ++ rights).foldr (merge cmp) [] =
      merge cmp (lefts.foldr (merge cmp) []) (rights.foldr (merge cmp) []) := by
  induction lefts with
  | nil => exact (merge_nil_left cmp _).symm
  | cons list lefts ih => rw [List.cons_append, List.foldr_cons, ih, ← merge_assoc, List.foldr_cons]

/-- A way to merge lists in a row, two at a time. -/
inductive Bracketing (α : Type) where
  | list (stored : Stored α)
  | pair (left right : Bracketing α)

namespace Bracketing

/-- The lists in their row, without the brackets. -/
def operands : Bracketing α → List (Stored α)
  | list stored => [stored]
  | pair left right => left.operands ++ right.operands

/-- The last result, if the result of each merge is an operand of the one around it. -/
def merged (cmp : α → α → Ordering) : Bracketing α → Stored α
  | list stored => stored
  | pair left right => .ofList (merge cmp (left.merged cmp).items (right.merged cmp).items)

theorem operands_ne_nil (bracketing : Bracketing α) : bracketing.operands ≠ [] := by
  induction bracketing with
  | list stored => exact List.cons_ne_nil _ _
  | pair left right ihLeft ihRight => exact List.append_ne_nil_of_left_ne_nil ihLeft _

/-- A row of one list has no brackets. -/
theorem operands_pair_ne (left right : Bracketing α) (stored : Stored α) :
    (pair left right).operands ≠ [stored] := by
  intro hOne
  have hLength := congrArg List.length hOne
  have hLeft := List.length_pos_iff.mpr left.operands_ne_nil
  have hRight := List.length_pos_iff.mpr right.operands_ne_nil
  rw [operands, List.length_append, List.length_singleton] at hLength
  omega

theorem items_merged (cmp : α → α → Ordering) [Std.TransCmp cmp] (bracketing : Bracketing α) :
    (bracketing.merged cmp).items =
      (bracketing.operands.map Stored.items).foldr (merge cmp) [] := by
  induction bracketing with
  | list stored => exact (merge_nil_right cmp _).symm
  | pair left right ihLeft ihRight =>
      rw [merged, Stored.items_ofList, ihLeft, ihRight, operands, List.map_append,
        foldr_merge_append]

/-- Without brackets the result is a list as it was given, which may be absent or empty.
With brackets it is what the last merge reports. -/
theorem merged_eq_of_operands_eq (cmp : α → α → Ordering) [Std.TransCmp cmp]
    {one other : Bracketing α} (hSame : one.operands = other.operands) :
    one.merged cmp = other.merged cmp := by
  have hItems : (one.merged cmp).items = (other.merged cmp).items := by
    rw [items_merged, items_merged, hSame]
  cases one with
  | list stored =>
      cases other with
      | list stored' => exact List.singleton_inj.mp hSame
      | pair left' right' => exact absurd hSame.symm (operands_pair_ne left' right' stored)
  | pair left right =>
      cases other with
      | list stored' => exact absurd hSame (operands_pair_ne left right stored')
      | pair left' right' =>
          rw [merged, merged, Stored.items_ofList, Stored.items_ofList] at hItems
          rw [merged, merged, hItems]

end Bracketing

/-- Merging is associative, also among elements that compare equal and for lists out of
order. So a row of lists has one merge, whatever the brackets. -/
theorem merge_bracketing (τ : Type) (cmp : α → α → Ordering) [Std.TransCmp cmp]
    (generator : Generator) :
    let join (as bs : Stored α) := (mergeReport τ cmp generator as bs).outcome
    (∀ a b c : Stored α, ∃ ab bc abc, join a b = .ok (.list ab) ∧ join ab c = .ok (.list abc) ∧
      join b c = .ok (.list bc) ∧ join a bc = .ok (.list abc)) ∧
    (∀ left right : Bracketing α,
      join (left.merged cmp) (right.merged cmp) = .ok (.list ((left.pair right).merged cmp))) ∧
    ∀ one other : Bracketing α, one.operands = other.operands →
      one.merged cmp = other.merged cmp := by
  intro join
  have hJoin (as bs : Stored α) :
      join as bs = .ok (.list (.ofList (merge cmp as.items bs.items))) := mergeReport_outcome ..
  constructor
  · intro a b c
    refine ⟨_, _, _, hJoin a b, hJoin _ c, hJoin b c, ?_⟩
    rw [hJoin, Stored.items_ofList, Stored.items_ofList, merge_assoc]
  constructor
  · intro left right
    exact hJoin _ _
  · intro one other hSame
    exact Bracketing.merged_eq_of_operands_eq cmp hSame

/-- Entries by their numbers. No list is in order, and entries with the same number stand
in all three of them. -/
theorem merge_bracketing_entries :
    let a : Stored Entry := some [⟨2, [97]⟩, ⟨1, [98]⟩, ⟨2, [99]⟩]
    let b : Stored Entry := some [⟨2, [100]⟩, ⟨3, [101]⟩, ⟨1, [102]⟩]
    let c : Stored Entry := some [⟨1, [103]⟩, ⟨2, [104]⟩, ⟨0, [105]⟩]
    let merged : Stored Entry := some [⟨1, [103]⟩, ⟨2, [97]⟩, ⟨1, [98]⟩, ⟨2, [99]⟩, ⟨2, [100]⟩,
      ⟨2, [104]⟩, ⟨0, [105]⟩, ⟨3, [101]⟩, ⟨1, [102]⟩]
    let lefts : Bracketing Entry := .pair (.pair (.list a) (.list b)) (.list c)
    let rights : Bracketing Entry := .pair (.list a) (.pair (.list b) (.list c))
    lefts.operands = rights.operands ∧
      lefts.merged (compareOn Entry.number) = merged ∧
      rights.merged (compareOn Entry.number) = merged := by
  intro a b c merged lefts rights
  have hSame : lefts.operands = rights.operands := rfl
  have hLefts : lefts.merged (compareOn Entry.number) = merged := by cbv
  obtain ⟨-, -, hMerged⟩ :=
    merge_bracketing (α := Entry) Unit (compareOn Entry.number) (.ofWords [])
  exact ⟨hSame, hLefts, (hMerged lefts rights hSame).symm.trans hLefts⟩

end Sequences
