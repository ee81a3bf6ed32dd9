import Mathlib.Data.List.Permutation
import Mathlib.Data.Set.Card
import Sequences.Arrangement

/-! The orders that exchanges can bring about. The first exchange decides what the last place
gets, and all others leave that place alone, so what remains is an arrangement of a shorter
list. Along this step nothing is lost, different choices give different orders of distinct
elements, and every order is met. -/
namespace Sequences

variable {α : Type} {place choice : Nat} {choices rest : List Nat} {xs ys : List α}

/-- The choices for the places from the given one down to the second, the first place being
place zero. The choice for a place is at or before it. -/
def choicesFrom (place : Nat) : Set (List Nat) :=
  {choices | choices.length = place ∧ ∀ k, ∀ choice ∈ choices[k]?, choice + k ≤ place}

theorem nil_mem_choicesFrom : [] ∈ choicesFrom 0 := by
  constructor
  · rfl
  · intro k choice hChoice
    cases hChoice

theorem cons_mem_choicesFrom_iff : choice :: rest ∈ choicesFrom (place + 1) ↔
    choice ≤ place + 1 ∧ rest ∈ choicesFrom place := by
  constructor
  · rintro ⟨hLength, hPlaces⟩
    refine ⟨hPlaces 0 choice rfl, Nat.succ.inj hLength, ?_⟩
    intro k other hOther
    have hPlace := hPlaces (k + 1) other hOther
    omega
  · rintro ⟨hChoice, hLength, hPlaces⟩
    refine ⟨congrArg (· + 1) hLength, ?_⟩
    intro k other hOther
    cases k with
    | zero =>
        cases hOther
        exact hChoice
    | succ k =>
        have hPlace := hPlaces k other hOther
        omega

theorem exists_cons_of_mem_choicesFrom (hChoices : choices ∈ choicesFrom (place + 1)) :
    ∃ choice rest, choices = choice :: rest ∧ choice ≤ place + 1 ∧ rest ∈ choicesFrom place := by
  cases choices with
  | nil => cases hChoices.1
  | cons choice rest => exact ⟨choice, rest, rfl, cons_mem_choicesFrom_iff.mp hChoices⟩

theorem swapIfInBounds_push {array : Array α} {i j : Nat} (hi : i < array.size)
    (hj : j < array.size) (x : α) :
    (array.push x).swapIfInBounds i j = (array.swapIfInBounds i j).push x := by
  apply Array.ext
  · simp
  · intro k hk _
    grind

/-- An element behind all places that are exchanged stays where it is. -/
theorem exchange_push {array : Array α} (hChoices : choices ∈ choicesFrom place)
    (hSize : place < array.size) (x : α) :
    exchange (array.push x) choices = (exchange array choices).push x := by
  induction place generalizing choices array with
  | zero =>
      rw [List.eq_nil_of_length_eq_zero hChoices.1]
      rfl
  | succ place ih =>
      obtain ⟨choice, rest, rfl, hChoice, hRest⟩ := exists_cons_of_mem_choicesFrom hChoices
      -- The place that is exchanged is known by the number of choices that are left.
      rw [exchange, exchange, swapIfInBounds_push (by rw [hRest.1]; omega) (by omega)]
      exact ih hRest (by rw [Array.size_swapIfInBounds]; omega)

/-- What stands before the last place once the chosen element has gone there. -/
def remaining (choice : Nat) (xs : List α) : List α :=
  (xs.toArray.swapIfInBounds (xs.length - 1) choice).toList.dropLast

theorem length_remaining (choice : Nat) (xs : List α) :
    (remaining choice xs).length = xs.length - 1 := by
  simp [remaining]

theorem length_remaining_of_succ (hPlace : xs.length - 1 = place + 1) (choice : Nat) :
    (remaining choice xs).length - 1 = place := by
  rw [length_remaining, hPlace, Nat.add_sub_cancel]

theorem remaining_append (hChoice : choice < xs.length) :
    remaining choice xs ++ [xs[choice]] =
      (xs.toArray.swapIfInBounds (xs.length - 1) choice).toList := by
  have hNonempty : (xs.toArray.swapIfInBounds (xs.length - 1) choice).toList ≠ [] := by
    apply List.ne_nil_of_length_pos
    rw [Array.length_toList, Array.size_swapIfInBounds, List.size_toArray]
    omega
  have hLast : (xs.toArray.swapIfInBounds (xs.length - 1) choice).toList.getLast hNonempty =
      xs[choice] := by
    rw [List.getLast_eq_getElem]
    simp [hChoice]
  rw [remaining, ← hLast, List.dropLast_append_getLast]

theorem remaining_append_perm (hChoice : choice < xs.length) :
    (remaining choice xs ++ [xs[choice]]).Perm xs := by
  have hInside : choice < xs.toArray.size := hChoice
  have hLast : xs.length - 1 < xs.toArray.size := by
    rw [List.size_toArray]
    omega
  rw [remaining_append hChoice, Array.swapIfInBounds_def, dif_pos hLast, dif_pos hInside]
  exact (Array.swap_perm hLast hInside).toList

/-- What the last place gets it keeps, and what remains is arranged by the other choices. -/
theorem arrange_cons (hPlace : xs.length - 1 = place + 1) (hChoice : choice < xs.length)
    (hRest : rest ∈ choicesFrom place) :
    arrange (choice :: rest) xs = arrange rest (remaining choice xs) ++ [xs[choice]] := by
  have hSwapped : xs.toArray.swapIfInBounds (place + 1) choice =
      (remaining choice xs).toArray.push xs[choice] := by
    apply Array.toList_inj.mp
    rw [← hPlace, ← remaining_append hChoice]
    simp
  have hSize : place < (remaining choice xs).toArray.size := by
    rw [List.size_toArray, length_remaining, hPlace]
    omega
  rw [arrange, exchange, hRest.1, hSwapped, exchange_push hRest hSize, Array.toList_push]
  rfl

theorem arrange_perm (hPlace : xs.length - 1 = place) (hChoices : choices ∈ choicesFrom place) :
    (arrange choices xs).Perm xs := by
  induction place generalizing choices xs with
  | zero =>
      rw [List.eq_nil_of_length_eq_zero hChoices.1]
      exact .refl _
  | succ place ih =>
      obtain ⟨choice, rest, rfl, hChoice, hRest⟩ := exists_cons_of_mem_choicesFrom hChoices
      have hInside : choice < xs.length := by omega
      rw [arrange_cons hPlace hInside hRest]
      have hFront : (arrange rest (remaining choice xs)).Perm (remaining choice xs) :=
        ih (length_remaining_of_succ hPlace choice) hRest
      exact (hFront.append_right _).trans (remaining_append_perm hInside)

/-- The last place tells the first choice, and what is before it tells the others. -/
theorem arrange_injOn (hPlace : xs.length - 1 = place) (hNodup : xs.Nodup) :
    Set.InjOn (fun choices => arrange choices xs) (choicesFrom place) := by
  induction place generalizing xs with
  | zero =>
      intro choices hChoices others hOthers _
      rw [List.eq_nil_of_length_eq_zero hChoices.1, List.eq_nil_of_length_eq_zero hOthers.1]
  | succ place ih =>
      intro choices hChoices others hOthers hEq
      obtain ⟨choice, rest, rfl, hChoice, hRest⟩ := exists_cons_of_mem_choicesFrom hChoices
      obtain ⟨other, more, rfl, hOther, hMore⟩ := exists_cons_of_mem_choicesFrom hOthers
      have hInside : choice < xs.length := by omega
      have hOtherInside : other < xs.length := by omega
      simp only [arrange_cons hPlace hInside hRest, arrange_cons hPlace hOtherInside hMore] at hEq
      obtain ⟨hFront, hLast⟩ := List.append_singleton_inj.mp hEq
      obtain rfl : choice = other := hNodup.getElem_inj_iff.mp hLast
      have hDistinct : (remaining choice xs ++ [xs[choice]]).Nodup :=
        (remaining_append_perm hInside).nodup_iff.mpr hNodup
      rw [ih (length_remaining_of_succ hPlace choice) hDistinct.of_append_left hRest hMore hFront]

/-- The first choice is a place of the element that is to come last. -/
theorem exists_arrange_eq (hPlace : xs.length - 1 = place) (hPerm : ys.Perm xs) :
    ∃ choices ∈ choicesFrom place, arrange choices xs = ys := by
  induction place generalizing xs ys with
  | zero =>
      refine ⟨[], nil_mem_choicesFrom, ?_⟩
      -- At most one element, which has no other order.
      rcases xs with _ | ⟨x, _ | ⟨_, _⟩⟩
      · exact hPerm.eq_nil.symm
      · exact (List.perm_singleton.mp hPerm).symm
      · cases hPlace
  | succ place ih =>
      rcases List.eq_nil_or_concat' ys with rfl | ⟨front, y, rfl⟩
      · rw [hPerm.symm.eq_nil] at hPlace
        cases hPlace
      · have hy : y ∈ xs := hPerm.subset (by simp)
        obtain ⟨choice, hInside, rfl⟩ := List.getElem_of_mem hy
        have hFront : front.Perm (remaining choice xs) :=
          (List.perm_append_right_iff _).mp (hPerm.trans (remaining_append_perm hInside).symm)
        obtain ⟨rest, hRest, rfl⟩ := ih (length_remaining_of_succ hPlace choice) hFront
        refine ⟨choice :: rest, ?_, arrange_cons hPlace hInside hRest⟩
        exact cons_mem_choicesFrom_iff.mpr ⟨by omega, hRest⟩

theorem arrange_bijOn (hNodup : xs.Nodup) :
    Set.BijOn (fun choices => arrange choices xs) (choicesFrom (xs.length - 1))
      {ys : List α | ys.Perm xs} :=
  ⟨fun _ => arrange_perm rfl, arrange_injOn rfl hNodup, fun _ => exists_arrange_eq rfl⟩

theorem ncard_orders (hNodup : xs.Nodup) :
    {ys : List α | ys.Perm xs}.ncard = xs.length.factorial := by
  classical
  have hAll : {ys : List α | ys.Perm xs} = ↑xs.permutations.toFinset := by
    ext ys
    simp [List.mem_permutations]
  rw [hAll, Set.ncard_coe_finset, List.toFinset_card_of_nodup (List.nodup_permutations xs hNodup),
    List.length_permutations]

end Sequences
