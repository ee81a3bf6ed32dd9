import Sequences.Random.Below
import Sequences.Stored

/-!
Putting a list into a random order by exchanging elements. From the last
place down to the second, the element there is exchanged with the one at a
place chosen at or before it. The choices are drawn first and do not depend
on the elements.
-/

namespace Sequences

variable {α : Type}

/-- Carries out the exchanges. The choices are for the last place first; the
one before `k` others is for place `k + 1`. -/
def exchange (xs : Array α) : List Nat → Array α
  | [] => xs
  | choice :: choices => exchange (xs.swapIfInBounds (choices.length + 1) choice) choices

/-- The list in the order that the choices describe. -/
def arrange (choices : List Nat) (xs : List α) : List α :=
  (exchange xs.toArray choices).toList

/-- Choices for the places from the given one down to the second, the first
place being place zero. -/
def drawChoices : Nat → Draw (List Nat)
  | 0 => return []
  | place + 1 => do
    let choice ← Draw.below (place + 2)
    return choice :: (← drawChoices place)

/-- A list of at most one element needs no choices. -/
def shuffle (xs : List α) : Draw (List α) := do
  let choices ← drawChoices (xs.length - 1)
  return arrange choices xs

/-- Nothing is drawn for a list without elements. -/
def shuffleStored (list : Stored α) : Draw (Stored α) :=
  if list.items.length = 0 then return none
  else return some (← shuffle list.items)

theorem size_exchange (xs : Array α) (choices : List Nat) :
    (exchange xs choices).size = xs.size := by
  induction choices generalizing xs with
  | nil => rfl
  | cons choice choices ih => rw [exchange, ih, Array.size_swapIfInBounds]

/-- Exchanges leave no list without elements, so nothing else is ever absent. -/
theorem shuffleStored_eq (list : Stored α) :
    shuffleStored list = Stored.ofList <$> shuffle list.items := by
  unfold shuffleStored
  cases hItems : list.items with
  | nil => rfl
  | cons x xs =>
      have hSome (choices : List Nat) :
          Stored.ofList (arrange choices (x :: xs)) = some (arrange choices (x :: xs)) := by
        apply Stored.ofList_of_length_pos
        rw [arrange, Array.length_toList, size_exchange]
        exact Nat.succ_pos _
      simp [shuffle, hSome]

end Sequences
