/-!
The greatest element of a list. A later element replaces the best one so far
only if it compares strictly greater, so the first of several greatest
elements is the answer.
-/

namespace Sequences

variable {α : Type}

/-- Every element but the first is compared once, with the best before it. -/
def maximumM {m : Type → Type} [Monad m] (cmp : α → α → m Ordering) :
    List α → m (Option α)
  | [] => pure none
  | x :: xs => do
    let best ← xs.foldlM (fun best y => do
      return if (← cmp y best).isGT then y else best) x
    return some best

/-- The greatest element under a comparison that always answers. -/
def maximum (cmp : α → α → Ordering) (xs : List α) : Option α :=
  Id.run (maximumM (fun x y => pure (cmp x y)) xs)

@[simp]
theorem maximum_nil (cmp : α → α → Ordering) : maximum cmp [] = none := rfl

theorem maximum_cons (cmp : α → α → Ordering) (x : α) (xs : List α) :
    maximum cmp (x :: xs) =
      some (xs.foldl (fun best y => if (cmp y best).isGT then y else best) x) := by
  simp [maximum, maximumM]

end Sequences
