/-!
Lists as they are stored: a list may be absent. Operations read an absent
list as an empty one and report an empty result as absent; only a list that
is stored and handed back untouched keeps the difference.
-/

namespace Sequences

abbrev Stored (α : Type) := Option (List α)

namespace Stored

variable {α : Type}

def items (stored : Stored α) : List α := stored.getD []

/-- The list as an operation reports it. -/
def ofList : List α → Stored α
  | [] => none
  | x :: xs => some (x :: xs)

theorem ofList_of_length_pos {xs : List α} (hPos : 0 < xs.length) : ofList xs = some xs := by
  cases xs with
  | nil => cases hPos
  | cons x xs => rfl

theorem items_ofList (xs : List α) : (ofList xs).items = xs := by
  cases xs <;> rfl

theorem ofList_eq_none_iff {xs : List α} : ofList xs = none ↔ xs = [] := by
  cases xs <;> simp [ofList]

end Stored

end Sequences
