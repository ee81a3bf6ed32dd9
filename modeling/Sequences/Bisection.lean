/-!
Search by halving. The range of candidates is cut at its middle, rounded
down, until the middle compares equal or no candidate is left. On a list in
order this decides membership; on any other list it still ends, with an
answer that only depends on the comparisons it made.
-/

namespace Sequences

variable {α τ : Type} {m : Type → Type} [Monad m]

/-- Halves the range from `left` to `right`, the latter excluded. -/
def bisectRange {n : Nat} (cmp : Fin n → m Ordering) (left right : Nat)
    (hRight : right ≤ n) : m (Option (Fin n)) :=
  if hRange : left < right then do
    let mid : Fin n := ⟨left + (right - left) / 2, by omega⟩
    match ← cmp mid with
    | .eq => return some mid
    | .lt => bisectRange cmp (left + (right - left) / 2 + 1) right hRight
    | .gt => bisectRange cmp left (left + (right - left) / 2) (by omega)
  else
    pure none
termination_by right - left

/-- A place at which the comparison with the target came out equal. -/
def bisectM {n : Nat} (cmp : Fin n → m Ordering) : m (Option (Fin n)) :=
  bisectRange cmp 0 n (Nat.le_refl n)

/-- Compares elements, the first argument, with the target, the second. -/
def searchM (cmp : α → τ → m Ordering) (xs : List α) (target : τ) : m (Option Nat) := do
  let found ← bisectM fun i : Fin xs.length => cmp (xs.get i) target
  return found.map Fin.val

/-- The search under a comparison that always answers. -/
def search (cmp : α → τ → Ordering) (xs : List α) (target : τ) : Option Nat :=
  Id.run (searchM (fun x t => pure (cmp x t)) xs target)

/-- Places count from zero, and minus one stands for no place. -/
def indexOrMinusOne (found : Option Nat) : Int :=
  match found with
  | some i => i
  | none => -1

end Sequences
