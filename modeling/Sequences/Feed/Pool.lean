import Sequences.Registry

/-!
What the single-use inputs still hold. All readers of one such input share
its position, so the remaining items are kept outside the readers, by name.
-/

namespace Sequences

variable {α : Type}

/-- The remaining items of every single-use input. -/
structure Pool (α : Type) where
  entries : Registry (List α)

namespace Pool

/-- An unknown name has nothing left. -/
def rest (pool : Pool α) (name : String) : List α :=
  (pool.entries.lookup name).getD []

/-- Replaces what the named input holds. -/
def set (pool : Pool α) (name : String) (items : List α) : Pool α :=
  ⟨Registry.set name items pool.entries⟩

/-- No input has more items left. -/
instance : LE (Pool α) where
  le p q := ∀ name, (p.rest name).length ≤ (q.rest name).length

theorem le_refl (p : Pool α) : p ≤ p := fun _ => Nat.le_refl _

theorem le_trans {p q r : Pool α} (hpq : p ≤ q) (hqr : q ≤ r) : p ≤ r :=
  fun name => Nat.le_trans (hpq name) (hqr name)

@[simp]
theorem rest_set (pool : Pool α) (name other : String) (items : List α) :
    (pool.set name items).rest other = if other = name then items else pool.rest other := by
  simp only [rest, set, Registry.lookup_set]
  split <;> rfl

/-- Giving away the first of the remaining items. -/
theorem set_tail_le {pool : Pool α} {name : String} {x : α} {xs : List α}
    (hRest : pool.rest name = x :: xs) : pool.set name xs ≤ pool := by
  intro other
  rw [rest_set]
  split
  next hName => subst hName; simp [hRest]
  next => exact Nat.le_refl _

end Pool

end Sequences
