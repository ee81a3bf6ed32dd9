import Sequences.Stored

/-!
Keeping the first element of every key. Keys are compared with `==`, which
need not be reflexive: an element whose key differs from itself is always
kept.
-/

namespace Sequences

variable {α κ : Type} [BEq κ]

/-- The elements whose key is neither among `seen` nor the key of an earlier
element. The key of every element is asked for once, in order. -/
def distinctM {m : Type → Type} [Monad m] (key : α → m κ) (seen : List κ) :
    List α → m (List α)
  | [] => pure []
  | x :: xs => do
    let k ← key x
    if seen.contains k then
      distinctM key seen xs
    else
      return x :: (← distinctM key (k :: seen) xs)

/-- A list without elements is given back as absent, and no key is asked
for. -/
def distinctStoredM {m : Type → Type} [Monad m] (key : α → m κ) (list : Stored α) :
    m (Stored α) :=
  if list.items.length = 0 then return none
  else return some (← distinctM key [] list.items)

/-- The first element is always kept, so nothing else is ever absent. -/
theorem distinctStoredM_eq {m : Type → Type} [Monad m] [LawfulMonad m] (key : α → m κ)
    (list : Stored α) :
    distinctStoredM key list = Stored.ofList <$> distinctM key [] list.items := by
  unfold distinctStoredM
  cases list.items with
  | nil => simp [distinctM, Stored.ofList]
  | cons x xs => simp [distinctM, Stored.ofList]

/-- First occurrences of keys that are not among `seen`, under a key that
always answers. -/
def distinctFrom (key : α → κ) (seen : List κ) (xs : List α) : List α :=
  Id.run (distinctM (fun x => pure (key x)) seen xs)

/-- First occurrences under a key that always answers. -/
def distinct (key : α → κ) (xs : List α) : List α := distinctFrom key [] xs

@[simp]
theorem distinctFrom_nil (key : α → κ) (seen : List κ) : distinctFrom key seen [] = [] := rfl

theorem distinctFrom_cons (key : α → κ) (seen : List κ) (x : α) (xs : List α) :
    distinctFrom key seen (x :: xs) =
      if seen.contains (key x) then distinctFrom key seen xs
      else x :: distinctFrom key (key x :: seen) xs := by
  simp only [distinctFrom, distinctM, pure_bind]
  split <;> rfl

end Sequences
