import Sequences.Stored

/-!
Greedy merging of two lists under a comparison, which is consulted on the
first elements not yet taken. Ties go to the left list. Nothing is assumed of
the lists or of the comparison.
-/

namespace Sequences

variable {α : Type}

/-- Once a list is used up the other one follows without comparisons. -/
def mergeM {m : Type → Type} [Monad m] (cmp : α → α → m Ordering) :
    List α → List α → m (List α)
  | [], bs => pure bs
  | a :: as, [] => pure (a :: as)
  | a :: as, b :: bs => do
    if (← cmp a b).isLE then
      return a :: (← mergeM cmp as (b :: bs))
    else
      return b :: (← mergeM cmp (a :: as) bs)
termination_by as bs => as.length + bs.length

/-- If neither list has elements the result is absent. Two lengths do not add
up to zero otherwise, also if they are words. -/
def mergeStoredM {m : Type → Type} [Monad m] (cmp : α → α → m Ordering)
    (left right : Stored α) : m (Stored α) :=
  if left.items.length + right.items.length = 0 then return none
  else return some (← mergeM cmp left.items right.items)

/-- Some element comes first, so nothing else is ever absent. -/
theorem mergeStoredM_eq {m : Type → Type} [Monad m] [LawfulMonad m]
    (cmp : α → α → m Ordering) (left right : Stored α) :
    mergeStoredM cmp left right = Stored.ofList <$> mergeM cmp left.items right.items := by
  unfold mergeStoredM
  cases left.items with
  | nil => cases right.items <;> simp [mergeM, Stored.ofList]
  | cons a as =>
      cases right.items with
      | nil => simp [mergeM, Stored.ofList]
      | cons b bs =>
          simp only [List.length_cons, mergeM, map_bind, bind_assoc]
          rw [if_neg (by omega)]
          congr 1
          funext order
          split <;> simp [Stored.ofList]

/-- The merge under a comparison that always answers. -/
def merge (cmp : α → α → Ordering) (as bs : List α) : List α :=
  Id.run (mergeM (fun a b => pure (cmp a b)) as bs)

@[simp]
theorem merge_nil_left (cmp : α → α → Ordering) (bs : List α) : merge cmp [] bs = bs := by
  simp [merge, mergeM]

@[simp]
theorem merge_nil_right (cmp : α → α → Ordering) (as : List α) : merge cmp as [] = as := by
  cases as <;> simp [merge, mergeM]

theorem merge_cons_cons (cmp : α → α → Ordering) (a b : α) (as bs : List α) :
    merge cmp (a :: as) (b :: bs) =
      if (cmp a b).isLE then a :: merge cmp as (b :: bs)
      else b :: merge cmp (a :: as) bs := by
  simp only [merge, mergeM, pure_bind]
  split <;> rfl

/-- The pure merge is the library's, with ties to the left. -/
theorem merge_eq_listMerge (cmp : α → α → Ordering) (as bs : List α) :
    merge cmp as bs = as.merge bs fun a b => (cmp a b).isLE := by
  fun_induction List.merge as bs fun a b => (cmp a b).isLE with
  | case1 bs => exact merge_nil_left cmp bs
  | case2 as hne => exact merge_nil_right cmp as
  | case3 a as b bs hle ih => rw [merge_cons_cons, if_pos hle, ih]
  | case4 a as b bs hgt ih => rw [merge_cons_cons, if_neg hgt, ih]

end Sequences
