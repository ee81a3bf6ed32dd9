import Sequences.Fault
import Sequences.Stored

/-!
Cutting a list into consecutive groups of one size, and joining lists. Only
the last group may be shorter, and no group is empty. The lengths of the lists
that are joined are added up in a word beforehand, to see whether there is
anything to join and how much room it needs, and this sum can wrap around.
-/

namespace Sequences

variable {α : Type}

/-- Consecutive groups of `size` elements. A size of zero is read as one, so
that every group takes at least one element. -/
def groups (size : Nat) : List α → List (List α)
  | [] => []
  | x :: xs => (x :: xs.take (size - 1)) :: groups size (xs.drop (size - 1))
termination_by xs => xs.length
decreasing_by rw [List.length_drop, List.length_cons]; omega

/-- A size below one is refused before the list is looked at. -/
def groups? (size : Int) (xs : List α) : Except Failure (List (List α)) :=
  if size ≤ 0 then .error (.groupSize size) else .ok (groups size.toNat xs)

/-- A list without elements has no groups, and these are given back as
absent. -/
def groupsStored? (size : Int) (list : Stored α) : Except Failure (Stored (Stored α)) :=
  if size ≤ 0 then .error (.groupSize size)
  else if list.items.length = 0 then .ok none
  else .ok (some ((groups size.toNat list.items).map some))

/-- The length of a list as a word. -/
def wordLength (list : List α) : Int64 := .ofNat list.length

/-- All lengths added up in a word. -/
def totalLength (lists : List (List α)) : Int64 :=
  lists.foldl (fun total list => total + wordLength list) 0

/-- The largest length that a list can have. -/
def maxLength : Nat := 9223372036854775807

/-- Appends one list after the other, as long as the length can tell how many
elements there are. -/
def appendAll (joined : Array α) : List (List α) → Except Fault (List α)
  | [] => .ok joined.toList
  | list :: lists =>
    if maxLength < joined.size + list.length then .error .length
    else appendAll (joined ++ list) lists

/-- Joins lists. A sum of lengths that is zero is taken for a sign that there
are no elements, and one that is below zero is not accepted as room. -/
def flattenStored (nested : Stored (Stored α)) : Except Fault (Stored α) :=
  let lists := nested.items.map Stored.items
  let total := totalLength lists
  if total = 0 then .ok none
  else if total < 0 then .error .capacity
  else (appendAll #[] lists).map some

end Sequences
