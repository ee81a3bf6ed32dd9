/-!
What can be observed while a sequence is read on demand. Every place of a
plan at which an input is read is a leaf of its own, also if the same input
stands at several places.
-/

namespace Sequences

/-- The two inputs of a merge. -/
inductive Side where
  | left
  | right
deriving DecidableEq, Repr

/-- A place at which an input is read: its name, and the way to the place
from the top of the plan. Only merges branch. -/
structure Leaf where
  name : String
  place : List Side
deriving DecidableEq, Repr

inductive Event (α : Type) where
  /-- The input was asked for the first time. -/
  | started (leaf : Leaf)
  | emitted (leaf : Leaf) (item : α)
  /-- The input had no further item. -/
  | ended (leaf : Leaf)
  /-- The input was told that no further item is wanted. -/
  | stopped (leaf : Leaf)
  /-- The input gave up. -/
  | failed (leaf : Leaf)
  /-- The comparator was called. -/
  | compared (x y : α)
  /-- The key function was called. -/
  | keyed (x : α)
deriving DecidableEq, Repr

end Sequences
