import Sequences.Element.Binary64
import Sequences.Inquiry
import Sequences.Text.Utf8

/-!
Values whose kind is known only when they are met. They are the elements of
mixed lists, and they are also what key functions answer. Values of different
kinds differ. Lists and tables have no equality, so they cannot be keys, nor
can a pair that contains one.
-/

namespace Sequences

inductive Value where
  | null
  | int (value : Int64)
  | uint (value : UInt64)
  | float (value : Binary64)
  | text (value : Bytes)
  | bool (value : Bool)
  | pair (first second : Value)
  | list (items : List Value)
  | table

namespace Value

/-- A pair equals another if both components do, so a pair with a component
that differs from itself does too. -/
def equal : Value → Value → Bool
  | null, null => true
  | int x, int y => x == y
  | uint x, uint y => x == y
  | float x, float y => x == y
  | text x, text y => x == y
  | bool x, bool y => x == y
  | pair x₁ x₂, pair y₁ y₂ => equal x₁ y₁ && equal x₂ y₂
  | _, _ => false

instance : BEq Value := ⟨equal⟩

/-- Numbers the kinds. -/
def kind : Value → Nat
  | null => 0
  | int _ => 1
  | uint _ => 2
  | float _ => 3
  | text _ => 4
  | bool _ => 5
  | pair _ _ => 6
  | list _ => 7
  | table => 8

/-- The first part of a value that cannot be looked up, going through pairs
from left to right. The items of a list do not matter. -/
def unhashable? : Value → Option Unhashable
  | list _ => some .list
  | table => some .table
  | pair first second => first.unhashable? <|> second.unhashable?
  | _ => none

/-- A value as a key. -/
def hashed (value : Value) : Except Fault Value :=
  match value.unhashable? with
  | some kind => .error (.unhashable kind)
  | none => .ok value

end Value

end Sequences
