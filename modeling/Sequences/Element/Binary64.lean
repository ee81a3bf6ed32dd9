/-!
Floating-point numbers as their 64 bits. Numbers are told apart by equality
and by order in two ways. In the total order all values that are not numbers
are alike and stand below everything; the partial comparison finds neither
less nor greater among them. Both take the two zeros for the same number.
-/

namespace Sequences

/-- Sign, exponent and fraction of a number, from the highest bit down. -/
structure Binary64 where
  bits : UInt64

namespace Binary64

/-- All bits but the sign. -/
def magnitude (x : Binary64) : Nat := x.bits.toNat % 0x8000000000000000

def isNegative (x : Binary64) : Bool := 0x8000000000000000 ≤ x.bits.toNat

/-- The largest exponent with a fraction does not stand for a number. -/
def isNaN (x : Binary64) : Bool := 0x7ff0000000000000 < x.magnitude

/-- The place of a value in the total order. Among numbers of one sign the
order of the bits is the order of the sizes. -/
def rank (x : Binary64) : Int :=
  if x.isNaN then -0x8000000000000000
  else if x.isNegative then -x.magnitude
  else x.magnitude

instance : Ord Binary64 where
  compare x y := compare x.rank y.rank

instance : Std.TransOrd Binary64 where
  eq_swap {x y} := by
    change compare x.rank y.rank = (compare y.rank x.rank).swap
    exact Std.OrientedCmp.eq_swap
  isLE_trans {x y z} hxy hyz := by
    change (compare x.rank z.rank).isLE
    exact Std.TransCmp.isLE_trans hxy hyz

/-- No value that is not a number equals anything. -/
instance : BEq Binary64 where
  beq x y := !x.isNaN && !y.isNaN && x.rank == y.rank

/-- The comparison that finds a value that is not a number neither less nor
greater than any other. -/
def partialCompare (x y : Binary64) : Ordering :=
  if x.isNaN || y.isNaN then .eq else compare x y

end Binary64

end Sequences
