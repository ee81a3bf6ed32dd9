import Sequences.Element.Entry
import Sequences.Element.Value
import Sequences.Registry
import Sequences.Text.Reading

/-!
The element types and the comparisons and keys that are known for them by
name. Comparisons need not be orders, and keys need not tell elements apart.
-/

namespace Sequences

variable {α : Type}

/-- A type of elements. -/
class Element (α : Type) where
  /-- Reported where there is no element to report. -/
  zero : α
  /-- The element as a key. -/
  toValue : α → Value
  comparisons : Registry (α → α → Ordering)
  keys : Registry (α → Value)

namespace Element

/-- The comparisons that every type has ignore the elements. -/
def commonComparisons : Registry (α → α → Ordering) :=
  [("equal", fun _ _ => .eq), ("less", fun _ _ => .lt), ("greater", fun _ _ => .gt)]

/-- The order of the type, both ways. -/
def orderComparisons [Ord α] : Registry (α → α → Ordering) :=
  [("natural", compare), ("reverse", fun x y => compare y x)]

/-- The keys that every type has: the element, or nothing of it. -/
def commonKeys (toValue : α → Value) : Registry (α → Value) :=
  [("id", toValue), ("const", fun _ => .null)]

/-- The difference wraps around, so numbers far apart compare the wrong way. -/
def signedDifference (x y : Int64) : Ordering := compare (x - y) 0

def unsignedDifference (x y : UInt64) : Ordering := compare (x - y).toInt64 0

/-- The least number is its own absolute value. -/
def wrappedAbs (x : Int64) : Int64 := if x < 0 then -x else x

instance : Element Int64 where
  zero := 0
  toValue := .int
  comparisons := commonComparisons ++ orderComparisons ++
    [("diff", signedDifference), ("mod10", fun x y => compare (x % 10) (y % 10))]
  keys := commonKeys .int ++
    [("mod3", fun x => .int (x % 3)), ("abs", fun x => .int (wrappedAbs x))]

instance : Element UInt64 where
  zero := 0
  toValue := .uint
  comparisons := commonComparisons ++ orderComparisons ++ [("diff", unsignedDifference)]
  keys := commonKeys .uint ++ [("mod3", fun x => .uint (x % 3))]

instance : Element Binary64 where
  zero := ⟨0⟩
  toValue := .float
  comparisons := commonComparisons ++ orderComparisons ++ [("raw", Binary64.partialCompare)]
  keys := commonKeys .float ++ [("bits", fun x => .uint x.bits)]

instance : Element Bytes where
  zero := []
  toValue := .text
  comparisons := commonComparisons ++ orderComparisons ++
    [("len", fun x y => compare x.length y.length),
      ("lower", fun x y => compare (Text.lower x) (Text.lower y))]
  keys := commonKeys .text ++
    [("len", fun x => .int (.ofNat x.length)), ("lower", fun x => .text (Text.lower x))]

/-- Entries are equal if both parts are. -/
def entryValue (entry : Entry) : Value := .pair (.int entry.number) (.text entry.label)

instance : Element Entry where
  zero := ⟨0, []⟩
  toValue := entryValue
  comparisons := commonComparisons ++
    [("k", fun x y => compare x.number y.number),
      ("k_desc", fun x y => compare y.number x.number),
      ("s", fun x y => compare x.label y.label)]
  keys := commonKeys entryValue ++
    [("k", fun x => .int x.number), ("s", fun x => .text x.label)]

instance : Element Value where
  zero := .null
  toValue := id
  comparisons := commonComparisons
  keys := commonKeys id ++ [("kind", fun x => .int (.ofNat x.kind))]

end Element

/-- A call number at which a function gives up; numbers below one mean
never. -/
def callNumber? (n : Int) : Option Nat := if 0 < n then some n.toNat else none

/-- A comparison as a probe of pairs. -/
def comparisonProbe {τ : Type} (failAt : Option Nat) (cmp : α → τ → Ordering) :
    Probe (α × τ) Ordering :=
  Probe.interruptedAt failAt .comparator (.ofFun fun (x, y) => cmp x y)

/-- A key as a probe. A key that cannot be looked up fails too, after the key
function itself has answered. -/
def keyProbe (failAt : Option Nat) (key : α → Value) : Probe α Value :=
  Probe.interruptedAt failAt .key fun _ x => (key x).hashed

end Sequences
