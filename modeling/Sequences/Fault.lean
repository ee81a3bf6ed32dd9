/-!
Causes for which a computation over sequences stops. A `Fault` interrupts the
computation from outside: a function supplied by the caller or an input gave
up, or there is no room for a list. A `Failure` is what an operation reports;
besides faults it covers arguments that the operation itself refuses.
-/

namespace Sequences

/-- The values that cannot be looked up in a set of keys. -/
inductive Unhashable where
  | list
  | table
deriving DecidableEq, Repr

inductive Fault where
  /-- The comparator gave up at this call, counted from one. -/
  | comparator (call : Nat)
  /-- The key function gave up at this call, counted from one. -/
  | key (call : Nat)
  /-- The named input gave up instead of delivering its next item. -/
  | source (name : String)
  /-- A key was, or contained, a value that cannot be looked up. -/
  | unhashable (kind : Unhashable)
  /-- A list of random words ran out. -/
  | exhausted
  /-- A list was to be given room for less than no elements. -/
  | capacity
  /-- A list would have become longer than its length can tell. -/
  | length
deriving DecidableEq, Repr

def Unhashable.typeName : Unhashable → String
  | list => "[]interface \x7b\x7d"
  | table => "map[string]interface \x7b\x7d"

def Fault.message : Fault → String
  | comparator call => s!"cmp panic at call {call}"
  | key call => s!"key panic at call {call}"
  | source name => s!"source {name} panic"
  | unhashable kind => "unhashable type " ++ kind.typeName
  | exhausted => "source exhausted"
  | capacity => "runtime error: makeslice: cap out of range"
  | length => "runtime error: growslice: len out of range"

inductive Failure where
  /-- Groups must have at least one element. -/
  | groupSize (size : Int)
  /-- An empty list has no greatest element. -/
  | empty
  /-- Term `index`, met on the way to term `n`, does not fit into a word. -/
  | overflow (n index : Nat)
  /-- No element stands at the requested place. -/
  | outOfRange
  | interrupted (fault : Fault)
deriving DecidableEq, Repr

namespace Failure

/-- What is wrong with every refused group size, without the size itself. -/
def groupSizeReason : String := "chunk size must be greater than zero"

/-- What is wrong with every overflowing term, without the indices. -/
def overflowReason : String := "fibonacci term overflows uint64"

def message : Failure → String
  | groupSize size => s!"{groupSizeReason}: {size}"
  | empty => "empty slice"
  | overflow n index => s!"F({n}): {overflowReason} at F({index})"
  | outOfRange => "index"
  | interrupted fault => fault.message

end Failure

end Sequences
