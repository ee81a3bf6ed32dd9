import Sequences.Text.Utf8

/-!
Entries: numbers with a label. They have no order of their own and can be
searched by either part.
-/

namespace Sequences

structure Entry where
  number : Int64
  label : Bytes

/-- What an entry is searched by. -/
inductive EntryPart where
  | number (value : Int64)
  | label (value : Bytes)

/-- Compares the part of an entry that is searched for. -/
def Entry.compareTo (entry : Entry) : EntryPart → Ordering
  | .number value => compare entry.number value
  | .label value => compare entry.label value

end Sequences
