/-!
Texts as bytes. A text may hold any bytes; those that do not spell a
character are read as replacement characters, one for each byte. A character
is spelled in one way only: the shortest one, and surrogates have none.
-/

namespace Sequences

abbrev Bytes := List UInt8

namespace Utf8

/-- Stands for a byte that is not part of a spelled character. -/
def replacement : Char := '�'

/-- What the first byte of a spelling says: how many bytes follow, the upper
bits of the code, and the least code that needs so many bytes. -/
structure Lead where
  more : Nat
  bits : Nat
  least : Nat

/-- Bytes from 128 to 191 only continue a spelling, and those from 248 on
have no use. -/
def lead? (b : UInt8) : Option Lead :=
  if b < 0x80 then some ⟨0, b.toNat, 0⟩
  else if b < 0xc0 then none
  else if b < 0xe0 then some ⟨1, b.toNat - 0xc0, 0x80⟩
  else if b < 0xf0 then some ⟨2, b.toNat - 0xe0, 0x800⟩
  else if b < 0xf8 then some ⟨3, b.toNat - 0xf0, 0x10000⟩
  else none

/-- Reads so many continuing bytes, each of which adds six bits to the
code. -/
def extend? : Nat → Nat → Bytes → Option (Nat × Bytes)
  | 0, bits, bytes => some (bits, bytes)
  | _ + 1, _, [] => none
  | more + 1, bits, b :: bytes =>
    if 0x80 ≤ b ∧ b < 0xc0 then extend? more (bits * 64 + (b.toNat - 0x80)) bytes else none

/-- The character with this code, unless the code has a shorter spelling or
belongs to no character. -/
def charFrom? (least code : Nat) : Option Char :=
  if h : code.isValidChar ∧ least ≤ code then some (Char.ofNatAux code h.1) else none

/-- The character that the bytes begin with, and the bytes behind it. -/
def next? : Bytes → Option (Char × Bytes)
  | [] => none
  | b :: bytes => do
    let lead ← lead? b
    let (code, rest) ← extend? lead.more lead.bits bytes
    let c ← charFrom? lead.least code
    return (c, rest)

theorem length_le_of_extend? {more bits code : Nat} {bytes rest : Bytes}
    (hExtend : extend? more bits bytes = some (code, rest)) : rest.length ≤ bytes.length := by
  fun_induction extend? more bits bytes with
  | case1 bits bytes => cases hExtend; exact Nat.le_refl _
  | case2 => cases hExtend
  | case3 more bits b bytes hByte ih => exact Nat.le_succ_of_le (ih hExtend)
  | case4 => cases hExtend

theorem length_lt_of_next? {bytes rest : Bytes} {c : Char}
    (hNext : next? bytes = some (c, rest)) : rest.length < bytes.length := by
  cases bytes with
  | nil => cases hNext
  | cons b bytes =>
    simp only [next?, Option.bind_eq_bind, Option.bind_eq_some_iff] at hNext
    obtain ⟨lead, _, ⟨code, behind⟩, hExtend, _, _, hPair⟩ := hNext
    cases hPair
    exact Nat.lt_succ_of_le (length_le_of_extend? hExtend)

/-- The characters of a text. A byte that begins no character is passed over
alone, so the bytes behind it can still begin one. -/
def decode (bytes : Bytes) : List Char :=
  match bytes with
  | [] => []
  | b :: tail =>
    match _hNext : next? (b :: tail) with
    | some (c, rest) => c :: decode rest
    | none => replacement :: decode tail
termination_by bytes.length
decreasing_by
  · exact length_lt_of_next? ‹_›
  · exact Nat.lt_succ_self _

/-- The one spelling of every character. -/
def encode (text : List Char) : Bytes := text.flatMap String.utf8EncodeChar

end Utf8

end Sequences
