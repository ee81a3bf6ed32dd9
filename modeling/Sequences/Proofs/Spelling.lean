import Mathlib
import Sequences.Text.Utf8

/-! Reading and writing characters as bytes undo each other. A text begins
with a character exactly if it begins with the one spelling of it, for all
four lengths of spellings at once: the bytes behind the first are the groups
of six bits of the code, and the first byte tells how many there are. -/
namespace Sequences

namespace Utf8

/-- The last groups of six bits of a code, as continuing bytes. -/
def continuing : Nat → Nat → Bytes
  | 0, _ => []
  | more + 1, code => UInt8.ofNat (code / 64 ^ more % 64 + 0x80) :: continuing more code

theorem isContinuing_iff {b : UInt8} :
    (0x80 ≤ b ∧ b < 0xc0) ↔ 0x80 ≤ b.toNat ∧ b.toNat < 0xc0 := Iff.rfl

theorem extend?_continuing (more bits code : Nat) (rest : Bytes) :
    extend? more bits (continuing more code ++ rest) =
      some (bits * 64 ^ more + code % 64 ^ more, rest) := by
  induction more generalizing bits with
  | zero => simp [continuing, extend?, Nat.mod_one]
  | succ more ih =>
      have hByte : (UInt8.ofNat (code / 64 ^ more % 64 + 0x80)).toNat =
          code / 64 ^ more % 64 + 0x80 := by
        rw [UInt8.toNat_ofNat']
        omega
      have hRange : 0x80 ≤ UInt8.ofNat (code / 64 ^ more % 64 + 0x80) ∧
          UInt8.ofNat (code / 64 ^ more % 64 + 0x80) < 0xc0 := by
        rw [isContinuing_iff, hByte]
        omega
      rw [continuing, List.cons_append, extend?, if_pos hRange, ih, hByte, Nat.add_sub_cancel,
        Nat.mod_pow_succ, Nat.add_mul, Nat.pow_succ, Nat.mul_assoc, Nat.mul_comm 64,
        Nat.mul_comm (64 ^ more) (_ % 64), Nat.add_assoc, Nat.add_comm (code % _)]

/-- By induction on the bytes read: what was read before is the upper part of
the code, and every byte is its next group. -/
theorem eq_continuing_of_extend? {more bits code : Nat} {bytes rest : Bytes}
    (hExtend : extend? more bits bytes = some (code, rest)) :
    bytes = continuing more code ++ rest ∧ code / 64 ^ more = bits := by
  fun_induction extend? more bits bytes with
  | case1 bits bytes =>
      cases hExtend
      exact ⟨rfl, by simp⟩
  | case2 => cases hExtend
  | case3 more bits b bytes hByte ih =>
      obtain ⟨rfl, hBits⟩ := ih hExtend
      rw [isContinuing_iff] at hByte
      have hGroup : UInt8.ofNat (code / 64 ^ more % 64 + 0x80) = b := by
        rw [hBits, ← UInt8.toNat_inj, UInt8.toNat_ofNat']
        omega
      refine ⟨by rw [continuing, hGroup, List.cons_append], ?_⟩
      rw [Nat.pow_succ, ← Nat.div_div_eq_div_mul, hBits]
      omega
  | case4 => cases hExtend

/-- What a first byte can say, by ranges. -/
theorem lead?_eq_some_iff {b : UInt8} {lead : Lead} :
    lead? b = some lead ↔
      b.toNat < 0x80 ∧ lead = ⟨0, b.toNat, 0⟩ ∨
      (0xc0 ≤ b.toNat ∧ b.toNat < 0xe0) ∧ lead = ⟨1, b.toNat - 0xc0, 0x80⟩ ∨
      (0xe0 ≤ b.toNat ∧ b.toNat < 0xf0) ∧ lead = ⟨2, b.toNat - 0xe0, 0x800⟩ ∨
      (0xf0 ≤ b.toNat ∧ b.toNat < 0xf8) ∧ lead = ⟨3, b.toNat - 0xf0, 0x10000⟩ := by
  have hRead : lead? b = if b.toNat < 0x80 then some ⟨0, b.toNat, 0⟩
      else if b.toNat < 0xc0 then none
      else if b.toNat < 0xe0 then some ⟨1, b.toNat - 0xc0, 0x80⟩
      else if b.toNat < 0xf0 then some ⟨2, b.toNat - 0xe0, 0x800⟩
      else if b.toNat < 0xf8 then some ⟨3, b.toNat - 0xf0, 0x10000⟩
      else none := rfl
  rw [hRead]
  grind

/-- Every character has a first byte that fits its code. -/
theorem exists_lead (c : Char) : ∃ b lead, lead? b = some lead ∧
    c.toNat / 64 ^ lead.more = lead.bits ∧ lead.least ≤ c.toNat := by
  have hValid : c.toNat.isValidChar := c.valid
  by_cases hOne : c.toNat < 0x80
  · refine ⟨.ofNat c.toNat, ⟨0, c.toNat, 0⟩, lead?_eq_some_iff.mpr (.inl ?_), by simp, by simp⟩
    rw [UInt8.toNat_ofNat', Nat.mod_eq_of_lt (by omega)]
    exact ⟨hOne, rfl⟩
  by_cases hTwo : c.toNat < 0x800
  · refine ⟨.ofNat (c.toNat / 64 + 0xc0), ⟨1, c.toNat / 64, 0x80⟩,
      lead?_eq_some_iff.mpr (.inr (.inl ?_)), rfl, Nat.le_of_not_lt hOne⟩
    rw [UInt8.toNat_ofNat', Nat.mod_eq_of_lt (by omega), Nat.add_sub_cancel]
    exact ⟨by omega, rfl⟩
  by_cases hThree : c.toNat < 0x10000
  · refine ⟨.ofNat (c.toNat / 4096 + 0xe0), ⟨2, c.toNat / 4096, 0x800⟩,
      lead?_eq_some_iff.mpr (.inr (.inr (.inl ?_))), rfl, Nat.le_of_not_lt hTwo⟩
    rw [UInt8.toNat_ofNat', Nat.mod_eq_of_lt (by omega), Nat.add_sub_cancel]
    exact ⟨by omega, rfl⟩
  · refine ⟨.ofNat (c.toNat / 262144 + 0xf0), ⟨3, c.toNat / 262144, 0x10000⟩,
      lead?_eq_some_iff.mpr (.inr (.inr (.inr ?_))), rfl, Nat.le_of_not_lt hThree⟩
    rw [UInt8.toNat_ofNat', Nat.mod_eq_of_lt (by omega), Nat.add_sub_cancel]
    exact ⟨by omega, rfl⟩

/-- The first byte with its groups is the spelling, where no shorter one would
do. -/
theorem utf8EncodeChar_eq_of_lead {b : UInt8} {lead : Lead} {c : Char}
    (hLead : lead? b = some lead) (hBits : c.toNat / 64 ^ lead.more = lead.bits)
    (hLeast : lead.least ≤ c.toNat) :
    String.utf8EncodeChar c = b :: continuing lead.more c.toNat := by
  have hFirst {n : Nat} (hn : n = b.toNat) : UInt8.ofNat n = b := by
    rw [hn, UInt8.ofNat_toNat]
  have hCode : c.val.toNat = c.toNat := rfl
  simp only [String.utf8EncodeChar, hCode]
  rcases lead?_eq_some_iff.mp hLead with ⟨hb, rfl⟩ | ⟨hb, rfl⟩ | ⟨hb, rfl⟩ | ⟨hb, rfl⟩
  · simp only [Nat.pow_zero, Nat.div_one] at hBits
    rw [if_pos (by omega), hFirst hBits]
    rfl
  · simp only [Nat.pow_one] at hBits hLeast
    rw [if_neg (by omega), if_pos (by omega), hFirst (by omega)]
    simp [continuing]
  · simp only [Nat.reducePow] at hBits hLeast
    rw [if_neg (by omega), if_neg (by omega), if_pos (by omega), hFirst (by omega)]
    simp [continuing]
  · simp only [Nat.reducePow] at hBits hLeast
    rw [if_neg (by omega), if_neg (by omega), if_neg (by omega), hFirst (by omega)]
    simp [continuing]

theorem charFrom?_eq_some_iff {least code : Nat} {c : Char} :
    charFrom? least code = some c ↔ c.toNat = code ∧ least ≤ code := by
  unfold charFrom?
  split
  next hFits =>
    have hCode : (Char.ofNatAux code hFits.1).toNat = code := rfl
    rw [Option.some_inj, ← Char.toNat_inj, hCode]
    exact ⟨fun hEq => ⟨hEq.symm, hFits.2⟩, fun hEq => hEq.1.symm⟩
  next hFails =>
    constructor
    · intro hNone
      cases hNone
    · rintro ⟨rfl, hLeast⟩
      exact absurd ⟨c.valid, hLeast⟩ hFails

theorem next?_spelling (c : Char) (rest : Bytes) :
    next? (String.utf8EncodeChar c ++ rest) = some (c, rest) := by
  obtain ⟨b, lead, hLead, hBits, hLeast⟩ := exists_lead c
  have hCode : lead.bits * 64 ^ lead.more + c.toNat % 64 ^ lead.more = c.toNat := by
    rw [← hBits, Nat.div_add_mod']
  have hChar : charFrom? lead.least c.toNat = some c := charFrom?_eq_some_iff.mpr ⟨rfl, hLeast⟩
  rw [utf8EncodeChar_eq_of_lead hLead hBits hLeast, List.cons_append, next?, hLead]
  simp only [Option.bind_eq_bind, Option.bind_some, extend?_continuing, hCode, hChar]
  rfl

theorem eq_spelling_of_next? {bytes rest : Bytes} {c : Char}
    (hNext : next? bytes = some (c, rest)) : bytes = String.utf8EncodeChar c ++ rest := by
  cases bytes with
  | nil => cases hNext
  | cons b bytes =>
      simp only [next?, Option.bind_eq_bind, Option.bind_eq_some_iff] at hNext
      obtain ⟨lead, hLead, ⟨code, behind⟩, hExtend, found, hChar, hPair⟩ := hNext
      cases hPair
      obtain ⟨rfl, hLeast⟩ := charFrom?_eq_some_iff.mp hChar
      obtain ⟨rfl, hBits⟩ := eq_continuing_of_extend? hExtend
      rw [utf8EncodeChar_eq_of_lead hLead hBits hLeast, List.cons_append]

/-- A text begins with a character exactly if it begins with its spelling. -/
theorem next?_eq_some_iff {bytes rest : Bytes} {c : Char} :
    next? bytes = some (c, rest) ↔ bytes = String.utf8EncodeChar c ++ rest :=
  ⟨eq_spelling_of_next?, fun hBytes => hBytes ▸ next?_spelling c rest⟩

theorem decode_of_next? {bytes rest : Bytes} {c : Char}
    (hNext : next? bytes = some (c, rest)) : decode bytes = c :: decode rest := by
  cases bytes with
  | nil => cases hNext
  | cons b tail =>
      rw [decode]
      split
      next hFound =>
        cases hFound.symm.trans hNext
        rfl
      next hNone => cases hNone.symm.trans hNext

theorem decode_cons_of_none {b : UInt8} {tail : Bytes} (hNone : next? (b :: tail) = none) :
    decode (b :: tail) = replacement :: decode tail := by
  rw [decode]
  split
  next hFound => cases hFound.symm.trans hNone
  next => rfl

theorem decode_spelling_append (c : Char) (rest : Bytes) :
    decode (String.utf8EncodeChar c ++ rest) = c :: decode rest :=
  decode_of_next? (next?_spelling c rest)

theorem encode_cons (c : Char) (text : List Char) :
    encode (c :: text) = String.utf8EncodeChar c ++ encode text :=
  List.flatMap_cons

theorem decode_encode (text : List Char) : decode (encode text) = text := by
  induction text with
  | nil => rw [encode, List.flatMap_nil, decode]
  | cons c text ih => rw [encode_cons, decode_spelling_append, ih]

end Utf8

end Sequences
