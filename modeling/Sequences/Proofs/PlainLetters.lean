import Sequences.Proofs.Palindromes

/-! Letters that are spelled in one byte. Such a byte is a character of its own wherever it
stands, and it is part of no longer spelling and never stray. So a text in which letters of
one byte have changed their case is divided at the same places as before, next to broken
spellings too, and reading without case does not tell the two apart. -/
namespace Sequences

namespace Utf8

/-- A character is spelled in one byte, or in bytes of which none is a character. -/
theorem spelling_cases (c : Char) :
    (c.toNat < 0x80 ∧ String.utf8EncodeChar c = [.ofNat c.toNat]) ∨
      (0x80 ≤ c.toNat ∧ ∀ b ∈ String.utf8EncodeChar c, 0x80 ≤ b) := by
  obtain ⟨b, lead, hLead, hBits, hLeast⟩ := exists_lead c
  rw [utf8EncodeChar_eq_of_lead hLead hBits hLeast]
  rcases lead?_eq_some_iff.mp hLead with ⟨hb, rfl⟩ | hLong
  · left
    have hCode : c.toNat = b.toNat := by simpa using hBits
    exact ⟨by omega, by rw [hCode, UInt8.ofNat_toNat]; rfl⟩
  · right
    refine ⟨?_, fun d hd => ?_⟩
    · rcases hLong with ⟨-, rfl⟩ | ⟨-, rfl⟩ | ⟨-, rfl⟩ <;> simp only at hLeast <;> omega
    · rcases List.mem_cons.mp hd with rfl | hd
      · rw [UInt8.le_iff_toNat_le]
        change 0x80 ≤ d.toNat
        omega
      · exact (continues_of_mem_continuing hd).1

/-- A byte below this bound spells a character alone, so it is not stray. -/
theorem le_of_stray {b : UInt8} {tail : Bytes}
    (hStray : ∀ c rest, b :: tail ≠ String.utf8EncodeChar c ++ rest) : 0x80 ≤ b := by
  by_contra hLess
  have hb : b.toNat < 0x80 := by simpa [UInt8.le_iff_toNat_le] using hLess
  have hCode : (Char.ofNat b.toNat).toNat = b.toNat := by
    rw [Char.toNat_ofNat, if_pos (.inl (by omega))]
  rcases spelling_cases (.ofNat b.toNat) with ⟨-, hSpelling⟩ | ⟨hLong, -⟩
  · apply hStray (.ofNat b.toNat) tail
    rw [hSpelling, hCode, UInt8.ofNat_toNat]
    rfl
  · omega

/-- A text of such bytes only has no other characters than these. -/
theorem toNat_lt_of_mem_decode {text : Bytes} (hPlain : ∀ b ∈ text, b < 0x80) {c : Char}
    (hc : c ∈ decode text) : c.toNat < 0x80 := by
  obtain ⟨pieces, hPieces⟩ := exists_division text
  induction hPieces with
  | nil => simp [decode] at hc
  | @char d rest _ prior ih =>
      rw [decode_spelling_append] at hc
      rcases List.mem_cons.mp hc with rfl | hc
      · rcases spelling_cases c with ⟨hShort, -⟩ | ⟨-, hBytes⟩
        · exact hShort
        · obtain ⟨b, behind, hSpelling, -⟩ := exists_spelling c
          have hb : b ∈ String.utf8EncodeChar c := by simp [hSpelling]
          exact absurd (hBytes b hb) (UInt8.not_le.mpr (hPlain b (List.mem_append_left _ hb)))
      · exact ih (fun b hb => hPlain b (List.mem_append_right _ hb)) hc
  | @stray b tail _ hStray prior ih =>
      exact absurd (le_of_stray hStray) (UInt8.not_le.mpr (hPlain b List.mem_cons_self))

end Utf8

namespace Text

open Utf8

/-- Letters of one byte in lower case. -/
def lowerByte (b : UInt8) : UInt8 := if 0x41 ≤ b ∧ b ≤ 0x5a then b + 0x20 else b

/-- The same letter of one byte in the other case. -/
def OtherCase (b d : UInt8) : Prop :=
  (0x41 ≤ b ∧ b ≤ 0x5a) ∧ d = b + 0x20 ∨ (0x61 ≤ b ∧ b ≤ 0x7a) ∧ d = b - 0x20

/-- The same bytes, except that letters of one byte may be in the other case. -/
def Recased : Bytes → Bytes → Prop := List.Forall₂ fun b d => d = b ∨ OtherCase b d

theorem lowerByte_of_le {b : UInt8} (hb : 0x80 ≤ b) : lowerByte b = b := by
  grind [lowerByte]

/-- No byte comes to lie above the letters. -/
theorem lowerByte_of_le_lowerByte {b : UInt8} (hb : 0x80 ≤ lowerByte b) : lowerByte b = b := by
  grind [lowerByte]

theorem lowerByte_eq_of_otherCase {b d : UInt8} (hCase : OtherCase b d) :
    lowerByte d = lowerByte b := by
  unfold lowerByte
  rcases hCase with ⟨hUpper, rfl⟩ | ⟨hLower, rfl⟩
  · grind
  · grind

theorem Recased.map_lowerByte {text other : Bytes} (hRecased : Recased text other) :
    other.map lowerByte = text.map lowerByte := by
  induction hRecased with
  | nil => rfl
  | cons hByte prior ih =>
      rw [List.map_cons, List.map_cons, ih]
      rcases hByte with rfl | hCase
      · rfl
      · rw [lowerByte_eq_of_otherCase hCase]

/-- What holds of all characters of one byte holds of each of them. -/
theorem plain_induction {P : Char → Prop} (hPlain : ∀ n < 0x80, P (.ofNat n)) {c : Char}
    (hc : c.toNat < 0x80) : P c := by
  have hChar := hPlain c.toNat hc
  rwa [Char.ofNat_toNat] at hChar

theorem toLower_of_le {c : Char} (hc : 0x80 ≤ c.toNat) : c.toLower = c := by
  apply Char.toLower_eq_of_not_isUpper
  intro hUpper
  have hLast : c.toNat ≤ 0x5a := by
    simp only [Char.isUpper, decide_eq_true_eq] at hUpper
    exact hUpper.2
  omega

theorem map_lowerByte_eq_self {bytes : Bytes} (hBytes : ∀ b ∈ bytes, lowerByte b = b) :
    bytes.map lowerByte = bytes :=
  (List.map_congr_left hBytes).trans (List.map_id bytes)

theorem map_lowerByte_spelling (c : Char) :
    (String.utf8EncodeChar c).map lowerByte = String.utf8EncodeChar c.toLower := by
  rcases spelling_cases c with ⟨hPlain, -⟩ | ⟨hLong, hBytes⟩
  · revert hPlain
    apply plain_induction
    decide +kernel
  · rw [toLower_of_le hLong]
    exact map_lowerByte_eq_self fun b hb => lowerByte_of_le (hBytes b hb)

/-- A spelling in the changed text has no letter of one byte, so it was there before. -/
theorem stray_map_lowerByte {b : UInt8} {tail : Bytes}
    (hStray : ∀ c rest, b :: tail ≠ String.utf8EncodeChar c ++ rest) (c : Char) (rest : Bytes) :
    b :: tail.map lowerByte ≠ String.utf8EncodeChar c ++ rest := by
  intro hEq
  have hb := le_of_stray hStray
  have hMap : (b :: tail).map lowerByte = String.utf8EncodeChar c ++ rest := by
    rw [List.map_cons, lowerByte_of_le hb, hEq]
  obtain ⟨front, back, hTail, hFront, -⟩ := List.map_eq_append_iff.mp hMap
  rcases spelling_cases c with ⟨hPlain, hSpelling⟩ | ⟨-, hBytes⟩
  · -- The byte would spell the character alone.
    rw [hSpelling] at hEq
    obtain ⟨rfl, -⟩ := List.cons.inj hEq
    rw [UInt8.le_iff_toNat_le, UInt8.toNat_ofNat'] at hb
    change 0x80 ≤ c.toNat % 256 at hb
    omega
  · have hSame : front.map lowerByte = front := by
      refine map_lowerByte_eq_self fun d hd => lowerByte_of_le_lowerByte (hBytes _ ?_)
      rw [← hFront]
      exact List.mem_map_of_mem hd
    exact hStray c back (by rw [hTail, ← hFront, hSame])

theorem decode_map_lowerByte (text : Bytes) :
    decode (text.map lowerByte) = (decode text).map Char.toLower := by
  obtain ⟨pieces, hPieces⟩ := exists_division text
  induction hPieces with
  | nil => rw [List.map_nil, decode, List.map_nil]
  | char c prior ih =>
      rw [List.map_append, map_lowerByte_spelling, decode_spelling_append,
        decode_spelling_append, List.map_cons, ih]
  | @stray b tail _ hStray prior ih =>
      have hReplacement : replacement.toLower = replacement := by decide
      rw [decode_cons_of_none (next?_eq_none_of_stray hStray), List.map_cons, List.map_cons,
        lowerByte_of_le (le_of_stray hStray),
        decode_cons_of_none (next?_eq_none_of_stray (stray_map_lowerByte hStray)), ih,
        hReplacement]

/-- A function that does not tell the cases of the letters of one byte apart. -/
theorem apply_toLower {β : Type} {f : Char → β}
    (hPlain : ∀ c : Char, c.toNat < 0x80 → f c.toLower = f c) (c : Char) :
    f c.toLower = f c := by
  by_cases hc : c.toNat < 0x80
  · exact hPlain c hc
  · rw [toLower_of_le (Nat.le_of_not_lt hc)]

theorem lowerChar_toLower (c : Char) : lowerChar c.toLower = lowerChar c := by
  apply apply_toLower
  intro c
  apply plain_induction
  decide +kernel

namespace Alphabet

/-- Characters of one byte are letters, digits and lower case as they have always been. -/
structure ExtendsPlain (alphabet : Alphabet) : Prop where
  counts_eq : ∀ c : Char, c.toNat < 0x80 → alphabet.counts c = c.isAlphanum
  lower_eq : ∀ c : Char, c.toNat < 0x80 → alphabet.lower c = c.toLower

theorem extendsPlain_unicode15 : unicode15.ExtendsPlain := by
  constructor
  · intro c
    apply plain_induction
    decide +kernel
  · intro c
    apply plain_induction
    decide +kernel

theorem toNat_toLower_lt {c : Char} : c.toNat < 0x80 → c.toLower.toNat < 0x80 := by
  apply plain_induction
  decide +kernel

variable {alphabet : Alphabet}

theorem ExtendsPlain.counts_toLower (hPlain : alphabet.ExtendsPlain) (c : Char) :
    alphabet.counts c.toLower = alphabet.counts c := by
  apply apply_toLower
  intro c hc
  rw [hPlain.counts_eq _ (toNat_toLower_lt hc), hPlain.counts_eq c hc]
  revert hc
  apply plain_induction
  decide +kernel

theorem ExtendsPlain.lower_toLower (hPlain : alphabet.ExtendsPlain) (c : Char) :
    alphabet.lower c.toLower = alphabet.lower c := by
  apply apply_toLower
  intro c hc
  rw [hPlain.lower_eq _ (toNat_toLower_lt hc), hPlain.lower_eq c hc]
  revert hc
  apply plain_induction
  decide +kernel

theorem ExtendsPlain.skeleton_map_lowerByte (hPlain : alphabet.ExtendsPlain) (text : Bytes) :
    alphabet.skeleton (text.map lowerByte) = alphabet.skeleton text := by
  have hCounts : alphabet.counts ∘ Char.toLower = alphabet.counts := funext hPlain.counts_toLower
  have hLower : alphabet.lower ∘ Char.toLower = alphabet.lower := funext hPlain.lower_toLower
  rw [skeleton, decode_map_lowerByte, List.filter_map, List.map_map, hCounts, hLower, skeleton]

theorem ExtendsPlain.isPalindrome_eq (hPlain : alphabet.ExtendsPlain) {text other : Bytes}
    (hRecased : Recased text other) :
    alphabet.isPalindrome other = alphabet.isPalindrome text := by
  have hSkeleton : alphabet.skeleton other = alphabet.skeleton text := by
    rw [← hPlain.skeleton_map_lowerByte, hRecased.map_lowerByte, hPlain.skeleton_map_lowerByte]
  rw [Bool.eq_iff_iff, isPalindrome_iff, isPalindrome_iff, hSkeleton]

end Alphabet

end Text

end Sequences
