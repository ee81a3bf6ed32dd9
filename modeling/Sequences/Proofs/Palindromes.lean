import Sequences.Proofs.Seams

/-! Texts whose letters and digits read the same both ways. Comparing from both ends inwards
looks at half of the places only, yet it tells whether all of them are mirrored. What is
compared are characters that were read, so a reversed text, in which stray bytes have become
replacement characters, has the same ones in the opposite order. -/
namespace Sequences

/-- The character of a piece, if it is spelled. -/
def Utf8.Piece.spelled? : Piece → Option Char
  | char c => some c
  | stray _ => none

namespace Text

open Utf8

/-- What is at a place of the range is also at the opposite place. -/
def Mirrored (letters : Array Char) (left right : Nat) : Prop :=
  ∀ i, left ≤ i → i < right → letters[i]? = letters[left + right - 1 - i]?

variable {letters : Array Char} {left right : Nat}

/-- In a range of at most one place that place is its own opposite. -/
theorem mirrored_of_narrow (hNarrow : right ≤ left + 1) : Mirrored letters left right := by
  intro i hLeft hRight
  congr 1
  omega

/-- The ends are opposite to each other, and other places have their opposites between. -/
theorem mirrored_iff_of_wide (hWide : left + 1 < right) :
    Mirrored letters left right ↔
      letters[left]? = letters[right - 1]? ∧ Mirrored letters (left + 1) (right - 1) := by
  have hSum : left + 1 + (right - 1) = left + right := by omega
  unfold Mirrored
  rw [hSum]
  constructor
  · intro hAll
    refine ⟨?_, fun i hLeft hRight => hAll i (by omega) (by omega)⟩
    have hEnds := hAll left (Nat.le_refl _) (by omega)
    rwa [show left + right - 1 - left = right - 1 by omega] at hEnds
  · rintro ⟨hEnds, hInner⟩ i hLeft hRight
    by_cases hFirst : i = left
    · rw [hFirst, hEnds]
      congr 1
      omega
    by_cases hLast : i = right - 1
    · rw [hLast, ← hEnds]
      congr 1
      omega
    · exact hInner i (by omega) (by omega)

theorem mirrored_eq_true_iff (letters : Array Char) (left right : Nat)
    (hRight : right ≤ letters.size) :
    mirrored letters left right hRight = true ↔ Mirrored letters left right := by
  fun_induction mirrored letters left right hRight with
  | case1 left right hRight hWide ih =>
      rw [Bool.and_eq_true, ih, beq_iff_eq, mirrored_iff_of_wide hWide,
        Array.getElem?_eq_getElem, Array.getElem?_eq_getElem, Option.some_inj]
  | case2 left right hRight hNarrow => simp [mirrored_of_narrow (Nat.le_of_not_lt hNarrow)]

theorem mirrored_iff_eq_reverse (chars : List Char) :
    Mirrored chars.toArray 0 chars.length ↔ chars = chars.reverse := by
  have hOpposite {i : Nat} (hi : i < chars.length) :
      chars.reverse[i]? = chars[0 + chars.length - 1 - i]? := by
    rw [List.getElem?_reverse hi, Nat.zero_add]
  simp only [Mirrored, List.getElem?_toArray]
  constructor
  · intro hAll
    apply List.ext_getElem?
    intro i
    by_cases hi : i < chars.length
    · rw [hAll i (Nat.zero_le i) hi, hOpposite hi]
    · rw [List.getElem?_eq_none (by omega), List.getElem?_eq_none (by simpa using hi)]
  · intro hSame i _ hi
    rw [← hOpposite hi, ← hSame]

namespace Alphabet

variable (alphabet : Alphabet)

theorem isPalindrome_iff (text : Bytes) :
    alphabet.isPalindrome text = true ↔
      alphabet.skeleton text = (alphabet.skeleton text).reverse := by
  rw [isPalindrome, mirrored_eq_true_iff, List.size_toArray, mirrored_iff_eq_reverse]

theorem skeleton_append {left right : Bytes} (hValid : Valid left ∨ Valid right) :
    alphabet.skeleton (left ++ right) = alphabet.skeleton left ++ alphabet.skeleton right := by
  rw [skeleton, decode_append hValid, List.filter_append, List.map_append]
  rfl

/-- Stray bytes do not count, since a replacement character is neither a letter nor a
digit. -/
theorem filter_map_read (pieces : List Piece) :
    (pieces.map Piece.read).filter alphabet.counts =
      (pieces.filterMap Piece.spelled?).filter alphabet.counts := by
  induction pieces with
  | nil => rfl
  | cons piece pieces ih =>
      cases piece with
      | char c =>
          have hSpelled : (Piece.char c).spelled? = some c := rfl
          rw [List.map_cons, List.filterMap_cons_some hSpelled, Piece.read, List.filter_cons,
            List.filter_cons, ih]
      | stray b =>
          have hSpelled : (Piece.stray b).spelled? = none := rfl
          have hUncounted : alphabet.counts replacement = false := alphabet.replacement_uncounted
          rw [List.map_cons, List.filterMap_cons_none hSpelled, Piece.read, List.filter_cons,
            hUncounted, ← ih]
          rfl

theorem skeleton_eq_of_division {text : Bytes} {pieces : List Piece}
    (hPieces : Division text pieces) :
    alphabet.skeleton text =
      ((pieces.filterMap Piece.spelled?).filter alphabet.counts).map alphabet.lower := by
  rw [skeleton, hPieces.decode_eq, filter_map_read]

theorem skeleton_reverse (text : Bytes) :
    alphabet.skeleton (reverse text) = (alphabet.skeleton text).reverse := by
  rw [skeleton, decode_reverse, List.filter_reverse, List.map_reverse]
  rfl

/-- Whatever the alphabet is, a text is a palindrome just if its letters and digits, in lower
case, are their own reversal. So it is one if it is one backwards, and followed by itself
backwards every text is one, whatever its bytes. Stray bytes do not count: they are read as a
character that is neither a letter nor a digit. -/
theorem isPalindrome_bothWays (text : Bytes) :
    let counted (chars : List Char) :=
      (chars.filter fun c => alphabet.isLetter c || alphabet.isDigit c).map alphabet.lower
    let letters := counted (decode text)
    (alphabet.isPalindrome text = true ↔ letters = letters.reverse) ∧
      alphabet.isPalindrome (reverse text) = alphabet.isPalindrome text ∧
      alphabet.isPalindrome (text ++ reverse text) = true ∧
      (alphabet.isLetter replacement || alphabet.isDigit replacement) = false ∧
      ∃ pieces, Division text pieces ∧ letters = counted (pieces.filterMap Piece.spelled?) := by
  obtain ⟨pieces, hPieces⟩ := exists_division text
  refine ⟨alphabet.isPalindrome_iff text, ?_, ?_, alphabet.replacement_uncounted, pieces,
    hPieces, alphabet.skeleton_eq_of_division hPieces⟩
  · rw [Bool.eq_iff_iff, isPalindrome_iff, isPalindrome_iff, skeleton_reverse,
      List.reverse_reverse, eq_comm]
  · have hValid : Valid (reverse text) := valid_encode _
    rw [isPalindrome_iff, skeleton_append alphabet (.inr hValid), skeleton_reverse,
      List.reverse_append, List.reverse_reverse]

end Alphabet

end Text

end Sequences
