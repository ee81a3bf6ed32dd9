import Sequences.Proofs.PlainLetters

/-! The vowels of a text, for all bytes. What is counted are characters whose lower case is
one of five letters, and these letters are spelled in one byte. A character of more bytes has
another lower case than these, with one exception: the dotted capital of `i`. -/
namespace Sequences

namespace Text

open Utf8

/-- The bytes that are vowels by themselves. -/
def vowelBytes : Bytes := encode ['a', 'e', 'i', 'o', 'u', 'A', 'E', 'I', 'O', 'U']

/-- How many bytes of the text are vowels by themselves. -/
def plainVowels (text : Bytes) : Nat := text.countP vowelBytes.contains

/-- The capital letter whose lower case is `i`, though it is spelled in two bytes. -/
def dottedCapital : Char := 'İ'

/-- The lower case of a code is the code itself, or one of the ranges moves it. -/
theorem lowerCode_cases (code : Nat) (ranges : List CaseRange) :
    lowerCode code ranges = code ∨ ∃ range ∈ ranges, range.first ≤ code ∧ code ≤ range.last ∧
      lowerCode code ranges = (code + range.shift).toNat := by
  fun_induction lowerCode code ranges with
  | case1 => left; rfl
  | case2 => left; rfl
  | case3 range ranges hFirst hLast hStride =>
      right
      exact ⟨range, List.mem_cons_self, Nat.le_of_not_lt hFirst, hLast, rfl⟩
  | case4 => left; rfl
  | case5 range ranges hFirst hLast ih =>
      rcases ih with hSame | ⟨found, hFound, hMoved⟩
      · left; exact hSame
      · right; exact ⟨found, List.mem_cons_of_mem _ hFound, hMoved⟩

/-- Codes of more than one byte are moved to such codes, except for the dotted capital and
the sign of a unit, which is moved to `k`. -/
theorem caseRanges_apart : ∀ range ∈ caseRanges,
    range.last < 0x80 ∨ 0x80 ≤ range.first + range.shift ∨
      (range.first = 0x130 ∧ range.last = 0x130) ∨
      (range.first = 0x212a ∧ range.last = 0x212a ∧ range.shift = -8383) := by
  decide +kernel

theorem isVowel_range {c : Char} (hVowel : isVowel c = true) :
    0 < c.toNat ∧ c.toNat < 0x80 ∧ c.toNat ≠ 0x6b := by
  simp only [isVowel, List.contains_eq_mem, List.mem_cons, List.not_mem_nil, or_false,
    decide_eq_true_eq] at hVowel
  rcases hVowel with rfl | rfl | rfl | rfl | rfl <;> decide

theorem isVowel_lowerChar_iff {c : Char} (hc : 0x80 ≤ c.toNat) :
    isVowel (lowerChar c) = true ↔ c = dottedCapital := by
  constructor
  · intro hVowel
    obtain ⟨hPos, hPlain, hOther⟩ := isVowel_range hVowel
    -- A code that is no character would be read as zero.
    have hValid : (lowerCode c.toNat caseRanges).isValidChar := by
      by_contra hInvalid
      rw [lowerChar, Char.toNat_ofNat, if_neg hInvalid] at hPos
      omega
    rw [lowerChar, Char.toNat_ofNat, if_pos hValid] at hPlain hOther
    rcases lowerCode_cases c.toNat caseRanges with hSame | ⟨range, hRange, hFirst, hLast, hMoved⟩
    · omega
    · -- The sign of a unit is left out as well, since `k` is no vowel.
      have hApart := caseRanges_apart range hRange
      have hCode : c.toNat = 0x130 := by omega
      rw [← Char.ofNat_toNat c, hCode]
      rfl
  · rintro rfl
    decide +kernel

theorem plainVowels_of_le {bytes : Bytes} (hBytes : ∀ b ∈ bytes, 0x80 ≤ b) :
    plainVowels bytes = 0 := by
  have hSmall : ∀ d ∈ vowelBytes, d < 0x80 := by decide +kernel
  apply List.countP_eq_zero.mpr
  intro b hb hVowel
  have hLess := hSmall b (by simpa using hVowel)
  exact absurd (hBytes b hb) (UInt8.not_le.mpr hLess)

/-- What a character adds to both counts. -/
theorem plainVowels_spelling (c : Char) :
    plainVowels (String.utf8EncodeChar c) + (if c = dottedCapital then 1 else 0) =
      if isVowel (lowerChar c) then 1 else 0 := by
  rcases spelling_cases c with ⟨hPlain, -⟩ | ⟨hLong, hBytes⟩
  · revert hPlain
    apply plain_induction
    decide +kernel
  · rw [plainVowels_of_le hBytes, Nat.zero_add]
    simp only [isVowel_lowerChar_iff hLong]

theorem countVowels_of_decode {text rest : Bytes} {c : Char}
    (hRead : decode text = c :: decode rest) :
    countVowels text = countVowels rest + if isVowel (lowerChar c) then 1 else 0 := by
  rw [countVowels, hRead, List.countP_cons]
  rfl

theorem plainVowels_append (left right : Bytes) :
    plainVowels (left ++ right) = plainVowels left + plainVowels right :=
  List.countP_append

/-- By induction on the pieces. A spelled character adds the same to both sides, and a stray
byte, which is read as a replacement character, adds nothing. -/
theorem countVowels_eq_add (text : Bytes) :
    countVowels text = plainVowels text + (decode text).count dottedCapital := by
  obtain ⟨pieces, hPieces⟩ := exists_division text
  induction hPieces with
  | nil => simp [countVowels, plainVowels, decode]
  | @char c rest _ prior ih =>
      have hRead := decode_spelling_append c rest
      have hAdded := plainVowels_spelling c
      rw [countVowels_of_decode hRead, hRead, plainVowels_append, List.count_cons, ih, ← hAdded]
      simp only [beq_iff_eq]
      omega
  | @stray b tail _ hStray prior ih =>
      have hRead := decode_cons_of_none (next?_eq_none_of_stray hStray)
      have hByte : plainVowels [b] = 0 := plainVowels_of_le (by simpa using le_of_stray hStray)
      have hVowel : isVowel (lowerChar replacement) = false := by decide +kernel
      have hOther : (replacement == dottedCapital) = false := by decide
      rw [countVowels_of_decode hRead, hRead, List.count_cons, hVowel, hOther, ih,
        ← List.singleton_append, plainVowels_append, hByte, Nat.zero_add]
      simp

/-- The count of vowels is that of the bytes which are vowels by themselves, and one more for
every dotted capital that is spelled in the text. So the two counts are the same just if there
is none. No other character of more than one byte counts, and no stray byte. -/
theorem countVowels_eq_plainVowels_iff (text : Bytes) :
    countVowels text = plainVowels text + (decode text).count dottedCapital ∧
      (countVowels text = plainVowels text ↔ dottedCapital ∉ decode text) := by
  refine ⟨countVowels_eq_add text, ?_⟩
  rw [countVowels_eq_add, Nat.add_eq_left, List.count_eq_zero]

/-- The dotted capital counts, though none of its two bytes is a vowel. -/
theorem countVowels_dottedCapital :
    let text : Bytes := [0xc4, 0xb0]
    Valid text ∧ decode text = [dottedCapital] ∧ countVowels text = 1 ∧ plainVowels text = 0 := by
  intro text
  exact ⟨valid_iff.mpr ⟨[dottedCapital], by decide⟩, by cbv, by cbv, by cbv⟩

theorem countVowels_append {left right : Bytes} (hValid : Valid left ∨ Valid right) :
    countVowels (left ++ right) = countVowels left + countVowels right := by
  rw [countVowels, decode_append hValid, List.countP_append]
  rfl

theorem countVowels_reverse (text : Bytes) : countVowels (reverse text) = countVowels text := by
  rw [countVowels, decode_reverse, List.countP_reverse]
  rfl

theorem countVowels_map_lowerByte (text : Bytes) :
    countVowels (text.map lowerByte) = countVowels text := by
  have hLower : (fun c => isVowel (lowerChar c)) ∘ Char.toLower =
      fun c => isVowel (lowerChar c) := by
    funext c
    exact congrArg isVowel (lowerChar_toLower c)
  rw [countVowels, decode_map_lowerByte, List.countP_map, hLower, countVowels]

theorem Recased.countVowels_eq {text other : Bytes} (hRecased : Recased text other) :
    countVowels other = countVowels text := by
  rw [← countVowels_map_lowerByte, hRecased.map_lowerByte, countVowels_map_lowerByte]

theorem countVowels_of_plain {text : Bytes} (hPlain : ∀ b ∈ text, b < 0x80) :
    countVowels text = plainVowels text := by
  have hNone : dottedCapital ∉ decode text := by
    intro hMem
    exact absurd (toNat_lt_of_mem_decode hPlain hMem) (by decide)
  rw [countVowels_eq_add, List.count_eq_zero.mpr hNone, Nat.add_zero]

/-- Vowels add up along texts in a row, if one of the two is spelled throughout, and their
number is the same backwards, for all bytes. Letters of one byte can change their case, next
to broken spellings too, and neither the vowels nor a palindrome change, whatever the alphabet
says of other characters. In a text of single bytes the vowels are the bytes that are. -/
theorem countVowels_additive :
    (∀ left right, Valid left ∨ Valid right →
      countVowels (left ++ right) = countVowels left + countVowels right) ∧
    (∀ text, countVowels (reverse text) = countVowels text) ∧
    (∀ text other, Recased text other →
      countVowels other = countVowels text ∧ isPalindrome other = isPalindrome text ∧
      ∀ alphabet : Alphabet, alphabet.ExtendsPlain →
        alphabet.isPalindrome other = alphabet.isPalindrome text) ∧
    ∀ text, (∀ b ∈ text, b < 0x80) → countVowels text = plainVowels text := by
  refine ⟨fun left right => countVowels_append, countVowels_reverse, ?_, ?_⟩
  · intro text other hRecased
    refine ⟨hRecased.countVowels_eq, ?_, fun alphabet hPlain => hPlain.isPalindrome_eq hRecased⟩
    exact Alphabet.extendsPlain_unicode15.isPalindrome_eq hRecased
  · intro text hPlain
    exact countVowels_of_plain hPlain

/-- Two halves of a spelling. Each can stand next to a text that is spelled throughout, but
next to each other they are one more vowel. And letters around a broken spelling, in both
cases. -/
theorem countVowels_halves :
    let whole : Bytes := [0x61, 0xc4, 0xb0]
    let front : Bytes := [0x45, 0xc4]
    let back : Bytes := [0xb0, 0x65]
    let broken : Bytes := [0x61, 0xe2, 0x41, 0x82]
    let recased : Bytes := [0x41, 0xe2, 0x61, 0x82]
    Valid whole ∧ countVowels (front ++ whole) = countVowels front + countVowels whole ∧
      countVowels (front ++ whole) = 3 ∧ countVowels (reverse (front ++ whole)) = 3 ∧
      countVowels (front ++ back) = 3 ∧ countVowels front + countVowels back = 2 ∧
      Recased broken recased ∧ countVowels recased = countVowels broken ∧
      isPalindrome recased = isPalindrome broken ∧ isPalindrome broken = true ∧
      Alphabet.unicode15.ExtendsPlain ∧
      Alphabet.unicode15.isPalindrome recased = Alphabet.unicode15.isPalindrome broken ∧
      countVowels [0x45, 0x62] = plainVowels [0x45, 0x62] := by
  intro whole front back broken recased
  obtain ⟨hAppend, hReverse, hCase, hPlain⟩ := countVowels_additive
  have hWhole : Valid whole := valid_iff.mpr ⟨['a', dottedCapital], by decide⟩
  have hThree : countVowels (front ++ whole) = 3 := by decide +kernel
  have hRecased : Recased broken recased :=
    .cons (.inr (.inr (by decide))) (.cons (.inl rfl)
      (.cons (.inr (.inl (by decide))) (.cons (.inl rfl) .nil)))
  obtain ⟨hVowels, hPalindrome, hAlphabets⟩ := hCase broken recased hRecased
  have hPlainer := Alphabet.extendsPlain_unicode15
  refine ⟨hWhole, hAppend front whole (.inr hWhole), hThree, (hReverse _).trans hThree, ?_, ?_,
    hRecased, hVowels, hPalindrome, ?_, hPlainer, hAlphabets _ hPlainer,
    hPlain [0x45, 0x62] (by decide +kernel)⟩
  · decide +kernel
  · decide +kernel
  · decide +kernel

end Text

end Sequences
