import Sequences.Text.Letters
import Sequences.Text.LowerCase
import Sequences.Text.Utf8

/-!
Reading a text: backwards, without its case, and for its vowels. All of these
look at the characters of the text, so bytes that spell none count as
replacement characters. What is a letter or a digit, and what its lower case
is, changes from one version of the tables to the next, so a palindrome is
told with respect to an alphabet.
-/

namespace Sequences

namespace Text

/-- The characters in reverse order. -/
def reverse (text : Bytes) : Bytes := Utf8.encode (Utf8.decode text).reverse

/-- Every character in lower case. -/
def lower (text : Bytes) : Bytes := Utf8.encode ((Utf8.decode text).map lowerChar)

/-- What is known of characters. -/
structure Alphabet where
  isLetter : Char → Bool
  isDigit : Char → Bool
  lower : Char → Char
  /-- Bytes that spell no character are not taken for letters or digits. -/
  replacement_uncounted : (isLetter Utf8.replacement || isDigit Utf8.replacement) = false

/-- The alphabet of Unicode 15.0.0. -/
def Alphabet.unicode15 : Alphabet :=
  ⟨Text.isLetter, Text.isDigit, lowerChar, by decide +kernel⟩

/-- Compares both ends of the range from `left` to `right`, the latter excluded, and goes on
inwards. What is left in the middle is not compared. -/
def mirrored (letters : Array Char) (left right : Nat) (hRight : right ≤ letters.size) : Bool :=
  if hRange : left + 1 < right then
    letters[left] == letters[right - 1] && mirrored letters (left + 1) (right - 1) (by omega)
  else
    true
termination_by right - left

namespace Alphabet

variable (alphabet : Alphabet)

/-- Letters and digits are compared, and nothing else is. -/
def counts (c : Char) : Bool := alphabet.isLetter c || alphabet.isDigit c

/-- The letters and digits of a text in lower case. -/
def skeleton (text : Bytes) : List Char :=
  ((Utf8.decode text).filter alphabet.counts).map alphabet.lower

/-- The letters and digits are the same forwards and backwards. -/
def isPalindrome (text : Bytes) : Bool :=
  let letters := (alphabet.skeleton text).toArray
  mirrored letters 0 letters.size (Nat.le_refl _)

end Alphabet

def isPalindrome (text : Bytes) : Bool := Alphabet.unicode15.isPalindrome text

def isVowel (c : Char) : Bool := ['a', 'e', 'i', 'o', 'u'].contains c

/-- The characters that are one of five vowels in lower case. -/
def countVowels (text : Bytes) : Nat :=
  (Utf8.decode text).countP fun c => isVowel (lowerChar c)

/-- Texts in the order of their bytes. -/
def sorted (texts : List Bytes) : List Bytes := texts.mergeSort fun x y => (compare x y).isLE

end Text

end Sequences
