import Sequences.Proofs.Reversal

/-! Texts in a row. Bytes of two texts can spell a character together, but not if one of the
two is spelled throughout: the first byte of a spelling never continues another, and all its
other bytes do. Then the row is divided at the seam and on both sides as before. -/
namespace Sequences

namespace Utf8

/-- Such bytes stand only inside of spellings. -/
def Continues (b : UInt8) : Prop := 0x80 ≤ b ∧ b < 0xc0

/-- The bytes do not begin in the middle of a spelling. -/
def Resumes (bytes : Bytes) : Prop := ∀ b ∈ bytes.head?, ¬Continues b

theorem continues_of_mem_continuing {more code : Nat} {b : UInt8}
    (hb : b ∈ continuing more code) : Continues b := by
  induction more with
  | zero => cases hb
  | succ more ih =>
      rcases List.mem_cons.mp hb with rfl | hb
      · rw [Continues, isContinuing_iff, UInt8.toNat_ofNat']
        omega
      · exact ih hb

theorem not_continues_of_lead? {b : UInt8} {lead : Lead} (hLead : lead? b = some lead) :
    ¬Continues b := by
  rw [Continues, isContinuing_iff]
  have hRange := lead?_eq_some_iff.mp hLead
  omega

theorem exists_spelling (c : Char) : ∃ b behind, String.utf8EncodeChar c = b :: behind ∧
    ¬Continues b ∧ ∀ d ∈ behind, Continues d := by
  obtain ⟨b, lead, hLead, hBits, hLeast⟩ := exists_lead c
  exact ⟨b, _, utf8EncodeChar_eq_of_lead hLead hBits hLeast, not_continues_of_lead? hLead,
    fun _ => continues_of_mem_continuing⟩

theorem resumes_of_valid {bytes : Bytes} (hValid : Valid bytes) : Resumes bytes := by
  obtain ⟨text, rfl⟩ := valid_iff.mp hValid
  cases text with
  | nil =>
      intro b hb
      cases hb
  | cons c text =>
      obtain ⟨first, behind, hSpelling, hFirst, -⟩ := exists_spelling c
      intro b hb
      rw [encode_cons, hSpelling] at hb
      cases hb
      exact hFirst

/-- No character begins with the stray byte and ends behind the seam, since the byte behind
the seam would be inside of its spelling. -/
theorem stray_append {b : UInt8} {tail bytes : Bytes}
    (hStray : ∀ c rest, b :: tail ≠ String.utf8EncodeChar c ++ rest) (hBytes : Resumes bytes)
    (c : Char) (rest : Bytes) : b :: (tail ++ bytes) ≠ String.utf8EncodeChar c ++ rest := by
  intro hEq
  obtain ⟨first, behind, hSpelling, -, hBehind⟩ := exists_spelling c
  rw [← List.cons_append] at hEq
  -- The spelling reaches beyond the seam, or it ends before.
  rcases List.append_eq_append_iff.mp hEq with ⟨beyond, hChar, hRest⟩ | ⟨between, hTail, -⟩
  · cases beyond with
    | nil => exact hStray c [] (by rw [hChar]; simp)
    | cons d beyond =>
        rw [hSpelling, List.cons_append] at hChar
        obtain ⟨-, rfl⟩ := List.cons.inj hChar
        refine hBytes d ?_ (hBehind d (by simp))
        rw [hRest]
        rfl
  · exact hStray c between hTail

namespace Division

variable {left right : Bytes} {pieces others : List Piece}

theorem append_of_resumes (hPieces : Division left pieces) (hOthers : Division right others)
    (hRight : Resumes right) : Division (left ++ right) (pieces ++ others) := by
  induction hPieces with
  | nil => exact hOthers
  | char c prior ih =>
      rw [List.append_assoc]
      exact .char c ih
  | stray b hStray prior ih => exact .stray b (stray_append hStray hRight) ih

theorem encode_append (text : List Char) (hOthers : Division right others) :
    Division (encode text ++ right) (text.map Piece.char ++ others) := by
  induction text with
  | nil => exact hOthers
  | cons c text ih =>
      rw [encode_cons, List.append_assoc]
      exact .char c ih

theorem append (hPieces : Division left pieces) (hOthers : Division right others)
    (hValid : Valid left ∨ Valid right) : Division (left ++ right) (pieces ++ others) := by
  rcases hValid with hLeft | hRight
  · obtain ⟨text, rfl⟩ := valid_iff.mp hLeft
    have hText : Division (encode text) (text.map Piece.char) := by
      simpa using encode_append text .nil
    rw [hText.unique hPieces]
    exact encode_append text hOthers
  · exact hPieces.append_of_resumes hOthers (resumes_of_valid hRight)

end Division

theorem decode_append {left right : Bytes} (hValid : Valid left ∨ Valid right) :
    decode (left ++ right) = decode left ++ decode right := by
  obtain ⟨pieces, hPieces⟩ := exists_division left
  obtain ⟨others, hOthers⟩ := exists_division right
  rw [(hPieces.append hOthers hValid).decode_eq, hPieces.decode_eq, hOthers.decode_eq,
    List.map_append]

end Utf8

namespace Text

open Utf8

theorem reverse_eq_of_division {text : Bytes} {pieces : List Piece}
    (hPieces : Division text pieces) : reverse text = pieces.reverse.flatMap Piece.mended := by
  rw [reverse, hPieces.decode_eq, ← List.map_reverse, encode_map_read]

/-- Backwards, two texts in a row change places, if one of them is spelled throughout. The
other may hold any bytes, also such as begin or end in the middle of a spelling: the row falls
into the pieces of both texts, and these are what is written backwards. -/
theorem reverse_append (left right : Bytes) (hValid : Valid left ∨ Valid right) :
    reverse (left ++ right) = reverse right ++ reverse left ∧
      ∃ pieces others, Division left pieces ∧ Division right others ∧
        Division (left ++ right) (pieces ++ others) ∧
        reverse (left ++ right) = (pieces ++ others).reverse.flatMap Piece.mended := by
  obtain ⟨pieces, hPieces⟩ := exists_division left
  obtain ⟨others, hOthers⟩ := exists_division right
  have hBoth := hPieces.append hOthers hValid
  have hReverse := reverse_eq_of_division hBoth
  refine ⟨?_, pieces, others, hPieces, hOthers, hBoth, hReverse⟩
  rw [hReverse, List.reverse_append, List.flatMap_append, reverse_eq_of_division hPieces,
    reverse_eq_of_division hOthers]

/-- A text that breaks off inside of a spelling, and one that begins inside of it. Each
changes places with a text that is spelled throughout, but they do not with each other. -/
theorem reverse_append_broken :
    let whole : Bytes := [0xc3, 0xa9, 0x62]
    let broken : Bytes := [0x61, 0xe2, 0x82]
    let loose : Bytes := [0xac, 0x63]
    Valid whole ∧ reverse (broken ++ whole) = reverse whole ++ reverse broken ∧
      reverse (whole ++ loose) = reverse loose ++ reverse whole ∧
      reverse (broken ++ whole) = [0x62, 0xc3, 0xa9, 0xef, 0xbf, 0xbd, 0xef, 0xbf, 0xbd, 0x61] ∧
      reverse (broken ++ loose) = [0x63, 0xe2, 0x82, 0xac, 0x61] ∧
      reverse loose ++ reverse broken =
        [0x63, 0xef, 0xbf, 0xbd, 0xef, 0xbf, 0xbd, 0xef, 0xbf, 0xbd, 0x61] := by
  intro whole broken loose
  have hWhole : Valid whole := valid_iff.mpr ⟨['é', 'b'], by decide⟩
  exact ⟨hWhole, (reverse_append broken whole (.inr hWhole)).1,
    (reverse_append whole loose (.inl hWhole)).1, by cbv, by cbv, by cbv⟩

end Text

end Sequences
