import Sequences.Proofs.Spelling
import Sequences.Text.Reading

/-! Texts read backwards, for all bytes. A text falls into spelled characters
and stray bytes in one way, and this division says how it is read. Reading
backwards twice mends the stray bytes and changes nothing else. -/
namespace Sequences

namespace Utf8

/-- The bytes are spelled characters throughout. -/
def Valid (bytes : Bytes) : Prop := bytes.toByteArray.IsValidUTF8

theorem valid_iff {bytes : Bytes} : Valid bytes ↔ ∃ text, bytes = encode text := by
  constructor
  · rintro ⟨text, hText⟩
    exact ⟨text, List.toByteArray_inj.mp hText⟩
  · rintro ⟨text, rfl⟩
    exact ⟨text, rfl⟩

theorem valid_encode (text : List Char) : Valid (encode text) := valid_iff.mpr ⟨text, rfl⟩

/-- A part of a text: a spelled character, or a byte outside of any. -/
inductive Piece where
  | char (c : Char)
  | stray (b : UInt8)

namespace Piece

def bytes : Piece → Bytes
  | char c => String.utf8EncodeChar c
  | stray b => [b]

/-- The character that is read. -/
def read : Piece → Char
  | char c => c
  | stray _ => replacement

/-- The piece with a stray byte replaced. -/
def mended (piece : Piece) : Bytes := String.utf8EncodeChar piece.read

end Piece

/-- The division of a text from its beginning. A byte is stray only where no
character is spelled, and what follows it is divided anew. -/
inductive Division : Bytes → List Piece → Prop where
  | nil : Division [] []
  | char (c : Char) {rest : Bytes} {pieces : List Piece} (prior : Division rest pieces) :
      Division (String.utf8EncodeChar c ++ rest) (.char c :: pieces)
  | stray (b : UInt8) {tail : Bytes} {pieces : List Piece}
      (hStray : ∀ c rest, b :: tail ≠ String.utf8EncodeChar c ++ rest)
      (prior : Division tail pieces) :
      Division (b :: tail) (.stray b :: pieces)

theorem next?_eq_none_of_stray {bytes : Bytes}
    (hStray : ∀ c rest, bytes ≠ String.utf8EncodeChar c ++ rest) : next? bytes = none := by
  refine Option.eq_none_iff_forall_ne_some.mpr fun found hNext => ?_
  exact hStray found.1 found.2 (next?_eq_some_iff.mp hNext)

theorem exists_division (bytes : Bytes) : ∃ pieces, Division bytes pieces := by
  match bytes with
  | [] => exact ⟨[], .nil⟩
  | b :: tail =>
      match hNext : next? (b :: tail) with
      | some (c, rest) =>
          obtain ⟨pieces, hPieces⟩ := exists_division rest
          rw [next?_eq_some_iff.mp hNext]
          exact ⟨.char c :: pieces, .char c hPieces⟩
      | none =>
          obtain ⟨pieces, hPieces⟩ := exists_division tail
          refine ⟨.stray b :: pieces, .stray b (fun c rest hBytes => ?_) hPieces⟩
          cases hNext.symm.trans (next?_eq_some_iff.mpr hBytes)
termination_by bytes.length
decreasing_by
  · exact length_lt_of_next? hNext
  · exact Nat.lt_succ_self _

namespace Division

variable {bytes : Bytes} {pieces others : List Piece}

theorem bytes_eq (hPieces : Division bytes pieces) : bytes = pieces.flatMap Piece.bytes := by
  induction hPieces with
  | nil => rfl
  | char c prior ih => rw [List.flatMap_cons, ← ih]; rfl
  | stray b hStray prior ih => rw [List.flatMap_cons, ← ih]; rfl

theorem decode_eq (hPieces : Division bytes pieces) : decode bytes = pieces.map Piece.read := by
  induction hPieces with
  | nil => rw [decode]; rfl
  | char c prior ih => rw [decode_spelling_append, ih]; rfl
  | stray b hStray prior ih =>
      rw [decode_cons_of_none (next?_eq_none_of_stray hStray), ih]
      rfl

theorem eq_nil (hPieces : Division bytes pieces) (hBytes : bytes = []) : pieces = [] := by
  cases hPieces with
  | nil => rfl
  | @char c rest _ prior =>
      have hNext := next?_spelling c rest
      rw [hBytes] at hNext
      cases hNext
  | stray b hStray prior => cases hBytes

theorem eq_char_cons {c : Char} {rest : Bytes} (hPieces : Division bytes pieces)
    (hNext : next? bytes = some (c, rest)) :
    ∃ behind, pieces = .char c :: behind ∧ Division rest behind := by
  cases hPieces with
  | nil => cases hNext
  | char d prior =>
      rw [next?_spelling] at hNext
      cases hNext
      exact ⟨_, rfl, prior⟩
  | stray b hStray prior => exact absurd (next?_eq_some_iff.mp hNext) (hStray c rest)

theorem eq_stray_cons {b : UInt8} {tail : Bytes} (hPieces : Division bytes pieces)
    (hNone : next? bytes = none) (hBytes : bytes = b :: tail) :
    ∃ behind, pieces = .stray b :: behind ∧ Division tail behind := by
  cases hPieces with
  | nil => cases hBytes
  | char c prior =>
      rw [next?_spelling] at hNone
      cases hNone
  | stray d hStray prior =>
      cases hBytes
      exact ⟨_, rfl, prior⟩

theorem unique (hPieces : Division bytes pieces) (hOthers : Division bytes others) :
    others = pieces := by
  induction hPieces generalizing others with
  | nil => exact hOthers.eq_nil rfl
  | char c prior ih =>
      obtain ⟨behind, rfl, hBehind⟩ := hOthers.eq_char_cons (next?_spelling c _)
      rw [ih hBehind]
  | stray b hStray prior ih =>
      obtain ⟨behind, rfl, hBehind⟩ :=
        hOthers.eq_stray_cons (next?_eq_none_of_stray hStray) rfl
      rw [ih hBehind]

end Division

theorem encode_map_read (pieces : List Piece) :
    encode (pieces.map Piece.read) = pieces.flatMap Piece.mended :=
  List.flatMap_map ..

end Utf8

namespace Text

open Utf8

theorem decode_reverse (text : Bytes) : decode (reverse text) = (decode text).reverse :=
  decode_encode _

theorem reverse_reverse_eq_encode (text : Bytes) :
    reverse (reverse text) = encode (decode text) := by
  rw [reverse, decode_reverse, List.reverse_reverse]

theorem reverse_reverse_eq_self_iff (text : Bytes) :
    reverse (reverse text) = text ↔ Valid text := by
  rw [reverse_reverse_eq_encode, valid_iff]
  constructor
  · intro hText
    exact ⟨decode text, hText.symm⟩
  · rintro ⟨chars, rfl⟩
    rw [decode_encode]

/-- Reading backwards. The reversed text is spelled throughout, whatever the
bytes were, and has the characters that were read in the opposite order. Twice
reversed, a text comes back with its stray bytes replaced, so it is the same
exactly if it had none. -/
theorem reverse_reverse_mends (text : Bytes) :
    ∃ pieces, Division text pieces ∧ (∀ others, Division text others → others = pieces) ∧
      text = pieces.flatMap Piece.bytes ∧ decode text = pieces.map Piece.read ∧
      Valid (reverse text) ∧ decode (reverse text) = (decode text).reverse ∧
      reverse (reverse text) = pieces.flatMap Piece.mended ∧
      (reverse (reverse text) = text ↔ Valid text) := by
  obtain ⟨pieces, hPieces⟩ := exists_division text
  refine ⟨pieces, hPieces, fun _ => hPieces.unique, hPieces.bytes_eq, hPieces.decode_eq,
    valid_encode _, decode_reverse text, ?_, reverse_reverse_eq_self_iff text⟩
  rw [reverse_reverse_eq_encode, hPieces.decode_eq, encode_map_read]

end Text

end Sequences
