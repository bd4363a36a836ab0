import Mathlib.Tactic.Common

/-! # Strings as UTF-8

A string's bytes, and the string of bytes that may not be UTF-8: the longest start of a character that
is not one whole becomes a replacement character.
-/

namespace StreamDelay.Foundations

def REPLACEMENT_CHARACTER : Char := .ofNat 0xFFFD

/-- The bytes of a string. -/
def utf8 (s : String) : List UInt8 := s.toByteArray.data.toList

theorem utf8_append (s t : String) : utf8 (s ++ t) = utf8 s ++ utf8 t := by
  rw [utf8, String.toByteArray_append, ByteArray.data_append, Array.toList_append]
  rfl

/-- The character a sequence of bytes starts with, if it starts with a whole one. -/
def firstChar? (bytes : List UInt8) : Option Char := bytes.toByteArray.utf8DecodeChar? 0

/-- A continuation byte in the range `low` to `high`. -/
def continues (low high : UInt8) (byte : UInt8) : Bool := low ≤ byte && byte ≤ high

/-- How many bytes are replaced where no whole character starts: those a character could start with. -/
def brokenLength (bytes : List UInt8) : ℕ :=
  let second := bytes.getD 1 0
  let third := bytes.getD 2 0
  match (bytes.getD 0 0).toNat with
  | 0xE0 => if continues 0xA0 0xBF second then 2 else 1
  | 0xED => if continues 0x80 0x9F second then 2 else 1
  | 0xF0 => if continues 0x90 0xBF second then if continues 0x80 0xBF third then 3 else 2 else 1
  | 0xF4 => if continues 0x80 0x8F second then if continues 0x80 0xBF third then 3 else 2 else 1
  | n =>
    if 0xE1 ≤ n ∧ n ≤ 0xEF then if continues 0x80 0xBF second then 2 else 1
    else if 0xF1 ≤ n ∧ n ≤ 0xF3 then
      if continues 0x80 0xBF second then if continues 0x80 0xBF third then 3 else 2 else 1
    else 1

/-- The characters of a sequence of bytes; every round takes at least one. -/
def lossyLoop : ℕ → List UInt8 → List Char
  | 0, _ => []
  | _ + 1, [] => []
  | fuel + 1, byte :: rest =>
    match firstChar? (byte :: rest) with
    | some c => c :: lossyLoop fuel ((byte :: rest).drop c.utf8Size)
    | none =>
      REPLACEMENT_CHARACTER :: lossyLoop fuel ((byte :: rest).drop (brokenLength (byte :: rest)))

/-- Rust's `String::from_utf8_lossy`. -/
def fromUtf8Lossy (bytes : List UInt8) : String := .ofList (lossyLoop bytes.length bytes)

theorem utf8_eq (s : String) : utf8 s = s.toList.flatMap String.utf8EncodeChar := by
  unfold utf8
  rw [← String.utf8Encode_toList, List.utf8Encode, List.data_toByteArray]

theorem firstChar?_encode (c : Char) (rest : List UInt8) :
    firstChar? (String.utf8EncodeChar c ++ rest) = some c := by
  unfold firstChar?
  rw [List.toByteArray_append]
  exact ByteArray.utf8DecodeChar?_utf8EncodeChar_append

/-- The bytes of characters are read back as those characters. -/
theorem lossyLoop_encode {fuel : ℕ} (chars : List Char)
    (enough : (chars.flatMap String.utf8EncodeChar).length ≤ fuel) :
    lossyLoop fuel (chars.flatMap String.utf8EncodeChar) = chars := by
  induction chars generalizing fuel with
  | nil => cases fuel <;> rfl
  | cons c rest ih =>
    have size := String.length_utf8EncodeChar c
    have positive := c.utf8Size_pos
    rw [List.flatMap_cons] at enough ⊢
    rw [List.length_append] at enough
    have first := firstChar?_encode c (rest.flatMap String.utf8EncodeChar)
    have skip : (String.utf8EncodeChar c ++ rest.flatMap String.utf8EncodeChar).drop c.utf8Size =
        rest.flatMap String.utf8EncodeChar := by
      rw [← size, List.drop_left]
    cases bytes : String.utf8EncodeChar c ++ rest.flatMap String.utf8EncodeChar with
    | nil =>
      have none := congrArg List.length bytes
      rw [List.length_append, List.length_nil] at none
      omega
    | cons byte more =>
      rw [bytes] at first skip
      obtain ⟨left, rfl⟩ : ∃ left, fuel = left + 1 := ⟨fuel - 1, by omega⟩
      simp only [lossyLoop, first, skip]
      rw [ih (by omega)]

theorem fromUtf8Lossy_utf8 (s : String) : fromUtf8Lossy (utf8 s) = s := by
  unfold fromUtf8Lossy
  rw [utf8_eq, lossyLoop_encode _ (Nat.le_refl _), String.ofList_toList]

end StreamDelay.Foundations
