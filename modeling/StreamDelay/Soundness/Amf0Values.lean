import Mathlib.Tactic.Common
import StreamDelay.Proofs.Amf0

/-! # AMF0 values round-trip

What is encoded is decoded to what it was, alone, in a sequence or with other bytes after it. A strict
array's count has 32 bits, and an array with more elements is encoded as one with fewer.
-/

namespace StreamDelay.Rtmp.Amf0

open Foundations Foundations.Reader

/-- Values whose lengths fit the fields of their encoding, nested no deeper than the decoder goes, are
read back: all of them from their encodings one after the other, and each from its own encoding whatever
bytes follow. -/
theorem values_read_back (values : List Amf0Value)
    (proper : ∀ v ∈ values, depth v ≤ MAX_DEPTH ∧ Fits v) :
    decodeAll (encodeAll values) = .ok values ∧
      ∀ v ∈ values, ∀ rest, decodeOne (encode v ++ rest) = .ok (v, (encode v).length) :=
  ⟨decodeLoop_encode values (Nat.le_refl _) proper,
    fun v member rest => decodeOne_encode (proper v member).1 (proper v member).2 rest⟩

/-- An object with an empty key in front of another, an empty array in one, and a date. -/
theorem values_read_back_nested :
    let values : List Amf0Value :=
      [.object [("", .null), ("é", .strictArray [.ecmaArray [], .longString ""])],
        .date 0x3FF0000000000000 (-60), .typedObject "" [("", .string "a")]]
    decodeAll (encodeAll values) = .ok values ∧
      ∀ v ∈ values, ∀ rest, decodeOne (encode v ++ rest) = .ok (v, (encode v).length) := by
  refine values_read_back _ fun v member => ?_
  simp only [List.mem_cons, List.not_mem_nil, or_false] at member
  obtain rfl | rfl | rfl := member
  · exact ⟨by decide, by decide, trivial, by decide,
      ⟨by decide, trivial, show (utf8 "").length < 2 ^ 32 by decide, trivial⟩, trivial⟩
  · exact ⟨by decide, trivial⟩
  · exact ⟨by decide, by decide, by decide, show Short "a" by decide, trivial⟩

/-- The count of a strict array wraps: a multiple of 2^32 elements is read as none, and the elements are
values of their own after it. -/
theorem wrapped_count {items : List Amf0Value} (wraps : items.length % 2 ^ 32 = 0) (rest : Bytes) :
    topValue (encode (.strictArray items) ++ rest) = .ok (.strictArray [], encodeItems items ++ rest) := by
  have none : UInt32.ofNat items.length = 0 := by
    apply UInt32.toNat_inj.mp
    rw [UInt32.toNat_ofNat', wraps]
    rfl
  have empty : Reads (Amf0.items (value MAX_DEPTH) 0) [] [] := fun left => by
    unfold Amf0.items
    rw [if_neg (Nat.not_lt_zero _)]
    rfl
  have reads : Reads topValue (0x0a :: putU32 0) (.strictArray []) :=
    (reads_u8 0x0a).bind ((reads_u32 0).bind (empty.map (f := Amf0Value.strictArray)))
  have bytes : encode (.strictArray items) ++ rest =
      (0x0a :: putU32 0) ++ (encodeItems items ++ rest) := by
    rw [encode, none, List.cons_append, List.cons_append, List.append_assoc]
  rw [bytes]
  exact reads (encodeItems items ++ rest)

/-- An array of 2^32 nulls is not read back. -/
theorem array_not_read_back :
    decodeAll (encodeAll [.strictArray (List.replicate (2 ^ 32) .null)]) ≠
      .ok [.strictArray (List.replicate (2 ^ 32) .null)] := by
  have length : (List.replicate (2 ^ 32) Amf0Value.null).length = 2 ^ 32 := List.length_replicate
  generalize List.replicate (2 ^ 32) Amf0Value.null = items at length
  have read := @wrapped_count items (by rw [length, Nat.mod_self]) []
  intro same
  rw [decodeAll, encodeAll, List.flatMap_singleton] at same
  rw [List.append_nil] at read
  obtain ⟨marker, more, first, -⟩ := encode_marker (.strictArray items)
  rw [first] at same read
  simp only [List.length_cons, decodeLoop, read, bind, Except.bind, pure, Except.pure] at same
  split at same
  · contradiction
  · have head := (List.cons.inj (Except.ok.inj same)).1
    have none : items = [] := (Amf0Value.strictArray.inj head).symm
    rw [none] at length
    contradiction

end StreamDelay.Rtmp.Amf0
