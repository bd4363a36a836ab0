import Mathlib.Tactic.Common
import StreamDelay.Proofs.Encoder
import StreamDelay.Rtmp.Amf0

/-! # AMF0 values are read back

Each piece of an encoding is read as what it encodes, whatever follows, and the readers of the pieces
run one after the other. An empty key is followed by a value's marker, which is not the end marker.
-/

namespace StreamDelay.Rtmp.Amf0

open Foundations Foundations.Reader

/-! ## Numbers and strings -/

theorem be32_putU32 (v : UInt32) (x : Bytes) : be32 (putU32 v ++ x) = v := by
  rw [putU32_eq]
  exact be32_bigEndian v x

private theorem be16_putU16 (v : UInt16) : be16 (putU16 v) = v := by
  have small := v.toNat_lt
  apply UInt16.toNat_inj.mp
  simp only [be16, putU16, List.getD_cons_zero, List.getD_cons_succ, UInt16.toNat_ofNat',
    UInt16.toNat_toUInt8, UInt16.toNat_shiftRight, UInt16.toNat_ofNat, Nat.shiftRight_eq_div_pow,
    Nat.reducePow, Nat.reduceMod]
  omega

private theorem be64_putU64 (v : UInt64) : be64 (putU64 v) = v := by
  have small := v.toNat_lt
  have low := be32_putU32 v.toUInt32 []
  rw [List.append_nil] at low
  have rest : (putU64 v).drop 4 = putU32 v.toUInt32 := rfl
  apply UInt64.toNat_inj.mp
  rw [be64, rest, low, putU64, be32_putU32]
  simp only [UInt64.toNat_ofNat', UInt64.toNat_toUInt32, UInt64.toNat_shiftRight, UInt64.toNat_ofNat,
    Nat.shiftRight_eq_div_pow, Nat.reducePow, Nat.reduceMod]
  omega

theorem reads_u8 (b : UInt8) : Reads u8 [b] b := (reads_take Amf0Error.eof [b]).map

theorem reads_u16 (v : UInt16) : Reads u16 (putU16 v) v := by
  have reads := (reads_take Amf0Error.eof (putU16 v)).map (f := be16)
  rwa [be16_putU16] at reads

theorem reads_u32 (v : UInt32) : Reads u32 (putU32 v) v := by
  have reads := (reads_take Amf0Error.eof (putU32 v)).map (f := be32)
  have back := be32_putU32 v []
  rw [List.append_nil] at back
  rwa [back] at reads

theorem reads_f64 (v : UInt64) : Reads f64 (putU64 v) v := by
  have reads := (reads_take Amf0Error.eof (putU64 v)).map (f := be64)
  rwa [be64_putU64] at reads

/-- The bytes of a string, of the length read before them. -/
theorem reads_utf8 {n : ℕ} {s : String} (length : n = (utf8 s).length) :
    Reads (fromUtf8Lossy <$> take n) (utf8 s) s := by
  subst length
  have reads := (reads_take Amf0Error.eof (utf8 s)).map (f := fromUtf8Lossy)
  rwa [fromUtf8Lossy_utf8] at reads

theorem reads_shortString {s : String} (short : Short s) : Reads shortString (putShortString s) s := by
  unfold Short at short
  have whole : putShortString s = putU16 (.ofNat (utf8 s).length) ++ utf8 s := by
    unfold putShortString
    dsimp only
    rw [Nat.min_eq_left short, List.take_length]
  rw [whole]
  refine (reads_u16 _).bind (reads_utf8 ?_)
  rw [UInt16.toNat_ofNat']
  omega

private theorem reads_longString {s : String} (fits : (utf8 s).length < 2 ^ 32) :
    Reads longString (putLongString s) s := by
  refine (reads_u32 _).bind (reads_utf8 ?_)
  rw [UInt32.toNat_ofNat']
  omega

/-! ## Values -/

/-- What an encoding starts with. -/
theorem encode_marker (v : Amf0Value) : ∃ marker rest, encode v = marker :: rest ∧ marker ≠ 0x09 := by
  cases v with
  | string s =>
    unfold encode
    split <;> exact ⟨_, _, rfl, by decide⟩
  | _ => exact ⟨_, _, rfl, by decide⟩

private theorem putShortString_length (s : String) : 2 ≤ (putShortString s).length := by
  simp only [putShortString, putU16, List.length_append, List.length_cons]
  omega

/-- There are fewer properties than bytes in their encoding. -/
theorem putProps_length (props : List (String × Amf0Value)) : props.length < (putProps props).length := by
  induction props with
  | nil => simp [putProps]
  | cons p rest ih =>
    have key := putShortString_length p.1
    simp only [putProps, List.length_append, List.length_cons]
    omega

private theorem encodeItems_length (items : List Amf0Value) : items.length ≤ (encodeItems items).length := by
  induction items with
  | nil => simp
  | cons item rest ih =>
    obtain ⟨marker, more, first, -⟩ := encode_marker item
    simp only [encodeItems, List.length_append, List.length_cons, first]
    omega

/-- A key in front of a value is not taken for the end. -/
theorem reads_atEnd (key : String) (v : Amf0Value) (rest : Bytes) :
    atEnd key (encode v ++ rest) = .ok (false, encode v ++ rest) := by
  obtain ⟨marker, more, first, other⟩ := encode_marker v
  unfold atEnd
  split
  · rw [first]
    dsimp only [List.cons_append]
    rw [if_neg other]
  · rfl

private theorem reads_end : Reads (atEnd "") [0x09] true := fun _ => rfl

/-- The end of the properties, with its marker. -/
theorem propsLoop_end (value : Reader Amf0Value) (fuel : ℕ) :
    Reads (propsLoop value (fuel + 1)) (putProps []) [] :=
  (reads_shortString (s := "") (by decide)).bind (reads_end.bind (reads_pure []))

/-- A property is read before those after it. -/
theorem propsLoop_cons {value : Reader Amf0Value} {fuel : ℕ} {key : String} {v : Amf0Value}
    {props : List (String × Amf0Value)} (short : Short key) (reads : Reads value (encode v) v)
    (others : Reads (propsLoop value fuel) (putProps props) props) :
    Reads (propsLoop value (fuel + 1)) (putProps ((key, v) :: props)) ((key, v) :: props) := by
  have property := reads.bind (f := fun v => do return (key, v) :: (← propsLoop value fuel))
    (others.bind (reads_pure ((key, v) :: props)))
  rw [List.append_nil] at property
  rw [putProps, List.append_assoc]
  refine (reads_shortString short).bind fun rest => ?_
  have goes := reads_atEnd key v (putProps props ++ rest)
  rw [← List.append_assoc] at goes
  show (atEnd key (encode v ++ putProps props ++ rest)).bind _ = _
  rw [goes]
  exact property rest

private theorem itemsLoop_cons {value : Reader Amf0Value} {n : ℕ} {item : Amf0Value} {items : List Amf0Value}
    (reads : Reads value (encode item) item)
    (others : Reads (itemsLoop value n) (encodeItems items) items) :
    Reads (itemsLoop value (n + 1)) (encodeItems (item :: items)) (item :: items) := by
  rw [encodeItems]
  exact reads.bind (others.map (f := fun rest => item :: rest))

/-- The properties, with rounds enough for them. -/
theorem reads_props {value : Reader Amf0Value} {props : List (String × Amf0Value)}
    (loop : ∀ fuel, props.length < fuel → Reads (propsLoop value fuel) (putProps props) props) :
    Reads (Amf0.props value) (putProps props) props := by
  intro rest
  refine loop _ ?_ rest
  have enough := putProps_length props
  rw [List.length_append]
  omega

private theorem reads_items {value : Reader Amf0Value} {items : List Amf0Value}
    (loop : Reads (itemsLoop value items.length) (encodeItems items) items) :
    Reads (Amf0.items value items.length) (encodeItems items) items := by
  intro rest
  have enough := encodeItems_length items
  unfold Amf0.items
  rw [if_neg (by rw [List.length_append]; omega)]
  exact loop rest

mutual

theorem reads_value : ∀ (v : Amf0Value) (levels : ℕ), depth v ≤ levels → Fits v →
    Reads (value (levels + 1)) (encode v) v
  | .number n, _, _, _ => (reads_u8 0x00).bind (reads_f64 n).map
  | .boolean b, _, _, _ => by
    cases b <;> exact (reads_u8 0x01).bind (reads_u8 _).map
  | .string s, _, _, fits => by
    have short : Short s := fits
    unfold Short at short
    rw [encode, if_pos short]
    exact (reads_u8 0x02).bind (reads_shortString fits).map
  | .longString s, _, _, fits => (reads_u8 0x0c).bind (reads_longString fits).map
  | .null, _, _, _ => (reads_u8 0x05).bind (reads_pure _)
  | .undefined, _, _, _ => (reads_u8 0x06).bind (reads_pure _)
  | .date millis tz, _, _, _ => by
    have reads := (reads_f64 millis).bind (f := fun millis => do return Amf0Value.date millis (← u16).toInt16)
      ((reads_u16 tz.toUInt16).bind (reads_pure _))
    rw [List.append_nil, Int16.toInt16_toUInt16] at reads
    exact (reads_u8 0x0b).bind reads
  | .object props, levels, deep, fits =>
    (reads_u8 0x03).bind (reads_props fun fuel => reads_propsLoop props levels fuel deep fits).map
  | .ecmaArray props, levels, deep, fits =>
    (reads_u8 0x08).bind ((reads_u32 _).bind
      (reads_props fun fuel => reads_propsLoop props levels fuel deep fits).map)
  | .typedObject class_ props, levels, deep, fits =>
    (reads_u8 0x10).bind ((reads_shortString fits.1).bind
      (reads_props fun fuel => reads_propsLoop props levels fuel deep fits.2).map)
  | .strictArray items, levels, deep, fits => by
    have count : (UInt32.ofNat items.length).toNat = items.length := by
      have small := fits.1
      rw [UInt32.toNat_ofNat']
      omega
    have reads := (reads_items (reads_itemsLoop items levels deep fits.2)).map (f := Amf0Value.strictArray)
    rw [← count] at reads
    exact (reads_u8 0x0a).bind ((reads_u32 _).bind reads)

theorem reads_propsLoop : ∀ (props : List (String × Amf0Value)) (levels fuel : ℕ),
    propsDepth props ≤ levels → PropsFit props → props.length < fuel →
    Reads (propsLoop (value levels) fuel) (putProps props) props
  | [], _, fuel + 1, _, _, _ => propsLoop_end _ fuel
  | (key, v) :: rest, levels, fuel + 1, deep, fits, enough => by
    have deeper : depth v + 1 ≤ levels ∧ propsDepth rest ≤ levels := Nat.max_le.mp deep
    obtain ⟨lower, rfl⟩ : ∃ lower, levels = lower + 1 := ⟨levels - 1, by omega⟩
    exact propsLoop_cons fits.1 (reads_value v lower (Nat.le_of_succ_le_succ deeper.1) fits.2.1)
      (reads_propsLoop rest (lower + 1) fuel deeper.2 fits.2.2 (Nat.lt_of_succ_lt_succ enough))

theorem reads_itemsLoop : ∀ (items : List Amf0Value) (levels : ℕ), itemsDepth items ≤ levels →
    ItemsFit items → Reads (itemsLoop (value levels) items.length) (encodeItems items) items
  | [], _, _, _ => reads_pure []
  | item :: rest, levels, deep, fits => by
    have deeper : depth item + 1 ≤ levels ∧ itemsDepth rest ≤ levels := Nat.max_le.mp deep
    obtain ⟨lower, rfl⟩ : ∃ lower, levels = lower + 1 := ⟨levels - 1, by omega⟩
    exact itemsLoop_cons (reads_value item lower (Nat.le_of_succ_le_succ deeper.1) fits.1)
      (reads_itemsLoop rest (lower + 1) deeper.2 fits.2)

end

/-- A value whose lengths fit, nested at most as deep as is read, is read back from its encoding. -/
theorem reads_topValue {v : Amf0Value} (shallow : depth v ≤ MAX_DEPTH) (fits : Fits v) :
    Reads topValue (encode v) v := reads_value v MAX_DEPTH shallow fits

theorem decodeOne_encode {v : Amf0Value} (shallow : depth v ≤ MAX_DEPTH) (fits : Fits v) (rest : Bytes) :
    decodeOne (encode v ++ rest) = .ok (v, (encode v).length) := by
  unfold decodeOne
  rw [reads_topValue shallow fits rest]
  simp only [bind, Except.bind, pure, Except.pure, List.length_append, Nat.add_sub_cancel]

theorem decodeLoop_encode {fuel : ℕ} (values : List Amf0Value) (enough : (encodeAll values).length ≤ fuel)
    (proper : ∀ v ∈ values, depth v ≤ MAX_DEPTH ∧ Fits v) :
    decodeLoop fuel (encodeAll values) = .ok values := by
  induction values generalizing fuel with
  | nil => cases fuel <;> rfl
  | cons v rest ih =>
    obtain ⟨shallow, fits⟩ := proper v (List.mem_cons_self ..)
    obtain ⟨marker, more, first, -⟩ := encode_marker v
    have both : encodeAll (v :: rest) = encode v ++ encodeAll rest := rfl
    have read := reads_topValue shallow fits (encodeAll rest)
    rw [both, List.length_append, first, List.length_cons] at enough
    obtain ⟨left, rfl⟩ : ∃ left, fuel = left + 1 := ⟨fuel - 1, by omega⟩
    have later := @ih left (by omega) fun v member => proper v (List.mem_cons_of_mem _ member)
    rw [both]
    rw [first, List.cons_append] at read ⊢
    simp only [decodeLoop, read, bind, Except.bind, later]
    rfl

end StreamDelay.Rtmp.Amf0
