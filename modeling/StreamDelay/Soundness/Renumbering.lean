import StreamDelay.Proofs.Framing
import StreamDelay.Soundness.Emulation

/-! # Renumbering changes the order counts only

A message that is written in another form has the same NAL units, each with its length before it; those that are
changed are slices with other bits in the place of their order count.
-/

namespace StreamDelay.Flv.Hevc

open Foundations Bits

variable {b rest nal nal' out payload : Bytes} {start width v i n : ℕ} {p : Packet} {g : PocGuard} {s : Slice}

/-! ## The end of an RBSP -/

/-- The zero bytes at the end are those behind any byte that is not zero. -/
theorem zerosAtEnd_behind {k : ℕ} {x : UInt8} (there : b[k]? = some x) (other : x ≠ 0) :
    zerosAtEnd b = zerosAtEnd (b.drop (k + 1)) := by
  obtain ⟨inside, rfl⟩ := List.getElem?_eq_some_iff.mp there
  have split : b = b.take k ++ b[k] :: b.drop (k + 1) := by
    rw [← List.drop_eq_getElem_cons inside, List.take_append_drop]
  rw [zerosAtEnd_eq, zerosAtEnd_eq, zerosAfter]
  conv_lhs => rw [split]
  rw [List.foldl_append, List.foldl_cons, if_neg other]
  rfl

/-- A byte with a set bit is not zero. -/
theorem byte_of_set (set : bitAt b i = some true) : ∃ x, b[i / 8]? = some x ∧ x ≠ 0 := by
  obtain ⟨x, there, bit⟩ := Option.map_eq_some_iff.mp set
  refine ⟨x, there, ?_⟩
  rintro rfl
  rw [show (0 : UInt8).toNat = 0 from rfl, Nat.zero_testBit] at bit
  contradiction

/-- Bits overwritten before a set bit do not change the zero bytes at the end. -/
theorem zerosAtEnd_putBits (set : bitAt b i = some true) (before : start + width ≤ i) :
    zerosAtEnd (putBits b start width v) = zerosAtEnd b := by
  have still : bitAt (putBits b start width v) i = some true := by
    rw [bitAt_putBits, if_neg (by omega), set]
  obtain ⟨x, there, other⟩ := byte_of_set set
  obtain ⟨x', there', other'⟩ := byte_of_set still
  have same : (putBits b start width v).drop (i / 8 + 1) = b.drop (i / 8 + 1) := by
    refine List.ext_getElem? fun k => ?_
    rw [List.getElem?_drop, List.getElem?_drop, getElem?_putBits b start width v (.inr (by omega))]
  rw [zerosAtEnd_behind there other, zerosAtEnd_behind there' other', same]

/-- Where no three zero bytes are in a row and the last byte is not zero, the zero bytes at the end come in pairs. -/
theorem zerosAfter_unescapeLoop {zeros n : ℕ} (nal : Bytes) (apart : ¬[0, 0, 0] <:+: List.replicate zeros 0 ++ nal)
    (parity : n % 2 = zeros % 2) (ending : nal.getLast? ≠ some 0) (stop : nal = [] → n % 2 = 0) :
    zerosAfter n (unescapeLoop zeros nal) % 2 = 0 := by
  induction nal generalizing zeros n with
  | nil => exact stop rfl
  | cons b rest ih =>
    have later : rest.getLast? ≠ some 0 := by
      intro zero
      rw [List.getLast?_cons, zero] at ending
      exact ending rfl
    have behind : ¬[0, 0, 0] <:+: rest := fun triple =>
      apart (triple.trans ((List.suffix_cons b rest).trans (List.suffix_append ..)).isInfix)
    unfold unescapeLoop
    split
    · next marked =>
      have few : zeros < 3 := by
        by_contra many
        refine apart (List.IsInfix.trans ?_ (List.prefix_append ..).isInfix)
        rw [show zeros = 3 + (zeros - 3) by omega, List.replicate_add]
        exact (List.prefix_append ..).isInfix
      have even : n % 2 = 0 := by omega
      exact ih (by simpa using behind) even later fun _ => even
    · rw [zerosAfter, List.foldl_cons]
      by_cases zero : b = 0
      · subst zero
        rw [if_pos rfl, if_pos rfl]
        refine ih (fun triple => apart ?_) (by omega) later fun empty => ?_
        · rwa [List.replicate_succ', List.append_assoc] at triple
        · rw [empty] at ending
          exact absurd rfl ending
      · rw [if_neg zero, if_neg zero]
        exact ih (by simpa using behind) rfl later fun _ => rfl

/-! ## One NAL unit -/

/-- A NAL unit of the base layer with a slice that has an order count by its type: not of an IDR picture. -/
def SliceUnit (nal : Bytes) : Prop :=
  ∃ b0 b1 rest, nal = b0 :: b1 :: rest ∧ layerId b0 b1 = 0 ∧ nalType b0 < 32 ∧ isIdr (nalType b0) = false

/-- With emulation prevention removed, a NAL unit ends in an even number of zero bytes. -/
def EndsEven (nal : Bytes) : Prop := zerosAtEnd (unescape nal) % 2 = 0

private theorem endsEven_of (ending : nal.getLast? ≠ some 0) (apart : ¬[0, 0, 0] <:+: nal) : EndsEven nal := by
  unfold EndsEven
  rw [zerosAtEnd_eq]
  exact zerosAfter_unescapeLoop nal apart rfl ending fun _ => rfl

/-- What is written for a NAL unit: itself, or a slice that differs in the bits of its order count only. -/
inductive Rewritten (sets : ParameterSets) (nal : Bytes) : Bytes → Prop
  | same : Rewritten sets nal nal
  | moved {nal' : Bytes} {s : Slice} {start width lsb : ℕ} (slice : SliceUnit nal)
      (read : sets.slice (unescape (nal.take SLICE_HEADER_BYTES)) (nalType (nal.getD 0 0)) = some s)
      (count : s.lsb = some (start, width, lsb)) (length : (unescape nal').length = (unescape nal).length)
      (inside : start + width ≤ (unescape nal).length * 8)
      (elsewhere : ∀ i, i < start ∨ start + width ≤ i → bitAt (unescape nal') i = bitAt (unescape nal) i)
      (clear : NoStartCode nal') : Rewritten sets nal nal'

/-- An IDR picture has no order count to write over. -/
theorem idr_lsb {sets : ParameterSets} {t : UInt8} (idr : isIdr t = true) :
    Yields (sets.sliceReader t) fun s => s.lsb = none := by
  refine (Yields.any _).bind fun first _ => (Yields.any _).bind fun _ _ => (Yields.any _).bind fun id _ => ?_
  split
  · exact Yields.failure
  · split
    · exact Yields.failure
    · split
      · exact Yields.failure
      · refine (Yields.any _).bind fun dependent _ => ?_
        cases dependent with
        | true => exact Yields.pure rfl
        | false =>
          refine (Yields.any _).bind fun _ _ => ?_
          rw [if_pos idr]
          exact Yields.pure rfl

/-- Behind the order count of a slice comes a set bit. -/
theorem slice_set {sets : ParameterSets} {t : UInt8} {lsb : ℕ} (read : sets.slice (unescape (nal.take n)) t = some s)
    (count : s.lsb = some (start, width, lsb)) :
    ∃ i, start + width ≤ i ∧ bitAt (unescape nal) i = some true := by
  obtain ⟨⟨s', r⟩, found, rfl⟩ := Option.map_eq_some_iff.mp read
  obtain ⟨pos', rfl, -, -, counts, -⟩ := Renumbers.sliceReader sets t _ _ s' r found
  obtain ⟨-, i, after, -, set⟩ := counts start width lsb count
  refine ⟨i, after, ?_⟩
  have early := unescape_front (nal.take n) (nal.drop n)
  rw [List.take_append_drop] at early
  rw [bitAt_front early (bitAt_isSome.mp (Option.isSome_of_eq_some set)), set]

private theorem moved_rewritten {sets : ParameterSets} {shift : ℕ} (slice : SliceUnit nal) (even : EndsEven nal)
    (read : sets.slice (unescape (nal.take SLICE_HEADER_BYTES)) (nalType (nal.getD 0 0)) = some s)
    (changed : PocGuard.moved shift s nal = some nal') : Rewritten sets nal nal' := by
  unfold PocGuard.moved at changed
  split at changed
  · next start width lsb count =>
    split at changed
    · obtain rfl := Option.some.inj changed
      obtain ⟨i, after, set⟩ := slice_set read count
      have inside := bitAt_isSome.mp (Option.isSome_of_eq_some set)
      have back : unescape (escape (putBits (unescape nal) start width ((lsb + shift) % 2 ^ width))) =
          putBits (unescape nal) start width ((lsb + shift) % 2 ^ width) := by
        refine unescape_escape ?_
        rw [zerosAtEnd_putBits set after]
        exact even
      refine .moved slice read count ?_ (by omega) (fun i outside => ?_) (escape_noStartCode _)
      · rw [back, length_putBits]
      · rw [back, bitAt_putBits, if_neg (by omega)]
    · contradiction
  · contradiction

private theorem slice_rewritten {tid : ℕ} {b0 b1 : UInt8} (base : layerId b0 b1 = 0) (vcl : nalType b0 < 32)
    (even : SliceUnit (b0 :: b1 :: rest) → EndsEven (b0 :: b1 :: rest)) :
    ∃ new, (p.slice (nalType b0) tid (b0 :: b1 :: rest)).2 = [new] ∧
      Rewritten p.guard.toParameterSets (b0 :: b1 :: rest) (new.getD (b0 :: b1 :: rest)) := by
  unfold Packet.slice
  split
  · exact ⟨none, rfl, .same⟩
  · next s read =>
    refine ⟨_, rfl, ?_⟩
    cases changed : PocGuard.moved (if s.first then p.guard.picture (nalType b0) tid s p.eos else p.guard).shift s
        (b0 :: b1 :: rest) with
    | none => exact .same
    | some nal' =>
      have other : isIdr (nalType b0) = false := by
        rw [← Bool.not_eq_true]
        intro idr
        obtain ⟨⟨s', r⟩, found, rfl⟩ := Option.map_eq_some_iff.mp read
        have count := idr_lsb idr _ _ _ found
        unfold PocGuard.moved at changed
        rw [count] at changed
        contradiction
      have slice : SliceUnit (b0 :: b1 :: rest) := ⟨b0, b1, rest, rfl, base, vcl, other⟩
      exact moved_rewritten slice (even slice) read changed

/-- A NAL unit is written as it came, or is a slice moved. -/
theorem unit_rewritten (p : Packet) (even : SliceUnit nal → EndsEven nal) :
    ∃ new, (p.unit nal).2 = [new] ∧ Rewritten p.guard.toParameterSets nal (new.getD nal) := by
  unfold Packet.unit
  split
  · next b0 b1 rest =>
    dsimp only
    split
    · split <;> exact ⟨none, rfl, .same⟩
    · split
      · split
        · exact ⟨none, rfl, .same⟩
        · split <;> exact ⟨none, rfl, .same⟩
      · next slice =>
        obtain ⟨base, vcl⟩ := not_or.mp slice
        split
        · exact ⟨none, rfl, .same⟩
        · next tid layer =>
          exact slice_rewritten (of_not_not base) (UInt8.not_le.mp vcl) even
  · exact ⟨none, rfl, .same⟩

/-! ## The NAL units of a packet -/

/-- Every NAL unit of a packet is written as it came or is a slice moved, one after the other. -/
inductive AllRewritten : Packet → List Bytes → List Bytes → Prop
  | nil {p : Packet} : AllRewritten p [] []
  | cons {p : Packet} {nal nal' : Bytes} {nals nals' : List Bytes} (here : Rewritten p.guard.toParameterSets nal nal')
      (later : AllRewritten (p.unit nal).1 nals nals') : AllRewritten p (nal :: nals) (nal' :: nals')

private theorem allRewritten (p : Packet) {nals : List Bytes} (even : ∀ nal ∈ nals, SliceUnit nal → EndsEven nal) :
    AllRewritten p nals (p.written nals) := by
  induction nals generalizing p with
  | nil => exact .nil
  | cons nal nals ih =>
    obtain ⟨new, emitted, rewritten⟩ := unit_rewritten p (even nal (List.mem_cons_self ..))
    rw [written_cons emitted]
    exact .cons rewritten (ih _ fun nal member => even nal (List.mem_cons_of_mem _ member))

/-! ## Messages -/

private theorem video_some (video : (g.video payload).2 = some out) :
    ∃ info offset, inspectVideo payload = some info ∧ info.nalOffset = some offset ∧
      (g.coded payload offset).2 = some out := by
  unfold PocGuard.video at video
  split at video
  · contradiction
  · next info read =>
    split at video
    · contradiction
    · split at video
      · contradiction
      · split at video
        · next offset data => exact ⟨info, offset, read, data, video⟩
        · contradiction

/-- A NAL unit that does not end in a zero byte and has no three of them in a row ends evenly; and of a message whose
slices all do, only the order counts of slices are written over. -/
theorem renumbering_frame :
    (∀ nal : Bytes, nal.getLast? ≠ some 0 → ¬[0, 0, 0] <:+: nal → EndsEven nal) ∧
      ∀ (g : PocGuard) (payload out : Bytes), payload.length < 2 ^ 31 →
        (∀ info ∈ inspectVideo payload, ∀ offset ∈ info.nalOffset, ∀ nal ∈ (units (payload.drop offset)).1,
          SliceUnit nal → EndsEven nal) →
        (g.video payload).2 = some out →
        ∃ info offset nals nals' rest, inspectVideo payload = some info ∧ info.nalOffset = some offset ∧
          payload = payload.take offset ++ nals.flatMap framed ++ rest ∧ units (payload.drop offset) = (nals, rest) ∧
          out = payload.take offset ++ nals'.flatMap framed ++ rest ∧ units (out.drop offset) = (nals', rest) ∧
          (∀ nal' ∈ nals', nal'.length < 2 ^ 32) ∧ nals'.length = nals.length ∧ AllRewritten g.packet nals nals' := by
  refine ⟨fun nal => endsEven_of, fun g payload out short even video => ?_⟩
  obtain ⟨info, offset, read, data, coded⟩ := video_some video
  cases split : units (payload.drop offset) with
  | mk nals rest =>
    have every := even info read offset data
    rw [split] at every
    obtain ⟨inside, written, again⟩ := coded_units short coded split
    refine ⟨info, offset, nals, g.packet.written nals, rest, read, data, ?_, split, written, again,
      written_short g.packet (units_short short split), length_written g.packet nals, allRewritten g.packet every⟩
    rw [List.append_assoc, ← (units_whole split).1, List.take_append_drop]

/-- A guard that has taken a BLA picture whose order count is 0. -/
def shown : PocGuard := (PocGuard.new.video configuration4).1.video (frame [[32, 1, 176, 124, 5, 6]]) |>.1

theorem renumbering_frame_shown :
    ∃ info offset nals nals' rest,
      inspectVideo (frame [[32, 1, 176, 124, 0, 0, 3]]) = some info ∧ info.nalOffset = some offset ∧
        frame [[32, 1, 176, 124, 0, 0, 3]] =
          (frame [[32, 1, 176, 124, 0, 0, 3]]).take offset ++ nals.flatMap framed ++ rest ∧
        units ((frame [[32, 1, 176, 124, 0, 0, 3]]).drop offset) = (nals, rest) ∧
        frame [[32, 1, 177, 124, 0, 0, 3]] =
          (frame [[32, 1, 176, 124, 0, 0, 3]]).take offset ++ nals'.flatMap framed ++ rest ∧
        units ((frame [[32, 1, 177, 124, 0, 0, 3]]).drop offset) = (nals', rest) ∧
        (∀ nal' ∈ nals', nal'.length < 2 ^ 32) ∧ nals'.length = nals.length ∧ AllRewritten shown.packet nals nals' := by
  refine renumbering_frame.2 shown _ _ (by decide) (fun info read offset data nal member _ => ?_) (by decide +kernel)
  have even : ∀ info ∈ inspectVideo (frame [[32, 1, 176, 124, 0, 0, 3]]), ∀ offset ∈ info.nalOffset,
      ∀ nal ∈ (units ((frame [[32, 1, 176, 124, 0, 0, 3]]).drop offset)).1, zerosAtEnd (unescape nal) % 2 = 0 := by
    decide +kernel
  exact even info read offset data nal member

/-- A slice that does not end in a zero byte but in three of them and a 3 becomes longer by a byte that is not removed
with emulation prevention. -/
theorem odd_zeros_grow :
    (shown.video (frame [[32, 1, 176, 124, 0, 0, 0, 3]])).2 = some (frame [[32, 1, 177, 124, 0, 0, 3, 0, 3]]) ∧
      [32, 1, 176, 124, 0, 0, 0, 3].getLast? ≠ some 0 ∧
      unescape [32, 1, 176, 124, 0, 0, 0, 3] = [32, 1, 176, 124, 0, 0, 0] ∧
      unescape [32, 1, 177, 124, 0, 0, 3, 0, 3] = [32, 1, 177, 124, 0, 0, 0, 3] := by
  decide +kernel

end StreamDelay.Flv.Hevc
