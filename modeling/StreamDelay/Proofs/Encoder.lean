import Mathlib.Tactic.Common
import StreamDelay.Proofs.Format

/-! # The encoder writes the format

A message as the encoder writes it is one chunk with a full header and as many continuations as its
payload needs, one message after the other: a sequence the format allows.
-/

namespace StreamDelay.Rtmp

open Foundations

private theorem putU24_eq (v : ℕ) : putU24 v = bigEndian 3 v := by
  rw [bigEndian_three, putU24, Nat.shiftRight_eq_div_pow, Nat.shiftRight_eq_div_pow]

theorem shift_byte (v : UInt32) (k : UInt32) (small : k.toNat < 32) :
    (v >>> k).toUInt8 = UInt8.ofNat (v.toNat / 2 ^ k.toNat) := by
  apply UInt8.toNat_inj.mp
  rw [UInt32.toNat_toUInt8, UInt32.toNat_shiftRight, UInt8.toNat_ofNat', Nat.mod_eq_of_lt small,
    Nat.shiftRight_eq_div_pow]

theorem putU32_eq (v : UInt32) : putU32 v = bigEndian 4 v.toNat := by
  rw [bigEndian_four, putU32, shift_byte v 24 (by decide), shift_byte v 16 (by decide),
    shift_byte v 8 (by decide)]
  rfl

private theorem putU32Le_eq (v : UInt32) : putU32Le v = littleEndian 4 v.toNat := by
  rw [littleEndian_four, putU32Le, shift_byte v 24 (by decide), shift_byte v 16 (by decide),
    shift_byte v 8 (by decide)]
  rfl

theorem or_low {fmt low : ℕ} (format : fmt < 4) (small : low < 64) :
    (UInt8.ofNat fmt <<< 6) ||| UInt8.ofNat low = UInt8.ofNat (fmt * 64 + low) := by
  apply UInt8.toNat_inj.mp
  have six : (6 : UInt8).toNat % 8 = 6 := by decide
  have high : fmt % 2 ^ 8 * 2 ^ 6 % 2 ^ 8 = 2 ^ 6 * fmt := by omega
  rw [UInt8.toNat_or, UInt8.toNat_shiftLeft, UInt8.toNat_ofNat', UInt8.toNat_ofNat',
    UInt8.toNat_ofNat', six, Nat.shiftLeft_eq, high, Nat.mod_eq_of_lt (by omega : low < 2 ^ 8),
    ← Nat.two_pow_add_eq_or_of_lt small]
  omega

theorem putBasicHeader_eq {fmt csid : ℕ} (format : fmt < 4) (range : 2 ≤ csid ∧ csid ≤ 65599) :
    putBasicHeader (.ofNat fmt) csid = basicBytes fmt false csid := by
  have none : UInt8.ofNat fmt <<< 6 = UInt8.ofNat (fmt * 64) := by
    have low := or_low format (by decide : 0 < 64)
    rwa [show UInt8.ofNat 0 = 0 from rfl, UInt8.or_zero, Nat.add_zero] at low
  unfold putBasicHeader basicBytes
  by_cases short : csid < 64
  · rw [if_pos ⟨range.1, short⟩, if_pos short, or_low format short]
  · rw [if_neg (by omega), if_neg short]
    by_cases medium : csid < 320
    · rw [if_pos ⟨by omega, medium⟩, if_pos ⟨medium, rfl⟩, none]
    · have value : max 64 (min csid 65599) - 64 = csid - 64 := by omega
      have low : UInt8.ofNat (csid - 64) = UInt8.ofNat ((csid - 64) % 256) := by
        apply UInt8.toNat_inj.mp
        rw [UInt8.toNat_ofNat', UInt8.toNat_ofNat']
        omega
      rw [if_neg (by omega), if_neg (by omega), value, ← low]
      dsimp only
      rw [Nat.shiftRight_eq_div_pow]
      exact congrArg (· :: _) (or_low format (by decide : 1 < 64))

/-! ## The chunks of one message -/

theorem slices_cons {size fuel : ℕ} {b : Bytes} (left : b ≠ []) :
    slices size (fuel + 1) b = b.take size :: slices size fuel (b.drop size) := by
  cases b with
  | nil => contradiction
  | cons head rest => rfl

/-- The continuations of a message cut into slices. -/
def continuations (csid : ℕ) (cut : List Bytes) : List Sending := cut.map fun _ => .next false csid

/-- A message as the encoder cuts it. -/
def cutMessage (size : ℕ) (m : Message) : List Sending :=
  .start 0 false m :: continuations m.csid (chunks size m.payload).tail

/-- Every message started has been sent. -/
def Settled (lanes : Lanes) : Prop :=
  ∀ csid l, lanes csid = some l → l.sent = l.message.payload.length

/-- At most one message, on lane `l`, has not been sent. -/
structure Alone (ids : Finset ℕ) (csid : ℕ) (l : Lane) (lanes : Lanes) : Prop where
  here : lanes csid = some l
  fair : l.Fair ids csid
  others : ∀ other l', other ≠ csid → lanes other = some l' → l'.sent = l'.message.payload.length

namespace Lanes

variable {size : ℕ} {ids : Finset ℕ} {lanes : Lanes}

theorem held_alone {csid : ℕ} {l : Lane} (alone : Alone ids csid l lanes) :
    held ids lanes = l.unfinished := by
  have single : held ids lanes = ((lanes csid).map Lane.unfinished).getD 0 := by
    apply Finset.sum_eq_single_of_mem csid alone.fair.member
    intro other _ differ
    cases used : lanes other with
    | none => rfl
    | some l' => exact Lane.unfinished_of_le (Nat.le_of_eq (alone.others other l' differ used).symm)
  rw [single, alone.here]
  rfl

theorem held_settled (settled : Settled lanes) : held ids lanes = 0 := by
  apply Finset.sum_eq_zero
  intro other _
  cases used : lanes other with
  | none => rfl
  | some l => exact Lane.unfinished_of_le (Nat.le_of_eq (settled other l used).symm)

theorem write_next {csid : ℕ} {l : Lane} (used : lanes csid = some l) :
    lanes.write size true (.next false csid) =
      (Function.update lanes csid (some (advance size l)),
        [chunk size (basicBytes 3 false csid ++ extension l.delta) l]) := by
  simp only [write, used, if_true]

/-- Bringing on the only lane there is. -/
theorem alone_advance (size : ℕ) {csid : ℕ} {l : Lane} (alone : Alone ids csid l lanes) :
    Alone ids csid (advance size l) (Function.update lanes csid (some (advance size l))) where
  here := Function.update_self ..
  fair := ⟨alone.fair.member, alone.fair.range, alone.fair.csid, Nat.min_le_right .., alone.fair.short⟩
  others := by
    intro other l' differ used
    rw [Function.update_of_ne differ] at used
    exact alone.others other l' differ used

theorem settled_of_alone {csid : ℕ} {l : Lane} (alone : Alone ids csid l lanes)
    (finished : l.message.payload.length ≤ l.sent) : Settled lanes := by
  intro other l' used
  by_cases same : other = csid
  · rw [same, alone.here] at used
    exact Option.some.inj used ▸ Nat.le_antisymm alone.fair.sent finished
  · exact alone.others other l' same used

private theorem allowed_next {csid : ℕ} {l : Lane} (alone : Alone ids csid l lanes)
    (on : l.sent < l.message.payload.length) : Allowed size ids lanes (.next false csid) := by
  refine ⟨?_, alone.fair.member, ?_⟩
  · simpa only [Legal, alone.here] using on
  · have short := alone.fair.short
    rw [held_alone alone, Lane.unfinished_of_lt on, load, alone.here, MAX_PENDING_BYTES]
    simp only [Option.map_some, Option.getD_some]
    omega

/-- A sequence of chunks that may be sent, with its bytes and messages, and that leaves no message
unfinished. -/
structure Sends (size : ℕ) (ids : Finset ℕ) (lanes : Lanes) (sendings : List Sending) (bytes : Bytes)
    (done : List Message) : Prop where
  allowed : Machine.Along (write size true) (Allowed size ids) lanes sendings
  stream : stream size true lanes sendings = bytes
  messages : messages size true lanes sendings = done
  settled : Settled (Machine.after (write size true) lanes sendings)

theorem Sends.nil (settled : Settled lanes) : Sends size ids lanes [] [] [] :=
  ⟨trivial, rfl, rfl, settled⟩

theorem Sends.cons {s : Sending} {wire : Wire} {next : Lanes} {sendings : List Sending} {bytes : Bytes}
    {done : List Message} (allowed : Allowed size ids lanes s)
    (written : lanes.write size true s = (next, [wire]))
    (later : Sends size ids next sendings bytes done) :
    Sends size ids lanes (s :: sendings) (wire.bytes ++ bytes) (wire.completed.toList ++ done) := by
  constructor
  · exact ⟨allowed, by rw [written]; exact later.allowed⟩
  · simp only [Lanes.stream, Machine.outputs_cons, written, List.cons_append, List.nil_append,
      List.flatMap_cons]
    rw [← later.stream, Lanes.stream]
  · simp only [Lanes.messages, Machine.outputs_cons, written, List.filterMap_append,
      ChunkDecoder.completed_single]
    rw [← later.messages, Lanes.messages]
  · rw [Machine.after_cons, written]
    exact later.settled

theorem Sends.append {first second : List Sending} {bytes bytes' : Bytes} {done done' : List Message}
    (early : Sends size ids lanes first bytes done)
    (late : Sends size ids (Machine.after (write size true) lanes first) second bytes' done') :
    Sends size ids lanes (first ++ second) (bytes ++ bytes') (done ++ done') := by
  constructor
  · exact (Machine.along_append _).mpr ⟨early.allowed, late.allowed⟩
  · rw [← early.stream, ← late.stream]
    simp only [Lanes.stream, Machine.outputs_append, List.flatMap_append]
  · rw [← early.messages, ← late.messages]
    simp only [Lanes.messages, Machine.outputs_append, List.filterMap_append]
  · rw [Machine.after_append]
    exact late.settled

/-- The rest of the only message there is, slice by slice. -/
theorem sends_continuations (fuel : ℕ) {csid : ℕ} {l : Lane} (positive : 0 < size)
    (alone : Alone ids csid l lanes) (enough : (l.message.payload.drop l.sent).length ≤ fuel) :
    Sends size ids lanes (continuations csid (slices size fuel (l.message.payload.drop l.sent)))
      ((slices size fuel (l.message.payload.drop l.sent)).flatMap fun c =>
        basicBytes 3 false csid ++ extension l.delta ++ c)
      (if l.sent < l.message.payload.length then [l.message] else []) := by
  induction fuel generalizing lanes l with
  | zero =>
    rw [List.length_drop] at enough
    have finished : l.message.payload.length ≤ l.sent := by omega
    rw [if_neg (by omega)]
    exact .nil (settled_of_alone alone finished)
  | succ fuel ih =>
    by_cases on : l.sent < l.message.payload.length
    · have behind : l.message.payload.drop (advance size l).sent =
          (l.message.payload.drop l.sent).drop size := by
        rw [advance_sent, List.drop_drop]
        by_cases whole : l.sent + size ≤ l.message.payload.length
        · rw [Nat.min_eq_left whole]
        · rw [Nat.min_eq_right (by omega), List.drop_length, List.drop_eq_nil_of_le (by omega)]
      have left : l.message.payload.drop l.sent ≠ [] := by
        intro none
        have length := congrArg List.length none
        rw [List.length_drop, List.length_nil] at length
        omega
      have later := ih (alone_advance size alone) (by
        rw [advance_message, behind, List.length_drop]
        omega)
      rw [advance_message, behind] at later
      have sent := Sends.cons (allowed_next alone on) (write_next alone.here) later
      rw [slices_cons left, List.flatMap_cons, if_pos on]
      have done : (chunk size (basicBytes 3 false csid ++ extension l.delta) l).completed.toList ++
          (if (advance size l).sent < l.message.payload.length then [l.message] else []) =
            [l.message] := by
        have now := advance_sent size l
        simp only [chunk]
        by_cases last : l.message.payload.length ≤ l.sent + size
        · rw [if_pos last, if_neg (by omega)]
          rfl
        · rw [if_neg last, if_pos (by omega)]
          rfl
      rw [done] at sent
      exact sent
    · have finished : l.message.payload.length ≤ l.sent := by omega
      rw [if_neg on, List.drop_eq_nil_of_le finished]
      exact .nil (settled_of_alone alone finished)

/-- The first chunk of a message, with a full header. -/
theorem write_start (m : Message) :
    lanes.write size true (.start 0 false m) =
      (Function.update lanes m.csid (some (advance size ⟨m, m.timestamp, 0⟩)),
        [chunk size (basicBytes 0 false m.csid ++ messageHeader 0 m.timestamp m ++
          extension m.timestamp) ⟨m, m.timestamp, 0⟩]) := by
  have delta : lanes.delta 0 m = m.timestamp := by
    unfold Lanes.delta
    split <;> rfl
  simp only [write, delta]
  rfl

theorem chunks_tail (size : ℕ) (payload : Bytes) :
    (chunks size payload).tail = slices size (payload.length - 1) (payload.drop size) := by
  cases payload with
  | nil =>
    rw [List.drop_nil]
    rfl
  | cons b rest => rfl

/-- A message as the encoder cuts it may be sent once the ones before it have been. -/
theorem sends_message {m : Message} (positive : 0 < size) (settled : Settled lanes)
    (member : m.csid ∈ ids) (range : 2 ≤ m.csid ∧ m.csid ≤ 65599) (short : m.payload.length < 2 ^ 24) :
    Sends size ids lanes (cutMessage size m)
      (basicBytes 0 false m.csid ++ messageHeader 0 m.timestamp m ++ extension m.timestamp ++
        m.payload.take size ++ (chunks size m.payload).tail.flatMap fun c =>
          basicBytes 3 false m.csid ++ extension m.timestamp ++ c) [m] := by
  have legal : lanes.Legal (.start 0 false m) := by
    refine ⟨range, short, ?_⟩
    split
    · rfl
    · next l used =>
      refine ⟨settled _ l used, ?_, ?_, ?_⟩ <;> exact fun compressed => absurd compressed (by decide)
  have allowed : Allowed size ids lanes (.start 0 false m) := by
    refine ⟨legal, member, ?_⟩
    rw [held_settled settled, load, MAX_PENDING_BYTES]
    omega
  have alone : Alone ids m.csid (advance size ⟨m, m.timestamp, 0⟩)
      (Function.update lanes m.csid (some (advance size ⟨m, m.timestamp, 0⟩))) := by
    refine ⟨Function.update_self .., ⟨member, range, rfl, Nat.min_le_right .., short⟩, ?_⟩
    intro other l' differ used
    rw [Function.update_of_ne differ] at used
    exact settled other l' used
  have now : (advance size ⟨m, m.timestamp, 0⟩).sent = min size m.payload.length := by
    rw [advance_sent, Nat.zero_add]
  have behind : m.payload.drop (advance size ⟨m, m.timestamp, 0⟩).sent = m.payload.drop size := by
    rw [now]
    by_cases whole : size ≤ m.payload.length
    · rw [Nat.min_eq_left whole]
    · rw [Nat.min_eq_right (by omega), List.drop_length, List.drop_eq_nil_of_le (by omega)]
  have later := sends_continuations (m.payload.length - 1) positive alone (by
    rw [advance_message, behind, List.length_drop]
    omega)
  rw [advance_message, behind, ← chunks_tail] at later
  have sent := Sends.cons allowed (write_start m) later
  have done : (chunk size (basicBytes 0 false m.csid ++ messageHeader 0 m.timestamp m ++
      extension m.timestamp) ⟨m, m.timestamp, 0⟩).completed.toList ++
        (if (advance size ⟨m, m.timestamp, 0⟩).sent < m.payload.length then [m] else []) = [m] := by
    simp only [chunk, Nat.zero_add]
    by_cases last : m.payload.length ≤ size
    · rw [if_pos last, if_neg (by omega)]
      rfl
    · rw [if_neg last, if_pos (by omega)]
      rfl
  rw [done] at sent
  exact sent

/-- The encoder's bytes are those of its chunks. -/
theorem write_eq (e : ChunkEncoder) {m : Message} (range : 2 ≤ m.csid ∧ m.csid ≤ 65599) :
    e.write m = basicBytes 0 false m.csid ++ messageHeader 0 m.timestamp m ++ extension m.timestamp ++
      m.payload.take e.chunkSize ++ (chunks e.chunkSize m.payload).tail.flatMap fun c =>
        basicBytes 3 false m.csid ++ extension m.timestamp ++ c := by
  have full : putBasicHeader 0 m.csid = basicBytes 0 false m.csid := putBasicHeader_eq (by decide) range
  have more : putBasicHeader 3 m.csid = basicBytes 3 false m.csid := putBasicHeader_eq (by decide) range
  have field : (if EXTENDED ≤ m.timestamp.toNat then EXTENDED else m.timestamp.toNat) =
      min m.timestamp.toNat EXTENDED := by
    split <;> omega
  have header : messageHeader 0 m.timestamp m = bigEndian 3 (min m.timestamp.toNat EXTENDED) ++
      (bigEndian 3 m.payload.length ++ [m.typeId]) ++ littleEndian 4 m.streamId.toNat := rfl
  have extended : (if EXTENDED ≤ m.timestamp.toNat then putU32 m.timestamp else []) =
      extension m.timestamp := by
    rw [extension, putU32_eq]
  simp only [ChunkEncoder.write, full, more, field, extended, putU24_eq, putU32Le_eq, header,
    List.append_assoc]
  cases payload : m.payload with
  | nil => simp [chunks, slices]
  | cons b rest => simp [chunks, slices]

/-- A sequence of messages as the encoder writes them. -/
theorem sends_messages (e : ChunkEncoder) {messages : List Message} (settled : Settled lanes)
    (fair : ∀ m ∈ messages, m.csid ∈ ids ∧ (2 ≤ m.csid ∧ m.csid ≤ 65599) ∧ m.payload.length < 2 ^ 24) :
    Sends e.chunkSize ids lanes (messages.flatMap (cutMessage e.chunkSize)) (messages.flatMap e.write)
      messages := by
  induction messages generalizing lanes with
  | nil => exact .nil settled
  | cons m rest ih =>
    obtain ⟨member, range, short⟩ := fair m (List.mem_cons_self ..)
    have first := sends_message e.positive settled member range short
    rw [← write_eq e range] at first
    exact first.append (ih first.settled fun m later => fair m (List.mem_cons_of_mem _ later))

end Lanes

end StreamDelay.Rtmp
