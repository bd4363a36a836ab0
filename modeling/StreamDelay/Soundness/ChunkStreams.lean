import Mathlib.Tactic.Common
import StreamDelay.Proofs.Encoder

/-! # Chunk streams

What the decoder makes of a byte sequence, well formed or not, does not depend on how it arrives. It
reads everything the format allows a sender to write, and the encoder writes within the format.
-/

namespace StreamDelay.Rtmp

open Foundations ChunkDecoder

/-- However the same bytes are cut into pieces, a decoder gives the same messages, then the same error
or the same need for more, and is left the same; an error stays the answer whatever follows; and a call
that gave no message leaves no trace. -/
theorem pieces_agree (d : ChunkDecoder) (pieces pieces' : List Bytes)
    (same : pieces.flatten = pieces'.flatten) :
    d.feed pieces = d.feed pieces' ∧
      (∀ e more, (d.feed pieces).outcome = some e →
        (d.feed (pieces ++ more)).messages = (d.feed pieces).messages ∧
          (d.feed (pieces ++ more)).outcome = some e) ∧
      ∀ x, (∀ m, d.nextMessage.1 ≠ .ok (some m)) →
        (d.nextMessage.2.push x).nextMessage = (d.push x).nextMessage := by
  have fed (pieces : List Bytes) : (d.push pieces.flatten).pull = d.feed pieces :=
    pull_eq (d.feed_drains pieces)
  refine ⟨?_, fun e more failed => ?_, fun x nothing => nextMessage_traceless rfl nothing x⟩
  · rw [← fed, ← fed, same]
  · have first := d.feed_drains pieces
    rw [failed] at first
    have all := first.failed_push more.flatten
    rw [← push_append, ← List.flatten_append] at all
    rw [← fed (pieces ++ more), pull_eq all]
    exact ⟨rfl, rfl⟩

/-- An empty message, byte by byte and at once. -/
theorem pieces_agree_empty :
    new.feed [[4], [0, 0, 1], [], [0, 0, 0, 9, 1, 0, 0, 0]] =
      new.feed [[4, 0, 0, 1, 0, 0, 0, 9, 1, 0, 0, 0]] :=
  (pieces_agree new [[4], [0, 0, 1], [], [0, 0, 0, 9, 1, 0, 0, 0]]
    [[4, 0, 0, 1, 0, 0, 0, 9, 1, 0, 0, 0]] rfl).1

/-- A decoder with its chunk size set mirrors a sender that has not begun. -/
theorem follows_new (size : ℕ) (ids : Finset ℕ) (bytes : Bytes) :
    Follows size ids .unused ({ new with chunkSize := size }.push bytes) where
  chunkSize := rfl
  limits := ⟨rfl, rfl⟩
  absent := fun _ => AList.notMem_empty _
  present := fun used => by contradiction
  known := fun used => absurd used (AList.notMem_empty _)
  pending := (Lanes.held_settled fun _ _ used => by contradiction).symm

private theorem setChunkSize_new {size : ℕ} (range : 1 ≤ size ∧ size ≤ MAX_CHUNK_SIZE) :
    new.setChunkSize size = .ok { new with chunkSize := size } :=
  if_neg (by omega)

/-- Any chunking the format allows of messages on at most 64 chunk streams is read, however it arrives:
the messages as they are completed, and no error. -/
theorem format_read (size : ℕ) (range : 1 ≤ size ∧ size ≤ MAX_CHUNK_SIZE) (repeats : Bool)
    (ids : Finset ℕ) (few : ids.card ≤ MAX_CHUNK_STREAMS) (sendings : List Sending)
    (allowed : Machine.Along (Lanes.write size repeats) (Lanes.Allowed size ids) .unused sendings)
    (unmistakable : repeats = false → Lanes.Unmistakable size .unused sendings) (pieces : List Bytes)
    (arrives : pieces.flatten = Lanes.stream size repeats .unused sendings) :
    ∃ d, new.setChunkSize size = .ok d ∧
      (d.feed pieces).messages = Lanes.messages size repeats .unused sendings ∧
      (d.feed pieces).outcome = none := by
  refine ⟨_, setChunkSize_new range, ?_⟩
  have fed := feed_drains pieces { new with chunkSize := size }
  obtain ⟨last, drained⟩ := drains_stream few
    (follows_new size ids pieces.flatten) allowed (.inr ⟨rfl, unmistakable⟩) arrives
  obtain ⟨messages, outcome, -⟩ := fed.unique drained
  exact ⟨messages, outcome⟩

/-- Two streams interleaved, with an extended timestamp that is not repeated. -/
def interleaved : List Sending :=
  [.start 0 false ⟨4, 0x1000000, 8, 1, [1, 2, 3, 4]⟩, .start 0 true ⟨70, 5, 9, 1, []⟩, .next false 4,
    .start 3 false ⟨70, 10, 9, 1, []⟩]

theorem format_read_interleaved :
    ∃ d, new.setChunkSize 2 = .ok d ∧
      (d.feed [Lanes.stream 2 false .unused interleaved]).messages =
        [⟨70, 5, 9, 1, []⟩, ⟨4, 0x1000000, 8, 1, [1, 2, 3, 4]⟩, ⟨70, 10, 9, 1, []⟩] ∧
      (d.feed [Lanes.stream 2 false .unused interleaved]).outcome = none := by
  have read := format_read 2 (by decide) false {4, 70} (by decide) interleaved (by decide +kernel)
    (fun _ => by decide +kernel) [Lanes.stream 2 false .unused interleaved] (by simp)
  have messages : Lanes.messages 2 false .unused interleaved =
      [⟨70, 5, 9, 1, []⟩, ⟨4, 0x1000000, 8, 1, [1, 2, 3, 4]⟩, ⟨70, 10, 9, 1, []⟩] := by
    decide +kernel
  rw [messages] at read
  exact read

/-- What the encoder writes is read back, whatever the chunk size and however it arrives. -/
theorem round_trip (size : ℕ) (range : 1 ≤ size ∧ size ≤ MAX_CHUNK_SIZE) (messages : List Message)
    (fair : ∀ m ∈ messages, (2 ≤ m.csid ∧ m.csid ≤ 65599) ∧ m.payload.length < 2 ^ 24)
    (few : (messages.map Message.csid).toFinset.card ≤ MAX_CHUNK_STREAMS) (pieces : List Bytes)
    (arrives : pieces.flatten = messages.flatMap (ChunkEncoder.setChunkSize size).write) :
    ∃ d, new.setChunkSize size = .ok d ∧ (d.feed pieces).messages = messages ∧
      (d.feed pieces).outcome = none := by
  have same : (ChunkEncoder.setChunkSize size).chunkSize = size := by
    simp only [ChunkEncoder.setChunkSize]
    omega
  have member {m : Message} (within : m ∈ messages) : m.csid ∈ (messages.map Message.csid).toFinset :=
    List.mem_toFinset.mpr (List.mem_map_of_mem within)
  have settled : Settled .unused := fun _ _ used => by contradiction
  have sends := Lanes.sends_messages (ChunkEncoder.setChunkSize size) settled
    fun m within => ⟨member within, fair m within⟩
  rw [same] at sends
  rw [← sends.stream] at arrives
  have read := format_read size range true _ few _ sends.allowed (fun never => by contradiction) pieces
    arrives
  rw [sends.messages] at read
  exact read

/-- Messages that are longer than a chunk, have an extended timestamp, and are empty, in two pieces. -/
theorem round_trip_pieces :
    let messages : List Message :=
      [⟨4, 0xFFFFFF, 8, 1, [1, 2, 3, 4, 5]⟩, ⟨320, 7, 9, 1, [6]⟩, ⟨4, 3, 20, 0, []⟩]
    let bytes := messages.flatMap (ChunkEncoder.setChunkSize 2).write
    ∃ d, new.setChunkSize 2 = .ok d ∧ (d.feed [bytes.take 17, bytes.drop 17]).messages = messages ∧
      (d.feed [bytes.take 17, bytes.drop 17]).outcome = none :=
  round_trip 2 (by decide) [⟨4, 0xFFFFFF, 8, 1, [1, 2, 3, 4, 5]⟩, ⟨320, 7, 9, 1, [6]⟩, ⟨4, 3, 20, 0, []⟩]
    (by decide) (by decide) _ (by
      rw [List.flatten_cons, List.flatten_cons, List.flatten_nil, List.append_nil,
        List.take_append_drop])

end StreamDelay.Rtmp
