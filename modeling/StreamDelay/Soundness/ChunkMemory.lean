import Mathlib.Tactic.Common
import StreamDelay.Foundations.Machine
import StreamDelay.Proofs.Bookkeeping

/-! # What a decoder holds

Whatever is pushed into a decoder and in whatever order it is called, it counts what it holds and holds no
more than its limits, and no call panics. A call that fails leaves what the whole chunks before the refused
one left: the refused chunk changes nothing.
-/

namespace StreamDelay.Rtmp

open Foundations

/-- The decoder that a sequence of calls leaves. -/
def Call.ran (calls : List Call) : ChunkDecoder :=
  Machine.after (fun d call => ((call.run d).1, [(call.run d).2])) ChunkDecoder.new calls

private theorem ran_sound (calls : List Call) : (Call.ran calls).Sound :=
  Machine.after_induct _ (fun _ call sound => call.run_sound sound) ChunkDecoder.sound_new calls

/-- The decoder's memory is what it counts and is bounded; nothing in it is out of range; an error leaves what
came before it. -/
theorem decoder_resources (calls : List Call) :
    (Call.ran calls).pending = (Call.ran calls).held ∧
    (Call.ran calls).pending ≤ MAX_PENDING_BYTES ∧
    (Call.ran calls).streams.keys.length ≤ MAX_CHUNK_STREAMS ∧
    (∀ csid st, (Call.ran calls).streams.lookup csid = some st →
      (st.inProgress = true → st.partialData.length < st.length) ∧
        (st.inProgress = false → st.partialData = [])) ∧
    (∀ call : Call, call.guarded (Call.ran calls) = some (call.run (Call.ran calls))) ∧
    ∀ (call : Call) (e : ChunkError) (d : ChunkDecoder), call.run (Call.ran calls) = (d, .error e) →
      d = Call.ran calls ∨
        call = .nextMessage ∧
          Relation.ReflTransGen (fun d d' => d.nextChunk = (.ok .partialMessage, d')) (Call.ran calls) d ∧
          d.nextChunk = (.error e, d) := by
  have sound := ran_sound calls
  refine ⟨sound.pending, sound.bounded, sound.few, fun csid st known => ?_, fun call => ?_, fun call e d failed => ?_⟩
  · exact ⟨(sound.streams csid st known).short, (sound.streams csid st known).idle⟩
  · exact call.guarded_eq sound
  · cases call with
    | push | abort | setMaxMessageLen =>
      have answer := congrArg Prod.snd failed
      contradiction
    | setChunkSize size =>
      unfold Call.run at failed
      dsimp only at failed
      split at failed
      · exact .inl (congrArg Prod.fst failed).symm
      · have answer := congrArg Prod.snd failed
        contradiction
    | nextMessage =>
      obtain rfl : (Call.ran calls).nextMessage.2 = d := congrArg Prod.fst failed
      have answer : Answer.ofMessage (Call.ran calls).nextMessage.1 = .error e := congrArg Prod.snd failed
      refine .inr ⟨rfl, ChunkDecoder.nextMessage_failed ?_⟩
      unfold Answer.ofMessage at answer
      split at answer
      · next refused =>
        rw [refused]
        exact congrArg Except.error (Answer.error.inj answer)
      · contradiction
      · contradiction

/-- The first chunk of a message of 200 bytes, and one on a stream that has had no header. -/
def cutShort : Bytes :=
  [4, 0, 0, 0, 0, 0, 200, 9, 1, 0, 0, 0] ++ List.replicate 128 0 ++ [0xC5]

/-- A call that fails may have taken chunks before. -/
theorem error_after_chunk :
    ¬∀ (calls : List Call) (call : Call) (e : ChunkError) (d : ChunkDecoder),
      call.run (Call.ran calls) = (d, .error e) →
        d.pending = (Call.ran calls).pending ∧ d.streams = (Call.ran calls).streams := by
  intro unchanged
  have failed : (Call.nextMessage.run (Call.ran [.push cutShort])).2 = .error (.missingHeader 5) := by
    decide +kernel
  have taken : (Call.nextMessage.run (Call.ran [.push cutShort])).1.pending = 128 := by decide +kernel
  have before : (Call.ran [.push cutShort]).pending = 0 := by decide +kernel
  have kept := unchanged [.push cutShort] .nextMessage (.missingHeader 5)
  revert failed taken kept
  generalize Call.nextMessage.run (Call.ran [.push cutShort]) = ran
  obtain ⟨d, answer⟩ := ran
  rintro rfl taken kept
  have same := (kept d rfl).1
  rw [before] at same
  exact absurd (taken.symm.trans same) (by decide)

end StreamDelay.Rtmp
