import Mathlib.Tactic.Common
import StreamDelay.Proofs.Limits
import StreamDelay.Rtmp.Session

/-! # Feeding a side of a session

What both sides have in common: control messages only tune the decoder, and a piece that does not fail is
gone through to the last whole chunk.
-/

namespace StreamDelay.Rtmp

/-- Nothing was read or assembled between two states of a decoder: chunk sizes may change, and
unfinished messages may be dropped. -/
structure Calm (d d' : ChunkDecoder) : Prop where
  buf : d'.buf = d.buf
  within : ∀ {limit}, d.Within limit → d'.Within limit

theorem Calm.refl (d : ChunkDecoder) : Calm d d := ⟨rfl, id⟩

theorem received_decoder (n : ℕ) (l : Link) : (l.received n).decoder = l.decoder := by
  unfold Link.received
  dsimp only
  split <;> rfl

theorem handleControl_calm {m : Message} {b : Bool} {l l' : Link} (handled : l.handleControl m = .ok (b, l')) :
    Calm l.decoder l'.decoder := by
  have kept {b' : Bool} {written : Link} (result : Except.ok (ε := SessionError) (b', written) = .ok (b, l'))
      (same : written.decoder = l.decoder) : Calm l.decoder l'.decoder := by
    obtain ⟨-, rfl⟩ := Prod.mk.inj (Except.ok.inj result)
    rw [same]
    exact .refl _
  unfold Link.handleControl at handled
  split at handled
  · split at handled
    · injections
    · next v _ =>
      split at handled
      · injections
      · next decoder sized =>
        obtain ⟨-, rfl⟩ := Prod.mk.inj (Except.ok.inj handled)
        unfold ChunkDecoder.setChunkSize at sized
        split at sized
        · injections
        · obtain rfl := Except.ok.inj sized
          exact ⟨rfl, fun within => ⟨within.media, within.other, within.streams⟩⟩
  · split at handled
    · split at handled
      · exact kept handled rfl
      · obtain ⟨-, rfl⟩ := Prod.mk.inj (Except.ok.inj handled)
        refine ⟨?_, fun within => within.abort _⟩
        show (ChunkDecoder.abort _ _).buf = _
        unfold ChunkDecoder.abort
        split <;> rfl
    · split at handled
      · exact kept handled rfl
      · split at handled
        · split at handled
          · exact kept handled rfl
          · exact kept handled rfl
        · split at handled
          · split at handled
            · exact kept handled rfl
            · exact kept handled rfl
          · split at handled
            · split at handled
              · exact kept handled rfl
              · split at handled
                · exact kept handled rfl
                · exact kept handled rfl
            · exact kept handled rfl

/-- The last state of a decoder that has been drained has no whole chunk. -/
theorem Drains.end {d d' : ChunkDecoder} {messages : List Message} {outcome : Option ChunkError}
    (drained : Drains d messages outcome d') (dry : outcome = none) : d'.parse = .ok none := by
  induction drained with
  | dry short => exact short
  | failed => contradiction
  | chunk _ _ ih => exact ih dry

namespace Side

variable {σ ev : Type} {side : Side σ ev}

/-- A link that is set is the link, and handling a message leaves the bytes behind it. -/
structure Lawful (side : Side σ ev) : Prop where
  link_withLink : ∀ l s, side.link (side.withLink l s) = l
  handle_buf : ∀ {m s s' events}, side.handle m s = .ok (s', events) →
    (side.link s').decoder.buf = (side.link s).decoder.buf

theorem Lawful.pulled (lawful : side.Lawful) (s : σ) :
    side.link (side.pulled s) = { side.link s with decoder := (side.link s).decoder.nextMessage.2 } :=
  lawful.link_withLink _ _

/-- A piece that does not fail has been gone through: the loop has turns enough. -/
theorem Lawful.feedLoop_dry (lawful : side.Lawful) {fuel : ℕ} {s : σ}
    (enough : (side.link s).decoder.buf.length < fuel) (done : (side.feedLoop fuel s).outcome = none) :
    (side.link (side.feedLoop fuel s).session).decoder.parse = .ok none := by
  induction fuel generalizing s with
  | zero => omega
  | succ fuel ih =>
    have gives := (side.link s).decoder.nextMessage_gives
    have pulled := congrArg Link.decoder (lawful.pulled s)
    unfold feedLoop at done ⊢
    rcases next : (side.link s).decoder.nextMessage with ⟨e | _ | m, d⟩
    · rw [next] at done
      contradiction
    · rw [next] at gives pulled
      dsimp only
      rw [pulled]
      exact gives.end rfl
    · rw [next] at gives done pulled
      dsimp only at done ⊢
      cases handled : side.handle m (side.pulled s) with
      | error e =>
        rw [handled] at done
        contradiction
      | ok result =>
        obtain ⟨s', events⟩ := result
        rw [handled] at done
        have buf := lawful.handle_buf handled
        have shorter := gives.1
        have left : (side.link (side.pulled s)).decoder.buf = d.buf := congrArg ChunkDecoder.buf pulled
        exact ih (by rw [buf, left]; omega) done

end Side

end StreamDelay.Rtmp
