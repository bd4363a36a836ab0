import Mathlib.Tactic.Common
import StreamDelay.Proofs.Chunk

/-! # The length limits of a decoder

A message over the limit is an error as soon as its header is there: nothing of it is kept on its chunk
stream, and it is never given.
-/

namespace StreamDelay.Rtmp

/-- A chunk stream holds no message over a limit. -/
structure StreamState.Within (limit : ℕ) (st : StreamState) : Prop where
  length : st.inProgress = true → st.length ≤ limit
  received : st.partialData.length ≤ st.length
  idle : st.inProgress = false → st.partialData = []

namespace ChunkDecoder

variable {limit : ℕ} {d : ChunkDecoder} {c : Chunk}

/-- No message is accepted or held that is over a limit. -/
structure Within (limit : ℕ) (d : ChunkDecoder) : Prop where
  media : d.maxMediaLen = limit
  other : d.maxOtherLen = limit
  streams : ∀ csid, (d.stream csid).Within limit

theorem within_default (limit : ℕ) : ({} : StreamState).Within limit :=
  ⟨fun on => absurd on Bool.false_ne_true, Nat.zero_le _, fun _ => rfl⟩

theorem Within.maxLen (within : d.Within limit) (typeId : UInt8) : d.maxLen typeId = limit := by
  unfold ChunkDecoder.maxLen
  split
  · exact within.media
  · exact within.other

theorem lookup_insert_stream (csid other : ℕ) (st : StreamState) (d : ChunkDecoder) :
    (({ d with streams := d.streams.insert csid st } : ChunkDecoder).stream other) =
      if other = csid then st else d.stream other := by
  unfold stream
  by_cases same : other = csid
  · rw [if_pos same, same, AList.lookup_insert]
    rfl
  · rw [if_neg same, AList.lookup_insert_ne same]

/-- What the header of a whole chunk says has been checked. -/
theorem parse_header (whole : d.parse = .ok (some c)) :
    (c.header.continuation = false → c.header.length ≤ d.maxLen c.header.typeId) ∧
      (c.header.continuation = true → (d.stream c.header.csid).inProgress = true ∧
        c.header.length = (d.stream c.header.csid).length) ∧
      c.data.length ≤ c.header.length - d.already c.header := by
  unfold parse at whole
  split at whole
  · injections
  · next fmt csid b read =>
    split at whole
    · injections
    · split at whole
      · injections
      · next header known =>
        have same : c.header = header ∧ c.data.length ≤ header.length - d.already header := by
          unfold readBody at whole
          split at whole
          · injections
          · split at whole
            · injections
            · split at whole
              · injections
              · obtain rfl := Option.some.inj (Except.ok.inj whole)
                refine ⟨rfl, Nat.le_trans (List.length_take_le ..) (Nat.min_le_left ..)⟩
        unfold readHeader at known
        split at known
        · injections
        · split at known
          · injections
          · dsimp only at known
            split at known
            · injections
            · next small =>
              obtain rfl := Except.ok.inj known
              rw [same.1]
              refine ⟨fun first => ?_, fun on => ?_, same.2⟩
              · exact Nat.le_of_not_lt fun exceeds => small ⟨first, exceeds⟩
              · have both := (Bool.and_eq_true _ _).mp on
                have empty : fmt = 3 := of_decide_eq_true both.1
                subst empty
                exact ⟨both.2, rfl⟩

/-- The stream of a chunk, with the chunk's bytes, holds no more than its message has. -/
theorem received_within (within : d.Within limit) (whole : d.parse = .ok (some c)) :
    (d.received c).length ≤ limit ∧ (d.received c).partialData.length ≤ (d.received c).length ∧
      (d.received c).inProgress = true := by
  obtain ⟨first, on, data⟩ := parse_header whole
  have known := within.streams c.header.csid
  cases continues : c.header.continuation with
  | false =>
    have checked := first continues
    rw [within.maxLen] at checked
    have none : d.already c.header = 0 := by
      rw [already, continues]
      rfl
    rw [none] at data
    have same : d.received c = { newMessage c (d.stream c.header.csid) with partialData := [] ++ c.data } := by
      simp only [received, continues, Bool.false_eq_true, if_false, newMessage]
    rw [same]
    exact ⟨checked, data, rfl⟩
  | true =>
    obtain ⟨busy, length⟩ := on continues
    have some : d.already c.header = (d.stream c.header.csid).partialData.length := by
      rw [already, continues]
      rfl
    rw [some, length] at data
    have same : d.received c = { d.stream c.header.csid with
        partialData := (d.stream c.header.csid).partialData ++ c.data } := by
      simp only [received, continues, if_true]
    have before := known.received
    rw [same]
    refine ⟨known.length busy, ?_, busy⟩
    show ((d.stream c.header.csid).partialData ++ c.data).length ≤ (d.stream c.header.csid).length
    rw [List.length_append]
    omega

private theorem commit_within (within : d.Within limit) (whole : d.parse = .ok (some c)) :
    (d.commit c).2.Within limit ∧ ∀ m ∈ (d.commit c).1.messages, m.payload.length ≤ limit := by
  obtain ⟨length, held, busy⟩ := received_within within whole
  have update {st : StreamState} {pending : ℕ} (fine : st.Within limit) :
      ({ d with
          repeatsExtended := c.learned.or d.repeatsExtended
          buf := c.rest
          pending := pending
          streams := d.streams.insert c.header.csid st } : ChunkDecoder).Within limit := by
    refine ⟨within.media, within.other, fun other => ?_⟩
    have found := lookup_insert_stream c.header.csid other st d
    unfold stream at found ⊢
    rw [found]
    split
    · exact fine
    · exact within.streams other
  unfold commit
  dsimp only
  split
  · refine ⟨update ⟨fun on => absurd on Bool.false_ne_true, Nat.zero_le _, fun _ => rfl⟩, ?_⟩
    intro m given
    obtain rfl := List.mem_singleton.mp given
    exact Nat.le_trans held length
  · refine ⟨update ⟨fun _ => length, held, fun idle => ?_⟩, fun m given => absurd given List.not_mem_nil⟩
    rw [busy] at idle
    contradiction

/-- What `next_message` leaves and gives is within the limit. -/
theorem nextMessage_within (within : d.Within limit) :
    d.nextMessage.2.Within limit ∧ ∀ m, d.nextMessage.1 = .ok (some m) → m.payload.length ≤ limit := by
  induction size : d.buf.length using Nat.strong_induction_on generalizing d with
  | _ size ih =>
    rw [nextMessage_eq]
    cases whole : d.parse with
    | error e => exact ⟨within, fun m given => by injections⟩
    | ok found =>
      cases found with
      | none => exact ⟨within, fun m given => by injections⟩
      | some c =>
        have shorter : (d.commit c).2.buf.length < d.buf.length := by
          rw [commit_buf]
          exact parse_length whole
        have taken := commit_within within whole
        dsimp only
        revert shorter taken
        rcases d.commit c with ⟨_ | _ | m, next⟩ <;> intro shorter taken
        · exact ⟨taken.1, fun m given => by injections⟩
        · exact ih next.buf.length (by rw [← size]; exact shorter) taken.1 rfl
        · refine ⟨taken.1, fun m' given => ?_⟩
          obtain rfl := Option.some.inj (Except.ok.inj given)
          exact taken.2 m (List.mem_singleton_self m)

/-- A call of `next_message` sets no limits. -/
theorem nextMessage_limits (d : ChunkDecoder) :
    d.nextMessage.2.maxMediaLen = d.maxMediaLen ∧ d.nextMessage.2.maxOtherLen = d.maxOtherLen := by
  induction size : d.buf.length using Nat.strong_induction_on generalizing d with
  | _ size ih =>
    rw [nextMessage_eq]
    cases whole : d.parse with
    | error e => exact ⟨rfl, rfl⟩
    | ok found =>
      cases found with
      | none => exact ⟨rfl, rfl⟩
      | some c =>
        have shorter : (d.commit c).2.buf.length < d.buf.length := by
          rw [commit_buf]
          exact parse_length whole
        have kept : (d.commit c).2.maxMediaLen = d.maxMediaLen ∧
            (d.commit c).2.maxOtherLen = d.maxOtherLen := by
          unfold commit
          dsimp only
          split <;> exact ⟨rfl, rfl⟩
        dsimp only
        revert shorter kept
        rcases d.commit c with ⟨_ | _ | m, next⟩ <;> intro shorter kept
        · exact kept
        · have later := ih next.buf.length (by rw [← size]; exact shorter) next rfl
          exact ⟨later.1.trans kept.1, later.2.trans kept.2⟩
        · exact kept

theorem Within.push (within : d.Within limit) (data : Bytes) : (d.push data).Within limit :=
  ⟨within.media, within.other, within.streams⟩

/-- A decoder goes on with the limits it had. -/
structure Keeps (d d' : ChunkDecoder) : Prop where
  within : ∀ {limit}, d.Within limit → d'.Within limit
  limits : d'.maxMediaLen = d.maxMediaLen ∧ d'.maxOtherLen = d.maxOtherLen

theorem Keeps.chunkSize (size : ℕ) (d : ChunkDecoder) : d.Keeps { d with chunkSize := size } :=
  ⟨fun within => ⟨within.media, within.other, within.streams⟩, rfl, rfl⟩

theorem Keeps.push (data : Bytes) (d : ChunkDecoder) : d.Keeps (d.push data) :=
  ⟨fun within => within.push data, rfl, rfl⟩

theorem Keeps.nextMessage (d : ChunkDecoder) : d.Keeps d.nextMessage.2 :=
  ⟨fun within => (nextMessage_within within).1, d.nextMessage_limits⟩

theorem Within.abort (within : d.Within limit) (csid : ℕ) : (d.abort csid).Within limit := by
  unfold ChunkDecoder.abort
  split
  · exact within
  · next st used =>
    have known : d.stream csid = st := by
      rw [stream, used]
      rfl
    refine ⟨within.media, within.other, fun other => ?_⟩
    have found := lookup_insert_stream csid other { st with partialData := [], inProgress := false } d
    unfold stream at found ⊢
    rw [found]
    split
    · exact ⟨fun on => absurd on Bool.false_ne_true, Nat.zero_le _, fun _ => rfl⟩
    · exact within.streams other

/-- Where more bytes are needed, the header at the front of the buffer, once it is whole, is that of no
message over the limit. -/
theorem front_within (within : d.Within limit) (short : d.parse = .ok none) {fmt csid : ℕ} {b : Bytes}
    (read : basicHeader d.buf = some (fmt, csid, b)) (whole : headerLen fmt ≤ b.length)
    (first : (d.fillHeader fmt csid (b.take (headerLen fmt))).continuation = false) :
    (d.fillHeader fmt csid (b.take (headerLen fmt))).length ≤ limit := by
  by_contra exceeds
  unfold parse at short
  rw [read] at short
  dsimp only at short
  rw [if_neg (Nat.not_lt.mpr whole)] at short
  have refused : ∃ e, d.readHeader fmt csid (b.take (headerLen fmt)) = .error e := by
    unfold readHeader
    split
    · exact ⟨_, rfl⟩
    · split
      · exact ⟨_, rfl⟩
      · dsimp only
        rw [within.maxLen, if_pos ⟨first, Nat.lt_of_not_le exceeds⟩]
        exact ⟨_, rfl⟩
  obtain ⟨e, refused⟩ := refused
  rw [refused] at short
  contradiction

end ChunkDecoder

end StreamDelay.Rtmp
