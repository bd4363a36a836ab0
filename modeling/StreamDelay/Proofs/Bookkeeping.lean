import Mathlib.Tactic.Common
import Mathlib.Logic.Relation
import StreamDelay.Proofs.Limits
import StreamDelay.Rtmp.Guarded

/-! # The decoder's bookkeeping

What `pending` counts is what the chunk streams hold, and every call keeps it so. Where it does, no call
reaches past what it has checked for.
-/

namespace StreamDelay.Rtmp

open Foundations Foundations.Checked

/-- A chunk stream holds part of the message it is receiving, and nothing otherwise. -/
structure StreamState.Sound (st : StreamState) : Prop where
  short : st.inProgress = true → st.partialData.length < st.length
  idle : st.inProgress = false → st.partialData = []

namespace ChunkDecoder

variable {d : ChunkDecoder} {c : Chunk}

/-- The bytes of unfinished messages on all chunk streams. -/
def held (d : ChunkDecoder) : ℕ := Tally.total (fun st => st.partialData.length) d.streams

/-- The decoder's books are right, and within its limits. -/
structure Sound (d : ChunkDecoder) : Prop where
  pending : d.pending = d.held
  bounded : d.pending ≤ MAX_PENDING_BYTES
  few : d.streams.keys.length ≤ MAX_CHUNK_STREAMS
  streams : ∀ csid st, d.streams.lookup csid = some st → st.Sound

theorem sound_new : Sound new :=
  ⟨rfl, Nat.zero_le _, Nat.zero_le _, fun _ _ known => nomatch known⟩

theorem elim_lookup (csid : ℕ) (d : ChunkDecoder) :
    (d.streams.lookup csid).elim 0 (fun st => st.partialData.length) = (d.stream csid).partialData.length := by
  unfold stream
  cases d.streams.lookup csid <;> rfl

theorem stream_le_held (csid : ℕ) (d : ChunkDecoder) : (d.stream csid).partialData.length ≤ d.held := by
  rw [← elim_lookup]
  exact Tally.le_total ..

private theorem held_insert (csid : ℕ) (st : StreamState) (d : ChunkDecoder) :
    Tally.total (fun st => st.partialData.length) (d.streams.insert csid st) +
      (d.stream csid).partialData.length = d.held + st.partialData.length := by
  rw [← elim_lookup]
  exact Tally.total_insert ..

/-! ## Taking a chunk -/

/-- A whole chunk is on a stream there is room for, and its data fits. -/
theorem parse_room (whole : d.parse = .ok (some c)) :
    (c.header.csid ∈ d.streams ∨ d.streams.keys.length < MAX_CHUNK_STREAMS) ∧
      d.pending - d.dropped c.header + c.data.length ≤ MAX_PENDING_BYTES := by
  unfold parse at whole
  split at whole
  · injections
  · next fmt csid b read =>
    split at whole
    · injections
    · split at whole
      · injections
      · next header known =>
        have room : header.csid ∈ d.streams ∨ d.streams.keys.length < MAX_CHUNK_STREAMS := by
          unfold readHeader at known
          split at known
          · injections
          · split at known
            · injections
            · next free =>
              dsimp only at known
              split at known
              · injections
              · obtain rfl := Except.ok.inj known
                by_cases used : csid ∈ d.streams
                · exact .inl used
                · exact .inr (Nat.lt_of_not_le fun full => free ⟨used, full⟩)
        unfold readBody at whole
        split at whole
        · injections
        · split at whole
          · injections
          · next enough =>
            split at whole
            · injections
            · next fits =>
              obtain rfl := Option.some.inj (Except.ok.inj whole)
              refine ⟨room, ?_⟩
              rw [List.length_take, Nat.min_eq_left (Nat.le_of_not_lt enough)]
              exact Nat.le_of_not_lt fits

/-- The stream of a chunk holds the chunk's bytes more than the chunk left of it. -/
theorem received_length (c : Chunk) (d : ChunkDecoder) :
    (d.received c).partialData.length + d.dropped c.header =
      (d.stream c.header.csid).partialData.length + c.data.length := by
  unfold received dropped
  cases c.header.continuation
  · simp only [Bool.false_eq_true, if_false, newMessage, List.nil_append]
    exact Nat.add_comm ..
  · simp only [if_true, List.length_append, Nat.add_zero]

private theorem received_busy (whole : d.parse = .ok (some c)) : (d.received c).inProgress = true := by
  obtain ⟨-, on, -⟩ := parse_header whole
  unfold received
  cases continues : c.header.continuation with
  | false => rfl
  | true => exact (on continues).1

theorem dropped_le (header : Header) (d : ChunkDecoder) :
    d.dropped header ≤ (d.stream header.csid).partialData.length := by
  unfold dropped
  split
  · exact Nat.zero_le _
  · exact Nat.le_refl _

/-- A stream's new state, with the count changed to match it. -/
theorem Sound.insert (sound : d.Sound) {csid pending : ℕ} {st : StreamState}
    (room : csid ∈ d.streams ∨ d.streams.keys.length < MAX_CHUNK_STREAMS) (fine : st.Sound)
    (count : pending + (d.stream csid).partialData.length = d.pending + st.partialData.length)
    (bounded : pending ≤ MAX_PENDING_BYTES) (buf : Bytes) (repeats : Option Bool) :
    Sound { d with buf := buf, repeatsExtended := repeats, pending := pending,
                   streams := d.streams.insert csid st } := by
  refine ⟨?_, bounded, ?_, fun other st' known => ?_⟩
  · have tally := held_insert csid st d
    have before := sound.pending
    show pending = Tally.total _ (d.streams.insert csid st)
    omega
  · show (d.streams.insert csid st).keys.length ≤ MAX_CHUNK_STREAMS
    have few := sound.few
    rw [Tally.length_keys_insert]
    split
    · exact few
    · next unused => exact room.resolve_left unused
  · have found : (d.streams.insert csid st).lookup other = some st' := known
    by_cases same : other = csid
    · subst same
      rw [AList.lookup_insert] at found
      exact Option.some.inj found ▸ fine
    · rw [AList.lookup_insert_ne same] at found
      exact sound.streams other st' found

theorem Sound.commit (sound : d.Sound) (whole : d.parse = .ok (some c)) : (d.commit c).2.Sound := by
  obtain ⟨room, fits⟩ := parse_room whole
  have length := received_length c d
  have dropped := dropped_le c.header d
  have held := stream_le_held c.header.csid d
  have pending := sound.pending
  unfold ChunkDecoder.commit
  dsimp only
  split
  · refine sound.insert room ⟨fun on => absurd on Bool.false_ne_true, fun _ => rfl⟩ ?_ ?_ ..
    · show d.pending - d.dropped c.header + c.data.length - (d.received c).partialData.length + _ = _ + 0
      omega
    · exact Nat.le_trans (Nat.sub_le ..) fits
  · next short =>
    refine sound.insert room ⟨fun _ => Nat.lt_of_not_le short, fun idle => ?_⟩ (by omega) fits ..
    rw [received_busy whole] at idle
    contradiction

theorem Sound.nextMessage (sound : d.Sound) : d.nextMessage.2.Sound := by
  induction size : d.buf.length using Nat.strong_induction_on generalizing d with
  | _ size ih =>
    rw [nextMessage_eq]
    cases whole : d.parse with
    | error e => exact sound
    | ok found =>
      cases found with
      | none => exact sound
      | some c =>
        have shorter : (d.commit c).2.buf.length < d.buf.length := by
          rw [commit_buf]
          exact parse_length whole
        have taken := sound.commit whole
        dsimp only
        revert shorter taken
        rcases d.commit c with ⟨_ | _ | m, next⟩ <;> intro shorter taken
        · exact taken
        · exact ih next.buf.length (by rw [← size]; exact shorter) taken rfl
        · exact taken

theorem Sound.abort (sound : d.Sound) (csid : ℕ) : (d.abort csid).Sound := by
  unfold ChunkDecoder.abort
  split
  · exact sound
  · next st used =>
    have known : d.stream csid = st := by
      rw [stream, used]
      rfl
    have held := stream_le_held csid d
    have pending := sound.pending
    have member : csid ∈ d.streams := AList.lookup_isSome.mp (by rw [used]; rfl)
    rw [known] at held
    refine sound.insert (.inl member) ⟨fun on => absurd on Bool.false_ne_true, fun _ => rfl⟩ ?_ ?_ d.buf
      d.repeatsExtended
    · rw [known]
      show d.pending - st.partialData.length + st.partialData.length = d.pending + 0
      omega
    · exact Nat.le_trans (Nat.sub_le ..) sound.bounded

end ChunkDecoder

theorem Call.run_sound {d : ChunkDecoder} (call : Call) (sound : d.Sound) : (call.run d).1.Sound := by
  cases call with
  | push data => exact ⟨sound.pending, sound.bounded, sound.few, sound.streams⟩
  | nextMessage => exact sound.nextMessage
  | abort csid => exact sound.abort csid
  | setChunkSize size =>
    unfold Call.run ChunkDecoder.setChunkSize
    dsimp only
    split
    · exact sound
    · next d' accepted =>
      split at accepted
      · injections
      · obtain rfl := Except.ok.inj accepted
        exact ⟨sound.pending, sound.bounded, sound.few, sound.streams⟩
  | setMaxMessageLen media other => exact ⟨sound.pending, sound.bounded, sound.few, sound.streams⟩

/-! ## Nothing out of range -/

namespace Guarded

variable {d : ChunkDecoder}

theorem u24_eq {b : Bytes} (enough : 3 ≤ b.length) : u24 b = some (Rtmp.u24 b) := by
  have high := (b.getD 0 0).toNat_lt
  have middle := (b.getD 1 0).toNat_lt
  have low := (b.getD 2 0).toNat_lt
  have first : shl 32 (b.getD 0 0).toNat 16 = some ((b.getD 0 0).toNat <<< 16) :=
    shl_of_lt (by decide) (by rw [Nat.shiftLeft_eq]; omega)
  have second : shl 32 (b.getD 1 0).toNat 8 = some ((b.getD 1 0).toNat <<< 8) :=
    shl_of_lt (by decide) (by rw [Nat.shiftLeft_eq]; omega)
  unfold u24
  rw [index_of_lt (by omega : 0 < b.length) 0, index_of_lt (by omega : 1 < b.length) 0,
    index_of_lt (by omega : 2 < b.length) 0]
  simp only [Option.bind_eq_bind, Option.bind_some, first, second, Option.pure_def, Option.some.injEq]
  have joined : (b.getD 0 0).toNat <<< 16 ||| (b.getD 1 0).toNat <<< 8 =
      ((b.getD 0 0).toNat <<< 8 + (b.getD 1 0).toNat) <<< 8 := by
    rw [← Nat.shiftLeft_add_eq_or_of_lt (by rw [Nat.shiftLeft_eq]; omega)]
    simp only [Nat.shiftLeft_eq]
    omega
  rw [joined, ← Nat.shiftLeft_add_eq_or_of_lt (by omega), Rtmp.u24]
  simp only [Nat.shiftLeft_eq]
  omega

theorem word_eq {b : Bytes} {i : ℕ} (enough : i + 4 ≤ b.length) :
    word b i = some [b.getD i 0, b.getD (i + 1) 0, b.getD (i + 2) 0, b.getD (i + 3) 0] := by
  unfold word
  rw [index_of_lt (by omega : i < b.length) 0, index_of_lt (by omega : i + 1 < b.length) 0,
    index_of_lt (by omega : i + 2 < b.length) 0, index_of_lt (by omega : i + 3 < b.length) 0]
  rfl

private theorem be32_eq {b : Bytes} (enough : 4 ≤ b.length) : be32 b = some (Rtmp.be32 b) := by
  unfold be32
  rw [word_eq (by omega)]
  rfl

/-- What follows a position of a buffer. -/
structure At (b : Bytes) (pos : ℕ) (rest : Bytes) : Prop where
  rest : rest = b.drop pos
  inside : pos ≤ b.length

theorem At.length {b rest : Bytes} {pos : ℕ} (here : At b pos rest) : rest.length = b.length - pos := by
  rw [here.rest, List.length_drop]

theorem At.move {b rest : Bytes} {pos n : ℕ} (here : At b pos rest) (enough : n ≤ rest.length) :
    At b (pos + n) (rest.drop n) := by
  have length := here.length
  have inside := here.inside
  exact ⟨by rw [here.rest, List.drop_drop], by omega⟩

private theorem basicHeader_at (b : Bytes) :
    match Rtmp.basicHeader b with
    | none => basicHeader b = some none
    | some (fmt, csid, rest) => ∃ pos, basicHeader b = some (some (fmt, csid, pos)) ∧ At b pos rest := by
  cases b with
  | nil => rfl
  | cons b0 b =>
    unfold Rtmp.basicHeader basicHeader
    rw [if_neg (by simp), index_of_lt (Nat.zero_lt_succ _) 0]
    simp only [Option.bind_eq_bind, Option.bind_some, List.getD_cons_zero]
    generalize (b0 &&& 0x3f).toNat = kind
    rcases kind with _ | _ | n
    · cases b with
      | nil => rfl
      | cons b1 b => exact ⟨2, rfl, rfl, by simp⟩
    · cases b with
      | nil => rfl
      | cons b1 b =>
        cases b with
        | nil => rfl
        | cons b2 b =>
          have small := b2.toNat_lt
          have moved : shl 32 b2.toNat 8 = some (b2.toNat * 2 ^ 8) := by
            rw [shl_of_lt (by decide) (by rw [Nat.shiftLeft_eq]; omega), Nat.shiftLeft_eq]
          refine ⟨3, ?_, rfl, by simp⟩
          rw [index_of_lt (by simp) 0, index_of_lt (by simp) 0]
          simp only [Option.bind_some, List.getD_cons_succ, List.getD_cons_zero, moved, Option.pure_def]
          exact if_neg (by simp)
    · exact ⟨1, rfl, rfl, by simp⟩

theorem u24_take {b : Bytes} (enough : 3 ≤ b.length) : Rtmp.u24 (b.take 3) = Rtmp.u24 b := by
  conv_rhs => rw [← List.take_append_drop 3 b]
  exact (u24_append (by rw [List.length_take]; omega) _).symm

private theorem three_le_headerLen {fmt : ℕ} (short : fmt ≤ 2) : 3 ≤ headerLen fmt := by
  rcases fmt with _ | _ | _ | n
  · decide
  · decide
  · decide
  · omega

theorem seven_le_headerLen {fmt : ℕ} (short : fmt ≤ 1) : 7 ≤ headerLen fmt := by
  rcases fmt with _ | _ | n
  · decide
  · decide
  · omega

private theorem readHeader_eq {fmt csid : ℕ} {h : Bytes} (enough : h.length = headerLen fmt) (d : ChunkDecoder) :
    readHeader fmt csid h d = some (d.readHeader fmt csid h) := by
  have ts : (if fmt ≤ 2 then (slice h 0 3).bind u24 else some 0) = some (if fmt ≤ 2 then Rtmp.u24 h else 0) := by
    split
    · next short =>
      have long : 3 ≤ h.length := by
        rw [enough]
        exact three_le_headerLen short
      rw [slice_of_le (by decide) long, Option.bind_some, u24_eq (by simp; omega)]
      exact congrArg some (u24_take long)
    · rfl
  have length : (if fmt ≤ 1 then (slice h 3 6).bind u24 else some (d.stream csid).length) =
      some (if fmt ≤ 1 then Rtmp.u24 (h.drop 3) else (d.stream csid).length) := by
    split
    · next short =>
      have long : 7 ≤ h.length := by
        rw [enough]
        exact seven_le_headerLen short
      rw [slice_of_le (by decide) (by omega), Option.bind_some, u24_eq (by simp; omega)]
      exact congrArg some (u24_take (by rw [List.length_drop]; omega))
    · rfl
  have type : (if fmt ≤ 1 then index h 6 else some (d.stream csid).typeId) =
      some (if fmt ≤ 1 then h.getD 6 0 else (d.stream csid).typeId) := by
    split
    · next short =>
      have long : 7 ≤ h.length := by
        rw [enough]
        exact seven_le_headerLen short
      exact index_of_lt (by omega) 0
    · rfl
  have id : (if fmt = 0 then (word h 7).map le32 else some (d.stream csid).streamId) =
      some (if fmt = 0 then le32 (h.drop 7) else (d.stream csid).streamId) := by
    split
    · next first =>
      subst first
      rw [word_eq (by rw [enough]; decide), Option.map_some]
      congr 1
      simp only [le32, List.getD_eq_getElem?_getD, List.getElem?_drop]
      rfl
    · rfl
  unfold readHeader ChunkDecoder.readHeader
  dsimp only
  rw [ts, length, type, id]
  split
  · rfl
  · split
    · rfl
    · simp only [Option.bind_eq_bind, Option.bind_some]
      exact (apply_ite some _ _ _).symm

/-- The four bytes of an extended timestamp. -/
theorem wordAt_eq {b rest : Bytes} {pos : ℕ} (here : At b pos rest) :
    wordAt b pos = some (if rest.length < 4 then none else some (Rtmp.be32 rest)) := by
  have length := here.length
  have inside := here.inside
  unfold wordAt
  by_cases short : rest.length < 4
  · rw [if_pos short, if_pos (by omega)]
    rfl
  · rw [if_neg short, if_neg (by omega), slice_of_le (by omega) (by omega), Option.bind_some,
      be32_eq (by rw [List.length_take, List.length_drop]; omega)]
    simp only [Option.bind_eq_bind, Option.bind_some, Option.pure_def, Option.some.injEq]
    rw [here.rest]
    simp only [Rtmp.be32, List.getD_eq_getElem?_getD, List.getElem?_take]
    rw [if_pos (by omega), if_pos (by omega), if_pos (by omega), if_pos (by omega)]

private theorem readExtension_at {rest : Bytes} {pos : ℕ} (header : Header) (here : At d.buf pos rest) :
    match d.readExtension header rest with
    | none => readExtension header pos d = some none
    | some ext => ∃ last, readExtension header pos d = some (some ⟨ext.extended, ext.extValue, ext.learned, last⟩) ∧
        At d.buf last ext.rest := by
  have length := here.length
  have inside := here.inside
  have field : wordAt d.buf pos = some (if rest.length < 4 then none else some (Rtmp.be32 rest)) := wordAt_eq here
  unfold ChunkDecoder.readExtension readExtension
  dsimp only
  rw [field]
  simp only [Option.bind_eq_bind, Option.bind_some]
  by_cases kind : header.fmt ≤ 2
  · simp only [if_pos kind]
    by_cases marked : header.tsField = EXTENDED
    · simp only [if_pos marked]
      by_cases short : rest.length < 4
      · simp only [if_pos short]
        rfl
      · simp only [if_neg short]
        exact ⟨pos + 4, rfl, here.move (Nat.le_of_not_lt short)⟩
    · simp only [if_neg marked]
      exact ⟨pos, rfl, here⟩
  · simp only [if_neg kind]
    cases (d.stream header.csid).extended with
    | false => exact ⟨pos, rfl, here⟩
    | true =>
      simp only [if_true]
      cases header.continuation with
      | false =>
        simp only [Bool.false_eq_true, if_false]
        by_cases short : rest.length < 4
        · simp only [if_pos short]
          rfl
        · simp only [if_neg short]
          exact ⟨pos + 4, rfl, here.move (Nat.le_of_not_lt short)⟩
      | true =>
        simp only [if_true]
        cases d.repeatsExtended with
        | none =>
          by_cases short : rest.length < 4
          · simp only [if_pos short]
            rfl
          · simp only [if_neg short]
            by_cases same : Rtmp.be32 rest = (d.stream header.csid).extValue
            · simp only [same, decide_true, if_true]
              exact ⟨pos + 4, rfl, here.move (Nat.le_of_not_lt short)⟩
            · simp only [same, if_false]
              exact ⟨pos, rfl, here⟩
        | some repeats =>
          cases repeats with
          | false => exact ⟨pos, rfl, here⟩
          | true =>
            by_cases short : rest.length < 4
            · simp only [if_pos short, if_pos (by omega : d.buf.length < pos + 4)]
              rfl
            · simp only [if_neg short, if_neg (by omega : ¬d.buf.length < pos + 4)]
              exact ⟨pos + 4, rfl, here.move (Nat.le_of_not_lt short)⟩

/-- With the books right, taking a chunk subtracts no more than there is. -/
theorem takeChunk_eq {header : Header} {ext : Extension} {rest : Bytes} {pos : ℕ} (sound : d.Sound)
    (here : At d.buf pos ext.rest) (read : d.readExtension header rest = some ext) :
    takeChunk header ⟨ext.extended, ext.extValue, ext.learned, pos⟩ d =
      match d.readBody header rest with
      | .error e => some (.error e, d)
      | .ok none => some (.ok .needMore, d)
      | .ok (some c) => some (.ok (d.commit c).1, (d.commit c).2) := by
  have length := here.length
  have inside := here.inside
  have dropped : d.dropped header ≤ d.pending := by
    rw [sound.pending]
    exact Nat.le_trans (ChunkDecoder.dropped_le header d) (ChunkDecoder.stream_le_held header.csid d)
  unfold takeChunk ChunkDecoder.readBody
  rw [read]
  dsimp only
  by_cases short : ext.rest.length < d.take header
  · rw [if_pos short, if_pos (by omega)]
    rfl
  · rw [if_neg short, if_neg (by omega), sub_of_le dropped]
    simp only [Option.bind_eq_bind, Option.bind_some]
    by_cases full : MAX_PENDING_BYTES < d.pending - d.dropped header + d.take header
    · rw [if_pos full, if_pos full]
      rfl
    · rw [if_neg full, if_neg full, slice_of_le (by omega) (by omega), advance_of_le (by omega)]
      simp only [Option.bind_some]
      have data : (d.buf.drop pos).take (pos + d.take header - pos) = ext.rest.take (d.take header) := by
        rw [here.rest, Nat.add_sub_cancel_left]
      have after : d.buf.drop (pos + d.take header) = ext.rest.drop (d.take header) := by
        rw [here.rest, List.drop_drop]
      rw [data, after]
      generalize chunk : (⟨header, ext.extended, ext.extValue, ext.learned, ext.rest.take (d.take header),
        ext.rest.drop (d.take header)⟩ : Chunk) = c
      have size : c.data.length = d.take header := by
        rw [← chunk]
        exact List.length_take_of_le (Nat.le_of_not_lt short)
      have received := ChunkDecoder.received_length c d
      have held := ChunkDecoder.stream_le_held c.header.csid d
      have pending := sound.pending
      have same : c.header = header := by rw [← chunk]
      rw [same] at received held
      have enough : (d.received c).partialData.length ≤ d.pending - d.dropped header + d.take header := by omega
      unfold ChunkDecoder.commit
      rw [sub_of_le enough, size, same]
      subst chunk
      dsimp only
      split <;> rfl

private theorem nextChunk_eq (sound : d.Sound) : nextChunk d = some d.nextChunk := by
  unfold nextChunk ChunkDecoder.nextChunk ChunkDecoder.parse
  have front := basicHeader_at d.buf
  revert front
  cases Rtmp.basicHeader d.buf with
  | none =>
    intro front
    rw [front]
    rfl
  | some found =>
    obtain ⟨fmt, csid, b⟩ := found
    rintro ⟨pos, front, here⟩
    have length := here.length
    have inside := here.inside
    rw [front]
    simp only [Option.bind_eq_bind, Option.bind_some]
    by_cases short : b.length < headerLen fmt
    · rw [if_pos short, if_pos (by omega)]
      rfl
    · have long : headerLen fmt ≤ b.length := Nat.le_of_not_lt short
      have header : (d.buf.drop pos).take (pos + headerLen fmt - pos) = b.take (headerLen fmt) := by
        rw [here.rest, Nat.add_sub_cancel_left]
      rw [if_neg short, if_neg (by omega), slice_of_le (by omega) (by omega), Option.bind_some, header,
        readHeader_eq (List.length_take_of_le long), Option.bind_some]
      cases d.readHeader fmt csid (b.take (headerLen fmt)) with
      | error e => rfl
      | ok header =>
        dsimp only
        have next := readExtension_at header (here.move long)
        revert next
        cases read : d.readExtension header (b.drop (headerLen fmt)) with
        | none =>
          intro next
          rw [next]
          unfold ChunkDecoder.readBody
          rw [read]
          rfl
        | some ext =>
          rintro ⟨last, next, there⟩
          rw [next, Option.bind_some]
          dsimp only
          rw [takeChunk_eq sound there read]
          cases d.readBody header (b.drop (headerLen fmt)) with
          | error e => rfl
          | ok body => cases body <;> rfl

private theorem nextMessageLoop_eq (fuel : ℕ) (sound : d.Sound) :
    nextMessageLoop fuel d = some (d.nextMessageLoop fuel) := by
  induction fuel generalizing d with
  | zero => rfl
  | succ fuel ih =>
    unfold nextMessageLoop ChunkDecoder.nextMessageLoop
    rw [nextChunk_eq sound]
    simp only [Option.bind_eq_bind, Option.bind_some, ChunkDecoder.nextChunk]
    cases whole : d.parse with
    | error e => rfl
    | ok found =>
      cases found with
      | none => rfl
      | some c =>
        have taken := sound.commit whole
        dsimp only
        revert taken
        rcases d.commit c with ⟨_ | _ | m, next⟩ <;> intro taken
        · rfl
        · exact ih taken
        · rfl

private theorem abort_eq (csid : ℕ) (sound : d.Sound) : abort csid d = some (d.abort csid) := by
  unfold abort ChunkDecoder.abort
  cases used : d.streams.lookup csid with
  | none => rfl
  | some st =>
    have held := Tally.le_total (fun st : StreamState => st.partialData.length) csid d.streams
    rw [used] at held
    have enough : st.partialData.length ≤ d.pending := by
      rw [sound.pending]
      exact held
    dsimp only
    rw [sub_of_le enough]
    rfl

end Guarded

/-- No call reaches past what it has checked for. -/
theorem Call.guarded_eq {d : ChunkDecoder} (call : Call) (sound : d.Sound) :
    call.guarded d = some (call.run d) := by
  cases call with
  | nextMessage =>
    show (Guarded.nextMessageLoop _ d).map _ = _
    rw [Guarded.nextMessageLoop_eq _ sound]
    rfl
  | abort csid =>
    show (Guarded.abort csid d).map _ = _
    rw [Guarded.abort_eq csid sound]
    rfl
  | push | setChunkSize | setMaxMessageLen => rfl

/-! ## Errors -/

namespace ChunkDecoder

/-- What a call of `next_message` that fails leaves is what the chunks it could take left. -/
theorem nextMessage_failed {d : ChunkDecoder} {e : ChunkError} (failed : d.nextMessage.1 = .error e) :
    Relation.ReflTransGen (fun d d' => d.nextChunk = (.ok .partialMessage, d')) d d.nextMessage.2 ∧
      d.nextMessage.2.nextChunk = (.error e, d.nextMessage.2) := by
  induction size : d.buf.length using Nat.strong_induction_on generalizing d with
  | _ size ih =>
    rw [nextMessage_eq] at failed ⊢
    cases whole : d.parse with
    | error e' =>
      rw [whole] at failed
      obtain rfl := Except.error.inj failed
      refine ⟨.refl, ?_⟩
      unfold nextChunk
      dsimp only
      rw [whole]
    | ok found =>
      cases found with
      | none =>
        rw [whole] at failed
        injections
      | some c =>
        rw [whole] at failed
        have shorter : (d.commit c).2.buf.length < d.buf.length := by
          rw [commit_buf]
          exact parse_length whole
        have turn : d.nextChunk = (.ok (d.commit c).1, (d.commit c).2) := by
          unfold nextChunk
          rw [whole]
        dsimp only at failed ⊢
        revert failed shorter turn
        rcases d.commit c with ⟨_ | _ | m, next⟩ <;> intro failed shorter turn
        · injections
        · obtain ⟨taken, refused⟩ := ih next.buf.length (by rw [← size]; exact shorter) failed rfl
          exact ⟨.head turn taken, refused⟩
        · injections

end ChunkDecoder

end StreamDelay.Rtmp
