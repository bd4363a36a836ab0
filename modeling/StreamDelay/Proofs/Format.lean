import Mathlib.Tactic.Common
import StreamDelay.Proofs.Chunk
import StreamDelay.Rtmp.Format

/-! # The decoder reads the format

The decoder's state of a chunk stream mirrors the sender's, and a chunk the sender may write is read
back as what it is, whatever follows it.
-/

namespace StreamDelay.Rtmp

open Foundations

/-! ## Numbers in bytes -/

theorem bigEndian_three (v : ℕ) : bigEndian 3 v = [.ofNat (v / 2 ^ 16), .ofNat (v / 2 ^ 8), .ofNat v] := by
  simp [bigEndian, List.range_succ]

theorem bigEndian_four (v : ℕ) :
    bigEndian 4 v = [.ofNat (v / 2 ^ 24), .ofNat (v / 2 ^ 16), .ofNat (v / 2 ^ 8), .ofNat v] := by
  simp [bigEndian, List.range_succ]

theorem littleEndian_four (v : ℕ) :
    littleEndian 4 v = [.ofNat v, .ofNat (v / 2 ^ 8), .ofNat (v / 2 ^ 16), .ofNat (v / 2 ^ 24)] := by
  simp [littleEndian, List.range_succ]

theorem u24_bigEndian {v : ℕ} (small : v < 2 ^ 24) (x : Bytes) : u24 (bigEndian 3 v ++ x) = v := by
  rw [bigEndian_three]
  simp only [u24, List.cons_append, List.getD_cons_zero, List.getD_cons_succ, UInt8.toNat_ofNat']
  omega

theorem be32_bigEndian (v : UInt32) (x : Bytes) : be32 (bigEndian 4 v.toNat ++ x) = v := by
  have small := v.toNat_lt
  rw [bigEndian_four]
  simp only [be32, List.cons_append, List.getD_cons_zero, List.getD_cons_succ, UInt8.toNat_ofNat']
  apply UInt32.toNat_inj.mp
  rw [UInt32.toNat_ofNat']
  omega

private theorem le32_littleEndian (v : UInt32) (x : Bytes) : le32 (littleEndian 4 v.toNat ++ x) = v := by
  have small := v.toNat_lt
  rw [littleEndian_four]
  simp only [le32, List.cons_append, List.getD_cons_zero, List.getD_cons_succ, UInt8.toNat_ofNat']
  apply UInt32.toNat_inj.mp
  rw [UInt32.toNat_ofNat']
  omega

/-- Four bytes that are not those of a number do not read as it. -/
theorem be32_ne {b : Bytes} {v : UInt32} (enough : 4 ≤ b.length)
    (differ : b.take 4 ≠ bigEndian 4 v.toNat) : be32 b ≠ v := by
  rintro rfl
  apply differ
  match b, enough with
  | b0 :: b1 :: b2 :: b3 :: b, _ =>
    have small (b : UInt8) := b.toNat_lt
    have low0 := small b0
    have low1 := small b1
    have low2 := small b2
    have low3 := small b3
    rw [bigEndian_four]
    simp only [be32, List.getD_cons_zero, List.getD_cons_succ, List.take_succ_cons, List.take_zero,
      UInt32.toNat_ofNat', List.cons.injEq, and_true]
    refine ⟨?_, ?_, ?_, ?_⟩ <;>
    · apply UInt8.toNat_inj.mp
      rw [UInt8.toNat_ofNat']
      omega

theorem low_bits (b : UInt8) : (b &&& 0x3f).toNat = b.toNat % 64 := by
  rw [UInt8.toNat_and]
  exact Nat.and_two_pow_sub_one_eq_mod b.toNat 6

theorem high_bits (b : UInt8) : (b >>> 6).toNat = b.toNat / 64 := by
  rw [UInt8.toNat_shiftRight]
  exact Nat.shiftRight_eq_div_pow b.toNat 6

private theorem basicHeader_basicBytes {fmt : ℕ} (format : fmt < 4) (wide : Bool) {csid : ℕ}
    (range : 2 ≤ csid ∧ csid ≤ 65599) (x : Bytes) :
    basicHeader (basicBytes fmt wide csid ++ x) = some (fmt, csid, x) := by
  unfold basicBytes
  split
  · next short =>
    have low : (UInt8.ofNat (fmt * 64 + csid) &&& 0x3f).toNat = csid := by
      rw [low_bits, UInt8.toNat_ofNat']
      omega
    have high : (UInt8.ofNat (fmt * 64 + csid) >>> 6).toNat = fmt := by
      rw [high_bits, UInt8.toNat_ofNat']
      omega
    simp only [List.cons_append, List.nil_append, basicHeader, low, high]
    split
    · omega
    · omega
    · rfl
  · split
    · next long medium =>
      have low : (UInt8.ofNat (fmt * 64) &&& 0x3f).toNat = 0 := by
        rw [low_bits, UInt8.toNat_ofNat']
        omega
      have high : (UInt8.ofNat (fmt * 64) >>> 6).toNat = fmt := by
        rw [high_bits, UInt8.toNat_ofNat']
        omega
      have id : 64 + (UInt8.ofNat (csid - 64)).toNat = csid := by
        rw [UInt8.toNat_ofNat']
        omega
      simp only [List.cons_append, List.nil_append, basicHeader, low, high, id]
    · next long _ =>
      have low : (UInt8.ofNat (fmt * 64 + 1) &&& 0x3f).toNat = 1 := by
        rw [low_bits, UInt8.toNat_ofNat']
        omega
      have high : (UInt8.ofNat (fmt * 64 + 1) >>> 6).toNat = fmt := by
        rw [high_bits, UInt8.toNat_ofNat']
        omega
      have id : 64 + (UInt8.ofNat ((csid - 64) % 256)).toNat +
          (UInt8.ofNat ((csid - 64) / 256)).toNat * 2 ^ 8 = csid := by
        rw [UInt8.toNat_ofNat', UInt8.toNat_ofNat']
        omega
      simp only [List.cons_append, List.nil_append, basicHeader, low, high, id]

/-! ## A decoder that mirrors a sender -/

/-- What the decoder knows of the last message of a chunk stream is what its sender's lane says. -/
structure Describes (l : Lane) (st : StreamState) : Prop where
  timestamp : st.timestamp = l.message.timestamp
  delta : st.delta = l.delta
  length : st.length = l.message.payload.length
  typeId : st.typeId = l.message.typeId
  streamId : st.streamId = l.message.streamId
  extended : st.extended = l.extended
  extValue : l.extended = true → st.extValue = l.delta
  header : st.hasHeader = true

/-- The decoder has what was sent of an unfinished message. -/
structure Mirrors (l : Lane) (st : StreamState) : Prop extends Describes l st where
  progress : st.inProgress = decide (l.sent < l.message.payload.length)
  received : st.partialData =
    if l.sent < l.message.payload.length then l.message.payload.take l.sent else []

/-- A lane of one of the chunk streams there will be. -/
structure Lane.Fair (ids : Finset ℕ) (csid : ℕ) (l : Lane) : Prop where
  member : csid ∈ ids
  range : 2 ≤ csid ∧ csid ≤ 65599
  csid : l.message.csid = csid
  sent : l.sent ≤ l.message.payload.length
  short : l.message.payload.length < 2 ^ 24

/-- The decoder mirrors the sender: `size` is the chunk size on both sides, and `ids` are all the chunk
streams there will be. -/
structure Follows (size : ℕ) (ids : Finset ℕ) (lanes : Lanes) (d : ChunkDecoder) : Prop where
  chunkSize : d.chunkSize = size
  limits : d.maxMediaLen = USIZE_MAX ∧ d.maxOtherLen = USIZE_MAX
  absent : ∀ {csid}, lanes csid = none → csid ∉ d.streams
  present : ∀ {csid l}, lanes csid = some l → l.Fair ids csid ∧ Mirrors l (d.stream csid)
  known : ∀ {csid}, csid ∈ d.streams → csid ∈ ids
  pending : d.pending = lanes.held ids

theorem Lane.unfinished_of_le {l : Lane} (done : l.message.payload.length ≤ l.sent) :
    l.unfinished = 0 :=
  if_neg (Nat.not_lt.mpr done)

theorem Lane.unfinished_of_lt {l : Lane} (on : l.sent < l.message.payload.length) :
    l.unfinished = l.sent :=
  if_pos on

/-- Only how much was sent differs. -/
theorem Describes.congr {l l' : Lane} {st st' : StreamState} (described : Describes l st)
    (message : l'.message = l.message) (delta : l'.delta = l.delta)
    (same : st' = { st with partialData := st'.partialData, inProgress := st'.inProgress }) :
    Describes l' st' := by
  have extended : l'.extended = l.extended := by simp only [Lane.extended, delta]
  rw [same]
  constructor
  · exact message ▸ described.timestamp
  · exact delta ▸ described.delta
  · exact message ▸ described.length
  · exact message ▸ described.typeId
  · exact message ▸ described.streamId
  · exact extended ▸ described.extended
  · rw [extended, delta]
    exact described.extValue
  · exact described.header

namespace Lanes

@[simp] theorem advance_message (size : ℕ) (l : Lane) : (advance size l).message = l.message := rfl
@[simp] theorem advance_delta (size : ℕ) (l : Lane) : (advance size l).delta = l.delta := rfl
theorem advance_sent (size : ℕ) (l : Lane) :
    (advance size l).sent = min (l.sent + size) l.message.payload.length := rfl

private theorem held_update {ids : Finset ℕ} {csid : ℕ} (member : csid ∈ ids) (lanes : Lanes) (l : Lane) :
    held ids (Function.update lanes csid (some l)) + ((lanes csid).map Lane.unfinished).getD 0 =
      held ids lanes + l.unfinished := by
  have others : ∑ other ∈ ids.erase csid,
      ((Function.update lanes csid (some l) other).map Lane.unfinished).getD 0 =
        ∑ other ∈ ids.erase csid, ((lanes other).map Lane.unfinished).getD 0 := by
    apply Finset.sum_congr rfl
    intro other within
    rw [Function.update_of_ne (Finset.ne_of_mem_erase within)]
  simp only [held]
  rw [← Finset.add_sum_erase ids _ member, ← Finset.add_sum_erase ids _ member, others,
    Function.update_self]
  simp only [Option.map_some, Option.getD_some]
  omega

theorem data_length (size : ℕ) (l : Lane) :
    (data size l).length = min size (l.message.payload.length - l.sent) := by
  simp only [data, List.length_take, List.length_drop]

theorem take_data (size : ℕ) (l : Lane) :
    l.message.payload.take l.sent ++ data size l = l.message.payload.take (l.sent + size) :=
  List.take_add.symm

end Lanes

namespace ChunkDecoder

variable {size : ℕ} {ids : Finset ℕ} {lanes : Lanes} {d : ChunkDecoder}

theorem stream_insert (csid other : ℕ) (st : StreamState) (streams : AList fun _ : ℕ => StreamState) :
    ((streams.insert csid st).lookup other).getD {} =
      if other = csid then st else (streams.lookup other).getD {} := by
  split
  · next same =>
    subst same
    rw [AList.lookup_insert]
    rfl
  · next differ => rw [AList.lookup_insert_ne differ]

/-- Bringing one lane and its mirror on. -/
theorem follows_insert {csid pending : ℕ} {l : Lane} {st : StreamState} (follows : Follows size ids lanes d)
    (fair : l.Fair ids csid) (mirrors : Mirrors l st)
    (count : pending = Lanes.held ids (Function.update lanes csid (some l))) (buf : Bytes)
    (repeats : Option Bool) :
    Follows size ids (Function.update lanes csid (some l))
      { d with buf := buf, repeatsExtended := repeats, pending := pending,
               streams := d.streams.insert csid st } where
  chunkSize := follows.chunkSize
  limits := follows.limits
  absent := by
    intro other unused
    by_cases same : other = csid
    · rw [same, Function.update_self] at unused
      contradiction
    · rw [Function.update_of_ne same] at unused
      rw [AList.mem_insert, not_or]
      exact ⟨same, follows.absent unused⟩
  present := by
    intro other l' used
    by_cases same : other = csid
    · rw [same, Function.update_self] at used
      obtain rfl := Option.some.inj used
      simp only [stream, stream_insert, same, if_true]
      exact ⟨fair, mirrors⟩
    · rw [Function.update_of_ne same] at used
      simp only [stream, stream_insert, if_neg same]
      exact follows.present used
  known := by
    intro other used
    rcases (AList.mem_insert _).mp used with same | before
    · rw [same]
      exact fair.member
    · exact follows.known before
  pending := count

/-- Taking a chunk brings the decoder on as writing it brought on the sender. -/
theorem commit_follows {c : Chunk} {l : Lane} (follows : Follows size ids lanes d)
    (fair : l.Fair ids c.header.csid) (before : ((lanes c.header.csid).map Lane.unfinished).getD 0 = l.sent)
    (dropped : d.dropped c.header = 0) (bytes : c.data = Lanes.data size l)
    (described : Describes l (d.received c)) (progress : (d.received c).inProgress = true)
    (received : (d.received c).partialData = l.message.payload.take (l.sent + size)) (header : Bytes) :
    (d.commit c).1.messages = (Lanes.chunk size header l).completed.toList ∧
      Follows size ids (Function.update lanes c.header.csid (some (Lanes.advance size l)))
        (d.commit c).2 := by
  have onward : (Lanes.advance size l).Fair ids c.header.csid :=
    ⟨fair.member, fair.range, fair.csid, Nat.min_le_right .., fair.short⟩
  have held := Lanes.held_update fair.member lanes (Lanes.advance size l)
  rw [before, ← follows.pending] at held
  have data := Lanes.data_length size l
  have now := Lanes.advance_sent size l
  have sent := fair.sent
  unfold commit
  generalize d.received c = st at described progress received
  have count : st.partialData.length = min (l.sent + size) l.message.payload.length := by
    rw [received, List.length_take]
  dsimp only
  rw [bytes, dropped, Nat.sub_zero]
  have length := described.length
  by_cases full : st.length ≤ st.partialData.length
  · have whole : l.message.payload.length ≤ l.sent + size := by omega
    have done : ¬(Lanes.advance size l).sent < (Lanes.advance size l).message.payload.length := by
      rw [now, Lanes.advance_message]
      omega
    rw [if_pos full]
    refine ⟨?_, follows_insert follows onward ⟨described.congr rfl rfl rfl, ?_, ?_⟩ ?_ _ _⟩
    · simp only [ChunkResult.messages, Lanes.chunk, if_pos whole, Option.toList, described.timestamp,
        described.typeId, described.streamId, received, List.take_of_length_le whole, ← fair.csid]
    · rw [decide_eq_false done]
    · rw [if_neg done]
    · rw [Lane.unfinished_of_le (Nat.le_of_not_lt done)] at held
      omega
  · have more : ¬l.message.payload.length ≤ l.sent + size := by omega
    have on : (Lanes.advance size l).sent < (Lanes.advance size l).message.payload.length := by
      rw [now, Lanes.advance_message]
      omega
    rw [if_neg full]
    refine ⟨?_, follows_insert follows onward ⟨described.congr rfl rfl rfl, ?_, ?_⟩ ?_ _ _⟩
    · simp only [ChunkResult.messages, Lanes.chunk, if_neg more, Option.toList]
    · rw [decide_eq_true on, progress]
    · rw [if_pos on, now, received, Lanes.advance_message, Nat.min_eq_left (by omega)]
    · rw [Lane.unfinished_of_lt on, now] at held
      omega

/-! ## The first chunk of a message -/

private theorem messageHeader_length (fmt : Fin 4) (delta : UInt32) (m : Message) :
    (messageHeader fmt delta m).length = headerLen fmt.val := by
  match fmt with
  | 0 | 1 | 2 | 3 => rfl

/-- There is room for the chunk streams there will be. -/
theorem follows_room (follows : Follows size ids lanes d) (few : ids.card ≤ MAX_CHUNK_STREAMS)
    {csid : ℕ} (member : csid ∈ ids) : ¬(csid ∉ d.streams ∧ MAX_CHUNK_STREAMS ≤ d.streams.keys.length) := by
  rintro ⟨fresh, full⟩
  have within : d.streams.keys.toFinset ⊆ ids.erase csid := by
    intro other used
    have key : other ∈ d.streams := AList.mem_keys.mpr (List.mem_toFinset.mp used)
    refine Finset.mem_erase.mpr ⟨?_, follows.known key⟩
    rintro rfl
    exact fresh key
  have fewer := Finset.card_le_card within
  rw [List.toFinset_card_of_nodup d.streams.keys_nodup] at fewer
  have smaller := Finset.card_erase_lt_of_mem member
  omega

private theorem follows_maxLen (follows : Follows size ids lanes d) (typeId : UInt8) :
    d.maxLen typeId = USIZE_MAX := by
  unfold maxLen
  split
  · exact follows.limits.1
  · exact follows.limits.2

/-- What a new message may leave out of its header is known. -/
theorem legal_start {fmt : Fin 4} {wide : Bool} {m : Message} (follows : Follows size ids lanes d)
    (legal : lanes.Legal (.start fmt wide m)) :
    fmt.val = 0 ∨ ∃ l, lanes m.csid = some l ∧ l.sent = l.message.payload.length ∧
      Lanes.Fits l fmt m ∧ Mirrors l (d.stream m.csid) := by
  have known := legal.2.2
  cases used : lanes m.csid with
  | none =>
    rw [used] at known
    exact .inl (congrArg Fin.val known)
  | some l =>
    rw [used] at known
    exact .inr ⟨l, rfl, known.1, known.2, (follows.present used).2⟩

private theorem fillHeader_start {fmt : Fin 4} {wide : Bool} {m : Message} (follows : Follows size ids lanes d)
    (legal : lanes.Legal (.start fmt wide m)) (delta : UInt32) :
    d.fillHeader fmt.val m.csid (messageHeader fmt delta m) =
      ⟨fmt.val, m.csid, if fmt.val ≤ 2 then min delta.toNat EXTENDED else 0,
        m.payload.length, m.typeId, m.streamId, false⟩ := by
  have known := legal_start follows legal
  -- The four parts a header may have, read back from where they stand.
  generalize value : min delta.toNat EXTENDED = field
  have read (x : Bytes) : u24 (bigEndian 3 field ++ x) = field := by
    have small : EXTENDED < 2 ^ 24 := by decide
    exact u24_bigEndian (by omega) x
  have length (x : Bytes) : u24 ((bigEndian 3 field ++ (bigEndian 3 m.payload.length ++ x)).drop 3) =
      m.payload.length :=
    u24_bigEndian legal.2.1 x
  have typeId (x : Bytes) :
      (bigEndian 3 field ++ (bigEndian 3 m.payload.length ++ m.typeId :: x)).getD 6 0 = m.typeId := rfl
  have streamId :
      le32 ((bigEndian 3 field ++ (bigEndian 3 m.payload.length ++ m.typeId ::
        (littleEndian 4 m.streamId.toNat ++ []))).drop 7) = m.streamId :=
    le32_littleEndian m.streamId []
  match fmt with
  | 0 =>
    have bytes : messageHeader 0 delta m = bigEndian 3 field ++ (bigEndian 3 m.payload.length ++
        m.typeId :: (littleEndian 4 m.streamId.toNat ++ [])) := by
      simp [messageHeader, value]
    rw [bytes, fillHeader, Header.mk.injEq]
    exact ⟨rfl, rfl, read _, length _, typeId _, streamId, rfl⟩
  | 1 =>
    obtain full | ⟨l, -, -, fits, mirrors⟩ := known
    · contradiction
    have bytes : messageHeader 1 delta m = bigEndian 3 field ++ (bigEndian 3 m.payload.length ++
        m.typeId :: []) := by
      simp [messageHeader, value]
    rw [bytes, fillHeader, Header.mk.injEq]
    exact ⟨rfl, rfl, read _, length _, typeId _, mirrors.streamId.trans (fits.1 (by decide)).symm, rfl⟩
  | 2 =>
    obtain full | ⟨l, -, -, fits, mirrors⟩ := known
    · contradiction
    have bytes : messageHeader 2 delta m = bigEndian 3 field ++ [] := by
      simp [messageHeader, value]
    have same := fits.2.1 (by decide)
    rw [bytes, fillHeader, Header.mk.injEq]
    exact ⟨rfl, rfl, read _, mirrors.length.trans same.1.symm, mirrors.typeId.trans same.2.symm,
      mirrors.streamId.trans (fits.1 (by decide)).symm, rfl⟩
  | 3 =>
    obtain full | ⟨l, -, finished, fits, mirrors⟩ := known
    · contradiction
    have same := fits.2.1 (by decide)
    have idle : (d.stream m.csid).inProgress = false := by
      rw [mirrors.progress, finished]
      exact decide_eq_false (Nat.lt_irrefl _)
    rw [fillHeader, Header.mk.injEq]
    exact ⟨rfl, rfl, (if_neg (by decide)).trans (if_neg (by decide)).symm,
      mirrors.length.trans same.1.symm, mirrors.typeId.trans same.2.symm,
      mirrors.streamId.trans (fits.1 (by decide)).symm, idle⟩

/-- What the decoder makes of the header of a new message. -/
theorem readHeader_start {fmt : Fin 4} {wide : Bool} {m : Message} (follows : Follows size ids lanes d)
    (few : ids.card ≤ MAX_CHUNK_STREAMS) (member : m.csid ∈ ids)
    (legal : lanes.Legal (.start fmt wide m)) (delta : UInt32) :
    d.readHeader fmt.val m.csid (messageHeader fmt delta m) =
      .ok ⟨fmt.val, m.csid, if fmt.val ≤ 2 then min delta.toNat EXTENDED else 0,
        m.payload.length, m.typeId, m.streamId, false⟩ := by
  have room := follows_room follows few member
  have limit : ¬d.maxLen m.typeId < m.payload.length := by
    have short := legal.2.1
    rw [follows_maxLen follows, USIZE_MAX]
    omega
  have begun : ¬(fmt.val ≠ 0 ∧ (d.stream m.csid).hasHeader = false) := by
    rintro ⟨compressed, missing⟩
    rcases legal_start follows legal with full | ⟨l, -, -, -, mirrors⟩
    · exact compressed full
    · rw [mirrors.header] at missing
      contradiction
  simp only [readHeader, if_neg begun, if_neg room, fillHeader_start follows legal, true_and,
    if_neg limit]

theorem delta_start {fmt : Fin 4} {wide : Bool} {m : Message} (follows : Follows size ids lanes d)
    (legal : lanes.Legal (.start fmt wide m)) :
    (fmt.val = 0 ∧ lanes.delta fmt m = m.timestamp) ∨
      (fmt.val ≠ 0 ∧ (d.stream m.csid).timestamp + lanes.delta fmt m = m.timestamp ∧
        (fmt.val ≤ 2 ∨ (fmt.val = 3 ∧ (d.stream m.csid).delta = lanes.delta fmt m ∧
          (d.stream m.csid).extended = decide (EXTENDED ≤ (lanes.delta fmt m).toNat)))) := by
  rcases legal_start follows legal with full | ⟨l, used, -, fits, mirrors⟩
  · refine .inl ⟨full, ?_⟩
    unfold Lanes.delta
    split
    · rfl
    · rw [if_pos full]
  · by_cases full : fmt.val = 0
    · refine .inl ⟨full, ?_⟩
      simp only [Lanes.delta, used, if_pos full]
    · refine .inr ⟨full, ?_⟩
      by_cases compressed : fmt.val ≤ 2
      · have delta : lanes.delta fmt m = m.timestamp - l.message.timestamp := by
          simp only [Lanes.delta, used, if_neg full, if_pos compressed]
        refine ⟨?_, .inl compressed⟩
        rw [delta, mirrors.timestamp, UInt32.add_comm, UInt32.sub_add_cancel]
      · have delta : lanes.delta fmt m = l.delta := by
          simp only [Lanes.delta, used, if_neg full, if_neg compressed]
        rw [delta]
        refine ⟨?_, .inr ⟨by omega, mirrors.delta, mirrors.extended⟩⟩
        rw [mirrors.timestamp]
        exact (fits.2.2 (by omega)).symm

/-- The extended timestamp of a new message is read where there is one. -/
theorem readExtension_start {fmt : Fin 4} {wide : Bool} {m : Message} (follows : Follows size ids lanes d)
    (legal : lanes.Legal (.start fmt wide m)) (header : Header) (format : header.fmt = fmt.val)
    (csid : header.csid = m.csid)
    (field : header.tsField = if fmt.val ≤ 2 then min (lanes.delta fmt m).toNat EXTENDED else 0)
    (start : header.continuation = false) (x : Bytes) :
    ∃ extValue, d.readExtension header (extension (lanes.delta fmt m) ++ x) =
        some ⟨EXTENDED ≤ (lanes.delta fmt m).toNat, extValue, none, x⟩ ∧
      (EXTENDED ≤ (lanes.delta fmt m).toNat → extValue = lanes.delta fmt m) := by
  have known := delta_start follows legal
  generalize lanes.delta fmt m = delta at known field ⊢
  unfold readExtension
  rw [format, csid, start, field]
  by_cases large : EXTENDED ≤ delta.toNat
  · refine ⟨delta, ?_, fun _ => rfl⟩
    have bytes : extension delta ++ x = bigEndian 4 delta.toNat ++ x := by
      rw [extension, if_pos large]
    have enough : ¬(bigEndian 4 delta.toNat ++ x).length < 4 := by
      simp only [List.length_append, bigEndian_four, List.length_cons, List.length_nil]
      omega
    have rest : (bigEndian 4 delta.toNat ++ x).drop 4 = x := rfl
    rw [bytes, be32_bigEndian, rest, decide_eq_true large]
    by_cases compressed : fmt.val ≤ 2
    · rw [if_pos compressed, if_pos compressed, if_pos (Nat.min_eq_right large), if_neg enough]
    · obtain ⟨full, -⟩ | ⟨-, -, compressed' | ⟨-, -, extended⟩⟩ := known
      · omega
      · contradiction
      · rw [if_neg compressed, extended, decide_eq_true large, if_pos rfl, if_neg Bool.false_ne_true,
          if_neg enough]
  · refine ⟨(d.stream m.csid).extValue, ?_, fun large' => absurd large' large⟩
    have bytes : extension delta ++ x = x := by
      rw [extension, if_neg large, List.nil_append]
    rw [bytes, decide_eq_false large]
    by_cases compressed : fmt.val ≤ 2
    · have differ : ¬min delta.toNat EXTENDED = EXTENDED := by omega
      rw [if_pos compressed, if_pos compressed, if_neg differ]
    · obtain ⟨full, -⟩ | ⟨-, -, compressed' | ⟨-, -, extended⟩⟩ := known
      · omega
      · contradiction
      · rw [if_neg compressed, extended, decide_eq_false large, if_neg Bool.false_ne_true]

/-- A chunk that is all there, and that there is room for, is read. -/
theorem readBody_whole {header : Header} {b data rest : Bytes} {extended : Bool} {extValue : UInt32}
    {learned : Option Bool}
    (read : d.readExtension header b = some ⟨extended, extValue, learned, data ++ rest⟩)
    (take : d.take header = data.length)
    (room : d.pending - d.dropped header + data.length ≤ MAX_PENDING_BYTES) :
    d.readBody header b = .ok (some ⟨header, extended, extValue, learned, data, rest⟩) := by
  have there : ¬(data ++ rest).length < data.length := by
    rw [List.length_append]
    omega
  simp only [readBody, read, take, if_neg there, if_neg (Nat.not_lt.mpr room), List.take_left',
    List.drop_left']

theorem parse_whole {fmt csid : ℕ} (wide : Bool) {h b : Bytes} {header : Header} {c : Chunk}
    (buf : d.buf = basicBytes fmt wide csid ++ (h ++ b)) (format : fmt < 4)
    (range : 2 ≤ csid ∧ csid ≤ 65599) (length : h.length = headerLen fmt)
    (known : d.readHeader fmt csid h = .ok header) (body : d.readBody header b = .ok (some c)) :
    d.parse = .ok (some c) := by
  have there : ¬(h ++ b).length < headerLen fmt := by
    rw [List.length_append, length]
    omega
  simp only [parse, buf, basicHeader_basicBytes format wide range, if_neg there,
    List.take_left' length, List.drop_left' length, known, body]

/-- Nothing is left of the message before on a stream a new one is started on. -/
theorem start_clean {fmt : Fin 4} {wide : Bool} {m : Message} (follows : Follows size ids lanes d)
    (legal : lanes.Legal (.start fmt wide m)) :
    (d.stream m.csid).partialData = [] ∧ ((lanes m.csid).map Lane.unfinished).getD 0 = 0 := by
  cases used : lanes m.csid with
  | none =>
    have fresh := AList.lookup_eq_none.mpr (follows.absent used)
    refine ⟨?_, rfl⟩
    rw [stream, fresh]
    rfl
  | some l =>
    have known := legal.2.2
    rw [used] at known
    have finished : ¬l.sent < l.message.payload.length := by
      rw [known.1]
      exact Nat.lt_irrefl _
    refine ⟨?_, Lane.unfinished_of_le (Nat.le_of_not_lt finished)⟩
    rw [(follows.present used).2.received, if_neg finished]

/-- What a new message makes of its stream. -/
theorem newMessage_describes {fmt : Fin 4} {wide : Bool} {m : Message} (follows : Follows size ids lanes d)
    (legal : lanes.Legal (.start fmt wide m)) {extValue : UInt32}
    (value : EXTENDED ≤ (lanes.delta fmt m).toNat → extValue = lanes.delta fmt m) (data rest : Bytes) :
    Describes ⟨m, lanes.delta fmt m, 0⟩
      (newMessage ⟨⟨fmt.val, m.csid, if fmt.val ≤ 2 then min (lanes.delta fmt m).toNat EXTENDED else 0,
        m.payload.length, m.typeId, m.streamId, false⟩, EXTENDED ≤ (lanes.delta fmt m).toNat, extValue,
        none, data, rest⟩ (d.stream m.csid)) := by
  have known := delta_start follows legal
  generalize lanes.delta fmt m = delta at known value ⊢
  generalize d.stream m.csid = st at known ⊢
  have rawTs : fmt.val ≤ 2 ∨ EXTENDED ≤ delta.toNat →
      (if decide (EXTENDED ≤ delta.toNat) then extValue
        else UInt32.ofNat (if fmt.val ≤ 2 then min delta.toNat EXTENDED else 0)) = delta := by
    intro told
    by_cases large : EXTENDED ≤ delta.toNat
    · rw [if_pos (decide_eq_true large), value large]
    · have compressed : fmt.val ≤ 2 := told.resolve_right large
      rw [decide_eq_false large, if_neg Bool.false_ne_true, if_pos compressed,
        Nat.min_eq_left (by omega), UInt32.ofNat_toNat]
  have left : (if fmt.val ≤ 2 ∨ decide (EXTENDED ≤ delta.toNat) then
      (if decide (EXTENDED ≤ delta.toNat) then extValue
        else UInt32.ofNat (if fmt.val ≤ 2 then min delta.toNat EXTENDED else 0)) else st.delta) =
      delta := by
    split
    · next told => exact rawTs (told.imp_right of_decide_eq_true)
    · next untold =>
      obtain ⟨full, -⟩ | ⟨-, -, compressed | ⟨-, same, -⟩⟩ := known
      · exact absurd (.inl (by omega)) untold
      · exact absurd (.inl compressed) untold
      · exact same
  constructor
  · simp only [newMessage, left]
    obtain ⟨full, same⟩ | ⟨compressed, same, -⟩ := known
    · rw [if_pos full, rawTs (.inl (by omega)), same]
    · rw [if_neg compressed, same]
  · exact left
  · rfl
  · rfl
  · rfl
  · rfl
  · intro large
    exact value (of_decide_eq_true large)
  · rfl

theorem completed_single (wire : Lanes.Wire) :
    [wire].filterMap Lanes.Wire.completed = wire.completed.toList := by
  obtain ⟨bytes, _ | m⟩ := wire <;> rfl

/-- The header of the first chunk of a message, filled in. -/
def begun (fmt : Fin 4) (m : Message) (lanes : Lanes) : Header :=
  ⟨fmt.val, m.csid, if fmt.val ≤ 2 then min (lanes.delta fmt m).toNat EXTENDED else 0, m.payload.length,
    m.typeId, m.streamId, false⟩

/-- The first chunk of a message is found where it was written. -/
theorem start_parse {fmt : Fin 4} {wide repeats : Bool} {m : Message} {rest : Bytes}
    (follows : Follows size ids lanes d) (few : ids.card ≤ MAX_CHUNK_STREAMS)
    (member : m.csid ∈ ids) (legal : lanes.Legal (.start fmt wide m))
    (room : lanes.held ids + min size m.payload.length ≤ MAX_PENDING_BYTES)
    (buf : d.buf = (lanes.write size repeats (.start fmt wide m)).2.flatMap Lanes.Wire.bytes ++ rest) :
    ∃ extValue, d.parse = .ok (some ⟨begun fmt m lanes, decide (EXTENDED ≤ (lanes.delta fmt m).toNat),
        extValue, none, Lanes.data size ⟨m, lanes.delta fmt m, 0⟩, rest⟩) ∧
      (EXTENDED ≤ (lanes.delta fmt m).toNat → extValue = lanes.delta fmt m) := by
  let l : Lane := ⟨m, lanes.delta fmt m, 0⟩
  obtain ⟨extValue, read, value⟩ := readExtension_start follows legal (begun fmt m lanes) rfl rfl rfl rfl
    (Lanes.data size l ++ rest)
  obtain ⟨clean, -⟩ := start_clean follows legal
  have data := Lanes.data_length size l
  have dropped : d.dropped (begun fmt m lanes) = 0 := by
    simp only [ChunkDecoder.dropped, begun, clean]
    rfl
  have taken : d.take (begun fmt m lanes) = (Lanes.data size l).length := by
    rw [data, Nat.min_comm, ← follows.chunkSize]
    rfl
  have body := readBody_whole read taken (by
    rw [follows.pending, dropped, data]
    exact room)
  refine ⟨extValue, parse_whole wide (d := d) ?_ fmt.isLt legal.1 (messageHeader_length fmt _ m)
    (readHeader_start follows few member legal _) body, value⟩
  rw [buf]
  simp only [Lanes.write, Lanes.chunk, List.flatMap_cons, List.flatMap_nil, List.append_nil,
    List.append_assoc, l]

/-- The first chunk of a message is read as it was written. -/
theorem start_follows {fmt : Fin 4} {wide repeats : Bool} {m : Message} {rest : Bytes}
    (follows : Follows size ids lanes d) (few : ids.card ≤ MAX_CHUNK_STREAMS)
    (member : m.csid ∈ ids) (legal : lanes.Legal (.start fmt wide m))
    (room : lanes.held ids + min size m.payload.length ≤ MAX_PENDING_BYTES)
    (buf : d.buf = (lanes.write size repeats (.start fmt wide m)).2.flatMap Lanes.Wire.bytes ++ rest) :
    ∃ c, d.parse = .ok (some c) ∧ c.rest = rest ∧ c.learned = none ∧
      (d.commit c).1.messages =
        (lanes.write size repeats (.start fmt wide m)).2.filterMap Lanes.Wire.completed ∧
      Follows size ids (lanes.write size repeats (.start fmt wide m)).1 (d.commit c).2 := by
  let l : Lane := ⟨m, lanes.delta fmt m, 0⟩
  obtain ⟨extValue, whole, value⟩ := start_parse follows few member legal room buf
  obtain ⟨clean, before⟩ := start_clean follows legal
  have dropped : d.dropped (begun fmt m lanes) = 0 := by
    simp only [ChunkDecoder.dropped, begun, clean]
    rfl
  refine ⟨_, whole, rfl, rfl, ?_⟩
  have described := newMessage_describes follows legal value (Lanes.data size l) rest
  have taken := commit_follows (c := ⟨begun fmt m lanes, _, extValue, none, Lanes.data size l, rest⟩) follows
    (l := l) ⟨member, legal.1, rfl, Nat.zero_le _, legal.2.1⟩ before dropped rfl
    (described.congr rfl rfl rfl) rfl (by
      rw [← Lanes.take_data]
      rfl)
    (basicBytes fmt.val wide m.csid ++ messageHeader fmt (lanes.delta fmt m) m ++
      extension (lanes.delta fmt m))
  rw [← completed_single] at taken
  exact taken

/-! ## The other chunks of a message -/

/-- The header of a continuation, filled in. -/
def continued (csid : ℕ) (l : Lane) : Header :=
  ⟨3, csid, 0, l.message.payload.length, l.message.typeId, l.message.streamId, true⟩

/-- What the decoder makes of the header of a continuation. -/
theorem readHeader_next {csid : ℕ} {l : Lane} (follows : Follows size ids lanes d)
    (few : ids.card ≤ MAX_CHUNK_STREAMS) (used : lanes csid = some l)
    (on : l.sent < l.message.payload.length) :
    d.readHeader 3 csid [] = .ok (continued csid l) := by
  obtain ⟨fair, mirrors⟩ := follows.present used
  have room := follows_room follows few fair.member
  have begun : ¬((3 : ℕ) ≠ 0 ∧ (d.stream csid).hasHeader = false) := by
    rw [mirrors.header]
    simp
  have header : d.fillHeader 3 csid [] = continued csid l := by
    rw [fillHeader, continued, Header.mk.injEq]
    exact ⟨rfl, rfl, rfl, mirrors.length, mirrors.typeId, mirrors.streamId,
      mirrors.progress.trans (decide_eq_true on)⟩
  have resumed : ¬((continued csid l).continuation = false ∧
      d.maxLen (continued csid l).typeId < (continued csid l).length) :=
    fun start => Bool.false_ne_true start.1.symm
  simp only [readHeader, if_neg begun, if_neg room, header, if_neg resumed]

/-- The decoder knows the sender's habit with extended timestamps, or cannot mistake it in what comes
next on a lane. -/
def Habit (repeats : Bool) (l : Lane) (following : Bytes) (d : ChunkDecoder) : Prop :=
  d.repeatsExtended = some repeats ∨
    (d.repeatsExtended = none ∧ (l.extended = true → repeats = false →
      4 ≤ following.length ∧ following.take 4 ≠ bigEndian 4 l.delta.toNat))

/-- The extended timestamp of a continuation is read exactly where the sender repeats it. -/
theorem readExtension_next {csid : ℕ} {l : Lane} {repeats : Bool} {x : Bytes}
    (follows : Follows size ids lanes d) (used : lanes csid = some l) (habit : Habit repeats l x d) :
    ∃ learned, d.readExtension (continued csid l)
        ((if repeats then extension l.delta else []) ++ x) =
          some ⟨l.extended, (d.stream csid).extValue, learned, x⟩ ∧
      learned.or d.repeatsExtended = if l.extended then some repeats else d.repeatsExtended := by
  obtain ⟨-, mirrors⟩ := follows.present used
  simp only [readExtension, continued, mirrors.extended]
  cases long : l.extended with
  | false =>
    have none : (if repeats then extension l.delta else []) = [] := by
      rw [extension, if_neg (of_decide_eq_false long), ite_self]
    rw [none]
    exact ⟨.none, rfl, rfl⟩
  | true =>
    have value := mirrors.extValue long
    have bytes : extension l.delta = bigEndian 4 l.delta.toNat := if_pos (of_decide_eq_true long)
    have enough : ¬(bigEndian 4 l.delta.toNat ++ x).length < 4 := by
      simp only [List.length_append, bigEndian_four, List.length_cons, List.length_nil]
      omega
    have rest : (bigEndian 4 l.delta.toNat ++ x).drop 4 = x := rfl
    have past : ¬(3 : ℕ) ≤ 2 := by decide
    rcases habit with known | ⟨unknown, unmistakable⟩
    · rw [known]
      cases repeats with
      | true =>
        refine ⟨none, ?_, rfl⟩
        simp only [if_neg past, if_true, bytes, if_neg enough, rest]
      | false => exact ⟨none, rfl, rfl⟩
    · rw [unknown]
      cases repeats with
      | true =>
        refine ⟨some true, ?_, rfl⟩
        simp only [if_neg past, if_true, bytes, if_neg enough, rest, be32_bigEndian, value, decide_true]
      | false =>
        obtain ⟨there, differ⟩ := unmistakable long rfl
        have other : ¬be32 x = (d.stream csid).extValue := by
          rw [value]
          exact be32_ne there differ
        refine ⟨some false, ?_, rfl⟩
        simp only [if_neg past, if_true, Bool.false_eq_true, if_false, List.nil_append,
          if_neg (Nat.not_lt.mpr there), other, decide_false]

theorem commit_repeats (c : Chunk) (d : ChunkDecoder) :
    (d.commit c).2.repeatsExtended = c.learned.or d.repeatsExtended := by
  unfold commit
  dsimp only
  split <;> rfl

/-- A continuation is found where it was written. -/
theorem next_parse {csid : ℕ} {wide repeats : Bool} {l : Lane} {rest : Bytes}
    (follows : Follows size ids lanes d) (few : ids.card ≤ MAX_CHUNK_STREAMS)
    (used : lanes csid = some l) (on : l.sent < l.message.payload.length)
    (room : lanes.held ids + lanes.load size (.next wide csid) ≤ MAX_PENDING_BYTES)
    (habit : Habit repeats l (Lanes.data size l ++ rest) d)
    (buf : d.buf = (lanes.write size repeats (.next wide csid)).2.flatMap Lanes.Wire.bytes ++ rest) :
    ∃ learned, d.parse = .ok (some ⟨continued csid l, l.extended, (d.stream csid).extValue, learned,
        Lanes.data size l, rest⟩) ∧
      learned.or d.repeatsExtended = if l.extended then some repeats else d.repeatsExtended := by
  obtain ⟨fair, mirrors⟩ := follows.present used
  obtain ⟨learned, read, learns⟩ := readExtension_next follows used habit
  have received : (d.stream csid).partialData = l.message.payload.take l.sent := by
    rw [mirrors.received, if_pos on]
  have data := Lanes.data_length size l
  have load : lanes.load size (.next wide csid) = (Lanes.data size l).length := by
    simp only [Lanes.load, used, Option.map_some, Option.getD_some, data]
  have taken : d.take (continued csid l) = (Lanes.data size l).length := by
    simp only [ChunkDecoder.take, already, continued, if_true, received, List.length_take, data,
      follows.chunkSize]
    omega
  have body := readBody_whole read taken (by
    rw [follows.pending, ← load]
    exact room)
  refine ⟨learned, parse_whole wide (d := d) (h := []) ?_ (by decide) fair.range rfl
    (readHeader_next follows few used on) body, learns⟩
  rw [buf]
  simp only [Lanes.write, used, Lanes.chunk, List.flatMap_cons, List.flatMap_nil, List.append_nil,
    List.append_assoc, List.nil_append]

/-- A continuation is read as it was written. -/
theorem next_follows {csid : ℕ} {wide repeats : Bool} {l : Lane} {rest : Bytes}
    (follows : Follows size ids lanes d) (few : ids.card ≤ MAX_CHUNK_STREAMS)
    (used : lanes csid = some l) (on : l.sent < l.message.payload.length)
    (room : lanes.held ids + lanes.load size (.next wide csid) ≤ MAX_PENDING_BYTES)
    (habit : Habit repeats l (Lanes.data size l ++ rest) d)
    (buf : d.buf = (lanes.write size repeats (.next wide csid)).2.flatMap Lanes.Wire.bytes ++ rest) :
    ∃ c, d.parse = .ok (some c) ∧ c.rest = rest ∧
      c.learned.or d.repeatsExtended = (if l.extended then some repeats else d.repeatsExtended) ∧
      (d.commit c).1.messages =
        (lanes.write size repeats (.next wide csid)).2.filterMap Lanes.Wire.completed ∧
      Follows size ids (lanes.write size repeats (.next wide csid)).1 (d.commit c).2 := by
  obtain ⟨fair, mirrors⟩ := follows.present used
  obtain ⟨learned, whole, learns⟩ := next_parse follows few used on room habit buf
  have received : (d.stream csid).partialData = l.message.payload.take l.sent := by
    rw [mirrors.received, if_pos on]
  refine ⟨_, whole, rfl, learns, ?_⟩
  have before : ((lanes csid).map Lane.unfinished).getD 0 = l.sent := by
    rw [used]
    exact Lane.unfinished_of_lt on
  have next := commit_follows
    (c := ⟨continued csid l, l.extended, (d.stream csid).extValue, learned, Lanes.data size l, rest⟩)
    follows fair before rfl rfl (mirrors.toDescribes.congr rfl rfl rfl)
    (mirrors.progress.trans (decide_eq_true on)) (by
      rw [← Lanes.take_data, ← received]
      rfl)
    (basicBytes 3 wide csid ++ if repeats then extension l.delta else [])
  rw [← completed_single] at next
  simp only [Lanes.write, used]
  exact next

/-! ## A whole chunk stream -/

theorem parse_empty (empty : d.buf = []) : d.parse = .ok none := by
  simp only [parse, empty, basicHeader]

/-- Everything a sender may write is read back, from any state the decoder mirrors. -/
theorem drains_stream {repeats : Bool} {sendings : List Sending} (few : ids.card ≤ MAX_CHUNK_STREAMS)
    (follows : Follows size ids lanes d)
    (allowed : Machine.Along (Lanes.write size repeats) (Lanes.Allowed size ids) lanes sendings)
    (habit : d.repeatsExtended = some repeats ∨
      (d.repeatsExtended = none ∧ (repeats = false → Lanes.Unmistakable size lanes sendings)))
    (buf : d.buf = Lanes.stream size repeats lanes sendings) :
    ∃ d', Drains d (Lanes.messages size repeats lanes sendings) none d' := by
  induction sendings generalizing lanes d with
  | nil => exact ⟨d, .dry (parse_empty buf)⟩
  | cons s rest ih =>
    obtain ⟨⟨legal, member, less⟩, later⟩ := allowed
    have room : lanes.held ids + lanes.load size s ≤ MAX_PENDING_BYTES := by omega
    have split : Lanes.stream size repeats lanes (s :: rest) =
        (lanes.write size repeats s).2.flatMap Lanes.Wire.bytes ++
          Lanes.stream size repeats (lanes.write size repeats s).1 rest := List.flatMap_append
    have parts : Lanes.messages size repeats lanes (s :: rest) =
        (lanes.write size repeats s).2.filterMap Lanes.Wire.completed ++
          Lanes.messages size repeats (lanes.write size repeats s).1 rest := List.filterMap_append
    rw [split] at buf
    rw [parts]
    have step {c : Chunk} (whole : d.parse = .ok (some c))
        (behind : c.rest = Lanes.stream size repeats (lanes.write size repeats s).1 rest)
        (habit : c.learned.or d.repeatsExtended = some repeats ∨
          (c.learned.or d.repeatsExtended = none ∧
            (repeats = false → Lanes.Unmistakable size (lanes.write size repeats s).1 rest)))
        (completed : (d.commit c).1.messages =
          (lanes.write size repeats s).2.filterMap Lanes.Wire.completed)
        (next : Follows size ids (lanes.write size repeats s).1 (d.commit c).2) :
        ∃ d', Drains d ((lanes.write size repeats s).2.filterMap Lanes.Wire.completed ++
          Lanes.messages size repeats (lanes.write size repeats s).1 rest) none d' := by
      rw [← commit_repeats] at habit
      obtain ⟨d', drained⟩ := ih next later habit ((commit_buf c d).trans behind)
      rw [← completed]
      exact ⟨d', .chunk whole drained⟩
    cases s with
    | start fmt wide m =>
      obtain ⟨c, whole, behind, learned, completed, next⟩ := start_follows follows few member legal room buf
      refine step whole behind ?_ completed next
      rw [learned]
      refine habit.imp_right fun open_ => ⟨open_.1, ?_⟩
      rintro rfl
      have differ := open_.2 rfl
      simp only [Lanes.Unmistakable, Lanes.continued?, Option.any_none, Bool.false_eq_true,
        if_false] at differ
      exact differ
    | next wide csid =>
      cases used : lanes csid with
      | none => simp only [Lanes.Legal, used] at legal
      | some l =>
        have on : l.sent < l.message.payload.length := by simpa only [Lanes.Legal, used] using legal
        have seen : Habit repeats l (Lanes.data size l ++
            Lanes.stream size repeats (lanes.write size repeats (.next wide csid)).1 rest) d := by
          refine habit.imp_right fun open_ => ⟨open_.1, ?_⟩
          rintro long rfl
          have differ := open_.2 rfl
          simp only [Lanes.Unmistakable, Lanes.continued?, used, Option.any_some, long, if_true] at differ
          exact differ l rfl
        obtain ⟨c, whole, behind, learned, completed, next⟩ :=
          next_follows follows few used on room seen buf
        refine step whole behind ?_ completed next
        rw [learned]
        split
        · exact .inl rfl
        · next short =>
          refine habit.imp_right fun open_ => ⟨open_.1, ?_⟩
          rintro rfl
          have differ := open_.2 rfl
          simp only [Lanes.Unmistakable, Lanes.continued?, used, Option.any_some, if_neg short] at differ
          exact differ

end ChunkDecoder

end StreamDelay.Rtmp
