import Mathlib.Tactic.Common
import StreamDelay.Engine.Ingest

/-! # What a buffered message says about its payload

The fields of a buffered message are read off its payload when it is received. A message with a HEVC slice in it
is coded video, and a CRA can always be marked as a broken link.
-/

namespace StreamDelay

namespace Flv

/-! ## Keyframes are no configuration -/

private theorem inspectLegacyVideo_coded {payload : Bytes} {b0 : UInt8} {r : Reader} {info : VideoInfo}
    (inspected : inspectLegacyVideo payload b0 r = some info) :
    (info.keyframe = true → info.config = false) ∧
      ∀ t, info.hevcNalType = some t →
        info.config = false ∧ ∃ o, info.nalOffset = some o ∧ firstHevcVcl (payload.drop o) = some t := by
  unfold inspectLegacyVideo at inspected
  dsimp only at inspected
  split at inspected
  · obtain rfl := Option.some.inj inspected
    exact ⟨nofun, nofun⟩
  · generalize (if b0 &&& 0x0f = 7 then VideoCodec.avc
      else if b0 &&& 0x0f = 12 then .hevc
      else if b0 &&& 0x0f = 13 then .av1
      else .other) = codec at inspected
    have coded {packetType : UInt8} {r : Reader} {o : Option ℕ} {t : UInt8}
        (offset : o = if codec = .hevc ∧ packetType = 1 then some r.pos else none)
        (found : (o.bind fun o => if o ≤ payload.length then firstHevcVcl (payload.drop o) else none) = some t) :
        packetType = 1 ∧ ∃ at_, o = some at_ ∧ firstHevcVcl (payload.drop at_) = some t := by
      obtain ⟨at_, same, found⟩ := Option.bind_eq_some_iff.mp found
      rw [same] at offset
      split at offset
      · next plain =>
        refine ⟨plain.2, at_, same, ?_⟩
        split at found
        · exact found
        · contradiction
      · contradiction
    split at inspected
    · obtain ⟨_, -, found⟩ := Option.bind_eq_some_iff.mp inspected
      obtain rfl := Option.some.inj found
      refine ⟨fun keyframe => ?_, fun t slice => ?_⟩
      · obtain ⟨-, media⟩ := of_decide_eq_true keyframe
        simp [media]
      · obtain ⟨media, found⟩ := coded rfl slice
        refine ⟨?_, found⟩
        simp [media]
    · obtain rfl := Option.some.inj inspected
      refine ⟨fun _ => by simp, fun t slice => ?_⟩
      obtain ⟨-, found⟩ := coded rfl slice
      exact ⟨by simp, found⟩

private theorem inspectEnhancedVideo_coded {payload : Bytes} {b0 : UInt8} {r : Reader} {info : VideoInfo}
    (inspected : inspectEnhancedVideo payload b0 r = some info) :
    (info.keyframe = true → info.config = false) ∧
      ∀ t, info.hevcNalType = some t →
        info.config = false ∧ ∃ o, info.nalOffset = some o ∧ firstHevcVcl (payload.drop o) = some t := by
  have media {packetType : UInt8} (coded : decide (packetType = VideoPacket.CODED_FRAMES ∨
        packetType = VideoPacket.CODED_FRAMES_X) = true) :
      decide (packetType = VideoPacket.SEQUENCE_START ∨
        packetType = VideoPacket.MPEG2TS_SEQUENCE_START) = false := by
    rcases of_decide_eq_true coded with rfl | rfl <;> decide
  have both {packetType : UInt8} {ft hevc plain : Prop} [Decidable ft] [Decidable hevc] [Decidable plain] {pos : ℕ} :
      (decide (ft ∧ decide (packetType = VideoPacket.CODED_FRAMES ∨
          packetType = VideoPacket.CODED_FRAMES_X) = true) = true →
        decide (packetType = VideoPacket.SEQUENCE_START ∨
          packetType = VideoPacket.MPEG2TS_SEQUENCE_START) = false) ∧
      ∀ t, ((if hevc ∧ decide (packetType = VideoPacket.CODED_FRAMES ∨
          packetType = VideoPacket.CODED_FRAMES_X) = true ∧ plain then some pos else none).bind fun o =>
            if o ≤ payload.length then firstHevcVcl (payload.drop o) else none) = some t →
        decide (packetType = VideoPacket.SEQUENCE_START ∨
          packetType = VideoPacket.MPEG2TS_SEQUENCE_START) = false ∧
        ∃ o, (if hevc ∧ decide (packetType = VideoPacket.CODED_FRAMES ∨
          packetType = VideoPacket.CODED_FRAMES_X) = true ∧ plain then some pos else none) = some o ∧
          firstHevcVcl (payload.drop o) = some t := by
    refine ⟨fun keyframe => media (of_decide_eq_true keyframe).2, fun t slice => ?_⟩
    obtain ⟨o, at_, found⟩ := Option.bind_eq_some_iff.mp slice
    have inside : hevc ∧ decide (packetType = VideoPacket.CODED_FRAMES ∨
        packetType = VideoPacket.CODED_FRAMES_X) = true ∧ plain := by
      by_contra outside
      rw [if_neg outside] at at_
      exact Option.some_ne_none o at_.symm
    refine ⟨media inside.2.1, o, at_, ?_⟩
    split at found
    · exact found
    · exact absurd found.symm (Option.some_ne_none t)
  obtain ⟨_, -, inspected⟩ := Option.bind_eq_some_iff.mp inspected
  dsimp only at inspected
  split at inspected
  · obtain rfl := Option.some.inj inspected
    exact ⟨nofun, nofun⟩
  · split at inspected
    · obtain ⟨_, -, inspected⟩ := Option.bind_eq_some_iff.mp inspected
      obtain ⟨_, -, inspected⟩ := Option.bind_eq_some_iff.mp inspected
      obtain ⟨_, -, found⟩ := Option.bind_eq_some_iff.mp inspected
      obtain rfl := Option.some.inj found
      exact both
    · obtain ⟨_, -, inspected⟩ := Option.bind_eq_some_iff.mp inspected
      obtain ⟨_, -, found⟩ := Option.bind_eq_some_iff.mp inspected
      obtain rfl := Option.some.inj found
      exact both

/-- A keyframe, and what has a HEVC slice, is coded video. -/
theorem inspectVideo_coded {payload : Bytes} {info : VideoInfo} (inspected : inspectVideo payload = some info) :
    (info.keyframe = true → info.config = false) ∧
      ∀ t, info.hevcNalType = some t →
        info.config = false ∧ ∃ o, info.nalOffset = some o ∧ firstHevcVcl (payload.drop o) = some t := by
  obtain ⟨_, -, inspected⟩ := Option.bind_eq_some_iff.mp inspected
  dsimp only at inspected
  split at inspected
  · exact inspectLegacyVideo_coded inspected
  · exact inspectEnhancedVideo_coded inspected

/-! ## Marking a CRA -/

theorem be32_congr {a b : Bytes} {pos : ℕ} (same : ∀ i < pos + 4, a[i]? = b[i]?) : be32 a pos = be32 b pos := by
  simp only [be32, List.getD_eq_getElem?_getD]
  rw [same pos (by omega), same (pos + 1) (by omega), same (pos + 2) (by omega), same (pos + 3) (by omega)]

/-- One round of the search for the first slice, in the whole payload. -/
theorem firstHevcVclLoop_drop (fuel : ℕ) (b : Bytes) (pos : ℕ) :
    firstHevcVclLoop (fuel + 1) (b.drop pos) =
      if pos + 6 ≤ b.length ∧ pos + 4 + be32 b pos ≤ b.length ∧ be32 b pos ≠ 0 then
        if Hevc.nalType (b.getD (pos + 4) 0) < 32 then some (Hevc.nalType (b.getD (pos + 4) 0))
        else firstHevcVclLoop fuel (b.drop (pos + 4 + be32 b pos))
      else none := by
  have len : be32 (b.drop pos) 0 = be32 b pos := by
    simp only [be32, List.getD_eq_getElem?_getD, List.getElem?_drop, Nat.add_zero, Nat.zero_add]
  rw [firstHevcVclLoop]
  dsimp only
  rw [len, List.length_drop, List.drop_drop, List.drop_drop, ← Nat.add_assoc]
  by_cases long : pos + 6 ≤ b.length
  · rw [if_pos (by omega)]
    by_cases fits : pos + 4 + be32 b pos ≤ b.length
    · rw [if_pos (by omega)]
      by_cases empty : be32 b pos = 0
      · rw [empty]
        simp
      · rw [if_pos ⟨long, fits, empty⟩]
        have unit : (b.drop (pos + 4)).take (be32 b pos) =
            b.getD (pos + 4) 0 :: (b.drop (pos + 5)).take (be32 b pos - 1) := by
          obtain ⟨n, more⟩ : ∃ n, be32 b pos = n + 1 := ⟨be32 b pos - 1, by omega⟩
          rw [more, List.drop_eq_getElem_cons (by omega), List.take_succ_cons, List.getD_eq_getElem?_getD,
            List.getElem?_eq_getElem (by omega)]
          rfl
        rw [unit]
    · rw [if_neg (by omega), if_neg (by omega)]
  · rw [if_neg (by omega), if_neg (by omega)]

namespace Hevc

/-- The rewriting keeps what comes before the next slice header, and once it changed something it did. -/
theorem craToBlaLoop_keeps (fuel : ℕ) (out : Bytes) (pos : ℕ) (changed : Bool) :
    (craToBlaLoop fuel out pos changed).1.length = out.length ∧
      (∀ i < pos + 4, (craToBlaLoop fuel out pos changed).1[i]? = out[i]?) ∧
      (changed = true → (craToBlaLoop fuel out pos changed).2 = true) := by
  induction fuel generalizing out pos changed with
  | zero => exact ⟨rfl, fun _ _ => rfl, id⟩
  | succ fuel ih =>
    rw [craToBlaLoop]
    split
    · dsimp only
      split
      · exact ⟨rfl, fun _ _ => rfl, id⟩
      · split
        · obtain ⟨length, before, done⟩ := ih (out.set (pos + 4)
            ((out.getD (pos + 4) 0 &&& (0x81 : UInt8)) ||| (BLA_W_LP <<< 1))) (pos + 4 + be32 out pos) true
          refine ⟨length.trans List.length_set, fun i early => ?_, fun _ => done rfl⟩
          rw [before i (by omega), List.getElem?_set_ne (by omega)]
        · obtain ⟨length, before, done⟩ := ih out (pos + 4 + be32 out pos) changed
          exact ⟨length, fun i early => before i (by omega), done⟩
    · exact ⟨rfl, fun _ _ => rfl, id⟩

private theorem nalType_marked (byte : UInt8) :
    nalType ((byte &&& (0x81 : UInt8)) ||| (BLA_W_LP <<< 1)) = BLA_W_LP := by
  obtain ⟨⟨n⟩⟩ := byte
  revert n
  decide +kernel

/-- Where the first slice is one of a CRA, it is marked: the first slice then is one of a BLA. -/
theorem craToBlaLoop_marks {search pos : ℕ} (fuel : ℕ) {payload : Bytes}
    (first : firstHevcVclLoop search (payload.drop pos) = some CRA) (enough : payload.length ≤ fuel + pos) :
    (craToBlaLoop fuel payload pos false).2 = true ∧
      firstHevcVclLoop search ((craToBlaLoop fuel payload pos false).1.drop pos) = some BLA_W_LP := by
  induction search generalizing fuel pos with
  | zero => contradiction
  | succ search ih =>
    rw [firstHevcVclLoop_drop] at first
    split at first
    · next unit =>
      obtain ⟨long, fits, filled⟩ := unit
      obtain ⟨fuel, rfl⟩ : ∃ n, fuel = n + 1 := ⟨fuel - 1, by omega⟩
      rw [craToBlaLoop, if_pos (by omega)]
      dsimp only
      rw [if_neg (by omega)]
      split at first
      · next slice =>
        rw [if_pos (Option.some.inj first)]
        generalize marked : payload.set (pos + 4) _ = out
        have size : out.length = payload.length := by rw [← marked, List.length_set]
        obtain ⟨length, before, done⟩ := craToBlaLoop_keeps fuel out (pos + 4 + be32 payload pos) true
        have prefix_ : be32 (craToBlaLoop fuel out (pos + 4 + be32 payload pos) true).1 pos = be32 payload pos := by
          refine be32_congr fun i early => ?_
          rw [before i (by omega), ← marked, List.getElem?_set_ne (by omega)]
        have header : (craToBlaLoop fuel out (pos + 4 + be32 payload pos) true).1.getD (pos + 4) 0 =
            (payload.getD (pos + 4) 0 &&& (0x81 : UInt8)) ||| (BLA_W_LP <<< 1) := by
          rw [List.getD_eq_getElem?_getD, before _ (by omega), ← marked, List.getElem?_set_self (by omega)]
          rfl
        refine ⟨done rfl, ?_⟩
        rw [firstHevcVclLoop_drop, prefix_, length, size, if_pos ⟨long, fits, filled⟩, header, nalType_marked]
        rfl
      · next other =>
        have kept : nalType (payload.getD (pos + 4) 0) ≠ CRA := fun same => other (by rw [same]; decide)
        rw [if_neg kept]
        obtain ⟨done, found⟩ := ih fuel first (by omega)
        obtain ⟨length, before, -⟩ := craToBlaLoop_keeps fuel payload (pos + 4 + be32 payload pos) false
        have prefix_ : be32 (craToBlaLoop fuel payload (pos + 4 + be32 payload pos) false).1 pos =
            be32 payload pos := be32_congr fun i early => before i (by omega)
        refine ⟨done, ?_⟩
        rw [firstHevcVclLoop_drop, prefix_, length, if_pos ⟨long, fits, filled⟩, List.getD_eq_getElem?_getD,
          before _ (by omega), ← List.getD_eq_getElem?_getD, if_neg other]
        exact found
    · contradiction

/-- A CRA is marked as a broken link, and read as one. -/
theorem craToBla_marks {payload : Bytes} {offset : ℕ} (first : firstHevcVcl (payload.drop offset) = some CRA) :
    ∃ out, craToBla payload offset = some out ∧ firstHevcVcl (out.drop offset) = some BLA_W_LP := by
  obtain ⟨done, found⟩ := craToBlaLoop_marks payload.length first (by omega)
  refine ⟨(craToBlaLoop payload.length payload offset false).1, ?_, ?_⟩
  · unfold craToBla
    dsimp only
    rw [if_pos done]
  · have length := (craToBlaLoop_keeps payload.length payload offset false).1
    unfold firstHevcVcl
    rw [List.length_drop, length, ← List.length_drop]
    exact found

end Hevc

end Flv

/-! ## The fields of a buffered message -/

/-- The message was read as such in session `session`. -/
def Entry.ReadIn (session : Session) (x : Entry) : Prop :=
  ∃ now stats, x.sync = (classify now x.kind x.ts x.payload session stats).sync ∧
    x.config = (classify now x.kind x.ts x.payload session stats).config ∧
    x.cts = (classify now x.kind x.ts x.payload session stats).cts ∧
    x.hevcNal = (classify now x.kind x.ts x.payload session stats).hevcNal ∧
    x.nalOffset = (classify now x.kind x.ts x.payload session stats).nalOffset

/-- A video frame that can be read as one. -/
def Entry.IsFrame (x : Entry) : Prop :=
  x.kind = .video ∧ x.config = none ∧ (Flv.inspectVideo x.payload).isSome = true

namespace Entry

variable {x : Entry} {session : Session}

/-- A keyframe is a video frame, or sound of a session that has no video yet. -/
theorem ReadIn.of_sync (read : x.ReadIn session) (sync : x.sync = true) :
    x.IsFrame ∨ x.kind = .audio ∧ x.config = none ∧ session.hasVideo = false := by
  obtain ⟨now, stats, keyframe, config, -⟩ := read
  rw [keyframe] at sync
  rw [IsFrame, config]
  cases kind : x.kind with
  | video =>
    rw [kind] at sync
    cases inspected : Flv.inspectVideo x.payload with
    | none =>
      simp only [classify, inspected, Option.elim_none] at sync
      contradiction
    | some info =>
      simp only [classify, inspected, Option.elim_some, classifyVideo] at sync ⊢
      have coded := (Flv.inspectVideo_coded inspected).1 sync
      simp [coded]
  | audio =>
    rw [kind] at sync
    cases inspected : Flv.inspectAudio x.payload with
    | none =>
      simp only [classify, inspected, Option.elim_none] at sync
      contradiction
    | some info =>
      simp only [classify, inspected, Option.elim_some, classifyAudio, Bool.and_eq_true, Bool.not_eq_true'] at sync ⊢
      simp [sync.1, sync.2]
  | data =>
    rw [kind] at sync
    contradiction

/-- What has a HEVC slice is a video frame, and where it is a CRA it can be marked. -/
theorem ReadIn.of_slice (read : x.ReadIn session) {t : UInt8} (slice : x.hevcNal = some t) :
    x.IsFrame ∧ ∃ o, x.nalOffset = some o ∧ Flv.firstHevcVcl (x.payload.drop o) = some t := by
  obtain ⟨now, stats, -, config, -, picture, offset⟩ := read
  rw [picture] at slice
  rw [IsFrame, config, offset]
  cases kind : x.kind with
  | video =>
    rw [kind] at slice
    cases inspected : Flv.inspectVideo x.payload with
    | none =>
      simp only [classify, inspected, Option.elim_none] at slice
      contradiction
    | some info =>
      simp only [classify, inspected, Option.elim_some, classifyVideo] at slice ⊢
      obtain ⟨coded, found⟩ := (Flv.inspectVideo_coded inspected).2 t slice
      exact ⟨by simp [coded], found⟩
  | audio =>
    rw [kind] at slice
    cases inspected : Flv.inspectAudio x.payload with
    | none | some =>
      simp only [classify, inspected, Option.elim_none, Option.elim_some, classifyAudio] at slice
      contradiction
  | data =>
    rw [kind] at slice
    contradiction

end Entry

end StreamDelay
