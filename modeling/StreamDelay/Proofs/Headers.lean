import Mathlib.Tactic.Common
import StreamDelay.Flv.Inspect

/-! # Video headers

What is read of a video header depends on the bytes before the NAL units only, but for the type of the first slice.
-/

namespace StreamDelay.Flv

variable {α β : Type} {b b' payload out : Bytes} {pos n offset : ℕ} {b0 t : UInt8} {info : VideoInfo} {r : Reader}

namespace Reader

/-- What `op` gives depends only on the bytes before the position it reaches. -/
def Early (op : Reader → Option (α × Reader)) : Prop :=
  ∀ b pos a r, op ⟨b, pos⟩ = some (a, r) →
    ∃ pos', r = ⟨b, pos'⟩ ∧ pos ≤ pos' ∧
      ∀ b' : Bytes, (∀ i < pos', b'[i]? = b[i]?) → op ⟨b', pos⟩ = some (a, ⟨b', pos'⟩)

theorem take_drop_congr (same : ∀ i < pos + n, b'[i]? = b[i]?) : (b'.drop pos).take n = (b.drop pos).take n := by
  refine List.ext_getElem? fun i => ?_
  rw [List.getElem?_take, List.getElem?_take]
  split
  · rw [List.getElem?_drop, List.getElem?_drop, same _ (by omega)]
  · rfl

theorem length_of_same (same : ∀ i < n, b'[i]? = b[i]?) (inside : n ≤ b.length) : n ≤ b'.length := by
  cases n with
  | zero => exact Nat.zero_le _
  | succ n =>
    have last := same n (Nat.lt_succ_self n)
    rw [List.getElem?_eq_getElem inside] at last
    exact (List.getElem?_eq_some_iff.mp last).1

namespace Early

variable {op : Reader → Option (α × Reader)} {f : α → Reader → Option (β × Reader)}

theorem pure (a : α) : Early fun r => some (a, r) := by
  intro b pos a' r read
  obtain ⟨rfl, rfl⟩ := Prod.mk.inj (Option.some.inj read)
  exact ⟨pos, rfl, Nat.le_refl pos, fun _ _ => rfl⟩

theorem failure : Early fun _ => (none : Option (α × Reader)) := by
  intro b pos a r read
  contradiction

theorem bind (first : Early op) (later : ∀ a, Early (f a)) : Early fun r => (op r).bind fun (a, r) => f a r := by
  intro b pos c r read
  obtain ⟨⟨a, middle⟩, here, rest⟩ := Option.bind_eq_some_iff.mp read
  obtain ⟨pos₁, rfl, forward₁, again₁⟩ := first b pos a middle here
  obtain ⟨pos₂, rfl, forward₂, again₂⟩ := later a b pos₁ c r rest
  refine ⟨pos₂, rfl, Nat.le_trans forward₁ forward₂, fun b' same => ?_⟩
  have again := again₁ b' fun i before => same i (Nat.lt_of_lt_of_le before forward₂)
  dsimp only
  rw [again]
  exact again₂ b' same

theorem of_eq {op' : Reader → Option (α × Reader)} (reads : Early op') (same : ∀ r, op r = op' r) : Early op := by
  rw [funext same]
  exact reads

theorem u8 : Early u8 := by
  intro b pos v r read
  obtain ⟨v', found, same⟩ := Option.map_eq_some_iff.mp read
  obtain ⟨rfl, rfl⟩ := Prod.mk.inj same
  refine ⟨pos + 1, rfl, Nat.le_succ pos, fun b' same => ?_⟩
  unfold Reader.u8
  dsimp only
  rw [same pos (Nat.lt_succ_self pos), found]
  rfl

theorem u16 : Early u16 := by
  have both := bind u8 fun high => bind u8 fun low => pure (high.toNat * 256 + low.toNat)
  exact both

theorem si24 : Early si24 := by
  intro b pos v r read
  unfold Reader.si24 at read
  dsimp only at read
  split at read
  · next x y z three =>
    obtain ⟨rfl, rfl⟩ := Prod.mk.inj (Option.some.inj read)
    refine ⟨pos + 3, rfl, Nat.le_add_right pos 3, fun b' same => ?_⟩
    unfold Reader.si24
    dsimp only
    rw [take_drop_congr same, three]
  · contradiction

theorem fourcc : Early fourcc := by
  intro b pos v r read
  unfold Reader.fourcc at read
  dsimp only at read
  split at read
  · next four =>
    obtain ⟨rfl, rfl⟩ := Prod.mk.inj (Option.some.inj read)
    refine ⟨pos + 4, rfl, Nat.le_add_right pos 4, fun b' same => ?_⟩
    unfold Reader.fourcc
    dsimp only
    rw [take_drop_congr same, if_pos (length_of_same same four)]
  · contradiction

theorem skip (n : ℕ) : Early fun r => (r.skip n).map fun r => ((), r) := by
  intro b pos v r read
  obtain ⟨r', skipped, same⟩ := Option.map_eq_some_iff.mp read
  obtain ⟨rfl, rfl⟩ := Prod.mk.inj same
  unfold Reader.skip at skipped
  dsimp only at skipped
  split at skipped
  · contradiction
  · next inside =>
    obtain rfl := Option.some.inj skipped
    refine ⟨pos + n, rfl, Nat.le_add_right pos n, fun b' same => ?_⟩
    unfold Reader.skip
    dsimp only
    rw [if_neg (Nat.not_lt.mpr (length_of_same same (Nat.le_of_not_lt inside)))]
    rfl

/-- The number of bytes of a ModEx block. -/
theorem modExSize (s : UInt8) : Early fun r =>
    if s.toNat + 1 = 256 then (do let (s, r) ← r.u16; return (s + 1, r)) else some (s.toNat + 1, r) := by
  split
  · exact bind u16 fun _ => pure _
  · exact pure _

theorem skipModExLoop (modEx : UInt8) (guard : ℕ) (packetType : UInt8) :
    Early fun r => Reader.skipModExLoop modEx guard r packetType := by
  induction guard generalizing packetType with
  | zero =>
    unfold Reader.skipModExLoop
    split
    · exact failure
    · exact pure _
  | succ guard ih =>
    unfold Reader.skipModExLoop
    split
    · refine of_eq (bind u8 fun s => bind (modExSize s) fun size => bind (skip size) fun _ => bind u8 fun t =>
        ih (t &&& 0x0f)) fun r => ?_
      cases r.u8 with
      | none => rfl
      | some read =>
        obtain ⟨s, r⟩ := read
        dsimp only [Bind.bind, Option.bind_some]
        split
        · cases r.u16 with
          | none => rfl
          | some size =>
            show (size.2.skip (size.1 + 1)).bind _ = (Option.map _ (size.2.skip (size.1 + 1))).bind _
            rw [Option.bind_map]
            rfl
        · show (r.skip (s.toNat + 1)).bind _ = (Option.map _ (r.skip (s.toNat + 1))).bind _
          rw [Option.bind_map]
          rfl
    · exact pure _

end Early

end Reader

/-- Where three more bytes follow, the time is read as it is of any bytes that begin so. -/
theorem compositionTimeOr0_early {time : ℤ} (read : compositionTimeOr0 ⟨payload, pos⟩ = (time, r))
    (same : ∀ i < r.pos, out[i]? = payload[i]?) (room : r.pos + 3 ≤ payload.length) :
    pos ≤ r.pos ∧ compositionTimeOr0 ⟨out, pos⟩ = (time, ⟨out, r.pos⟩) := by
  unfold compositionTimeOr0 at read ⊢
  cases timed : Reader.si24 ⟨payload, pos⟩ with
  | none =>
    rw [timed] at read
    obtain ⟨rfl, rfl⟩ := Prod.mk.inj read
    unfold Reader.si24 at timed
    dsimp only at timed
    split at timed
    · contradiction
    · next short =>
      dsimp only at room
      have length : ((payload.drop pos).take 3).length = 3 := by
        rw [List.length_take, List.length_drop]
        omega
      rcases three : (payload.drop pos).take 3 with _ | ⟨x, _ | ⟨y, _ | ⟨z, _ | ⟨w, more⟩⟩⟩⟩ <;> rw [three] at length
      iterate 3 exact absurd length (by simp)
      · exact absurd three (short x y z)
      · exact absurd length (by simp)
  | some given =>
    rw [timed] at read
    obtain rfl : given = (time, r) := read
    obtain ⟨pos', rfl, forward, again⟩ := Reader.Early.si24 payload pos _ _ timed
    refine ⟨forward, ?_⟩
    rw [again out same]
    rfl

theorem timeIf_early (c : Prop) [Decidable c] {time : ℤ}
    (read : (if c then compositionTimeOr0 ⟨payload, pos⟩ else (0, ⟨payload, pos⟩)) = (time, r))
    (same : ∀ i < r.pos, out[i]? = payload[i]?) (room : r.pos + 3 ≤ payload.length) :
    pos ≤ r.pos ∧ (if c then compositionTimeOr0 ⟨out, pos⟩ else (0, ⟨out, pos⟩)) = (time, ⟨out, r.pos⟩) := by
  split at read
  · next timed =>
    rw [if_pos timed]
    exact compositionTimeOr0_early read same room
  · next untimed =>
    obtain ⟨rfl, rfl⟩ := Prod.mk.inj read
    rw [if_neg untimed]
    exact ⟨Nat.le_refl pos, rfl⟩

/-- Two messages have the same kind of NAL units at the same place. -/
structure VideoInfo.Alike (info info' : VideoInfo) : Prop where
  codec : info'.codec = info.codec
  multitrack : info'.multitrack = info.multitrack
  configOffset : info'.configOffset = info.configOffset
  nalOffset : info'.nalOffset = info.nalOffset

private theorem inspectLegacyVideo_early (read : inspectLegacyVideo payload b0 ⟨payload, pos⟩ = some info)
    (coded : info.nalOffset = some offset) (same : ∀ i < offset, out[i]? = payload[i]?)
    (room : offset + 3 ≤ payload.length) :
    pos ≤ offset ∧ ∃ info', inspectLegacyVideo out b0 ⟨out, pos⟩ = some info' ∧ info.Alike info' := by
  unfold inspectLegacyVideo at read ⊢
  dsimp only at read ⊢
  split at read
  · obtain rfl := Option.some.inj read
    contradiction
  · next media =>
    rw [if_neg media]
    generalize (if b0 &&& 0x0f = 7 then VideoCodec.avc
      else if b0 &&& 0x0f = 12 then .hevc
      else if b0 &&& 0x0f = 13 then .av1
      else .other) = codec at read ⊢
    split at read
    · next known =>
      rw [if_pos known]
      obtain ⟨⟨packetType, r⟩, typed, read⟩ := Option.bind_eq_some_iff.mp read
      obtain ⟨pos₁, rfl, forward₁, again₁⟩ := Reader.Early.u8 payload pos packetType r typed
      obtain rfl := Option.some.inj read
      dsimp only at coded
      split at coded
      · cases timed : (if (decide (codec ≠ VideoCodec.other) && decide (packetType = 1)) = true then
            compositionTimeOr0 ⟨payload, pos₁⟩ else (0, ⟨payload, pos₁⟩)) with
        | mk time r =>
          rw [timed] at coded
          obtain rfl := Option.some.inj coded
          obtain ⟨forward₂, timed'⟩ := timeIf_early _ timed same room
          refine ⟨Nat.le_trans forward₁ forward₂, ?_⟩
          rw [again₁ out fun i before => same i (Nat.lt_of_lt_of_le before forward₂)]
          refine ⟨_, rfl, rfl, rfl, ?_, ?_⟩
          · dsimp only
            rw [timed']
          · dsimp only
            rw [timed']
      · contradiction
    · next other =>
      obtain rfl := Option.some.inj read
      have none_ : codec = .other := by simpa using other
      dsimp only at coded
      rw [if_neg fun frame => absurd (none_.symm.trans frame.1) (by decide)] at coded
      contradiction

private theorem inspectEnhancedVideo_early (read : inspectEnhancedVideo payload b0 ⟨payload, pos⟩ = some info)
    (coded : info.nalOffset = some offset) (same : ∀ i < offset, out[i]? = payload[i]?)
    (room : offset + 3 ≤ payload.length) :
    pos ≤ offset ∧ ∃ info', inspectEnhancedVideo out b0 ⟨out, pos⟩ = some info' ∧ info.Alike info' := by
  unfold inspectEnhancedVideo at read ⊢
  dsimp only at read ⊢
  obtain ⟨⟨packetType, r⟩, typed, read⟩ := Option.bind_eq_some_iff.mp read
  obtain ⟨pos₁, rfl, forward₁, again₁⟩ := Reader.Early.skipModExLoop _ 16 _ payload pos packetType r typed
  dsimp only at read
  split at read
  · obtain rfl := Option.some.inj read
    contradiction
  · next media =>
    split at read
    · next multitrack =>
      obtain ⟨_, -, read⟩ := Option.bind_eq_some_iff.mp read
      obtain ⟨_, -, read⟩ := Option.bind_eq_some_iff.mp read
      obtain rfl := Option.some.inj read
      dsimp only at coded
      rw [multitrack, if_neg (by simp)] at coded
      contradiction
    · next single =>
      obtain ⟨⟨fourcc, r⟩, coding, read⟩ := Option.bind_eq_some_iff.mp read
      obtain ⟨pos₂, rfl, forward₂, again₂⟩ := Reader.Early.fourcc payload pos₁ fourcc r coding
      obtain rfl := Option.some.inj read
      dsimp only at coded
      split at coded
      · cases timed : (if packetType = VideoPacket.CODED_FRAMES ∧
            (videoCodecFromFourcc fourcc = .avc ∨ videoCodecFromFourcc fourcc = .hevc) then
            compositionTimeOr0 ⟨payload, pos₂⟩ else (0, ⟨payload, pos₂⟩)) with
        | mk time r =>
          rw [timed] at coded
          obtain rfl := Option.some.inj coded
          obtain ⟨forward₃, timed'⟩ := timeIf_early _ timed same room
          have before₂ (i : ℕ) (less : i < pos₂) : out[i]? = payload[i]? := same i (Nat.lt_of_lt_of_le less forward₃)
          have header : Reader.skipModEx ⟨out, pos⟩ (b0 &&& 15) VideoPacket.MOD_EX = some (packetType, ⟨out, pos₁⟩) :=
            again₁ out fun i less => before₂ i (Nat.lt_of_lt_of_le less forward₂)
          refine ⟨Nat.le_trans forward₁ (Nat.le_trans forward₂ forward₃), ?_⟩
          rw [header]
          dsimp only [Bind.bind, Option.bind_some]
          rw [if_neg media, if_neg single, again₂ out before₂]
          refine ⟨_, rfl, rfl, rfl, ?_, ?_⟩
          · dsimp only
            rw [timed']
          · dsimp only
            rw [timed']
      · contradiction

/-- A message with the same bytes before its NAL units has the same kind of NAL units at the same place. -/
theorem inspectVideo_early (read : inspectVideo payload = some info) (coded : info.nalOffset = some offset)
    (same : ∀ i < offset, out[i]? = payload[i]?) (room : offset + 3 ≤ payload.length) :
    ∃ info', inspectVideo out = some info' ∧ info.Alike info' := by
  obtain ⟨⟨b0, r⟩, first, read⟩ := Option.bind_eq_some_iff.mp read
  obtain ⟨pos₁, rfl, -, again₁⟩ := Reader.Early.u8 payload 0 b0 r first
  unfold inspectVideo
  dsimp only at read
  split at read
  · next legacy =>
    obtain ⟨forward, info', again, alike⟩ := inspectLegacyVideo_early read coded same room
    refine ⟨info', ?_, alike⟩
    rw [again₁ out fun i less => same i (Nat.lt_of_lt_of_le less forward)]
    exact (if_pos legacy).trans again
  · next enhanced =>
    obtain ⟨forward, info', again, alike⟩ := inspectEnhancedVideo_early read coded same room
    refine ⟨info', ?_, alike⟩
    rw [again₁ out fun i less => same i (Nat.lt_of_lt_of_le less forward)]
    exact (if_neg enhanced).trans again

end StreamDelay.Flv
