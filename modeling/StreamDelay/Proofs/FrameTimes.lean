import Mathlib.Algebra.Group.Int.Defs
import Mathlib.Tactic.Common
import StreamDelay.Engine.Ingest
import StreamDelay.Proofs.Buffer

/-! # How long frames last and how late they are presented

A composition time has 24 bits, and a session's frames are measured to last 200 ms at most.
-/

namespace StreamDelay

open Flv (Bytes)

namespace Flv

/-- A composition time of 24 bits. -/
def Shift (cts : ℤ) : Prop := -2 ^ 23 ≤ cts ∧ cts < 2 ^ 23

variable {payload : Bytes} {b0 : UInt8} {r : Reader} {info : VideoInfo}

theorem shift_zero : Shift 0 := ⟨by decide, by decide⟩

private theorem si24_shift {cts : ℤ} {next : Reader} (read : r.si24 = some (cts, next)) : Shift cts := by
  unfold Reader.si24 at read
  split at read
  · next a b c _ =>
    obtain ⟨rfl, -⟩ := Prod.mk.inj (Option.some.inj read)
    have := a.toNat_lt
    have := b.toNat_lt
    have := c.toNat_lt
    unfold Shift
    split <;> omega
  · contradiction

private theorem compositionTimeOr0_shift (r : Reader) : Shift (compositionTimeOr0 r).1 := by
  unfold compositionTimeOr0
  cases read : r.si24 with
  | none => exact shift_zero
  | some result => exact si24_shift read

private theorem timeIf_shift (timed : Bool) (r : Reader) :
    Shift (if timed then compositionTimeOr0 r else (0, r)).1 := by
  split
  · exact compositionTimeOr0_shift r
  · exact shift_zero

private theorem inspectLegacyVideo_shift (read : inspectLegacyVideo payload b0 r = some info) :
    Shift info.compositionTime := by
  unfold inspectLegacyVideo at read
  dsimp only at read
  split at read
  · obtain rfl := Option.some.inj read
    exact shift_zero
  · generalize (if b0 &&& 0x0f = 7 then VideoCodec.avc
      else if b0 &&& 0x0f = 12 then .hevc
      else if b0 &&& 0x0f = 13 then .av1
      else .other) = codec at read
    split at read
    · obtain ⟨⟨packetType, next⟩, -, built⟩ := Option.bind_eq_some_iff.mp read
      obtain rfl := Option.some.inj built
      exact timeIf_shift _ next
    · obtain rfl := Option.some.inj read
      exact timeIf_shift _ r

private theorem inspectEnhancedVideo_shift (read : inspectEnhancedVideo payload b0 r = some info) :
    Shift info.compositionTime := by
  unfold inspectEnhancedVideo at read
  obtain ⟨⟨packetType, next⟩, -, read⟩ := Option.bind_eq_some_iff.mp read
  dsimp only at read
  split at read
  · obtain rfl := Option.some.inj read
    exact shift_zero
  · split at read
    · obtain ⟨b, -, read⟩ := Option.bind_eq_some_iff.mp read
      obtain ⟨fourcc, -, built⟩ := Option.bind_eq_some_iff.mp read
      obtain rfl := Option.some.inj built
      dsimp only
      split
      · exact compositionTimeOr0_shift _
      · exact shift_zero
    · obtain ⟨⟨fourcc, rest⟩, -, built⟩ := Option.bind_eq_some_iff.mp read
      obtain rfl := Option.some.inj built
      dsimp only
      split
      · exact compositionTimeOr0_shift rest
      · exact shift_zero

/-- What a video message says of its composition time fits 24 bits. -/
theorem inspectVideo_shift (read : inspectVideo payload = some info) : Shift info.compositionTime := by
  obtain ⟨⟨b0, r⟩, -, read⟩ := Option.bind_eq_some_iff.mp read
  dsimp only at read
  split at read
  · exact inspectLegacyVideo_shift read
  · exact inspectEnhancedVideo_shift read

end Flv

private theorem classify_shift (now : ℕ) (kind : Kind) (ts : ℕ) (payload : Bytes) (session : Session)
    (stats : IngestTracker) : Flv.Shift (classify now kind ts payload session stats).cts := by
  unfold classify
  split
  · cases read : Flv.inspectVideo payload with
    | none => exact Flv.shift_zero
    | some info => exact Flv.inspectVideo_shift read
  · cases Flv.inspectAudio payload <;> exact Flv.shift_zero
  · exact Flv.shift_zero

private theorem classify_frameMs (now : ℕ) (kind : Kind) (ts : ℕ) (payload : Bytes) (session : Session)
    (stats : IngestTracker) :
    (classify now kind ts payload session stats).session.frameMs = session.frameMs ∨
      (classify now kind ts payload session stats).session.frameMs ≤ 200 := by
  unfold classify
  split
  · cases Flv.inspectVideo payload with
    | none => exact .inl rfl
    | some info =>
      dsimp only [Option.elim_some, classifyVideo]
      split
      · exact .inl rfl
      · cases session.lastVideoTs with
        | none => exact .inl rfl
        | some last =>
          dsimp only [Option.elim_some]
          split
          · next measured => exact .inr measured.2
          · exact .inl rfl
  · cases Flv.inspectAudio payload <;> exact .inl rfl
  · exact .inl rfl

private theorem keepHeader_frameMs (s : Session) (budget seq : ℕ) (kind : Kind) (config : Option UInt16)
    (payload : Bytes) : (s.keepHeader budget seq kind config payload).frameMs = s.frameMs := by
  unfold Session.keepHeader
  split
  · rfl
  · split <;> rfl

namespace Engine

variable {e : Engine} {f : ℕ}

/-! ## Sessions that come and go -/

private theorem forgetHeaders_frames (lasts : e.forgetHeaders.FrameOf f) : e.FrameOf f := by
  refine lasts.of_sessions fun s member => ?_
  unfold forgetHeaders at member
  dsimp only at member
  split at member
  · exact ⟨s, member, rfl⟩
  · obtain ⟨r, before, rfl⟩ := List.mem_map.mp member
    exact ⟨r, before, rfl⟩

theorem dropBuffer_frames (lasts : e.dropBuffer.FrameOf f) : e.FrameOf f := by
  unfold dropBuffer at lasts
  exact (forgetHeaders_frames lasts).of_sessions fun s member => ⟨s, List.mem_of_mem_filter member, rfl⟩

theorem splitSession_frames {seq : ℕ} (lasts : (e.splitSession seq).FrameOf f) : e.FrameOf f := by
  unfold splitSession at lasts
  split at lasts
  · exact lasts
  · next current newest =>
    refine lasts.of_sessions fun s member => ?_
    rcases List.mem_append.mp member with older | new
    · exact ⟨s, older, rfl⟩
    · obtain rfl := List.mem_singleton.mp new
      exact ⟨current, List.mem_of_getLast? newest, rfl⟩

theorem ingestStart_frames {now : ℕ} (lasts : (e.ingestStart now).FrameOf f) : e.FrameOf f := by
  have idle {mid : Engine} (lasts : mid.popIdleSession.FrameOf f) : mid.FrameOf f := by
    unfold popIdleSession at lasts
    split at lasts
    · split at lasts
      · exact lasts.of_sessions fun s member => ⟨s, List.dropLast_subset _ member, rfl⟩
      · exact lasts
    · exact lasts
  have kept (lasts : (if e.out.started then e else e.dropBuffer).FrameOf f) : e.FrameOf f := by
    split at lasts
    · exact lasts
    · exact dropBuffer_frames lasts
  refine kept (idle ?_)
  rcases lasts with rfl | ⟨s, member, same⟩
  · exact .inl rfl
  · rcases List.mem_append.mp member with older | new
    · exact .inr ⟨s, older, same⟩
    · obtain rfl := List.mem_singleton.mp new
      exact .inl same.symm

theorem ingestMetadata_frames {now : ℕ} {payload : Bytes} (lasts : (e.ingestMetadata now payload).FrameOf f) :
    e.FrameOf f := by
  unfold ingestMetadata at lasts
  split at lasts
  · exact lasts
  · split at lasts
    · exact lasts
    · next last newest =>
      refine lasts.of_sessions fun s member => ?_
      rcases List.mem_append.mp member with older | new
      · exact ⟨s, List.dropLast_subset _ older, rfl⟩
      · obtain rfl := List.mem_singleton.mp new
        exact ⟨last, List.mem_of_getLast? newest, rfl⟩

/-! ## A message is taken in -/

/-- The message taken in has a composition time of 24 bits, and its session's frames last no longer than
they are measured to. -/
theorem append_times {session : Session} (current : e.sessions.getLast? = some session) (now : ℕ)
    (kind : Kind) (ts : ℕ) (payload : Bytes) :
    (∀ x ∈ (e.append now kind ts payload session).ring, x ∈ e.ring ∨ Flv.Shift x.cts) ∧
      ∀ f, (e.append now kind ts payload session).FrameOf f → e.FrameOf f ∨ f ≤ 200 := by
  have shift := classify_shift now kind ts payload session e.stats
  have ring (y : Entry) (same : y.cts = (classify now kind ts payload session e.stats).cts) :
      ∀ x ∈ e.ring ++ [y], x ∈ e.ring ∨ Flv.Shift x.cts := by
    intro x member
    rcases List.mem_append.mp member with older | new
    · exact .inl older
    · obtain rfl := List.mem_singleton.mp new
      exact .inr (same ▸ shift)
  have frames (s : Session)
      (same : s.frameMs = (classify now kind ts payload session e.stats).session.frameMs) :
      ∀ f, (f = 33 ∨ ∃ r ∈ e.sessions.dropLast ++ [s], r.frameMs = f) → e.FrameOf f ∨ f ≤ 200 := by
    rintro f (rfl | ⟨r, member, rfl⟩)
    · exact .inl (.inl rfl)
    · rcases List.mem_append.mp member with older | new
      · exact .inl (.inr ⟨r, List.dropLast_subset _ older, rfl⟩)
      · obtain rfl := List.mem_singleton.mp new
        rw [same]
        rcases classify_frameMs now kind ts payload session e.stats with kept | measured
        · exact .inl (.inr ⟨session, List.mem_of_getLast? current, kept.symm⟩)
        · exact .inr measured
  unfold append
  dsimp only
  split <;> exact ⟨ring _ rfl, frames _ (keepHeader_frameMs ..)⟩

end Engine

end StreamDelay
