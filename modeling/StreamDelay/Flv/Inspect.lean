import Mathlib.Algebra.GroupWithZero.Nat
import Mathlib.Data.Int.Notation
import Mathlib.Data.Nat.Notation

/-! # Inspecting FLV message bodies

The engine only asks three things of a payload: is it a frame a decoder can start from, is it
decoder configuration (and of which class), and, for HEVC, which NAL unit type its first slice has
and where the NAL data begins. The readers below follow the byte layout of legacy FLV tags and of
Enhanced RTMP headers; the only rewrite is the one that marks a CRA slice as a broken link.
-/

namespace StreamDelay.Flv

abbrev Bytes := List UInt8

inductive VideoCodec where
  | avc | hevc | av1 | vp9 | vp8 | other
deriving DecidableEq, Repr

inductive AudioCodec where
  | aac | mp3 | opus | flac | ac3 | eac3 | other
deriving DecidableEq, Repr

structure VideoInfo where
  codec : VideoCodec
  /-- A frame a decoder can start from. -/
  keyframe : Bool
  /-- Decoder configuration, identified by `configClass`. -/
  config : Bool
  configClass : UInt16
  enhanced : Bool
  multitrack : Bool
  /-- Composition time offset (PTS - DTS) in milliseconds. -/
  compositionTime : ℤ
  hevcNalType : Option UInt8
  nalOffset : Option ℕ
  configOffset : Option ℕ
deriving DecidableEq, Repr

structure AudioInfo where
  codec : AudioCodec
  config : Bool
  configClass : UInt16
  enhanced : Bool
  multitrack : Bool
deriving DecidableEq, Repr

/-- Big-endian 32-bit length prefix at `pos`; zero past the end. -/
def be32 (b : Bytes) (pos : ℕ) : ℕ :=
  ((b.getD pos 0).toNat * 256 + (b.getD (pos + 1) 0).toNat) * 65536 +
    (b.getD (pos + 2) 0).toNat * 256 + (b.getD (pos + 3) 0).toNat

namespace Hevc

def CRA : UInt8 := 21
def BLA_W_LP : UInt8 := 16

/-- Leading picture: decoded after its IRAP and presented before it. -/
def isLeading (t : UInt8) : Bool := 6 ≤ t && t ≤ 9

/-- Intra random access point (BLA, IDR or CRA). -/
def isIrap (t : UInt8) : Bool := 16 ≤ t && t ≤ 23

/-- A picture that follows its IRAP in output order. -/
def isTrailing (t : UInt8) : Bool := t ≤ 5

/-- NAL unit type of a NAL unit's first header byte. -/
def nalType (header : UInt8) : UInt8 := (header >>> 1) &&& (0x3f : UInt8)

/-- The rewriting loop of `craToBla`: every round consumes a length prefix and its NAL unit, so
the payload's length is fuel enough. -/
def craToBlaLoop : ℕ → Bytes → ℕ → Bool → Bytes × Bool
  | 0, out, _, changed => (out, changed)
  | fuel + 1, out, pos, changed =>
    if pos + 5 ≤ out.length then
      let len := be32 out pos
      let header := pos + 4
      if len = 0 ∨ out.length < header + len then (out, changed)
      else
        let byte := out.getD header 0
        if nalType byte = CRA then
          craToBlaLoop fuel (out.set header ((byte &&& (0x81 : UInt8)) ||| (BLA_W_LP <<< 1)))
            (header + len) true
        else craToBlaLoop fuel out (header + len) changed
    else (out, changed)

/-- Rewrites every CRA slice of length-prefixed NAL data from `offset` on as BLA_W_LP. -/
def craToBla (payload : Bytes) (offset : ℕ) : Option Bytes :=
  let (out, changed) := craToBlaLoop payload.length payload offset false
  if changed then some out else none

end Hevc

/-- NAL type of the first coded slice; every round consumes at least five bytes. -/
def firstHevcVclLoop : ℕ → Bytes → Option UInt8
  | 0, _ => none
  | fuel + 1, data =>
    if 6 ≤ data.length then
      let len := be32 data 0
      if 4 + len ≤ data.length then
        match (data.drop 4).take len with
        | [] => none
        | header :: _ =>
          let t := Hevc.nalType header
          if t < 32 then some t else firstHevcVclLoop fuel (data.drop (4 + len))
      else none
    else none

def firstHevcVcl (data : Bytes) : Option UInt8 := firstHevcVclLoop data.length data

structure Reader where
  b : Bytes
  pos : ℕ := 0

namespace Reader

def u8 (r : Reader) : Option (UInt8 × Reader) :=
  r.b[r.pos]?.map fun v => (v, { r with pos := r.pos + 1 })

def u16 (r : Reader) : Option (ℕ × Reader) := do
  let (hi, r) ← r.u8
  let (lo, r) ← r.u8
  return (hi.toNat * 256 + lo.toNat, r)

/-- Signed 24-bit big-endian integer. -/
def si24 (r : Reader) : Option (ℤ × Reader) :=
  match (r.b.drop r.pos).take 3 with
  | [a, b, c] =>
    let v : ℤ := a.toNat * 65536 + b.toNat * 256 + c.toNat
    some (if v < 8388608 then v else v - 16777216, { r with pos := r.pos + 3 })
  | _ => none

def fourcc (r : Reader) : Option (Bytes × Reader) :=
  if r.pos + 4 ≤ r.b.length then
    some ((r.b.drop r.pos).take 4, { r with pos := r.pos + 4 })
  else none

def skip (r : Reader) (n : ℕ) : Option Reader :=
  if r.b.length < r.pos + n then none else some { r with pos := r.pos + n }

/-- At most sixteen ModEx blocks are skipped; `guard` counts those left. -/
def skipModExLoop (modEx : UInt8) : ℕ → Reader → UInt8 → Option (UInt8 × Reader)
  | guard, r, packetType =>
    if packetType = modEx then
      match guard with
      | 0 => none
      | guard + 1 => do
        let (s, r) ← r.u8
        let (size, r) ←
          if s.toNat + 1 = 256 then do
            let (s, r) ← r.u16
            pure (s + 1, r)
          else pure (s.toNat + 1, r)
        let r ← r.skip size
        let (t, r) ← r.u8
        skipModExLoop modEx guard r (t &&& 0x0f)
    else some (packetType, r)

/-- Skips ModEx blocks and returns the final packet type. -/
def skipModEx (r : Reader) (packetType modEx : UInt8) : Option (UInt8 × Reader) :=
  skipModExLoop modEx 16 r packetType

end Reader

def videoCodecFromFourcc (f : Bytes) : VideoCodec :=
  if f = [0x61, 0x76, 0x63, 0x31] then .avc
  else if f = [0x68, 0x76, 0x63, 0x31] then .hevc
  else if f = [0x61, 0x76, 0x30, 0x31] then .av1
  else if f = [0x76, 0x70, 0x30, 0x39] then .vp9
  else if f = [0x76, 0x70, 0x30, 0x38] then .vp8
  else .other

def audioCodecFromFourcc (f : Bytes) : AudioCodec :=
  if f = [0x6d, 0x70, 0x34, 0x61] then .aac
  else if f = [0x2e, 0x6d, 0x70, 0x33] then .mp3
  else if f = [0x4f, 0x70, 0x75, 0x73] then .opus
  else if f = [0x66, 0x4c, 0x61, 0x43] then .flac
  else if f = [0x61, 0x63, 0x2d, 0x33] then .ac3
  else if f = [0x65, 0x63, 0x2d, 0x33] then .eac3
  else .other

namespace FrameType
def KEY : UInt8 := 1
def COMMAND : UInt8 := 5
end FrameType

namespace VideoPacket
def SEQUENCE_START : UInt8 := 0
def CODED_FRAMES : UInt8 := 1
def CODED_FRAMES_X : UInt8 := 3
def METADATA : UInt8 := 4
def MPEG2TS_SEQUENCE_START : UInt8 := 5
def MULTITRACK : UInt8 := 6
def MOD_EX : UInt8 := 7
end VideoPacket

namespace AudioPacket
def SEQUENCE_START : UInt8 := 0
def MULTICHANNEL_CONFIG : UInt8 := 4
def MULTITRACK : UInt8 := 5
def MOD_EX : UInt8 := 7
end AudioPacket

/-- The multitrack layout with a single track and so no track sizes. -/
def MULTITRACK_ONE_TRACK : UInt8 := 0

/-- What a command frame (seek start or end) is read as. -/
def commandInfo (b0 : UInt8) : VideoInfo where
  codec := .other
  keyframe := false
  config := false
  configClass := 0
  enhanced := b0 &&& 0x80 ≠ 0
  multitrack := false
  compositionTime := 0
  hevcNalType := none
  nalOffset := none
  configOffset := none

/-- `r.si24().unwrap_or(0)`: on a short read the position stays. -/
def compositionTimeOr0 (r : Reader) : ℤ × Reader := r.si24.getD (0, r)

/-- A legacy FLV video tag, after its first byte. -/
def inspectLegacyVideo (payload : Bytes) (b0 : UInt8) (r : Reader) : Option VideoInfo := do
  let ft := b0 >>> 4
  if ft = FrameType.COMMAND then
    return commandInfo b0
  let codec : VideoCodec :=
    if b0 &&& 0x0f = 7 then .avc
    else if b0 &&& 0x0f = 12 then .hevc
    else if b0 &&& 0x0f = 13 then .av1
    else .other
  let hasPacketType : Bool := codec ≠ .other
  let (packetType, r) ← if hasPacketType then r.u8 else some (1, r)
  let config : Bool := hasPacketType && packetType = 0
  let (compositionTime, r) :=
    if hasPacketType && packetType = 1 then compositionTimeOr0 r else (0, r)
  let nalOffset := if codec = .hevc ∧ packetType = 1 then some r.pos else none
  let hevcNalType := nalOffset.bind fun o =>
    if o ≤ payload.length then firstHevcVcl (payload.drop o) else none
  let configOffset := if codec = .hevc ∧ config then some (r.pos + 3) else none
  return {
    codec, config, compositionTime, hevcNalType, nalOffset, configOffset
    keyframe := ft = FrameType.KEY ∧ packetType = 1
    configClass := 0
    enhanced := false
    multitrack := false }

/-- An Enhanced RTMP video header, after its first byte. -/
def inspectEnhancedVideo (payload : Bytes) (b0 : UInt8) (r : Reader) : Option VideoInfo := do
  let ft := (b0 >>> 4) &&& 0x07
  let (packetType, r) ← r.skipModEx (b0 &&& 0x0f) VideoPacket.MOD_EX
  if packetType ≠ VideoPacket.METADATA ∧ ft = FrameType.COMMAND then
    return commandInfo b0
  let multitrack : Bool := packetType = VideoPacket.MULTITRACK
  let (packetType, fourcc, trackId, r) ←
    if multitrack then do
      let (b, r) ← r.u8
      let (fourcc, r) ← r.fourcc
      let (trackId, r) := r.u8.getD (0, r)
      let r := if b >>> 4 ≠ MULTITRACK_ONE_TRACK then (r.skip 3).getD r else r
      pure (b &&& 0x0f, fourcc, trackId, r)
    else do
      let (fourcc, r) ← r.fourcc
      pure (packetType, fourcc, (0 : UInt8), r)
  let config : Bool :=
    packetType = VideoPacket.SEQUENCE_START ∨ packetType = VideoPacket.MPEG2TS_SEQUENCE_START
  let codec := videoCodecFromFourcc fourcc
  let (compositionTime, r) :=
    if packetType = VideoPacket.CODED_FRAMES ∧ (codec = .avc ∨ codec = .hevc) then
      compositionTimeOr0 r
    else (0, r)
  let coded : Bool :=
    packetType = VideoPacket.CODED_FRAMES ∨ packetType = VideoPacket.CODED_FRAMES_X
  let nalOffset := if codec = .hevc ∧ coded ∧ !multitrack then some r.pos else none
  let hevcNalType := nalOffset.bind fun o =>
    if o ≤ payload.length then firstHevcVcl (payload.drop o) else none
  let configOffset :=
    if codec = .hevc ∧ packetType = VideoPacket.SEQUENCE_START ∧ !multitrack then some r.pos
    else none
  return {
    codec, config, multitrack, compositionTime, hevcNalType, nalOffset, configOffset
    keyframe := ft = FrameType.KEY ∧ coded
    configClass := (trackId.toUInt16 <<< 8) ||| packetType.toUInt16
    enhanced := true }

/-- Inspects a video message body. `none` for empty or truncated bodies. -/
def inspectVideo (payload : Bytes) : Option VideoInfo := do
  let (b0, r) ← Reader.u8 { b := payload }
  if b0 &&& 0x80 = 0 then inspectLegacyVideo payload b0 r else inspectEnhancedVideo payload b0 r

/-- Inspects an audio message body. `none` for empty or truncated bodies. -/
def inspectAudio (payload : Bytes) : Option AudioInfo := do
  let (b0, r) ← Reader.u8 { b := payload }
  let format := b0 >>> 4
  if format ≠ 9 then
    let codec : AudioCodec :=
      if format = 10 then .aac else if format = 2 ∨ format = 14 then .mp3 else .other
    let config ← if codec = .aac then r.u8.map (fun p => decide (p.1 = 0)) else some false
    return { codec, config, configClass := 0, enhanced := false, multitrack := false }
  let (packetType, r) ← r.skipModEx (b0 &&& 0x0f) AudioPacket.MOD_EX
  let multitrack : Bool := packetType = AudioPacket.MULTITRACK
  let (packetType, fourcc, trackId) ←
    if multitrack then do
      let (b, r) ← r.u8
      let (fourcc, r) ← r.fourcc
      pure (b &&& 0x0f, fourcc, (r.u8.map Prod.fst).getD 0)
    else do
      let (fourcc, _) ← r.fourcc
      pure (packetType, fourcc, (0 : UInt8))
  return {
    codec := audioCodecFromFourcc fourcc
    config := packetType = AudioPacket.SEQUENCE_START ∨ packetType = AudioPacket.MULTICHANNEL_CONFIG
    configClass := (trackId.toUInt16 <<< 8) ||| packetType.toUInt16
    enhanced := true
    multitrack }

end StreamDelay.Flv
