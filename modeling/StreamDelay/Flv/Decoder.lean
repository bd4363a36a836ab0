import StreamDelay.Flv.PocGuard

/-! # A decoder that keeps its pictures across a broken link

What it makes of the messages it is sent: the count of every picture it decodes, what it holds when the picture comes,
and whether the further slices of a picture carry the count of the first. It checks a new picture's count against those
of the pictures held before it lets go of them at a BLA picture, or at a CRA picture after an end of sequence.
-/

namespace StreamDelay.Flv.Hevc

open Foundations

/-- A picture when a decoder comes to it. -/
structure Picture where
  type : UInt8
  /-- It comes in a packet after an end of sequence. -/
  eos : Bool
  /-- Its sequence parameter set is not that of the picture before. -/
  changed : Bool
  log2MaxPocLsb : ℕ
  /-- The counts of the pictures held. -/
  held : List ℤ
  poc : ℤ
  rps : Rps
  /-- The counts after it are reckoned from its own. -/
  anchor : Bool
deriving DecidableEq, Repr

/-- It starts a coded video sequence. -/
def Picture.starts (p : Picture) : Bool := isIdr p.type || isBla p.type || p.eos || p.changed

inductive Seen where
  | picture (p : Picture)
  /-- A further slice, and whether it carries the count of its picture's first slice. -/
  | slice (same : Bool)
deriving DecidableEq, Repr

structure Decoder extends ParameterSets where
  active : Option (ℕ × ℕ)
  held : List ℤ
  prevTid0 : ℤ
  ended : Bool
  noRaslOutput : Bool
  /-- Width and value of slice_pic_order_cnt_lsb in the first slice of the last picture. -/
  lsb : Option (ℕ × ℕ)

namespace Decoder

def new : Decoder where
  sps := fun _ => none
  pps := fun _ => none
  versions := 0
  lengthsOk := true
  active := none
  held := []
  prevTid0 := 0
  ended := false
  noRaslOutput := false
  lsb := none

/-- The count of a picture. -/
def poc (s : Slice) (log2 : ℕ) (t : UInt8) (d : Decoder) : ℤ :=
  match s.lsb with
  | some (_, _, lsb) => computePoc d.prevTid0 lsb log2 t
  | none => 0

/-- A picture that is decoded: after it the decoder holds the picture itself and those that its reference picture set
names. -/
def decoded (t : UInt8) (tid : ℕ) (s : Slice) (eos : Bool) (active : ℕ × ℕ) (log2 : ℕ) (d : Decoder) :
    Decoder × List Seen :=
  let changed : Bool := d.active ≠ some active
  let poc := d.poc s log2 t
  let anchor : Bool := tid = 0 ∧ isAnchor t
  ({ d with
      active := some active
      prevTid0 := if anchor then poc else d.prevTid0
      held := poc :: (s.rps.before ++ s.rps.after).map (poc + ·) },
    [.picture ⟨t, eos, changed, log2, if isIdr t || changed then [] else d.held, poc, s.rps, anchor⟩])

/-- The first slice of a picture. -/
def picture (t : UInt8) (tid : ℕ) (s : Slice) (eos : Bool) (d : Decoder) : Decoder × List Seen :=
  let d := { d with lsb := s.lsb.map Prod.snd }
  match d.sps s.spsId with
  | none => (d, [])
  | some (version, _, sps) =>
    let d := { d with noRaslOutput := PocGuard.raslOutput t eos d.noRaslOutput }
    if isRasl t && d.noRaslOutput then (d, [])
    else d.decoded t tid s eos (s.spsId, version) sps.log2MaxPocLsb

/-- Whether a further slice carries the count of the first. -/
def agrees (s : Slice) (d : Decoder) : Bool := s.lsb.all fun count => d.lsb = some count.2

end Decoder

/-- A decoder at a NAL unit of a packet. -/
structure Reading where
  decoder : Decoder
  eos : Bool
  atStart : Bool

namespace Reading

def slice (t : UInt8) (tid : ℕ) (nal : Bytes) (p : Reading) : Reading × List Seen :=
  match p.decoder.slice (unescape nal) t with
  | none => (p, [])
  | some s =>
    if s.first then
      let (decoder, seen) := p.decoder.picture t tid s p.eos
      ({ p with decoder }, seen)
    else (p, [.slice (p.decoder.agrees s)])

def unit (p : Reading) (nal : Bytes) : Reading × List Seen :=
  match nal with
  | b0 :: b1 :: _ =>
    let t := nalType b0
    if t = EOS_NUT ∨ t = EOB_NUT then
      (if p.atStart then { p with eos := true } else { p with decoder.ended := true }, [])
    else
      let p := { p with atStart := false }
      if layerId b0 b1 ≠ 0 ∨ 32 ≤ t then
        if layerId b0 b1 = 0 then
          ({ p with decoder.toParameterSets := p.decoder.parameterSet nal }, [])
        else (p, [])
      else
        match temporalId b1 with
        | none => (p, [])
        | some tid => p.slice t tid nal
  | _ => (p, [])

end Reading

namespace Decoder

def packet (d : Decoder) : Reading := ⟨{ d with ended := false }, d.ended, true⟩

/-- A coded frame: NAL units with 4-byte lengths after `offset`. -/
def coded (payload : Bytes) (offset : ℕ) (d : Decoder) : Decoder × List Seen :=
  let units := (units (payload.drop offset)).1
  ((Machine.after Reading.unit d.packet units).decoder, Machine.outputs Reading.unit d.packet units)

/-- The body of a video message. -/
def video (d : Decoder) (payload : Bytes) : Decoder × List Seen :=
  match inspectVideo payload with
  | none => (d, [])
  | some info =>
    if info.codec ≠ .hevc ∨ info.multitrack then (d, [])
    else
      match info.configOffset with
      | some offset => ({ d with toParameterSets := d.configuration (payload.drop offset) }, [])
      | none =>
        match info.nalOffset with
        | some offset => d.coded payload offset
        | none => (d, [])

end Decoder

end StreamDelay.Flv.Hevc
