import Mathlib.Logic.Function.Basic
import StreamDelay.Flv.Emulation
import StreamDelay.Flv.ParameterSets
import StreamDelay.Foundations.Machine

/-! # Picture order counts that a decoder never sees twice

A decoder that still holds pictures across a broken link drops a picture that repeats the count of one of them. The
guard follows the pictures written to the destination and what such a decoder holds after each; where a new coded
video sequence would repeat a count held, every slice's `slice_pic_order_cnt_lsb` moves by the same amount.
-/

namespace StreamDelay.Flv.Hevc

open Foundations Bits

def TRAIL_N : UInt8 := 0
def TSA_N : UInt8 := 2
def STSA_N : UInt8 := 4
def RADL_N : UInt8 := 6
def RADL_R : UInt8 := 7
def RASL_N : UInt8 := 8
def RASL_R : UInt8 := 9
def BLA_N_LP : UInt8 := 18
def IDR_W_RADL : UInt8 := 19
def IDR_N_LP : UInt8 := 20
def SPS_NUT : UInt8 := 33
def PPS_NUT : UInt8 := 34
def EOS_NUT : UInt8 := 36
def EOB_NUT : UInt8 := 37

/-- Enough of a slice segment's escaped bytes for its header up to the reference picture set. -/
def SLICE_HEADER_BYTES : ℕ := 512

def isIdr (t : UInt8) : Bool := t = IDR_W_RADL || t = IDR_N_LP

def isBla (t : UInt8) : Bool := BLA_W_LP ≤ t && t ≤ BLA_N_LP

def isRasl (t : UInt8) : Bool := t = RASL_N || t = RASL_R

/-- A picture of temporal layer 0 that the next ones are numbered from. -/
def isAnchor (t : UInt8) : Bool :=
  !(t = TRAIL_N || t = TSA_N || t = STSA_N || t = RADL_N || t = RADL_R || t = RASL_N || t = RASL_R)

/-- The layer of a NAL unit, from the two bytes of its header. -/
def layerId (b0 b1 : UInt8) : UInt8 := ((b0 &&& (1 : UInt8)) <<< 5) ||| (b1 >>> 3)

/-- The temporal layer of a NAL unit, from the second byte of its header. -/
def temporalId (b1 : UInt8) : Option ℕ :=
  if b1 &&& (7 : UInt8) = 0 then none else some ((b1 &&& (7 : UInt8)).toNat - 1)

/-! ## Slice segment headers -/

/-- The start of a slice segment header. -/
structure Slice where
  first : Bool
  spsId : ℕ
  /-- For all but IDR pictures (and dependent slice segments, which have none): the bit position, width and value of
  slice_pic_order_cnt_lsb. -/
  lsb : Option (ℕ × ℕ × ℕ)
  rps : Rps
deriving DecidableEq, Repr

/-- The parameter sets seen. -/
structure ParameterSets where
  /-- By id: the version it was given when it last changed, its RBSP, and what slices need of it. -/
  sps : ℕ → Option (ℕ × Bytes × Sps)
  pps : ℕ → Option Pps
  versions : ℕ
  /-- NAL units have 4-byte lengths. -/
  lengthsOk : Bool

/-- The position reached. -/
def position : Partial Bits ℕ := fun r => some (r.pos, r)

/-- The reference picture set of a slice: one of those of the sequence, or its own. -/
def sliceRps (sets : List Rps) : Partial Bits Rps := do
  let given ← bit
  if given then do
    let idx ← bits (ceilLog2 sets.length)
    match sets[idx]? with
    | none => failure
    | some set => pure set
  else Rps.stRefPicSet sets sets.length true

/-- What comes before slice_pic_order_cnt_lsb in a segment that is not a dependent one. -/
def sliceFront (first : Bool) (pps : Pps) (sps : Sps) : Partial Bits Unit := do
  onlyIf (!first) (skip sps.addressBits)
  skip pps.extraBits
  let _ ← ue
  skip (pps.outputFlag.toNat + 2 * sps.separateColourPlane.toNat)

/-- The order count of a slice, and its reference picture set. -/
def sliceCount (first : Bool) (spsId : ℕ) (sps : Sps) : Partial Bits Slice := do
  let start ← position
  let lsb ← bits sps.log2MaxPocLsb
  let rps ← sliceRps sps.sets
  pure ⟨first, spsId, some (start, sps.log2MaxPocLsb, lsb), rps⟩

/-- The rest of a header whose parameter sets are known. -/
def sliceBody (t : UInt8) (first : Bool) (pps : Pps) (sps : Sps) : Partial Bits Slice := do
  let dependent ← flagIf (first = false ∧ pps.dependentSlices)
  if dependent then pure ⟨false, pps.spsId, none, {}⟩
  else do
    sliceFront first pps sps
    if isIdr t then pure ⟨first, pps.spsId, none, {}⟩ else sliceCount first pps.spsId sps

namespace ParameterSets

def sliceReader (p : ParameterSets) (t : UInt8) : Partial Bits Slice := do
  let first ← bit
  onlyIf (isIrap t) (skip 1)
  let id ← ue
  match p.pps id with
  | none => failure
  | some pps =>
    match p.sps pps.spsId with
    | none => failure
    | some (_, _, sps) => if sps.longTermRefs then failure else sliceBody t first pps sps

/-- The start of a slice segment header, from its RBSP. -/
def slice (p : ParameterSets) (rbsp : Bytes) (t : UInt8) : Option Slice :=
  (p.sliceReader t (Bits.new rbsp)).map Prod.fst

/-- Keeps a set sent again byte for byte as it was, and forgets the picture parameter sets that use one that
changed. -/
def setSps (id : ℕ) (rbsp : Bytes) (sps : Option Sps) (p : ParameterSets) : ParameterSets :=
  if sps.isSome ∧ (p.sps id).any fun (_, old, _) => old = rbsp then p
  else
    { p with
      versions := p.versions + 1
      sps := Function.update p.sps id (sps.map fun s => (p.versions + 1, rbsp, s))
      pps := fun i => (p.pps i).filter fun pps => pps.spsId ≠ id }

def parameterSet (nal : Bytes) (p : ParameterSets) : ParameterSets :=
  match nal with
  | b0 :: b1 :: _ =>
    if layerId b0 b1 ≠ 0 then p
    else if nalType b0 = SPS_NUT then
      match parseSps (unescape nal) with
      | some (id, sps) => p.setSps id (unescape nal) sps
      | none => p
    else if nalType b0 = PPS_NUT then
      match parsePps (unescape nal) with
      | some (id, pps) => { p with pps := Function.update p.pps id (some pps) }
      | none => p
    else p
  | _ => p

/-- The parameter sets of one array of an `hvcC` record, and what comes after it. -/
def array : ℕ → Bytes → ParameterSets → ParameterSets × Option Bytes
  | 0, c, p => (p, some c)
  | n + 1, high :: low :: rest, p =>
    let len := high.toNat * 256 + low.toNat
    if len ≤ rest.length then array n (rest.drop len) (p.parameterSet (rest.take len)) else (p, none)
  | _, _, p => (p, none)

def arrays : ℕ → Bytes → ParameterSets → ParameterSets
  | 0, _, p => p
  | n + 1, _ :: high :: low :: rest, p =>
    match array (high.toNat * 256 + low.toNat) rest p with
    | (p, some rest) => arrays n rest p
    | (p, none) => p
  | _, _, p => p

/-- An `hvcC` record: its parameter sets. -/
def configuration (record : Bytes) (p : ParameterSets) : ParameterSets :=
  match record[21]?, record[22]? with
  | some lengths, some count =>
    arrays count.toNat (record.drop 23) { p with lengthsOk := lengths &&& (3 : UInt8) = 3 }
  | _, _ => p

end ParameterSets

/-! ## Order counts -/

/-- Number of the picture: from the previous picture of temporal layer 0, except that a BLA picture starts again from
its bits. -/
def computePoc (prevTid0 : ℤ) (lsb log2MaxLsb : ℕ) (t : UInt8) : ℤ :=
  let max : ℤ := 2 ^ log2MaxLsb
  let prevLsb := prevTid0.tmod max
  let prevMsb := prevTid0 - prevLsb
  let msb :=
    if lsb < prevLsb ∧ max / 2 ≤ prevLsb - lsb then prevMsb + max
    else if prevLsb < lsb ∧ max / 2 < lsb - prevLsb then prevMsb - max
    else prevMsb
  if isBla t then lsb else msb + lsb

structure PocGuard extends ParameterSets where
  /-- The sequence parameter set of the last picture, by id and version. -/
  active : Option (ℕ × ℕ)
  /-- Picture order counts the decoder holds as references after the last picture, when known. -/
  held : Option (List ℤ)
  prevTid0 : ℤ
  /-- The last packet ended a sequence. -/
  ended : Bool
  /-- Pictures that lead the last random access point are not decoded. -/
  noRaslOutput : Bool
  /-- What every picture order count of the current sequence moves by. -/
  shift : ℕ

namespace PocGuard

def new : PocGuard where
  sps := fun _ => none
  pps := fun _ => none
  versions := 0
  lengthsOk := true
  active := none
  held := some []
  prevTid0 := 0
  ended := false
  noRaslOutput := false
  shift := 0

/-- The first amount that moves a picture away from every count held. -/
def freeShift (held : List ℤ) (prevTid0 : ℤ) (lsb log2 : ℕ) (t : UInt8) : ℕ :=
  ((List.range (2 ^ log2)).find? fun d => computePoc prevTid0 ((lsb + d) % 2 ^ log2) log2 t ∉ held).getD 0

/-- What the counts of a sequence that a picture starts move by. -/
def shiftFor (s : Slice) (log2 : ℕ) (t : UInt8) (g : PocGuard) : ℕ :=
  match s.lsb, g.held with
  | some (_, _, lsb), some held => freeShift held g.prevTid0 lsb log2 t
  | _, _ => 0

/-- The count of a picture as it is written. -/
def poc (s : Slice) (log2 : ℕ) (t : UInt8) (g : PocGuard) : ℤ :=
  match s.lsb with
  | some (_, _, lsb) => computePoc g.prevTid0 ((lsb + g.shift) % 2 ^ log2) log2 t
  | none => 0

/-- Whether pictures that lead a random access point are decoded, at the first slice of a picture. -/
def raslOutput (t : UInt8) (eos : Bool) (noRaslOutput : Bool) : Bool :=
  if isIrap t then isIdr t || isBla t || (t = CRA && eos) else noRaslOutput

/-- A picture that is decoded, with the sequence parameter set `active`. -/
def decoded (t : UInt8) (tid : ℕ) (s : Slice) (eos : Bool) (active : ℕ × ℕ) (log2 : ℕ) (g : PocGuard) : PocGuard :=
  -- A different sequence parameter set clears what the decoder held.
  let changed : Bool := g.active ≠ some active
  let g := { g with active := some active, held := if isIdr t || changed then some [] else g.held }
  let g := if isIdr t || isBla t || eos || changed then { g with shift := g.shiftFor s log2 t } else g
  let poc := g.poc s log2 t
  { g with
    prevTid0 := if tid = 0 ∧ isAnchor t then poc else g.prevTid0
    held := some (poc :: (s.rps.before ++ s.rps.after).map (poc + ·)) }

/-- The first slice of a picture (in a packet after an end of sequence, or not): how the decoder numbers it
(renumbered if it starts a sequence on a number held), and what it holds after. -/
def picture (t : UInt8) (tid : ℕ) (s : Slice) (eos : Bool) (g : PocGuard) : PocGuard :=
  match g.sps s.spsId with
  | none => g
  | some (version, _, sps) =>
    let g := { g with noRaslOutput := raslOutput t eos g.noRaslOutput }
    if isRasl t && g.noRaslOutput then g
    else g.decoded t tid s eos (s.spsId, version) sps.log2MaxPocLsb

/-- A slice with its order count moved. -/
def moved (shift : ℕ) (s : Slice) (nal : Bytes) : Option Bytes :=
  match s.lsb with
  | some (start, width, lsb) =>
    if shift ≠ 0 then some (escape (putBits (unescape nal) start width ((lsb + shift) % 2 ^ width))) else none
  | none => none

end PocGuard

/-! ## Messages -/

/-- What can be said at a NAL unit of a packet. -/
structure Packet where
  guard : PocGuard
  /-- The sequence ended before the packet. -/
  eos : Bool
  /-- No NAL unit that is not an end of sequence has come yet. -/
  atStart : Bool

namespace Packet

/-- A NAL unit of the base layer that may hold a slice. -/
def slice (t : UInt8) (tid : ℕ) (nal : Bytes) (p : Packet) : Packet × List (Option Bytes) :=
  match p.guard.slice (unescape (nal.take SLICE_HEADER_BYTES)) t with
  | none => ({ p with guard.held := none }, [none])
  | some s =>
    let guard := if s.first then p.guard.picture t tid s p.eos else p.guard
    ({ p with guard }, [PocGuard.moved guard.shift s nal])

/-- One NAL unit, and what is written for it if it is changed. -/
def unit (p : Packet) (nal : Bytes) : Packet × List (Option Bytes) :=
  match nal with
  | b0 :: b1 :: _ =>
    let t := nalType b0
    if t = EOS_NUT ∨ t = EOB_NUT then
      (if p.atStart then { p with eos := true } else { p with guard.ended := true }, [none])
    else
      let p := { p with atStart := false }
      if layerId b0 b1 ≠ 0 ∨ 32 ≤ t then
        if layerId b0 b1 = 0 then
          ({ p with guard.toParameterSets := p.guard.parameterSet nal }, [none])
        else if t < 32 then ({ p with guard.held := none }, [none])
        else (p, [none])
      else
        match temporalId b1 with
        | none => (p, [none])
        | some tid => p.slice t tid nal
  | _ => (p, [none])

end Packet

/-- The NAL units with 4-byte lengths at the start of `data`, and what follows the last whole one. -/
def splitUnits : ℕ → Bytes → List Bytes × Bytes
  | 0, data => ([], data)
  | fuel + 1, data =>
    if 4 ≤ data.length ∧ 4 + be32 data 0 ≤ data.length then
      let (units, rest) := splitUnits fuel (data.drop (4 + be32 data 0))
      ((data.drop 4).take (be32 data 0) :: units, rest)
    else ([], data)

/-- A length of at least four bytes goes with every NAL unit. -/
def units (data : Bytes) : List Bytes × Bytes := splitUnits data.length data

/-- A NAL unit with its length before it. -/
def framed (nal : Bytes) : Bytes :=
  [.ofNat (nal.length / 16777216), .ofNat (nal.length / 65536), .ofNat (nal.length / 256), .ofNat nal.length] ++ nal

namespace PocGuard

/-- At the first NAL unit of a packet. An end of sequence before anything else in a packet ends the sequence before the
packet; after something, the packet's. -/
def packet (g : PocGuard) : Packet := ⟨{ g with ended := false }, g.ended, true⟩

/-- A coded frame: NAL units after `offset`. -/
def coded (payload : Bytes) (offset : ℕ) (g : PocGuard) : PocGuard × Option Bytes :=
  if g.lengthsOk then
    let (units, rest) := units (payload.drop offset)
    let rewritten := Machine.outputs Packet.unit g.packet units
    ((Machine.after Packet.unit g.packet units).guard,
      if rewritten.all (·.isNone) then none
      else
        some (payload.take offset ++
          ((units.zip rewritten).flatMap fun (nal, new) => framed (new.getD nal)) ++ rest))
  else (g, none)

/-- Takes the body of each video message written, in order. Gives the body to write instead, when its pictures are
renumbered. -/
def video (payload : Bytes) (g : PocGuard) : PocGuard × Option Bytes :=
  match inspectVideo payload with
  | none => (g, none)
  | some info =>
    if info.codec ≠ .hevc ∨ info.multitrack then (g, none)
    else
      match info.configOffset with
      | some offset =>
        ({ g with toParameterSets := g.configuration (payload.drop offset) }, none)
      | none =>
        match info.nalOffset with
        | some offset => g.coded payload offset
        | none => (g, none)

/-- The body that is written for a message. -/
def write (g : PocGuard) (payload : Bytes) : PocGuard × List Bytes :=
  ((g.video payload).1, [(g.video payload).2.getD payload])

end PocGuard

end StreamDelay.Flv.Hevc
