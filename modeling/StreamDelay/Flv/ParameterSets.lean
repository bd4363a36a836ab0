import StreamDelay.Flv.ReferenceSets

/-! # Sequence and picture parameter sets -/

namespace StreamDelay.Flv.Hevc

open Foundations Bits

/-- What slice headers need from a sequence parameter set. -/
structure Sps where
  log2MaxPocLsb : ℕ
  separateColourPlane : Bool
  /-- Width of slice_segment_address. -/
  addressBits : ℕ
  sets : List Rps
  longTermRefs : Bool
deriving DecidableEq, Repr

/-- Fails unless `c`. -/
def require (c : Prop) [Decidable c] : Partial Bits Unit := if c then pure () else failure

/-- `x` if `flag` is set, and nothing else. -/
def onlyIf (flag : Bool) (x : Partial Bits Unit) : Partial Bits Unit := if flag then x else pure ()

/-- A flag that is there only if `c`. -/
def flagIf (c : Prop) [Decidable c] : Partial Bits Bool := if c then bit else pure false

/-- What `reader` reads `n` times. -/
def times {α : Type} (reader : Partial Bits α) : ℕ → Partial Bits (List α)
  | 0 => pure []
  | n + 1 => do
    let first ← reader
    let rest ← times reader n
    pure (first :: rest)

/-- `n` numbers that nothing needs. -/
def skipUes (n : ℕ) : Partial Bits Unit := do
  let _ ← times ue n
  pure ()

/-- profile_tier_level(1, `subLayers`) -/
def skipProfileTierLevel (subLayers : ℕ) : Partial Bits Unit := do
  -- Profile (88 bits) and level of the stream.
  skip 96
  let present ← times (do return (← bit, ← bit)) subLayers
  onlyIf (0 < subLayers) (skip (2 * (8 - subLayers)))
  present.forM fun (profile, level) => do
    onlyIf profile (skip 88)
    onlyIf level (skip 8)

/-- One scaling list. -/
def skipScalingList (sizeId : ℕ) : Partial Bits Unit := do
  let coded ← bit
  if coded then do
    onlyIf (1 < sizeId) (do let _ ← se)
    let _ ← times se (min 64 (2 ^ (4 + 2 * sizeId)))
  else skipUes 1

/-- The matrices from `matrixId` on, at most `left`. -/
def skipMatrices (sizeId : ℕ) : ℕ → ℕ → Partial Bits Unit
  | 0, _ => pure ()
  | left + 1, matrixId =>
    if matrixId < 6 then do
      skipScalingList sizeId
      skipMatrices sizeId left (matrixId + if sizeId = 3 then 3 else 1)
    else pure ()

def skipScalingListData : Partial Bits Unit := (List.range 4).forM fun sizeId => skipMatrices sizeId 6 0

/-- The `left` sets that come after `sets`. -/
def readSets : ℕ → List Rps → Partial Bits (List Rps)
  | 0, sets => pure sets
  | left + 1, sets => do
    let set ← Rps.stRefPicSet sets sets.length false
    readSets left (sets ++ [set])

/-- Division rounded up. -/
def divCeil (a b : ℕ) : ℕ := (a + b - 1) / b

/-- Scaling lists, if there are any. -/
def skipScalingLists : Partial Bits Unit := do
  let enabled ← bit
  let given ← flagIf enabled
  onlyIf given skipScalingListData

/-- What describes coding without a transform, if it is used. -/
def skipPcm : Partial Bits Unit := do
  let enabled ← bit
  onlyIf enabled do
    skip 8
    skipUes 2
    skip 1

def spsRest (subLayers : ℕ) : Partial Bits Sps := do
  let chromaFormatIdc ← ue
  require (chromaFormatIdc ≤ 3)
  let separateColourPlane ← flagIf (chromaFormatIdc = 3)
  let width ← ue
  let height ← ue
  let window ← bit
  onlyIf window (skipUes 4)
  skipUes 2
  let lsb ← ue
  require (lsb + 4 ≤ 16)
  let ordered ← bit
  let first := if ordered then 0 else subLayers
  skipUes (3 * (subLayers + 1 - first))
  let minimum ← ue
  let difference ← ue
  let log2CtbSize := minimum + 3 + difference
  require (log2CtbSize ≤ 16)
  skipUes 4
  skipScalingLists
  skip 2
  skipPcm
  let count ← ue
  require (count ≤ 64)
  let sets ← readSets count []
  let longTermRefs ← bit
  let ctbs := divCeil width (2 ^ log2CtbSize) * divCeil height (2 ^ log2CtbSize)
  require (ctbs ≠ 0 ∧ ctbs < 2 ^ 64)
  pure ⟨lsb + 4, separateColourPlane, ceilLog2 ctbs, sets, longTermRefs⟩

/-- The id of a sequence parameter set, and how many sub-layers it is for. -/
def spsHeader : Partial Bits (ℕ × ℕ) := do
  skip 4
  let subLayers ← bits 3
  require (subLayers ≤ 6)
  skip 1
  skipProfileTierLevel subLayers
  let id ← ue
  require (id < 16)
  pure (id, subLayers)

/-- The id of a sequence parameter set, and what slices need of it (`none` when it cannot be read). -/
def parseSps (rbsp : Bytes) : Option (ℕ × Option Sps) :=
  (spsHeader (Bits.new rbsp)).map fun ((id, subLayers), r) => (id, (spsRest subLayers r).map Prod.fst)

/-- What slice headers need from a picture parameter set. -/
structure Pps where
  spsId : ℕ
  dependentSlices : Bool
  outputFlag : Bool
  extraBits : ℕ
deriving DecidableEq, Repr

def ppsReader : Partial Bits (ℕ × Pps) := do
  let id ← ue
  let spsId ← ue
  require (id < 64 ∧ spsId < 16)
  let dependentSlices ← bit
  let outputFlag ← bit
  let extraBits ← bits 3
  pure (id, ⟨spsId, dependentSlices, outputFlag, extraBits⟩)

def parsePps (rbsp : Bytes) : Option (ℕ × Pps) := (ppsReader (Bits.new rbsp)).map Prod.fst

end StreamDelay.Flv.Hevc
