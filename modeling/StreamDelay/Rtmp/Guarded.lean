import Mathlib.Tactic.Common
import StreamDelay.Rtmp.Chunk
import StreamDelay.Foundations.Checked

/-! # The decoder with its panics

`next_chunk` with the positions the source counts in the buffer, and with every index, part of a buffer,
shift and difference checked: `none` where the source would panic. Its calls are what a connection, or a
test, does to a decoder.
-/

namespace StreamDelay.Rtmp

open Foundations.Checked

namespace Guarded

def u24 (b : Bytes) : Option ℕ := do
  let b0 ← index b 0
  let b1 ← index b 1
  let b2 ← index b 2
  return (← shl 32 b0.toNat 16) ||| (← shl 32 b1.toNat 8) ||| b2.toNat

/-- Four bytes of a buffer. -/
def word (b : Bytes) (i : ℕ) : Option Bytes := do
  return [← index b i, ← index b (i + 1), ← index b (i + 2), ← index b (i + 3)]

def be32 (b : Bytes) : Option UInt32 := (word b 0).map Rtmp.be32

/-- The format and the chunk stream of the next chunk, and where its message header starts. -/
def basicHeader (b : Bytes) : Option (Option (ℕ × ℕ × ℕ)) :=
  if b.isEmpty then return none
  else do
    let b0 ← index b 0
    let fmt := (b0 >>> 6).toNat
    match (b0 &&& 0x3f).toNat with
    | 0 =>
      if b.length < 2 then return none
      else
        let b1 ← index b 1
        return some (fmt, 64 + b1.toNat, 2)
    | 1 =>
      if b.length < 3 then return none
      else
        let b1 ← index b 1
        let b2 ← index b 2
        return some (fmt, 64 + b1.toNat + (← shl 32 b2.toNat 8), 3)
    | n => return some (fmt, n, 1)

def readHeader (fmt csid : ℕ) (h : Bytes) (d : ChunkDecoder) : Option (Except ChunkError Header) :=
  let st := d.stream csid
  if fmt ≠ 0 ∧ st.hasHeader = false then return .error (.missingHeader csid)
  else if csid ∉ d.streams ∧ MAX_CHUNK_STREAMS ≤ d.streams.keys.length then return .error .tooManyStreams
  else do
    let tsField ← (if fmt ≤ 2 then (slice h 0 3).bind u24 else some 0 : Option ℕ)
    let length ← (if fmt ≤ 1 then (slice h 3 6).bind u24 else some st.length : Option ℕ)
    let typeId ← (if fmt ≤ 1 then index h 6 else some st.typeId : Option UInt8)
    let streamId ← (if fmt = 0 then (word h 7).map le32 else some st.streamId : Option UInt32)
    let header : Header := ⟨fmt, csid, tsField, length, typeId, streamId, fmt = 3 && st.inProgress⟩
    let limit := d.maxLen typeId
    if header.continuation = false ∧ limit < length then
      return .error (.messageTooLarge typeId length limit)
    else return .ok header

/-- An extended timestamp, present or not, and where the chunk's data starts. -/
structure Placed where
  extended : Bool
  extValue : UInt32
  learned : Option Bool := none
  pos : ℕ

/-- What stands in the four bytes at `pos`; `none` inside if they have not all arrived. -/
def wordAt (b : Bytes) (pos : ℕ) : Option (Option UInt32) :=
  if b.length < pos + 4 then return none
  else do return some (← (slice b pos (pos + 4)).bind be32)

def readExtension (header : Header) (pos : ℕ) (d : ChunkDecoder) : Option (Option Placed) :=
  let st := d.stream header.csid
  if header.fmt ≤ 2 then
    if header.tsField = EXTENDED then do
      match ← wordAt d.buf pos with
      | none => return none
      | some value => return some { extended := true, extValue := value, pos := pos + 4 }
    else return some { extended := false, extValue := st.extValue, pos := pos }
  else if st.extended then
    if header.continuation then
      match d.repeatsExtended with
      | some true =>
        if d.buf.length < pos + 4 then return none
        else return some { extended := true, extValue := st.extValue, pos := pos + 4 }
      | some false => return some { extended := true, extValue := st.extValue, pos := pos }
      | none => do
        match ← wordAt d.buf pos with
        | none => return none
        | some value =>
          let repeated : Bool := value = st.extValue
          return some { extended := true, extValue := st.extValue, learned := some repeated,
                        pos := if repeated then pos + 4 else pos }
    else do
      match ← wordAt d.buf pos with
      | none => return none
      | some value => return some { extended := true, extValue := value, pos := pos + 4 }
  else return some { extended := false, extValue := st.extValue, pos := pos }

/-- The rest of `next_chunk`, once the header has been read and the data is known to start at `ext.pos`. -/
def takeChunk (header : Header) (ext : Placed) (d : ChunkDecoder) :
    Option (Except ChunkError ChunkResult × ChunkDecoder) :=
  let take := d.take header
  if d.buf.length < ext.pos + take then return (.ok .needMore, d)
  else do
    if MAX_PENDING_BYTES < (← sub d.pending (d.dropped header)) + take then
      return (.error .tooMuchPending, d)
    else
      let pending := (← sub d.pending (d.dropped header)) + take
      let data ← slice d.buf ext.pos (ext.pos + take)
      let rest ← advance d.buf (ext.pos + take)
      let c : Chunk := ⟨header, ext.extended, ext.extValue, ext.learned, data, rest⟩
      let st := d.received c
      let next := { d with repeatsExtended := ext.learned.or d.repeatsExtended, buf := rest }
      if st.length ≤ st.partialData.length then
        let left ← sub pending st.partialData.length
        return (.ok (.complete ⟨header.csid, st.timestamp, st.typeId, st.streamId, st.partialData⟩),
          { next with
              pending := left
              streams := d.streams.insert header.csid { st with inProgress := false, partialData := [] } })
      else
        return (.ok .partialMessage, { next with pending := pending, streams := d.streams.insert header.csid st })

def nextChunk (d : ChunkDecoder) : Option (Except ChunkError ChunkResult × ChunkDecoder) := do
  match ← basicHeader d.buf with
  | none => return (.ok .needMore, d)
  | some (fmt, csid, pos) =>
    if d.buf.length < pos + headerLen fmt then return (.ok .needMore, d)
    else
      let h ← slice d.buf pos (pos + headerLen fmt)
      match ← readHeader fmt csid h d with
      | .error e => return (.error e, d)
      | .ok header =>
        match ← readExtension header (pos + headerLen fmt) d with
        | none => return (.ok .needMore, d)
        | some ext => takeChunk header ext d

def nextMessageLoop : ℕ → ChunkDecoder → Option (Except ChunkError (Option Message) × ChunkDecoder)
  | 0, d => return (.ok none, d)
  | fuel + 1, d => do
    match ← nextChunk d with
    | (.error e, d) => return (.error e, d)
    | (.ok .needMore, d) => return (.ok none, d)
    | (.ok .partialMessage, d) => nextMessageLoop fuel d
    | (.ok (.complete m), d) => return (.ok (some m), d)

def nextMessage (d : ChunkDecoder) : Option (Except ChunkError (Option Message) × ChunkDecoder) :=
  nextMessageLoop (d.buf.length + 1) d

def abort (csid : ℕ) (d : ChunkDecoder) : Option ChunkDecoder :=
  match d.streams.lookup csid with
  | none => return d
  | some st => do
    let left ← sub d.pending st.partialData.length
    return { d with
      pending := left
      streams := d.streams.insert csid { st with partialData := [], inProgress := false } }

end Guarded

/-! ## Calls -/

/-- A call of a decoder. -/
inductive Call where
  | push (data : Bytes)
  | nextMessage
  | abort (csid : ℕ)
  | setChunkSize (size : ℕ)
  | setMaxMessageLen (media other : ℕ)
deriving DecidableEq, Repr

/-- What a call returns, where that is more than nothing. -/
inductive Answer where
  | message (m : Message)
  | needMore
  | done
  | error (e : ChunkError)
deriving DecidableEq, Repr

def ChunkDecoder.setMaxMessageLen (media other : ℕ) (d : ChunkDecoder) : ChunkDecoder :=
  { d with maxMediaLen := media, maxOtherLen := other }

def Answer.ofMessage : Except ChunkError (Option Message) → Answer
  | .error e => .error e
  | .ok none => .needMore
  | .ok (some m) => .message m

def Call.run (d : ChunkDecoder) : Call → ChunkDecoder × Answer
  | .push data => (d.push data, .done)
  | .nextMessage => (d.nextMessage.2, .ofMessage d.nextMessage.1)
  | .abort csid => (d.abort csid, .done)
  | .setChunkSize size =>
    match d.setChunkSize size with
    | .error e => (d, .error e)
    | .ok d => (d, .done)
  | .setMaxMessageLen media other => (d.setMaxMessageLen media other, .done)

/-- The call with its panics. -/
def Call.guarded (d : ChunkDecoder) : Call → Option (ChunkDecoder × Answer)
  | .nextMessage => (Guarded.nextMessage d).map fun (answer, d) => (d, .ofMessage answer)
  | .abort csid => (Guarded.abort csid d).map fun d => (d, .done)
  | call => call.run d

end StreamDelay.Rtmp
