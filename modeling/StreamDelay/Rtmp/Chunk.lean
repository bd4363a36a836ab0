import Mathlib.Tactic.Common
import Mathlib.Algebra.GroupWithZero.Nat
import Mathlib.Data.List.AList

/-! # RTMP chunk streams

The incremental decoder: push received bytes, then pull complete messages. The encoder writes a full
header for the first chunk of a message and an empty one for the others. Where complete messages are
copied to is not modelled: only their bytes are.
-/

namespace StreamDelay.Rtmp

abbrev Bytes := List UInt8

def DEFAULT_CHUNK_SIZE : ℕ := 128

/-- Largest chunk size accepted from a peer. -/
def MAX_CHUNK_SIZE : ℕ := 2 ^ 24

/-- Chunk streams a peer may use at once. -/
def MAX_CHUNK_STREAMS : ℕ := 64

/-- Bytes held in unfinished messages across all chunk streams. -/
def MAX_PENDING_BYTES : ℕ := 64 * 1024 * 1024

def EXTENDED : ℕ := 0xFFFFFF

/-- The largest value of a 64-bit `usize`. -/
def USIZE_MAX : ℕ := 2 ^ 64 - 1

def AUDIO : UInt8 := 8
def VIDEO : UInt8 := 9

/-- A complete RTMP message. -/
structure Message where
  csid : ℕ
  /-- Absolute timestamp in milliseconds. -/
  timestamp : UInt32
  typeId : UInt8
  streamId : UInt32
  payload : Bytes
deriving DecidableEq, Repr

inductive ChunkError where
  | missingHeader (csid : ℕ)
  | invalidChunkSize (size : ℕ)
  | tooManyStreams
  | tooMuchPending
  | messageTooLarge (typeId : UInt8) (length limit : ℕ)
deriving DecidableEq, Repr

structure StreamState where
  timestamp : UInt32 := 0
  delta : UInt32 := 0
  length : ℕ := 0
  typeId : UInt8 := 0
  streamId : UInt32 := 0
  extended : Bool := false
  extValue : UInt32 := 0
  /-- The message being received. -/
  partialData : Bytes := []
  inProgress : Bool := false
  hasHeader : Bool := false
deriving DecidableEq, Repr

structure ChunkDecoder where
  chunkSize : ℕ
  streams : AList fun _ : ℕ => StreamState
  buf : Bytes
  /-- Bytes of unfinished messages, over all streams. -/
  pending : ℕ
  /-- Largest audio or video message accepted. -/
  maxMediaLen : ℕ
  /-- Largest message of any other type. -/
  maxOtherLen : ℕ
  /-- Whether the peer repeats the extended timestamp on continuation chunks, once it is known. -/
  repeatsExtended : Option Bool

inductive ChunkResult where
  | needMore
  | partialMessage
  | complete (m : Message)
deriving DecidableEq, Repr

def u24 (b : Bytes) : ℕ :=
  (b.getD 0 0).toNat * 2 ^ 16 + (b.getD 1 0).toNat * 2 ^ 8 + (b.getD 2 0).toNat

def be32 (b : Bytes) : UInt32 :=
  .ofNat ((b.getD 0 0).toNat * 2 ^ 24 + (b.getD 1 0).toNat * 2 ^ 16 + (b.getD 2 0).toNat * 2 ^ 8 +
    (b.getD 3 0).toNat)

def le32 (b : Bytes) : UInt32 :=
  .ofNat ((b.getD 0 0).toNat + (b.getD 1 0).toNat * 2 ^ 8 + (b.getD 2 0).toNat * 2 ^ 16 +
    (b.getD 3 0).toNat * 2 ^ 24)

/-! ## Decoding -/

/-- The header format and chunk stream of the next chunk, and what follows its basic header; `none`
if more bytes are needed. -/
def basicHeader : Bytes → Option (ℕ × ℕ × Bytes)
  | [] => none
  | b0 :: b =>
    match (b0 &&& 0x3f).toNat with
    | 0 =>
      match b with
      | b1 :: b => some ((b0 >>> 6).toNat, 64 + b1.toNat, b)
      | _ => none
    | 1 =>
      match b with
      | b1 :: b2 :: b => some ((b0 >>> 6).toNat, 64 + b1.toNat + b2.toNat * 2 ^ 8, b)
      | _ => none
    | n => some ((b0 >>> 6).toNat, n, b)

def headerLen : ℕ → ℕ
  | 0 => 11
  | 1 => 7
  | 2 => 3
  | _ => 0

/-- What an extended timestamp, present or not, amounts to. -/
structure Extension where
  extended : Bool
  extValue : UInt32
  learned : Option Bool := none
  /-- The bytes that follow it. -/
  rest : Bytes

/-- A chunk's header, with what it leaves out filled in from its stream. -/
structure Header where
  fmt : ℕ
  csid : ℕ
  tsField : ℕ
  length : ℕ
  typeId : UInt8
  streamId : UInt32
  /-- The chunk continues the message being received; any other starts a new one. -/
  continuation : Bool

/-- A whole chunk at the front of the buffer. -/
structure Chunk where
  header : Header
  extended : Bool
  extValue : UInt32
  learned : Option Bool
  data : Bytes
  /-- The bytes that follow it. -/
  rest : Bytes

namespace ChunkDecoder

def new : ChunkDecoder :=
  ⟨DEFAULT_CHUNK_SIZE, ∅, [], 0, USIZE_MAX, USIZE_MAX, none⟩

def push (data : Bytes) (d : ChunkDecoder) : ChunkDecoder := { d with buf := d.buf ++ data }

def setChunkSize (size : ℕ) (d : ChunkDecoder) : Except ChunkError ChunkDecoder :=
  if size = 0 ∨ MAX_CHUNK_SIZE < size then .error (.invalidChunkSize size)
  else .ok { d with chunkSize := size }

/-- What the decoder knows about a chunk stream. -/
def stream (csid : ℕ) (d : ChunkDecoder) : StreamState := (d.streams.lookup csid).getD {}

/-- The limit on the length of a message of a type. -/
def maxLen (typeId : UInt8) (d : ChunkDecoder) : ℕ :=
  if typeId = AUDIO ∨ typeId = VIDEO then d.maxMediaLen else d.maxOtherLen

/-- The header of a chunk, from the bytes `h` of its message header and what its stream's last one
said. -/
def fillHeader (fmt csid : ℕ) (h : Bytes) (d : ChunkDecoder) : Header :=
  let st := d.stream csid
  { fmt := fmt
    csid := csid
    tsField := if fmt ≤ 2 then u24 h else 0
    length := if fmt ≤ 1 then u24 (h.drop 3) else st.length
    typeId := if fmt ≤ 1 then h.getD 6 0 else st.typeId
    streamId := if fmt = 0 then le32 (h.drop 7) else st.streamId
    continuation := fmt = 3 && st.inProgress }

def readHeader (fmt csid : ℕ) (h : Bytes) (d : ChunkDecoder) : Except ChunkError Header :=
  if fmt ≠ 0 ∧ (d.stream csid).hasHeader = false then .error (.missingHeader csid)
  else if csid ∉ d.streams ∧ MAX_CHUNK_STREAMS ≤ d.streams.keys.length then .error .tooManyStreams
  else
    let header := d.fillHeader fmt csid h
    let limit := d.maxLen header.typeId
    if header.continuation = false ∧ limit < header.length then
      .error (.messageTooLarge header.typeId header.length limit)
    else .ok header

/-- Reads the extended timestamp of a chunk, if it has one; `none` if more bytes are needed. -/
def readExtension (header : Header) (b : Bytes) (d : ChunkDecoder) : Option Extension :=
  let st := d.stream header.csid
  if header.fmt ≤ 2 then
    if header.tsField = EXTENDED then
      if b.length < 4 then none else some { extended := true, extValue := be32 b, rest := b.drop 4 }
    else some { extended := false, extValue := st.extValue, rest := b }
  else if st.extended then
    if header.continuation then
      -- Until the peer has shown whether it repeats the field, it is taken to be there if it matches.
      match d.repeatsExtended with
      | some true =>
        if b.length < 4 then none
        else some { extended := true, extValue := st.extValue, rest := b.drop 4 }
      | some false => some { extended := true, extValue := st.extValue, rest := b }
      | none =>
        if b.length < 4 then none
        else
          let repeated := be32 b = st.extValue
          some { extended := true, extValue := st.extValue, learned := some repeated,
                 rest := if repeated then b.drop 4 else b }
    else if b.length < 4 then none
    else some { extended := true, extValue := be32 b, rest := b.drop 4 }
  else some { extended := false, extValue := st.extValue, rest := b }

/-- How much of its message has been received before a chunk. -/
def already (header : Header) (d : ChunkDecoder) : ℕ :=
  if header.continuation then (d.stream header.csid).partialData.length else 0

/-- How many bytes of its message a chunk has. -/
def take (header : Header) (d : ChunkDecoder) : ℕ :=
  min (header.length - d.already header) d.chunkSize

/-- What a new header discards of the stream's unfinished message, if any. -/
def dropped (header : Header) (d : ChunkDecoder) : ℕ :=
  if header.continuation then 0 else (d.stream header.csid).partialData.length

/-- The rest of a chunk after its message header; `none` if it has not all arrived. -/
def readBody (header : Header) (b : Bytes) (d : ChunkDecoder) : Except ChunkError (Option Chunk) :=
  match d.readExtension header b with
  | none => .ok none
  | some ext =>
    if ext.rest.length < d.take header then .ok none
    else if MAX_PENDING_BYTES < d.pending - d.dropped header + d.take header then
      .error .tooMuchPending
    else
      .ok (some ⟨header, ext.extended, ext.extValue, ext.learned, ext.rest.take (d.take header),
        ext.rest.drop (d.take header)⟩)

/-- The first half of `next_chunk`, which only reads: the chunk at the front of the buffer, `none` if
it has not all arrived. -/
def parse (d : ChunkDecoder) : Except ChunkError (Option Chunk) :=
  match basicHeader d.buf with
  | none => .ok none
  | some (fmt, csid, b) =>
    if b.length < headerLen fmt then .ok none
    else
      match d.readHeader fmt csid (b.take (headerLen fmt)) with
      | .error e => .error e
      | .ok header => d.readBody header (b.drop (headerLen fmt))

/-- The stream's state once a chunk has started a new message on it. -/
def newMessage (c : Chunk) (st : StreamState) : StreamState :=
  let rawTs := if c.extended then c.extValue else .ofNat c.header.tsField
  let delta := if c.header.fmt ≤ 2 ∨ c.extended then rawTs else st.delta
  { timestamp := if c.header.fmt = 0 then rawTs else st.timestamp + delta
    delta := delta
    length := c.header.length
    typeId := c.header.typeId
    streamId := c.header.streamId
    extended := c.extended
    extValue := c.extValue
    partialData := []
    inProgress := true
    hasHeader := true }

/-- The stream of a chunk, with the chunk's bytes. -/
def received (c : Chunk) (d : ChunkDecoder) : StreamState :=
  let st := d.stream c.header.csid
  let st := if c.header.continuation then st else newMessage c st
  { st with partialData := st.partialData ++ c.data }

/-- The second half of `next_chunk`: the whole chunk is there, and is taken. -/
def commit (c : Chunk) (d : ChunkDecoder) : ChunkResult × ChunkDecoder :=
  let csid := c.header.csid
  let st := d.received c
  let pending := d.pending - d.dropped c.header + c.data.length
  let d := { d with repeatsExtended := c.learned.or d.repeatsExtended, buf := c.rest }
  if st.length ≤ st.partialData.length then
    (.complete ⟨csid, st.timestamp, st.typeId, st.streamId, st.partialData⟩,
      { d with
          pending := pending - st.partialData.length
          streams := d.streams.insert csid { st with inProgress := false, partialData := [] } })
  else (.partialMessage, { d with pending := pending, streams := d.streams.insert csid st })

def nextChunk (d : ChunkDecoder) : Except ChunkError ChunkResult × ChunkDecoder :=
  match d.parse with
  | .error e => (.error e, d)
  | .ok none => (.ok .needMore, d)
  | .ok (some c) =>
    let (result, d) := d.commit c
    (.ok result, d)

def nextMessageLoop : ℕ → ChunkDecoder → Except ChunkError (Option Message) × ChunkDecoder
  | 0, d => (.ok none, d)
  | fuel + 1, d =>
    match d.nextChunk with
    | (.error e, d) => (.error e, d)
    | (.ok .needMore, d) => (.ok none, d)
    | (.ok .partialMessage, d) => nextMessageLoop fuel d
    | (.ok (.complete m), d) => (.ok (some m), d)

/-- The next complete message, or `none` if more bytes are needed. Every chunk takes a byte at least,
so the loop ends by itself. -/
def nextMessage (d : ChunkDecoder) : Except ChunkError (Option Message) × ChunkDecoder :=
  nextMessageLoop (d.buf.length + 1) d

/-- Drops a partially received message. -/
def abort (csid : ℕ) (d : ChunkDecoder) : ChunkDecoder :=
  match d.streams.lookup csid with
  | none => d
  | some st =>
    { d with
        pending := d.pending - st.partialData.length
        streams := d.streams.insert csid { st with partialData := [], inProgress := false } }

/-! ## How a connection uses the decoder -/

/-- The messages pulled from a decoder, why it gave no more, and the decoder then. -/
structure Pulled where
  messages : List Message
  /-- The error, or `none` for more bytes needed. -/
  outcome : Option ChunkError
  decoder : ChunkDecoder

def pullLoop : ℕ → ChunkDecoder → Pulled
  | 0, d => ⟨[], none, d⟩
  | fuel + 1, d =>
    match d.nextMessage with
    | (.ok (some m), d) =>
      let pulled := pullLoop fuel d
      { pulled with messages := m :: pulled.messages }
    | (.ok none, d) => ⟨[], none, d⟩
    | (.error e, d) => ⟨[], some e, d⟩

/-- Calls `next_message` until it needs more, or fails. -/
def pull (d : ChunkDecoder) : Pulled := pullLoop (d.buf.length + 1) d

/-- Pushes pieces of what is received one by one, and pulls what there is after each. -/
def feed : List Bytes → ChunkDecoder → Pulled
  | [], d => d.pull
  | piece :: pieces, d =>
    let first := (d.push piece).pull
    let later := feed pieces first.decoder
    { later with messages := first.messages ++ later.messages }

end ChunkDecoder

/-! ## Encoding -/

def putU24 (v : ℕ) : Bytes := [.ofNat (v >>> 16), .ofNat (v >>> 8), .ofNat v]

def putU32 (v : UInt32) : Bytes :=
  [(v >>> 24).toUInt8, (v >>> 16).toUInt8, (v >>> 8).toUInt8, v.toUInt8]

def putU32Le (v : UInt32) : Bytes :=
  [v.toUInt8, (v >>> 8).toUInt8, (v >>> 16).toUInt8, (v >>> 24).toUInt8]

def putBasicHeader (fmt : UInt8) (csid : ℕ) : Bytes :=
  if 2 ≤ csid ∧ csid < 64 then [(fmt <<< 6) ||| .ofNat csid]
  else if 64 ≤ csid ∧ csid < 320 then [fmt <<< 6, .ofNat (csid - 64)]
  else
    let v := max 64 (min csid 65599) - 64
    [(fmt <<< 6) ||| 1, .ofNat v, .ofNat (v >>> 8)]

/-- The slices of a payload, `size` bytes each but the last. -/
def slices (size : ℕ) : ℕ → Bytes → List Bytes
  | 0, _ => []
  | _ + 1, [] => []
  | fuel + 1, b :: rest => (b :: rest).take size :: slices size fuel ((b :: rest).drop size)

def chunks (size : ℕ) (payload : Bytes) : List Bytes := slices size payload.length payload

structure ChunkEncoder where
  chunkSize : ℕ
  positive : 0 < chunkSize

namespace ChunkEncoder

def new : ChunkEncoder := ⟨DEFAULT_CHUNK_SIZE, by decide⟩

def setChunkSize (size : ℕ) : ChunkEncoder :=
  ⟨max 1 (min size MAX_CHUNK_SIZE), by omega⟩

/-- The bytes of one message. -/
def write (e : ChunkEncoder) (m : Message) : Bytes :=
  let extended := EXTENDED ≤ m.timestamp.toNat
  let tsField := if extended then EXTENDED else m.timestamp.toNat
  let extension := if extended then putU32 m.timestamp else []
  let header := putBasicHeader 0 m.csid ++ putU24 tsField ++ putU24 m.payload.length ++ [m.typeId] ++
    putU32Le m.streamId ++ extension
  match chunks e.chunkSize m.payload with
  | [] => header
  | first :: more =>
    header ++ first ++ more.flatMap fun c => putBasicHeader 3 m.csid ++ extension ++ c

end ChunkEncoder

end StreamDelay.Rtmp
