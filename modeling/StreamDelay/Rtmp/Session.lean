import Mathlib.Tactic.Common
import StreamDelay.Rtmp.Amf0

/-! # What both ends of a session share

Message type ids, protocol control messages, and the link: chunk codec, acknowledgements and pings.
-/

namespace StreamDelay.Rtmp

def SET_CHUNK_SIZE : UInt8 := 1
def ABORT : UInt8 := 2
def ACKNOWLEDGEMENT : UInt8 := 3
def USER_CONTROL : UInt8 := 4
def WINDOW_ACK_SIZE : UInt8 := 5
def SET_PEER_BANDWIDTH : UInt8 := 6
def COMMAND_AMF3 : UInt8 := 17
def DATA_AMF0 : UInt8 := 18
def COMMAND_AMF0 : UInt8 := 20

def UC_STREAM_BEGIN : UInt16 := 0
def UC_PING_REQUEST : UInt16 := 6
def UC_PING_RESPONSE : UInt16 := 7

def CSID_CONTROL : ℕ := 2
def CSID_COMMAND : ℕ := 3
def CSID_AUDIO : ℕ := 4
def CSID_DATA : ℕ := 5
def CSID_VIDEO : ℕ := 6
def CSID_STREAM_COMMAND : ℕ := 8

/-- Largest message a publisher may send before its publish is accepted. -/
def MAX_PRE_PUBLISH_MESSAGE : ℕ := 64 * 1024

/-- Largest non-media message at any time. -/
def MAX_NON_MEDIA_MESSAGE : ℕ := 1024 * 1024

inductive MediaKind where
  | audio
  | video
deriving DecidableEq, Repr

inductive SessionError where
  | chunk (e : ChunkError)
  | amf0 (e : Amf0Error)
  | protocol (text : String)
  /-- The protocol error whose text shows the stream id, which is a 64-bit pattern here. -/
  | invalidStreamId (id : UInt64)
deriving DecidableEq, Repr

namespace Message

open Amf0

/-! ## Messages to write -/

/-- A protocol control message with a 4-byte value. -/
def u32Control (typeId : UInt8) (value : UInt32) : Message := ⟨CSID_CONTROL, 0, typeId, 0, putU32 value⟩

def peerBandwidth (size : UInt32) (limit : UInt8) : Message :=
  ⟨CSID_CONTROL, 0, SET_PEER_BANDWIDTH, 0, putU32 size ++ [limit]⟩

def userControl (event : UInt16) (data : UInt32) : Message :=
  ⟨CSID_CONTROL, 0, USER_CONTROL, 0, putU16 event ++ putU32 data⟩

def command (csid : ℕ) (streamId : UInt32) (values : List Amf0Value) : Message :=
  ⟨csid, 0, COMMAND_AMF0, streamId, encodeAll values⟩

end Message

/-! ## What is read of a payload -/

def readU32 (payload : Bytes) : Option UInt32 :=
  if 4 ≤ payload.length then some (be32 payload) else none

/-- Event type and first four data bytes of a user control message. -/
def readUserControl (payload : Bytes) : Option (UInt16 × UInt32) :=
  if 2 ≤ payload.length then some (Amf0.be16 payload, (readU32 (payload.drop 2)).getD 0) else none

/-- The info object of an `onStatus`. -/
def statusObject (level code description : String) : Amf0Value :=
  .object [("level", .string level), ("code", .string code), ("description", .string description)]

/-- A data message that starts with `@setDataFrame`, which is put before it where it is missing; `none`
if the payload is not valid. -/
def withSetDataFrame (payload : Bytes) : Option Bytes :=
  match Amf0.decodeOne payload with
  | .error _ => none
  | .ok (first, _) =>
    if first.asStr = some "@setDataFrame" then some payload
    else some (Amf0.encode (.string "@setDataFrame") ++ payload)

/-! ## The link -/

structure Link where
  decoder : ChunkDecoder
  encoder : ChunkEncoder
  out : Bytes
  bytesIn : UInt64
  lastAck : UInt64
  /-- Window after which received bytes are acknowledged. -/
  ackWindow : UInt32

namespace Link

def new (defaultAckWindow : UInt32) : Link := ⟨.new, .new, [], 0, 0, defaultAckWindow⟩

/-- Writes a message to what is sent next. -/
def write (m : Message) (l : Link) : Link := { l with out := l.out ++ l.encoder.write m }

/-- Accounts for received bytes, and acknowledges them when the window is crossed. -/
def received (n : ℕ) (l : Link) : Link :=
  let l := { l with bytesIn := l.bytesIn + .ofNat n }
  if 0 < l.ackWindow ∧ l.ackWindow.toUInt64 ≤ l.bytesIn - l.lastAck then
    { l with lastAck := l.bytesIn }.write (.u32Control ACKNOWLEDGEMENT l.bytesIn.toUInt32)
  else l

/-- Changes the size of outgoing chunks, announcing it first. -/
def setOutChunkSize (size : UInt32) (l : Link) : Link :=
  { l.write (.u32Control SET_CHUNK_SIZE size) with encoder := .setChunkSize size.toNat }

/-- Handles a protocol control message. With `true` the message was one. -/
def handleControl (m : Message) (l : Link) : Except SessionError (Bool × Link) :=
  if m.typeId = SET_CHUNK_SIZE then
    match readU32 m.payload with
    | none => .error (.protocol "short Set Chunk Size")
    | some v =>
      match l.decoder.setChunkSize (v &&& 0x7fffffff).toNat with
      | .error e => .error (.chunk e)
      | .ok decoder => .ok (true, { l with decoder := decoder })
  else if m.typeId = ABORT then
    match readU32 m.payload with
    | none => .ok (true, l)
    | some csid => .ok (true, { l with decoder := l.decoder.abort csid.toNat })
  else if m.typeId = ACKNOWLEDGEMENT then .ok (true, l)
  else if m.typeId = WINDOW_ACK_SIZE then
    match readU32 m.payload with
    | none => .ok (true, l)
    | some v => .ok (true, { l with ackWindow := v })
  else if m.typeId = SET_PEER_BANDWIDTH then
    match readU32 m.payload with
    | none => .ok (true, l)
    | some v => .ok (true, l.write (.u32Control WINDOW_ACK_SIZE v))
  else if m.typeId = USER_CONTROL then
    match readUserControl m.payload with
    | none => .ok (true, l)
    | some (event, ts) =>
      .ok (true, if event = UC_PING_REQUEST then l.write (.userControl UC_PING_RESPONSE ts) else l)
  else .ok (false, l)

def takeOutput (l : Link) : Bytes × Link := (l.out, { l with out := [] })

end Link

/-! ## Feeding a side of a session -/

/-- A side of a session: what it handles messages with. An error leaves it as it was. -/
structure Side (σ ev : Type) where
  link : σ → Link
  withLink : Link → σ → σ
  handle : Message → σ → Except SessionError (σ × List ev)

/-- What came of a piece of the byte stream. -/
structure Fed (σ ev : Type) where
  /-- The messages handled, each with the events it raised. -/
  handled : List (Message × List ev)
  /-- Why it went no further; `none` if more bytes are needed. -/
  outcome : Option SessionError
  session : σ

namespace Fed

variable {σ ev : Type}

/-- The events raised. -/
def raised (fed : Fed σ ev) : List ev := fed.handled.flatMap Prod.snd

/-- What the call returns: an error, and with it none of the events, or the events. -/
def result (fed : Fed σ ev) : Except SessionError (List ev) :=
  match fed.outcome with
  | some e => .error e
  | none => .ok fed.raised

end Fed

namespace Side

variable {σ ev : Type}

/-- A side that goes on with the decoder after a call of `next_message`. -/
def pulled (side : Side σ ev) (s : σ) : σ :=
  side.withLink { side.link s with decoder := (side.link s).decoder.nextMessage.2 } s

/-- Takes messages from the decoder until it needs more bytes; each takes a byte at least. -/
def feedLoop (side : Side σ ev) : ℕ → σ → Fed σ ev
  | 0, s => ⟨[], none, s⟩
  | fuel + 1, s =>
    match (side.link s).decoder.nextMessage.1 with
    | .error e => ⟨[], some (.chunk e), side.pulled s⟩
    | .ok none => ⟨[], none, side.pulled s⟩
    | .ok (some m) =>
      match side.handle m (side.pulled s) with
      | .error e => ⟨[(m, [])], some e, side.pulled s⟩
      | .ok (s, events) =>
        let fed := feedLoop side fuel s
        { fed with handled := (m, events) :: fed.handled }

/-- Takes in bytes received after the handshake. -/
def push (side : Side σ ev) (data : Bytes) (s : σ) : σ :=
  let link := (side.link s).received data.length
  side.withLink { link with decoder := link.decoder.push data } s

def feed (side : Side σ ev) (data : Bytes) (s : σ) : Fed σ ev :=
  let s := side.push data s
  side.feedLoop ((side.link s).decoder.buf.length + 1) s

end Side

end StreamDelay.Rtmp
