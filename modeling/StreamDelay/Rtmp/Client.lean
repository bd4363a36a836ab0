import Mathlib.Tactic.Common
import StreamDelay.Rtmp.Session

/-! # The client side of a publish session

What talks to the ingest server: it connects, asks for a stream and publishes on it, and sends media once
the server has accepted.
-/

namespace StreamDelay.Rtmp

/-- What to publish, and where. -/
structure ClientConfig where
  app : String
  tcUrl : String
  streamKey : String
  /-- Extra `connect` properties, which do not override ours. -/
  extraConnectProps : List (String × Amf0Value) := []
  chunkSize : UInt32 := 4096
  flashVer : String := "FMLE/3.0 (compatible; FMSc/1.0)"

inductive ClientEvent where
  /-- The server accepted the stream; media can be sent now. -/
  | publishing
  /-- The server refused or closed the stream. -/
  | error (code description : String)
deriving DecidableEq, Repr

inductive ClientState where
  | connecting
  | creatingStream
  | publishPending
  | publishing
  | failed
  | closed
deriving DecidableEq, Repr

/-- Largest message accepted from the ingest server. -/
def MAX_SERVER_MESSAGE : ℕ := 128 * 1024

/-! ## Numbers, which are 64-bit patterns -/

def TX_CONNECT : UInt64 := 0x3FF0000000000000
def TX_RELEASE : UInt64 := 0x4000000000000000
def TX_FCPUBLISH : UInt64 := 0x4008000000000000
def TX_CREATE : UInt64 := 0x4010000000000000
def TX_PUBLISH : UInt64 := 0x4014000000000000
def TX_UNPUBLISH : UInt64 := 0x4018000000000000
def TX_DELETE : UInt64 := 0x401C000000000000

/-- The pattern of a 32-bit integer. -/
def numberOf (v : UInt32) : UInt64 :=
  if v = 0 then 0
  else
    let e := Nat.log2 v.toNat
    .ofNat ((1023 + e) * 2 ^ 52 + (v.toNat - 2 ^ e) * 2 ^ (52 - e))

/-- The integer from 1 to 2^32 - 1 of a pattern, if it is of one. -/
def streamIdOf (bits : UInt64) : Option UInt32 :=
  let exponent := bits.toNat / 2 ^ 52
  let significand := 2 ^ 52 + bits.toNat % 2 ^ 52
  if 1023 ≤ exponent ∧ exponent ≤ 1054 ∧ significand % 2 ^ (1075 - exponent) = 0 then
    some (.ofNat (significand / 2 ^ (1075 - exponent)))
  else none

structure ClientSession where
  link : Link
  config : ClientConfig
  state : ClientState
  streamId : UInt32

namespace ClientSession

/-- The properties of `connect`: ours, and the extra ones that none before them is named as. -/
def connectProps (config : ClientConfig) : List (String × Amf0Value) :=
  config.extraConnectProps.foldl
    (fun props p => if props.any (fun q => q.1 = p.1) then props else props ++ [p])
    [("app", .string config.app), ("type", .string "nonprivate"), ("flashVer", .string config.flashVer),
      ("swfUrl", .string config.tcUrl), ("tcUrl", .string config.tcUrl)]

/-! ## Commands -/

def connectCommand (config : ClientConfig) : Message :=
  .command CSID_COMMAND 0 [.string "connect", .number TX_CONNECT, .object (connectProps config)]

/-- A command about the stream key. -/
def keyCommand (name : String) (tx : UInt64) (config : ClientConfig) : Message :=
  .command CSID_COMMAND 0 [.string name, .number tx, .null, .string config.streamKey]

def createStreamCommand : Message :=
  .command CSID_COMMAND 0 [.string "createStream", .number TX_CREATE, .null]

def publishCommand (streamId : UInt32) (config : ClientConfig) : Message :=
  .command CSID_STREAM_COMMAND streamId
    [.string "publish", .number TX_PUBLISH, .null, .string config.streamKey, .string "live"]

def deleteStreamCommand (streamId : UInt32) : Message :=
  .command CSID_COMMAND 0 [.string "deleteStream", .number TX_DELETE, .null, .number (numberOf streamId)]

/-- A session that has queued its `connect`. -/
def new (config : ClientConfig) : ClientSession :=
  let link := Link.new 2500000
  let decoder := { link.decoder with maxMediaLen := MAX_SERVER_MESSAGE, maxOtherLen := MAX_SERVER_MESSAGE }
  { link := ({ link with decoder := decoder }.setOutChunkSize config.chunkSize).write (connectCommand config)
    config := config
    state := .connecting
    streamId := 0 }

/-- The message of an audio or video payload. -/
def mediaMessage (streamId : UInt32) (kind : MediaKind) (timestamp : UInt32) (payload : Bytes) : Message :=
  match kind with
  | .audio => ⟨ CSID_AUDIO, timestamp, AUDIO, streamId, payload⟩
  | .video => ⟨CSID_VIDEO, timestamp, VIDEO, streamId, payload⟩

/-- Queues an audio or video message. Ignored unless publishing. -/
def sendMedia (kind : MediaKind) (timestamp : UInt32) (payload : Bytes) (s : ClientSession) : ClientSession :=
  if s.state ≠ .publishing then s
  else { s with link := s.link.write (mediaMessage s.streamId kind timestamp payload) }

/-- Queues a data message. Ignored unless publishing. -/
def sendData (timestamp : UInt32) (payload : Bytes) (s : ClientSession) : ClientSession :=
  if s.state ≠ .publishing then s
  else { s with link := s.link.write ⟨CSID_DATA, timestamp, DATA_AMF0, s.streamId, payload⟩ }

/-- Queues a clean shutdown. -/
def close (s : ClientSession) : ClientSession :=
  if s.state = .closed ∨ s.state = .failed then s
  else
    { s with
        state := .closed
        link :=
          if s.streamId = 0 then s.link
          else s.link.write (keyCommand "FCUnpublish" TX_UNPUBLISH s.config)
            |>.write (deleteStreamCommand s.streamId) }

/-! ## Messages from the server -/

def fail (code description : String) (s : ClientSession) : ClientSession × List ClientEvent :=
  ({ s with state := .failed }, [.error code description])

/-- A string of the info object of a command, "" if there is none. -/
def infoText (values : List Amf0Value) (key : String) : String :=
  ((values[3]?.bind fun info => info.get key).bind Amf0Value.asStr).getD ""

def handleConnectResult (values : List Amf0Value) (s : ClientSession) : ClientSession × List ClientEvent :=
  let code := infoText values "code"
  if code ≠ "" ∧ code ≠ "NetConnection.Connect.Success" then s.fail code (infoText values "description")
  else
    ({ s with
        state := .creatingStream
        link := s.link.write (keyCommand "releaseStream" TX_RELEASE s.config)
          |>.write (keyCommand "FCPublish" TX_FCPUBLISH s.config)
          |>.write createStreamCommand }, [])

def handleCreateResult (values : List Amf0Value) (s : ClientSession) :
    Except SessionError (ClientSession × List ClientEvent) :=
  let id := (values[3]?.bind Amf0Value.asNumber).getD 0x3FF0000000000000
  -- 0 is the connection itself.
  match streamIdOf id with
  | none => .error (.invalidStreamId id)
  | some streamId =>
    .ok ({ s with
        streamId := streamId
        state := .publishPending
        link := s.link.write (publishCommand streamId s.config) }, [])

def handleStatus (values : List Amf0Value) (s : ClientSession) : ClientSession × List ClientEvent :=
  if infoText values "code" = "NetStream.Publish.Start" ∧ s.state = .publishPending then
    ({ s with state := .publishing }, [.publishing])
  else if ((values[3]?.bind fun info => info.get "level").bind Amf0Value.asStr) = some "error" then
    s.fail (infoText values "code") (infoText values "description")
  else (s, [])

def handleCommand (values : List Amf0Value) (s : ClientSession) :
    Except SessionError (ClientSession × List ClientEvent) :=
  let name := (values[0]?.bind Amf0Value.asStr).getD ""
  let txid := (values[1]?.bind Amf0Value.asNumber).getD 0
  let code := infoText values "code"
  if name = "_result" ∧ txid = TX_CONNECT ∧ s.state = .connecting then .ok (s.handleConnectResult values)
  else if name = "_result" ∧ txid = TX_CREATE ∧ s.state = .creatingStream then s.handleCreateResult values
  else if name = "_error" ∧ (txid = TX_CONNECT ∨ txid = TX_CREATE ∨ txid = TX_PUBLISH) then
    .ok (s.fail (if code = "" then "NetConnection.Error" else code) (infoText values "description"))
  else if name = "onStatus" then .ok (s.handleStatus values)
  else if name = "close" then .ok (s.fail "NetConnection.Close" "server closed the connection")
  else .ok (s, [])

/-- Handles a message: the session then, and the events. An error leaves the session as it was. -/
def handle (m : Message) (s : ClientSession) : Except SessionError (ClientSession × List ClientEvent) :=
  match s.link.handleControl m with
  | .error e => .error e
  | .ok (true, link) => .ok ({ s with link := link }, [])
  | .ok (false, _) =>
    if m.typeId = COMMAND_AMF0 ∨ m.typeId = COMMAND_AMF3 then
      match Amf0.decodeAll (if m.typeId = COMMAND_AMF0 then m.payload else m.payload.drop 1) with
      | .error e => .error (.amf0 e)
      | .ok values => s.handleCommand values
    else .ok (s, [])

def side : Side ClientSession ClientEvent := ⟨link, fun link s => { s with link := link }, handle⟩

/-- Feeds bytes received after the handshake. -/
def feed (data : Bytes) (s : ClientSession) : Fed ClientSession ClientEvent := side.feed data s

def takeOutput (s : ClientSession) : Bytes × ClientSession :=
  (s.link.takeOutput.1, { s with link := s.link.takeOutput.2 })

end ClientSession

end StreamDelay.Rtmp
