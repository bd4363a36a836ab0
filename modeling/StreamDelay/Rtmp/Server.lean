import Mathlib.Tactic.Common
import StreamDelay.Rtmp.Session

/-! # The server side of a publish session

What the publisher talks to. Bytes are fed to it in pieces; what it finds in them is reported as
events, unless the piece ends in an error.
-/

namespace StreamDelay.Rtmp

structure ServerConfig where
  chunkSize : UInt32 := 4096
  windowAckSize : UInt32 := 2500000
  peerBandwidth : UInt32 := 2500000
deriving DecidableEq, Repr

/-- Something the application needs to know about. -/
inductive ServerEvent where
  | connect (app : String) (tcUrl : Option String) (props : List (String × Amf0Value))
  /-- The client wants to publish. -/
  | publishRequest (app streamKey : String)
  | media (kind : MediaKind) (timestamp : UInt32) (payload : Bytes)
  /-- Stream metadata; the payload always starts with `@setDataFrame`. -/
  | metadata (timestamp : UInt32) (payload : Bytes)
  /-- Any other data message. -/
  | data (timestamp : UInt32) (payload : Bytes)
  /-- The client stopped publishing. -/
  | unpublish
deriving Repr

inductive ServerState where
  | awaitConnect
  | connected
  | publishPending
  | publishing
  | closed
deriving DecidableEq, Repr

def STREAM_ID : UInt32 := 1

/-- The 64-bit pattern of a small number. -/
def zero : Amf0Value := .number 0
def one : Amf0Value := .number 0x3FF0000000000000
def thirtyOne : Amf0Value := .number 0x403F000000000000

structure ServerSession where
  link : Link
  config : ServerConfig
  state : ServerState
  app : String
  streamKey : String

namespace ServerSession

/-- A session that limits what its decoder accepts. -/
def limit (media other : ℕ) (l : Link) : Link :=
  { l with decoder := { l.decoder with maxMediaLen := media, maxOtherLen := other } }

def new (config : ServerConfig) : ServerSession :=
  { link := limit MAX_PRE_PUBLISH_MESSAGE MAX_PRE_PUBLISH_MESSAGE (.new config.windowAckSize)
    config := config
    state := .awaitConnect
    app := ""
    streamKey := "" }

def acceptPublish (s : ServerSession) : ServerSession :=
  if s.state ≠ .publishPending then s
  else
    { s with
        state := .publishing
        link := (limit USIZE_MAX MAX_NON_MEDIA_MESSAGE s.link)
          |>.write (.userControl UC_STREAM_BEGIN STREAM_ID)
          |>.write (.command CSID_STREAM_COMMAND STREAM_ID
            [.string "onStatus", zero, .null,
              statusObject "status" "NetStream.Publish.Start" (s.app ++ " is now published.")]) }

def rejectPublish (code description : String) (s : ServerSession) : ServerSession :=
  { s with
      state := .closed
      link := s.link.write (.command CSID_STREAM_COMMAND STREAM_ID
        [.string "onStatus", zero, .null, statusObject "error" code description]) }

def replyResult (txid : UInt64) (values : List Amf0Value) (l : Link) : Link :=
  l.write (.command CSID_COMMAND 0 (.string "_result" :: .number txid :: values))

/-! ## Commands -/

/-- A string among the values of a command, "" if there is none. -/
def text (v : Option Amf0Value) : String := (v.bind Amf0Value.asStr).getD ""

def handleConnect (txid : UInt64) (values : List Amf0Value) (s : ServerSession) :
    Except SessionError (ServerSession × List ServerEvent) :=
  -- Once per connection: each is answered and reported.
  if s.state ≠ .awaitConnect then .error (.protocol "connect sent twice")
  else
    let obj := values[2]?.getD .null
    let app := text (obj.get "app")
    let encoding := ((obj.get "objectEncoding").bind Amf0Value.asNumber).getD 0
    let link := s.link.write (.u32Control WINDOW_ACK_SIZE s.config.windowAckSize)
      |>.write (.peerBandwidth s.config.peerBandwidth 2)
      |>.setOutChunkSize s.config.chunkSize
    let link := replyResult txid
      [.object [("fmsVer", .string "FMS/3,0,1,123"), ("capabilities", thirtyOne)],
        .object [("level", .string "status"), ("code", .string "NetConnection.Connect.Success"),
          ("description", .string "Connection succeeded."), ("objectEncoding", .number encoding)]] link
    .ok ({ s with app := app, link := link, state := .connected },
      [.connect app ((obj.get "tcUrl").bind Amf0Value.asStr) (obj.props.getD [])])

def handlePublish (values : List Amf0Value) (s : ServerSession) :
    Except SessionError (ServerSession × List ServerEvent) :=
  match s.state with
  | .connected =>
    let streamKey := text values[3]?
    .ok ({ s with streamKey := streamKey, state := .publishPending }, [.publishRequest s.app streamKey])
  | .publishPending | .publishing => .error (.protocol "publish sent twice")
  | .awaitConnect => .error (.protocol "publish before connect")
  | .closed => .error (.protocol "publish after the stream ended")

def handleFCPublish (txid : UInt64) (values : List Amf0Value) (s : ServerSession) : ServerSession :=
  { s with
      link := s.link.write (.command CSID_COMMAND 0
          [.string "onFCPublish", zero, .null,
            .object [("code", .string "NetStream.Publish.Start"), ("description", .string (text values[3]?))]])
        |> replyResult txid [.null, .undefined] }

def handleUnpublish (s : ServerSession) : ServerSession × List ServerEvent :=
  if s.state = .publishing ∨ s.state = .publishPending then ({ s with state := .closed }, [.unpublish])
  else (s, [])

def handleCommand (payload : Bytes) (s : ServerSession) :
    Except SessionError (ServerSession × List ServerEvent) :=
  match Amf0.decodeAll payload with
  | .error e => .error (.amf0 e)
  | .ok values =>
    let name := text values[0]?
    let txid := (values[1]?.bind Amf0Value.asNumber).getD 0
    if name = "connect" then s.handleConnect txid values
    else if name = "releaseStream" then
      .ok ({ s with link := replyResult txid [.null, .undefined] s.link }, [])
    else if name = "FCPublish" then .ok (s.handleFCPublish txid values, [])
    else if name = "createStream" then
      .ok ({ s with link := replyResult txid [.null, one] s.link }, [])
    else if name = "publish" then s.handlePublish values
    else if name = "FCUnpublish" ∨ name = "deleteStream" ∨ name = "closeStream" then .ok s.handleUnpublish
    else .ok (s, [])

/-! ## Messages -/

/-- A data message is metadata when it sets, or is, `onMetaData`. -/
def isMeta (payload : Bytes) (first : Amf0Value) (used : ℕ) : Bool :=
  match first.asStr with
  | some "@setDataFrame" =>
    match Amf0.decodeOne (payload.drop used) with
    | .ok (v, _) => v.asStr = some "onMetaData"
    | .error _ => false
  | some "onMetaData" => true
  | _ => false

/-- The event of a data message, if it is one that can be passed on. -/
def handleData (m : Message) : List ServerEvent :=
  match Amf0.decodeOne m.payload with
  | .error _ => []
  | .ok (first, used) =>
    if isMeta m.payload first used then
      match withSetDataFrame m.payload with
      | none => []
      | some p => [.metadata m.timestamp p]
    else [.data m.timestamp m.payload]

def handleMedia (m : Message) : List ServerEvent :=
  if m.payload = [] then []
  else [.media (if m.typeId = AUDIO then .audio else .video) m.timestamp m.payload]

/-- Handles a message: the session then, and the events. An error leaves the session as it was. -/
def handle (m : Message) (s : ServerSession) : Except SessionError (ServerSession × List ServerEvent) :=
  match s.link.handleControl m with
  | .error e => .error e
  | .ok (true, link) => .ok ({ s with link := link }, [])
  | .ok (false, _) =>
    if m.typeId = COMMAND_AMF0 then s.handleCommand m.payload
    else if m.typeId = COMMAND_AMF3 then
      -- AMF3 commands carry an AMF0 body after a leading format byte.
      s.handleCommand (m.payload.drop 1)
    else if (m.typeId = AUDIO ∨ m.typeId = VIDEO) ∧ s.state = .publishing then .ok (s, handleMedia m)
    else if m.typeId = DATA_AMF0 ∧ s.state = .publishing then .ok (s, handleData m)
    else .ok (s, [])

/-! ## Feeding -/

def side : Side ServerSession ServerEvent := ⟨link, fun link s => { s with link := link }, handle⟩

/-- Feeds bytes received after the handshake. -/
def feed (data : Bytes) (s : ServerSession) : Fed ServerSession ServerEvent := side.feed data s

def takeOutput (s : ServerSession) : Bytes × ServerSession :=
  (s.link.takeOutput.1, { s with link := s.link.takeOutput.2 })

end ServerSession

end StreamDelay.Rtmp
