import Mathlib.Tactic.Common
import StreamDelay.Proofs.Control
import StreamDelay.Rtmp.Client
import StreamDelay.Rtmp.Server

/-! # The commands of a session

What each side makes of the commands of the other: every command of the client is answered, and every
answer takes the client on.
-/

namespace StreamDelay.Rtmp

open Foundations Foundations.Reader Amf0

/-! ## Reading commands back -/

/-- Values that are read back from their encoding. -/
def Proper (values : List Amf0Value) : Prop := ∀ v ∈ values, depth v ≤ MAX_DEPTH ∧ Fits v

theorem decode_command (csid : ℕ) (streamId : UInt32) {values : List Amf0Value} (proper : Proper values) :
    decodeAll (Message.command csid streamId values).payload = .ok values :=
  decodeLoop_encode values (Nat.le_refl _) proper

theorem Proper.nil : Proper [] := fun _ member => absurd member List.not_mem_nil

theorem Proper.cons {v : Amf0Value} {values : List Amf0Value} (shallow : depth v ≤ MAX_DEPTH) (fits : Fits v)
    (proper : Proper values) : Proper (v :: values) := by
  intro w member
  rcases List.mem_cons.mp member with rfl | later
  · exact ⟨shallow, fits⟩
  · exact proper w later

theorem Proper.string {s : String} {values : List Amf0Value} (short : Short s) (proper : Proper values) :
    Proper (.string s :: values) := .cons (Nat.zero_le _) short proper

theorem Proper.number {n : UInt64} {values : List Amf0Value} (proper : Proper values) :
    Proper (.number n :: values) := .cons (Nat.zero_le _) trivial proper

theorem Proper.null {values : List Amf0Value} (proper : Proper values) : Proper (.null :: values) :=
  .cons (Nat.zero_le _) trivial proper

theorem Proper.undefined {values : List Amf0Value} (proper : Proper values) : Proper (.undefined :: values) :=
  .cons (Nat.zero_le _) trivial proper

/-- Properties that are strings and numbers. -/
def Plain : List (String × Amf0Value) → Prop
  | [] => True
  | (k, .string s) :: rest => Short k ∧ Short s ∧ Plain rest
  | (k, .number _) :: rest => Short k ∧ Plain rest
  | _ => False

theorem Plain.fits : ∀ {props : List (String × Amf0Value)}, Plain props → propsDepth props ≤ 1 ∧ PropsFit props
  | [], _ => ⟨Nat.zero_le _, trivial⟩
  | (_, .string _) :: _, ⟨key, value, rest⟩ =>
    have later := rest.fits
    ⟨Nat.max_le.mpr ⟨Nat.le_refl _, later.1⟩, key, value, later.2⟩
  | (_, .number _) :: _, ⟨key, rest⟩ =>
    have later := rest.fits
    ⟨Nat.max_le.mpr ⟨Nat.le_refl _, later.1⟩, key, trivial, later.2⟩

theorem Proper.object {props : List (String × Amf0Value)} {values : List Amf0Value} (plain : Plain props)
    (proper : Proper values) : Proper (.object props :: values) :=
  .cons (Nat.le_trans plain.fits.1 (by decide)) plain.fits.2 proper

/-- A string takes its bytes and three more at least. -/
theorem encode_string_length (s : String) :
    (utf8 s).length + 3 ≤ (encode (.string s)).length ∧ (encode (.string s)).length ≤ (utf8 s).length + 5 := by
  unfold encode
  split
  · next short =>
    have whole : min (utf8 s).length 65535 = (utf8 s).length := Nat.min_eq_left short
    simp only [putShortString, putU16, List.length_cons, List.length_append, List.length_take, List.length_nil]
    omega
  · simp only [putLongString, putU32, List.length_cons, List.length_append, List.length_nil]
    omega

/-- A string in a small enough command is short. -/
theorem short_of_command {csid : ℕ} {streamId : UInt32} {values : List Amf0Value} {s : String}
    (small : (Message.command csid streamId values).payload.length ≤ MAX_PRE_PUBLISH_MESSAGE)
    (member : .string s ∈ values) : (utf8 s).length + 3 ≤ MAX_PRE_PUBLISH_MESSAGE := by
  have inside : (encode (.string s)).length ≤ (encodeAll values).length := by
    obtain ⟨before, after, rfl⟩ := List.append_of_mem member
    simp only [encodeAll, List.flatMap_append, List.flatMap_cons, List.length_append]
    omega
  have string := (encode_string_length s).1
  exact Nat.le_trans string (Nat.le_trans inside small)

/-! ## The answers of the server -/

/-- A `_result` with its transaction. -/
def resultMessage (txid : UInt64) (values : List Amf0Value) : Message :=
  .command CSID_COMMAND 0 (.string "_result" :: .number txid :: values)

def connectResult (encoding : UInt64) : Message :=
  resultMessage TX_CONNECT
    [.object [("fmsVer", .string "FMS/3,0,1,123"), ("capabilities", thirtyOne)],
      .object [("level", .string "status"), ("code", .string "NetConnection.Connect.Success"),
        ("description", .string "Connection succeeded."), ("objectEncoding", .number encoding)]]

def fcPublishStatus (key : String) : Message :=
  .command CSID_COMMAND 0
    [.string "onFCPublish", zero, .null,
      .object [("code", .string "NetStream.Publish.Start"), ("description", .string key)]]

def publishStart (app : String) : Message :=
  .command CSID_STREAM_COMMAND STREAM_ID
    [.string "onStatus", zero, .null,
      statusObject "status" "NetStream.Publish.Start" (app ++ " is now published.")]

/-- A message with few bytes besides a text. -/
theorem command_fair {csid : ℕ} {streamId : UInt32} {values : List Amf0Value} (member : csid ∈ sessionIds)
    (small : (encodeAll values).length < 2 ^ 24) : (Message.command csid streamId values).Fair sessionIds := by
  have range : 2 ≤ csid ∧ csid ≤ 65599 := by
    revert member
    simp only [sessionIds, Finset.mem_insert, Finset.mem_singleton]
    omega
  exact ⟨member, range, small⟩

theorem fcPublishStatus_length (key : String) : (fcPublishStatus key).payload.length ≤ (utf8 key).length + 78 := by
  have value := (encode_string_length key).2
  have first : (encodeAll [.string "onFCPublish", zero, .null]).length = 24 := by decide
  have code : (putShortString "code" ++ encode (.string "NetStream.Publish.Start") ++
      putShortString "description").length = 45 := by decide
  have split : (fcPublishStatus key).payload =
      encodeAll [.string "onFCPublish", zero, .null] ++
        (0x03 :: (putShortString "code" ++ encode (.string "NetStream.Publish.Start") ++
          putShortString "description" ++ encode (.string key) ++ [0x00, 0x00, 0x09])) := by
    simp only [fcPublishStatus, Message.command, encodeAll, List.flatMap_cons, List.flatMap_nil, encode, putProps,
      List.append_assoc, List.append_nil, List.cons_append, List.nil_append]
  rw [split, List.length_append, List.length_cons, List.length_append, List.length_append, first, code]
  simp only [List.length_cons, List.length_nil]
  omega

theorem fcPublishStatus_fair {key : String} (short : Short key) : (fcPublishStatus key).Fair sessionIds := by
  refine command_fair (by decide) ?_
  have length := fcPublishStatus_length key
  unfold Short at short
  exact Nat.lt_of_le_of_lt length (by omega)

theorem publishStart_length (app : String) : (publishStart app).payload.length ≤ (utf8 app).length + 109 := by
  have value := (encode_string_length (app ++ " is now published.")).2
  have suffix : (utf8 " is now published.").length = 18 := by decide
  have first : (encodeAll [.string "onStatus", zero, .null]).length = 21 := by decide
  have code : (putShortString "level" ++ encode (.string "status") ++ (putShortString "code" ++
      encode (.string "NetStream.Publish.Start") ++ putShortString "description")).length = 61 := by decide
  have split : (publishStart app).payload =
      encodeAll [.string "onStatus", zero, .null] ++
        (0x03 :: (putShortString "level" ++ encode (.string "status") ++ (putShortString "code" ++
          encode (.string "NetStream.Publish.Start") ++ putShortString "description") ++
            encode (.string (app ++ " is now published.")) ++ [0x00, 0x00, 0x09])) := by
    simp only [publishStart, Message.command, statusObject, encodeAll, List.flatMap_cons, List.flatMap_nil, encode,
      putProps, List.append_assoc, List.append_nil, List.cons_append, List.nil_append]
  rw [utf8_append, List.length_append, suffix] at value
  rw [split, List.length_append, List.length_cons, List.length_append, List.length_append, first, code]
  simp only [List.length_cons, List.length_nil]
  omega

theorem publishStart_fair {app : String} (short : (utf8 app).length ≤ 0xFFFF) :
    (publishStart app).Fair sessionIds := by
  refine command_fair (by decide) ?_
  have length := publishStart_length app
  exact Nat.lt_of_le_of_lt length (by omega)

/-- What a command the server handles leaves: the decoder as it was, and what is written. -/
structure Handled (s s' : ServerSession) (replies : List Message) : Prop where
  wrote : Wrote s.link s'.link replies
  decoder : s'.link.decoder = s.link.decoder
  config : s'.config = s.config

/-- A command message is handled by what it is read as. -/
theorem server_command {s : ServerSession} {csid : ℕ} {streamId : UInt32} {sent values : List Amf0Value}
    (read : decodeAll (Message.command csid streamId sent).payload = .ok values) :
    s.handle (.command csid streamId sent) =
      let txid := (values[1]?.bind Amf0Value.asNumber).getD 0
      let name := ServerSession.text values[0]?
      if name = "connect" then s.handleConnect txid values
      else if name = "releaseStream" then
        .ok ({ s with link := ServerSession.replyResult txid [.null, .undefined] s.link }, [])
      else if name = "FCPublish" then .ok (s.handleFCPublish txid values, [])
      else if name = "createStream" then
        .ok ({ s with link := ServerSession.replyResult txid [.null, one] s.link }, [])
      else if name = "publish" then s.handlePublish values
      else if name = "FCUnpublish" ∨ name = "deleteStream" ∨ name = "closeStream" then .ok s.handleUnpublish
      else .ok (s, []) := by
  have other : (Message.command csid streamId sent).isControl = false := rfl
  have command : (Message.command csid streamId sent).typeId = COMMAND_AMF0 := rfl
  unfold ServerSession.handle ServerSession.handleCommand
  rw [handleControl_other other]
  dsimp only
  rw [if_pos command, read]

theorem write_reply (txid : UInt64) (values : List Amf0Value) (l : Link) :
    Wrote l (ServerSession.replyResult txid values l) [resultMessage txid values] :=
  .write l (show COMMAND_AMF0 ≠ SET_CHUNK_SIZE by decide)

theorem server_releaseStream (config : ClientConfig) (short : Short config.streamKey) (s : ServerSession) :
    ∃ s', s.handle (ClientSession.keyCommand "releaseStream" TX_RELEASE config) = .ok (s', []) ∧
      s'.state = s.state ∧ s'.app = s.app ∧ Handled s s' [resultMessage TX_RELEASE [.null, .undefined]] := by
  have read := decode_command CSID_COMMAND 0
    (Proper.string (by decide : Short "releaseStream") (.number (n := TX_RELEASE) (.null (.string short .nil))))
  exact ⟨_, server_command read, rfl, rfl, write_reply _ _ _, rfl, rfl⟩

theorem server_createStream (s : ServerSession) :
    ∃ s', s.handle ClientSession.createStreamCommand = .ok (s', []) ∧
      s'.state = s.state ∧ s'.app = s.app ∧ Handled s s' [resultMessage TX_CREATE [.null, one]] := by
  have read := decode_command CSID_COMMAND 0
    (Proper.string (by decide : Short "createStream") (.number (n := TX_CREATE) (.null .nil)))
  exact ⟨_, server_command read, rfl, rfl, write_reply _ _ _, rfl, rfl⟩

theorem server_fcPublish (config : ClientConfig) (short : Short config.streamKey) (s : ServerSession) :
    ∃ s', s.handle (ClientSession.keyCommand "FCPublish" TX_FCPUBLISH config) = .ok (s', []) ∧
      s'.state = s.state ∧ s'.app = s.app ∧
      Handled s s' [fcPublishStatus config.streamKey, resultMessage TX_FCPUBLISH [.null, .undefined]] := by
  have read := decode_command CSID_COMMAND 0
    (Proper.string (by decide : Short "FCPublish") (.number (n := TX_FCPUBLISH) (.null (.string short .nil))))
  refine ⟨_, server_command read, rfl, rfl, ?_, rfl, rfl⟩
  exact (Wrote.write s.link (show COMMAND_AMF0 ≠ SET_CHUNK_SIZE by decide)).trans (write_reply _ _ _)

theorem server_publish (config : ClientConfig) (id : UInt32) (short : Short config.streamKey)
    {s : ServerSession} (connected : s.state = .connected) :
    ∃ s' e, s.handle (ClientSession.publishCommand id config) = .ok (s', [e]) ∧
      e = .publishRequest s.app config.streamKey ∧ s'.state = .publishPending ∧ s'.app = s.app ∧
      Handled s s' [] := by
  have read := decode_command CSID_STREAM_COMMAND id
    (Proper.string (by decide : Short "publish") (.number (n := TX_PUBLISH) (.null (.string short
      (.string (by decide : Short "live") .nil)))))
  refine ⟨{ s with streamKey := config.streamKey, state := .publishPending }, _, ?_, rfl, rfl, rfl,
    .of_eq rfl rfl, rfl, rfl⟩
  refine (server_command read).trans ?_
  show s.handlePublish _ = _
  unfold ServerSession.handlePublish
  rw [connected]
  rfl

/-! ## The connect of a client, whose other properties may be anything -/

/-- A value at the front is read first. -/
theorem decodeLoop_front {fuel : ℕ} {v : Amf0Value} {rest : Bytes} {values : List Amf0Value}
    (reads : Reads topValue (encode v) v) (read : decodeLoop (fuel + 1) (encode v ++ rest) = .ok values) :
    ∃ later, values = v :: later ∧ decodeLoop fuel rest = .ok later := by
  obtain ⟨marker, more, first, -⟩ := encode_marker v
  have whole := reads rest
  rw [first, List.cons_append] at read whole
  simp only [decodeLoop, whole, bind, Except.bind, pure, Except.pure] at read
  split at read
  · contradiction
  · next later _ => exact ⟨later, (Except.ok.inj read).symm, ‹_›⟩

/-- An object's first property is read first. -/
theorem props_front {value : Reader Amf0Value} {key : String} {v : Amf0Value} {more left : Bytes}
    {props : List (String × Amf0Value)} (short : Short key) (reads : Reads value (encode v) v)
    (read : Amf0.props value (putShortString key ++ (encode v ++ more)) = .ok (props, left)) :
    ∃ rest, props = (key, v) :: rest := by
  unfold Amf0.props propsLoop at read
  have first := reads_shortString short (encode v ++ more)
  have goes := reads_atEnd key v more
  have value' := reads more
  simp only [bind, StateT.bind, Except.bind, first, goes, value', Bool.false_eq_true, if_false] at read
  split at read
  · contradiction
  · next made _ =>
    exact ⟨made.1, (congrArg Prod.fst (Except.ok.inj read)).symm⟩

private theorem value_object (levels : ℕ) (b : Bytes) :
    value (levels + 1) (0x03 :: b) =
      (Amf0.props (value levels) b).map fun read => (.object read.1, read.2) := by
  have marker : u8 (0x03 :: b) = .ok (0x03, b) := reads_u8 0x03 b
  rw [value]
  generalize value levels = reader
  simp only [bind, StateT.bind, Except.bind, marker, UInt8.reduceToNat, Functor.map, StateT.map, pure,
    Except.pure]
  cases Amf0.props reader b <;> rfl

/-- The extra properties come behind ours. -/
theorem connectProps_ours (config : ClientConfig) :
    ∃ more, ClientSession.connectProps config =
      [("app", .string config.app), ("type", .string "nonprivate"), ("flashVer", .string config.flashVer),
        ("swfUrl", .string config.tcUrl), ("tcUrl", .string config.tcUrl)] ++ more := by
  have kept (extra : List (String × Amf0Value)) : ∀ props : List (String × Amf0Value),
      ∃ more, extra.foldl (fun props p =>
        if props.any (fun q => q.1 = p.1) then props else props ++ [p]) props = props ++ more := by
    induction extra with
    | nil => exact fun props => ⟨[], (List.append_nil props).symm⟩
    | cons p extra ih =>
      intro props
      rw [List.foldl_cons]
      split
      · exact ih props
      · obtain ⟨more, behind⟩ := ih (props ++ [p])
        exact ⟨p :: more, by rw [behind, List.append_assoc, List.singleton_append]⟩
  exact kept config.extraConnectProps _

private theorem connectProps_front (config : ClientConfig) :
    ∃ more, ClientSession.connectProps config = ("app", .string config.app) :: more := by
  obtain ⟨more, ours⟩ := connectProps_ours config
  exact ⟨_, ours⟩

theorem connect_payload (config : ClientConfig) :
    ∃ more, (ClientSession.connectCommand config).payload =
      encode (.string "connect") ++ (encode (.number TX_CONNECT) ++
        (0x03 :: (putShortString "app" ++ (encode (.string config.app) ++ putProps more)))) := by
  obtain ⟨more, front⟩ := connectProps_front config
  refine ⟨more, ?_⟩
  simp only [ClientSession.connectCommand, Message.command, front, encodeAll, List.flatMap_cons,
    List.flatMap_nil, encode, putProps, List.append_assoc, List.append_nil]

/-- The application of a small enough connect is short, with room for the text of a status. -/
theorem short_app {config : ClientConfig}
    (small : (ClientSession.connectCommand config).payload.length ≤ MAX_PRE_PUBLISH_MESSAGE) :
    (utf8 config.app).length + 28 ≤ MAX_PRE_PUBLISH_MESSAGE := by
  obtain ⟨more, payload⟩ := connect_payload config
  have name : (encode (.string "connect") ++ (encode (.number TX_CONNECT)) ++
      putShortString "app").length = 24 := by decide
  have app := (encode_string_length config.app).1
  rw [payload] at small
  simp only [List.length_append, List.length_cons] at small name
  omega

/-- What is read of a connect starts as it was written. -/
theorem connect_read {config : ClientConfig} {values : List Amf0Value} (short : Short config.app)
    (read : decodeAll (ClientSession.connectCommand config).payload = .ok values) :
    ∃ props rest, values = .string "connect" :: .number TX_CONNECT ::
      .object (("app", .string config.app) :: props) :: rest := by
  obtain ⟨more, payload⟩ := connect_payload config
  have string {s : String} (short : Short s) : Reads topValue (encode (.string s)) (.string s) :=
    reads_topValue (Nat.zero_le _) short
  have number : Reads topValue (encode (.number TX_CONNECT)) (.number TX_CONNECT) :=
    reads_topValue (Nat.zero_le _) trivial
  have name : (encode (.string "connect")).length = 10 := by decide
  obtain ⟨fuel, length⟩ : ∃ fuel, (ClientSession.connectCommand config).payload.length = fuel + 3 :=
    Nat.exists_eq_add_of_le' (by rw [payload, List.length_append, name]; omega)
  unfold decodeAll at read
  rw [length, payload] at read
  obtain ⟨afterName, rfl, later⟩ := decodeLoop_front (string (by decide : Short "connect")) read
  obtain ⟨afterTxid, rfl, last⟩ := decodeLoop_front number later
  unfold decodeLoop at last
  dsimp only at last
  rw [topValue, value_object] at last
  cases object : Amf0.props (value MAX_DEPTH)
      (putShortString "app" ++ (encode (.string config.app) ++ putProps more)) with
  | error e =>
    rw [object] at last
    simp only [Except.map, bind, Except.bind, reduceCtorEq] at last
  | ok made =>
    obtain ⟨props, left⟩ := made
    obtain ⟨props, rfl⟩ := props_front (by decide)
      (reads_value (.string config.app) (MAX_DEPTH - 1) (Nat.zero_le _) short) object
    rw [object] at last
    simp only [Except.map, bind, Except.bind, pure, Except.pure] at last
    split at last
    · simp only [reduceCtorEq] at last
    · exact ⟨props, _, congrArg (fun values => _ :: _ :: values) (Except.ok.inj last).symm⟩

/-- What the server writes on a connect. -/
def connectReplies (config : ServerConfig) (encoding : UInt64) : List Message :=
  [.u32Control WINDOW_ACK_SIZE config.windowAckSize, .peerBandwidth config.peerBandwidth 2,
    .u32Control SET_CHUNK_SIZE config.chunkSize, connectResult encoding]

private theorem connect_wrote (s : ServerSession) (encoding : UInt64) :
    Wrote s.link
      (ServerSession.replyResult TX_CONNECT
        [.object [("fmsVer", .string "FMS/3,0,1,123"), ("capabilities", thirtyOne)],
          .object [("level", .string "status"), ("code", .string "NetConnection.Connect.Success"),
            ("description", .string "Connection succeeded."), ("objectEncoding", .number encoding)]]
        (((s.link.write (.u32Control WINDOW_ACK_SIZE s.config.windowAckSize)).write
          (.peerBandwidth s.config.peerBandwidth 2)).setOutChunkSize s.config.chunkSize))
      (connectReplies s.config encoding) := by
  have window := Wrote.write (m := .u32Control WINDOW_ACK_SIZE s.config.windowAckSize) s.link
    (show WINDOW_ACK_SIZE ≠ SET_CHUNK_SIZE by decide)
  have bandwidth := window.trans (.write (m := .peerBandwidth s.config.peerBandwidth 2) _
    (show SET_PEER_BANDWIDTH ≠ SET_CHUNK_SIZE by decide))
  exact (bandwidth.trans (.setOutChunkSize s.config.chunkSize _)).trans (write_reply _ _ _)

theorem server_connect {config : ClientConfig} (short : Short config.app) {s s' : ServerSession}
    {events : List ServerEvent} (await : s.state = .awaitConnect)
    (handled : s.handle (ClientSession.connectCommand config) = .ok (s', events)) :
    s'.state = .connected ∧ s'.app = config.app ∧
      (∃ tcUrl props, events = [.connect config.app tcUrl props]) ∧
      ∃ encoding, Handled s s' (connectReplies s.config encoding) := by
  have other : (ClientSession.connectCommand config).isControl = false := rfl
  have command : (ClientSession.connectCommand config).typeId = COMMAND_AMF0 := rfl
  cases read : decodeAll (ClientSession.connectCommand config).payload with
  | error e =>
    unfold ServerSession.handle ServerSession.handleCommand at handled
    rw [handleControl_other other] at handled
    dsimp only at handled
    rw [if_pos command, read] at handled
    injections
  | ok values =>
    obtain ⟨props, rest, rfl⟩ := connect_read short read
    have done := (server_command read).symm.trans handled
    change s.handleConnect TX_CONNECT _ = _ at done
    unfold ServerSession.handleConnect at done
    rw [if_neg (Decidable.not_not.mpr await)] at done
    obtain ⟨rfl, rfl⟩ := Prod.mk.inj (Except.ok.inj done)
    exact ⟨rfl, rfl, ⟨_, _, rfl⟩, _, connect_wrote s _, rfl, rfl⟩

/-! ## What the client makes of the answers -/

/-- A command message is handled by what it is read as. -/
theorem client_command {s : ClientSession} {csid : ℕ} {streamId : UInt32} {sent values : List Amf0Value}
    (read : decodeAll (Message.command csid streamId sent).payload = .ok values) :
    s.handle (.command csid streamId sent) = s.handleCommand values := by
  have other : (Message.command csid streamId sent).isControl = false := rfl
  have command : (Message.command csid streamId sent).typeId = COMMAND_AMF0 := rfl
  unfold ClientSession.handle
  rw [handleControl_other other]
  dsimp only
  rw [if_pos (.inl command), if_pos command, read]

/-- What a command the client handles leaves: the decoder as it was, and what is written. -/
structure Answered (s s' : ClientSession) (written : List Message) : Prop where
  wrote : Wrote s.link s'.link written
  decoder : s'.link.decoder = s.link.decoder
  config : s'.config = s.config

/-- The commands about the stream that follow the connect. -/
def asks (config : ClientConfig) : List Message :=
  [ClientSession.keyCommand "releaseStream" TX_RELEASE config,
    ClientSession.keyCommand "FCPublish" TX_FCPUBLISH config, ClientSession.createStreamCommand]

private theorem connectResult_read (encoding : UInt64) :
    decodeAll (connectResult encoding).payload = .ok
      [.string "_result", .number TX_CONNECT,
        .object [("fmsVer", .string "FMS/3,0,1,123"), ("capabilities", thirtyOne)],
        .object [("level", .string "status"), ("code", .string "NetConnection.Connect.Success"),
          ("description", .string "Connection succeeded."), ("objectEncoding", .number encoding)]] := by
  refine decode_command _ _ (.string (by decide) (.number (.object ?_ (.object ?_ .nil))))
  · exact ⟨by decide, by decide, show Short "capabilities" by decide, trivial⟩
  · exact ⟨by decide, by decide, by decide, by decide, by decide, by decide, by decide, trivial⟩

theorem client_connected {s : ClientSession} (connecting : s.state = .connecting) (encoding : UInt64) :
    ∃ s', s.handle (connectResult encoding) = .ok (s', []) ∧ s'.state = .creatingStream ∧
      Answered s s' (asks s.config) := by
  have handled := client_command (s := s) (connectResult_read encoding)
  unfold ClientSession.handleCommand at handled
  dsimp only at handled
  rw [if_pos ⟨rfl, rfl, connecting⟩] at handled
  refine ⟨_, handled, rfl, ?_, rfl, rfl⟩
  have written (m : Message) (command : m.typeId = COMMAND_AMF0) (l : Link) : Wrote l (l.write m) [m] :=
    .write l (by rw [command]; decide)
  exact ((written _ rfl s.link).trans (written _ rfl _)).trans (written _ rfl _)

/-- A result of another transaction is passed over. -/
theorem client_passes {s : ClientSession} {txid : UInt64} {values : List Amf0Value} (proper : Proper values)
    (connect : txid ≠ TX_CONNECT) (create : txid ≠ TX_CREATE) :
    s.handle (resultMessage txid values) = .ok (s, []) := by
  have read := decode_command CSID_COMMAND 0
    (Proper.string (by decide : Short "_result") (.number (n := txid) proper))
  refine (client_command read).trans ?_
  unfold ClientSession.handleCommand
  dsimp only
  rw [if_neg fun taken => connect taken.2.1, if_neg fun taken => create taken.2.1]
  rfl

theorem client_fcPublish {key : String} (short : Short key) (s : ClientSession) :
    s.handle (fcPublishStatus key) = .ok (s, []) := by
  have plain : Plain [("code", .string "NetStream.Publish.Start"), ("description", .string key)] :=
    ⟨by decide, by decide, by decide, short, trivial⟩
  have read := decode_command CSID_COMMAND 0
    (Proper.string (by decide : Short "onFCPublish") (.number (n := 0) (.null (.object plain .nil))))
  exact (client_command read).trans rfl

theorem client_created {s : ClientSession} (creating : s.state = .creatingStream) :
    ∃ s', s.handle (resultMessage TX_CREATE [.null, one]) = .ok (s', []) ∧ s'.state = .publishPending ∧
      Answered s s' [ClientSession.publishCommand 1 s.config] := by
  have read := decode_command CSID_COMMAND 0
    (Proper.string (by decide : Short "_result")
      (.number (n := TX_CREATE) (.null (.number (n := 0x3FF0000000000000) .nil))))
  have handled := client_command (s := s) read
  unfold ClientSession.handleCommand at handled
  dsimp only at handled
  rw [if_neg (by rintro ⟨-, same, -⟩; exact absurd same (by decide)), if_pos ⟨rfl, rfl, creating⟩] at handled
  exact ⟨_, handled, rfl, .write s.link (show COMMAND_AMF0 ≠ SET_CHUNK_SIZE by decide), rfl, rfl⟩

theorem client_published {app : String} (short : (utf8 app).length + 28 ≤ MAX_PRE_PUBLISH_MESSAGE)
    {s : ClientSession} (pending : s.state = .publishPending) :
    ∃ s', s.handle (publishStart app) = .ok (s', [.publishing]) ∧ s'.state = .publishing ∧
      Answered s s' [] := by
  have text : Short (app ++ " is now published.") := by
    have suffix : (utf8 " is now published.").length = 18 := by decide
    unfold Short
    rw [utf8_append, List.length_append, suffix]
    unfold MAX_PRE_PUBLISH_MESSAGE at short
    omega
  have plain : Plain [("level", .string "status"), ("code", .string "NetStream.Publish.Start"),
      ("description", .string (app ++ " is now published."))] :=
    ⟨by decide, by decide, by decide, by decide, by decide, text, trivial⟩
  have read := decode_command CSID_STREAM_COMMAND STREAM_ID
    (Proper.string (by decide : Short "onStatus") (.number (n := 0) (.null (.object plain .nil))))
  have handled := client_command (s := s) read
  change s.handle (publishStart app) = .ok (s.handleStatus _) at handled
  unfold ClientSession.handleStatus at handled
  rw [if_pos ⟨rfl, pending⟩] at handled
  exact ⟨_, handled, rfl, .of_eq rfl rfl, rfl, rfl⟩

end StreamDelay.Rtmp
