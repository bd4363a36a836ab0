import Mathlib.Tactic.Common
import StreamDelay.Foundations.Machine
import StreamDelay.Proofs.Commands

/-! # The order of what a client session says

The ingest server sends what it likes, in pieces of any size, and the application calls when it likes. Whatever
happens, what the client writes is its connect; the commands about the stream, which hold its key, once a message has
accepted the connect; one publish, once another has given the stream an id; media and data for that id, once a third
has said that the publish started; and the commands that end it, behind which nothing is written.
-/

namespace StreamDelay.Rtmp.ClientSession

open Foundations

/-- What is done with a session. -/
inductive Op where
  | feed (data : Bytes)
  | sendMedia (kind : MediaKind) (timestamp : UInt32) (payload : Bytes)
  | sendData (timestamp : UInt32) (payload : Bytes)
  | close
  | takeOutput
deriving DecidableEq

/-- The message a call asks for, on a stream. -/
def Op.message (streamId : UInt32) : Op → Option Message
  | sendMedia kind timestamp payload => some (mediaMessage streamId kind timestamp payload)
  | sendData timestamp payload => some ⟨CSID_DATA, timestamp, DATA_AMF0, streamId, payload⟩
  | _ => none

/-- What comes of it. -/
inductive Happening where
  /-- A message of the server is handled. -/
  | heard (m : Message)
  /-- An event is raised. -/
  | raised (e : ClientEvent)
  /-- Bytes are taken to be sent. -/
  | put (b : Bytes)

def happenings (fed : Fed ClientSession ClientEvent) : List Happening :=
  fed.handled.flatMap fun (m, events) => .heard m :: events.map .raised

def step (s : ClientSession) : Op → ClientSession × List Happening
  | .feed data => ((s.feed data).session, happenings (s.feed data))
  | .sendMedia kind timestamp payload => (s.sendMedia kind timestamp payload, [])
  | .sendData timestamp payload => (s.sendData timestamp payload, [])
  | .close => (s.close, [])
  | .takeOutput => (s.takeOutput.2, [.put s.takeOutput.1])

/-- The messages handled. -/
def heard (trace : List Happening) : List Message :=
  trace.filterMap fun
    | .heard m => some m
    | _ => none

def raised (trace : List Happening) : List ClientEvent :=
  trace.filterMap fun
    | .raised e => some e
    | _ => none

/-- The bytes taken. -/
def put (trace : List Happening) : Bytes :=
  trace.flatMap fun
    | .put b => b
    | _ => []

/-! ## What a message of the server says -/

/-- The values of a command. -/
def commandValues (m : Message) : List Amf0Value :=
  if m.typeId = COMMAND_AMF0 ∨ m.typeId = COMMAND_AMF3 then
    ((Amf0.decodeAll (if m.typeId = COMMAND_AMF0 then m.payload else m.payload.drop 1)).toOption).getD []
  else []

/-- The message is a command of this name and transaction. -/
structure IsCommand (m : Message) (name : String) (txid : UInt64) : Prop where
  name : ((commandValues m)[0]?.bind Amf0Value.asStr).getD "" = name
  txid : ((commandValues m)[1]?.bind Amf0Value.asNumber).getD 0 = txid

/-- The server accepts the connect. -/
structure Accepts (m : Message) : Prop where
  result : IsCommand m "_result" TX_CONNECT
  code : infoText (commandValues m) "code" = "" ∨
    infoText (commandValues m) "code" = "NetConnection.Connect.Success"

/-- The server gives the stream an id. -/
structure Creates (m : Message) (id : UInt32) : Prop where
  result : IsCommand m "_result" TX_CREATE
  id : streamIdOf (((commandValues m)[3]?.bind Amf0Value.asNumber).getD 0x3FF0000000000000) = some id

/-- The server says that the publish has started. -/
structure Starts (m : Message) : Prop where
  name : ((commandValues m)[0]?.bind Amf0Value.asStr).getD "" = "onStatus"
  code : infoText (commandValues m) "code" = "NetStream.Publish.Start"

/-! ## What the client says -/

/-- The commands that end a publish, if it is ended. -/
def Ending (config : ClientConfig) (id : UInt32) (ending : List Message) : Prop :=
  ending = [] ∨ ending = [keyCommand "FCUnpublish" TX_UNPUBLISH config, deleteStreamCommand id]

/-- What a client has written besides control messages, after `ops` and the messages `heard`. -/
inductive Talk (config : ClientConfig) (ops : List Op) (heard : List Message) : List Message → Prop
  | calling : Talk config ops heard [connectCommand config]
  | asking {accept : Message} (accepts : Accepts accept) (order : [accept].Sublist heard) :
      Talk config ops heard (connectCommand config :: asks config)
  | requested {accept create : Message} {id : UInt32} {ending : List Message} (accepts : Accepts accept)
      (creates : Creates create id) (order : [accept, create].Sublist heard) (ends : Ending config id ending) :
      Talk config ops heard (connectCommand config :: asks config ++ publishCommand id config :: ending)
  | on {accept create start : Message} {id : UInt32} {items ending : List Message} (accepts : Accepts accept)
      (creates : Creates create id) (starts : Starts start) (order : [accept, create, start].Sublist heard)
      (calls : items.Sublist (ops.filterMap (Op.message id))) (ends : Ending config id ending) :
      Talk config ops heard (connectCommand config :: asks config ++ publishCommand id config :: (items ++ ending))

/-- The same, with the state of the session and the id of its stream. -/
inductive Stage (config : ClientConfig) (ops : List Op) (heard : List Message) :
    ClientState → UInt32 → List Message → Prop
  | connecting : Stage config ops heard .connecting 0 [connectCommand config]
  | creating {accept : Message} (accepts : Accepts accept) (order : [accept].Sublist heard) :
      Stage config ops heard .creatingStream 0 (connectCommand config :: asks config)
  | pending {accept create : Message} {id : UInt32} (accepts : Accepts accept) (creates : Creates create id)
      (order : [accept, create].Sublist heard) :
      Stage config ops heard .publishPending id
        (connectCommand config :: asks config ++ publishCommand id config :: [])
  | publishing {accept create start : Message} {id : UInt32} {items : List Message} (accepts : Accepts accept)
      (creates : Creates create id) (starts : Starts start) (order : [accept, create, start].Sublist heard)
      (calls : items.Sublist (ops.filterMap (Op.message id))) :
      Stage config ops heard .publishing id
        (connectCommand config :: asks config ++ publishCommand id config :: (items ++ []))
  | finished {state : ClientState} {id : UInt32} {said : List Message} (idle : state = .failed ∨ state = .closed)
      (talk : Talk config ops heard said) : Stage config ops heard state id said

variable {config : ClientConfig} {ops : List Op} {heard said : List Message} {state : ClientState}
  {id : UInt32}

theorem Talk.longer (talk : Talk config ops heard said) (more : List Op) (later : List Message) :
    Talk config (ops ++ more) (heard ++ later) said := by
  have hears {given : List Message} (order : given.Sublist heard) : given.Sublist (heard ++ later) :=
    order.trans (List.sublist_append_left ..)
  cases talk with
  | calling => exact .calling
  | asking accepts order => exact .asking accepts (hears order)
  | requested accepts creates order ends => exact .requested accepts creates (hears order) ends
  | on accepts creates starts order calls ends =>
    refine .on accepts creates starts (hears order) (calls.trans ?_) ends
    rw [List.filterMap_append]
    exact List.sublist_append_left ..

theorem Stage.longer (stage : Stage config ops heard state id said) (more : List Op) (later : List Message) :
    Stage config (ops ++ more) (heard ++ later) state id said := by
  have hears {given : List Message} (order : given.Sublist heard) : given.Sublist (heard ++ later) :=
    order.trans (List.sublist_append_left ..)
  cases stage with
  | connecting => exact .connecting
  | creating accepts order => exact .creating accepts (hears order)
  | pending accepts creates order => exact .pending accepts creates (hears order)
  | publishing accepts creates starts order calls =>
    refine .publishing accepts creates starts (hears order) (calls.trans ?_)
    rw [List.filterMap_append]
    exact List.sublist_append_left ..
  | finished idle talk => exact .finished idle (talk.longer ..)

private theorem Stage.talk (stage : Stage config ops heard state id said) : Talk config ops heard said := by
  cases stage with
  | connecting => exact .calling
  | creating accepts order => exact .asking accepts order
  | pending accepts creates order => exact .requested accepts creates order (.inl rfl)
  | publishing accepts creates starts order calls => exact .on accepts creates starts order calls (.inl rfl)
  | finished idle talk => exact talk

/-! ## What a message does to a session -/

variable {s s' : ClientSession} {m : Message} {events : List ClientEvent}

/-- How handling a message moves a session, and what it then writes besides control messages. -/
inductive Turn (s : ClientSession) (m : Message) (s' : ClientSession) : List Message → List ClientEvent → Prop
  | still (state : s'.state = s.state) (id : s'.streamId = s.streamId) : Turn s m s' [] []
  | asks (connecting : s.state = .connecting) (accepts : Accepts m) (now : s'.state = .creatingStream)
      (id : s'.streamId = s.streamId) : Turn s m s' (asks s.config) []
  | requests (creating : s.state = .creatingStream) (creates : Creates m s'.streamId)
      (now : s'.state = .publishPending) : Turn s m s' [publishCommand s'.streamId s.config] []
  | starts (pending : s.state = .publishPending) (starts : Starts m) (now : s'.state = .publishing)
      (id : s'.streamId = s.streamId) : Turn s m s' [] [.publishing]
  | fails (now : s'.state = .failed) (code description : String) : Turn s m s' [] [.error code description]

/-- What a session writes with a message: control messages and `signals`. -/
structure Writes (s s' : ClientSession) (signals : List Message) : Prop where
  config : s'.config = s.config
  wrote : ∃ log, Wrote s.link s'.link log ∧ log.filter (fun m => !m.isControl) = signals

theorem Writes.none (config : s'.config = s.config) (same : s'.link = s.link) : Writes s s' [] :=
  ⟨config, [], same ▸ .refl _, rfl⟩

/-- A control message is answered by control messages at most. -/
theorem handleControl_wrote {l l' : Link} {control : Bool} (handled : l.handleControl m = .ok (control, l')) :
    ∃ log, Wrote l l' log ∧ log.filter (fun m => !m.isControl) = [] := by
  have result {written : Link} {b : Bool} {log : List Message}
      (done : Except.ok (ε := SessionError) (b, written) = .ok (control, l')) (wrote : Wrote l written log)
      (controls : log.filter (fun m => !m.isControl) = []) :
      ∃ log, Wrote l l' log ∧ log.filter (fun m => !m.isControl) = [] := by
    obtain ⟨-, rfl⟩ := Prod.mk.inj (Except.ok.inj done)
    exact ⟨log, wrote, controls⟩
  unfold Link.handleControl at handled
  split at handled
  · split at handled
    · injections
    · split at handled
      · injections
      · exact result handled (.of_eq rfl rfl) rfl
  · split at handled
    · split at handled
      · exact result handled (.refl l) rfl
      · exact result handled (.of_eq rfl rfl) rfl
    · split at handled
      · exact result handled (.refl l) rfl
      · split at handled
        · split at handled
          · exact result handled (.refl l) rfl
          · exact result handled (.of_eq rfl rfl) rfl
        · split at handled
          · split at handled
            · exact result handled (.refl l) rfl
            · exact result handled (.write l (show WINDOW_ACK_SIZE ≠ SET_CHUNK_SIZE by decide)) rfl
          · split at handled
            · split at handled
              · exact result handled (.refl l) rfl
              · split at handled
                · exact result handled (.write l (show USER_CONTROL ≠ SET_CHUNK_SIZE by decide)) rfl
                · exact result handled (.refl l) rfl
            · exact result handled (.refl l) rfl

/-- A command is written. -/
theorem wrote_command (csid : ℕ) (streamId : UInt32) (values : List Amf0Value) (l : Link) :
    Wrote l (l.write (.command csid streamId values)) [.command csid streamId values] :=
  .write l (show COMMAND_AMF0 ≠ SET_CHUNK_SIZE by decide)

private theorem handleConnectResult_turn (connecting : s.state = .connecting)
    (result : IsCommand m "_result" TX_CONNECT)
    (handled : s.handleConnectResult (commandValues m) = (s', events)) :
    ∃ signals, Turn s m s' signals events ∧ Writes s s' signals := by
  unfold handleConnectResult at handled
  dsimp only at handled
  split at handled
  · obtain ⟨rfl, rfl⟩ := Prod.mk.inj handled
    exact ⟨[], .fails rfl _ _, .none rfl rfl⟩
  · next accepted =>
    obtain ⟨rfl, rfl⟩ := Prod.mk.inj handled
    refine ⟨asks s.config, .asks connecting ⟨result, ?_⟩ rfl rfl, rfl, asks s.config, ?_, rfl⟩
    · by_contra other
      exact accepted (not_or.mp other)
    · exact ((wrote_command _ _ _ s.link).trans (wrote_command ..)).trans (wrote_command ..)

private theorem handleCreateResult_turn (creating : s.state = .creatingStream)
    (result : IsCommand m "_result" TX_CREATE)
    (handled : s.handleCreateResult (commandValues m) = .ok (s', events)) :
    ∃ signals, Turn s m s' signals events ∧ Writes s s' signals := by
  unfold handleCreateResult at handled
  dsimp only at handled
  split at handled
  · injections
  · next id given =>
    obtain ⟨rfl, rfl⟩ := Prod.mk.inj (Except.ok.inj handled)
    exact ⟨_, .requests creating ⟨result, given⟩ rfl, rfl, _, wrote_command .., rfl⟩

private theorem handleStatus_turn (name : ((commandValues m)[0]?.bind Amf0Value.asStr).getD "" = "onStatus")
    (handled : s.handleStatus (commandValues m) = (s', events)) :
    ∃ signals, Turn s m s' signals events ∧ Writes s s' signals := by
  unfold handleStatus at handled
  split at handled
  · next started =>
    obtain ⟨rfl, rfl⟩ := Prod.mk.inj handled
    exact ⟨[], .starts started.2 ⟨name, started.1⟩ rfl rfl, .none rfl rfl⟩
  · split at handled
    · obtain ⟨rfl, rfl⟩ := Prod.mk.inj handled
      exact ⟨[], .fails rfl _ _, .none rfl rfl⟩
    · obtain ⟨rfl, rfl⟩ := Prod.mk.inj handled
      exact ⟨[], .still rfl rfl, .none rfl rfl⟩

private theorem handleCommand_turn (handled : s.handleCommand (commandValues m) = .ok (s', events)) :
    ∃ signals, Turn s m s' signals events ∧ Writes s s' signals := by
  unfold handleCommand at handled
  dsimp only at handled
  split at handled
  · next accepted =>
    exact handleConnectResult_turn accepted.2.2 ⟨accepted.1, accepted.2.1⟩ (Except.ok.inj handled)
  · split at handled
    · next created => exact handleCreateResult_turn created.2.2 ⟨created.1, created.2.1⟩ handled
    · split at handled
      · obtain ⟨rfl, rfl⟩ := Prod.mk.inj (Except.ok.inj handled)
        exact ⟨[], .fails rfl _ _, .none rfl rfl⟩
      · split at handled
        · next status => exact handleStatus_turn status (Except.ok.inj handled)
        · split at handled
          · obtain ⟨rfl, rfl⟩ := Prod.mk.inj (Except.ok.inj handled)
            exact ⟨[], .fails rfl _ _, .none rfl rfl⟩
          · obtain ⟨rfl, rfl⟩ := Prod.mk.inj (Except.ok.inj handled)
            exact ⟨[], .still rfl rfl, .none rfl rfl⟩

private theorem handle_turn (handled : s.handle m = .ok (s', events)) :
    ∃ signals, Turn s m s' signals events ∧ Writes s s' signals := by
  unfold handle at handled
  split at handled
  · injections
  · next link control =>
    obtain ⟨rfl, rfl⟩ := Prod.mk.inj (Except.ok.inj handled)
    exact ⟨[], .still rfl rfl, rfl, handleControl_wrote control⟩
  · split at handled
    · next command =>
      split at handled
      · injections
      · next values read =>
        refine handleCommand_turn ?_
        unfold commandValues
        rw [if_pos command, read]
        exact handled
    · obtain ⟨rfl, rfl⟩ := Prod.mk.inj (Except.ok.inj handled)
      exact ⟨[], .still rfl rfl, .none rfl rfl⟩

/-! ## What is known of a session from what has happened -/

/-- What a session has written, and the events it has raised. -/
structure Story (config : ClientConfig) (ops : List Op) (s : ClientSession) (trace : List Happening) : Prop where
  configured : s.config = config
  wrote : ∃ log, put trace ++ s.link.out = wire .new log ∧ s.link.encoder = log.foldl .after .new ∧
    Stage config ops (ClientSession.heard trace) s.state s.streamId (log.filter fun m => !m.isControl)
  once : (raised trace).count .publishing ≤ 1
  early : s.state = .connecting ∨ s.state = .creatingStream ∨ s.state = .publishPending →
    (raised trace).count .publishing = 0
  live : s.state = .publishing → (raised trace).count .publishing = 1

variable {trace : List Happening}

theorem Stage.turned {signals : List Message} (stage : Stage config ops heard s.state s.streamId said)
    (turn : Turn s m s' signals events) (same : s.config = config) :
    Stage config ops (heard ++ [m]) s'.state s'.streamId (said ++ signals) := by
  cases turn with
  | still state id =>
    rw [state, id, List.append_nil, ← List.append_nil ops]
    exact stage.longer ..
  | fails now code description =>
    rw [List.append_nil, ← List.append_nil ops]
    exact .finished (.inl now) (stage.talk.longer ..)
  | asks connecting accepts now id =>
    rw [now, id, same]
    rw [connecting] at stage
    generalize s.streamId = i at stage ⊢
    cases stage with
    | connecting => exact .creating accepts (List.sublist_append_right ..)
    | finished idle => rcases idle with idle | idle <;> contradiction
  | requests creating creates now =>
    rw [now, same]
    rw [creating] at stage
    generalize s.streamId = i at stage
    cases stage with
    | creating accepts order => exact .pending accepts creates (order.append (.refl [m]))
    | finished idle => rcases idle with idle | idle <;> contradiction
  | starts pending starts now id =>
    rw [now, id, List.append_nil]
    rw [pending] at stage
    generalize s.streamId = i at stage ⊢
    cases stage with
    | pending accepts creates order =>
      exact .publishing accepts creates starts (order.append (.refl [m])) (List.nil_sublist _)
    | finished idle => rcases idle with idle | idle <;> contradiction

theorem put_append (first second : List Happening) : put (first ++ second) = put first ++ put second :=
  List.flatMap_append

theorem heard_append (first second : List Happening) :
    ClientSession.heard (first ++ second) = ClientSession.heard first ++ ClientSession.heard second :=
  List.filterMap_append ..

private theorem raised_append (first second : List Happening) :
    raised (first ++ second) = raised first ++ raised second :=
  List.filterMap_append ..

/-- What a message and its events are, as happenings. -/
theorem handled_parts (m : Message) (events : List ClientEvent) :
    put (.heard m :: events.map .raised) = [] ∧ ClientSession.heard (.heard m :: events.map .raised) = [m] ∧
      raised (.heard m :: events.map .raised) = events := by
  induction events with
  | nil => exact ⟨rfl, rfl, rfl⟩
  | cons e events ih =>
    obtain ⟨puts, hears, raises⟩ := ih
    exact ⟨puts, hears, congrArg (e :: ·) raises⟩

/-- Control messages are written. -/
theorem Story.controls (story : Story config ops s trace) (log : List Message) (wrote : Wrote s.link s'.link log)
    (controls : log.filter (fun m => !m.isControl) = []) (config' : s'.config = s.config)
    (state : s'.state = s.state) (id : s'.streamId = s.streamId) : Story config ops s' trace := by
  obtain ⟨all, out, encoder, stage⟩ := story.wrote
  refine ⟨config'.trans story.configured, ⟨all ++ log, ?_, ?_, ?_⟩, story.once, ?_, ?_⟩
  · rw [wrote.out, ← List.append_assoc, out, encoder, wire_append]
  · rw [wrote.encoder, encoder, List.foldl_append]
  · rw [List.filter_append, controls, List.append_nil, state, id]
    exact stage
  · rw [state]
    exact story.early
  · rw [state]
    exact story.live

/-- The events a message raises, against the state. -/
theorem Turn.count {signals : List Message} (turn : Turn s m s' signals events) {raised : List ClientEvent}
    (once : raised.count .publishing ≤ 1)
    (early : s.state = .connecting ∨ s.state = .creatingStream ∨ s.state = .publishPending →
      raised.count .publishing = 0)
    (live : s.state = .publishing → raised.count .publishing = 1) :
    (raised ++ events).count .publishing ≤ 1 ∧
      (s'.state = .connecting ∨ s'.state = .creatingStream ∨ s'.state = .publishPending →
        (raised ++ events).count .publishing = 0) ∧
      (s'.state = .publishing → (raised ++ events).count .publishing = 1) := by
  rw [List.count_append]
  cases turn with
  | still state =>
    rw [state]
    exact ⟨once, early, live⟩
  | asks connecting _ now =>
    rw [now]
    exact ⟨once, fun _ => early (.inl connecting), fun none => by contradiction⟩
  | requests creating _ now =>
    rw [now]
    exact ⟨once, fun _ => early (.inr (.inl creating)), fun none => by contradiction⟩
  | starts pending _ now =>
    have none := early (.inr (.inr pending))
    rw [now, none]
    exact ⟨Nat.le_refl 1, fun never => by rcases never with never | never | never <;> contradiction, fun _ => rfl⟩
  | fails now =>
    rw [now]
    refine ⟨once, fun never => ?_, fun never => by contradiction⟩
    rcases never with never | never | never <;> contradiction

theorem Story.handled {signals : List Message} (story : Story config ops s trace) (turn : Turn s m s' signals events)
    (writes : Writes s s' signals) : Story config ops s' (trace ++ .heard m :: events.map .raised) := by
  obtain ⟨puts, hears, raises⟩ := handled_parts m events
  obtain ⟨all, out, encoder, stage⟩ := story.wrote
  obtain ⟨log, wrote, filtered⟩ := writes.wrote
  obtain ⟨once, early, live⟩ := turn.count story.once story.early story.live
  refine ⟨writes.config.trans story.configured, ⟨all ++ log, ?_, ?_, ?_⟩, ?_, ?_, ?_⟩
  · rw [put_append, puts, List.append_nil, wrote.out, ← List.append_assoc, out, encoder, wire_append]
  · rw [wrote.encoder, encoder, List.foldl_append]
  · rw [List.filter_append, filtered, heard_append, hears]
    exact stage.turned turn story.configured
  · rw [raised_append, raises]
    exact once
  · rw [raised_append, raises]
    exact early
  · rw [raised_append, raises]
    exact live

theorem Story.pulled (story : Story config ops s trace) : Story config ops (side.pulled s) trace :=
  story.controls [] (.of_eq rfl rfl) rfl rfl rfl rfl

/-- The messages of a piece are handled in order, whatever becomes of the piece. -/
theorem Story.feedLoop (story : Story config ops s trace) (fuel : ℕ) :
    Story config ops (side.feedLoop fuel s).session (trace ++ happenings (side.feedLoop fuel s)) := by
  have silent {s : ClientSession} (story : Story config ops s trace) : Story config ops s (trace ++ []) := by
    rwa [List.append_nil]
  induction fuel generalizing s trace with
  | zero => exact silent story
  | succ fuel ih =>
    unfold Side.feedLoop
    cases (side.link s).decoder.nextMessage.1 with
    | error e => exact silent story.pulled
    | ok found =>
      cases found with
      | none => exact silent story.pulled
      | some m =>
        dsimp only
        cases handled : side.handle m (side.pulled s) with
        | error e => exact story.pulled.handled (.still rfl rfl) (.none rfl rfl)
        | ok result =>
          obtain ⟨s', events⟩ := result
          obtain ⟨signals, turn, writes⟩ := handle_turn handled
          have next := story.pulled.handled turn writes
          have later := ih next fun story => by rwa [List.append_nil]
          rw [List.append_assoc] at later
          exact later

theorem Story.pushed (story : Story config ops s trace) (data : Bytes) :
    Story config ops (side.push data s) trace := by
  obtain ⟨replies, received, tame⟩ := received_wrote data.length s.link
  refine story.controls replies ⟨received.out, received.encoder⟩ ?_ rfl rfl rfl
  refine List.filter_eq_nil_iff.mpr fun m member => ?_
  rw [(tame m member).control]
  decide

/-! ## Runs -/

theorem Story.longer (story : Story config ops s trace) (op : Op) : Story config (ops ++ [op]) s trace := by
  obtain ⟨all, out, encoder, stage⟩ := story.wrote
  have longer := stage.longer [op] []
  rw [List.append_nil] at longer
  exact ⟨story.configured, ⟨all, out, encoder, longer⟩, story.once, story.early, story.live⟩

/-- A media or data message is written while the session is publishing. -/
theorem Story.item (story : Story config ops s trace) {op : Op} {item : Message}
    (publishing : s.state = .publishing) (asked : op.message s.streamId = some item)
    (other : item.isControl = false) :
    Story config (ops ++ [op]) { s with link := s.link.write item } trace := by
  have kept : item.typeId ≠ SET_CHUNK_SIZE := by
    intro sizes
    rw [Message.isControl, sizes] at other
    contradiction
  have wrote : Wrote s.link (s.link.write item) [item] := .write s.link kept
  obtain ⟨all, out, encoder, stage⟩ := story.wrote
  refine ⟨story.configured, ⟨all ++ [item], ?_, ?_, ?_⟩, story.once, story.early, story.live⟩
  · rw [wrote.out, ← List.append_assoc, out, encoder, wire_append]
  · rw [wrote.encoder, encoder, List.foldl_append]
  · have signal : [item].filter (fun m => !m.isControl) = [item] := by
      rw [List.filter_cons, other]
      rfl
    rw [List.filter_append, signal]
    show Stage config (ops ++ [op]) (ClientSession.heard trace) s.state s.streamId _
    rw [publishing] at stage ⊢
    generalize s.streamId = i at stage asked ⊢
    generalize all.filter _ = said at stage ⊢
    cases stage with
    | @publishing accept create start _ items accepts creates starts order calls =>
      have more : (items ++ [item]).Sublist ((ops ++ [op]).filterMap (Op.message i)) := by
        rw [List.filterMap_append]
        refine calls.append ?_
        rw [List.filterMap_cons, asked]
        exact .refl _
      have now : Stage config (ops ++ [op]) (ClientSession.heard trace) .publishing i _ :=
        .publishing accepts creates starts order more
      rw [List.append_nil] at now ⊢
      rw [List.append_assoc, List.cons_append]
      exact now
    | finished idle => rcases idle with idle | idle <;> contradiction

/-- The commands that end a publish, if it was asked for. -/
def endingOf (config : ClientConfig) (id : UInt32) : List Message :=
  if id = 0 then [] else [keyCommand "FCUnpublish" TX_UNPUBLISH config, deleteStreamCommand id]

private theorem endingOf_ends (config : ClientConfig) (id : UInt32) : Ending config id (endingOf config id) := by
  unfold endingOf
  split
  · exact .inl rfl
  · exact .inr rfl

theorem Stage.ended (stage : Stage config ops heard state id said) (running : ¬(state = .closed ∨ state = .failed)) :
    Talk config ops heard (said ++ endingOf config id) := by
  cases stage with
  | connecting => exact .calling
  | creating accepts order => exact .asking accepts order
  | pending accepts creates order => exact .requested accepts creates order (endingOf_ends ..)
  | @publishing accept create start _ items accepts creates starts order calls =>
    rw [List.append_nil, List.append_assoc, List.cons_append]
    exact .on accepts creates starts order calls (endingOf_ends ..)
  | finished idle => exact absurd idle.symm running

theorem Story.close (story : Story config ops s trace) : Story config (ops ++ [.close]) s.close trace := by
  unfold ClientSession.close
  split
  · exact story.longer .close
  · next running =>
    obtain ⟨all, out, encoder, stage⟩ := story.wrote
    have wrote : ∃ link, Wrote s.link link (endingOf config s.streamId) ∧
        link = if s.streamId = 0 then s.link
          else (s.link.write (keyCommand "FCUnpublish" TX_UNPUBLISH s.config)).write
            (deleteStreamCommand s.streamId) := by
      refine ⟨_, ?_, rfl⟩
      rw [← story.configured]
      unfold endingOf
      split
      · exact .refl _
      · exact (wrote_command _ _ _ s.link).trans (wrote_command ..)
    obtain ⟨link, wrote, same⟩ := wrote
    rw [← same]
    refine ⟨story.configured, ⟨all ++ endingOf config s.streamId, ?_, ?_, ?_⟩, story.once, ?_, ?_⟩
    · rw [wrote.out, ← List.append_assoc, out, encoder, wire_append]
    · rw [wrote.encoder, encoder, List.foldl_append]
    · have signals : (endingOf config s.streamId).filter (fun m => !m.isControl) = endingOf config s.streamId := by
        unfold endingOf
        split <;> rfl
      have talk := (stage.ended running).longer [.close] []
      rw [List.append_nil] at talk
      rw [List.filter_append, signals]
      exact .finished (.inr rfl) talk
    · intro never
      rcases never with never | never | never <;> contradiction
    · intro never
      contradiction

theorem Story.step (story : Story config ops s trace) (op : Op) :
    Story config (ops ++ [op]) (step s op).1 (trace ++ (ClientSession.step s op).2) := by
  cases op with
  | feed data => exact ((story.longer (.feed data)).pushed data).feedLoop _
  | sendMedia kind timestamp payload =>
    show Story config _ (s.sendMedia kind timestamp payload) (trace ++ [])
    rw [List.append_nil]
    unfold sendMedia
    split
    · exact story.longer _
    · next publishing =>
      have other : (mediaMessage s.streamId kind timestamp payload).isControl = false := by
        cases kind <;> rfl
      exact story.item (not_ne_iff.mp publishing) rfl other
  | sendData timestamp payload =>
    show Story config _ (s.sendData timestamp payload) (trace ++ [])
    rw [List.append_nil]
    unfold sendData
    split
    · exact story.longer _
    · next publishing => exact story.item (not_ne_iff.mp publishing) rfl rfl
  | close =>
    show Story config _ s.close (trace ++ [])
    rw [List.append_nil]
    exact story.close
  | takeOutput =>
    obtain ⟨all, out, encoder, stage⟩ := (story.longer .takeOutput).wrote
    have puts : put (trace ++ [.put s.link.out]) = put trace ++ s.link.out := by
      rw [put_append]
      exact congrArg (put trace ++ ·) (List.append_nil _)
    have hears : ClientSession.heard (trace ++ [.put s.link.out]) = ClientSession.heard trace := by
      rw [heard_append]
      exact List.append_nil _
    have raises : raised (trace ++ [.put s.link.out]) = raised trace := by
      rw [raised_append]
      exact List.append_nil _
    show Story config _ s.takeOutput.2 (trace ++ [.put s.link.out])
    refine ⟨story.configured, ⟨all, ?_, encoder, ?_⟩, ?_, ?_, ?_⟩
    · rw [puts]
      exact (List.append_nil _).trans out
    · rw [hears]
      exact stage
    · rw [raises]
      exact story.once
    · rw [raises]
      exact story.early
    · rw [raises]
      exact story.live

theorem Story.run (story : Story config ops s trace) (more : List Op) :
    Story config (ops ++ more) (Machine.after ClientSession.step s more)
      (trace ++ Machine.outputs ClientSession.step s more) := by
  induction more generalizing ops s trace with
  | nil =>
    rw [Machine.outputs_nil, List.append_nil, List.append_nil]
    exact story
  | cons op rest ih =>
    have later := ih (story.step op)
    rw [List.append_assoc, List.append_assoc] at later
    exact later

theorem story_new (config : ClientConfig) : Story config [] (new config) [] := by
  have wrote := (Wrote.setOutChunkSize config.chunkSize (ServerSession.limit MAX_SERVER_MESSAGE
    MAX_SERVER_MESSAGE (.new 2500000))).trans (wrote_command CSID_COMMAND 0
      [.string "connect", .number TX_CONNECT, .object (connectProps config)] _)
  refine ⟨rfl, ⟨_, wrote.out, wrote.encoder, ?_⟩, Nat.zero_le 1, fun _ => rfl, fun never => by contradiction⟩
  exact .connecting

/-- Whatever the server sends and the application asks for, in any order and any pieces: what a client has put out is
the chunks of a list of messages, of which those that are not control messages are its connect, and then no more than
what the messages it has handled by then allow. It announces one start of the publish at most, and has announced it
while it is publishing. -/
theorem client_order (config : ClientConfig) (ops : List Op) :
    let trace := Machine.outputs step (new config) ops
    let s := Machine.after step (new config) ops
    (∃ log, put trace ++ s.link.out = wire .new log ∧
      Talk config ops (ClientSession.heard trace) (log.filter fun m => !m.isControl)) ∧
      (raised trace).count .publishing ≤ 1 ∧
      (s.state = .publishing → .publishing ∈ raised trace) := by
  intro trace s
  have story := (story_new config).run ops
  rw [List.nil_append, List.nil_append] at story
  obtain ⟨log, out, -, stage⟩ := story.wrote
  refine ⟨⟨log, out, stage.talk⟩, story.once, fun publishing => ?_⟩
  exact List.count_pos_iff.mp (Nat.lt_of_lt_of_eq Nat.one_pos (story.live publishing).symm)

end StreamDelay.Rtmp.ClientSession
