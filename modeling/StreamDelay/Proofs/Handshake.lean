import Mathlib.Tactic.Common
import StreamDelay.Proofs.Commands
import StreamDelay.Rtmp.Duplex

/-! # From the connect to the media

What is between the two sides in each state of theirs, up to the media of an accepted publish.
-/

namespace StreamDelay.Rtmp

open Foundations

/-- A payload of an audio or video message that the format can carry. -/
def Media.Sized (media : Media) : Prop := 1 ≤ media.payload.length ∧ media.payload.length < 2 ^ 24

/-- A configuration whose commands the format can carry, and whose chunk size is allowed. -/
structure ClientConfig.Carriable (config : ClientConfig) : Prop where
  range : 1 ≤ config.chunkSize.toNat ∧ config.chunkSize.toNat ≤ MAX_CHUNK_SIZE
  connect : (ClientSession.connectCommand config).payload.length < 2 ^ 24
  release : (ClientSession.keyCommand "releaseStream" TX_RELEASE config).payload.length < 2 ^ 24
  fcPublish : (ClientSession.keyCommand "FCPublish" TX_FCPUBLISH config).payload.length < 2 ^ 24
  publish : (ClientSession.publishCommand 1 config).payload.length < 2 ^ 24

/-- The message of a media message on a stream. -/
def streamed (item : UInt32 × Media) : Message :=
  ClientSession.mediaMessage item.1 item.2.kind item.2.timestamp item.2.payload

/-- The commands about the stream, each with its answers. -/
def dialogue (config : ClientConfig) : List (Message × List Message) :=
  [(ClientSession.keyCommand "releaseStream" TX_RELEASE config, [resultMessage TX_RELEASE [.null, .undefined]]),
    (ClientSession.keyCommand "FCPublish" TX_FCPUBLISH config,
      [fcPublishStatus config.streamKey, resultMessage TX_FCPUBLISH [.null, .undefined]]),
    (ClientSession.createStreamCommand, [resultMessage TX_CREATE [.null, one]])]

/-- The states of the two sides, the messages besides control messages that are on the way up and down,
and the media among them. -/
inductive Phase (config : ClientConfig) :
    ClientState → ServerState → List Message → List Message → List Media → Prop
  | calling : Phase config .connecting .awaitConnect [ClientSession.connectCommand config] [] []
  | answered (encoding : UInt64) : Phase config .connecting .connected [] [connectResult encoding] []
  /-- The server has yet to answer some of the commands, and the client to see some of the answers. -/
  | creating {waiting : List (Message × List Message)} {replies : List Message}
      (left : waiting <:+ dialogue config)
      (unseen : replies ++ waiting.flatMap Prod.snd <:+ (dialogue config).flatMap Prod.snd)
      (more : replies ++ waiting.flatMap Prod.snd ≠ [])
      (short : waiting = dialogue config ∨ Amf0.Short config.streamKey) :
      Phase config .creatingStream .connected (waiting.map Prod.fst) replies []
  | asked : Phase config .publishPending .connected [ClientSession.publishCommand 1 config] [] []
  | pending : Phase config .publishPending .publishPending [] [] []
  | accepted : Phase config .publishPending .publishing [] [publishStart config.app] []
  | on {items : List (UInt32 × Media)} (sized : ∀ item ∈ items, item.2.Sized) :
      Phase config .publishing .publishing (items.map streamed) [] (items.map Prod.snd)

/-- The two sides, with what has been written by each and not handled by the other. -/
structure Joined (config : ClientConfig) (c : ClientSession) (s : ServerSession) (up down : List Message)
    (media : List Media) : Prop where
  phase : ∃ signals answers, Carries up signals ∧ Carries down answers ∧
    Phase config c.state s.state signals answers media
  same : c.config = config
  range : 1 ≤ s.config.chunkSize.toNat ∧ s.config.chunkSize.toNat ≤ MAX_CHUNK_SIZE
  /-- The application is that of a connect the server has handled. -/
  app : s.state ≠ .awaitConnect →
    s.app = config.app ∧ (utf8 config.app).length + 28 ≤ MAX_PRE_PUBLISH_MESSAGE
  before : s.state ≠ .publishing → s.link.decoder.Within MAX_PRE_PUBLISH_MESSAGE
  after : s.state = .publishing →
    s.link.decoder.maxMediaLen = USIZE_MAX ∧ s.link.decoder.maxOtherLen = MAX_NON_MEDIA_MESSAGE
  client : c.link.decoder.maxMediaLen = MAX_SERVER_MESSAGE ∧ c.link.decoder.maxOtherLen = MAX_SERVER_MESSAGE

/-! ## Every message can be carried -/

theorem streamed_fair {item : UInt32 × Media} (sized : item.2.Sized) : (streamed item).Fair sessionIds := by
  obtain ⟨id, kind, timestamp, payload⟩ := item
  have short : payload.length < 2 ^ 24 := sized.2
  cases kind with
  | audio => exact ⟨(by decide : CSID_AUDIO ∈ sessionIds), (by decide : 2 ≤ CSID_AUDIO ∧ CSID_AUDIO ≤ 65599), short⟩
  | video => exact ⟨(by decide : CSID_VIDEO ∈ sessionIds), (by decide : 2 ≤ CSID_VIDEO ∧ CSID_VIDEO ≤ 65599), short⟩

theorem streamed_other (item : UInt32 × Media) :
    (streamed item).isControl = false ∧ (streamed item).typeId ≠ SET_CHUNK_SIZE := by
  unfold streamed ClientSession.mediaMessage
  cases item.2.kind with
  | audio => exact ⟨rfl, show AUDIO ≠ SET_CHUNK_SIZE by decide⟩
  | video => exact ⟨rfl, show VIDEO ≠ SET_CHUNK_SIZE by decide⟩

private theorem connectResult_fair (encoding : UInt64) : (connectResult encoding).Fair sessionIds := by
  refine command_fair (by decide) ?_
  have length : (Amf0.encodeAll [.string "_result", .number TX_CONNECT,
      .object [("fmsVer", .string "FMS/3,0,1,123"), ("capabilities", thirtyOne)],
      .object [("level", .string "status"), ("code", .string "NetConnection.Connect.Success"),
        ("description", .string "Connection succeeded."), ("objectEncoding", .number encoding)]]).length =
      190 := rfl
  rw [length]
  decide

theorem connectReplies_carries {config : ServerConfig}
    (range : 1 ≤ config.chunkSize.toNat ∧ config.chunkSize.toNat ≤ MAX_CHUNK_SIZE) (encoding : UInt64) :
    Carries (connectReplies config encoding) [connectResult encoding] := by
  have control : Carries [.u32Control WINDOW_ACK_SIZE config.windowAckSize, .peerBandwidth config.peerBandwidth 2,
      .u32Control SET_CHUNK_SIZE config.chunkSize] [] := by
    refine .of_tame fun m member => ?_
    simp only [List.mem_cons, List.not_mem_nil, or_false] at member
    rcases member with rfl | rfl | rfl
    · exact Message.tame_u32Control rfl (by decide) (by decide) _
    · exact Message.tame_peerBandwidth ..
    · exact Message.tame_setChunkSize range
  exact control.append (.of_signals fun m member => by rw [List.mem_singleton.mp member]; rfl)

private theorem connectReplies_fair {config : ServerConfig}
    (range : 1 ≤ config.chunkSize.toNat ∧ config.chunkSize.toNat ≤ MAX_CHUNK_SIZE) (encoding : UInt64) :
    ∀ m ∈ connectReplies config encoding, m.Fair sessionIds := by
  intro m member
  have carries := connectReplies_carries range encoding
  cases control : m.isControl with
  | true => exact (carries.tame m member control).fair
  | false =>
    have signal : m ∈ (connectReplies config encoding).filter fun m => !m.isControl := by
      rw [List.mem_filter, control]
      exact ⟨member, rfl⟩
    rw [carries.signals] at signal
    rw [List.mem_singleton.mp signal]
    exact connectResult_fair encoding

private theorem asks_fair {config : ClientConfig} (carriable : config.Carriable) :
    ∀ m ∈ asks config, m.Fair sessionIds := by
  intro m member
  simp only [asks, List.mem_cons, List.not_mem_nil, or_false] at member
  rcases member with rfl | rfl | rfl
  · exact command_fair (by decide) carriable.release
  · exact command_fair (by decide) carriable.fcPublish
  · exact command_fair (by decide) (by decide)

private theorem answers_fair {config : ClientConfig} (short : Amf0.Short config.streamKey)
    {turn : Message × List Message} (member : turn ∈ dialogue config) :
    ∀ m ∈ turn.2, m.Fair sessionIds := by
  intro m answer
  simp only [dialogue, List.mem_cons, List.not_mem_nil, or_false] at member
  rcases member with rfl | rfl | rfl
  · rw [List.mem_singleton.mp answer]
    exact command_fair (by decide) (by decide)
  · rcases List.mem_cons.mp answer with rfl | last
    · exact fcPublishStatus_fair short
    · rw [List.mem_singleton.mp last]
      exact command_fair (by decide) (by decide)
  · rw [List.mem_singleton.mp answer]
    exact command_fair (by decide) (by decide)

private theorem answers_carries {config : ClientConfig} {turn : Message × List Message}
    (member : turn ∈ dialogue config) : Carries turn.2 turn.2 := by
  refine .of_signals fun m answer => ?_
  simp only [dialogue, List.mem_cons, List.not_mem_nil, or_false] at member
  rcases member with rfl | rfl | rfl
  · rw [List.mem_singleton.mp answer]
    rfl
  · rcases List.mem_cons.mp answer with rfl | last
    · rfl
    · rw [List.mem_singleton.mp last]
      rfl
  · rw [List.mem_singleton.mp answer]
    rfl

private theorem answers_some {config : ClientConfig} {turn : Message × List Message}
    (member : turn ∈ dialogue config) : turn.2 ≠ [] := by
  simp only [dialogue, List.mem_cons, List.not_mem_nil, or_false] at member
  rcases member with rfl | rfl | rfl <;> exact List.cons_ne_nil _ _

/-- The media of the events of a server. -/
def heard (events : List ServerEvent) : List Media := Duplex.delivered (events.map .reported)

/-- The answer to the last command is the last, and no other is. -/
theorem answer_cases {config : ClientConfig} {m : Message} {rest : List Message}
    (unseen : m :: rest <:+ (dialogue config).flatMap Prod.snd) :
    m = resultMessage TX_CREATE [.null, one] ∧ rest = [] ∨
      rest ≠ [] ∧ (m = resultMessage TX_RELEASE [.null, .undefined] ∨ m = fcPublishStatus config.streamKey ∨
        m = resultMessage TX_FCPUBLISH [.null, .undefined]) := by
  simp only [dialogue, List.flatMap_cons, List.flatMap_nil, List.append_nil, List.cons_append,
    List.nil_append, List.suffix_cons_iff, List.cons.injEq, List.suffix_nil] at unseen
  rcases unseen with ⟨rfl, rfl⟩ | ⟨rfl, rfl⟩ | ⟨rfl, rfl⟩ | ⟨rfl, rfl⟩ | none
  · exact .inr ⟨List.cons_ne_nil _ _, .inl rfl⟩
  · exact .inr ⟨List.cons_ne_nil _ _, .inr (.inl rfl)⟩
  · exact .inr ⟨List.cons_ne_nil _ _, .inr (.inr rfl)⟩
  · exact .inl ⟨rfl, rfl⟩
  · contradiction

/-- The client passes over an answer that is not the last. -/
theorem client_answered {config : ClientConfig} {m : Message} (short : Amf0.Short config.streamKey)
    (answer : m = resultMessage TX_RELEASE [.null, .undefined] ∨ m = fcPublishStatus config.streamKey ∨
      m = resultMessage TX_FCPUBLISH [.null, .undefined]) (c : ClientSession) : c.handle m = .ok (c, []) := by
  rcases answer with rfl | rfl | rfl
  · exact client_passes (.null (.undefined .nil)) (by decide) (by decide)
  · exact client_fcPublish short c
  · exact client_passes (.null (.undefined .nil)) (by decide) (by decide)

/-! ## The server -/

theorem short_key {csid : ℕ} {streamId : UInt32} {values : List Amf0Value} {key : String}
    (small : (Message.command csid streamId values).payload.length ≤ MAX_PRE_PUBLISH_MESSAGE)
    (member : Amf0Value.string key ∈ values) : Amf0.Short key := by
  have room := short_of_command small member
  unfold Amf0.Short
  unfold MAX_PRE_PUBLISH_MESSAGE at room
  omega

/-- The server answers a command about the stream. -/
theorem server_answers {config : ClientConfig} (short : Amf0.Short config.streamKey)
    {turn : Message × List Message} (member : turn ∈ dialogue config) (s : ServerSession) :
    ∃ s', s.handle turn.1 = .ok (s', []) ∧ s'.state = s.state ∧ s'.app = s.app ∧ Handled s s' turn.2 := by
  simp only [dialogue, List.mem_cons, List.not_mem_nil, or_false] at member
  rcases member with rfl | rfl | rfl
  · exact server_releaseStream config short s
  · exact server_fcPublish config short s
  · exact server_createStream s

theorem server_media {s : ServerSession} (publishing : s.state = .publishing) {item : UInt32 × Media}
    (sized : item.2.Sized) :
    s.handle (streamed item) = .ok (s, [.media item.2.kind item.2.timestamp item.2.payload]) := by
  obtain ⟨id, kind, timestamp, payload⟩ := item
  have some : payload ≠ [] := by
    rintro rfl
    exact absurd sized.1 (show ¬ 1 ≤ 0 by decide)
  unfold ServerSession.handle streamed ClientSession.mediaMessage
  cases kind with
  | audio =>
    rw [handleControl_other rfl]
    dsimp only
    rw [if_neg (by decide), if_neg (by decide), if_pos ⟨.inl rfl, publishing⟩, ServerSession.handleMedia,
      if_neg some]
    rfl
  | video =>
    rw [handleControl_other rfl]
    dsimp only
    rw [if_neg (by decide), if_neg (by decide), if_pos ⟨.inr rfl, publishing⟩, ServerSession.handleMedia,
      if_neg some]
    rfl

/-- What a side makes of a message: what it writes, and how its decoder goes on. -/
structure Took (e : ChunkEncoder) (m : Message) (l l' : Link) (written : List Message) : Prop where
  wrote : Wrote l l' written
  fair : ∀ w ∈ written, w.Fair sessionIds
  decoder : l'.decoder = { l.decoder with chunkSize := (e.after m).chunkSize }

theorem Took.of_same {e : ChunkEncoder} {m : Message} {l l' : Link} {written : List Message}
    (inForce : l.decoder.chunkSize = e.chunkSize) (other : m.isControl = false) (wrote : Wrote l l' written)
    (fair : ∀ w ∈ written, w.Fair sessionIds) (same : l'.decoder = l.decoder) : Took e m l l' written := by
  refine ⟨wrote, fair, ?_⟩
  have kept : m.typeId ≠ SET_CHUNK_SIZE := by
    rintro sizes
    rw [Message.isControl, sizes] at other
    contradiction
  rw [same, ChunkEncoder.after, if_neg kept, ← inForce]

theorem Took.of_controlled {e : ChunkEncoder} {m : Message} {l l' : Link} {replies : List Message}
    (inForce : l.decoder.chunkSize = e.chunkSize) (controlled : Controlled l m l' replies) :
    Took e m l l' replies :=
  ⟨controlled.wrote, fun w member => (controlled.tame w member).fair, controlled.tuned e inForce⟩

theorem Took.keeps {e : ChunkEncoder} {m : Message} {l l' : Link} {written : List Message}
    (took : Took e m l l' written) : l.decoder.Keeps l'.decoder := by
  rw [took.decoder]
  exact .chunkSize ..

namespace Joined

variable {config : ClientConfig} {c c' : ClientSession} {s s' : ServerSession} {m : Message}
  {up up' down down' : List Message} {media media' : List Media} {e : ChunkEncoder}

/-- The server goes on: what is on the way and its state may change, unless it is publishing. -/
theorem served (joined : Joined config c s up down media)
    (phase : ∃ signals answers, Carries up' signals ∧ Carries down' answers ∧
      Phase config c.state s'.state signals answers media')
    (same : s'.config = s.config) (live : s'.state = .publishing ↔ s.state = .publishing)
    (app : s'.state ≠ .awaitConnect →
      s'.app = config.app ∧ (utf8 config.app).length + 28 ≤ MAX_PRE_PUBLISH_MESSAGE)
    (keeps : s.link.decoder.Keeps s'.link.decoder) : Joined config c s' up' down' media' where
  phase := phase
  same := joined.same
  range := by
    rw [same]
    exact joined.range
  app := app
  before := by
    intro idle
    exact keeps.within (joined.before fun publishing => idle (live.mpr publishing))
  after := by
    intro publishing
    rw [keeps.limits.1, keeps.limits.2]
    exact joined.after (live.mp publishing)
  client := joined.client

/-- The server handles the next message: what it answers is on the way down, and the media event is that
of the first media message on the way up. -/
theorem server_handles (joined : Joined config c s (m :: up) down media)
    (small : s.state ≠ .publishing → m.payload.length ≤ MAX_PRE_PUBLISH_MESSAGE)
    (inForce : s.link.decoder.chunkSize = e.chunkSize) {events : List ServerEvent}
    (handled : s.handle m = .ok (s', events)) :
    ∃ replies rest, Took e m s.link s'.link replies ∧ Joined config c s' up (down ++ replies) rest ∧
      media = heard events ++ rest := by
  obtain ⟨signals, answers, ups, downs, phase⟩ := joined.phase
  rcases ups.head with ⟨tame, later⟩ | ⟨other, signals, rfl, later⟩
  · obtain ⟨l, replies, read, controlled⟩ := handleControl_tame tame s.link
    have took := Took.of_controlled inForce controlled
    unfold ServerSession.handle at handled
    rw [read] at handled
    obtain ⟨rfl, rfl⟩ := Prod.mk.inj (Except.ok.inj handled)
    have downs := downs.append (.of_tame controlled.tame)
    rw [List.append_nil] at downs
    exact ⟨replies, media, took, joined.served ⟨signals, answers, later, downs, phase⟩ rfl Iff.rfl joined.app
      took.keeps, rfl⟩
  · generalize client : c.state = cs at phase
    generalize server : s.state = ss at phase
    generalize given : m :: signals = all at phase
    cases phase with
    | calling =>
      obtain ⟨rfl, rfl⟩ := List.cons.inj given
      have room := short_app (small (by rw [server]; decide))
      have short : Amf0.Short config.app := by
        unfold Amf0.Short MAX_PRE_PUBLISH_MESSAGE at *
        omega
      obtain ⟨connected, app, ⟨tcUrl, props, rfl⟩, encoding, done⟩ := server_connect short server handled
      have took := Took.of_same inForce other done.wrote (connectReplies_fair joined.range encoding)
        done.decoder
      have downs := downs.append (connectReplies_carries joined.range encoding)
      refine ⟨_, [], took, ?_, rfl⟩
      refine joined.served ⟨[], _, later, downs, ?_⟩ done.config ?_ (fun _ => ⟨app, room⟩) took.keeps
      · rw [client, connected]
        exact .answered encoding
      · rw [connected, server]
        decide
    | answered => contradiction
    | @creating waiting replies left unseen more short =>
      cases waiting with
      | nil => contradiction
      | cons turn waiting =>
        obtain ⟨rfl, rfl⟩ := List.cons.inj given
        have member : turn ∈ dialogue config := left.subset (List.mem_cons_self ..)
        have short : Amf0.Short config.streamKey := by
          refine short.elim (fun whole => ?_) id
          obtain ⟨rfl, -⟩ := List.cons.inj whole
          exact short_key (small (by rw [server]; decide)) (.tail _ (.tail _ (.tail _ (.head _))))
        obtain ⟨s'', answered, state, app, done⟩ := server_answers short member s
        obtain ⟨rfl, rfl⟩ := Prod.mk.inj (Except.ok.inj (answered.symm.trans handled))
        have took := Took.of_same inForce other done.wrote (answers_fair short member) done.decoder
        have downs := downs.append (answers_carries member)
        rw [List.flatMap_cons, ← List.append_assoc] at unseen more
        refine ⟨_, [], took, ?_, rfl⟩
        refine joined.served ⟨_, _, later, downs, ?_⟩ done.config (by rw [state]) ?_ took.keeps
        · rw [client, state, server]
          exact .creating ((List.suffix_cons ..).trans left) unseen more (.inr short)
        · rw [state, app]
          exact joined.app
    | asked =>
      obtain ⟨rfl, rfl⟩ := List.cons.inj given
      have short : Amf0.Short config.streamKey :=
        short_key (small (by rw [server]; decide)) (.tail _ (.tail _ (.tail _ (.head _))))
      obtain ⟨s'', event, asked, rfl, state, app, done⟩ := server_publish config 1 short server
      obtain ⟨rfl, rfl⟩ := Prod.mk.inj (Except.ok.inj (asked.symm.trans handled))
      have took := Took.of_same inForce other done.wrote (fun _ none => absurd none List.not_mem_nil)
        done.decoder
      refine ⟨_, [], took, ?_, rfl⟩
      refine joined.served ⟨_, _, later, downs.append .nil, ?_⟩ done.config ?_ ?_ took.keeps
      · rw [client, state]
        exact .pending
      · rw [state, server]
        decide
      · rw [app]
        exact fun _ => joined.app (by rw [server]; decide)
    | pending => contradiction
    | accepted => contradiction
    | @on items sized =>
      cases items with
      | nil => contradiction
      | cons item items =>
        obtain ⟨rfl, rfl⟩ := List.cons.inj given
        have first := sized item (List.mem_cons_self ..)
        obtain ⟨rfl, rfl⟩ := Prod.mk.inj (Except.ok.inj ((server_media server first).symm.trans handled))
        have took := Took.of_same inForce other (.refl s.link)
          (fun _ none => absurd none List.not_mem_nil) rfl
        refine ⟨[], items.map Prod.snd, took, ?_, rfl⟩
        refine joined.served ⟨_, _, later, downs.append .nil, ?_⟩ rfl Iff.rfl joined.app took.keeps
        rw [client, server]
        exact .on fun item member => sized item (List.mem_cons_of_mem _ member)

/-- The client goes on: what is on the way and its state may change. -/
theorem asked (joined : Joined config c s up down media)
    (phase : ∃ signals answers, Carries up' signals ∧ Carries down' answers ∧
      Phase config c'.state s.state signals answers media')
    (same : c'.config = c.config) (keeps : c.link.decoder.Keeps c'.link.decoder) :
    Joined config c' s up' down' media' where
  phase := phase
  same := same.trans joined.same
  range := joined.range
  app := joined.app
  before := joined.before
  after := joined.after
  client := by
    rw [keeps.limits.1, keeps.limits.2]
    exact joined.client

/-- The client handles the next message: what it writes is on the way up. -/
theorem client_handles (joined : Joined config c s up (m :: down) media) (carriable : config.Carriable)
    (inForce : c.link.decoder.chunkSize = e.chunkSize) {events : List ClientEvent}
    (handled : c.handle m = .ok (c', events)) :
    ∃ written, Took e m c.link c'.link written ∧ Joined config c' s (up ++ written) down media ∧
      (c.state = .publishing → c'.state = .publishing) := by
  obtain ⟨signals, answers, ups, downs, phase⟩ := joined.phase
  have nothing : ∀ w ∈ ([] : List Message), w.Fair sessionIds := fun _ none => absurd none List.not_mem_nil
  rcases downs.head with ⟨tame, later⟩ | ⟨other, answers, rfl, later⟩
  · obtain ⟨l, replies, read, controlled⟩ := handleControl_tame tame c.link
    have took := Took.of_controlled inForce controlled
    unfold ClientSession.handle at handled
    rw [read] at handled
    obtain ⟨rfl, rfl⟩ := Prod.mk.inj (Except.ok.inj handled)
    have ups := ups.append (.of_tame controlled.tame)
    rw [List.append_nil] at ups
    exact ⟨replies, took, joined.asked ⟨signals, answers, ups, later, phase⟩ rfl took.keeps, id⟩
  · generalize client : c.state = cs at phase
    generalize server : s.state = ss at phase
    generalize given : m :: answers = all at phase
    cases phase with
    | calling => contradiction
    | answered encoding =>
      obtain ⟨rfl, rfl⟩ := List.cons.inj given
      obtain ⟨c'', connected, state, done⟩ := client_connected client encoding
      obtain ⟨rfl, rfl⟩ := Prod.mk.inj (Except.ok.inj (connected.symm.trans handled))
      have wrote := done.wrote
      rw [joined.same] at wrote
      have took := Took.of_same inForce other wrote (asks_fair carriable) done.decoder
      have asked : Carries (asks config) (asks config) := .of_signals fun m member => by
        simp only [asks, List.mem_cons, List.not_mem_nil, or_false] at member
        rcases member with rfl | rfl | rfl <;> rfl
      have ups := ups.append asked
      refine ⟨_, took, ?_, nofun⟩
      refine joined.asked ⟨_, _, ups, later, ?_⟩ done.config took.keeps
      rw [state, server]
      have start : (dialogue config).flatMap Prod.snd ≠ [] := List.cons_ne_nil _ _
      exact .creating List.suffix_rfl List.suffix_rfl start (.inl rfl)
    | @creating waiting replies left unseen more short =>
      subst given
      rcases answer_cases unseen with ⟨rfl, last⟩ | ⟨later', answer⟩
      · obtain ⟨rfl, served⟩ := List.append_eq_nil_iff.mp last
        have none : waiting = [] := by
          cases waiting with
          | nil => rfl
          | cons turn waiting =>
            have member : turn ∈ dialogue config := left.subset (List.mem_cons_self ..)
            exact absurd (List.append_eq_nil_iff.mp served).1 (answers_some member)
        subst none
        obtain ⟨c'', created, state, done⟩ := client_created client
        obtain ⟨rfl, rfl⟩ := Prod.mk.inj (Except.ok.inj (created.symm.trans handled))
        have wrote := done.wrote
        rw [joined.same] at wrote
        have publish : ∀ w ∈ [ClientSession.publishCommand 1 config], w.Fair sessionIds := fun w member => by
          rw [List.mem_singleton.mp member]
          exact command_fair (by decide) carriable.publish
        have took := Took.of_same inForce other wrote publish done.decoder
        have asked : Carries [ClientSession.publishCommand 1 config] [ClientSession.publishCommand 1 config] :=
          .of_signals fun m member => by rw [List.mem_singleton.mp member]; rfl
        have ups := ups.append asked
        refine ⟨_, took, ?_, nofun⟩
        refine joined.asked ⟨_, _, ups, later, ?_⟩ done.config took.keeps
        rw [state, server]
        exact .asked
      · have short : Amf0.Short config.streamKey := by
          refine short.resolve_left fun whole => ?_
          have length := unseen.length_le
          rw [whole, List.length_append, List.length_cons] at length
          omega
        obtain ⟨rfl, rfl⟩ := Prod.mk.inj (Except.ok.inj ((client_answered short answer c).symm.trans handled))
        have took := Took.of_same inForce other (.refl c.link) nothing rfl
        refine ⟨_, took, ?_, nofun⟩
        refine joined.asked ⟨_, _, ups.append .nil, later, ?_⟩ rfl took.keeps
        rw [client, server, List.append_nil]
        exact .creating left ((List.suffix_cons ..).trans unseen) later' (.inr short)
    | asked => contradiction
    | pending => contradiction
    | accepted =>
      obtain ⟨rfl, rfl⟩ := List.cons.inj given
      have room := (joined.app (by rw [server]; decide)).2
      obtain ⟨c'', published, state, done⟩ := client_published room client
      obtain ⟨rfl, rfl⟩ := Prod.mk.inj (Except.ok.inj (published.symm.trans handled))
      have took := Took.of_same inForce other done.wrote nothing done.decoder
      refine ⟨_, took, ?_, fun _ => state⟩
      refine joined.asked ⟨_, _, ups.append .nil, later, ?_⟩ done.config took.keeps
      rw [state, server]
      have none : ∀ item ∈ ([] : List (UInt32 × Media)), item.2.Sized := fun _ none => absurd none List.not_mem_nil
      exact .on none
    | on => contradiction

/-- Where nothing is on the way up, no media is. -/
theorem none_waiting (joined : Joined config c s [] down media) : media = [] := by
  obtain ⟨signals, answers, ups, downs, phase⟩ := joined.phase
  have none : signals = [] := ups.signals.symm
  generalize c.state = cs at phase
  generalize s.state = ss at phase
  cases phase with
  | @on items sized =>
    rw [List.map_eq_nil_iff.mp none]
    rfl
  | _ => rfl

/-! ## Once the client is publishing -/

/-- What is on the way up then. -/
theorem on_air (joined : Joined config c s up down media) (publishing : c.state = .publishing) :
    s.state = .publishing ∧ Carries down [] ∧ ∃ items : List (UInt32 × Media),
      (∀ item ∈ items, item.2.Sized) ∧ Carries up (items.map streamed) ∧ media = items.map Prod.snd := by
  obtain ⟨signals, answers, ups, downs, phase⟩ := joined.phase
  rw [publishing] at phase
  generalize server : s.state = ss at phase
  cases phase with
  | @on items sized => exact ⟨rfl, downs, items, sized, ups, rfl⟩

/-- The server takes every message then. -/
theorem server_takes (joined : Joined config c s (m :: up) down media) (publishing : c.state = .publishing) :
    m.payload.length ≤ s.link.decoder.maxLen m.typeId ∧ ∃ result, s.handle m = .ok result := by
  obtain ⟨server, -, items, sized, ups, -⟩ := joined.on_air publishing
  obtain ⟨mediaLimit, otherLimit⟩ := joined.after server
  rcases ups.head with ⟨tame, -⟩ | ⟨-, rest, taken, -⟩
  · obtain ⟨l, replies, read, -⟩ := handleControl_tame tame s.link
    have short := tame.short.2
    constructor
    · unfold ChunkDecoder.maxLen
      split
      · rw [mediaLimit, USIZE_MAX]
        omega
      · rw [otherLimit, MAX_NON_MEDIA_MESSAGE]
        omega
    · unfold ServerSession.handle
      rw [read]
      exact ⟨_, rfl⟩
  · cases items with
    | nil => contradiction
    | cons item items =>
      obtain ⟨rfl, rfl⟩ := List.cons.inj taken
      have first := sized item (List.mem_cons_self ..)
      refine ⟨?_, _, server_media server first⟩
      have isMedia : (streamed item).typeId = AUDIO ∨ (streamed item).typeId = VIDEO := by
        unfold streamed ClientSession.mediaMessage
        cases item.2.kind with
        | audio => exact .inl rfl
        | video => exact .inr rfl
      have length : (streamed item).payload.length < 2 ^ 24 := (streamed_fair first).short
      unfold ChunkDecoder.maxLen
      rw [if_pos isMedia, mediaLimit, USIZE_MAX]
      omega

/-- The client takes every message then: they are control messages. -/
theorem client_takes (joined : Joined config c s up (m :: down) media) (publishing : c.state = .publishing) :
    m.payload.length ≤ c.link.decoder.maxLen m.typeId ∧ ∃ result, c.handle m = .ok result := by
  obtain ⟨-, downs, -⟩ := joined.on_air publishing
  obtain ⟨mediaLimit, otherLimit⟩ := joined.client
  rcases downs.head with ⟨tame, -⟩ | ⟨-, rest, taken, -⟩
  · obtain ⟨l, replies, read, -⟩ := handleControl_tame tame c.link
    have short := tame.short.2
    constructor
    · unfold ChunkDecoder.maxLen
      split
      · rw [mediaLimit, MAX_SERVER_MESSAGE]
        omega
      · rw [otherLimit, MAX_SERVER_MESSAGE]
        omega
    · unfold ClientSession.handle
      rw [read]
      exact ⟨_, rfl⟩
  · contradiction

end Joined

end StreamDelay.Rtmp
