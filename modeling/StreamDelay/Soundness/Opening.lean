import Mathlib.Tactic.Common
import StreamDelay.Soundness.MediaTransport

/-! # A publish goes through

A client and a server session connected by two byte streams, whatever is done at either end and however the streams
are cut up: no call fails, the server reports one connect and one publish request, with what the client was asked to
publish, and the two never wait for each other.
-/

namespace StreamDelay.Rtmp

open Foundations

/-- A configuration whose commands a server takes before the publish, and whose `connect` has properties that can be
written and read back. -/
structure ClientConfig.Fits (config : ClientConfig) : Prop where
  range : 1 ≤ config.chunkSize.toNat ∧ config.chunkSize.toNat ≤ MAX_CHUNK_SIZE
  connect : (ClientSession.connectCommand config).payload.length ≤ MAX_PRE_PUBLISH_MESSAGE
  readable : Amf0.depth (.object (ClientSession.connectProps config)) ≤ MAX_DEPTH ∧
    Amf0.Fits (.object (ClientSession.connectProps config))
  release : (ClientSession.keyCommand "releaseStream" TX_RELEASE config).payload.length ≤ MAX_PRE_PUBLISH_MESSAGE
  fcPublish : (ClientSession.keyCommand "FCPublish" TX_FCPUBLISH config).payload.length ≤ MAX_PRE_PUBLISH_MESSAGE
  publish : (ClientSession.publishCommand 1 config).payload.length ≤ MAX_PRE_PUBLISH_MESSAGE

theorem ClientConfig.Fits.carriable {config : ClientConfig} (fits : config.Fits) : config.Carriable := by
  have small {n : ℕ} (within : n ≤ MAX_PRE_PUBLISH_MESSAGE) : n < 2 ^ 24 := Nat.lt_of_le_of_lt within (by decide)
  exact ⟨fits.range, small fits.connect, small fits.release, small fits.fcPublish, small fits.publish⟩

theorem ClientConfig.Fits.short_key {config : ClientConfig} (fits : config.Fits) : Amf0.Short config.streamKey :=
  Rtmp.short_key fits.release (.tail _ (.tail _ (.tail _ (.head _))))

namespace Duplex

/-- What a server reports besides media. -/
def requests (events : List ServerEvent) : List ServerEvent :=
  events.filter fun
    | .media .. => false
    | _ => true

private theorem requests_append (first second : List ServerEvent) :
    requests (first ++ second) = requests first ++ requests second :=
  List.filter_append ..

/-- The connect as the client was asked for it. -/
def connectEvent (config : ClientConfig) : ServerEvent :=
  .connect config.app (some config.tcUrl) (ClientSession.connectProps config)

/-- The connect and the publish as the client was asked for them. -/
def asked (config : ClientConfig) : List ServerEvent :=
  [connectEvent config, .publishRequest config.app config.streamKey]

/-- What a server has reported in each of its states. -/
def expected (config : ClientConfig) : ServerState → List ServerEvent
  | .awaitConnect => []
  | .connected => [connectEvent config]
  | .publishPending | .publishing | .closed => asked config

variable {config : ClientConfig} {c : ClientSession} {s : ServerSession} {media waiting : List Media}
  {up down : List Message} {m : Message}

/-- What a message makes the server report. -/
def Reports (config : ClientConfig) (s s' : ServerSession) (events : List ServerEvent) : Prop :=
  expected config s.state ++ requests events = expected config s'.state

theorem Reports.none {s' : ServerSession} (same : s'.state = s.state) : Reports config s s' [] := by
  unfold Reports
  rw [same]
  exact List.append_nil _

private theorem joined_small (joined : Joined config c s up down media) (idle : s.state ≠ .publishing)
    (short : m.payload.length ≤ MAX_PRE_PUBLISH_MESSAGE) : m.payload.length ≤ s.link.decoder.maxLen m.typeId := by
  rw [(joined.before idle).maxLen]
  exact short

private theorem connect_decoded (fits : config.Fits) : Amf0.decodeAll (ClientSession.connectCommand config).payload =
    .ok [.string "connect", .number TX_CONNECT, .object (ClientSession.connectProps config)] := by
  refine Amf0.decodeLoop_encode _ (Nat.le_refl _) fun v member => ?_
  simp only [List.mem_cons, List.not_mem_nil, or_false] at member
  rcases member with rfl | rfl | rfl
  · exact ⟨Nat.zero_le _, (by decide : Amf0.Short "connect")⟩
  · exact ⟨Nat.zero_le _, trivial⟩
  · exact fits.readable

/-- The server takes the connect, and reports it as it was made. -/
theorem server_takes_connect (fits : config.Fits) (await : s.state = .awaitConnect) :
    ∃ s', s.handle (ClientSession.connectCommand config) = .ok (s', [connectEvent config]) ∧ s'.state = .connected := by
  obtain ⟨more, ours⟩ := connectProps_ours config
  have app : (Amf0Value.object (ClientSession.connectProps config)).get "app" = some (.string config.app) := by
    rw [ours]
    rfl
  have tcUrl : (Amf0Value.object (ClientSession.connectProps config)).get "tcUrl" = some (.string config.tcUrl) := by
    rw [ours]
    rfl
  have handled := server_command (s := s) (connect_decoded fits)
  change _ = s.handleConnect TX_CONNECT _ at handled
  unfold ServerSession.handleConnect at handled
  rw [if_neg (not_not_intro await)] at handled
  change _ = Except.ok (_, [ServerEvent.connect (ServerSession.text ((Amf0Value.object _).get "app"))
    (((Amf0Value.object _).get "tcUrl").bind Amf0Value.asStr) _]) at handled
  rw [app, tcUrl] at handled
  exact ⟨_, handled, rfl⟩

/-- The server takes every message, and reports what it should. -/
theorem server_ready (fits : config.Fits) (joined : Joined config c s (m :: up) down media) :
    m.payload.length ≤ s.link.decoder.maxLen m.typeId ∧
      ∃ s' events, s.handle m = .ok (s', events) ∧ Reports config s s' events := by
  obtain ⟨signals, answers, ups, downs, phase⟩ := joined.phase
  rcases ups.head with ⟨tame, -⟩ | ⟨-, signals, rfl, -⟩
  · obtain ⟨l, replies, read, -⟩ := handleControl_tame tame s.link
    have short := tame.short.2
    constructor
    · by_cases publishing : s.state = .publishing
      · unfold ChunkDecoder.maxLen
        split
        · rw [(joined.after publishing).1, USIZE_MAX]
          omega
        · rw [(joined.after publishing).2, MAX_NON_MEDIA_MESSAGE]
          omega
      · exact joined_small joined publishing (Nat.le_trans short (by decide))
    · refine ⟨{ s with link := l }, [], ?_, .none rfl⟩
      unfold ServerSession.handle
      rw [read]
  · generalize client : c.state = cs at phase
    generalize server : s.state = ss at phase
    generalize given : m :: signals = all at phase
    cases phase with
    | calling =>
      obtain ⟨rfl, rfl⟩ := List.cons.inj given
      have idle : s.state ≠ .publishing := by rw [server]; decide
      refine ⟨joined_small joined idle fits.connect, ?_⟩
      obtain ⟨s', handled, connected⟩ := server_takes_connect fits server
      refine ⟨s', _, handled, ?_⟩
      unfold Reports
      rw [server, connected]
      rfl
    | answered => contradiction
    | @creating waiting replies left unseen more short =>
      cases waiting with
      | nil => contradiction
      | cons turn waiting =>
        obtain ⟨rfl, rfl⟩ := List.cons.inj given
        have member : turn ∈ dialogue config := left.subset (List.mem_cons_self ..)
        have idle : s.state ≠ .publishing := by rw [server]; decide
        have size : turn.1.payload.length ≤ MAX_PRE_PUBLISH_MESSAGE := by
          simp only [dialogue, List.mem_cons, List.not_mem_nil, or_false] at member
          rcases member with rfl | rfl | rfl
          · exact fits.release
          · exact fits.fcPublish
          · decide
        refine ⟨joined_small joined idle size, ?_⟩
        obtain ⟨s', answered, state, -, -⟩ := server_answers fits.short_key member s
        exact ⟨s', [], answered, .none state⟩
    | asked =>
      obtain ⟨rfl, rfl⟩ := List.cons.inj given
      have idle : s.state ≠ .publishing := by rw [server]; decide
      refine ⟨joined_small joined idle fits.publish, ?_⟩
      obtain ⟨s', event, asked, rfl, state, -, -⟩ :=
        server_publish config 1 fits.short_key server
      refine ⟨s', _, asked, ?_⟩
      unfold Reports
      rw [server, state, (joined.app (by rw [server]; decide)).1]
      rfl
    | pending => contradiction
    | accepted => contradiction
    | @on items sized =>
      cases items with
      | nil => contradiction
      | cons item items =>
        obtain ⟨rfl, rfl⟩ := List.cons.inj given
        have first := sized item (List.mem_cons_self ..)
        obtain ⟨length, -⟩ := joined.server_takes client
        exact ⟨length, s, _, server_media server first, List.append_nil _⟩

/-- The client takes every message. -/
theorem client_ready (fits : config.Fits) (joined : Joined config c s up (m :: down) media) :
    m.payload.length ≤ c.link.decoder.maxLen m.typeId ∧ ∃ result, c.handle m = .ok result := by
  have limit : c.link.decoder.maxLen m.typeId = MAX_SERVER_MESSAGE := by
    unfold ChunkDecoder.maxLen
    rw [joined.client.1, joined.client.2, ite_self]
  rw [limit]
  obtain ⟨signals, answers, ups, downs, phase⟩ := joined.phase
  rcases downs.head with ⟨tame, -⟩ | ⟨-, answers, rfl, -⟩
  · obtain ⟨l, replies, read, -⟩ := handleControl_tame tame c.link
    refine ⟨Nat.le_trans tame.short.2 (by decide), ?_⟩
    unfold ClientSession.handle
    rw [read]
    exact ⟨_, rfl⟩
  · generalize client : c.state = cs at phase
    generalize server : s.state = ss at phase
    generalize given : m :: answers = all at phase
    cases phase with
    | calling => contradiction
    | answered encoding =>
      obtain ⟨rfl, rfl⟩ := List.cons.inj given
      obtain ⟨c', connected, -, -⟩ := client_connected client encoding
      have length : (connectResult encoding).payload.length = 190 := rfl
      rw [length]
      exact ⟨by decide, _, connected⟩
    | @creating waiting replies left unseen more short =>
      subst given
      rcases answer_cases unseen with ⟨rfl, -⟩ | ⟨-, answer⟩
      · obtain ⟨c', created, -, -⟩ := client_created client
        exact ⟨by decide, _, created⟩
      · refine ⟨?_, _, client_answered fits.short_key answer c⟩
        rcases answer with rfl | rfl | rfl
        · decide
        · have length := fcPublishStatus_length config.streamKey
          have short : (utf8 config.streamKey).length ≤ 0xFFFF := fits.short_key
          exact Nat.le_trans length (Nat.le_trans (Nat.add_le_add_right short 78) (by decide))
        · decide
    | asked => contradiction
    | pending => contradiction
    | accepted =>
      obtain ⟨rfl, rfl⟩ := List.cons.inj given
      have room := (joined.app (by rw [server]; decide)).2
      obtain ⟨c', published, -, -⟩ := client_published room client
      have length := publishStart_length config.app
      refine ⟨?_, _, published⟩
      unfold MAX_PRE_PUBLISH_MESSAGE at room
      unfold MAX_SERVER_MESSAGE
      omega
    | on => contradiction

/-! ## Both sides -/

/-- What is known of the server while it is fed: `z` is on the way down, and `before` was reported. -/
structure Hears (config : ClientConfig) (c : ClientSession) (z : Bytes) (before : List ServerEvent)
    (s : ServerSession) (up : List Message) (log : List ServerEvent) : Prop where
  joined : ∃ down media, Joined config c s up down media ∧
    Flows sessionIds c.link.decoder (z ++ s.link.out) down s.link.encoder ∧ Idle z s.link down
  requests : before ++ requests log = expected config s.state

variable {z : Bytes} {before : List ServerEvent} {log : List ServerEvent}

private theorem hears_pulled (known : Hears config c z before s up log) :
    Hears config c z before (ServerSession.side.pulled s) up log := by
  obtain ⟨⟨down, media, joined, flows, idle⟩, requests⟩ := known
  exact ⟨⟨down, media, joined.served joined.phase rfl Iff.rfl joined.app (.nextMessage _), flows, idle⟩, requests⟩

private theorem hears_follower (fits : config.Fits) (c : ClientSession) (z : Bytes) (before : List ServerEvent) :
    Follower ServerSession.side (Hears config c z before) where
  link_withLink _ _ := rfl
  pulled := hears_pulled
  handles := by
    intro s m up log s' events e known next inForce handled
    obtain ⟨⟨down, media, joined, flows, idle⟩, told⟩ := hears_pulled known
    obtain ⟨-, s'', events', ready, reports⟩ := server_ready fits joined
    obtain ⟨rfl, rfl⟩ := Prod.mk.inj (Except.ok.inj (ready.symm.trans handled))
    have small : s.state ≠ .publishing → m.payload.length ≤ MAX_PRE_PUBLISH_MESSAGE := by
      obtain ⟨⟨_, _, unpulled, -⟩, -⟩ := known
      exact fun idle => (ChunkDecoder.nextMessage_within (unpulled.before idle)).2 m next
    obtain ⟨replies, later, took, joined, -⟩ := joined.server_handles small inForce handled
    refine ⟨⟨⟨down ++ replies, later, joined, flows.wrote took.wrote took.fair, idle.wrote took.wrote⟩, ?_⟩,
      took.decoder⟩
    rw [requests_append, ← List.append_assoc, told]
    exact reports

private theorem hears_safe (fits : config.Fits) : ¬Fails ServerSession.side (Hears config c z before) := by
  rintro ⟨s, m, up, log, ⟨⟨down, media, joined, -⟩, -⟩, failed⟩
  obtain ⟨short, s', events, taken, -⟩ := server_ready fits joined
  rcases failed with long | ⟨e, refused⟩
  · exact absurd short (Nat.not_le.mpr long)
  · rw [show s.handle m = .error e from refused] at taken
    contradiction

/-- The two sides, and what has been reported. -/
def Opened (config : ClientConfig) (x : Duplex) (before : List ServerEvent) : Prop :=
  before = expected config x.server.state ∧
    ∃ up down waiting, Linked config x up down waiting ∧ Idle x.toClient x.server.link down

/-- The events that were reported. -/
def told (notes : List Note) : List ServerEvent :=
  notes.filterMap fun
    | .reported e => some e
    | _ => none

/-- What an operation does: no call fails, and the server reports what it should. -/
def Opens (config : ClientConfig) (before : List ServerEvent) (x' : Duplex) (notes : List Note) :
    Prop :=
  (∀ note ∈ notes, note.fails = false) ∧ Opened config x' (before ++ requests (told notes))

variable {x : Duplex}

private theorem told_reported (events : List ServerEvent) : told (events.map .reported) = events := by
  unfold told
  rw [List.filterMap_map]
  exact List.filterMap_some

/-- Bytes come to the server, which may acknowledge them. -/
theorem hears_push (joined : Joined config c s up down media)
    (flows : Flows sessionIds c.link.decoder (z ++ s.link.out) down s.link.encoder) (idle : Idle z s.link down)
    (reported : before = expected config s.state) (data : Bytes) :
    Hears config c z before (ServerSession.side.push data s) up [] := by
  obtain ⟨replies, received, tame⟩ := received_wrote data.length s.link
  have wrote : Wrote s.link (ServerSession.side.push data s).link replies := ⟨received.out, received.encoder⟩
  obtain ⟨signals, answers, ups, downs, phase⟩ := joined.phase
  have downs := downs.append (.of_tame tame)
  rw [List.append_nil] at downs
  have keeps : s.link.decoder.Keeps (ServerSession.side.push data s).link.decoder := by
    show s.link.decoder.Keeps ((s.link.received data.length).decoder.push data)
    rw [received_decoder]
    exact .push ..
  refine ⟨⟨down ++ replies, media, ?_, flows.wrote wrote fun m member => (tame m member).fair, idle.wrote wrote⟩,
    (List.append_nil _).trans reported⟩
  exact joined.served ⟨signals, answers, ups, downs, phase⟩ rfl Iff.rfl joined.app keeps

private theorem arriveServer_opens (fits : config.Fits) (opened : Opened config x before) (n : ℕ) :
    Opens config before (step x (.arriveServer n)).1 (step x (.arriveServer n)).2 := by
  obtain ⟨reported, up, down, waiting, linked, falls⟩ := opened
  have known := hears_push linked.joined linked.falling falls reported (x.toServer.take n)
  have arrived : Flows sessionIds (ServerSession.side.push (x.toServer.take n) x.server).link.decoder
      (x.toServer.drop n ++ x.client.link.out) up x.client.link.encoder := by
    have parts := linked.rising
    rw [← List.take_append_drop n x.toServer, List.append_assoc] at parts
    show Flows _ ((x.server.link.received _).decoder.push _) _ _ _
    rw [received_decoder]
    exact parts.arrive
  have loop := (hears_follower fits x.client x.toClient before).feedLoop
    (s := ServerSession.side.push (x.toServer.take n) x.server) sessionIds_few (Nat.lt_succ_self _) arrived known
  rw [List.nil_append] at loop
  generalize fed : ServerSession.side.feedLoop _ _ = result at loop
  have same : x.server.feed (x.toServer.take n) = result := fed
  unfold step Fed.result
  dsimp only
  rw [same]
  rcases loop with ⟨done, up', rises, ⟨⟨down', media, joined, flows, idle⟩, told⟩, rest⟩ | ⟨-, fails⟩
  · rw [done]
    refine ⟨?_, ?_, up', down', media, ⟨joined, rises, flows, rest⟩, idle⟩
    · intro note member
      obtain ⟨event, -, rfl⟩ := List.mem_map.mp member
      rfl
    · rw [notes, told_reported]
      exact told
  · exact absurd fails (hears_safe fits)

/-- What is known of the client while it is fed: `z` is on the way up. -/
def Answers (config : ClientConfig) (s : ServerSession) (z : Bytes) (c : ClientSession) (down : List Message)
    (_ : List ClientEvent) : Prop :=
  ∃ up media, Joined config c s up down media ∧
    Flows sessionIds s.link.decoder (z ++ c.link.out) up c.link.encoder ∧ Idle z c.link up

private theorem answers_pulled {log : List ClientEvent} (known : Answers config s z c down log) :
    Answers config s z (ClientSession.side.pulled c) down log := by
  obtain ⟨up, media, joined, flows, idle⟩ := known
  exact ⟨up, media, joined.asked joined.phase rfl (.nextMessage _), flows, idle⟩

private theorem answers_follower (fits : config.Fits) (s : ServerSession) (z : Bytes) :
    Follower ClientSession.side (Answers config s z) where
  link_withLink _ _ := rfl
  pulled := answers_pulled
  handles := by
    intro c m down log c' events e known next inForce handled
    obtain ⟨up, media, joined, flows, idle⟩ := answers_pulled known
    obtain ⟨written, took, joined, -⟩ := joined.client_handles fits.carriable inForce handled
    exact ⟨⟨up ++ written, media, joined, flows.wrote took.wrote took.fair, idle.wrote took.wrote⟩, took.decoder⟩

private theorem answers_safe (fits : config.Fits) : ¬Fails ClientSession.side (Answers config s z) := by
  rintro ⟨c, m, down, log, ⟨up, media, joined, -, -⟩, failed⟩
  obtain ⟨short, result, taken⟩ := client_ready fits joined
  rcases failed with long | ⟨e, refused⟩
  · exact absurd short (Nat.not_le.mpr long)
  · rw [show c.handle m = .error e from refused] at taken
    contradiction

private theorem arriveClient_opens (fits : config.Fits) (opened : Opened config x before) (n : ℕ) :
    Opens config before (step x (.arriveClient n)).1 (step x (.arriveClient n)).2 := by
  obtain ⟨reported, up, down, waiting, linked, falls⟩ := opened
  have known : Answers config x.server x.toServer (ClientSession.side.push (x.toClient.take n) x.client) down [] := by
    obtain ⟨up', joined, flows, idle, -⟩ := downward_push linked.joined linked.rising linked.idle
      (fun never : False => never.elim) (x.toClient.take n)
    exact ⟨up', waiting, joined, flows, idle⟩
  have arrived : Flows sessionIds (ClientSession.side.push (x.toClient.take n) x.client).link.decoder
      (x.toClient.drop n ++ x.server.link.out) down x.server.link.encoder := by
    have parts := linked.falling
    rw [← List.take_append_drop n x.toClient, List.append_assoc] at parts
    show Flows _ ((x.client.link.received _).decoder.push _) _ _ _
    rw [received_decoder]
    exact parts.arrive
  have loop := (answers_follower fits x.server x.toServer).feedLoop
    (s := ClientSession.side.push (x.toClient.take n) x.client) sessionIds_few (Nat.lt_succ_self _) arrived known
  generalize fed : ClientSession.side.feedLoop _ _ = result at loop
  have same : x.client.feed (x.toClient.take n) = result := fed
  unfold step Fed.result
  dsimp only
  rw [same]
  rcases loop with ⟨done, down', flows, ⟨up', media, joined, rises, idle⟩, rest⟩ | ⟨-, fails⟩
  · rw [done]
    refine ⟨fun _ none => absurd none List.not_mem_nil, ?_, up', down', media, ⟨joined, rises, flows, idle⟩, rest⟩
    exact (List.append_nil _).trans reported
  · exact absurd fails (answers_safe fits)

/-! ## Runs -/

/-- An operation that reports nothing. -/
theorem Opens.quiet {x' : Duplex} {notes : List Note} (none : told notes = [])
    (safe : ∀ note ∈ notes, note.fails = false) (opened : Opened config x' before) :
    Opens config before x' notes := by
  refine ⟨safe, ?_⟩
  rw [none]
  show Opened config x' (before ++ [])
  rw [List.append_nil]
  exact opened

private theorem sendMedia_opens (opened : Opened config x before) {m : Media} (sized : m.Sized) :
    Opens config before (step x (.sendMedia m)).1 (step x (.sendMedia m)).2 := by
  obtain ⟨reported, up, down, waiting, linked, falls⟩ := opened
  by_cases publishing : x.client.state = .publishing
  · obtain ⟨server, downs, items, fit, ups, -⟩ := linked.joined.on_air publishing
    let item : UInt32 × Media := (x.client.streamId, m)
    have same : x.client.sendMedia m.kind m.timestamp m.payload =
        { x.client with link := x.client.link.write (streamed item) } := by
      unfold ClientSession.sendMedia
      rw [if_neg (not_not_intro publishing)]
      rfl
    have other := streamed_other item
    have wrote : Wrote x.client.link (x.client.link.write (streamed item)) [streamed item] :=
      .write x.client.link other.2
    have all : ∀ i ∈ items ++ [item], i.2.Sized := fun i member =>
      (List.mem_append.mp member).elim (fit i) fun last => by rwa [List.mem_singleton.mp last]
    have new : Carries [streamed item] [streamed item] := .of_signals fun i last => by
      rw [List.mem_singleton.mp last]
      exact other.1
    have fair : ∀ i ∈ [streamed item], i.Fair sessionIds := fun i last => by
      rw [List.mem_singleton.mp last]
      exact streamed_fair sized
    have ups := ups.append new
    unfold step
    dsimp only
    rw [if_pos publishing, same]
    refine .quiet rfl (fun note member => by rw [List.mem_singleton.mp member]; rfl) ⟨reported, _, down,
      (items ++ [item]).map Prod.snd, ⟨?_, linked.rising.wrote wrote fair, linked.falling,
        linked.idle.wrote wrote⟩, falls⟩
    refine linked.joined.asked ⟨(items ++ [item]).map streamed, [], ?_, downs, ?_⟩ rfl ⟨id, rfl, rfl⟩
    · rw [List.map_append]
      exact ups
    · rw [publishing, server]
      exact .on all
  · have same : x.client.sendMedia m.kind m.timestamp m.payload = x.client := if_pos publishing
    unfold step
    dsimp only
    rw [if_neg publishing, same]
    exact .quiet rfl (fun _ none => absurd none List.not_mem_nil) ⟨reported, up, down, waiting, linked, falls⟩

private theorem acceptPublish_opens (opened : Opened config x before) :
    Opens config before (step x .acceptPublish).1 (step x .acceptPublish).2 := by
  obtain ⟨reported, up, down, waiting, linked, falls⟩ := opened
  unfold step ServerSession.acceptPublish
  dsimp only
  by_cases pending : x.server.state = .publishPending
  · rw [if_neg (not_not_intro pending)]
    have joined := linked.joined
    obtain ⟨app, room⟩ := joined.app (by rw [pending]; decide)
    obtain ⟨signals, answers, ups, downs, phase⟩ := joined.phase
    rw [pending] at phase reported
    generalize client : x.client.state = cs at phase
    cases phase with
    | pending =>
      have short : (utf8 x.server.app).length ≤ 0xFFFF := by
        rw [app]
        unfold MAX_PRE_PUBLISH_MESSAGE at room
        omega
      have tame := Message.tame_userControl UC_STREAM_BEGIN STREAM_ID
      have wrote := (Wrote.write (m := .userControl UC_STREAM_BEGIN STREAM_ID) x.server.link
        (show USER_CONTROL ≠ SET_CHUNK_SIZE by decide)).trans
          (.write (m := publishStart x.server.app) _ (show COMMAND_AMF0 ≠ SET_CHUNK_SIZE by decide))
      have fair : ∀ w ∈ [.userControl UC_STREAM_BEGIN STREAM_ID, publishStart x.server.app],
          w.Fair sessionIds := by
        intro w member
        rcases List.mem_cons.mp member with rfl | last
        · exact tame.fair
        · rw [List.mem_singleton.mp last]
          exact publishStart_fair short
      have begun : Carries [.userControl UC_STREAM_BEGIN STREAM_ID] [] :=
        .of_tame fun w member => by rwa [List.mem_singleton.mp member]
      have said : Carries [publishStart x.server.app] [publishStart x.server.app] :=
        .of_signals fun w member => by rw [List.mem_singleton.mp member]; rfl
      have downs := downs.append (begun.append said)
      refine .quiet rfl (fun _ none => absurd none List.not_mem_nil) ⟨reported, _, _, [],
        ⟨⟨⟨[], _, ups, downs, ?_⟩, joined.same, joined.range, fun _ => ⟨app, room⟩, fun idle => absurd rfl idle,
          fun _ => ⟨rfl, rfl⟩, joined.client⟩, ?_, ?_, linked.idle⟩, falls.wrote ⟨wrote.out, wrote.encoder⟩⟩
      · rw [client, app]
        exact .accepted
      · exact linked.rising.limit ..
      · exact linked.falling.wrote ⟨wrote.out, wrote.encoder⟩ fair
  · rw [if_pos pending]
    exact .quiet rfl (fun _ none => absurd none List.not_mem_nil) ⟨reported, up, down, waiting, linked, falls⟩

private theorem step_opens (fits : config.Fits) (opened : Opened config x before) {op : Op}
    (sized : ∀ m ∈ calls [op], m.Sized) : Opens config before (step x op).1 (step x op).2 := by
  cases op with
  | sendMedia m => exact sendMedia_opens opened (sized m (List.mem_singleton_self m))
  | acceptPublish => exact acceptPublish_opens opened
  | flushClient =>
    obtain ⟨reported, up, down, waiting, linked, falls⟩ := opened
    have moved : x.toServer ++ x.client.link.out ++ [] = x.toServer ++ x.client.link.out := List.append_nil _
    refine .quiet rfl (fun _ none => absurd none List.not_mem_nil) ⟨reported, up, down, waiting,
      ⟨⟨linked.joined.phase, linked.joined.same, linked.joined.range, linked.joined.app, linked.joined.before,
        linked.joined.after, linked.joined.client⟩, ?_, linked.falling,
        fun none => linked.idle (moved.symm.trans none)⟩, falls⟩
    show Flows _ _ (x.toServer ++ x.client.link.out ++ []) _ _
    rw [moved]
    exact linked.rising
  | flushServer =>
    obtain ⟨reported, up, down, waiting, linked, falls⟩ := opened
    have moved : x.toClient ++ x.server.link.out ++ [] = x.toClient ++ x.server.link.out := List.append_nil _
    refine .quiet rfl (fun _ none => absurd none List.not_mem_nil) ⟨reported, up, down, waiting,
      ⟨⟨linked.joined.phase, linked.joined.same, linked.joined.range, linked.joined.app, linked.joined.before,
        linked.joined.after, linked.joined.client⟩, linked.rising, ?_, linked.idle⟩,
      fun none => falls (moved.symm.trans none)⟩
    show Flows _ _ (x.toClient ++ x.server.link.out ++ []) _ _
    rw [moved]
    exact linked.falling
  | arriveServer n => exact arriveServer_opens fits opened n
  | arriveClient n => exact arriveClient_opens fits opened n

private theorem opened_start (fits : config.Fits) {serverConfig : ServerConfig}
    (range : 1 ≤ serverConfig.chunkSize.toNat ∧ serverConfig.chunkSize.toNat ≤ MAX_CHUNK_SIZE) :
    Opened config (start config serverConfig) [] :=
  ⟨rfl, _, _, _, linked_start fits.carriable range, fun _ => rfl⟩

private theorem told_append (first second : List Note) : told (first ++ second) = told first ++ told second :=
  List.filterMap_append ..

private theorem run_opens (fits : config.Fits) (opened : Opened config x before) {ops : List Op}
    (sized : ∀ m ∈ calls ops, m.Sized) :
    Opens config before (Machine.after step x ops) (Machine.outputs step x ops) := by
  induction ops generalizing x before with
  | nil => exact .quiet rfl (fun _ none => absurd none List.not_mem_nil) opened
  | cons op ops ih =>
    rw [calls_cons] at sized
    have here := fun m member => sized m (List.mem_append_left _ member)
    have later := fun m member => sized m (List.mem_append_right _ member)
    obtain ⟨safe, opened⟩ := step_opens fits opened here
    obtain ⟨safe', opened'⟩ := ih opened later
    rw [Machine.outputs_cons]
    refine ⟨fun note member => (List.mem_append.mp member).elim (safe note) (safe' note), ?_⟩
    rw [told_append, requests_append, ← List.append_assoc]
    exact opened'

/-- What the server has reported is a first part of what it should report in the end. -/
theorem expected_prefix (config : ClientConfig) (state : ServerState) :
    expected config state <+: asked config := by
  cases state with
  | awaitConnect => exact List.nil_prefix
  | connected => exact ⟨[.publishRequest config.app config.streamKey], rfl⟩
  | publishPending => exact List.prefix_rfl
  | publishing => exact List.prefix_rfl
  | closed => exact List.prefix_rfl

/-- Where nothing is on the way, the server has to accept the publish, or both are publishing. -/
theorem joined_settled (joined : Joined config c s [] [] media) :
    c.state = .publishPending ∧ s.state = .publishPending ∨ c.state = .publishing ∧ s.state = .publishing := by
  obtain ⟨signals, answers, ups, downs, phase⟩ := joined.phase
  have none : signals = [] := ups.signals.symm
  have silent : answers = [] := downs.signals.symm
  generalize c.state = cs at phase ⊢
  generalize s.state = ss at phase ⊢
  cases phase with
  | calling => contradiction
  | answered => contradiction
  | @creating waiting replies left unseen more short =>
    rw [List.map_eq_nil_iff.mp none, silent] at more
    exact absurd rfl more
  | asked => contradiction
  | pending => exact .inl ⟨rfl, rfl⟩
  | accepted => contradiction
  | on => exact .inr ⟨rfl, rfl⟩

/-- A client and a server, with calls and arrivals in any order and the streams in any pieces, where neither end gives
the publish up: no call fails; the server reports the connect and then the publish, each once and just as they were
asked for, and no event besides those and the media; and once nothing is on the way, it is only the server's acceptance
that a publish waits for. -/
theorem publish_opens (config : ClientConfig) (serverConfig : ServerConfig) (fits : config.Fits)
    (range : 1 ≤ serverConfig.chunkSize.toNat ∧ serverConfig.chunkSize.toNat ≤ MAX_CHUNK_SIZE) (ops : List Op)
    (sized : ∀ m ∈ calls ops, m.Sized) :
    let notes := Machine.outputs step (start config serverConfig) ops
    let last := Machine.after step (start config serverConfig) ops
    (∀ note ∈ notes, note.fails = false) ∧ requests (told notes) <+: asked config ∧
      (last.toServer = [] → last.client.link.out = [] → last.toClient = [] → last.server.link.out = [] →
        requests (told notes) = asked config ∧
          (last.client.state = .publishPending ∧ last.server.state = .publishPending ∨
            last.client.state = .publishing ∧ last.server.state = .publishing)) := by
  intro notes last
  obtain ⟨safe, reported, up, down, waiting, linked, falls⟩ := run_opens fits (opened_start fits range) sized
  rw [List.nil_append] at reported
  refine ⟨safe, ?_, ?_⟩
  · rw [reported]
    exact expected_prefix ..
  · intro arrived written arrived' written'
    have up : up = [] := linked.idle (List.append_eq_nil_iff.mpr ⟨arrived, written⟩)
    have down : down = [] := falls (List.append_eq_nil_iff.mpr ⟨arrived', written'⟩)
    subst up down
    have settled := joined_settled linked.joined
    refine ⟨?_, settled⟩
    rcases settled with ⟨-, pending⟩ | ⟨-, publishing⟩
    · rw [reported, pending]
      rfl
    · rw [reported, publishing]
      rfl

/-- A connect of which the server reads 20 bytes first. -/
theorem publish_opens_split :
    requests (told (Machine.outputs step (start ⟨"a", "u", "k", [("fpad", .boolean false)], 7, "f"⟩ {}) opening)) =
      [.connect "a" (some "u")
          [("app", .string "a"), ("type", .string "nonprivate"), ("flashVer", .string "f"), ("swfUrl", .string "u"),
            ("tcUrl", .string "u"), ("fpad", .boolean false)],
        .publishRequest "a" "k"] := by
  have fits : Amf0.Fits (.object (ClientSession.connectProps ⟨"a", "u", "k", [("fpad", .boolean false)], 7, "f"⟩)) :=
    ⟨by decide, (by decide : Amf0.Short "a"), by decide, (by decide : Amf0.Short "nonprivate"), by decide,
      (by decide : Amf0.Short "f"), by decide, (by decide : Amf0.Short "u"), by decide, (by decide : Amf0.Short "u"),
      by decide, trivial, trivial⟩
  have fits : ClientConfig.Fits ⟨"a", "u", "k", [("fpad", .boolean false)], 7, "f"⟩ :=
    ⟨by decide, by decide +kernel, ⟨by decide +kernel, fits⟩, by decide +kernel, by decide +kernel, by decide +kernel⟩
  obtain ⟨-, -, settled⟩ := publish_opens _ {} fits (by decide) opening (fun _ none => absurd none List.not_mem_nil)
  exact (settled (by decide +kernel) (by decide +kernel) (by decide +kernel) (by decide +kernel)).1

end Duplex

end StreamDelay.Rtmp
