import Mathlib.Tactic.Common
import StreamDelay.Foundations.Machine
import StreamDelay.Proofs.Handshake

/-! # What is sent is what is delivered

A client and a server session connected by two byte streams: once the publish is accepted no call fails,
and the media messages sent are those delivered, in order, followed by those still on the way.
-/

namespace StreamDelay.Rtmp

open Foundations

namespace Duplex

variable {config : ClientConfig} {c : ClientSession} {s : ServerSession} {media waiting : List Media}
  {up down : List Message} {z : Bytes}

theorem heard_append (first second : List ServerEvent) : heard (first ++ second) = heard first ++ heard second := by
  unfold heard delivered
  rw [List.map_append, List.filterMap_append]

/-! ## The server is fed -/

/-- What is known of the server while it is fed: `z` is on the way down, and `media` was to be delivered. -/
def Upward (config : ClientConfig) (c : ClientSession) (z : Bytes) (media : List Media) (s : ServerSession)
    (up : List Message) (log : List ServerEvent) : Prop :=
  ∃ down rest, Joined config c s up down rest ∧
    Flows sessionIds c.link.decoder (z ++ s.link.out) down s.link.encoder ∧ media = heard log ++ rest

private theorem upward_pulled {log : List ServerEvent} (known : Upward config c z media s up log) :
    Upward config c z media (ServerSession.side.pulled s) up log := by
  obtain ⟨down, rest, joined, flows, delivered⟩ := known
  exact ⟨down, rest, joined.served joined.phase rfl Iff.rfl joined.app (.nextMessage _), flows, delivered⟩

private theorem upward_follower (config : ClientConfig) (c : ClientSession) (z : Bytes) (media : List Media) :
    Follower ServerSession.side (Upward config c z media) where
  link_withLink _ _ := rfl
  pulled := upward_pulled
  handles := by
    intro s m up log s' events e known next inForce handled
    obtain ⟨down, rest, joined, flows, before⟩ := upward_pulled known
    have small : s.state ≠ .publishing → m.payload.length ≤ MAX_PRE_PUBLISH_MESSAGE := by
      obtain ⟨_, _, unpulled, -⟩ := known
      exact fun idle => (ChunkDecoder.nextMessage_within (unpulled.before idle)).2 m next
    obtain ⟨replies, later, took, joined, now⟩ := joined.server_handles small inForce handled
    refine ⟨⟨down ++ replies, later, joined, flows.wrote took.wrote took.fair, ?_⟩, took.decoder⟩
    rw [before, now, heard_append, List.append_assoc]

/-- Once the client is publishing, no message fails at the server. -/
theorem upward_safe (publishing : c.state = .publishing) :
    ¬Fails ServerSession.side (Upward config c z media) := by
  rintro ⟨s, m, up, log, ⟨down, rest, joined, -, -⟩, failed⟩
  obtain ⟨short, result, taken⟩ := joined.server_takes publishing
  rcases failed with long | ⟨e, refused⟩
  · exact absurd short (Nat.not_le.mpr long)
  · rw [show s.handle m = .error e from refused] at taken
    contradiction

/-- Bytes come to the server, which may acknowledge them. -/
theorem upward_push (joined : Joined config c s up down media)
    (flows : Flows sessionIds c.link.decoder (z ++ s.link.out) down s.link.encoder) (data : Bytes) :
    Upward config c z media (ServerSession.side.push data s) up [] := by
  obtain ⟨replies, received, tame⟩ := received_wrote data.length s.link
  have wrote : Wrote s.link (ServerSession.side.push data s).link replies := ⟨received.out, received.encoder⟩
  obtain ⟨signals, answers, ups, downs, phase⟩ := joined.phase
  have downs := downs.append (.of_tame tame)
  rw [List.append_nil] at downs
  have keeps : s.link.decoder.Keeps (ServerSession.side.push data s).link.decoder := by
    show s.link.decoder.Keeps ((s.link.received data.length).decoder.push data)
    rw [received_decoder]
    exact .push ..
  refine ⟨down ++ replies, media, ?_, flows.wrote wrote fun m member => (tame m member).fair, rfl⟩
  exact joined.served ⟨signals, answers, ups, downs, phase⟩ rfl Iff.rfl joined.app keeps

/-! ## The client is fed -/

/-- Once everything has arrived, there is nothing on the way. -/
def Idle (z : Bytes) (l : Link) (queue : List Message) : Prop := z ++ l.out = [] → queue = []

theorem Idle.wrote {l l' : Link} {queue messages : List Message} (idle : Idle z l queue)
    (wrote : Wrote l l' messages) : Idle z l' (queue ++ messages) := by
  intro none
  rw [wrote.out, ← List.append_assoc] at none
  obtain ⟨before, written⟩ := List.append_eq_nil_iff.mp none
  rw [idle before, wire_nil written]
  rfl

/-- What is known of the client while it is fed: `z` is on the way up, and with `live` it was publishing
already. -/
def Downward (config : ClientConfig) (s : ServerSession) (z : Bytes) (media : List Media) (live : Prop)
    (c : ClientSession) (down : List Message) (_ : List ClientEvent) : Prop :=
  ∃ up, Joined config c s up down media ∧
    Flows sessionIds s.link.decoder (z ++ c.link.out) up c.link.encoder ∧ Idle z c.link up ∧
      (live → c.state = .publishing)

variable {live : Prop}

private theorem downward_pulled {log : List ClientEvent} (known : Downward config s z media live c down log) :
    Downward config s z media live (ClientSession.side.pulled c) down log := by
  obtain ⟨up, joined, flows, idle, state⟩ := known
  exact ⟨up, joined.asked joined.phase rfl (.nextMessage _), flows, idle, state⟩

private theorem downward_follower (carriable : config.Carriable) (s : ServerSession) (z : Bytes) (media : List Media)
    (live : Prop) : Follower ClientSession.side (Downward config s z media live) where
  link_withLink _ _ := rfl
  pulled := downward_pulled
  handles := by
    intro c m down log c' events e known next inForce handled
    obtain ⟨up, joined, flows, idle, state⟩ := downward_pulled known
    obtain ⟨written, took, joined, kept⟩ := joined.client_handles carriable inForce handled
    exact ⟨⟨up ++ written, joined, flows.wrote took.wrote took.fair, idle.wrote took.wrote,
      fun on => kept (state on)⟩, took.decoder⟩

private theorem downward_safe (on : live) : ¬Fails ClientSession.side (Downward config s z media live) := by
  rintro ⟨c, m, down, log, ⟨up, joined, -, -, state⟩, failed⟩
  obtain ⟨short, result, taken⟩ := joined.client_takes (state on)
  rcases failed with long | ⟨e, refused⟩
  · exact absurd short (Nat.not_le.mpr long)
  · rw [show c.handle m = .error e from refused] at taken
    contradiction

/-- Bytes come to the client, which may acknowledge them. -/
theorem downward_push (joined : Joined config c s up down media)
    (flows : Flows sessionIds s.link.decoder (z ++ c.link.out) up c.link.encoder) (idle : Idle z c.link up)
    (state : live → c.state = .publishing) (data : Bytes) :
    Downward config s z media live (ClientSession.side.push data c) down [] := by
  obtain ⟨replies, received, tame⟩ := received_wrote data.length c.link
  have wrote : Wrote c.link (ClientSession.side.push data c).link replies := ⟨received.out, received.encoder⟩
  obtain ⟨signals, answers, ups, downs, phase⟩ := joined.phase
  have ups := ups.append (.of_tame tame)
  rw [List.append_nil] at ups
  have keeps : c.link.decoder.Keeps (ClientSession.side.push data c).link.decoder := by
    show c.link.decoder.Keeps ((c.link.received data.length).decoder.push data)
    rw [received_decoder]
    exact .push ..
  refine ⟨up ++ replies, ?_, flows.wrote wrote fun m member => (tame m member).fair, idle.wrote wrote, state⟩
  exact joined.asked ⟨signals, answers, ups, downs, phase⟩ rfl keeps

/-! ## Both sides -/

/-- The two sides and what is on the way between them; `waiting` is the media among it. -/
structure Linked (config : ClientConfig) (x : Duplex) (up down : List Message) (waiting : List Media) : Prop where
  joined : Joined config x.client x.server up down waiting
  rising : Flows sessionIds x.server.link.decoder (x.toServer ++ x.client.link.out) up x.client.link.encoder
  falling : Flows sessionIds x.client.link.decoder (x.toClient ++ x.server.link.out) down x.server.link.encoder
  idle : Idle x.toServer x.client.link up

/-- What an operation does: unless a call fails, which none does once the client is publishing, what was on
the way and is sent is delivered or on the way. -/
def Goes (config : ClientConfig) (x : Duplex) (waiting : List Media) (x' : Duplex) (notes : List Note) : Prop :=
  ((∃ note ∈ notes, note.fails = true) ∧ x.client.state ≠ .publishing) ∨
    (∀ note ∈ notes, note.fails = false) ∧
      (x.client.state = .publishing → x'.client.state = .publishing) ∧
      ∃ up down rest, Linked config x' up down rest ∧ waiting ++ sent notes = delivered notes ++ rest

variable {x : Duplex}

private theorem arriveServer_goes (linked : Linked config x up down waiting) (n : ℕ) :
    Goes config x waiting (step x (.arriveServer n)).1 (step x (.arriveServer n)).2 := by
  have known := upward_push linked.joined linked.falling (x.toServer.take n)
  have arrived : Flows sessionIds (ServerSession.side.push (x.toServer.take n) x.server).link.decoder
      (x.toServer.drop n ++ x.client.link.out) up x.client.link.encoder := by
    have parts := linked.rising
    rw [← List.take_append_drop n x.toServer, List.append_assoc] at parts
    show Flows _ ((x.server.link.received _).decoder.push _) _ _ _
    rw [received_decoder]
    exact parts.arrive
  have loop := (upward_follower config x.client x.toClient waiting).feedLoop
    (s := ServerSession.side.push (x.toServer.take n) x.server) sessionIds_few (Nat.lt_succ_self _) arrived known
  rw [List.nil_append] at loop
  generalize fed : ServerSession.side.feedLoop _ _ = result at loop
  have same : x.server.feed (x.toServer.take n) = result := fed
  unfold step Fed.result
  dsimp only
  rw [same]
  rcases loop with ⟨done, up', flows, ⟨down', rest, joined, flows', media⟩, idle⟩ | ⟨⟨e, failed⟩, fails⟩
  · rw [done]
    refine .inr ⟨?_, id, up', down', rest, ⟨joined, flows, flows', idle⟩, ?_⟩
    · intro note member
      obtain ⟨event, -, rfl⟩ := List.mem_map.mp member
      rfl
    · have none : sent (result.raised.map .reported) = [] := by
        refine List.filterMap_eq_nil_iff.mpr fun note member => ?_
        obtain ⟨event, -, rfl⟩ := List.mem_map.mp member
        rfl
      show waiting ++ sent (result.raised.map .reported) = heard result.raised ++ rest
      rw [none, List.append_nil]
      exact media
  · rw [failed]
    refine .inl ⟨⟨_, List.mem_singleton_self _, rfl⟩, fun publishing => ?_⟩
    exact upward_safe publishing fails

private theorem arriveClient_goes (carriable : config.Carriable) (linked : Linked config x up down waiting) (n : ℕ) :
    Goes config x waiting (step x (.arriveClient n)).1 (step x (.arriveClient n)).2 := by
  have known := downward_push linked.joined linked.rising linked.idle (id : x.client.state = .publishing → _)
    (x.toClient.take n)
  have arrived : Flows sessionIds (ClientSession.side.push (x.toClient.take n) x.client).link.decoder
      (x.toClient.drop n ++ x.server.link.out) down x.server.link.encoder := by
    have parts := linked.falling
    rw [← List.take_append_drop n x.toClient, List.append_assoc] at parts
    show Flows _ ((x.client.link.received _).decoder.push _) _ _ _
    rw [received_decoder]
    exact parts.arrive
  have loop := (downward_follower carriable x.server x.toServer waiting _).feedLoop
    (s := ClientSession.side.push (x.toClient.take n) x.client) sessionIds_few (Nat.lt_succ_self _) arrived known
  generalize fed : ClientSession.side.feedLoop _ _ = result at loop
  have same : x.client.feed (x.toClient.take n) = result := fed
  unfold step Fed.result
  dsimp only
  rw [same]
  rcases loop with ⟨done, down', flows, ⟨up', joined, flows', idle, state⟩, -⟩ | ⟨⟨e, failed⟩, fails⟩
  · rw [done]
    refine .inr ⟨fun _ member => absurd member List.not_mem_nil, state, up', down', waiting,
      ⟨joined, flows', flows, idle⟩, List.append_nil _⟩
  · rw [failed]
    refine .inl ⟨⟨_, List.mem_singleton_self _, rfl⟩, fun publishing => ?_⟩
    exact downward_safe publishing fails

/-- Where neither side fails and nothing is sent or delivered, it is enough that the two stay linked. -/
theorem Goes.quiet {x' : Duplex} (kept : x.client.state = .publishing → x'.client.state = .publishing)
    (linked : Linked config x' up down waiting) : Goes config x waiting x' [] :=
  .inr ⟨fun _ member => absurd member List.not_mem_nil, kept, up, down, waiting, linked, List.append_nil _⟩

private theorem sendMedia_goes (linked : Linked config x up down waiting) {m : Media} (sized : m.Sized) :
    Goes config x waiting (step x (.sendMedia m)).1 (step x (.sendMedia m)).2 := by
  by_cases publishing : x.client.state = .publishing
  · obtain ⟨server, downs, items, fit, ups, rfl⟩ := linked.joined.on_air publishing
    let item : UInt32 × Media := (x.client.streamId, m)
    have same : x.client.sendMedia m.kind m.timestamp m.payload =
        { x.client with link := x.client.link.write (streamed item) } := by
      unfold ClientSession.sendMedia
      rw [if_neg (not_not_intro publishing)]
      rfl
    have other := streamed_other item
    have wrote : Wrote x.client.link (x.client.link.write (streamed item)) [streamed item] :=
      .write x.client.link other.2
    have all : ∀ i ∈ items ++ [item], i.2.Sized := fun i member =>
      (List.mem_append.mp member).elim (fit i) fun last => by rwa [List.mem_singleton.mp last]
    have new : Carries [streamed item] [streamed item] := .of_signals fun i last => by
      rw [List.mem_singleton.mp last]
      exact other.1
    have ups := ups.append new
    have fair : ∀ i ∈ [streamed item], i.Fair sessionIds := fun i last => by
      rw [List.mem_singleton.mp last]
      exact streamed_fair sized
    unfold step
    dsimp only
    rw [if_pos publishing, same]
    refine .inr ⟨?_, id, _, down, (items ++ [item]).map Prod.snd, ⟨?_, linked.rising.wrote wrote fair,
      linked.falling, linked.idle.wrote wrote⟩, ?_⟩
    · intro note member
      rw [List.mem_singleton.mp member]
      rfl
    · refine linked.joined.asked ⟨(items ++ [item]).map streamed, [], ?_, downs, ?_⟩ rfl ⟨id, rfl, rfl⟩
      · rw [List.map_append]
        exact ups
      · rw [publishing, server]
        exact .on all
    · rw [List.map_append]
      rfl
  · have same : x.client.sendMedia m.kind m.timestamp m.payload = x.client := if_pos publishing
    unfold step
    dsimp only
    rw [if_neg publishing, same]
    exact .quiet id linked

private theorem acceptPublish_goes (linked : Linked config x up down waiting) :
    Goes config x waiting (step x .acceptPublish).1 (step x .acceptPublish).2 := by
  unfold step ServerSession.acceptPublish
  dsimp only
  by_cases pending : x.server.state = .publishPending
  · rw [if_neg (not_not_intro pending)]
    have joined := linked.joined
    obtain ⟨app, room⟩ := joined.app (by rw [pending]; decide)
    obtain ⟨signals, answers, ups, downs, phase⟩ := joined.phase
    rw [pending] at phase
    generalize client : x.client.state = cs at phase
    cases phase with
    | pending =>
      have short : (utf8 x.server.app).length ≤ 0xFFFF := by
        rw [app]
        unfold MAX_PRE_PUBLISH_MESSAGE at room
        omega
      have tame := Message.tame_userControl UC_STREAM_BEGIN STREAM_ID
      have wrote := (Wrote.write (m := .userControl UC_STREAM_BEGIN STREAM_ID) x.server.link
        (show USER_CONTROL ≠ SET_CHUNK_SIZE by decide)).trans
          (.write (m := publishStart x.server.app) _ (show COMMAND_AMF0 ≠ SET_CHUNK_SIZE by decide))
      have fair : ∀ w ∈ [.userControl UC_STREAM_BEGIN STREAM_ID, publishStart x.server.app],
          w.Fair sessionIds := by
        intro w member
        rcases List.mem_cons.mp member with rfl | last
        · exact tame.fair
        · rw [List.mem_singleton.mp last]
          exact publishStart_fair short
      have begun : Carries [.userControl UC_STREAM_BEGIN STREAM_ID] [] :=
        .of_tame fun w member => by rwa [List.mem_singleton.mp member]
      have said : Carries [publishStart x.server.app] [publishStart x.server.app] :=
        .of_signals fun w member => by rw [List.mem_singleton.mp member]; rfl
      have downs := downs.append (begun.append said)
      refine .quiet id ⟨⟨⟨[], _, ups, downs, ?_⟩, joined.same, joined.range, fun _ => ⟨app, room⟩,
        fun idle => absurd rfl idle, fun _ => ⟨rfl, rfl⟩, joined.client⟩, ?_, ?_, linked.idle⟩
      · rw [client, app]
        exact .accepted
      · exact linked.rising.limit ..
      · exact linked.falling.wrote ⟨wrote.out, wrote.encoder⟩ fair
  · rw [if_pos pending]
    exact .quiet id linked

theorem step_goes (carriable : config.Carriable) (linked : Linked config x up down waiting) {op : Op}
    (sized : ∀ m ∈ calls [op], m.Sized) : Goes config x waiting (step x op).1 (step x op).2 := by
  cases op with
  | sendMedia m => exact sendMedia_goes linked (sized m (List.mem_singleton_self m))
  | acceptPublish => exact acceptPublish_goes linked
  | flushClient =>
    have moved : x.toServer ++ x.client.link.out ++ [] = x.toServer ++ x.client.link.out :=
      List.append_nil _
    refine .quiet id ⟨⟨linked.joined.phase, linked.joined.same, linked.joined.range, linked.joined.app,
      linked.joined.before, linked.joined.after, linked.joined.client⟩, ?_, linked.falling, ?_⟩
    · show Flows _ _ (x.toServer ++ x.client.link.out ++ []) _ _
      rw [moved]
      exact linked.rising
    · intro none
      exact linked.idle (moved.symm.trans none)
  | flushServer =>
    refine .quiet id ⟨⟨linked.joined.phase, linked.joined.same, linked.joined.range, linked.joined.app,
      linked.joined.before, linked.joined.after, linked.joined.client⟩, linked.rising, ?_, linked.idle⟩
    show Flows _ _ (x.toClient ++ x.server.link.out ++ []) _ _
    rw [List.append_nil]
    exact linked.falling
  | arriveServer n => exact arriveServer_goes linked n
  | arriveClient n => exact arriveClient_goes carriable linked n

/-! ## Runs -/

theorem linked_start (carriable : config.Carriable) {serverConfig : ServerConfig}
    (range : 1 ≤ serverConfig.chunkSize.toNat ∧ serverConfig.chunkSize.toNat ≤ MAX_CHUNK_SIZE) :
    Linked config (start config serverConfig)
      [.u32Control SET_CHUNK_SIZE config.chunkSize, ClientSession.connectCommand config] [] [] := by
  have tame := Message.tame_setChunkSize carriable.range
  have wrote := (Wrote.setOutChunkSize config.chunkSize (ServerSession.limit MAX_SERVER_MESSAGE
    MAX_SERVER_MESSAGE (.new 2500000))).trans (.write (m := ClientSession.connectCommand config) _
      (show COMMAND_AMF0 ≠ SET_CHUNK_SIZE by decide))
  have fair : ∀ m ∈ [.u32Control SET_CHUNK_SIZE config.chunkSize, ClientSession.connectCommand config],
      m.Fair sessionIds := by
    intro m member
    rcases List.mem_cons.mp member with rfl | last
    · exact tame.fair
    · rw [List.mem_singleton.mp last]
      exact command_fair (by decide) carriable.connect
  have sized : Carries [.u32Control SET_CHUNK_SIZE config.chunkSize] [] :=
    .of_tame fun m member => by rwa [List.mem_singleton.mp member]
  have called : Carries [ClientSession.connectCommand config] [ClientSession.connectCommand config] :=
    .of_signals fun m member => by rw [List.mem_singleton.mp member]; rfl
  have ups := sized.append called
  refine ⟨⟨⟨_, [], ups, .nil, .calling⟩, rfl, range, fun called => absurd rfl called, fun _ => ?_,
    fun publishing => by contradiction, rfl, rfl⟩, ?_, .start .., ?_⟩
  · exact ⟨rfl, rfl, fun _ => ChunkDecoder.within_default _⟩
  · exact (Flows.start sessionIds MAX_PRE_PUBLISH_MESSAGE MAX_PRE_PUBLISH_MESSAGE).wrote (x := []) wrote fair
  · have fresh : Idle [] (ServerSession.limit MAX_SERVER_MESSAGE MAX_SERVER_MESSAGE (Link.new 2500000)) [] :=
      fun _ => rfl
    exact fresh.wrote wrote

private theorem sent_append (first second : List Note) : sent (first ++ second) = sent first ++ sent second :=
  List.filterMap_append ..

private theorem delivered_append (first second : List Note) :
    delivered (first ++ second) = delivered first ++ delivered second :=
  List.filterMap_append ..

theorem calls_cons (op : Op) (ops : List Op) : calls (op :: ops) = calls [op] ++ calls ops :=
  List.filterMap_append (l := [op]) ..

/-- A run in which no call fails, or that starts with the client publishing, when none does. -/
theorem run_goes (carriable : config.Carriable) (linked : Linked config x up down waiting) {ops : List Op}
    (sized : ∀ m ∈ calls ops, m.Sized)
    (sound : x.client.state = .publishing ∨ ∀ note ∈ Machine.outputs step x ops, note.fails = false) :
    (∀ note ∈ Machine.outputs step x ops, note.fails = false) ∧
      ∃ up down rest, Linked config (Machine.after step x ops) up down rest ∧
        waiting ++ sent (Machine.outputs step x ops) = delivered (Machine.outputs step x ops) ++ rest := by
  induction ops generalizing x up down waiting with
  | nil => exact ⟨fun _ member => absurd member List.not_mem_nil, up, down, waiting, linked, List.append_nil _⟩
  | cons op ops ih =>
    rw [calls_cons] at sized
    have here := fun m member => sized m (List.mem_append_left _ member)
    have later := fun m member => sized m (List.mem_append_right _ member)
    rw [Machine.outputs_cons] at sound ⊢
    rcases step_goes carriable linked here with ⟨⟨note, member, fails⟩, idle⟩ | ⟨safe, kept, goes⟩
    · have fine := (sound.resolve_left idle) note (List.mem_append_left _ member)
      rw [fails] at fine
      contradiction
    · obtain ⟨up', down', rest, linked, media⟩ := goes
      have sound := sound.imp kept fun all note member => all note (List.mem_append_right _ member)
      obtain ⟨safe', up'', down'', rest', linked, media'⟩ := ih linked later sound
      refine ⟨fun note member => (List.mem_append.mp member).elim (safe note) (safe' note), up'', down'', rest',
        linked, ?_⟩
      rw [sent_append, delivered_append, ← List.append_assoc, media, List.append_assoc, media',
        List.append_assoc]

/-- While the client is publishing, all that it is asked to send is sent. -/
theorem sent_eq_calls (carriable : config.Carriable) (linked : Linked config x up down waiting) {ops : List Op}
    (sized : ∀ m ∈ calls ops, m.Sized) (publishing : x.client.state = .publishing) :
    sent (Machine.outputs step x ops) = calls ops := by
  induction ops generalizing x up down waiting with
  | nil => rfl
  | cons op ops ih =>
    rw [calls_cons] at sized ⊢
    have here := fun m member => sized m (List.mem_append_left _ member)
    have later := fun m member => sized m (List.mem_append_right _ member)
    have first : sent (step x op).2 = calls [op] := by
      cases op with
      | sendMedia m =>
        unfold step
        dsimp only
        rw [if_pos publishing]
        rfl
      | acceptPublish => rfl
      | flushClient => rfl
      | flushServer => rfl
      | arriveServer n =>
        unfold step notes
        dsimp only
        split
        · rfl
        · refine List.filterMap_eq_nil_iff.mpr fun note member => ?_
          obtain ⟨event, -, rfl⟩ := List.mem_map.mp member
          rfl
      | arriveClient n =>
        unfold step clientNotes
        dsimp only
        split <;> rfl
    rw [Machine.outputs_cons, sent_append, first]
    rcases step_goes carriable linked here with ⟨-, idle⟩ | ⟨-, kept, _, _, _, linked, -⟩
    · exact absurd publishing idle
    · rw [ih linked later (kept publishing)]

/-- A connect and a publish that are accepted. -/
def opening : List Op :=
  [.flushClient, .arriveServer 20, .arriveServer 1000, .flushServer, .arriveClient 1000, .flushClient,
    .arriveServer 1000, .flushServer, .arriveClient 1000, .flushClient, .arriveServer 1000, .acceptPublish,
    .flushServer, .arriveClient 1000]

/-- The media messages a client is asked to send once it is publishing are what the server reports, with
those it was asked to send before: no call fails, and what has not been reported is still on the way. -/
theorem media_transport (config : ClientConfig) (serverConfig : ServerConfig) (carriable : config.Carriable)
    (range : 1 ≤ serverConfig.chunkSize.toNat ∧ serverConfig.chunkSize.toNat ≤ MAX_CHUNK_SIZE)
    (before later : List Op) (sized : ∀ m ∈ calls (before ++ later), m.Sized)
    (unfailing : ∀ note ∈ Machine.outputs step (start config serverConfig) before, note.fails = false)
    (accepted : (Machine.after step (start config serverConfig) before).client.state = .publishing) :
    let x := start config serverConfig
    let notes := Machine.outputs step x (before ++ later)
    let last := Machine.after step x (before ++ later)
    (∀ note ∈ notes, note.fails = false) ∧
      sent notes = sent (Machine.outputs step x before) ++ calls later ∧
      ∃ waiting, sent notes = delivered notes ++ waiting ∧
        (last.toServer = [] → last.client.link.out = [] → waiting = []) := by
  intro x notes last
  have first : ∀ m ∈ calls before, m.Sized := fun m member =>
    sized m (by rw [calls, List.filterMap_append]; exact List.mem_append_left _ member)
  have second : ∀ m ∈ calls later, m.Sized := fun m member =>
    sized m (by rw [calls, List.filterMap_append]; exact List.mem_append_right _ member)
  obtain ⟨-, up, down, waiting, linked, media⟩ :=
    run_goes carriable (linked_start carriable range) first (.inr unfailing)
  obtain ⟨safe, up', down', rest, linked', media'⟩ := run_goes carriable linked second (.inl accepted)
  have parts : notes = Machine.outputs step x before ++ Machine.outputs step (Machine.after step x before) later :=
    Machine.outputs_append ..
  have ends : last = Machine.after step (Machine.after step x before) later := Machine.after_append ..
  rw [List.nil_append] at media
  refine ⟨?_, ?_, rest, ?_, ?_⟩
  · rw [parts]
    exact fun note member => (List.mem_append.mp member).elim (unfailing note) (safe note)
  · rw [parts, sent_append, sent_eq_calls carriable linked second accepted]
  · rw [parts, sent_append, delivered_append, media, List.append_assoc, media', List.append_assoc]
  · intro arrived written
    rw [ends] at arrived written
    have none := linked'.idle (by rw [arrived, written]; rfl)
    subst none
    exact linked'.joined.none_waiting

/-- An audio message over two pieces of the stream, in chunks of seven bytes. -/
theorem media_transport_split :
    delivered (Machine.outputs step (start ⟨"a", "u", "k", [], 7, "f"⟩ {})
      (opening ++ [.sendMedia ⟨.audio, 5, [1, 2, 3, 4, 5, 6, 7, 8]⟩, .flushClient, .arriveServer 7,
        .arriveServer 100])) = [⟨.audio, 5, [1, 2, 3, 4, 5, 6, 7, 8]⟩] := by
  have carriable : ClientConfig.Carriable ⟨"a", "u", "k", [], 7, "f"⟩ :=
    ⟨by decide, by decide +kernel, by decide +kernel, by decide +kernel, by decide +kernel⟩
  have sized : ∀ m ∈ calls (opening ++ [.sendMedia ⟨.audio, 5, [1, 2, 3, 4, 5, 6, 7, 8]⟩, .flushClient,
      .arriveServer 7, .arriveServer 100]), m.Sized := fun m member => by
    rw [List.mem_singleton.mp member]
    exact ⟨by decide, by decide⟩
  obtain ⟨-, sent, waiting, all, none⟩ := media_transport ⟨"a", "u", "k", [], 7, "f"⟩ {} carriable (by decide)
    opening [.sendMedia ⟨.audio, 5, [1, 2, 3, 4, 5, 6, 7, 8]⟩, .flushClient, .arriveServer 7, .arriveServer 100]
    sized (by decide +kernel) (by decide +kernel)
  rw [none (by decide +kernel) (by decide +kernel), List.append_nil] at all
  rw [← all, sent]
  decide +kernel

end Duplex

end StreamDelay.Rtmp
