import Mathlib.Tactic.Common
import StreamDelay.Proofs.Segments
import StreamDelay.Rtmp.Client
import StreamDelay.Soundness.ServerOrder

/-! # What a session reports, however the bytes are cut

The messages a session handles, the events they raise and the first error are those of the byte sequence. A
feed returns its events or its error: the events of the feed that fails are the ones that are not reported.
-/

namespace StreamDelay.Rtmp

open Side

private theorem handleControl_push {l l' : Link} {x : Bytes} (decoder : l'.decoder = l.decoder.push x) (m : Message) :
    (∃ e, l.handleControl m = .error e ∧ l'.handleControl m = .error e) ∨
      ∃ b k k', l.handleControl m = .ok (b, k) ∧ l'.handleControl m = .ok (b, k') ∧
        k'.decoder = k.decoder.push x := by
  have kept {b : Bool} {k k' : Link} {r r' : Except SessionError (Bool × Link)} (left : r = .ok (b, k))
      (right : r' = .ok (b, k')) (same : k.decoder = l.decoder) (same' : k'.decoder = l'.decoder) :
      (∃ e, r = .error e ∧ r' = .error e) ∨
        ∃ b k k', r = .ok (b, k) ∧ r' = .ok (b, k') ∧ k'.decoder = k.decoder.push x :=
    .inr ⟨b, k, k', left, right, by rw [same', same, decoder]⟩
  unfold Link.handleControl
  split
  · cases readU32 m.payload with
    | none => exact .inl ⟨_, rfl, rfl⟩
    | some v =>
      dsimp only
      rw [decoder, ChunkDecoder.setChunkSize_push]
      cases l.decoder.setChunkSize (v &&& 0x7fffffff).toNat with
      | error e => exact .inl ⟨_, rfl, rfl⟩
      | ok d => exact .inr ⟨_, _, _, rfl, rfl, rfl⟩
  · split
    · cases readU32 m.payload with
      | none => exact kept rfl rfl rfl rfl
      | some csid =>
        refine .inr ⟨_, _, _, rfl, rfl, ?_⟩
        show l'.decoder.abort csid.toNat = _
        rw [decoder, ChunkDecoder.abort_push]
    · split
      · exact kept rfl rfl rfl rfl
      · split
        · cases readU32 m.payload with
          | none => exact kept rfl rfl rfl rfl
          | some v => exact kept rfl rfl rfl rfl
        · split
          · cases readU32 m.payload with
            | none => exact kept rfl rfl rfl rfl
            | some v => exact kept rfl rfl rfl rfl
          · split
            · rcases readUserControl m.payload with _ | ⟨event, ts⟩
              · exact kept rfl rfl rfl rfl
              · by_cases ping : event = UC_PING_REQUEST
                · simp only [if_pos ping]
                  exact kept rfl rfl rfl rfl
                · simp only [if_neg ping]
                  exact kept rfl rfl rfl rfl
            · exact kept rfl rfl rfl rfl

namespace ServerSession

variable {s : ServerSession} {l' : Link} {x : Bytes}

/-- A session that is ahead of another has what the other has, and more bytes. -/
private theorem ahead_of {t t' : ServerSession} (decoder : t'.link.decoder = t.link.decoder.push x)
    (rest : t' = { t with link := t'.link }) : side.Ahead x t t' :=
  ⟨t'.link, decoder, rest⟩

private theorem handleCommand_ahead (decoder : l'.decoder = s.link.decoder.push x) (payload : Bytes) :
    Alike (side.Ahead x) (s.handleCommand payload) ({ s with link := l' }.handleCommand payload) := by
  unfold handleCommand
  cases Amf0.decodeAll payload with
  | error e => exact .error _
  | ok values =>
    dsimp only
    split
    · unfold handleConnect
      dsimp only
      split
      · exact .error _
      · exact .ok _ (ahead_of decoder rfl)
    · split
      · exact .ok _ (ahead_of decoder rfl)
      · split
        · exact .ok _ (ahead_of decoder rfl)
        · split
          · exact .ok _ (ahead_of decoder rfl)
          · split
            · unfold handlePublish
              cases s.state with
              | connected => exact .ok _ (ahead_of decoder rfl)
              | publishPending | publishing | awaitConnect | closed => exact .error _
            · split
              · unfold handleUnpublish
                dsimp only
                split
                · exact .ok _ (ahead_of decoder rfl)
                · exact .ok _ (ahead_of decoder rfl)
              · exact .ok _ (ahead_of decoder rfl)

theorem handle_ahead (m : Message) {s' : ServerSession} (ahead : side.Ahead x s s') :
    Alike (side.Ahead x) (s.handle m) (s'.handle m) := by
  obtain ⟨l', decoder, rfl⟩ := ahead
  change l'.decoder = s.link.decoder.push x at decoder
  show Alike _ (s.handle m) ({ s with link := l' }.handle m)
  unfold handle
  dsimp only
  rcases handleControl_push decoder m with ⟨e, left, right⟩ | ⟨b, k, k', left, right, after⟩
  · rw [left, right]
    exact .error _
  · rw [left, right]
    cases b with
    | true => exact .ok _ ⟨k', after, rfl⟩
    | false =>
      dsimp only
      split
      · exact handleCommand_ahead decoder _
      · split
        · exact handleCommand_ahead decoder _
        · split
          · exact .ok _ ⟨l', decoder, rfl⟩
          · split
            · exact .ok _ ⟨l', decoder, rfl⟩
            · exact .ok _ ⟨l', decoder, rfl⟩

private theorem side_uniform : side.Uniform where
  toLawful := side_lawful
  withLink_withLink _ _ _ := rfl
  withLink_link _ := rfl
  handle_ahead m _ _ _ ahead := handle_ahead m ahead

/-- The limits of a session are the lower ones until a publish is accepted. -/
def Limited (s : ServerSession) : Prop :=
  s.state ≠ .publishing → s.state ≠ .closed → s.link.decoder.Within MAX_PRE_PUBLISH_MESSAGE

theorem Limited.moves {s' : ServerSession} {events : List ServerEvent} (limited : s.Limited)
    (moves : Moves s s' events) (calm : Calm s.link.decoder s'.link.decoder) : s'.Limited := by
  intro unaccepted going
  apply calm.within
  cases moves with
  | still same =>
    rw [same] at unaccepted going
    exact limited unaccepted going
  | content open_ same =>
    rw [same] at unaccepted
    contradiction
  | connects await => exact limited (by rw [await]; nofun) (by rw [await]; nofun)
  | requests connected => exact limited (by rw [connected]; nofun) (by rw [connected]; nofun)
  | ends _ now => contradiction

private theorem acceptPublish_ahead {s' : ServerSession} (same : side.Ahead [] s s') :
    side.Ahead [] s.acceptPublish s'.acceptPublish := by
  obtain ⟨l', decoder, rfl⟩ := same
  change l'.decoder = s.link.decoder.push [] at decoder
  show side.Ahead [] s.acceptPublish { s with link := l' }.acceptPublish
  unfold acceptPublish
  dsimp only
  split
  · exact ahead_of decoder rfl
  · refine ahead_of ?_ rfl
    show (limit USIZE_MAX MAX_NON_MEDIA_MESSAGE l').decoder = _
    unfold limit
    rw [decoder]
    rfl

private theorem acceptPublish_rests (limited : s.Limited) (rests : side.Rests s) : side.Rests s.acceptPublish := by
  unfold acceptPublish
  split
  · exact rests
  · next pending =>
    have state := not_not.mp pending
    have within := limited (by rw [state]; nofun) (by rw [state]; nofun)
    refine ChunkDecoder.parse_limits rests ⟨?_, ?_⟩
    · rw [within.media]; decide
    · rw [within.other]; decide

private theorem acceptPublish_limited (limited : s.Limited) : s.acceptPublish.Limited := by
  unfold acceptPublish
  split
  · exact limited
  · intro unaccepted
    contradiction

private theorem acceptPublish_steady : side.Steady acceptPublish Limited where
  alike := acceptPublish_ahead
  rests := acceptPublish_rests
  called := acceptPublish_limited
  pushed {s} data limited unaccepted going := by
    have kept : (side.link (side.push data s)).decoder = s.link.decoder.push data := by
      show ((s.link).received data.length).decoder.push data = _
      rw [received_decoder]
    show ChunkDecoder.Within _ (side.link (side.push data s)).decoder
    rw [kept]
    exact (limited unaccepted going).push data
  pulled limited unaccepted going := (ChunkDecoder.nextMessage_within (limited unaccepted going)).1
  handled taken limited := limited.moves (handle_moves taken).1 (handle_moves taken).2

/-- What comes of a session that is fed the pieces of each group, with an `accept_publish` in between. -/
def feeds (config : ServerConfig) (groups : List (List Bytes)) : Told ServerSession ServerEvent :=
  side.feedGroups acceptPublish groups (new config)

private theorem feeds_matches (config : ServerConfig) {groups groups' : List (List Bytes)}
    (bytes : groups.map List.flatten = groups'.map List.flatten) :
    (feeds config groups).Matches (feeds config groups') := by
  have agree := feedGroups_alike side_uniform acceptPublish_steady
    (fun _ _ => ⟨rfl, rfl, fun _ => ChunkDecoder.within_default _⟩)
    (side_uniform.ahead_refl (new config)) rfl bytes
  exact agree.matches (feedGroups_stops ..) (feedGroups_stops ..)

end ServerSession

namespace ClientSession

variable {s : ClientSession} {l' : Link} {x : Bytes}

private theorem ahead_of {t t' : ClientSession} (decoder : t'.link.decoder = t.link.decoder.push x)
    (rest : t' = { t with link := t'.link }) : side.Ahead x t t' :=
  ⟨t'.link, decoder, rest⟩

private theorem handleCommand_ahead (decoder : l'.decoder = s.link.decoder.push x) (values : List Amf0Value) :
    Alike (side.Ahead x) (s.handleCommand values) ({ s with link := l' }.handleCommand values) := by
  unfold handleCommand
  dsimp only
  split
  · unfold handleConnectResult
    dsimp only
    split
    · exact .ok _ (ahead_of decoder rfl)
    · exact .ok _ (ahead_of decoder rfl)
  · split
    · unfold handleCreateResult
      dsimp only
      split
      · exact .error _
      · exact .ok _ (ahead_of decoder rfl)
    · split
      · exact .ok _ (ahead_of decoder rfl)
      · split
        · unfold handleStatus
          dsimp only
          split
          · exact .ok _ (ahead_of decoder rfl)
          · split
            · exact .ok _ (ahead_of decoder rfl)
            · exact .ok _ (ahead_of decoder rfl)
        · split
          · exact .ok _ (ahead_of decoder rfl)
          · exact .ok _ (ahead_of decoder rfl)

theorem handle_ahead (m : Message) {s' : ClientSession} (ahead : side.Ahead x s s') :
    Alike (side.Ahead x) (s.handle m) (s'.handle m) := by
  obtain ⟨l', decoder, rfl⟩ := ahead
  change l'.decoder = s.link.decoder.push x at decoder
  show Alike _ (s.handle m) ({ s with link := l' }.handle m)
  unfold handle
  dsimp only
  rcases handleControl_push decoder m with ⟨e, left, right⟩ | ⟨b, k, k', left, right, after⟩
  · rw [left, right]
    exact .error _
  · rw [left, right]
    cases b with
    | true => exact .ok _ ⟨k', after, rfl⟩
    | false =>
      dsimp only
      split
      · cases Amf0.decodeAll (if m.typeId = COMMAND_AMF0 then m.payload else m.payload.drop 1) with
        | error e => exact .error _
        | ok values => exact handleCommand_ahead decoder values
      · exact .ok _ ⟨l', decoder, rfl⟩

private theorem handleCommand_calm {s' : ClientSession} {values : List Amf0Value} {events : List ClientEvent}
    (handled : s.handleCommand values = .ok (s', events)) : Calm s.link.decoder s'.link.decoder := by
  have kept {t : ClientSession} {es : List ClientEvent}
      (result : Except.ok (ε := SessionError) (t, es) = .ok (s', events)) (same : t.link.decoder = s.link.decoder) :
      Calm s.link.decoder s'.link.decoder := by
    obtain ⟨rfl, -⟩ := Prod.mk.inj (Except.ok.inj result)
    rw [same]
    exact .refl _
  unfold handleCommand at handled
  dsimp only at handled
  split at handled
  · unfold handleConnectResult at handled
    dsimp only at handled
    split at handled
    · exact kept handled rfl
    · exact kept handled rfl
  · split at handled
    · unfold handleCreateResult at handled
      dsimp only at handled
      split at handled
      · injections
      · exact kept handled rfl
    · split at handled
      · exact kept handled rfl
      · split at handled
        · unfold handleStatus at handled
          split at handled
          · exact kept handled rfl
          · split at handled
            · exact kept handled rfl
            · exact kept handled rfl
        · split at handled
          · exact kept handled rfl
          · exact kept handled rfl

private theorem handle_calm {s' : ClientSession} {m : Message} {events : List ClientEvent}
    (handled : s.handle m = .ok (s', events)) : Calm s.link.decoder s'.link.decoder := by
  unfold handle at handled
  split at handled
  · injections
  · next control =>
    obtain ⟨rfl, -⟩ := Prod.mk.inj (Except.ok.inj handled)
    exact handleControl_calm control
  · split at handled
    · split at handled
      · injections
      · exact handleCommand_calm handled
    · obtain ⟨rfl, -⟩ := Prod.mk.inj (Except.ok.inj handled)
      exact .refl _

private theorem side_uniform : side.Uniform where
  link_withLink _ _ := rfl
  handle_buf handled := (handle_calm handled).buf
  withLink_withLink _ _ _ := rfl
  withLink_link _ := rfl
  handle_ahead m _ _ _ ahead := handle_ahead m ahead

/-- What comes of a session that is fed pieces. -/
def feeds (config : ClientConfig) (pieces : List Bytes) : Told ClientSession ClientEvent :=
  side.feedAll pieces (new config)

private theorem feeds_matches (config : ClientConfig) {pieces pieces' : List Bytes}
    (bytes : pieces.flatten = pieces'.flatten) : (feeds config pieces).Matches (feeds config pieces') := by
  have agree := feedAll_alike side_uniform (side_uniform.ahead_refl (new config)) rfl bytes
  exact agree.matches (feedAll_stops ..) (feedAll_stops ..)

end ClientSession

/-- Two ways of feeding a byte sequence to a session come to the same: the messages handled, the events they
raise and the first error, for a server session with a publish accepted at the same places too. What is
reported is every event but those of the feed that fails; where none fails, it is the same as well. -/
theorem segmentation_invisible :
    (∀ (config : ServerConfig) (groups groups' : List (List Bytes)),
      groups.map List.flatten = groups'.map List.flatten →
        (ServerSession.feeds config groups).Matches (ServerSession.feeds config groups') ∧
          (ServerSession.feeds config groups).raised =
            (ServerSession.feeds config groups).reported ++ (ServerSession.feeds config groups).withheld) ∧
    ∀ (config : ClientConfig) (pieces pieces' : List Bytes), pieces.flatten = pieces'.flatten →
      (ClientSession.feeds config pieces).Matches (ClientSession.feeds config pieces') ∧
        (ClientSession.feeds config pieces).raised =
          (ClientSession.feeds config pieces).reported ++ (ClientSession.feeds config pieces).withheld := by
  refine ⟨fun config groups groups' bytes => ⟨ServerSession.feeds_matches config bytes, ?_⟩,
    fun config pieces pieces' bytes => ⟨ClientSession.feeds_matches config bytes, ?_⟩⟩
  · exact Told.raised_eq (feedGroups_stops ..)
  · exact Told.raised_eq (feedAll_stops ..)

/-- The other end closes the stream, with a command that carries nothing else. -/
def closing : Bytes := ChunkEncoder.new.write ⟨CSID_COMMAND, 0, COMMAND_AMF0, 0, Amf0.encodeAll [.string "close"]⟩

/-- A chunk that goes on with a message that was never begun. -/
def malformed : Bytes := [0xC5]

def anywhere : ClientConfig := { app := "live", tcUrl := "rtmp://example/live", streamKey := "key" }

/-- An encoder connects and asks to publish. -/
def asking : Bytes :=
  ChunkEncoder.new.write (.command CSID_COMMAND 0 [.string "connect", zero, .object [("app", .string "live")]]) ++
    ChunkEncoder.new.write (.command CSID_COMMAND STREAM_ID [.string "publish", zero, .null, .string "key"])

/-- A message of the stream, taken once the publish is accepted. -/
def sound : Bytes := ChunkEncoder.new.write ⟨ CSID_AUDIO, 40, AUDIO, STREAM_ID, [0xAF, 1, 2]⟩

theorem segmentation_invisible_closing :
    (ClientSession.feeds anywhere [closing, malformed]).Matches (ClientSession.feeds anywhere [closing ++ malformed]) ∧
      (ServerSession.feeds {} [[asking], [sound]]).Matches
        (ServerSession.feeds {} [[asking.take 20, asking.drop 20], [[], sound.take 3, sound.drop 3]]) ∧
      (ServerSession.feeds {} [[asking], [sound]]).reported.length = 3 ∧
      (ServerSession.feeds {} [[asking ++ sound]]).reported.length = 2 :=
  ⟨(segmentation_invisible.2 anywhere [closing, malformed] [closing ++ malformed] (by decide +kernel)).1,
    (segmentation_invisible.1 {} [[asking], [sound]] [[asking.take 20, asking.drop 20],
      [[], sound.take 3, sound.drop 3]]
      (by decide +kernel)).1, by decide +kernel, by decide +kernel⟩

/-- A server that closes the stream is heard, unless something malformed is read with it. -/
theorem close_unheard :
    [closing ++ malformed].flatten = [closing, malformed].flatten ∧
      (ClientSession.feeds anywhere [closing, malformed]).reported =
        [.error "NetConnection.Close" "server closed the connection"] ∧
      (ClientSession.feeds anywhere [closing ++ malformed]).reported = [] ∧
      (ClientSession.feeds anywhere [closing, malformed]).error = some (.chunk (.missingHeader 5)) ∧
      (ClientSession.feeds anywhere [closing ++ malformed]).error = some (.chunk (.missingHeader 5)) := by
  decide +kernel

end StreamDelay.Rtmp
