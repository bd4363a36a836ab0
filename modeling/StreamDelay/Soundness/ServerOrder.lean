import Mathlib.Tactic.Common
import StreamDelay.Proofs.Feeding
import StreamDelay.Rtmp.Server
import StreamDelay.Foundations.Machine

/-! # The order of a server session's events

The peer sends what it likes, in pieces of any size, and the application accepts or rejects when it
likes: one connect, one publish request after it, what is published between the acceptance and the end,
and nothing behind the end. A piece that fails is reported by its error alone; the events raised before
the error are withheld, and count for the order like any other.
-/

namespace StreamDelay.Rtmp.ServerSession

open Foundations

/-- What is done with a session. -/
inductive Op where
  | feed (data : Bytes)
  | acceptPublish
  | rejectPublish (code description : String)
  | takeOutput
deriving DecidableEq

/-- What comes of it. -/
inductive Happening where
  /-- A message is handled. -/
  | message (m : Message)
  /-- An event is returned. -/
  | reported (e : ServerEvent)
  /-- An event is raised by a piece that then fails. -/
  | withheld (e : ServerEvent)
  | failed (e : SessionError)
  /-- A publish that was pending is accepted. -/
  | accepted
  | rejected

/-- The messages handled, each before its events. -/
def told (mark : ServerEvent → Happening) (fed : Fed ServerSession ServerEvent) : List Happening :=
  fed.handled.flatMap fun (m, events) => .message m :: events.map mark

def happenings (fed : Fed ServerSession ServerEvent) : List Happening :=
  match fed.outcome with
  | none => told .reported fed
  | some e => told .withheld fed ++ [.failed e]

def step (s : ServerSession) : Op → ServerSession × List Happening
  | .feed data => ((s.feed data).session, happenings (s.feed data))
  | .acceptPublish => (s.acceptPublish, if s.state = .publishPending then [.accepted] else [])
  | .rejectPublish code description => (s.rejectPublish code description, [.rejected])
  | .takeOutput => (s.takeOutput.2, [])

/-- The kinds of events. -/
inductive Kind where
  | connect
  | publishRequest
  /-- Media, metadata or data. -/
  | content
  | unpublish
deriving DecidableEq

def kind : ServerEvent → Kind
  | .connect .. => .connect
  | .publishRequest .. => .publishRequest
  | .media .. | .metadata .. | .data .. => .content
  | .unpublish => .unpublish

namespace Happening

/-- The kind of event raised, if one is. -/
def raises : Happening → Option Kind
  | reported e | withheld e => some (kind e)
  | _ => none

/-- The kind of event returned, if one is. -/
def reports : Happening → Option Kind
  | reported e => some (kind e)
  | _ => none

def fails : Happening → Bool
  | failed _ => true
  | _ => false

end Happening

/-- An event of a kind has been raised. -/
def Raised (k : Kind) (trace : List Happening) : Prop := ∃ h ∈ trace, h.raises = some k

/-- An event of a kind has been returned. -/
def Reported (k : Kind) (trace : List Happening) : Prop := ∃ h ∈ trace, h.reports = some k

instance (k : Kind) (trace : List Happening) : Decidable (Raised k trace) :=
  inferInstanceAs (Decidable (∃ h ∈ trace, _ = _))

instance (k : Kind) (trace : List Happening) : Decidable (Reported k trace) :=
  inferInstanceAs (Decidable (∃ h ∈ trace, _ = _))

/-- The client stopped publishing, or was refused. -/
def Ended (trace : List Happening) : Prop := Raised .unpublish trace ∨ .rejected ∈ trace

/-- What an event of a kind comes after, and what it does not. -/
def Due (before : List Happening) : Kind → Prop
  | .connect => ¬Raised .connect before
  | .publishRequest => Raised .connect before ∧ ¬Raised .publishRequest before
  | .content => .accepted ∈ before
  | .unpublish => Raised .publishRequest before

/-- An event that is returned, unless a piece failed before, comes after returned ones. -/
def Candid (before : List Happening) (h : Happening) : Prop :=
  (∀ earlier ∈ before, earlier.fails = false) →
    (h.reports = some .publishRequest → Reported .connect before) ∧
      (h.reports = some .unpublish → Reported .publishRequest before)

/-- A happening is in order after what was before it. -/
def InOrder (before : List Happening) (h : Happening) : Prop :=
  (∀ k, h.raises = some k → Due before k ∧ ¬Ended before) ∧
    (∀ m, h = .message m → .accepted ∉ before → m.payload.length ≤ MAX_PRE_PUBLISH_MESSAGE)

/-! ## What a message does to a session -/

/-- How handling a message moves a session. -/
inductive Moves (s s' : ServerSession) : List ServerEvent → Prop
  | still (same : s'.state = s.state) : Moves s s' []
  | content {e : ServerEvent} (open_ : s.state = .publishing) (same : s'.state = s.state)
      (is : kind e = .content) : Moves s s' [e]
  | connects {e : ServerEvent} (await : s.state = .awaitConnect) (now : s'.state = .connected)
      (is : kind e = .connect) : Moves s s' [e]
  | requests {e : ServerEvent} (connected : s.state = .connected) (now : s'.state = .publishPending)
      (is : kind e = .publishRequest) : Moves s s' [e]
  | ends {e : ServerEvent} (running : s.state = .publishing ∨ s.state = .publishPending)
      (now : s'.state = .closed) (is : kind e = .unpublish) : Moves s s' [e]

variable {s s' : ServerSession} {events : List ServerEvent} {m : Message}

/-- A session whose decoder is another's. -/
theorem calm_of_eq (same : s'.link.decoder = s.link.decoder) : Calm s.link.decoder s'.link.decoder := by
  rw [same]
  exact .refl _

private theorem handleConnect_moves {txid : UInt64} {values : List Amf0Value}
    (handled : s.handleConnect txid values = .ok (s', events)) :
    Moves s s' events ∧ Calm s.link.decoder s'.link.decoder := by
  unfold handleConnect at handled
  split at handled
  · injections
  · next await =>
    obtain ⟨rfl, rfl⟩ := Prod.mk.inj (Except.ok.inj handled)
    exact ⟨.connects (Decidable.not_not.mp await) rfl rfl, calm_of_eq rfl⟩

private theorem handlePublish_moves {values : List Amf0Value} (handled : s.handlePublish values = .ok (s', events)) :
    Moves s s' events ∧ Calm s.link.decoder s'.link.decoder := by
  unfold handlePublish at handled
  split at handled
  · next connected =>
    obtain ⟨rfl, rfl⟩ := Prod.mk.inj (Except.ok.inj handled)
    exact ⟨.requests connected rfl rfl, calm_of_eq rfl⟩
  all_goals injections

private theorem handleUnpublish_moves (handled : s.handleUnpublish = (s', events)) :
    Moves s s' events ∧ Calm s.link.decoder s'.link.decoder := by
  unfold handleUnpublish at handled
  split at handled
  · next running =>
    obtain ⟨rfl, rfl⟩ := Prod.mk.inj handled
    exact ⟨.ends running rfl rfl, calm_of_eq rfl⟩
  · obtain ⟨rfl, rfl⟩ := Prod.mk.inj handled
    exact ⟨.still rfl, .refl _⟩

private theorem handleCommand_moves {payload : Bytes} (handled : s.handleCommand payload = .ok (s', events)) :
    Moves s s' events ∧ Calm s.link.decoder s'.link.decoder := by
  have answered {written : ServerSession}
      (result : Except.ok (ε := SessionError) (written, ([] : List ServerEvent)) = .ok (s', events))
      (same : written.state = s.state) (unread : written.link.decoder = s.link.decoder) :
      Moves s s' events ∧ Calm s.link.decoder s'.link.decoder := by
    obtain ⟨rfl, rfl⟩ := Prod.mk.inj (Except.ok.inj result)
    exact ⟨.still same, calm_of_eq unread⟩
  unfold handleCommand at handled
  split at handled
  · injections
  · dsimp only at handled
    split at handled
    · exact handleConnect_moves handled
    · split at handled
      · exact answered handled rfl rfl
      · split at handled
        · exact answered handled rfl rfl
        · split at handled
          · exact answered handled rfl rfl
          · split at handled
            · exact handlePublish_moves handled
            · split at handled
              · exact handleUnpublish_moves (Except.ok.inj handled)
              · exact answered handled rfl rfl

/-- Media and data messages raise one event at most. -/
theorem handleMedia_kind (m : Message) : ∀ e ∈ handleMedia m, handleMedia m = [e] ∧ kind e = .content := by
  unfold handleMedia
  split <;> simp [kind]

private theorem handleData_kind (m : Message) : ∀ e ∈ handleData m, handleData m = [e] ∧ kind e = .content := by
  unfold handleData
  split
  · simp
  · split
    · split <;> simp [kind]
    · simp [kind]

private theorem moves_of_content (running : s.state = .publishing)
    (single : ∀ e ∈ events, events = [e] ∧ kind e = .content) : Moves s s events := by
  cases events with
  | nil => exact .still rfl
  | cons e rest =>
    obtain ⟨alone, is⟩ := single e (List.mem_cons_self ..)
    rw [alone]
    exact .content running rfl is

theorem handle_moves (handled : s.handle m = .ok (s', events)) :
    Moves s s' events ∧ Calm s.link.decoder s'.link.decoder := by
  unfold handle at handled
  split at handled
  · injections
  · next control =>
    obtain ⟨rfl, rfl⟩ := Prod.mk.inj (Except.ok.inj handled)
    exact ⟨.still rfl, handleControl_calm control⟩
  · split at handled
    · exact handleCommand_moves handled
    · split at handled
      · exact handleCommand_moves handled
      · split at handled
        · next media =>
          obtain ⟨rfl, rfl⟩ := Prod.mk.inj (Except.ok.inj handled)
          exact ⟨moves_of_content media.2 (handleMedia_kind m), .refl _⟩
        · split at handled
          · next data =>
            obtain ⟨rfl, rfl⟩ := Prod.mk.inj (Except.ok.inj handled)
            exact ⟨moves_of_content data.2 (handleData_kind m), .refl _⟩
          · obtain ⟨rfl, rfl⟩ := Prod.mk.inj (Except.ok.inj handled)
            exact ⟨.still rfl, .refl _⟩

theorem side_lawful : side.Lawful := ⟨fun _ _ => rfl, fun handled => (handle_moves handled).2.buf⟩

/-! ## What is known of a session from what has happened -/

/-- The state of a session and the limits of its decoder, against what has happened. -/
structure Agrees (s : ServerSession) (trace : List Happening) : Prop where
  unconnected : s.state = .awaitConnect → ¬Raised .connect trace
  connected : s.state = .connected → Raised .connect trace
  unrequested : s.state = .awaitConnect ∨ s.state = .connected → ¬Raised .publishRequest trace
  requested : s.state = .publishPending ∨ s.state = .publishing → Raised .publishRequest trace
  accepted : s.state = .publishing → .accepted ∈ trace
  ended : Ended trace → s.state = .closed
  within : .accepted ∉ trace → s.link.decoder.Within MAX_PRE_PUBLISH_MESSAGE

variable {trace : List Happening} {h : Happening} {k : Kind}

private theorem raised_snoc : Raised k (trace ++ [h]) ↔ Raised k trace ∨ h.raises = some k := by
  unfold Raised
  simp only [List.mem_append, List.mem_singleton, or_and_right, exists_or, exists_eq_left]

private theorem accepted_snoc (raises : h.raises = some k) : .accepted ∈ trace ++ [h] ↔ .accepted ∈ trace := by
  rw [List.mem_append, List.mem_singleton]
  refine or_iff_left fun same => ?_
  rw [← same] at raises
  contradiction

private theorem ended_snoc (raises : h.raises = some k) : Ended (trace ++ [h]) ↔ Ended trace ∨ k = .unpublish := by
  have rejected : .rejected ∈ trace ++ [h] ↔ .rejected ∈ trace := by
    rw [List.mem_append, List.mem_singleton]
    refine or_iff_left fun same => ?_
    rw [← same] at raises
    contradiction
  rw [Ended, rejected, raised_snoc, raises, Option.some.injEq]
  unfold Ended
  tauto

namespace Agrees

/-- What is no event, no acceptance and no rejection changes nothing of this. -/
theorem neutral (agrees : s.Agrees trace) (raises : h.raises = none) (accepts : h ≠ .accepted)
    (rejects : h ≠ .rejected) : s.Agrees (trace ++ [h]) := by
  have same (k : Kind) : Raised k (trace ++ [h]) ↔ Raised k trace := by
    rw [raised_snoc, raises]
    exact or_iff_left fun some => by contradiction
  have accepted : .accepted ∈ trace ++ [h] ↔ .accepted ∈ trace := by
    rw [List.mem_append, List.mem_singleton]
    exact or_iff_left accepts.symm
  have ended : Ended (trace ++ [h]) ↔ Ended trace := by
    unfold Ended
    rw [same, List.mem_append, List.mem_singleton, or_iff_left rejects.symm]
  constructor
  · rw [same]; exact agrees.unconnected
  · rw [same]; exact agrees.connected
  · rw [same]; exact agrees.unrequested
  · rw [same]; exact agrees.requested
  · rw [accepted]; exact agrees.accepted
  · rw [ended]; exact agrees.ended
  · rw [accepted]; exact agrees.within

/-- A session in the same state, with a decoder that is as tame. -/
theorem congr (agrees : s.Agrees trace) (same : s'.state = s.state)
    (within : s.link.decoder.Within MAX_PRE_PUBLISH_MESSAGE →
      s'.link.decoder.Within MAX_PRE_PUBLISH_MESSAGE) : s'.Agrees trace := by
  constructor
  · rw [same]; exact agrees.unconnected
  · rw [same]; exact agrees.connected
  · rw [same]; exact agrees.unrequested
  · rw [same]; exact agrees.requested
  · rw [same]; exact agrees.accepted
  · rw [same]; exact agrees.ended
  · exact fun unaccepted => within (agrees.within unaccepted)

private theorem not_ended (agrees : s.Agrees trace) (open_ : s.state ≠ .closed) : ¬Ended trace :=
  fun ended => open_ (agrees.ended ended)

/-- An event raised is in order, and is known of the session then. -/
theorem moved {e : ServerEvent} (agrees : s.Agrees trace) (moves : Moves s s' [e])
    (calm : Calm s.link.decoder s'.link.decoder) (raises : h.raises = some (kind e)) :
    s'.Agrees (trace ++ [h]) ∧ Due trace (kind e) ∧ ¬Ended trace := by
  have within (unaccepted : .accepted ∉ trace ++ [h]) : s'.link.decoder.Within MAX_PRE_PUBLISH_MESSAGE :=
    calm.within (agrees.within fun early => unaccepted ((accepted_snoc raises).mpr early))
  cases moves with
  | content open_ same is =>
    have going := agrees.not_ended (by rw [open_]; exact ServerState.noConfusion)
    rw [is] at raises ⊢
    refine ⟨?_, agrees.accepted open_, going⟩
    rw [open_] at same
    constructor
    · rw [same]; exact fun none => by contradiction
    · rw [same]; exact fun none => by contradiction
    · rw [same]; exact fun none => by rcases none with none | none <;> contradiction
    · exact fun _ => raised_snoc.mpr (.inl (agrees.requested (.inr open_)))
    · exact fun _ => (accepted_snoc raises).mpr (agrees.accepted open_)
    · rw [ended_snoc raises]
      rintro (ended | none)
      · exact absurd ended going
      · contradiction
    · exact within
  | connects await now is =>
    have going := agrees.not_ended (by rw [await]; exact ServerState.noConfusion)
    rw [is] at raises ⊢
    refine ⟨?_, agrees.unconnected await, going⟩
    constructor
    · rw [now]; exact fun none => by contradiction
    · exact fun _ => raised_snoc.mpr (.inr raises)
    · rw [raised_snoc, raises]
      rintro - (early | other)
      · exact agrees.unrequested (.inl await) early
      · contradiction
    · rw [now]; exact fun none => by rcases none with none | none <;> contradiction
    · rw [now]; exact fun none => by contradiction
    · rw [ended_snoc raises]
      rintro (ended | none)
      · exact absurd ended going
      · contradiction
    · exact within
  | requests connected now is =>
    have going := agrees.not_ended (by rw [connected]; exact ServerState.noConfusion)
    rw [is] at raises ⊢
    refine ⟨?_, ⟨agrees.connected connected, agrees.unrequested (.inr connected)⟩, going⟩
    constructor
    · rw [now]; exact fun none => by contradiction
    · rw [now]; exact fun none => by contradiction
    · rw [now]; exact fun none => by rcases none with none | none <;> contradiction
    · exact fun _ => raised_snoc.mpr (.inr raises)
    · rw [now]; exact fun none => by contradiction
    · rw [ended_snoc raises]
      rintro (ended | none)
      · exact absurd ended going
      · contradiction
    · exact within
  | ends running now is =>
    have going := agrees.not_ended fun closed => by
      rw [closed] at running
      rcases running with none | none <;> contradiction
    rw [is] at raises ⊢
    refine ⟨?_, agrees.requested running.symm, going⟩
    constructor
    · rw [now]; exact fun none => by contradiction
    · rw [now]; exact fun none => by contradiction
    · rw [now]; exact fun none => by rcases none with none | none <;> contradiction
    · rw [now]; exact fun none => by rcases none with none | none <;> contradiction
    · rw [now]; exact fun none => by contradiction
    · exact fun _ => now
    · exact within

end Agrees

/-! ## Feeding -/

/-- A session agrees with what has happened, all in order. -/
def Sound (s : ServerSession) (trace : List Happening) : Prop := s.Agrees trace ∧ Each InOrder [] trace

theorem Sound.silent (sound : s.Sound trace) : s.Sound (trace ++ []) := by rwa [List.append_nil]

theorem Sound.snoc (sound : s.Sound trace) (agrees : s'.Agrees (trace ++ [h])) (order : InOrder trace h) :
    s'.Sound (trace ++ [h]) := ⟨agrees, Each.append.mpr ⟨sound.2, order, trivial⟩⟩

/-- A message is handled that the decoder gave. -/
theorem Sound.message (sound : s.Sound trace)
    (small : s.link.decoder.Within MAX_PRE_PUBLISH_MESSAGE → m.payload.length ≤ MAX_PRE_PUBLISH_MESSAGE) :
    s.Sound (trace ++ [.message m]) := by
  refine sound.snoc (sound.1.neutral rfl Happening.noConfusion Happening.noConfusion) ⟨?_, ?_⟩
  · intro k raises
    contradiction
  · intro m' same unaccepted
    obtain rfl := Happening.message.inj same
    exact small (sound.1.within unaccepted)

/-- The events of a message happen. -/
theorem Sound.moved {mark : ServerEvent → Happening} (sound : s.Sound trace)
    (raises : ∀ e, (mark e).raises = some (kind e)) (moves : Moves s s' events)
    (calm : Calm s.link.decoder s'.link.decoder) : s'.Sound (trace ++ events.map mark) := by
  have one {e : ServerEvent} (moves : Moves s s' [e]) : s'.Sound (trace ++ [mark e]) := by
    obtain ⟨agrees, due, going⟩ := sound.1.moved moves calm (raises e)
    refine sound.snoc agrees ⟨fun k same => ?_, fun m same => ?_⟩
    · obtain rfl := Option.some.inj ((raises e).symm.trans same)
      exact ⟨due, going⟩
    · have none := raises e
      rw [same] at none
      contradiction
  cases moves with
  | still same =>
    rw [List.map_nil, List.append_nil]
    exact ⟨sound.1.congr same calm.within, sound.2⟩
  | content open_ same is => exact one (.content open_ same is)
  | connects await now is => exact one (.connects await now is)
  | requests connected now is => exact one (.requests connected now is)
  | ends running now is => exact one (.ends running now is)

theorem Sound.pulled (sound : s.Sound trace) : Sound (side.pulled s) trace :=
  ⟨sound.1.congr rfl fun within => (ChunkDecoder.nextMessage_within within).1, sound.2⟩

/-- The messages of a piece are handled in order, whatever becomes of the piece. -/
theorem feedLoop_sound {mark : ServerEvent → Happening} (raises : ∀ e, (mark e).raises = some (kind e))
    (fuel : ℕ) (sound : s.Sound trace) :
    (side.feedLoop fuel s).session.Sound (trace ++ told mark (side.feedLoop fuel s)) := by
  induction fuel generalizing s trace with
  | zero => exact sound.silent
  | succ fuel ih =>
    have next (within : s.link.decoder.Within MAX_PRE_PUBLISH_MESSAGE) :=
      (ChunkDecoder.nextMessage_within within).2
    unfold Side.feedLoop
    cases given : (side.link s).decoder.nextMessage.1 with
    | error e => exact sound.pulled.silent
    | ok found =>
      cases found with
      | none => exact sound.pulled.silent
      | some m =>
        have early : s.Sound (trace ++ [.message m]) := sound.message fun within => next within m given
        dsimp only
        cases handled : side.handle m (side.pulled s) with
        | error e => exact early.pulled
        | ok result =>
          obtain ⟨s', events⟩ := result
          obtain ⟨moves, calm⟩ := handle_moves handled
          have later := ih (early.pulled.moved raises moves calm)
          rw [List.append_assoc, List.append_assoc] at later
          exact later

private theorem raises_of_reports (reports : h.reports = some k) : h.raises = some k := by
  cases h with
  | reported e => exact reports
  | _ => contradiction

/-! ## The run -/

/-- Every event raised has been returned, unless a piece failed. -/
def Frank (trace : List Happening) : Prop :=
  (∀ h ∈ trace, h.fails = false) → ∀ h ∈ trace, h.raises = h.reports

/-- Events returned one after the other. -/
theorem Frank.each {more : List Happening} (frank : Frank trace) (plain : ∀ h ∈ more, h.raises = h.reports) :
    Frank (trace ++ more) ∧ Each (fun before h => h.reports ≠ none → Frank before) trace more := by
  induction more generalizing trace with
  | nil => exact ⟨by rwa [List.append_nil], trivial⟩
  | cons h rest ih =>
    have next : Frank (trace ++ [h]) := by
      intro fine x member
      rcases List.mem_append.mp member with early | last
      · exact frank (fun y earlier => fine y (List.mem_append_left _ earlier)) x early
      · rw [List.mem_singleton.mp last]
        exact plain h (List.mem_cons_self ..)
    obtain ⟨later, each⟩ := ih next fun x member => plain x (List.mem_cons_of_mem _ member)
    rw [List.append_assoc] at later
    exact ⟨later, fun _ => frank, each⟩

/-- Nothing is returned of a piece that fails. -/
theorem Frank.failed {more : List Happening} {e : SessionError} (silent : ∀ h ∈ more, h.reports = none) :
    Frank (trace ++ (more ++ [.failed e])) ∧
      Each (fun before h => h.reports ≠ none → Frank before) trace (more ++ [.failed e]) := by
  constructor
  · intro fine
    have fails := fine (.failed e) (by simp)
    contradiction
  · apply Each.of_forall
    intro h member before reports
    rcases List.mem_append.mp member with early | last
    · exact absurd (silent h early) reports
    · rw [List.mem_singleton.mp last] at reports
      exact absurd rfl reports

private theorem mem_told {mark : ServerEvent → Happening} {fed : Fed ServerSession ServerEvent}
    (member : h ∈ told mark fed) :
    (∃ m, h = .message m) ∨ ∃ e, h = mark e := by
  obtain ⟨⟨m, events⟩, -, inside⟩ := List.mem_flatMap.mp member
  rcases List.mem_cons.mp inside with same | later
  · exact .inl ⟨m, same⟩
  · obtain ⟨e, -, same⟩ := List.mem_map.mp later
    exact .inr ⟨e, same.symm⟩

private theorem happenings_frank (frank : Frank trace) (fed : Fed ServerSession ServerEvent) :
    Frank (trace ++ happenings fed) ∧
      Each (fun before h => h.reports ≠ none → Frank before) trace (happenings fed) := by
  unfold happenings
  split
  · apply frank.each
    intro h member
    obtain ⟨m, rfl⟩ | ⟨e, rfl⟩ := mem_told member <;> rfl
  · apply Frank.failed
    intro h member
    obtain ⟨m, rfl⟩ | ⟨e, rfl⟩ := mem_told member <;> rfl

/-- What is known of a session and of everything that has happened with it. -/
structure Story (s : ServerSession) (trace : List Happening) : Prop where
  sound : s.Sound trace
  frank : Frank trace
  candid : Each (fun before h => h.reports ≠ none → Frank before) [] trace
  /-- What the decoder holds has been gone through. -/
  dry : .accepted ∉ trace → (∀ h ∈ trace, h.fails = false) → s.link.decoder.parse = .ok none

private theorem feed_sound (data : Bytes) (sound : s.Sound trace) :
    (s.feed data).session.Sound (trace ++ happenings (s.feed data)) := by
  have pushed {link : Link} (same : link.decoder = s.link.decoder) :
      Sound { s with link := { link with decoder := link.decoder.push data } } trace := by
    refine ⟨sound.1.congr rfl fun within => ?_, sound.2⟩
    show (link.decoder.push data).Within _
    rw [same]
    exact within.push data
  have start := pushed (received_decoder data.length s.link)
  unfold happenings
  split
  · exact feedLoop_sound (fun e => rfl) _ start
  · next e failed =>
    have told := feedLoop_sound (fun e => (rfl : (Happening.withheld e).raises = some (kind e)))
      (((s.link.received data.length).decoder.push data).buf.length + 1) start
    have agrees := told.1.neutral (h := .failed e) rfl Happening.noConfusion Happening.noConfusion
    have last := told.snoc agrees ⟨fun k raises => by contradiction, fun m same => by contradiction⟩
    rw [List.append_assoc] at last
    exact last

/-- A publish that is pending is accepted. -/
theorem accept_agrees (agrees : s.Agrees trace) (pending : s.state = .publishPending) :
    s.acceptPublish.Agrees (trace ++ [.accepted]) := by
  have now : s.acceptPublish.state = .publishing := by
    unfold acceptPublish
    rw [if_neg (Decidable.not_not.mpr pending)]
  have accepted : Happening.accepted ∈ trace ++ [.accepted] := by simp
  have going := agrees.not_ended (by rw [pending]; exact ServerState.noConfusion)
  constructor
  · rw [now]; exact fun none => by contradiction
  · rw [now]; exact fun none => by contradiction
  · rw [now]; exact fun none => by rcases none with none | none <;> contradiction
  · exact fun _ => raised_snoc.mpr (.inl (agrees.requested (.inl pending)))
  · exact fun _ => accepted
  · rintro (ended | rejected)
    · rw [raised_snoc] at ended
      exact absurd (.inl (ended.resolve_right fun none => by contradiction)) going
    · exact absurd (.inr (by simpa using rejected)) going
  · exact fun none => absurd accepted none

private theorem reject_agrees (agrees : s.Agrees trace) (code description : String) :
    (s.rejectPublish code description).Agrees (trace ++ [.rejected]) := by
  constructor
  · exact fun none => by contradiction
  · exact fun none => by contradiction
  · exact fun none => by rcases none with none | none <;> contradiction
  · exact fun none => by rcases none with none | none <;> contradiction
  · exact fun none => by contradiction
  · exact fun _ => rfl
  · exact fun unaccepted => agrees.within fun early => unaccepted (List.mem_append_left _ early)

/-- Whatever is done with a session, the story goes on. -/
theorem Story.step (story : s.Story trace) (op : Op) :
    (step s op).1.Story (trace ++ (ServerSession.step s op).2) := by
  have quiet {h : Happening} (reports : h.reports = none) (raises : h.raises = none)
      (sound : (ServerSession.step s op).1.Sound (trace ++ [h]))
      (dry : .accepted ∉ trace ++ [h] → (ServerSession.step s op).1.link.decoder = s.link.decoder) :
      (ServerSession.step s op).1.Story (trace ++ [h]) := by
    have plain : ∀ x ∈ [h], x.raises = x.reports := fun x member => by
      rw [List.mem_singleton.mp member, raises, reports]
    obtain ⟨frank, each⟩ := story.frank.each plain
    refine ⟨sound, frank, Each.append.mpr ⟨story.candid, each⟩, fun unaccepted fine => ?_⟩
    rw [dry unaccepted]
    exact story.dry (fun early => unaccepted (List.mem_append_left _ early))
      fun x member => fine x (List.mem_append_left _ member)
  cases op with
  | feed data =>
    obtain ⟨frank, each⟩ := happenings_frank story.frank (s.feed data)
    refine ⟨feed_sound data story.sound, frank, Each.append.mpr ⟨story.candid, each⟩, fun _ fine => ?_⟩
    cases outcome : (s.feed data).outcome with
    | none => exact side_lawful.feedLoop_dry (Nat.lt_succ_self _) outcome
    | some e =>
      have failed := fine (.failed e) (by simp [ServerSession.step, happenings, outcome])
      contradiction
  | acceptPublish =>
    by_cases pending : s.state = .publishPending
    · have happens : (ServerSession.step s .acceptPublish).2 = [.accepted] := if_pos pending
      rw [happens]
      refine quiet rfl rfl (story.sound.snoc (accept_agrees story.sound.1 pending) ⟨?_, ?_⟩) ?_
      · exact fun k raises => by contradiction
      · exact fun m same => by contradiction
      · exact fun none => absurd (by simp) none
    · have happens : (ServerSession.step s .acceptPublish).2 = [] := if_neg pending
      have same : (ServerSession.step s .acceptPublish).1 = s := if_pos pending
      rw [happens, same, List.append_nil]
      exact story
  | rejectPublish code description =>
    refine quiet rfl rfl (story.sound.snoc (reject_agrees story.sound.1 code description) ⟨?_, ?_⟩)
      fun _ => rfl
    · exact fun k raises => by contradiction
    · exact fun m same => by contradiction
  | takeOutput =>
    have same : (ServerSession.step s .takeOutput).2 = [] := rfl
    rw [same, List.append_nil]
    exact ⟨⟨story.sound.1.congr rfl id, story.sound.2⟩, story.frank, story.candid, story.dry⟩

theorem Story.run (story : s.Story trace) (ops : List Op) :
    (Machine.after ServerSession.step s ops).Story (trace ++ Machine.outputs ServerSession.step s ops) := by
  induction ops generalizing s trace with
  | nil =>
    rw [Machine.outputs_nil, List.append_nil]
    exact story
  | cons op rest ih =>
    rw [Machine.after_cons, Machine.outputs_cons, ← List.append_assoc]
    exact ih (story.step op)

theorem story_new (config : ServerConfig) : (new config).Story [] := by
  have none (k : Kind) : ¬Raised k [] := fun ⟨h, member, _⟩ => absurd member List.not_mem_nil
  refine ⟨⟨⟨fun _ => none _, ?_, fun _ => none _, ?_, ?_, ?_, fun _ => ⟨rfl, rfl, fun csid => ?_⟩⟩, trivial⟩,
    fun _ h member => absurd member List.not_mem_nil, trivial, fun _ _ => rfl⟩
  · exact fun none => by contradiction
  · exact fun none => by rcases none with none | none <;> contradiction
  · exact fun none => by contradiction
  · rintro (ended | rejected)
    · exact absurd ended (none _)
    · contradiction
  · exact ChunkDecoder.within_default _

/-- Everything that happens with a session is in order. Until a publish is accepted, no message over the
limit is handled, none is kept on a chunk stream, and, unless a piece failed, the header at the front of
the buffer is that of none. -/
theorem session_order (config : ServerConfig) (ops : List Op) :
    Each (fun before h => InOrder before h ∧ Candid before h) [] (Machine.outputs step (new config) ops) ∧
      (.accepted ∉ Machine.outputs step (new config) ops →
        let d := (Machine.after step (new config) ops).link.decoder
        (∀ csid, (d.stream csid).partialData ≠ [] → (d.stream csid).length ≤ MAX_PRE_PUBLISH_MESSAGE) ∧
        ((∀ h ∈ Machine.outputs step (new config) ops, h.fails = false) →
          ∀ fmt csid b, basicHeader d.buf = some (fmt, csid, b) → headerLen fmt ≤ b.length →
            (d.fillHeader fmt csid (b.take (headerLen fmt))).continuation = false →
            (d.fillHeader fmt csid (b.take (headerLen fmt))).length ≤ MAX_PRE_PUBLISH_MESSAGE)) := by
  have story := (story_new config).run ops
  rw [List.nil_append] at story
  refine ⟨?_, fun unaccepted => ?_⟩
  · refine (story.sound.2.and story.candid).mono fun before h ⟨order, frank⟩ => ⟨order, fun fine => ?_⟩
    have seen {k : Kind} (raised : Raised k before) (some : h.reports ≠ none) : Reported k before := by
      obtain ⟨x, member, raises⟩ := raised
      exact ⟨x, member, (frank some fine x member).symm.trans raises⟩
    refine ⟨fun request => ?_, fun unpublish => ?_⟩
    · exact seen (order.1 _ (raises_of_reports request)).1.1 (by rw [request]; exact Option.some_ne_none _)
    · exact seen (order.1 _ (raises_of_reports unpublish)).1 (by rw [unpublish]; exact Option.some_ne_none _)
  · have within := story.sound.1.within unaccepted
    refine ⟨fun csid held => ?_, fun fine fmt csid b read whole first => ?_⟩
    · have known := within.streams csid
      cases busy : ((Machine.after step (new config) ops).link.decoder.stream csid).inProgress with
      | true => exact known.length busy
      | false => exact absurd (known.idle busy) held
    · exact ChunkDecoder.front_within within (story.dry unaccepted fine) read whole first

/-- A command, as the first message of a client. -/
def commandBytes (payload : Bytes) : Bytes :=
  ChunkEncoder.new.write ⟨CSID_COMMAND, 0, COMMAND_AMF0, 0, payload⟩

/-- A connect that is followed, in one piece, by a command that cannot be decoded is not reported; a
publish in the next piece is. -/
theorem request_without_connect :
    (Machine.outputs step (new {})
      [.feed (commandBytes (Amf0.encodeAll [.string "connect"]) ++ commandBytes [0x42]),
        .feed (commandBytes (Amf0.encodeAll [.string "publish"]))]).filterMap Happening.reports =
      [.publishRequest] := by
  decide +kernel

end StreamDelay.Rtmp.ServerSession
