import Mathlib.Tactic.Common
import StreamDelay.Proofs.Feeding

/-! # Feeding a side in segments

What a side makes of a byte sequence is told from the state of its decoder, not from when the bytes came: a
side that has more bytes waiting handles the same messages first, with the same events and the same error.
-/

namespace StreamDelay.Rtmp

namespace ChunkDecoder

/-- A call that gives a message, or fails, does so whatever is behind what it reads. -/
theorem nextMessage_push {d d' : ChunkDecoder} {result : Except ChunkError (Option Message)}
    (called : d.nextMessage = (result, d')) (something : result ≠ .ok none) (x : Bytes) :
    (d.push x).nextMessage = (result, d'.push x) := by
  induction size : d.buf.length using Nat.strong_induction_on generalizing d with
  | _ size ih =>
    rw [nextMessage_eq] at called ⊢
    cases whole : d.parse with
    | error e =>
      rw [whole] at called
      have more := parse_push (by rw [whole]; intro none; injections) x
      rw [whole] at more
      rw [more]
      obtain ⟨rfl, rfl⟩ := Prod.mk.inj called
      rfl
    | ok found =>
      cases found with
      | none =>
        rw [whole] at called
        exact absurd (Prod.mk.inj called).1.symm something
      | some c =>
        rw [whole] at called
        have shorter := parse_length whole
        have buf := commit_buf c d
        have more := parse_push (by rw [whole]; intro none; injections) x
        rw [whole] at more
        have taken := commit_push c x d
        simp only [more, Except.map, Option.map, taken]
        dsimp only at called
        rcases committed : d.commit c with ⟨_ | _ | m, next⟩
        · exact absurd (congrArg Prod.fst committed) (commit_result c d)
        · rw [committed] at called buf
          dsimp only at called buf
          exact ih next.buf.length (by rw [buf]; omega) called rfl
        · rw [committed] at called
          obtain ⟨rfl, rfl⟩ := Prod.mk.inj called
          rfl

theorem abort_push (csid : ℕ) (x : Bytes) (d : ChunkDecoder) : (d.push x).abort csid = (d.abort csid).push x := by
  unfold abort
  have same : (d.push x).streams = d.streams := rfl
  rw [same]
  split <;> rfl

theorem setChunkSize_push (size : ℕ) (x : Bytes) (d : ChunkDecoder) :
    (d.push x).setChunkSize size = (d.setChunkSize size).map (·.push x) := by
  unfold setChunkSize
  split <;> rfl

/-- A header is read under higher limits as well. -/
theorem readHeader_limits {d d' : ChunkDecoder} {fmt csid : ℕ} {h : Bytes} {header : Header}
    (streams : d'.streams = d.streams) (higher : ∀ typeId, d.maxLen typeId ≤ d'.maxLen typeId)
    (read : d.readHeader fmt csid h = .ok header) : d'.readHeader fmt csid h = .ok header := by
  have stream : d'.stream csid = d.stream csid := congrArg (fun map => (map.lookup csid).getD {}) streams
  have filled : d'.fillHeader fmt csid h = d.fillHeader fmt csid h := by
    unfold fillHeader
    rw [stream]
  unfold readHeader at read ⊢
  rw [streams, stream, filled]
  split at read
  · injections
  · next begun =>
    split at read
    · injections
    · next room =>
      rw [if_neg begun, if_neg room]
      dsimp only at read ⊢
      split at read
      · injections
      · next fits =>
        refine (if_neg fun long => fits ⟨long.1, Nat.lt_of_le_of_lt (higher _) long.2⟩).trans read

/-- Higher limits do not make a chunk whole. -/
theorem parse_limits {d : ChunkDecoder} {media other : ℕ} (short : d.parse = .ok none)
    (higher : d.maxMediaLen ≤ media ∧ d.maxOtherLen ≤ other) :
    { d with maxMediaLen := media, maxOtherLen := other }.parse = .ok none := by
  set d' : ChunkDecoder := { d with maxMediaLen := media, maxOtherLen := other }
  have limit (typeId : UInt8) : d.maxLen typeId ≤ d'.maxLen typeId := by
    unfold maxLen
    split
    · exact higher.1
    · exact higher.2
  unfold parse at short ⊢
  have buf : d'.buf = d.buf := rfl
  rw [buf]
  cases front : basicHeader d.buf with
  | none => rfl
  | some found =>
    obtain ⟨fmt, csid, b⟩ := found
    rw [front] at short
    dsimp only at short ⊢
    split
    · rfl
    · next enough =>
      rw [if_neg enough] at short
      cases read : d.readHeader fmt csid (b.take (headerLen fmt)) with
      | error e =>
        rw [read] at short
        contradiction
      | ok header =>
        rw [read] at short
        have same : d'.readHeader fmt csid (b.take (headerLen fmt)) = .ok header :=
          readHeader_limits (d := d) rfl limit read
        rw [same]
        exact short

end ChunkDecoder

namespace Side

variable {σ ev : Type} {side : Side σ ev} {s s' t t' : σ} {x : Bytes}

/-- A side in the same state but for its link, whose decoder has more bytes waiting. -/
def Ahead (side : Side σ ev) (x : Bytes) (s s' : σ) : Prop :=
  ∃ l, l.decoder = (side.link s).decoder.push x ∧ s' = side.withLink l s

/-- The same answer, in states that are related. -/
inductive Alike (related : σ → σ → Prop) :
    Except SessionError (σ × List ev) → Except SessionError (σ × List ev) → Prop
  | error (e : SessionError) : Alike related (.error e) (.error e)
  | ok {t t' : σ} (events : List ev) (same : related t t') : Alike related (.ok (t, events)) (.ok (t', events))

/-- A side takes its link as it is set, and handles messages without a look at what is behind them. -/
structure Uniform (side : Side σ ev) : Prop extends side.Lawful where
  withLink_withLink : ∀ l l' s, side.withLink l (side.withLink l' s) = side.withLink l s
  withLink_link : ∀ s, side.withLink (side.link s) s = s
  handle_ahead : ∀ m {x s s'}, side.Ahead x s s' → Alike (side.Ahead x) (side.handle m s) (side.handle m s')

theorem push_nil (d : ChunkDecoder) : d.push [] = d := by
  unfold ChunkDecoder.push
  rw [List.append_nil]

/-- The messages a side handles, up to the first error or until it needs more. -/
inductive Serves (side : Side σ ev) : σ → List (Message × List ev) → Option SessionError → σ → Prop
  | dry {s d} (next : (side.link s).decoder.nextMessage = (.ok none, d)) : Serves side s [] none (side.pulled s)
  | failed {s e d} (next : (side.link s).decoder.nextMessage = (.error e, d)) :
      Serves side s [] (some (.chunk e)) (side.pulled s)
  | refused {s m d e} (next : (side.link s).decoder.nextMessage = (.ok (some m), d))
      (handled : side.handle m (side.pulled s) = .error e) : Serves side s [(m, [])] (some e) (side.pulled s)
  | message {s m d t events handled outcome u} (next : (side.link s).decoder.nextMessage = (.ok (some m), d))
      (taken : side.handle m (side.pulled s) = .ok (t, events)) (later : Serves side t handled outcome u) :
      Serves side s ((m, events) :: handled) outcome u

namespace Uniform

theorem ahead_refl (uniform : side.Uniform) (s : σ) : side.Ahead [] s s :=
  ⟨side.link s, (push_nil _).symm, (uniform.withLink_link s).symm⟩

theorem ahead_link (uniform : side.Uniform) (ahead : side.Ahead x s s') :
    (side.link s').decoder = (side.link s).decoder.push x := by
  obtain ⟨l, decoder, rfl⟩ := ahead
  rw [uniform.link_withLink, decoder]

/-- Of two sides ahead of one, one is ahead of the other by the rest. -/
theorem ahead_rest (uniform : side.Uniform) {y : Bytes} (first : side.Ahead x s t) (all : side.Ahead (x ++ y) s t') :
    side.Ahead y t t' := by
  obtain ⟨l, decoder, rfl⟩ := first
  obtain ⟨l', decoder', rfl⟩ := all
  refine ⟨l', ?_, (uniform.withLink_withLink ..).symm⟩
  rw [decoder', uniform.link_withLink, decoder, ChunkDecoder.push_append]

/-- Sides that differ in what waits are at the same message once they have taken it. -/
theorem pulled_ahead (uniform : side.Uniform) (ahead : side.Ahead x s s')
    (next : ((side.link s).decoder.push x).nextMessage.2 = (side.link s).decoder.nextMessage.2.push x) :
    side.Ahead x (side.pulled s) (side.pulled s') := by
  obtain ⟨l, decoder, rfl⟩ := ahead
  refine ⟨{ l with decoder := l.decoder.nextMessage.2 }, ?_, ?_⟩
  · rw [uniform.pulled]
    show l.decoder.nextMessage.2 = _
    rw [decoder, next]
  · unfold pulled
    rw [uniform.link_withLink, uniform.withLink_withLink, uniform.withLink_withLink]

/-- Two sides in the state of one but for the link are, once they have taken the same, in the same state. -/
theorem pulled_alike (uniform : side.Uniform) {y : Bytes} (left : side.Ahead x s s')
    (right : side.Ahead y (side.pulled s) t')
    (same : (side.link s').decoder.nextMessage = (side.link t').decoder.nextMessage) :
    side.Ahead [] (side.pulled t') (side.pulled s') := by
  obtain ⟨l, -, rfl⟩ := left
  obtain ⟨l', -, rfl⟩ := right
  simp only [uniform.link_withLink] at same
  refine ⟨{ l with decoder := l.decoder.nextMessage.2 }, ?_, ?_⟩
  · rw [uniform.pulled, uniform.link_withLink, push_nil, same]
  · unfold pulled
    simp only [uniform.link_withLink, uniform.withLink_withLink]

end Uniform

/-- A side that is given bytes has them waiting. -/
theorem push_ahead (data : Bytes) (s : σ) : side.Ahead data s (side.push data s) := by
  refine ⟨_, ?_, rfl⟩
  show ((side.link s).received data.length).decoder.push data = _
  rw [received_decoder]

/-! ## What is served -/

namespace Serves

variable {handled handled' : List (Message × List ev)} {outcome outcome' : Option SessionError} {u u' : σ}

theorem unique (first : side.Serves s handled outcome u) (second : side.Serves s handled' outcome' u') :
    handled = handled' ∧ outcome = outcome' ∧ u = u' := by
  induction first generalizing handled' with
  | dry next =>
    cases second with
    | dry => exact ⟨rfl, rfl, rfl⟩
    | failed next' | refused next' | message next' => rw [next] at next'; injections
  | failed next =>
    cases second with
    | failed next' =>
      rw [next] at next'
      obtain rfl := Except.error.inj (Prod.mk.inj next').1
      exact ⟨rfl, rfl, rfl⟩
    | dry next' | refused next' | message next' => rw [next] at next'; injections
  | refused next refused =>
    cases second with
    | refused next' refused' =>
      rw [next] at next'
      obtain rfl := Option.some.inj (Except.ok.inj (Prod.mk.inj next').1)
      rw [refused] at refused'
      exact ⟨rfl, congrArg some (Except.error.inj refused'), rfl⟩
    | message next' taken =>
      rw [next] at next'
      obtain rfl := Option.some.inj (Except.ok.inj (Prod.mk.inj next').1)
      rw [refused] at taken
      injections
    | dry next' | failed next' => rw [next] at next'; injections
  | message next taken later ih =>
    cases second with
    | message next' taken' later' =>
      rw [next] at next'
      obtain rfl := Option.some.inj (Except.ok.inj (Prod.mk.inj next').1)
      rw [taken] at taken'
      obtain ⟨rfl, rfl⟩ := Prod.mk.inj (Except.ok.inj taken')
      obtain ⟨rfl, rest⟩ := ih later'
      exact ⟨rfl, rest⟩
    | refused next' refused =>
      rw [next] at next'
      obtain rfl := Option.some.inj (Except.ok.inj (Prod.mk.inj next').1)
      rw [taken] at refused
      injections
    | dry next' | failed next' => rw [next] at next'; injections

/-- The next message is the same for a side that is ahead. -/
theorem ahead_some (uniform : side.Uniform) (ahead : side.Ahead x s s')
    {result : Except ChunkError (Option Message)} {d : ChunkDecoder}
    (next : (side.link s).decoder.nextMessage = (result, d)) (something : result ≠ .ok none) :
    (side.link s').decoder.nextMessage = (result, d.push x) ∧
      side.Ahead x (side.pulled s) (side.pulled s') := by
  have more := ChunkDecoder.nextMessage_push next something x
  refine ⟨by rw [uniform.ahead_link ahead, more], uniform.pulled_ahead ahead ?_⟩
  rw [more, next]

/-- A side that is ahead fails at the same message. -/
theorem ahead_failed (uniform : side.Uniform) (ahead : side.Ahead x s s') {e : SessionError}
    (serves : side.Serves s handled (some e) u) : ∃ u', side.Serves s' handled (some e) u' := by
  generalize failed : some e = outcome at serves
  induction serves generalizing s' with
  | dry => contradiction
  | failed next =>
    obtain ⟨next', -⟩ := ahead_some uniform ahead next (by simp)
    exact ⟨_, .failed next'⟩
  | @refused s m d e next refused =>
    obtain ⟨next', pulled⟩ := ahead_some uniform ahead next (by simp)
    have alike := uniform.handle_ahead m pulled
    rw [refused] at alike
    generalize answer : side.handle m (side.pulled s') = result at alike
    cases alike
    exact ⟨_, .refused next' answer⟩
  | @message s m d t events handled outcome u next taken later ih =>
    obtain ⟨next', pulled⟩ := ahead_some uniform ahead next (by simp)
    have alike := uniform.handle_ahead m pulled
    rw [taken] at alike
    generalize answer : side.handle m (side.pulled s') = result at alike
    cases alike with
    | ok _ same =>
      obtain ⟨u', served⟩ := ih same failed
      exact ⟨u', .message next' answer served⟩

/-- Sides that are at the same message handle the same from there. -/
theorem congr (uniform : side.Uniform)
    (same : (side.link s').decoder.nextMessage = (side.link s).decoder.nextMessage)
    (pulled : side.Ahead [] (side.pulled s) (side.pulled s')) (serves : side.Serves s handled outcome u) :
    ∃ u', side.Serves s' handled outcome u' ∧ side.Ahead [] u u' := by
  induction serves generalizing s' with
  | dry next => exact ⟨_, .dry (by rw [same, next]), pulled⟩
  | failed next => exact ⟨_, .failed (by rw [same, next]), pulled⟩
  | @refused s m d e next refused =>
    have alike := uniform.handle_ahead m pulled
    rw [refused] at alike
    generalize answer : side.handle m (side.pulled s') = result at alike
    cases alike
    exact ⟨_, .refused (by rw [same, next]) answer, pulled⟩
  | @message s m d t events handled outcome u next taken later ih =>
    have alike := uniform.handle_ahead m pulled
    rw [taken] at alike
    generalize answer : side.handle m (side.pulled s') = result at alike
    cases alike with
    | @ok _ t' _ related =>
      have again : (side.link t').decoder = (side.link t).decoder := by
        rw [uniform.ahead_link related, push_nil]
      obtain ⟨u', served, last⟩ := ih (by rw [again]) (uniform.pulled_ahead related (by rw [push_nil, push_nil]))
      exact ⟨u', .message (by rw [same, next]) answer served, last⟩

/-- A side that is ahead goes on with what comes behind. -/
theorem ahead_dry (uniform : side.Uniform) (ahead : side.Ahead x s s') (serves : side.Serves s handled none t)
    (behind : side.Ahead x t t') (later : side.Serves t' handled' outcome u) :
    ∃ u', side.Serves s' (handled ++ handled') outcome u' ∧ side.Ahead [] u u' := by
  generalize dry : none = first at serves
  induction serves generalizing s' with
  | @dry s d next =>
    -- The call that gave no message leaves no trace, so the one after the push is the same.
    have traceless := ChunkDecoder.nextMessage_traceless next (by simp) x
    have drained : (side.link (side.pulled s)).decoder = d := by
      rw [uniform.pulled, next]
    have same : (side.link s').decoder.nextMessage = (side.link t').decoder.nextMessage := by
      rw [uniform.ahead_link ahead, uniform.ahead_link behind, drained, traceless]
    exact later.congr uniform same (uniform.pulled_alike ahead behind same)
  | failed => contradiction
  | refused => contradiction
  | @message s m d t events handled outcome u next taken later' ih =>
    obtain ⟨next', pulled⟩ := ahead_some uniform ahead next (by simp)
    have alike := uniform.handle_ahead m pulled
    rw [taken] at alike
    generalize answer : side.handle m (side.pulled s') = result at alike
    cases alike with
    | ok _ same =>
      obtain ⟨u', served, last⟩ := ih same behind dry
      exact ⟨u', .message next' answer served, last⟩

end Serves

/-! ## A byte sequence in pieces -/

private theorem feedLoop_serves (lawful : side.Lawful) {fuel : ℕ} {s : σ}
    (enough : (side.link s).decoder.buf.length < fuel) :
    side.Serves s (side.feedLoop fuel s).handled (side.feedLoop fuel s).outcome (side.feedLoop fuel s).session := by
  induction fuel generalizing s with
  | zero => omega
  | succ fuel ih =>
    have gives := (side.link s).decoder.nextMessage_gives
    unfold feedLoop
    rcases next : (side.link s).decoder.nextMessage with ⟨e | _ | m, d⟩
    · exact .failed next
    · exact .dry next
    · rw [next] at gives
      dsimp only
      cases handled : side.handle m (side.pulled s) with
      | error e => exact .refused next handled
      | ok result =>
        obtain ⟨t, events⟩ := result
        have buf := lawful.handle_buf handled
        have left := congrArg (fun l : Link => l.decoder.buf) (lawful.pulled s)
        rw [next] at left
        dsimp only at left
        have shorter := gives.1
        exact .message next handled (ih (by rw [buf, left]; omega))

theorem feed_serves (lawful : side.Lawful) (data : Bytes) (s : σ) :
    side.Serves (side.push data s) (side.feed data s).handled (side.feed data s).outcome
      (side.feed data s).session :=
  feedLoop_serves lawful (Nat.lt_succ_self _)

/-- A side with no whole chunk waiting. -/
def Rests (side : Side σ ev) (s : σ) : Prop := (side.link s).decoder.parse = .ok none

theorem feed_rests (lawful : side.Lawful) {data : Bytes} {s : σ} (done : (side.feed data s).outcome = none) :
    side.Rests (side.feed data s).session :=
  lawful.feedLoop_dry (Nat.lt_succ_self _) done

/-- The feeds made, up to the first that fails, and the side then. -/
structure Told (σ ev : Type) where
  fed : List (Fed σ ev)
  session : σ

namespace Told

variable (told : Told σ ev)

/-- The first error. -/
def error : Option SessionError := told.fed.findSome? Fed.outcome

/-- Every message handled, each with its events. -/
def handled : List (Message × List ev) := told.fed.flatMap Fed.handled

/-- The events raised, whether the caller gets to see them or not. -/
def raised : List ev := told.fed.flatMap Fed.raised

/-- What the caller sees of the feeds, up to the first error. -/
def reported : List ev :=
  told.fed.flatMap fun fed =>
    match fed.result with
    | .ok events => events
    | .error _ => []

/-- What the caller does not see: the events of the feed that fails, which returns its error. -/
def withheld : List ev := ((told.fed.find? fun fed => fed.outcome.isSome).map Fed.raised).getD []

/-- What came of both is the same, the message that fails included; so is what is reported, where none does. -/
structure Matches (told told' : Told σ ev) : Prop where
  handled : told.handled = told'.handled
  raised : told.raised = told'.raised
  error : told.error = told'.error
  reported : told.error = none → told.reported = told'.reported

end Told

/-- Feeds a side one piece after the other. -/
def feedAll (side : Side σ ev) : List Bytes → σ → Told σ ev
  | [], s => ⟨[], s⟩
  | data :: rest, s =>
    let fed := side.feed data s
    if fed.outcome.isSome then ⟨[fed], fed.session⟩
    else
      let told := feedAll side rest fed.session
      ⟨fed :: told.fed, told.session⟩

/-- Feeds a side the pieces of each group, with a call in between. -/
def feedGroups (side : Side σ ev) (call : σ → σ) : List (List Bytes) → σ → Told σ ev
  | [], s => ⟨[], s⟩
  | group :: rest, s =>
    let told := side.feedAll group s
    if told.error.isSome then told
    else
      let later := feedGroups side call rest (call told.session)
      ⟨told.fed ++ later.fed, later.session⟩

/-- The same came of both: the messages handled, the error, and the state to go on from. -/
structure Agree (side : Side σ ev) (handled handled' : List (Message × List ev))
    (failure failure' : Option SessionError) (s s' : σ) : Prop where
  handled : handled = handled'
  error : failure = failure'
  same : failure = none → side.Ahead [] s s' ∧ side.Rests s

/-- A call between feeds that looks at no bytes, of a side in a state that is usual. -/
structure Steady (side : Side σ ev) (call : σ → σ) (usual : σ → Prop) : Prop where
  alike : ∀ {s s'}, side.Ahead [] s s' → side.Ahead [] (call s) (call s')
  rests : ∀ {s}, usual s → side.Rests s → side.Rests (call s)
  called : ∀ {s}, usual s → usual (call s)
  pushed : ∀ {s} data, usual s → usual (side.push data s)
  pulled : ∀ {s}, usual s → usual (side.pulled s)
  handled : ∀ {m s t events}, side.handle m s = .ok (t, events) → usual s → usual t

namespace Uniform

private theorem ahead_symm (uniform : side.Uniform) (same : side.Ahead [] s s') : side.Ahead [] s' s := by
  obtain ⟨l, decoder, rfl⟩ := same
  refine ⟨side.link s, ?_, ?_⟩
  · rw [uniform.link_withLink, decoder, push_nil, push_nil]
  · rw [uniform.withLink_withLink, uniform.withLink_link]

theorem ahead_trans (uniform : side.Uniform) {s₁ s₂ s₃ : σ} (first : side.Ahead [] s₁ s₂)
    (second : side.Ahead x s₂ s₃) : side.Ahead x s₁ s₃ := by
  obtain ⟨l, decoder, rfl⟩ := first
  obtain ⟨l', decoder', rfl⟩ := second
  refine ⟨l', ?_, uniform.withLink_withLink ..⟩
  rw [decoder', uniform.link_withLink, decoder, push_nil]

theorem rests_alike (uniform : side.Uniform) (same : side.Ahead [] s s') (rests : side.Rests s) : side.Rests s' := by
  unfold Rests
  rw [uniform.ahead_link same, push_nil]
  exact rests

/-- Bytes pushed behind others are pushed with them. -/
theorem push_append (uniform : side.Uniform) (x y : Bytes) (s : σ) :
    side.Ahead y (side.push x s) (side.push (x ++ y) s) :=
  uniform.ahead_rest (push_ahead x s) (push_ahead (x ++ y) s)

private theorem push_alike (uniform : side.Uniform) (same : side.Ahead [] s s') (x : Bytes) :
    side.Ahead [] (side.push x s) (side.push x s') := by
  have all : side.Ahead (x ++ []) s (side.push x s') := by
    rw [List.append_nil]
    exact uniform.ahead_trans same (push_ahead x s')
  exact uniform.ahead_rest (push_ahead x s) all

private theorem feed_alike (uniform : side.Uniform) (same : side.Ahead [] s s') (x : Bytes) :
    side.Agree (side.feed x s).handled (side.feed x s').handled (side.feed x s).outcome (side.feed x s').outcome
      (side.feed x s).session (side.feed x s').session := by
  have pushed := uniform.push_alike same x
  have again : (side.link (side.push x s')).decoder = (side.link (side.push x s)).decoder := by
    rw [uniform.ahead_link pushed, push_nil]
  obtain ⟨u, served, last⟩ := (feed_serves uniform.toLawful x s).congr uniform (by rw [again])
    (uniform.pulled_ahead pushed (by rw [push_nil, push_nil]))
  obtain ⟨handled, outcome, rfl⟩ := served.unique (feed_serves uniform.toLawful x s')
  exact ⟨handled, outcome, fun done => ⟨last, feed_rests uniform.toLawful done⟩⟩

/-- A piece that fails does so whatever is in the piece behind what fails. -/
theorem feed_failed (uniform : side.Uniform) {e : SessionError} (failed : (side.feed x s).outcome = some e)
    (y : Bytes) :
    (side.feed (x ++ y) s).handled = (side.feed x s).handled ∧ (side.feed (x ++ y) s).outcome = some e := by
  have serves := feed_serves uniform.toLawful x s
  rw [failed] at serves
  obtain ⟨u, served⟩ := serves.ahead_failed uniform (uniform.push_append x y s)
  obtain ⟨handled, outcome, -⟩ := served.unique (feed_serves uniform.toLawful (x ++ y) s)
  exact ⟨handled.symm, outcome.symm⟩

/-- Two pieces in one are handled as one after the other. -/
theorem feed_append (uniform : side.Uniform) (done : (side.feed x s).outcome = none) (y : Bytes) :
    side.Agree ((side.feed x s).handled ++ (side.feed y (side.feed x s).session).handled)
      (side.feed (x ++ y) s).handled
      (side.feed y (side.feed x s).session).outcome (side.feed (x ++ y) s).outcome
      (side.feed y (side.feed x s).session).session (side.feed (x ++ y) s).session := by
  have serves := feed_serves uniform.toLawful x s
  rw [done] at serves
  obtain ⟨u, served, last⟩ := serves.ahead_dry uniform (uniform.push_append x y s) (push_ahead y _)
    (feed_serves uniform.toLawful y _)
  obtain ⟨handled, outcome, rfl⟩ := served.unique (feed_serves uniform.toLawful (x ++ y) s)
  exact ⟨handled, outcome, fun finished => ⟨last, feed_rests uniform.toLawful finished⟩⟩

/-- Nothing comes of no bytes. -/
theorem feed_nil (uniform : side.Uniform) (rests : side.Rests s) :
    side.Agree [] (side.feed [] s).handled none (side.feed [] s).outcome s (side.feed [] s).session := by
  have decoder : (side.link (side.push [] s)).decoder = (side.link s).decoder := by
    rw [uniform.ahead_link (push_ahead [] s), push_nil]
  have next : (side.link (side.push [] s)).decoder.nextMessage = (.ok none, (side.link s).decoder) := by
    rw [decoder, ChunkDecoder.nextMessage_eq, rests]
  obtain ⟨handled, outcome, session⟩ := (Serves.dry next).unique (feed_serves uniform.toLawful [] s)
  refine ⟨handled, outcome, fun _ => ⟨?_, rests⟩⟩
  rw [← session]
  refine uniform.ahead_trans (push_ahead [] s) ⟨_, ?_, rfl⟩
  rw [next, push_nil]
  exact decoder.symm

end Uniform

namespace Agree

variable {h₁ h₂ h₃ : List (Message × List ev)} {e₁ e₂ e₃ : Option SessionError} {s₁ s₂ s₃ : σ}

theorem symm (uniform : side.Uniform) (agree : side.Agree h₁ h₂ e₁ e₂ s₁ s₂) : side.Agree h₂ h₁ e₂ e₁ s₂ s₁ :=
  ⟨agree.handled.symm, agree.error.symm, fun none =>
    have both := agree.same (agree.error.trans none)
    ⟨uniform.ahead_symm both.1, uniform.rests_alike both.1 both.2⟩⟩

theorem trans (uniform : side.Uniform) (first : side.Agree h₁ h₂ e₁ e₂ s₁ s₂)
    (second : side.Agree h₂ h₃ e₂ e₃ s₂ s₃) : side.Agree h₁ h₃ e₁ e₃ s₁ s₃ :=
  ⟨first.handled.trans second.handled, first.error.trans second.error, fun none =>
    ⟨uniform.ahead_trans (first.same none).1 (second.same (first.error.symm.trans none)).1, (first.same none).2⟩⟩

end Agree

namespace Told

theorem error_cons (fed : Fed σ ev) (later : Told σ ev) (t : σ) :
    (Told.mk (fed :: later.fed) t).error = fed.outcome.or later.error := by
  unfold error
  rw [List.findSome?_cons]
  cases fed.outcome <;> rfl

theorem handled_append (first later : Told σ ev) (t : σ) :
    (Told.mk (first.fed ++ later.fed) t).handled = first.handled ++ later.handled :=
  List.flatMap_append

theorem error_append (first later : Told σ ev) (t : σ) :
    (Told.mk (first.fed ++ later.fed) t).error = first.error.or later.error :=
  List.findSome?_append

end Told

theorem feedAll_failed {data : Bytes} {e : SessionError} (failed : (side.feed data s).outcome = some e)
    (rest : List Bytes) : side.feedAll (data :: rest) s = ⟨[side.feed data s], (side.feed data s).session⟩ :=
  if_pos (by rw [failed]; rfl)

theorem feedAll_done {data : Bytes} (done : (side.feed data s).outcome = none) (rest : List Bytes) :
    side.feedAll (data :: rest) s =
      ⟨side.feed data s :: (side.feedAll rest (side.feed data s).session).fed,
        (side.feedAll rest (side.feed data s).session).session⟩ :=
  if_neg (by rw [done]; nofun)

theorem feedGroups_failed {call : σ → σ} {group : List Bytes} {e : SessionError}
    (failed : (side.feedAll group s).error = some e) (rest : List (List Bytes)) :
    side.feedGroups call (group :: rest) s = side.feedAll group s :=
  if_pos (by rw [failed]; rfl)

theorem feedGroups_done {call : σ → σ} {group : List Bytes} (done : (side.feedAll group s).error = none)
    (rest : List (List Bytes)) :
    side.feedGroups call (group :: rest) s =
      ⟨(side.feedAll group s).fed ++ (side.feedGroups call rest (call (side.feedAll group s).session)).fed,
        (side.feedGroups call rest (call (side.feedAll group s).session)).session⟩ :=
  if_neg (by rw [done]; nofun)

/-- However it is cut, a byte sequence is handled as in one piece. -/
theorem feedAll_agree (uniform : side.Uniform) (rests : side.Rests s) (pieces : List Bytes) :
    side.Agree (side.feedAll pieces s).handled (side.feed pieces.flatten s).handled
      (side.feedAll pieces s).error (side.feed pieces.flatten s).outcome
      (side.feedAll pieces s).session (side.feed pieces.flatten s).session := by
  induction pieces generalizing s with
  | nil => exact uniform.feed_nil rests
  | cons data rest ih =>
    rw [List.flatten_cons]
    cases outcome : (side.feed data s).outcome with
    | some e =>
      obtain ⟨handled, failed⟩ := uniform.feed_failed outcome rest.flatten
      rw [feedAll_failed outcome]
      have error : (Told.mk [side.feed data s] (side.feed data s).session).error = some e := by
        rw [Told.error_cons _ ⟨[], s⟩, outcome]
        rfl
      refine ⟨?_, error.trans failed.symm, fun none => ?_⟩
      · rw [handled]
        exact List.append_nil _
      · rw [error] at none
        contradiction
    | none =>
      have later := ih (feed_rests uniform.toLawful outcome)
      have joined := uniform.feed_append outcome rest.flatten
      rw [feedAll_done outcome]
      have error : (Told.mk (side.feed data s :: (side.feedAll rest (side.feed data s).session).fed)
          (side.feedAll rest (side.feed data s).session).session).error =
          (side.feedAll rest (side.feed data s).session).error := by
        rw [Told.error_cons, outcome]
        rfl
      refine Agree.trans uniform ⟨?_, error.trans later.error, fun none => ?_⟩ joined
      · rw [← later.handled]
        rfl
      · exact later.same (error.symm.trans none)

/-- Two ways to cut a byte sequence come to the same. -/
theorem feedAll_alike (uniform : side.Uniform) (same : side.Ahead [] s s') (rests : side.Rests s)
    {pieces pieces' : List Bytes} (bytes : pieces.flatten = pieces'.flatten) :
    side.Agree (side.feedAll pieces s).handled (side.feedAll pieces' s').handled
      (side.feedAll pieces s).error (side.feedAll pieces' s').error
      (side.feedAll pieces s).session (side.feedAll pieces' s').session := by
  have left := feedAll_agree uniform rests pieces
  have right := feedAll_agree uniform (uniform.rests_alike same rests) pieces'
  rw [bytes] at left
  exact (left.trans uniform (uniform.feed_alike same _)).trans uniform (right.symm uniform)

namespace Steady

variable {call : σ → σ} {usual : σ → Prop}

theorem served (steady : side.Steady call usual) {handled : List (Message × List ev)}
    {outcome : Option SessionError} {u : σ} (serves : side.Serves s handled outcome u) (start : usual s) : usual u := by
  induction serves with
  | dry | failed | refused => exact steady.pulled start
  | message next taken later ih => exact ih (steady.handled taken (steady.pulled start))

theorem feedAll (steady : side.Steady call usual) (lawful : side.Lawful) (start : usual s) (pieces : List Bytes) :
    usual (side.feedAll pieces s).session := by
  induction pieces generalizing s with
  | nil => exact start
  | cons data rest ih =>
    have fed := steady.served (feed_serves lawful data s) (steady.pushed data start)
    cases outcome : (side.feed data s).outcome with
    | some e =>
      rw [feedAll_failed outcome]
      exact fed
    | none =>
      rw [feedAll_done outcome]
      exact ih fed

end Steady

/-- So do two ways with calls at the same places. -/
theorem feedGroups_alike (uniform : side.Uniform) {call : σ → σ} {usual : σ → Prop}
    (steady : side.Steady call usual) (start : usual s)
    (same : side.Ahead [] s s') (rests : side.Rests s) {groups groups' : List (List Bytes)}
    (bytes : groups.map List.flatten = groups'.map List.flatten) :
    side.Agree (side.feedGroups call groups s).handled (side.feedGroups call groups' s').handled
      (side.feedGroups call groups s).error (side.feedGroups call groups' s').error
      (side.feedGroups call groups s).session (side.feedGroups call groups' s').session := by
  induction groups generalizing groups' s s' with
  | nil =>
    obtain rfl := List.map_eq_nil_iff.mp bytes.symm
    exact ⟨rfl, rfl, fun _ => ⟨same, rests⟩⟩
  | cons group rest ih =>
    cases groups' with
    | nil => contradiction
    | cons group' rest' =>
      obtain ⟨first, others⟩ := List.cons.inj bytes
      have agree := feedAll_alike uniform same rests first
      cases error : (side.feedAll group s).error with
      | some e =>
        rw [feedGroups_failed error, feedGroups_failed (agree.error.symm.trans error)]
        exact agree
      | none =>
        have error' := agree.error.symm.trans error
        obtain ⟨alike, resting⟩ := agree.same error
        have going := steady.feedAll uniform.toLawful start group
        have later := ih (steady.called going) (steady.alike alike) (steady.rests going resting) others
        rw [feedGroups_done error, feedGroups_done error']
        refine ⟨?_, ?_, fun none => later.same ?_⟩
        · rw [Told.handled_append, Told.handled_append, agree.handled, later.handled]
        · rw [Told.error_append, Told.error_append, error, error', Option.none_or, Option.none_or, later.error]
        · rwa [Told.error_append, error, Option.none_or] at none

/-! ## What the caller sees -/

namespace Told

/-- Feeds of which only the last may fail. -/
inductive Stops : List (Fed σ ev) → Prop
  | nil : Stops []
  | failed {fed : Fed σ ev} {e : SessionError} (outcome : fed.outcome = some e) : Stops [fed]
  | done {fed : Fed σ ev} {later : List (Fed σ ev)} (outcome : fed.outcome = none) (stops : Stops later) :
      Stops (fed :: later)

theorem Stops.append {first later : List (Fed σ ev)} (left : Stops first)
    (fine : first.findSome? Fed.outcome = none) (right : Stops later) : Stops (first ++ later) := by
  induction left with
  | nil => exact right
  | failed outcome =>
    rw [List.findSome?_cons, outcome] at fine
    contradiction
  | done outcome _ ih =>
    rw [List.findSome?_cons, outcome] at fine
    exact .done outcome (ih fine)

/-- Every event is reported but those of the feed that fails. -/
theorem raised_eq {told : Told σ ev} (stops : Stops told.fed) : told.raised = told.reported ++ told.withheld := by
  obtain ⟨fed, session⟩ := told
  unfold raised reported withheld
  dsimp only at stops ⊢
  induction stops with
  | nil => rfl
  | failed outcome =>
    simp only [List.flatMap_cons, List.flatMap_nil, List.append_nil, List.find?_cons, Fed.result, outcome]
    rfl
  | done outcome _ ih =>
    simp only [List.flatMap_cons, List.find?_cons, Fed.result, outcome, Option.isSome_none, ih, List.append_assoc]

theorem withheld_eq_nil {told : Told σ ev} (fine : told.error = none) : told.withheld = [] := by
  have none : (told.fed.find? fun fed => fed.outcome.isSome) = none := by
    refine List.find?_eq_none.mpr fun fed member some => ?_
    rw [List.findSome?_eq_none_iff.mp fine fed member] at some
    contradiction
  unfold withheld
  rw [none]
  rfl

theorem raised_handled (told : Told σ ev) : told.raised = told.handled.flatMap Prod.snd := by
  unfold raised handled
  rw [List.flatMap_assoc]
  rfl

end Told

theorem feedAll_stops (pieces : List Bytes) (s : σ) : Told.Stops (side.feedAll pieces s).fed := by
  induction pieces generalizing s with
  | nil => exact .nil
  | cons data rest ih =>
    cases outcome : (side.feed data s).outcome with
    | some e =>
      rw [feedAll_failed outcome]
      exact .failed outcome
    | none =>
      rw [feedAll_done outcome]
      exact .done outcome (ih _)

theorem feedGroups_stops {call : σ → σ} (groups : List (List Bytes)) (s : σ) :
    Told.Stops (side.feedGroups call groups s).fed := by
  induction groups generalizing s with
  | nil => exact .nil
  | cons group rest ih =>
    cases error : (side.feedAll group s).error with
    | some e =>
      rw [feedGroups_failed error]
      exact feedAll_stops group s
    | none =>
      rw [feedGroups_done error]
      exact (feedAll_stops group s).append error (ih _)

/-- Feeds that agree tell the same. -/
theorem Agree.matches {told told' : Told σ ev}
    (agree : side.Agree told.handled told'.handled told.error told'.error told.session told'.session)
    (stops : Told.Stops told.fed) (stops' : Told.Stops told'.fed) : told.Matches told' := by
  have raised : told.raised = told'.raised := by
    rw [told.raised_handled, told'.raised_handled, agree.handled]
  refine ⟨agree.handled, raised, agree.error, fun fine => ?_⟩
  have all := Told.raised_eq stops
  have all' := Told.raised_eq stops'
  rw [Told.withheld_eq_nil fine, List.append_nil] at all
  rw [Told.withheld_eq_nil (agree.error.symm.trans fine), List.append_nil] at all'
  rw [← all, ← all', raised]

end Side

end StreamDelay.Rtmp
