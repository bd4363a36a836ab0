import Mathlib.Tactic.Common
import StreamDelay.Engine.Command

/-! # Polling the output

`pollBudget` moves every message that is due to the destination. One round of its loop either sends
the message at the cursor, moves the cursor, or finds that nothing more can be sent now; the three
parts of a round are the gates before the cursor, the search for a keyframe to start from, and the
message itself.
-/

namespace StreamDelay

open Flv (Bytes)

/-- How a round of the poll loop ends. -/
inductive Round where
  | again (e : Engine) (sent : List Sent)
  | stop (e : Engine) (sent : List Sent) (wake : Option ℕ)

/-- How the search for a keyframe to start from ends. -/
inductive Search where
  | again (e : Engine)
  | stop (e : Engine) (wake : Option ℕ)
  | ready (e : Engine)

namespace Engine

/-- When what comes after a replay is due. -/
def replayDue (now fromSeq delay : ℕ) (e : Engine) : ℕ :=
  ((e.syncs.find? fun s => fromSeq ≤ s).bind e.entry).elim (now + delay) fun x => x.arrival + delay

/-- A replay that ran out well before what comes next is due holds its last keyframe. -/
def holdReplay (now fromSeq delay : ℕ) (e : Engine) : Engine :=
  let frame := e.airedKeyframe now
  let e := e.setPending (.hold fromSeq delay)
  { e with out := { e.out with hold := frame, needSync := true } }

/-- The cursor catches up with what eviction took. -/
def catchUp (e : Engine) : Engine :=
  if e.out.nextSeq < e.baseSeq then
    { e with out := { e.out with nextSeq := e.baseSeq, needSync := true } }
  else e

/-- At a message of another encoder session: restart at that session's first keyframe. -/
def noticeSession (e : Engine) : Engine :=
  match e.out.currentSession, e.entry e.out.nextSeq with
  | some cs, some x =>
    if !e.out.needSync && x.session ≠ cs then { e with out := { e.out with needSync := true } }
    else e
  | _, _ => e

/-- The session of the message at the cursor, if it is buffered. -/
def cursorSession (e : Engine) : Option ℕ := (e.entry e.out.nextSeq).map Entry.session

/-- The keyframes the output may start from, at or after the cursor in the cursor's session. -/
def candidates (e : Engine) : List ℕ :=
  e.syncs.filter fun s => e.out.nextSeq ≤ s && (e.entry s).map Entry.session = e.cursorSession

/-- The keyframe to start from. Before the broadcast: the newest that already meets the delay. -/
def startKeyframe (now : ℕ) (e : Engine) : Option ℕ :=
  let first := e.candidates.head?
  if e.out.started then first
  else
    first.map fun f =>
      ((e.candidates.filter fun s =>
        (e.entry s).any fun x => x.arrival + e.out.delay ≤ now).getLast?).getD f

def pastMark (e : Engine) : Bool := e.endReached

/-- Splices to the keyframe `k` that is due: a late start catches up to the delay asked for. -/
def startAt (now k arrival : ℕ) (e : Engine) : Engine :=
  let delay := max e.out.delay (now - arrival)
  let late := !e.out.started && e.out.pending = .none && e.out.target + 500 * MS ≤ delay
  let e := e.spliceTo k delay
  if late then e.setPending (.reduce e.out.target) else e.backUnderMax

/-- The search for a keyframe, when the output needs one. -/
def findSync (now : ℕ) (e : Engine) : Search :=
  match e.startKeyframe now with
  | none =>
    -- Nothing to start from yet; an old session without a keyframe left is skipped.
    match e.cursorSession with
    | none => .stop e none
    | some s =>
      if e.sessions.getLast?.map Session.id ≠ some s then
        .again { e with out := { e.out with nextSeq := e.nextSessionStart s } }
      else .stop e none
  | some k =>
    match e.out.endMark.filter fun m => m < k with
    | some m => .stop { e with out := { e.out with nextSeq := m + 1 } } none
    | none =>
      let arrival := e.arrivalOr k now
      if now < arrival + e.out.delay then .stop e (some (arrival + e.out.delay))
      else
        let e := e.startAt now k arrival
        if e.pastMark then .stop e none else .ready e

/-- The first message sent on a connection is remembered. -/
def noteFirst (e : Engine) : Engine :=
  { e with out := { e.out with firstEmitted := e.out.firstEmitted.or (some e.out.nextSeq) } }

/-- Moves the cursor past a message. -/
def pass (e : Engine) : Engine :=
  { e with out := { e.out with nextSeq := e.out.nextSeq + 1, landing := none } }

/-- After a splice, the headers valid at the cursor. -/
def sendHeaders (e : Engine) : Engine × List Sent :=
  if e.out.pendingHeaders then e.emitHeaders else (e, [])

/-- Sends the message at the cursor, and moves past it. -/
def sendEntry (e : Engine) : Engine × List Sent :=
  let (e, headers) := e.sendHeaders
  let (e, sent) := e.noteFirst.emitEntry
  (e.pass.tally (headers ++ sent), headers ++ sent)

/-- What the slate covers after a dump airs without its sound. -/
def muted (e : Engine) (x : Entry) : Bool :=
  e.out.pending.mutes && x.kind = .audio && x.config.isNone

/-- Leaves the message at the cursor out. -/
def muteEntry (e : Engine) : Engine := e.drop.pass

/-- The end of a round: the message at the cursor, if it is due. -/
def sendDue (now maxBytes emitted : ℕ) (e : Engine) : Round :=
  match e.entry e.out.nextSeq with
  | none => .stop e [] none
  | some x =>
    let due := x.arrival + e.out.delay
    if now < due then .stop e [] (some due)
    else if maxBytes ≤ emitted then .stop e [] (some (now + 50 * MS))
    else if e.muted x then .again (e.muteEntry.runPending now) []
    else
      let (e, sent) := e.sendEntry
      .again (e.runPending now) sent

/-- A round from the search for a keyframe on. -/
def sendFrom (now maxBytes emitted : ℕ) (e : Engine) : Round :=
  if e.out.needSync then
    match e.findSync now with
    | .again e => .again e []
    | .stop e wake => .stop e [] wake
    | .ready e => e.sendDue now maxBytes emitted
  else e.sendDue now maxBytes emitted

/-- A round past the gates of a dump: the cursor catches up, and stops at the end mark. -/
def advance (now maxBytes emitted : ℕ) (e : Engine) : Round :=
  let e := e.catchUp
  if e.pastMark then .stop e [] none else e.noticeSession.sendFrom now maxBytes emitted

/-- One round of the poll loop. -/
def pollRound (now maxBytes emitted : ℕ) (e : Engine) : Round :=
  match e.out.pending with
  | .dump .. | .hold .. =>
    let (e, sent, wake) := e.emitHoldFrame now
    .stop e sent wake
  | .replay fromSeq delay =>
    if fromSeq ≤ e.out.nextSeq then
      if now + REPLAY_GAP_HELD_AFTER < e.replayDue now fromSeq delay then
        .again (e.holdReplay now fromSeq delay) []
      else .stop e [] none
    else e.advance now maxBytes emitted
  | _ => e.advance now maxBytes emitted

def payloadBytes (sent : List Sent) : ℕ := (sent.map fun s => s.msg.payload.length).sum

/-- The poll loop, with a bound on its rounds. -/
def pollLoop (now maxBytes : ℕ) : ℕ → ℕ → Engine → Engine × List Sent × Option ℕ
  | 0, _, e => (e, [], none)
  | fuel + 1, emitted, e =>
    match e.pollRound now maxBytes emitted with
    | .stop e sent wake => (e, sent, wake)
    | .again e sent =>
      let (e, rest, wake) := pollLoop now maxBytes fuel (emitted + payloadBytes sent) e
      (e, sent ++ rest, wake)

/-- Rounds enough for any poll: a round passes a message, moves to a later session or ends a replay,
and a change that completes can send the cursor back over the buffer once. -/
def pollFuel (e : Engine) : ℕ := 3 * e.ring.length + 8

/-- Like `poll`, but stops once `maxBytes` of payload have been moved. -/
def pollBudget (now maxBytes : ℕ) (e : Engine) : Engine × List Sent × Option ℕ :=
  let e := (e.evict now).runPending now
  let pendingWake := if e.out.pending ≠ .none then some (now + 50 * MS) else none
  if !e.out.connected then (e, [], pendingWake)
  else
    let (e, sent, wake) := pollLoop now maxBytes e.pollFuel 0 e
    (e, sent, match wake, pendingWake with
      | some a, some b => some (min a b)
      | a, b => a.or b)

end Engine

end StreamDelay
