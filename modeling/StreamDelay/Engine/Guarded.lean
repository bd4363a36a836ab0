import Mathlib.Tactic.Common
import StreamDelay.Engine.Run
import StreamDelay.Foundations.Checked

/-! # The engine with its panics

The operations of the engine with every subtraction, every part of a list taken out and every element relied
on checked: `none` where the source would panic, or a loop would not end. A function that does none of this
and calls none that does is used as it is; a subtraction that the source saturates or checks itself stays.
-/

namespace StreamDelay

open Flv (Bytes)
open Foundations.Checked (sub index remove drain)
open Foundations

namespace Engine.Guarded

/-- The entry numbered `seq`, found by its distance from the first. -/
def entry (seq : ℕ) (e : Engine) : Option (Option Entry) :=
  if seq < e.baseSeq then return none
  else do
    let i ← sub seq e.baseSeq
    return e.ring[i]?

/-! ## Forgetting configuration and sessions -/

/-- The loop of `forget_headers` over the configurations of a session, from `i` on. -/
def forgetLoop (base : ℕ) : ℕ → ℕ → List HeaderRec → Option (List HeaderRec)
  | 0, _, _ => none
  | fuel + 1, i, headers =>
    if i < headers.length then do
      let h ← index headers i
      let newer ← Checked.advance headers (i + 1)
      if newer.any fun n => n.kind = h.kind ∧ n.class_ = h.class_ ∧ n.seq < base then
        let (_, rest) ← remove headers i
        forgetLoop base fuel i rest
      else forgetLoop base fuel (i + 1) headers
    else some headers

def forgetHeaders (e : Engine) : Option Engine := do
  let sessions ← e.sessions.mapM fun s =>
    (forgetLoop e.baseSeq (s.headers.length + 1) 0 s.headers).map fun headers => { s with headers := headers }
  return if sessions = e.sessions then e else { e with sessions := sessions }.countSessions

def forgetSessions (e : Engine) : Option Engine := do
  let e ← forgetHeaders e
  match e.ring with
  | [] => return e
  | front :: _ =>
    if e.sessions.head?.any fun s => s.id < front.session then
      let current := e.sessions.getLast?.map Session.id
      return { e with
        sessions := e.sessions.filter fun s => front.session ≤ s.id || some s.id = current }.countSessions
    else return e

/-! ## Taking messages out -/

/-- The popping loop; what is taken off is expected to be there. -/
def popLoop (stop : ℕ) : ℕ → Engine → Option Engine
  | 0, _ => none
  | fuel + 1, e =>
    if e.ring.head?.any fun f => f.seq < stop then do
      let f ← e.ring.head?
      let bytes ← sub e.bytes (cost f.payload.length)
      popLoop stop fuel
        { e with
          ring := e.ring.tail
          bytes := bytes
          baseSeq := f.seq + 1
          syncs := if e.syncs.head? = some f.seq then e.syncs.tail else e.syncs }
    else some e

def popBefore (stop : ℕ) (e : Engine) : Option Engine := popLoop stop (e.ring.length + 1) e

def dropBefore (seq : ℕ) (e : Engine) : Option Engine := do
  let e ← popBefore seq e
  forgetHeaders (if e.ring.isEmpty then { e with baseSeq := max e.baseSeq (min seq e.nextSeq) } else e)

def dropBuffer (e : Engine) : Option Engine := do
  let e := { e with ring := [], syncs := [], bytes := 0, baseSeq := e.nextSeq }
  let current := if e.ingestActive then e.sessions.getLast?.map Session.id else none
  let e ← forgetHeaders { e with sessions := e.sessions.filter fun s => some s.id = current }.countSessions
  return { e with out := { e.out with nextSeq := e.nextSeq, needSync := true } }

def evictLoop (now capacity : ℕ) (keepFrom restart : Option ℕ) : ℕ → Engine → Bool → Option (Engine × Bool)
  | 0, _, _ => none
  | fuel + 1, e, lost =>
    match e.ring with
    | [] => some (e, lost)
    | front :: _ =>
      let plan := e.evictPlan now capacity keepFrom restart front
      if plan.evict then do
        let e ← popBefore plan.stop e
        let e ← forgetSessions e
        evictLoop now capacity keepFrom restart fuel e (lost || plan.lostUnaired)
      else some (e, lost)

def evict (now : ℕ) (e : Engine) : Option Engine := do
  let capacity := (e.config.maxDelayMs + e.config.headroomMs) * MS
  let (next, lostUnaired) ← evictLoop now capacity (e.keepFrom now) e.restartPoint (e.ring.length + 1) e false
  return if lostUnaired then next.memoryShort now else next

/-! ## Taking in the encoder's stream -/

/-- The loop of `ingest` that makes room for a configuration; `kept` is the cost of those left. -/
def trimHeaders (budget need : ℕ) : ℕ → ℕ → List HeaderRec → Option (List HeaderRec)
  | 0, _, _ => none
  | fuel + 1, kept, headers =>
    if MAX_HEADERS ≤ headers.length ∨ budget < kept + need then do
      let (h, rest) ← remove headers 0
      let kept ← sub kept (StreamDelay.cost h.payload.length)
      trimHeaders budget need fuel kept rest
    else some headers

def keepHeader (s : Session) (budget seq : ℕ) (kind : Kind) (config : Option UInt16) (payload : Bytes) :
    Option Session :=
  match config with
  | none => return s
  | some class_ =>
    if !s.isRepeat kind class_ payload ∧ payload.length ≤ MAX_HEADER_BYTES ∧
        StreamDelay.cost payload.length ≤ budget then do
      let headers ← trimHeaders budget (StreamDelay.cost payload.length) (s.headers.length + 1)
        (headersCost s.headers) s.headers
      return { s with headers := headers ++ [⟨seq, kind, class_, payload⟩] }
    else return s

def append (now : ℕ) (kind : Kind) (ts : ℕ) (payload : Bytes) (session : Session) (e : Engine) :
    Option Engine := do
  let c := classify now kind ts payload session e.stats
  let seq := e.nextSeq
  let budget := e.config.ramCapBytes / HEADER_SHARE_OF_RAM_CAP
  let kept ← keepHeader c.session budget seq kind c.config payload
  let entry : Entry :=
    { seq, kind, ts, payload
      arrival := now
      session := kept.id
      sync := c.sync
      config := c.config
      cts := c.cts
      hevcNal := c.hevcNal
      nalOffset := c.nalOffset
      id := e.received }
  let e :=
    { e with
      nextSeq := seq + 1
      syncs := if c.sync then e.syncs ++ [seq] else e.syncs
      stats := c.stats.bytes now payload.length
      bytes := e.bytes + cost payload.length
      sessions := e.sessions.dropLast ++ [kept]
      ring := e.ring ++ [entry]
      received := e.received + 1 }
  return if c.config.isSome then e.countSessions else e

def ingest (now : ℕ) (kind : Kind) (ts : ℕ) (payload : Bytes) (e : Engine) : Option Engine :=
  if !e.ingestActive || payload.isEmpty then return e
  else
    match e.sessions.getLast? with
    | none => return e
    | some session => do
      let e ← append now kind ts payload session e
      evict now e

def ingestStart (_now : ℕ) (e : Engine) : Option Engine := do
  let e ← if e.out.started then some e else dropBuffer e
  let e := e.popIdleSession
  let session : Session := ⟨e.nextSession, [], none, false, none, 33⟩
  let e :=
    { e with
      nextSession := e.nextSession + 1
      sessions := e.sessions ++ [session] }.countSessions
  return { e with ingestActive := true, stats := {} }

/-! ## The frame a hold shows -/

def holdTs (now : ℕ) (h : HoldFrame) (e : Engine) : Option ℕ := do
  let lastVideo := (e.out.lastKindTs.get .video).getD 0
  let shown ← sub now h.last
  return max ((max e.out.lastOutTs lastVideo + max (shown / MS) 1) % 2 ^ 64) (e.afterSent h.frameMs h.cts)

def showFrame (now : ℕ) (e : Engine) : Option (Engine × List Sent) := do
  let h ← e.out.hold
  let t ← holdTs now h e
  let before := e.out.sent
  let (e, headers) := (e.frameShown now h).frameHeaders h t
  let next := (e.recordTs .video t).recordPts (signed (t + h.cts))
  let sent := headers ++ [.make .video t h.payload none (.held h.entry h.cts) e.out.maskVisible (some before)]
  return ((next.countSent h.payload).tally sent, sent)

def emitHoldFrame (now : ℕ) (e : Engine) : Option (Engine × List Sent × Option ℕ) :=
  match e.out.hold with
  | none => return (e, [], none)
  | some h =>
    if now < h.next then return (e, [], some h.next)
    else do
      let (e, sent) ← showFrame now e
      return (e, sent, some (now + SEC))

def endHold (now : ℕ) (e : Engine) : Option Engine :=
  match e.out.hold with
  | none => return e
  | some h => do
    let shown ← sub now h.last
    return { e with
      out := { e.out with hold := none, lastOutTs := (e.out.lastOutTs + shown / MS) % 2 ^ 64 } }

/-! ## Dumps -/

def truncate (cut : ℕ) (e : Engine) : Option Engine := do
  let keep ← sub cut e.baseSeq
  let (kept, gone) ← drain e.ring keep
  let bytes ← gone.foldlM (fun bytes x => sub bytes (cost x.payload.length)) e.bytes
  return { e with
    bytes := bytes
    ring := kept
    syncs := e.syncs.filter fun s => s < cut
    nextSeq := cut }

def replayAt (now delay k : ℕ) (e : Engine) : Option Engine := do
  let cut := e.cut
  let e ← truncate cut e
  let e := (e.splitSession cut).setPending (.replay cut delay)
  return e.spliceTo k (now - e.arrivalOr k now)

def replayInstead (now delay : ℕ) (e : Engine) : Option (Option Engine) :=
  match e.replayFrom now delay with
  | none => return none
  | some k => (replayAt now delay k e).map some

def holdInstead (now delay : ℕ) (cover : Bool) (e : Engine) : Option (Engine × DumpOutcome) := do
  let frame := e.airedKeyframe now
  let e ← dropBuffer e
  let fromSeq := e.nextSeq
  return if cover then (((e.setPending (.dump delay now fromSeq none)).raiseSlate).withHold frame, .cover)
    else ((e.setPending (.hold fromSeq delay)).withHold frame, .hold)

def dump (now : ℕ) (mode : DelayMode) (cover : Bool) (e : Engine) : Option (Engine × DumpOutcome) :=
  if !e.out.started then do return (← dropBuffer e, .hold)
  else if e.dumpEnding then do return ((← dropBuffer e).setPending .none, .hold)
  else do
    let delay := e.dumpDelay
    let e := e.retarget delay
    match ← (if mode = .rewind then replayInstead now delay e else some none) with
    | some e => return (e, .replay)
    | none => holdInstead now delay cover e

/-! ## Running what is pending -/

def runMaskAt (now : ℕ) (m : MaskChange) (anchor : ℕ) (e : Engine) : Option Engine :=
  match e.entry anchor with
  | none => return e.setPending .none
  | some x =>
    if x.arrival + m.delay ≤ now then do
      let age ← sub now x.arrival
      return (e.spliceTo anchor age).setPending .none
    else return e

def anchorMask (now : ℕ) (m : MaskChange) (since : ℕ) (e : Engine) : Option Engine :=
  match e.firstSyncArrivedFrom since with
  | none => return e
  | some a => runMaskAt now { m with anchor := some a } a (e.withPending (.mask { m with anchor := some a }))

def runMask (now : ℕ) (m : MaskChange) (e : Engine) : Option Engine :=
  match m.anchor with
  | some a => runMaskAt now m a e
  | none =>
    let margin := e.config.maskMarginMs * MS
    match m.shown with
    | some t => anchorMask now m (t + margin) e
    | none =>
      if m.started + SLATE_CONFIRM_WAIT ≤ now then
        anchorMask now m (m.started + margin) { e with out := { e.out with slateUnconfirmed := true } }
      else return e

def runHold (now fromSeq delay : ℕ) (e : Engine) : Option Engine :=
  match e.syncs.find? fun s => fromSeq ≤ s && e.out.endMark.all fun m => s ≤ m with
  | none =>
    match e.out.endMark with
    | none => return e
    | some m =>
      return { e with
        out :=
          { e.out with
            nextSeq := max e.out.nextSeq (m + 1)
            pending := .none
            hold := none
            coverLost := false } }
  | some k =>
    let arrival := e.arrivalOr k now
    if arrival + delay ≤ now then do
      let ended ← endHold now e
      let age ← sub now arrival
      let e := (ended.spliceTo k age).finishPending
      return { e with out := { e.out with coverLost := false } }
    else return e

def runDump (now delay : ℕ) (started : ℕ) (fromSeq : ℕ) (shown : Option ℕ) (e : Engine) : Option Engine :=
  match shown with
  | none =>
    if started + SLATE_CONFIRM_WAIT ≤ now then
      let e := { e with out := { e.out with coverLost := true } }
      runHold now fromSeq delay (e.setPending (.hold fromSeq delay))
    else return e
  | some t =>
    match e.firstSyncArrivedFrom (t + e.config.maskMarginMs * MS) with
    | none => return e
    | some anchor => do
      let ended ← endHold now e
      let e := ended.spliceTo anchor (now - e.arrivalOr anchor now)
      let m : MaskChange := ⟨delay, started, some anchor, e.config.muteUnderSlate, shown, true⟩
      runMask now m (e.withPending (.mask m))

def runReplay (now fromSeq delay : ℕ) (e : Engine) : Option Engine :=
  match e.syncs.find? fun s => fromSeq ≤ s with
  | none => return e
  | some k =>
    let arrival := e.arrivalOr k now
    if arrival + delay ≤ now then do
      let age ← sub now arrival
      return (e.spliceTo k age).finishPending
    else return e

def runPending (now : ℕ) (e : Engine) : Option Engine :=
  match e.out.pending with
  | .mask m => runMask now m e
  | .dump delay started fromSeq shown => runDump now delay started fromSeq shown e
  | .hold fromSeq delay => runHold now fromSeq delay e
  | .replay fromSeq delay => runReplay now fromSeq delay e
  | _ => return e.runPending now

/-! ## Commands and the end of a broadcast -/

def setDelay (now ms : ℕ) (mode : DelayMode) (e : Engine) : Option Engine :=
  let d := ms * MS
  match (if 0 < ms then e.out.pending.withDumpDelay d else none) with
  | some p => runPending now (e.setDumpDelay d p)
  | none =>
    let mode := e.effectiveMode mode
    if e.sameMask d mode then return e else runPending now (e.changeDelay now d mode)

def obey (now : ℕ) (cmd : Command) (e : Engine) : Option (Engine × Except EngineError Ack) :=
  match cmd with
  | .slateShown change => do let e ← runPending now (e.slateShown now change); return (e, .ok e.ack)
  | .cancel => do let e ← runPending now e.cancel; return (e, .ok e.ack)
  | .dump mode cover =>
    if e.canDump then do
      let (e, outcome) ← dump now mode cover e
      let e ← runPending now e
      return (e, .ok { e.ack with dump := some outcome })
    else return (e, .error .nothingToDump)
  | .goLive when_ => do let e ← runPending now (e.goLive when_); return (e, .ok e.ack)
  | .setDelay ms mode => do let e ← setDelay now ms mode e; return (e, .ok e.ack)

def command (now : ℕ) (cmd : Command) (e : Engine) : Option (Engine × Except EngineError Ack) :=
  match e.checkCommand cmd with
  | some err => return (e, .error err)
  | none => obey now cmd (e.clearNotices cmd)

def dumpAfter (now : ℕ) (taken : Option ℕ) (mode : DelayMode) (cover : Bool) (e : Engine) :
    Option (Engine × Except EngineError Ack) :=
  if e.canDump then command now (.dump mode cover) (e.unsend taken)
  else if !e.out.connected then return (e, .error .nothingToDump)
  else return (e.refuseDump taken, .error .nothingToDump)

def discard (e : Engine) : Option Engine := (dropBuffer e).map Engine.outputReset

def restartAfterEnd (e : Engine) : Option Engine := do
  let fromSeq := e.out.endMark.elim e.nextSeq (· + 1)
  let e ← dropBefore fromSeq e
  let e := e.outputReset
  return { e with out := { e.out with nextSeq := max fromSeq e.baseSeq } }

/-! ## Polling the output -/

def startAt (now k arrival : ℕ) (e : Engine) : Option Engine := do
  let age ← sub now arrival
  let delay := max e.out.delay age
  let late := !e.out.started && e.out.pending = .none && e.out.target + 500 * MS ≤ delay
  let e := e.spliceTo k delay
  return if late then e.setPending (.reduce e.out.target) else e.backUnderMax

def findSync (now : ℕ) (e : Engine) : Option Search :=
  match e.startKeyframe now with
  | none => return e.findSync now
  | some k =>
    match e.out.endMark.filter fun m => m < k with
    | some m => return .stop { e with out := { e.out with nextSeq := m + 1 } } none
    | none =>
      let arrival := e.arrivalOr k now
      if now < arrival + e.out.delay then return .stop e (some (arrival + e.out.delay))
      else do
        let e ← startAt now k arrival e
        return if e.pastMark then .stop e none else .ready e

def sendDue (now maxBytes emitted : ℕ) (e : Engine) : Option Round :=
  match e.entry e.out.nextSeq with
  | none => return .stop e [] none
  | some x =>
    let due := x.arrival + e.out.delay
    if now < due then return .stop e [] (some due)
    else if maxBytes ≤ emitted then return .stop e [] (some (now + 50 * MS))
    else if e.muted x then do return .again (← runPending now e.muteEntry) []
    else do
      let (e, sent) := e.sendEntry
      return .again (← runPending now e) sent

def sendFrom (now maxBytes emitted : ℕ) (e : Engine) : Option Round :=
  if e.out.needSync then do
    match ← findSync now e with
    | .again e => return .again e []
    | .stop e wake => return .stop e [] wake
    | .ready e => sendDue now maxBytes emitted e
  else sendDue now maxBytes emitted e

def advance (now maxBytes emitted : ℕ) (e : Engine) : Option Round :=
  let e := e.catchUp
  if e.pastMark then return .stop e [] none else sendFrom now maxBytes emitted e.noticeSession

def pollRound (now maxBytes emitted : ℕ) (e : Engine) : Option Round :=
  match e.out.pending with
  | .dump .. | .hold .. => do
    let (e, sent, wake) ← emitHoldFrame now e
    return .stop e sent wake
  | .replay fromSeq delay =>
    if fromSeq ≤ e.out.nextSeq then
      if now + REPLAY_GAP_HELD_AFTER < e.replayDue now fromSeq delay then
        return .again (e.holdReplay now fromSeq delay) []
      else return .stop e [] none
    else advance now maxBytes emitted e
  | _ => advance now maxBytes emitted e

def pollLoop (now maxBytes : ℕ) : ℕ → ℕ → Engine → Option (Engine × List Sent × Option ℕ)
  | 0, _, e => some (e, [], none)
  | fuel + 1, emitted, e => do
    match ← pollRound now maxBytes emitted e with
    | .stop e sent wake => return (e, sent, wake)
    | .again e sent =>
      let (e, rest, wake) ← pollLoop now maxBytes fuel (emitted + payloadBytes sent) e
      return (e, sent ++ rest, wake)

def pollBudget (now maxBytes : ℕ) (e : Engine) : Option (Engine × List Sent × Option ℕ) := do
  let e ← evict now e
  let e ← runPending now e
  let pendingWake := if e.out.pending ≠ .none then some (now + 50 * MS) else none
  if !e.out.connected then return (e, [], pendingWake)
  else
    let (e, sent, wake) ← pollLoop now maxBytes e.pollFuel 0 e
    return (e, sent, match wake, pendingWake with
      | some a, some b => some (min a b)
      | a, b => a.or b)

/-! ## Timestamps -/

/-- A difference of signed words. -/
def subSigned (a b : ℤ) : Option ℤ := if -2 ^ 63 ≤ a - b ∧ a - b < 2 ^ 63 then some (a - b) else none

/-- What a splice to `x` adds to timestamps. -/
def tsOffset (x : Entry) (e : Engine) : Option ℤ :=
  let base := if e.out.fresh then 0 else e.afterSent (e.frameMs x.session) x.cts
  subSigned (signed base) (signed x.ts)

/-! ## Runs -/

def step (e : Engine) : Op → Option (Engine × List Sent)
  | .ingestStart now => (ingestStart now e).map (·, [])
  | .ingest now kind ts payload => (ingest now kind ts payload e).map (·, [])
  | .dumpAfter now taken mode cover => (dumpAfter now taken mode cover e).map fun (e, _) => (e, [])
  | .discard => (discard e).map (·, [])
  | .restartAfterEnd => (restartAfterEnd e).map (·, [])
  | .command now cmd => (command now cmd e).map fun (e, _) => (e, [])
  | .pollBudget now maxBytes => (pollBudget now maxBytes e).map fun (e, sent, _) => (e, sent)
  | op => some (e.step op)

/-- The engine after a sequence of operations, if none of them panics. -/
def after (e : Engine) (ops : List Op) : Option Engine := ops.foldlM (fun e op => (step e op).map Prod.fst) e

end Engine.Guarded

end StreamDelay
