import Mathlib.Tactic.Common
import StreamDelay.Engine.Pending

/-! # Commands, the destination connection and the end of a broadcast -/

namespace StreamDelay

namespace Engine

/-! ## The destination connection -/

/-- What a new connection forgets about the one before it. -/
def freshConnection (now : ℕ) (e : Engine) : Engine :=
  { e with
    out :=
      { e.out with
        connected := true
        hold := e.out.hold.map fun h => { h with needsHeaders := true, next := now }
        generation := e.out.generation + 1
        fresh := true
        lastOutTs := 0
        lastKindTs := .const none
        lastPts := 0
        sentHeaders := []
        sentMetadata := none
        firstEmitted := none
        sent := 0 } }

/-- A delay longer than the one before the outage is noted. -/
def noteGrowth (delay : ℕ) (e : Engine) : Engine :=
  { e with
    out := { e.out with grewOnReconnect := e.out.grewOnReconnect || e.out.delay < delay } }

/-- Restarts from keyframe `k`; an outage adds to the delay, up to the maximum. -/
def restartFrom (now k : ℕ) (e : Engine) : Engine :=
  let delay := max e.out.delay (now - e.arrivalOr k now)
  ((e.noteGrowth delay).spliceTo k delay).backUnderMax

/-- Restarts from the keyframe at or before the cursor. -/
def reconnect (now : ℕ) (e : Engine) : Engine :=
  match e.syncAtOrBefore e.out.nextSeq with
  | none => { e with out := { e.out with needSync := true } }
  | some k =>
    let e := e.restartFrom now k
    if e.config.restoreAfterReconnect then e.backToTarget else e

/-- The destination connection is ready. -/
def outputConnected (now : ℕ) (e : Engine) : Engine :=
  let e := e.freshConnection now
  if e.out.pending.holding then { e with out := { e.out with needSync := true } }
  else if e.out.started then e.reconnect now
  else e

/-- Output goes on after `last`, the last message that counts as sent (`none`: none yet). -/
def resumeAfter (last : Option ℕ) (e : Engine) : Engine :=
  match last.elim e.out.firstEmitted fun s => some (s + 1) with
  | none => e
  | some r => { e with out := { e.out with nextSeq := min e.out.nextSeq r } }

/-- The destination connection dropped. -/
def outputDisconnected (_now : ℕ) (lastWritten : Option ℕ) (e : Engine) : Engine :=
  { e with out := { e.out with connected := false } }.resumeAfter lastWritten

/-- Some of the configuration sent may have been thrown away. -/
def clearSent (e : Engine) : Engine :=
  { e with out := { e.out with sentHeaders := [], sentMetadata := none } }

/-- Output after `taken` was emitted but will never be sent. -/
def unsend (taken : Option ℕ) (e : Engine) : Engine :=
  if !e.out.connected then e else (e.resumeAfter taken).clearSent

/-! ## The end of a broadcast -/

/-- Ends the current broadcast on the output side. -/
def outputReset (e : Engine) : Engine :=
  { e with
    out :=
      { e.out with
        connected := false
        started := false
        needSync := true
        currentSession := none
        nextSeq := e.nextSeq
        delay := e.out.target
        historyShort := false
        memoryShort := false
        hold := none
        slateUnconfirmed := false
        coverLost := false
        grewOnReconnect := false
        gate := none
        endMark := none
        maskVisible := if e.out.pending.covers then false else e.out.maskVisible
        pending := .none } }

/-- Drops everything buffered and ends the current broadcast on the output side. -/
def discard (e : Engine) : Engine := e.dropBuffer.outputReset

/-- Sends what arrived up to `seq` (inclusive), and nothing after it. -/
def endAfter (seq : ℕ) (e : Engine) : Engine := { e with out := { e.out with endMark := some seq } }

def cancelEnd (e : Engine) : Engine := { e with out := { e.out with endMark := none } }

/-- True once everything up to the end mark has been handed over (or skipped). -/
def endReached (e : Engine) : Bool := e.out.endMark.any fun m => m < e.out.nextSeq

/-- Ends the broadcast at the end mark and prepares a new one for what arrived after it. -/
def restartAfterEnd (e : Engine) : Engine :=
  let fromSeq := e.out.endMark.elim e.nextSeq (· + 1)
  let e := (e.dropBefore fromSeq).outputReset
  { e with out := { e.out with nextSeq := max fromSeq e.baseSeq } }

/-! ## What the lifecycle asks -/

/-- True when there is (or soon will be) something to send. -/
def outputWanted (now : ℕ) (e : Engine) : Bool :=
  e.out.hold.isSome || (e.out.connected && !e.drained) ||
    let cursor :=
      if e.out.needSync then e.syncs.find? fun s => e.out.nextSeq ≤ s else some e.out.nextSeq
    (cursor.bind e.entry).any fun x => x.arrival + e.out.delay ≤ now + 3 * SEC

/-- The delay viewers get (or will get, before the broadcast starts). -/
def effectiveDelay (e : Engine) : ℕ := if e.out.started then e.out.delay else e.out.target

/-! ## Commands -/

/-- Refuses a delay the memory limit cannot hold at the encoder's bitrate. -/
def checkMemory (ms : ℕ) (e : Engine) : Option EngineError :=
  let bitsPerS := e.stats.bitrateBps
  if !e.ingestActive || bitsPerS = 0 then none
  else
    let needed := bitsPerS / 8 * ms / 1000 * 6 / 5 % 2 ^ 64
    let cap := e.config.ramCapBytes
    if cap < needed then
      some (.notEnoughMemory ((needed + (2 ^ 20 - 1)) / 2 ^ 20) (cap / 2 ^ 20))
    else none

/-- A delay is refused before anything changes. -/
def checkCommand (cmd : Command) (e : Engine) : Option EngineError :=
  match cmd with
  | .setDelay ms _ =>
    if e.config.maxDelayMs < ms then some (.tooLarge ms e.config.maxDelayMs) else e.checkMemory ms
  | _ => none

/-- Every command but Cancel and SlateShown takes the notices of earlier ones away. -/
def clearNotices (cmd : Command) (e : Engine) : Engine :=
  match cmd with
  | .cancel | .slateShown _ => e
  | _ =>
    { e with
      out :=
        { e.out with
          memoryShort := false
          slateUnconfirmed := false
          coverLost := false
          grewOnReconnect := false } }

/-- The first confirmation of the current change sets when the slate was up. -/
def slateShown (now : ℕ) (change : ℕ) (e : Engine) : Engine :=
  if change ≠ e.out.slateChange then e
  else
    match e.out.pending with
    | .mask m =>
      if m.anchor = none ∧ m.shown = none then
        e.withPending (.mask { m with shown := some now })
      else e
    | .dump delay started fromSeq none =>
      e.withPending (.dump delay started fromSeq (some now))
    | _ => e

/-- Cancels a pending change, other than a dump building the delay back up. -/
def cancel (e : Engine) : Engine :=
  if e.out.pending.afterDump then e
  else
    let e := e.setPending .none
    let delay := min e.out.delay (e.config.maxDelayMs * MS)
    let e := { e with out := { e.out with target := if delay < 500 * MS then 0 else delay } }
    if e.out.started then e.backUnderMax else e

def goLive (when : GoLiveWhen) (e : Engine) : Engine :=
  let e := e.retarget 0
  let last := e.nextSeq - 1
  if !e.out.started then { e with out := { e.out with delay := 0 } }.setPending .none
  else e.setPending (match when with | .now => .goLiveNow last | .afterAir => .afterAir last)

/-- A new delay while a dump is building the delay back up: it says how far. -/
def setDumpDelay (d : ℕ) (p : Pending) (e : Engine) : Engine := (e.withPending p).retarget d

/-- Without history every increase uses mask mode. -/
def effectiveMode (e : Engine) (mode : DelayMode) : DelayMode :=
  if e.config.keepHistory then mode else .mask

/-- The same Mask change again, which is under way. -/
def sameMask (d : ℕ) (mode : DelayMode) (e : Engine) : Bool :=
  d = e.out.target && mode = .mask && match e.out.pending with | .mask _ => true | _ => false

def startMask (now d : ℕ) (e : Engine) : Engine :=
  (e.setPending (.mask ⟨d, now, none, false, none, false⟩)).raiseSlate

/-- SetDelay to `d` with nothing of a dump under way. -/
def changeDelay (now d : ℕ) (mode : DelayMode) (e : Engine) : Engine :=
  let e := (e.retarget d).setPending .none
  if !e.out.started then { e with out := { e.out with delay := d } }
  else if d = 0 then e.goLive .now
  else if e.out.delay < d then
    match mode with
    | .rewind => e.rewind now d
    | .mask => e.startMask now d
  else if d < e.out.delay then e.setPending (.reduce d)
  else e

def setDelay (now ms : ℕ) (mode : DelayMode) (e : Engine) : Engine :=
  let d := ms * MS
  match (if 0 < ms then e.out.pending.withDumpDelay d else none) with
  | some p => (e.setDumpDelay d p).runPending now
  | none =>
    let mode := e.effectiveMode mode
    if e.sameMask d mode then e else (e.changeDelay now d mode).runPending now

def ack (e : Engine) : Ack :=
  let effective := match e.out.pending with
    | .replay _ delay => delay
    | _ => e.out.delay
  { targetMs := e.out.target / MS
    effectiveMs := effective / MS
    pending := e.out.pending ≠ .none
    historyShort := e.out.historyShort
    dump := none }

/-- An accepted command, after its notices are cleared. -/
def obey (now : ℕ) (cmd : Command) (e : Engine) : Engine × Except EngineError Ack :=
  match cmd with
  | .slateShown change => let e := (e.slateShown now change).runPending now; (e, .ok e.ack)
  | .cancel => let e := e.cancel.runPending now; (e, .ok e.ack)
  | .dump mode cover =>
    if e.canDump then
      let (e, outcome) := e.dump now mode cover
      let e := e.runPending now
      (e, .ok { e.ack with dump := some outcome })
    else (e, .error .nothingToDump)
  | .goLive when => let e := (e.goLive when).runPending now; (e, .ok e.ack)
  | .setDelay ms mode => let e := e.setDelay now ms mode; (e, .ok e.ack)

def command (now : ℕ) (cmd : Command) (e : Engine) : Engine × Except EngineError Ack :=
  match e.checkCommand cmd with
  | some err => (e, .error err)
  | none => (e.clearNotices cmd).obey now cmd

/-- What a refused dump does with what was thrown away: the output goes on from a keyframe. -/
def refuseDump (taken : Option ℕ) (e : Engine) : Engine :=
  -- Nothing sent since a splice: the output goes on from its keyframe.
  let spliced := e.out.pendingHeaders
  let lost := taken.elim e.out.firstEmitted.isSome fun s => s + 1 < e.out.nextSeq
  let e := if lost && !spliced then { e with out := { e.out with needSync := true } } else e
  e.clearSent

/-- A dump, once the destination connection has said what it took. -/
def dumpAfter (now : ℕ) (taken : Option ℕ) (mode : DelayMode) (cover : Bool) (e : Engine) :
    Engine × Except EngineError Ack :=
  if e.canDump then (e.unsend taken).command now (.dump mode cover)
  else if !e.out.connected then (e, .error .nothingToDump)
  else (e.refuseDump taken, .error .nothingToDump)

end Engine

end StreamDelay
