import Mathlib.Tactic.Common
import StreamDelay.Engine.Data
import StreamDelay.Foundations.Machine

/-! # When a broadcast starts and ends

The encoder's comings and goings, the streamer's End stream and Resume, and the destination
connection, as one state machine. It is fed what happened, with the facts it needs about the delay
buffer, and asks for effects. Times are microseconds.
-/

namespace StreamDelay

open Foundations

/-- Once the encoder has gone for good, how long past the moment the last of the stream was due to
air a broadcast may keep draining. -/
def DRAIN_SLACK : ℕ := 30 * SEC

inductive Encoder where
  | publishing
  /-- Its connection ended: on purpose if `stopped`. -/
  | left (since : ℕ) (stopped : Bool)
  /-- No stream: none yet, or the last one is over. -/
  | idle (stopped : Bool)
deriving DecidableEq, Repr

/-- What the broadcast is heading for. -/
inductive Plan where
  | live
  | endAtMark (deadline : ℕ)
  | restartAtMark (deadline : ℕ)
  | ended
deriving DecidableEq, Repr

inductive Egress where
  | off
  | on (since : ℕ)
deriving DecidableEq, Repr

/-- What the core does for the lifecycle, in order. -/
inductive Effect where
  | stopEgress
  | abortEgress
  | discard
  | markEnd
  | cancelEnd
  | restartAfterEnd
  | explain (why : String)
deriving DecidableEq, Repr

/-- What the lifecycle needs to know about the buffer and the destination. -/
structure Facts where
  destination : Bool := false
  hasMark : Bool := false
  endReached : Bool := false
  backlogEmpty : Bool := false
  drained : Bool := false
  hasBuffered : Bool := false
  outputWanted : Bool := false
  connected : Bool := false
  delay : ℕ := 0
deriving DecidableEq, Repr

inductive Tick where
  | nothing
  | start
deriving DecidableEq, Repr

structure Lifecycle where
  encoder : Encoder
  plan : Plan
  egress : Egress
  grace : ℕ
deriving DecidableEq, Repr

/-- The plan has an end mark to reach. -/
def Plan.atMark : Plan → Bool
  | endAtMark _ | restartAtMark _ => true
  | _ => false

/-- When what is due at the end mark has had long enough. -/
def Plan.deadline? : Plan → Option ℕ
  | endAtMark deadline | restartAtMark deadline => some deadline
  | _ => none

namespace Lifecycle

def new (grace : ℕ) : Lifecycle := ⟨.idle true, .live, .off, grace⟩

def ended (l : Lifecycle) : Bool := l.plan = .ended

def egressOn (l : Lifecycle) : Bool :=
  match l.egress with
  | .on _ => true
  | .off => false

def stop (how : Effect) (l : Lifecycle) : Lifecycle × List Effect :=
  if l.egressOn then ({ l with egress := .off }, [how]) else (l, [])

/-- Ends the broadcast, if one is running, and forgets what is left of the stream. A pending end at
the mark is over too. -/
def finish (l : Lifecycle) : Lifecycle × List Effect :=
  let (l, fx) := l.stop .stopEgress
  ({ l with
      encoder := match l.encoder with
        | .left _ stopped => .idle stopped
        | encoder => encoder
      plan := if l.plan.atMark then .live else l.plan },
    fx ++ [.discard])

def deadline (now : ℕ) (f : Facts) : ℕ := now + f.delay + DRAIN_SLACK

/-! ## Events -/

def destinationChanged (l : Lifecycle) : Lifecycle × List Effect := l.stop .stopEgress

/-- End stream now. -/
def endNow (l : Lifecycle) : Lifecycle × List Effect :=
  let (l, fx) := l.stop .abortEgress
  ({ l with plan := .ended }, .discard :: fx)

/-- End stream (after air). -/
def endAfterAir (now : ℕ) (f : Facts) (l : Lifecycle) : Lifecycle × List Effect :=
  match l.plan with
  | .ended | .endAtMark _ => (l, [])
  | .restartAtMark deadline => ({ l with plan := .endAtMark deadline }, [])
  | .live =>
    let nothingToAir := !f.destination || (f.drained && !l.egressOn)
    if f.hasMark && !nothingToAir then
      ({ l with plan := .endAtMark (deadline now f) }, [.markEnd])
    else
      let (l, fx) := l.finish
      ({ l with plan := .ended }, fx)

def resume (l : Lifecycle) : Lifecycle × List Effect :=
  match l.plan with
  | .ended => ({ l with plan := .live }, [.discard])
  | .endAtMark _ => ({ l with plan := .live }, [.cancelEnd])
  | .live | .restartAtMark _ => (l, [])

/-- The encoder had stopped its stream on purpose, and this is not a takeover. -/
def stoppedBefore (takeover : Bool) (l : Lifecycle) : Bool :=
  match l.encoder with
  | .publishing => false
  | .left _ stopped | .idle stopped => stopped && !takeover

/-- The previous stream was stopped on purpose, and may still be airing. -/
def newStream (l : Lifecycle) : Bool :=
  match l.encoder with
  | .left _ stopped => stopped
  | _ => false

/-- A new stream while the previous one's broadcast is on. -/
def restartPlan (now : ℕ) (f : Facts) (l : Lifecycle) : Lifecycle × List Effect :=
  if l.newStream && l.egressOn then
    match l.plan with
    | .live =>
      if f.hasMark then ({ l with plan := .restartAtMark (deadline now f) }, [.markEnd]) else (l, [])
    | .endAtMark deadline => ({ l with plan := .restartAtMark deadline }, [])
    | _ => (l, [])
  else (l, [])

/-- An encoder started publishing. -/
def publishing (now : ℕ) (takeover : Bool) (f : Facts) (l : Lifecycle) : Lifecycle × List Effect :=
  let stoppedBefore := l.stoppedBefore takeover
  let (l, fx) := l.restartPlan now f
  ({ l with
      encoder := .publishing
      plan := if l.plan = .ended ∧ stoppedBefore then .live else l.plan },
    fx)

def encoderLeft (now : ℕ) (stopped : Bool) (l : Lifecycle) : Lifecycle :=
  if l.encoder = .publishing then { l with encoder := .left now stopped } else l

/-- The connection is on its way. -/
def started (now : ℕ) (l : Lifecycle) : Lifecycle := { l with egress := .on now }

/-- The encoder left more than the grace period ago and did not come back. -/
def encoderGone (now : ℕ) (l : Lifecycle) : Bool :=
  match l.encoder with
  | .left since _ => l.grace ≤ now - since
  | _ => false

/-- The connection could not be started. -/
def startFailed (now : ℕ) (l : Lifecycle) : Lifecycle × List Effect :=
  if l.encoderGone now then l.finish else (l, [])

/-- Ends the broadcast at the end mark once everything up to it has been written, or when the
destination has had long enough; `none` if it did not. -/
def endAtMark (now : ℕ) (f : Facts) (l : Lifecycle) : Option (Lifecycle × List Effect) :=
  l.plan.deadline?.bind fun deadline =>
    let aired := f.endReached && f.backlogEmpty
    if !aired && now < deadline then none
    else
      match l.plan with
      | .restartAtMark _ =>
        -- Keeps what the new stream has sent; its broadcast starts when due.
        let (l, fx) := l.stop .stopEgress
        some ({ l with plan := .live }, fx ++ [.restartAfterEnd])
      | _ =>
        let (l, fx) := l.finish
        some ({ l with plan := .ended }, fx)

def UNREACHABLE : String :=
  "The stream ended while the destination could not be reached; what had not aired yet was discarded."

def STALLED : String :=
  "The destination stopped taking data, so the broadcast was ended without the rest of the stream."

/-- With the encoder gone, or its stream stopped at `leftAt`: ends the broadcast once everything
buffered has been written, or cannot be any more. -/
def drain (now : ℕ) (f : Facts) (started leftAt : ℕ) (stopped : Bool) (l : Lifecycle) :
    Lifecycle × List Effect :=
  if f.connected && f.drained && f.backlogEmpty then l.finish
  else if !f.connected then
    if l.encoderGone now && l.grace ≤ now - started then
      let (l, fx) := l.finish
      (l, .explain UNREACHABLE :: fx)
    else (l, [])
  else
    let due := if stopped then f.delay else max l.grace f.delay
    if due + DRAIN_SLACK ≤ now - leftAt then
      let (l, fx) := l.finish
      (l, .explain STALLED :: fx)
    else (l, [])

/-- Decides what the destination connection should do now. -/
def tick (now : ℕ) (f : Facts) (l : Lifecycle) : Lifecycle × List Effect × Tick :=
  if !f.destination then
    let (l, fx) := l.stop .stopEgress
    (l, fx, .nothing)
  else
    match l.endAtMark now f with
    | some (l, fx) => (l, fx, .nothing)
    | none =>
      match l.egress with
      | .off =>
        if l.encoderGone now && (l.ended || !f.hasBuffered) then
          -- Nothing of this stream is left to air.
          let (l, fx) := l.finish
          (l, fx, .nothing)
        else if !l.ended && f.outputWanted then (l, [], .start)
        else (l, [], .nothing)
      | .on started =>
        match l.encoder with
        | .left leftAt stopped =>
          if l.encoderGone now || stopped then
            let (l, fx) := l.drain now f started leftAt stopped
            (l, fx, .nothing)
          else (l, [], .nothing)
        | _ => (l, [], .nothing)

/-- A tick, and what the core does about it: a connection is started, unless the settings are not
there. -/
def manageEgress (now : ℕ) (f : Facts) (settings : Bool) (l : Lifecycle) :
    Lifecycle × List Effect :=
  match l.tick now f with
  | (l, fx, .nothing) => (l, fx)
  | (l, fx, .start) =>
    if settings then (l.started now, fx)
    else
      let (l, more) := l.startFailed now
      (l, fx ++ more)

end Lifecycle

/-- What happens to the lifecycle, with the facts at that moment. -/
inductive LifeEvent where
  | publishing (now : ℕ) (takeover : Bool) (f : Facts)
  | encoderLeft (now : ℕ) (stopped : Bool)
  | destinationChanged
  | endNow
  | endAfterAir (now : ℕ) (f : Facts)
  | resume
  | tick (now : ℕ) (f : Facts) (settings : Bool)
deriving DecidableEq, Repr

namespace Lifecycle

/-- One event: the lifecycle after it, and the effects it asks for. -/
def step (l : Lifecycle) : LifeEvent → Lifecycle × List Effect
  | .publishing now takeover f => l.publishing now takeover f
  | .encoderLeft now stopped => (l.encoderLeft now stopped, [])
  | .destinationChanged => l.destinationChanged
  | .endNow => l.endNow
  | .endAfterAir now f => l.endAfterAir now f
  | .resume => l.resume
  | .tick now f settings => l.manageEgress now f settings

/-- The lifecycle after a sequence of events. -/
abbrev after (l : Lifecycle) (events : List LifeEvent) : Lifecycle := Machine.after step l events

/-- The effects a sequence of events asks for. -/
abbrev effects (l : Lifecycle) (events : List LifeEvent) : List Effect := Machine.outputs step l events

end Lifecycle

end StreamDelay
