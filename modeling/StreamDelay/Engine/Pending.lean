import Mathlib.Tactic.Common
import StreamDelay.Engine.Ingest
import StreamDelay.Engine.Output

/-! # Pending changes

What the engine does about a change that is under way, each time it looks: a jump to live, a
reduction, a mask filling, a dump waiting for its slate, a hold, a replay. The source loops over
the pending change; here a change that turns into another one calls that one.
-/

namespace StreamDelay

namespace Engine

/-! ## Coming back to a delay -/

/-- With `restoreAfterReconnect`: a delay the outage made longer goes back to the one set. -/
def backToTarget (e : Engine) : Engine :=
  let target := e.out.target
  if e.out.delay < target + 500 * MS then e
  else
    let restores : Bool := match e.out.pending with
      | .none => true
      | .reduce delay => target < delay
      | _ => false
    if restores then
      e.setPending (if target = 0 then .goLiveNow (e.nextSeq - 1) else .reduce target)
    else e

/-- After a splice that took the delay past the maximum: come back down to it. -/
def backUnderMax (e : Engine) : Engine :=
  let max := e.config.maxDelayMs * MS
  if e.out.pending = .none ∧ max + e.keyframeInterval < e.out.delay then
    { e with out := { e.out with target := min e.out.target max } }.setPending (.reduce max)
  else e

/-- Rounding to keyframe `k` leaves more over than a keyframe interval, and a later keyframe will
soon give the delay asked for. -/
def gapAfter (e : Engine) (k excess : ℕ) : Bool :=
  let interval := (e.newestSync fun s => s < k).bind fun p =>
    (e.entry k).bind fun x => (e.entry p).map fun y => x.arrival - y.arrival
  (e.syncs.getLast?.any fun s => k < s) && interval.any fun i => i < excess

/-! ## Rewinding -/

/-- The buffer reaches back less far than asked. -/
def noteShort (now : ℕ) (e : Engine) : Engine :=
  { e with
    out :=
      { e.out with
        historyShort := true
        historyThen := e.ring.head?.elim 0 fun f => now - f.arrival } }

/-- The oldest keyframe to go back to. When the memory limit keeps the buffer short, the oldest of
all is the next to go. -/
def oldestInside (e : Engine) : Option ℕ :=
  let full := e.config.ramCapBytes * 9 ≤ (e.bytes + e.sessionBytes) * 10
  let inside := if full then e.syncs[1]? else none
  inside.or e.syncs.head?

/-- Jumps back to keyframe `k`, if that adds delay. Before a gap the next keyframe after one known to
be old enough was too recent: come down to `d` once it is old enough. -/
def rewindTo (now d k : ℕ) (known : Bool) (e : Engine) : Engine :=
  let delay := now - e.arrivalOr k now
  if e.out.delay < delay then
    let e := e.spliceTo k delay
    if known && e.gapAfter k (delay - d) then e.setPending (.reduce d) else e
  else e

/-- Jumps back to the newest keyframe at least `d` old (or the oldest available). -/
def rewind (now d : ℕ) (e : Engine) : Engine :=
  match e.newestSyncArrivedBy (checkedSub now d) with
  | some k => e.rewindTo now d k true
  | none =>
    match e.oldestInside with
    | none => e.noteShort now
    | some k => (e.noteShort now).rewindTo now d k false

/-! ## Dumps -/

/-- The delay a dump goes back to. -/
def dumpDelay (e : Engine) : ℕ :=
  min (if 0 < e.out.target then e.out.target else e.out.delay) (e.config.maxDelayMs * MS)

/-- False when a dump would be refused. -/
def canDump (e : Engine) : Bool :=
  !e.out.started || e.out.endMark.isSome || !e.ingestActive || 500 * MS ≤ e.dumpDelay

/-- Where a dump cuts the buffer: at the cursor. -/
def cut (e : Engine) : ℕ := max e.out.nextSeq e.baseSeq

/-- The keyframe a dump's replay would start from, going back to `delay`. -/
def replayFrom (now delay : ℕ) (e : Engine) : Option ℕ :=
  if !e.config.keepHistory then none
  else e.newestSyncArrivedBy (checkedSub (e.arrivalOr e.cut now) delay)

/-- Cuts what is numbered from `cut` on off the buffer; its numbers are used again. -/
def truncate (cut : ℕ) (e : Engine) : Engine :=
  let keep := cut - e.baseSeq
  { e with
    bytes := e.bytes - ((e.ring.drop keep).map fun x => cost x.payload.length).sum
    ring := e.ring.take keep
    syncs := e.syncs.filter fun s => s < cut
    nextSeq := cut }

/-- Throws away what has not aired and replays from keyframe `k`. -/
def replayAt (now delay k : ℕ) (e : Engine) : Engine :=
  let cut := e.cut
  let e := ((e.truncate cut).splitSession cut).setPending (.replay cut delay)
  e.spliceTo k (now - e.arrivalOr k now)

/-- For a dump: replays the stretch that aired before it, if the buffer reaches back far enough. -/
def replayInstead (now delay : ℕ) (e : Engine) : Option Engine :=
  (e.replayFrom now delay).map fun k => e.replayAt now delay k

/-- What a dump does before the start or at the end of a broadcast. -/
def dumpEnding (e : Engine) : Bool := e.out.endMark.isSome || !e.ingestActive

/-- The overlay shows the slate, for a new change. -/
def raiseSlate (e : Engine) : Engine :=
  { e with out := { e.out with slateChange := e.out.slateChange + 1, maskVisible := true } }

def withHold (frame : Option HoldFrame) (e : Engine) : Engine :=
  { e with out := { e.out with hold := frame } }

/-- A dump that neither replays nor ends the broadcast: the slate covers what comes next, or the
last frame that aired holds. -/
def holdInstead (now delay : ℕ) (cover : Bool) (e : Engine) : Engine × DumpOutcome :=
  let frame := e.airedKeyframe now
  -- Gone for good, including what a rewind could reach.
  let e := e.dropBuffer
  let fromSeq := e.nextSeq
  if cover then
    (((e.setPending (.dump delay now fromSeq none)).raiseSlate).withHold frame, .cover)
  else ((e.setPending (.hold fromSeq delay)).withHold frame, .hold)

def dump (now : ℕ) (mode : DelayMode) (cover : Bool) (e : Engine) : Engine × DumpOutcome :=
  if !e.out.started then (e.dropBuffer, .hold)
  else if e.dumpEnding then (e.dropBuffer.setPending .none, .hold)
  else
    let delay := e.dumpDelay
    let e := e.retarget delay
    match (if mode = .rewind then e.replayInstead now delay else none) with
    | some e => (e, .replay)
    | none => e.holdInstead now delay cover

/-! ## Running what is pending -/

def finishPending (e : Engine) : Engine := e.withPending .none

def runGoLiveNow (now afterSeq : ℕ) (e : Engine) : Engine :=
  match e.syncs.getLast?.filter fun s => afterSeq < s with
  | none => e
  | some k =>
    if e.out.nextSeq < k ∨ e.out.needSync then
      (e.spliceTo k (now - e.arrivalOr k now)).finishPending
    else
      -- Already at the live edge.
      { e with out := { e.out with delay := min e.out.delay e.out.target } }.finishPending

def runAfterAir (now markSeq : ℕ) (e : Engine) : Engine :=
  if markSeq < e.out.nextSeq then
    let last := e.nextSeq - 1
    (e.withPending (.goLiveNow last)).runGoLiveNow now last
  else e

def runReduce (now delay : ℕ) (e : Engine) : Engine :=
  -- Within half a second counts as there.
  if e.out.delay < delay + 500 * MS then e.finishPending
  else
    match e.newestSyncArrivedBy (checkedSub now delay) with
    | none => e
    | some k =>
      if e.out.nextSeq < k then
        let age := now - e.arrivalOr k now
        if e.gapAfter k (age - delay) then e else (e.spliceTo k age).finishPending
      else e

/-- The first keyframe that arrived at or after `t`. -/
def firstSyncArrivedFrom (e : Engine) (t : ℕ) : Option ℕ :=
  e.syncs.find? fun s => (e.entry s).any fun x => t ≤ x.arrival

/-- A mask with its anchor: gone with eviction, or aired once old enough. -/
def runMaskAt (now : ℕ) (m : MaskChange) (anchor : ℕ) (e : Engine) : Engine :=
  match e.entry anchor with
  | none => e.setPending .none
  | some x =>
    if x.arrival + m.delay ≤ now then (e.spliceTo anchor (now - x.arrival)).setPending .none else e

def anchorMask (now : ℕ) (m : MaskChange) (since : ℕ) (e : Engine) : Engine :=
  match e.firstSyncArrivedFrom since with
  | none => e
  | some a =>
    let m := { m with anchor := some a }
    (e.withPending (.mask m)).runMaskAt now m a

def runMask (now : ℕ) (m : MaskChange) (e : Engine) : Engine :=
  match m.anchor with
  | some a => e.runMaskAt now m a
  | none =>
    let margin := e.config.maskMarginMs * MS
    match m.shown with
    | some t => e.anchorMask now m (t + margin)
    | none =>
      if m.started + SLATE_CONFIRM_WAIT ≤ now then
        -- No overlay said the slate shows: go ahead, and say so.
        { e with out := { e.out with slateUnconfirmed := true } }.anchorMask now m
          (m.started + margin)
      else e

def runHold (now fromSeq delay : ℕ) (e : Engine) : Engine :=
  match e.syncs.find? fun s => fromSeq ≤ s && e.out.endMark.all fun m => s ≤ m with
  | none =>
    match e.out.endMark with
    | none => e
    | some m =>
      -- The broadcast ends before anything recorded after the dump can be decoded.
      { e with
        out :=
          { e.out with
            nextSeq := max e.out.nextSeq (m + 1)
            pending := .none
            hold := none
            coverLost := false } }
  | some k =>
    let arrival := e.arrivalOr k now
    if arrival + delay ≤ now then
      let e := ((e.endHold now).spliceTo k (now - arrival)).finishPending
      { e with out := { e.out with coverLost := false } }
    else e

def runDump (now delay : ℕ) (started : ℕ) (fromSeq : ℕ) (shown : Option ℕ) (e : Engine) :
    Engine :=
  match shown with
  | none =>
    if started + SLATE_CONFIRM_WAIT ≤ now then
      -- No overlay said the slate shows: what is recorded next waits out the delay.
      let e := { e with out := { e.out with coverLost := true } }
      (e.setPending (.hold fromSeq delay)).runHold now fromSeq delay
    else e
  | some t =>
    match e.firstSyncArrivedFrom (t + e.config.maskMarginMs * MS) with
    | none => e
    | some anchor =>
      -- What the slate covers airs now, and the delay builds back up behind it.
      let e := (e.endHold now).spliceTo anchor (now - e.arrivalOr anchor now)
      let m : MaskChange := ⟨delay, started, some anchor, e.config.muteUnderSlate, shown, true⟩
      (e.withPending (.mask m)).runMask now m

def runReplay (now fromSeq delay : ℕ) (e : Engine) : Engine :=
  match e.syncs.find? fun s => fromSeq ≤ s with
  | none => e
  | some k =>
    let arrival := e.arrivalOr k now
    if arrival + delay ≤ now then (e.spliceTo k (now - arrival)).finishPending else e

def runPending (now : ℕ) (e : Engine) : Engine :=
  match e.out.pending with
  | .none => e
  | .goLiveNow afterSeq => e.runGoLiveNow now afterSeq
  | .afterAir markSeq => e.runAfterAir now markSeq
  | .reduce delay => e.runReduce now delay
  | .mask m => e.runMask now m
  | .dump delay started fromSeq shown => e.runDump now delay started fromSeq shown
  | .hold fromSeq delay => e.runHold now fromSeq delay
  | .replay fromSeq delay => e.runReplay now fromSeq delay

end Engine

end StreamDelay
