import Mathlib.Tactic.Common
import StreamDelay.Engine.Data

/-! # The ring buffer, its sessions and what may leave it

Reading the buffer by sequence number, finding keyframes, and taking messages out from the front:
eviction in groups of pictures, the start of a new broadcast, and a dump.
-/

namespace StreamDelay

open Flv (Bytes)

namespace Engine

def entry (e : Engine) (seq : ℕ) : Option Entry :=
  if seq < e.baseSeq then none else e.ring[seq - e.baseSeq]?

/-- When the message numbered `seq` arrived, if it is buffered. -/
def arrivalOr (e : Engine) (seq : ℕ) (now : ℕ) : ℕ := (e.entry seq).elim now Entry.arrival

/-- How long a frame of encoder session `session` lasts, in ms (33 while unknown). -/
def frameMs (e : Engine) (session : ℕ) : ℕ :=
  (e.sessions.find? fun s => s.id = session).elim 33 Session.frameMs

/-- The encoder's keyframe interval, as measured (2 s until it is). -/
def keyframeInterval (e : Engine) : ℕ :=
  e.stats.gopMs.elim (2 * SEC) fun ms => min (max ms 1) 60000 * MS

def countSessions (e : Engine) : Engine :=
  { e with sessionBytes := (e.sessions.map Session.cost).sum }

/-- The newest keyframe `p` holds of. -/
def newestSync (e : Engine) (p : ℕ → Bool) : Option ℕ := e.syncs.reverse.find? p

/-- The newest keyframe at or before `seq`. -/
def syncAtOrBefore (e : Engine) (seq : ℕ) : Option ℕ := e.newestSync fun s => s ≤ seq

def newestSyncArrivedBy (e : Engine) (t : Option ℕ) : Option ℕ :=
  t.bind fun t => e.newestSync fun s => (e.entry s).any fun x => x.arrival ≤ t

/-- Once the broadcast has started, where the output would start again after a reconnect. -/
def restartPoint (e : Engine) : Option ℕ :=
  if e.out.started then some ((e.syncAtOrBefore e.out.nextSeq).getD e.out.nextSeq) else none

/-- True when everything in the buffer has been sent. -/
def drained (e : Engine) : Bool := e.nextSeq ≤ e.out.nextSeq

def hasBuffered (e : Engine) : Bool := !e.ring.isEmpty

/-- The newest sequence number received, if any. -/
def lastSeq (e : Engine) : Option ℕ := checkedSub e.nextSeq 1

/-- The pending change replaced by another stage of it. -/
def withPending (p : Pending) (e : Engine) : Engine := { e with out := { e.out with pending := p } }

/-- A new pending change: the slate goes, and so does the frame of a hold. -/
def setPending (p : Pending) (e : Engine) : Engine :=
  { e with
    out :=
      { e.out with
        maskVisible := if e.out.pending.covers then false else e.out.maskVisible
        hold := if p.isHold then e.out.hold else none
        pending := p } }

/-- A new delay asked for; what was said about the last one is no longer so. -/
def retarget (d : ℕ) (e : Engine) : Engine :=
  { e with out := { e.out with target := d, historyShort := false } }

/-! ## Forgetting configuration and sessions -/

/-- Drops configuration a newer version replaces for everything from `base` on. -/
def forgetReplaced (base : ℕ) : List HeaderRec → List HeaderRec
  | [] => []
  | h :: rest =>
    if rest.any fun n => n.kind = h.kind ∧ n.class_ = h.class_ ∧ n.seq < base then
      forgetReplaced base rest
    else h :: forgetReplaced base rest

/-- Forgets decoder configuration replaced for everything still buffered. -/
def forgetHeaders (e : Engine) : Engine :=
  let sessions := e.sessions.map fun s =>
    { s with headers := forgetReplaced e.baseSeq s.headers }
  if sessions = e.sessions then e else { e with sessions := sessions }.countSessions

/-- Forgets the sessions that no longer have buffered content. -/
def forgetSessions (e : Engine) : Engine :=
  let e := e.forgetHeaders
  match e.ring with
  | [] => e
  | front :: _ =>
    if e.sessions.head?.any fun s => s.id < front.session then
      let current := e.sessions.getLast?.map Session.id
      { e with
        sessions := e.sessions.filter fun s =>
          front.session ≤ s.id || some s.id = current }.countSessions
    else e

/-! ## Taking messages out -/

/-- The popping loop: takes the messages of `ring` numbered below `stop` off the front. -/
def popLoop (stop : ℕ) : List Entry → Engine → Engine
  | [], e => e
  | f :: rest, e =>
    if f.seq < stop then
      popLoop stop rest
        { e with
          ring := rest
          bytes := e.bytes - cost f.payload.length
          baseSeq := f.seq + 1
          syncs := if e.syncs.head? = some f.seq then e.syncs.tail else e.syncs }
    else e

def popBefore (stop : ℕ) (e : Engine) : Engine := popLoop stop e.ring e

/-- Drops everything before `seq`. -/
def dropBefore (seq : ℕ) (e : Engine) : Engine :=
  let e := e.popBefore seq
  let e :=
    if e.ring.isEmpty then { e with baseSeq := max e.baseSeq (min seq e.nextSeq) } else e
  e.forgetHeaders

def dropBuffer (e : Engine) : Engine :=
  let e := { e with ring := [], syncs := [], bytes := 0, baseSeq := e.nextSeq }
  -- The running encoder session stays: its configuration starts the next broadcast.
  let current := if e.ingestActive then e.sessions.getLast?.map Session.id else none
  let e := { e with sessions := e.sessions.filter fun s => some s.id = current }.countSessions
  let e := e.forgetHeaders
  { e with out := { e.out with nextSeq := e.nextSeq, needSync := true } }

/-- Records what arrives from `seq` on as a new session of the same encoder. -/
def splitSession (seq : ℕ) (e : Engine) : Engine :=
  match e.sessions.getLast? with
  | none => e
  | some current =>
    let next : Session :=
      { current with
        id := e.nextSession
        headers := current.headers.map fun h => { h with seq := min h.seq (seq - 1) } }
    { e with
      nextSession := e.nextSession + 1
      sessions := e.sessions ++ [next] }.countSessions

def nextSessionStart (e : Engine) (session : ℕ) : ℕ :=
  (e.ring.find? fun x => session < x.session).elim e.nextSeq Entry.seq

/-! ## Eviction -/

/-- Without history, the oldest entry that must stay. -/
def keepFrom (now : ℕ) (e : Engine) : Option ℕ :=
  if e.config.keepHistory then none
  else
    let keep := match e.restartPoint with
      | some r => some r
      | none => e.newestSyncArrivedBy (checkedSub now e.out.delay)
    match e.out.pending with
    | .mask m => keep.map fun k => m.anchor.elim k (min k)
    | _ => keep

/-- The memory limit threw away what was still to air: bring the delay down to what the buffer
holds, and say so. -/
def memoryShort (now : ℕ) (e : Engine) : Engine :=
  match e.syncs.head?.bind e.entry with
  | none => e
  | some oldest =>
    let held := now - oldest.arrival
    let delay := held - e.keyframeInterval
    let e := { e with out := { e.out with memoryShort := true } }
    if !e.out.started then { e with out := { e.out with delay := min e.out.delay delay } }
    else
      let lower : Bool := match e.out.pending with
        | .none => true
        | .reduce d => delay < d
        | _ => false
      if lower && delay < e.out.delay then e.setPending (.reduce delay) else e

/-- What one round of eviction decides about the group at the front of the ring. -/
structure EvictPlan where
  /-- The group ends before this number. -/
  stop : ℕ
  evict : Bool
  /-- It was still to air, and only the memory limit takes it. -/
  lostUnaired : Bool

def evictPlan (now capacity : ℕ) (keepFrom restart : Option ℕ) (front : Entry) (e : Engine) :
    EvictPlan :=
  let overRam := e.config.ramCapBytes < e.bytes + e.sessionBytes && 1 < e.ring.length
  let nextSync := e.syncs.find? fun s => front.seq < s
  let stop := nextSync.getD (front.seq + 1)
  -- What has not aired is kept however old.
  let aired := restart.all fun r => stop ≤ r
  let gopExpired := aired && match nextSync with
    | some s => (e.entry s).any fun x => x.arrival + capacity < now
    | none => !front.sync && front.arrival + capacity < now
  let notNeeded : Bool := match keepFrom, nextSync with
    | some k, some s => s ≤ k
    | _, _ => false
  let unaired : Bool := match restart with
    | some _ => !aired
    | none => now < front.arrival + e.out.delay
  { stop
    evict := overRam || gopExpired || notNeeded
    lostUnaired := unaired && !gopExpired && !notNeeded }

/-- The eviction loop; every round takes at least the front off, so the ring's length bounds it. -/
def evictLoop (now capacity : ℕ) (keepFrom restart : Option ℕ) :
    ℕ → Engine → Bool → Engine × Bool
  | 0, e, lost => (e, lost)
  | fuel + 1, e, lost =>
    match e.ring with
    | [] => (e, lost)
    | front :: _ =>
      let plan := e.evictPlan now capacity keepFrom restart front
      if plan.evict then
        evictLoop now capacity keepFrom restart fuel
          ((e.popBefore plan.stop).forgetSessions) (lost || plan.lostUnaired)
      else (e, lost)

def evict (now : ℕ) (e : Engine) : Engine :=
  let capacity := (e.config.maxDelayMs + e.config.headroomMs) * MS
  let (next, lostUnaired) :=
    evictLoop now capacity (e.keepFrom now) e.restartPoint e.ring.length e false
  if lostUnaired then next.memoryShort now else next

end Engine

end StreamDelay
