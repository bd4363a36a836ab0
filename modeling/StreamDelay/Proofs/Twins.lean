import Mathlib.Tactic.Common
import StreamDelay.Proofs.Moves

/-! # What polls take no notice of

Two engines that differ only in what was sent on the connection, the timestamps and the headers the destination
has, go on alike: polls come to the same messages of the buffer. Until something is sent, timestamps that are the same
stay the same.
-/

namespace StreamDelay

open Flv (Bytes)
open Foundations

namespace Engine

/-- The engine with what was sent on the connection blanked out: the headers the destination has, and unless it is
`clocked` the timestamps that splices go by. -/
def bare (clocked : Bool) (e : Engine) : Engine :=
  { e with
    out :=
      { e.out with
        tsOffset := if clocked then e.out.tsOffset else 0
        lastOutTs := if clocked then e.out.lastOutTs else 0
        lastKindTs := .const none
        lastPts := if clocked then e.out.lastPts else 0
        sentHeaders := []
        sentMetadata := none
        sentBytes := 0
        sent := 0
        landing := none } }

/-- The engines differ only in what was sent on the connection, and where they are `clocked` not in the timestamps that
splices go by. -/
def Twin (clocked : Bool) (e e' : Engine) : Prop := e'.bare clocked = e.bare clocked

/-! ## The parts of memoryShort -/

def noteMemoryShort (e : Engine) : Engine := { e with out := { e.out with memoryShort := true } }

def shorten (d : ℕ) (e : Engine) : Engine := { e with out := { e.out with delay := min e.out.delay d } }

/-- The pending change leaves room for a reduction to `d`. -/
def lowersTo (d : ℕ) (e : Engine) : Bool :=
  (match e.out.pending with
    | .none => true
    | .reduce r => d < r
    | _ => false) && d < e.out.delay

theorem memoryShort_eq (now : ℕ) (e : Engine) :
    e.memoryShort now =
      match e.syncs.head?.bind e.entry with
      | none => e
      | some x =>
        let d := now - x.arrival - e.keyframeInterval
        if !e.out.started then e.noteMemoryShort.shorten d
        else if e.lowersTo d then e.noteMemoryShort.setPending (.reduce d) else e.noteMemoryShort := rfl

namespace Twin

variable {clocked : Bool} {e mid e' : Engine} {now : ℕ}

@[refl] theorem refl (e : Engine) : Twin clocked e e := rfl

theorem symm (twin : Twin clocked e e') : Twin clocked e' e := Eq.symm twin

theorem trans (first : Twin clocked e mid) (second : Twin clocked mid e') : Twin clocked e e' := Eq.trans second first

/-- What does not depend on what was sent is the same. -/
theorem same {α : Sort*} (twin : Twin clocked e e') (f : Engine → α) :
    f (e'.bare clocked) = f (e.bare clocked) := congrArg f twin

/-- A change that neither looks at what was sent nor touches it. -/
theorem map (twin : Twin clocked e e') (f : Engine → Engine) : f (e'.bare clocked) = f (e.bare clocked) :=
  congrArg f twin

/-- Where the timestamps that splices go by are the same. -/
theorem clock (twin : Twin false e e') (offset : e'.out.tsOffset = e.out.tsOffset)
    (last : e'.out.lastOutTs = e.out.lastOutTs) (pts : e'.out.lastPts = e.out.lastPts) : Twin true e e' := by
  let put (tsOffset : ℤ) (lastOutTs : ℕ) (lastPts : ℤ) (e : Engine) : Engine :=
    { e with out := { e.out with tsOffset, lastOutTs, lastPts } }
  show put e'.out.tsOffset e'.out.lastOutTs e'.out.lastPts (e'.bare false) =
    put e.out.tsOffset e.out.lastOutTs e.out.lastPts (e.bare false)
  rw [offset, last, pts, twin]

theorem entry (twin : Twin clocked e e') (seq : ℕ) : e'.entry seq = e.entry seq := twin.same (Engine.entry · seq)

theorem arrivalOr (twin : Twin clocked e e') (seq now : ℕ) : e'.arrivalOr seq now = e.arrivalOr seq now :=
  twin.same (Engine.arrivalOr · seq now)

theorem syncs (twin : Twin clocked e e') : e'.syncs = e.syncs := twin.same Engine.syncs

theorem ring (twin : Twin clocked e e') : e'.ring = e.ring := twin.same Engine.ring

theorem baseSeq (twin : Twin clocked e e') : e'.baseSeq = e.baseSeq := twin.same Engine.baseSeq

theorem config (twin : Twin clocked e e') : e'.config = e.config := twin.same Engine.config

theorem nextSeq (twin : Twin clocked e e') : e'.out.nextSeq = e.out.nextSeq := twin.same (·.out.nextSeq)

theorem delay (twin : Twin clocked e e') : e'.out.delay = e.out.delay := twin.same (·.out.delay)

theorem pending (twin : Twin clocked e e') : e'.out.pending = e.out.pending := twin.same (·.out.pending)

theorem needSync (twin : Twin clocked e e') : e'.out.needSync = e.out.needSync := twin.same (·.out.needSync)

theorem started (twin : Twin clocked e e') : e'.out.started = e.out.started := twin.same (·.out.started)

theorem endMark (twin : Twin clocked e e') : e'.out.endMark = e.out.endMark := twin.same (·.out.endMark)

theorem hold (twin : Twin clocked e e') : e'.out.hold = e.out.hold := twin.same (·.out.hold)

/-! ### Pending changes -/

theorem withPending (twin : Twin clocked e e') (p : Pending) : Twin clocked (e.withPending p) (e'.withPending p) :=
  twin.map (Engine.withPending p)

theorem setPending (twin : Twin clocked e e') (p : Pending) : Twin clocked (e.setPending p) (e'.setPending p) :=
  twin.map (Engine.setPending p)

theorem finishPending (twin : Twin clocked e e') : Twin clocked e.finishPending e'.finishPending :=
  twin.map Engine.finishPending

/-- A splice gives different timestamps, unless those it goes by are the same. -/
theorem spliceTo (twin : Twin clocked e e') (k delay : ℕ) :
    Twin clocked (e.spliceTo k delay) (e'.spliceTo k delay) := by
  unfold Engine.spliceTo
  rw [twin.entry]
  cases e.entry k with
  | none => exact twin
  | some x =>
    let land (tsOffset : ℤ) (e : Engine) : Engine :=
      { e with
        out :=
          { e.out with
            tsOffset
            fresh := false
            gate := some (x.session, x.ts)
            skipLeadingAfter := if x.hevcNal = some Flv.Hevc.CRA then some k else none
            splices := if e.out.started then e.out.splices + 1 else e.out.splices
            started := true
            nextSeq := k
            delay := delay
            needSync := false
            currentSession := some x.session
            pendingHeaders := true } }
    cases clocked with
    | false => exact twin.map (land 0)
    | true =>
      exact twin.map fun e =>
        land (signed (((if e.out.fresh then 0 else e.afterSent (e.frameMs x.session) x.cts : ℕ) : ℤ) - x.ts)) e

theorem endHold (twin : Twin clocked e e') (now : ℕ) : Twin clocked (e.endHold now) (e'.endHold now) := by
  unfold Engine.endHold
  rw [twin.hold]
  cases e.out.hold with
  | none => exact twin
  | some h =>
    cases clocked with
    | false => exact twin.map fun e => { e with out := { e.out with hold := none } }
    | true =>
      exact twin.map fun e =>
        { e with
          out :=
            { e.out with hold := none, lastOutTs := (e.out.lastOutTs + (now - h.last) / MS) % 2 ^ 64 } }

theorem runGoLiveNow (twin : Twin clocked e e') (now afterSeq : ℕ) :
    Twin clocked (e.runGoLiveNow now afterSeq) (e'.runGoLiveNow now afterSeq) := by
  have newest : (e'.syncs.getLast?.filter fun s => afterSeq < s) = e.syncs.getLast?.filter fun s => afterSeq < s :=
    twin.same fun e => e.syncs.getLast?.filter fun s => afterSeq < s
  unfold Engine.runGoLiveNow
  rw [newest]
  split
  · exact twin
  · next k _ =>
    rw [twin.nextSeq, twin.needSync, twin.arrivalOr]
    split
    · exact (twin.spliceTo k _).finishPending
    · exact twin.map fun e => { e with out := { e.out with delay := min e.out.delay e.out.target } }.finishPending

theorem runAfterAir (twin : Twin clocked e e') (now markSeq : ℕ) :
    Twin clocked (e.runAfterAir now markSeq) (e'.runAfterAir now markSeq) := by
  have last : e'.nextSeq = e.nextSeq := twin.same Engine.nextSeq
  unfold Engine.runAfterAir
  rw [twin.nextSeq, last]
  split
  · exact (twin.withPending _).runGoLiveNow now _
  · exact twin

theorem runReduce (twin : Twin clocked e e') (now delay : ℕ) :
    Twin clocked (e.runReduce now delay) (e'.runReduce now delay) := by
  have newest : e'.newestSyncArrivedBy (checkedSub now delay) = e.newestSyncArrivedBy (checkedSub now delay) :=
    twin.same (Engine.newestSyncArrivedBy · _)
  unfold Engine.runReduce
  rw [twin.delay, newest]
  split
  · exact twin.finishPending
  · split
    · exact twin
    · next k _ =>
      have gap (excess : ℕ) : e'.gapAfter k excess = e.gapAfter k excess := twin.same (Engine.gapAfter · k excess)
      dsimp only
      rw [twin.nextSeq, twin.arrivalOr, gap]
      split
      · split
        · exact twin
        · exact (twin.spliceTo k _).finishPending
      · exact twin

theorem runMaskAt (twin : Twin clocked e e') (now : ℕ) (m : MaskChange) (anchor : ℕ) :
    Twin clocked (e.runMaskAt now m anchor) (e'.runMaskAt now m anchor) := by
  unfold Engine.runMaskAt
  rw [twin.entry]
  split
  · exact twin.setPending _
  · split
    · exact (twin.spliceTo anchor _).setPending _
    · exact twin

theorem anchorMask (twin : Twin clocked e e') (now : ℕ) (m : MaskChange) (since : ℕ) :
    Twin clocked (e.anchorMask now m since) (e'.anchorMask now m since) := by
  have first : e'.firstSyncArrivedFrom since = e.firstSyncArrivedFrom since :=
    twin.same (Engine.firstSyncArrivedFrom · since)
  unfold Engine.anchorMask
  rw [first]
  split
  · exact twin
  · exact (twin.withPending _).runMaskAt now _ _

theorem runMask (twin : Twin clocked e e') (now : ℕ) (m : MaskChange) :
    Twin clocked (e.runMask now m) (e'.runMask now m) := by
  have margin : e'.config.maskMarginMs = e.config.maskMarginMs := twin.same (·.config.maskMarginMs)
  unfold Engine.runMask
  rw [margin]
  split
  · exact twin.runMaskAt now m _
  · dsimp only
    split
    · exact twin.anchorMask now m _
    · split
      · have told : Twin clocked { e with out := { e.out with slateUnconfirmed := true } }
            { e' with out := { e'.out with slateUnconfirmed := true } } :=
          twin.map fun e => { e with out := { e.out with slateUnconfirmed := true } }
        exact told.anchorMask now m _
      · exact twin

theorem runHold (twin : Twin clocked e e') (now fromSeq delay : ℕ) :
    Twin clocked (e.runHold now fromSeq delay) (e'.runHold now fromSeq delay) := by
  have first : (e'.syncs.find? fun s => fromSeq ≤ s && e'.out.endMark.all fun m => s ≤ m) =
      e.syncs.find? fun s => fromSeq ≤ s && e.out.endMark.all fun m => s ≤ m :=
    twin.same fun e => e.syncs.find? fun s => fromSeq ≤ s && e.out.endMark.all fun m => s ≤ m
  unfold Engine.runHold
  rw [first, twin.endMark]
  split
  · split
    · exact twin
    · next m _ =>
      exact twin.map fun e =>
        { e with
          out :=
            { e.out with
              nextSeq := max e.out.nextSeq (m + 1)
              pending := .none
              hold := none
              coverLost := false } }
  · next k _ =>
    dsimp only
    rw [twin.arrivalOr]
    split
    · exact map (((twin.endHold now).spliceTo k _).finishPending) fun e =>
        { e with out := { e.out with coverLost := false } }
    · exact twin

theorem runDump (twin : Twin clocked e e') (now delay started fromSeq : ℕ) (shown : Option ℕ) :
    Twin clocked (e.runDump now delay started fromSeq shown) (e'.runDump now delay started fromSeq shown) := by
  have first (t : ℕ) : e'.firstSyncArrivedFrom t = e.firstSyncArrivedFrom t :=
    twin.same (Engine.firstSyncArrivedFrom · t)
  have margin : e'.config.maskMarginMs = e.config.maskMarginMs := twin.same (·.config.maskMarginMs)
  unfold Engine.runDump
  rw [margin]
  split
  · split
    · have lost : Twin clocked { e with out := { e.out with coverLost := true } }
          { e' with out := { e'.out with coverLost := true } } :=
        twin.map fun e => { e with out := { e.out with coverLost := true } }
      exact (lost.setPending _).runHold now fromSeq delay
    · exact twin
  · rw [first]
    split
    · exact twin
    · next anchor _ =>
      dsimp only
      have spliced := (twin.endHold now).spliceTo anchor (now - e.arrivalOr anchor now)
      rw [twin.arrivalOr, spliced.config]
      exact (spliced.withPending _).runMask now _

theorem runReplay (twin : Twin clocked e e') (now fromSeq delay : ℕ) :
    Twin clocked (e.runReplay now fromSeq delay) (e'.runReplay now fromSeq delay) := by
  unfold Engine.runReplay
  rw [twin.syncs]
  split
  · exact twin
  · next k _ =>
    dsimp only
    rw [twin.arrivalOr]
    split
    · exact (twin.spliceTo k _).finishPending
    · exact twin

theorem runPending (twin : Twin clocked e e') (now : ℕ) : Twin clocked (e.runPending now) (e'.runPending now) := by
  unfold Engine.runPending
  rw [twin.pending]
  cases e.out.pending with
  | none => exact twin
  | goLiveNow afterSeq => exact twin.runGoLiveNow now afterSeq
  | afterAir markSeq => exact twin.runAfterAir now markSeq
  | reduce delay => exact twin.runReduce now delay
  | mask m => exact twin.runMask now m
  | dump delay started fromSeq shown => exact twin.runDump now delay started fromSeq shown
  | hold fromSeq delay => exact twin.runHold now fromSeq delay
  | replay fromSeq delay => exact twin.runReplay now fromSeq delay

/-! ### Eviction -/

theorem popBefore (twin : Twin clocked e e') (stop : ℕ) : Twin clocked (e.popBefore stop) (e'.popBefore stop) := by
  have loop (ring : List Entry) {e e' : Engine} (twin : Twin clocked e e') :
      Twin clocked (popLoop stop ring e) (popLoop stop ring e') := by
    induction ring generalizing e e' with
    | nil => exact twin
    | cons f rest ih =>
      unfold popLoop
      split
      · refine ih (twin.map fun e =>
          { e with
            ring := rest
            bytes := e.bytes - cost f.payload.length
            baseSeq := f.seq + 1
            syncs := if e.syncs.head? = some f.seq then e.syncs.tail else e.syncs })
      · exact twin
  unfold Engine.popBefore
  rw [twin.ring]
  exact loop e.ring twin

theorem forgetHeaders (twin : Twin clocked e e') : Twin clocked e.forgetHeaders e'.forgetHeaders := by
  have sessions : e'.sessions = e.sessions := twin.same Engine.sessions
  have kept : (e'.sessions.map fun s => { s with headers := forgetReplaced e'.baseSeq s.headers }) =
      e.sessions.map fun s => { s with headers := forgetReplaced e.baseSeq s.headers } :=
    twin.same fun e => e.sessions.map fun s => { s with headers := forgetReplaced e.baseSeq s.headers }
  unfold Engine.forgetHeaders
  dsimp only
  rw [kept]
  by_cases all : (e.sessions.map fun s => { s with headers := forgetReplaced e.baseSeq s.headers }) = e.sessions
  · rw [if_pos all, if_pos (all.trans sessions.symm)]
    exact twin
  · rw [if_neg all, if_neg (by rwa [sessions])]
    exact twin.map fun e' =>
      countSessions
        { e' with sessions := e.sessions.map fun s => { s with headers := forgetReplaced e.baseSeq s.headers } }

theorem forgetSessions (twin : Twin clocked e e') : Twin clocked e.forgetSessions e'.forgetSessions := by
  have headers := twin.forgetHeaders
  unfold Engine.forgetSessions
  dsimp only
  generalize e.forgetHeaders = mid at headers
  generalize e'.forgetHeaders = mid' at headers
  have sessions : mid'.sessions = mid.sessions := headers.same Engine.sessions
  cases ring : mid.ring with
  | nil =>
    rw [headers.ring.trans ring]
    exact headers
  | cons front rest =>
    rw [headers.ring.trans ring]
    dsimp only
    by_cases older : (mid.sessions.head?.any fun s => s.id < front.session) = true
    · rw [if_pos older, if_pos (by rwa [sessions])]
      exact headers.map fun mid =>
        countSessions
          { mid with
            ring := front :: rest
            sessions := mid.sessions.filter fun s =>
              front.session ≤ s.id || some s.id = mid.sessions.getLast?.map Session.id }
    · rw [if_neg older, if_neg (by rwa [sessions])]
      exact headers

theorem evictLoop (twin : Twin clocked e e') (now capacity : ℕ) (keepFrom restart : Option ℕ) (fuel : ℕ)
    (lost : Bool) :
    Twin clocked (Engine.evictLoop now capacity keepFrom restart fuel e lost).1
        (Engine.evictLoop now capacity keepFrom restart fuel e' lost).1 ∧
      (Engine.evictLoop now capacity keepFrom restart fuel e' lost).2 =
        (Engine.evictLoop now capacity keepFrom restart fuel e lost).2 := by
  induction fuel generalizing e e' lost with
  | zero => exact ⟨twin, rfl⟩
  | succ fuel ih =>
    unfold Engine.evictLoop
    rw [twin.ring]
    cases e.ring with
    | nil => exact ⟨twin, rfl⟩
    | cons front rest =>
      have plan : e'.evictPlan now capacity keepFrom restart front = e.evictPlan now capacity keepFrom restart front :=
        twin.same (Engine.evictPlan now capacity keepFrom restart front)
      dsimp only
      rw [plan]
      split
      · exact ih (twin.popBefore _).forgetSessions _
      · exact ⟨twin, rfl⟩

theorem memoryShort (twin : Twin clocked e e') (now : ℕ) : Twin clocked (e.memoryShort now) (e'.memoryShort now) := by
  have oldest : e'.syncs.head?.bind e'.entry = e.syncs.head?.bind e.entry :=
    twin.same fun e => e.syncs.head?.bind e.entry
  have interval : e'.keyframeInterval = e.keyframeInterval := twin.same Engine.keyframeInterval
  rw [memoryShort_eq, memoryShort_eq, oldest, interval, twin.started]
  split
  · exact twin
  · next x _ =>
    have lower : e'.lowersTo (now - x.arrival - e.keyframeInterval) =
        e.lowersTo (now - x.arrival - e.keyframeInterval) :=
      twin.same (Engine.lowersTo (now - x.arrival - e.keyframeInterval))
    have told : Twin clocked e.noteMemoryShort e'.noteMemoryShort := twin.map noteMemoryShort
    dsimp only
    rw [lower]
    split
    · exact twin.map fun e' => (e'.noteMemoryShort).shorten (now - x.arrival - e.keyframeInterval)
    · split
      · exact told.setPending _
      · exact told

theorem evict (twin : Twin clocked e e') (now : ℕ) : Twin clocked (e.evict now) (e'.evict now) := by
  have keep : e'.keepFrom now = e.keepFrom now := twin.same (Engine.keepFrom now)
  have restart : e'.restartPoint = e.restartPoint := twin.same Engine.restartPoint
  have capacity : (e'.config.maxDelayMs + e'.config.headroomMs) * MS =
      (e.config.maxDelayMs + e.config.headroomMs) * MS := by rw [twin.config]
  obtain ⟨loop, lost⟩ := twin.evictLoop now ((e.config.maxDelayMs + e.config.headroomMs) * MS) (e.keepFrom now)
    e.restartPoint e.ring.length false
  unfold Engine.evict
  dsimp only
  rw [keep, restart, capacity, twin.ring, lost]
  split
  · exact loop.memoryShort now
  · exact loop

/-! ### The cursor -/

theorem catchUp (twin : Twin clocked e e') : Twin clocked e.catchUp e'.catchUp := by
  unfold Engine.catchUp
  by_cases behind : e.out.nextSeq < e.baseSeq
  · rw [if_pos behind, if_pos (by rwa [twin.nextSeq, twin.baseSeq])]
    exact twin.map fun e => { e with out := { e.out with nextSeq := e.baseSeq, needSync := true } }
  · rw [if_neg behind, if_neg (by rwa [twin.nextSeq, twin.baseSeq])]
    exact twin

theorem noticeSession (twin : Twin clocked e e') : Twin clocked e.noticeSession e'.noticeSession := by
  have current : e'.out.currentSession = e.out.currentSession := twin.same (·.out.currentSession)
  unfold Engine.noticeSession
  rw [current, twin.nextSeq, twin.entry, twin.needSync]
  split
  · split
    · exact twin.map fun e => { e with out := { e.out with needSync := true } }
    · exact twin
  · exact twin

theorem backUnderMax (twin : Twin clocked e e') : Twin clocked e.backUnderMax e'.backUnderMax := by
  have past : (e'.out.pending = .none ∧ e'.config.maxDelayMs * MS + e'.keyframeInterval < e'.out.delay) =
      (e.out.pending = .none ∧ e.config.maxDelayMs * MS + e.keyframeInterval < e.out.delay) :=
    twin.same fun e => e.out.pending = .none ∧ e.config.maxDelayMs * MS + e.keyframeInterval < e.out.delay
  unfold Engine.backUnderMax
  dsimp only
  by_cases above : e.out.pending = .none ∧ e.config.maxDelayMs * MS + e.keyframeInterval < e.out.delay
  · rw [if_pos above, if_pos (past.symm ▸ above)]
    exact twin.map fun e =>
      Engine.setPending (.reduce (e.config.maxDelayMs * MS))
        { e with out := { e.out with target := min e.out.target (e.config.maxDelayMs * MS) } }
  · rw [if_neg above, if_neg (past.symm ▸ above)]
    exact twin

theorem startAt (twin : Twin clocked e e') (now k arrival : ℕ) :
    Twin clocked (e.startAt now k arrival) (e'.startAt now k arrival) := by
  have target : e'.out.target = e.out.target := twin.same (·.out.target)
  have spliced := twin.spliceTo k (max e.out.delay (now - arrival))
  unfold Engine.startAt
  dsimp only
  rw [twin.delay, twin.started, twin.pending, target]
  split
  · rw [spliceTo_target, spliceTo_target, target]
    exact spliced.setPending _
  · exact spliced.backUnderMax

end Twin

/-- The two searches end alike. -/
def SearchAlike (clocked : Bool) : Search → Search → Prop
  | .again e, .again e' | .stop e _, .stop e' _ | .ready e, .ready e' => Twin clocked e e'
  | _, _ => False

namespace Twin

variable {clocked : Bool} {e mid e' : Engine} {now : ℕ}

theorem findSync (twin : Twin clocked e e') (now : ℕ) : SearchAlike clocked (e.findSync now) (e'.findSync now) := by
  have first : e'.startKeyframe now = e.startKeyframe now := twin.same (Engine.startKeyframe now)
  have session : e'.cursorSession = e.cursorSession := twin.same Engine.cursorSession
  have newest : e'.sessions.getLast?.map Session.id = e.sessions.getLast?.map Session.id :=
    twin.same (·.sessions.getLast?.map Session.id)
  unfold Engine.findSync
  rw [first, session, newest]
  split
  · split
    · exact twin
    · next s _ =>
      have start : e'.nextSessionStart s = e.nextSessionStart s := twin.same (Engine.nextSessionStart · s)
      split
      · exact twin.map fun e => { e with out := { e.out with nextSeq := e.nextSessionStart s } }
      · exact twin
  · next k _ =>
    rw [twin.endMark]
    split
    · next m _ => exact twin.map fun e => { e with out := { e.out with nextSeq := m + 1 } }
    · dsimp only
      rw [twin.arrivalOr, twin.delay]
      split
      · exact twin
      · have started := twin.startAt now k (e.arrivalOr k now)
        have past : (e'.startAt now k (e.arrivalOr k now)).pastMark = (e.startAt now k (e.arrivalOr k now)).pastMark :=
          started.same Engine.pastMark
        rw [past]
        split
        · exact started
        · exact started

/-! ### Sending -/

private theorem of_recordTs (kind : Kind) (t : ℕ) (e : Engine) : Twin false e (e.recordTs kind t) := rfl

private theorem of_recordPts (pts : ℤ) (e : Engine) : Twin false e (e.recordPts pts) := rfl

private theorem of_countSent (payload : Bytes) (e : Engine) : Twin false e (e.countSent payload) := rfl

private theorem of_tally (sent : List Sent) (e : Engine) : Twin false e (e.tally sent) := rfl

private theorem of_markHeader (kind : Kind) (class_ : UInt16) (payload : Bytes) (e : Engine) :
    Twin false e (e.markHeader kind class_ payload) := rfl

private theorem of_emitMetadata (ts : ℕ) (metadata : Option Bytes) (e : Engine) :
    Twin false e (e.emitMetadata ts metadata).1 := by
  unfold emitMetadata
  split
  · rfl
  · split
    · rfl
    · rfl

private theorem of_emitConfigs (ts : ℕ) (configs : List (Kind × UInt16 × Bytes)) (e : Engine) :
    Twin false e (e.emitConfigs ts configs).1 := by
  induction configs generalizing e with
  | nil => rfl
  | cons c rest ih =>
    obtain ⟨kind, class_, payload⟩ := c
    unfold emitConfigs
    split
    · exact ih e
    · have marked := of_markHeader kind class_ payload e
      have stamped := marked.trans (of_recordTs kind ((e.markHeader kind class_ payload).outTsValue kind ts) _)
      exact (stamped.trans (of_countSent payload _)).trans (ih _)

/-- Headers are sent, and nothing is left to send of them. -/
theorem of_sendHeaders (e : Engine) : Twin false e.headersDone e.sendHeaders.1 := by
  unfold sendHeaders
  split
  · unfold emitHeaders
    split
    · rfl
    · exact (of_emitMetadata ..).trans (of_emitConfigs ..)
  · next none =>
    have none : e.out.pendingHeaders = false := by simpa using none
    unfold Twin bare headersDone
    rw [← none]

theorem of_emitConfigEntry (x : Entry) (class_ : UInt16) (e : Engine) :
    Twin false e (e.emitConfigEntry x class_).1 := by
  unfold emitConfigEntry
  split
  · rfl
  · exact ((of_markHeader ..).trans (of_recordTs ..)).trans (of_countSent ..)

theorem of_emitMedia (x : Entry) (e : Engine) : Twin false e (e.emitMedia x).1 := by
  unfold emitMedia
  dsimp only
  split
  · exact ((of_recordTs ..).trans (of_recordPts ..)).trans (of_countSent ..)
  · exact (of_recordTs ..).trans (of_countSent ..)

theorem skipLeading (twin : Twin clocked e e') (x : Entry) :
    Twin clocked (e.skipLeading x).1 (e'.skipLeading x).1 ∧ (e'.skipLeading x).2 = (e.skipLeading x).2 := by
  have skips : e'.out.skipLeadingAfter = e.out.skipLeadingAfter := twin.same (·.out.skipLeadingAfter)
  unfold Engine.skipLeading
  rw [skips]
  split
  · split
    · exact ⟨twin.map fun e => { e with out := { e.out with skipLeadingAfter := none } }, rfl⟩
    · exact ⟨twin, rfl⟩
  · exact ⟨twin, rfl⟩

theorem emitEntry (twin : Twin false e e') : Twin false e.emitEntry.1 e'.emitEntry.1 := by
  unfold Engine.emitEntry
  rw [twin.nextSeq, twin.entry]
  cases e.entry e.out.nextSeq with
  | none => exact twin
  | some x =>
    dsimp only
    cases x.config with
    | some class_ => exact ((of_emitConfigEntry x class_ e).symm.trans twin).trans (of_emitConfigEntry x class_ e')
    | none =>
      obtain ⟨skipped, left⟩ := twin.skipLeading x
      generalize e.skipLeading x = p at skipped left
      generalize e'.skipLeading x = p' at skipped left
      obtain ⟨mid, out⟩ := p
      obtain ⟨mid', out'⟩ := p'
      obtain rfl : out' = out := left
      cases out' with
      | true => exact skipped.map Engine.drop
      | false =>
        have gated : mid'.gated x = mid.gated x := skipped.same (Engine.gated · x)
        dsimp only
        rw [gated]
        split
        · exact skipped.map Engine.drop
        · exact ((of_emitMedia x mid).symm.trans skipped).trans (of_emitMedia x mid')

theorem sendHeaders (twin : Twin false e e') : Twin false e.sendHeaders.1 e'.sendHeaders.1 := by
  have cleared : Twin false e.headersDone e'.headersDone := twin.map headersDone
  exact ((of_sendHeaders e).symm.trans cleared).trans (of_sendHeaders e')

theorem sendEntry (twin : Twin false e e') : Twin false e.sendEntry.1 e'.sendEntry.1 := by
  have noted : Twin false e.sendHeaders.1.noteFirst e'.sendHeaders.1.noteFirst := twin.sendHeaders.map noteFirst
  exact noted.emitEntry.map pass

theorem of_emitHoldConfigs (t : ℕ) (configs : List (Kind × UInt16 × Bytes)) (e : Engine) :
    Twin false e (e.emitHoldConfigs t configs).1 := by
  induction configs generalizing e with
  | nil => rfl
  | cons c rest ih =>
    obtain ⟨kind, class_, payload⟩ := c
    unfold emitHoldConfigs
    split
    · exact ih e
    · have marked := (of_markHeader kind class_ payload e).trans (of_countSent payload _)
      have stamped (e : Engine) :
          Twin false e { e with out := { e.out with lastKindTs := e.out.lastKindTs.set kind (some t) } } := rfl
      exact (marked.trans (stamped _)).trans (ih _)

private theorem of_frameHeaders (h : HoldFrame) (t : ℕ) (e : Engine) : Twin false e (e.frameHeaders h t).1 := by
  unfold frameHeaders
  split
  · unfold emitHoldHeaders
    dsimp only
    split
    · exact of_emitHoldConfigs t h.headers.config _
    · exact of_emitHoldConfigs t h.headers.config _
  · rfl

theorem of_showFrame (now : ℕ) (h : HoldFrame) (e : Engine) :
    Twin false (e.frameShown now h) (e.showFrame now h).1 := by
  have headers := of_frameHeaders h (e.holdTs now h) (e.frameShown now h)
  unfold showFrame
  exact (((headers.trans (of_recordTs ..)).trans (of_recordPts ..)).trans (of_countSent ..)).trans (of_tally ..)

theorem emitHoldFrame (twin : Twin false e e') (now : ℕ) :
    Twin false (e.emitHoldFrame now).1 (e'.emitHoldFrame now).1 := by
  unfold Engine.emitHoldFrame
  rw [twin.hold]
  cases e.out.hold with
  | none => exact twin
  | some h =>
    dsimp only
    split
    · exact twin
    · have frame : Twin false (e.frameShown now h) (e'.frameShown now h) := twin.map (Engine.frameShown now h)
      exact ((of_showFrame now h e).symm.trans frame).trans (of_showFrame now h e')

end Twin

end Engine

end StreamDelay
