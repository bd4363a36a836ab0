import Mathlib.Tactic.Common
import StreamDelay.Proofs.Moves
import StreamDelay.Proofs.Stamps

/-! # What the timestamps of polls depend on

The timestamps that polls give follow from the splices, the held frames, the headers and the messages that they come to,
in that order. What is between leaves them as they are.
-/

namespace StreamDelay

open Flv (Bytes)
open Foundations

/-- The messages of the buffer among what is sent, other than decoder configuration, as they are sent. -/
def media (sent : List Sent) : List (Entry × OutMsg) :=
  sent.filterMap fun s => (s.entry?.filter fun x => x.config.isNone).map fun x => (x, s.msg)

@[simp] theorem media_append (xs ys : List Sent) : media (xs ++ ys) = media xs ++ media ys :=
  List.filterMap_append

theorem media_headers {sent : List Sent} (headers : ∀ s ∈ sent, s.IsHeader) : media sent = [] := by
  refine List.filterMap_eq_nil_iff.mpr fun s member => ?_
  rw [Sent.IsHeader.entry? (headers s member)]
  rfl

namespace Engine

/-- The timestamps of the output, and what the destination has of its headers. -/
def stamps (e : Engine) : Stamps :=
  ⟨⟨e.out.tsOffset, e.out.lastOutTs, e.out.lastKindTs, e.out.lastPts⟩, e.out.sentHeaders, e.out.sentMetadata⟩

/-! ## What the timestamps depend on, poll by poll -/

/-- From `e` to `e'` the output was spliced, or a hold ended. -/
def spliceBeats (e e' : Engine) : List Beat :=
  if e'.out.splices = e.out.splices ∧ e'.out.hold.isSome = e.out.hold.isSome then [] else [.restart e.out.lastOutTs]

/-- The message `x` is sent, or the output comes to a configuration. -/
def entryBeats (e : Engine) (x : Entry) : List Beat :=
  match x.config with
  | some class_ => [.config (configMark (x.kind, class_, x.payload)) (e.outTsValue x.kind x.ts)]
  | none => if (e.skipLeading x).2 || e.gated x then [] else [.message x.kind (e.outTsValue x.kind x.ts)]

/-- The message at the cursor, and the headers in front of it. -/
def sendBeats (e : Engine) : List Beat :=
  match e.entry e.out.nextSeq with
  | none => []
  | some x =>
    (if e.out.pendingHeaders then (e.headersAt x.session x.seq).beats (e.outTsValue · x.ts) else []) ++ e.entryBeats x

/-- The end of a round. -/
def dueBeats (now : ℕ) (e : Engine) : List Beat :=
  match e.entry e.out.nextSeq with
  | none => []
  | some x =>
    if now < x.arrival + e.out.delay then []
    else if e.muted x then spliceBeats e.muteEntry (e.muteEntry.runPending now)
    else e.sendBeats ++ spliceBeats e.sendEntry.1 (e.sendEntry.1.runPending now)

/-- A round from the search for a keyframe on. -/
def fromBeats (now : ℕ) (e : Engine) : List Beat :=
  if e.out.needSync then
    match e.findSync now with
    | .again next | .stop next _ => spliceBeats e next
    | .ready next => spliceBeats e next ++ next.dueBeats now
  else e.dueBeats now

/-- A round past the gates of a dump. -/
def advanceBeats (now : ℕ) (e : Engine) : List Beat :=
  let e := e.catchUp
  if e.pastMark then [] else e.noticeSession.fromBeats now

/-- The frame of a hold, where it is due. -/
def holdBeats (now : ℕ) (e : Engine) : List Beat :=
  match e.out.hold with
  | none => []
  | some h =>
    if now < h.next then []
    else .restart e.out.lastOutTs :: if h.needsHeaders then h.headers.beats fun _ => e.holdTs now h else []

/-- One round of the poll loop. -/
def roundBeats (now : ℕ) (e : Engine) : List Beat :=
  match e.out.pending with
  | .dump .. | .hold .. => e.holdBeats now
  | .replay fromSeq _ => if fromSeq ≤ e.out.nextSeq then [] else e.advanceBeats now
  | _ => e.advanceBeats now

/-- The poll loop, with no budget. -/
def loopBeats (now : ℕ) : ℕ → Engine → List Beat
  | 0, _ => []
  | fuel + 1, e =>
    e.roundBeats now ++
      match e.pollRound now 1 0 with
      | .stop .. => []
      | .again next _ => loopBeats now fuel next

/-! ## Polls without a budget -/

/-- The poll loop where no budget ends a round. -/
def freeLoop (now : ℕ) : ℕ → Engine → Engine × List Sent
  | 0, e => (e, [])
  | fuel + 1, e =>
    match e.pollRound now 1 0 with
    | .stop e sent _ => (e, sent)
    | .again e sent =>
      let (e, rest) := freeLoop now fuel e
      (e, sent ++ rest)

/-- A poll without a budget. -/
def pollFree (now : ℕ) (e : Engine) : Engine × List Sent :=
  let e := (e.evict now).runPending now
  if !e.out.connected then (e, []) else freeLoop now e.pollFuel e

/-- What polls without a budget send. -/
def freeSends : List ℕ → Engine → List Sent
  | [], _ => []
  | now :: times, e => (e.pollFree now).2 ++ freeSends times (e.pollFree now).1

variable {e mid e' : Engine} {now maxBytes emitted fuel : ℕ}

/-- Within its budget, a round does not depend on it. -/
private theorem pollRound_free (within : emitted < maxBytes) :
    e.pollRound now maxBytes emitted = e.pollRound now 1 0 := by
  have due (e : Engine) : e.sendDue now maxBytes emitted = e.sendDue now 1 0 := by
    unfold sendDue
    cases e.entry e.out.nextSeq with
    | none => rfl
    | some x =>
      dsimp only
      rw [if_neg (Nat.not_le.mpr within), if_neg (Nat.not_le.mpr Nat.zero_lt_one)]
  have search (e : Engine) : e.sendFrom now maxBytes emitted = e.sendFrom now 1 0 := by
    unfold sendFrom
    rw [due]
    split
    · split
      · rfl
      · rfl
      · exact due _
    · rfl
  have advance (e : Engine) : e.advance now maxBytes emitted = e.advance now 1 0 := by
    unfold Engine.advance
    dsimp only
    rw [search]
  unfold pollRound
  rw [advance]

private theorem pollLoop_free (emitted : ℕ) (e : Engine)
    (within : emitted + payloadBytes (freeLoop now fuel e).2 < maxBytes) :
    (pollLoop now maxBytes fuel emitted e).1 = (freeLoop now fuel e).1 ∧
      (pollLoop now maxBytes fuel emitted e).2.1 = (freeLoop now fuel e).2 := by
  induction fuel generalizing e emitted with
  | zero => exact ⟨rfl, rfl⟩
  | succ fuel ih =>
    unfold freeLoop at within ⊢
    unfold pollLoop
    rw [pollRound_free (by omega)]
    generalize e.pollRound now 1 0 = round at within ⊢
    cases round with
    | stop => exact ⟨rfl, rfl⟩
    | again mid sent =>
      dsimp only at within
      rw [payloadBytes_append] at within
      obtain ⟨same, rest⟩ := ih (emitted + payloadBytes sent) mid (by omega)
      exact ⟨same, congrArg (sent ++ ·) rest⟩

private theorem pollBudget_free (e : Engine) (within : payloadBytes (e.pollFree now).2 < maxBytes) :
    (e.pollBudget now maxBytes).1 = (e.pollFree now).1 ∧ (e.pollBudget now maxBytes).2.1 = (e.pollFree now).2 := by
  unfold pollFree at within ⊢
  unfold pollBudget
  dsimp only at within ⊢
  split
  · exact ⟨rfl, rfl⟩
  · next up =>
    rw [if_neg up] at within
    exact pollLoop_free 0 _ (by omega)

/-- With budgets large enough, polls send what they would without. -/
theorem sends_free (times : List ℕ) (e : Engine) :
    ∃ bytes, ∀ maxBytes, bytes ≤ maxBytes →
      e.sends (times.map fun now => .pollBudget now maxBytes) = freeSends times e := by
  induction times generalizing e with
  | nil => exact ⟨0, fun _ _ => rfl⟩
  | cons now times ih =>
    obtain ⟨bytes, rest⟩ := ih (e.pollFree now).1
    refine ⟨max bytes (payloadBytes (e.pollFree now).2 + 1), fun maxBytes enough => ?_⟩
    obtain ⟨next, sent⟩ : (e.pollBudget now maxBytes).1 = (e.pollFree now).1 ∧
        (e.pollBudget now maxBytes).2.1 = (e.pollFree now).2 := pollBudget_free e (by omega)
    have later := rest maxBytes (by omega)
    rw [← next] at later
    show (e.pollBudget now maxBytes).2.1 ++ (e.pollBudget now maxBytes).1.sends _ = _
    rw [later, sent, next]
    rfl

/-- What the timestamps depend on in polls at `times`. -/
def beats : List ℕ → Engine → List Beat
  | [], _ => []
  | now :: times, e =>
    let begun := (e.evict now).runPending now
    spliceBeats (e.evict now) begun ++ (if begun.out.connected then loopBeats now begun.pollFuel begun else []) ++
      beats times (e.pollFree now).1

/-! ## What stands where nothing is sent -/

/-- Nothing is sent; and on a running output that was not spliced and whose hold did not end, the timestamps stand. -/
structure Stands (e e' : Engine) : Prop where
  started : e.out.started = true → e'.out.started = true
  lastKindTs : e'.out.lastKindTs = e.out.lastKindTs
  sentHeaders : e'.out.sentHeaders = e.out.sentHeaders
  sentMetadata : e'.out.sentMetadata = e.out.sentMetadata
  splices : e.out.splices ≤ e'.out.splices
  held : e.out.hold = none → e'.out.hold = none
  clock : e.out.started = true → e'.out.splices = e.out.splices → e'.out.hold.isSome = e.out.hold.isSome →
    e'.out.tsOffset = e.out.tsOffset ∧ e'.out.lastOutTs = e.out.lastOutTs ∧ e'.out.lastPts = e.out.lastPts

namespace Stands

theorem refl (e : Engine) : Stands e e := ⟨id, rfl, rfl, rfl, Nat.le_refl _, id, fun _ _ _ => ⟨rfl, rfl, rfl⟩⟩

theorem trans (first : Stands e mid) (second : Stands mid e') : Stands e e' where
  started running := second.started (first.started running)
  lastKindTs := second.lastKindTs.trans first.lastKindTs
  sentHeaders := second.sentHeaders.trans first.sentHeaders
  sentMetadata := second.sentMetadata.trans first.sentMetadata
  splices := Nat.le_trans first.splices second.splices
  held none := second.held (first.held none)
  clock running splices hold := by
    have le := first.splices
    have le' := second.splices
    have same : mid.out.hold.isSome = e.out.hold.isSome := by
      cases before : e.out.hold with
      | none => rw [first.held before]
      | some h =>
        cases between : mid.out.hold with
        | none =>
          rw [before, second.held between] at hold
          contradiction
        | some => rfl
    obtain ⟨offset, out, pts⟩ := first.clock running (by omega) same
    obtain ⟨offset', out', pts'⟩ := second.clock (first.started running) (by omega) (hold.trans same.symm)
    exact ⟨offset'.trans offset, out'.trans out, pts'.trans pts⟩

theorem withPending (p : Pending) (e : Engine) : Stands e (e.withPending p) :=
  ⟨id, rfl, rfl, rfl, Nat.le_refl _, id, fun _ _ _ => ⟨rfl, rfl, rfl⟩⟩

theorem finishPending (e : Engine) : Stands e e.finishPending := withPending .none e

theorem setPending (p : Pending) (e : Engine) : Stands e (e.setPending p) := by
  refine ⟨id, rfl, rfl, rfl, Nat.le_refl _, fun none => ?_, fun _ _ _ => ⟨rfl, rfl, rfl⟩⟩
  show (if p.isHold then e.out.hold else Option.none) = _
  rw [none, ite_self]

theorem spliceTo (k delay : ℕ) (e : Engine) : Stands e (e.spliceTo k delay) := by
  unfold Engine.spliceTo
  cases e.entry k with
  | none => exact refl e
  | some x =>
    refine ⟨fun _ => rfl, rfl, rfl, rfl, ?_, id, fun running splices _ => ?_⟩
    · dsimp only
      split
      · exact Nat.le_succ _
      · exact Nat.le_refl _
    · dsimp only at splices
      rw [if_pos running] at splices
      exact absurd splices (Nat.succ_ne_self _)

theorem endHold (now : ℕ) (e : Engine) : Stands e (e.endHold now) := by
  unfold Engine.endHold
  cases hold : e.out.hold with
  | none => exact refl e
  | some h =>
    refine ⟨id, rfl, rfl, rfl, Nat.le_refl _, fun _ => rfl, fun _ _ same => ?_⟩
    rw [hold] at same
    contradiction

theorem runGoLiveNow (now afterSeq : ℕ) (e : Engine) : Stands e (e.runGoLiveNow now afterSeq) := by
  unfold Engine.runGoLiveNow
  split
  · exact refl e
  · split
    · exact (spliceTo ..).trans (finishPending _)
    · exact ⟨id, rfl, rfl, rfl, Nat.le_refl _, id, fun _ _ _ => ⟨rfl, rfl, rfl⟩⟩

theorem runAfterAir (now markSeq : ℕ) (e : Engine) : Stands e (e.runAfterAir now markSeq) := by
  unfold Engine.runAfterAir
  split
  · exact (withPending ..).trans (runGoLiveNow ..)
  · exact refl e

theorem runReduce (now delay : ℕ) (e : Engine) : Stands e (e.runReduce now delay) := by
  unfold Engine.runReduce
  split
  · exact finishPending e
  · split
    · exact refl e
    · dsimp only
      split
      · split
        · exact refl e
        · exact (spliceTo ..).trans (finishPending _)
      · exact refl e

theorem runMaskAt (now : ℕ) (m : MaskChange) (anchor : ℕ) (e : Engine) : Stands e (e.runMaskAt now m anchor) := by
  unfold Engine.runMaskAt
  split
  · exact setPending .none e
  · split
    · exact (spliceTo ..).trans (setPending ..)
    · exact refl e

theorem anchorMask (now : ℕ) (m : MaskChange) (since : ℕ) (e : Engine) : Stands e (e.anchorMask now m since) := by
  unfold Engine.anchorMask
  split
  · exact refl e
  · exact (withPending ..).trans (runMaskAt ..)

theorem runMask (now : ℕ) (m : MaskChange) (e : Engine) : Stands e (e.runMask now m) := by
  have told : Stands e { e with out := { e.out with slateUnconfirmed := true } } :=
    ⟨id, rfl, rfl, rfl, Nat.le_refl _, id, fun _ _ _ => ⟨rfl, rfl, rfl⟩⟩
  unfold Engine.runMask
  split
  · exact runMaskAt ..
  · dsimp only
    split
    · exact anchorMask ..
    · split
      · exact told.trans (anchorMask ..)
      · exact refl e

theorem runHold (now fromSeq delay : ℕ) (e : Engine) : Stands e (e.runHold now fromSeq delay) := by
  unfold Engine.runHold
  split
  · split
    · exact refl e
    · exact ⟨id, rfl, rfl, rfl, Nat.le_refl _, fun _ => rfl, fun _ _ _ => ⟨rfl, rfl, rfl⟩⟩
  · next k _ =>
    dsimp only
    split
    · have ended := ((endHold now e).trans (spliceTo k (now - e.arrivalOr k now) _)).trans (finishPending _)
      exact ended.trans ⟨id, rfl, rfl, rfl, Nat.le_refl _, id, fun _ _ _ => ⟨rfl, rfl, rfl⟩⟩
    · exact refl e

theorem runDump (now delay started fromSeq : ℕ) (shown : Option ℕ) (e : Engine) :
    Stands e (e.runDump now delay started fromSeq shown) := by
  have lost : Stands e { e with out := { e.out with coverLost := true } } :=
    ⟨id, rfl, rfl, rfl, Nat.le_refl _, id, fun _ _ _ => ⟨rfl, rfl, rfl⟩⟩
  unfold Engine.runDump
  split
  · split
    · exact (lost.trans (setPending ..)).trans (runHold ..)
    · exact refl e
  · split
    · exact refl e
    · exact (((endHold ..).trans (spliceTo ..)).trans (withPending ..)).trans (runMask ..)

theorem runReplay (now fromSeq delay : ℕ) (e : Engine) : Stands e (e.runReplay now fromSeq delay) := by
  unfold Engine.runReplay
  split
  · exact refl e
  · dsimp only
    split
    · exact (spliceTo ..).trans (finishPending _)
    · exact refl e

theorem runPending (now : ℕ) (e : Engine) : Stands e (e.runPending now) := by
  unfold Engine.runPending
  cases e.out.pending with
  | none => exact refl e
  | goLiveNow afterSeq => exact runGoLiveNow now afterSeq e
  | afterAir markSeq => exact runAfterAir now markSeq e
  | reduce delay => exact runReduce now delay e
  | mask m => exact runMask now m e
  | dump delay started fromSeq shown => exact runDump now delay started fromSeq shown e
  | hold fromSeq delay => exact runHold now fromSeq delay e
  | replay fromSeq delay => exact runReplay now fromSeq delay e

theorem backUnderMax (e : Engine) : Stands e e.backUnderMax := by
  have retargeted : Stands e { e with out := { e.out with target := min e.out.target (e.config.maxDelayMs * MS) } } :=
    ⟨id, rfl, rfl, rfl, Nat.le_refl _, id, fun _ _ _ => ⟨rfl, rfl, rfl⟩⟩
  unfold Engine.backUnderMax
  dsimp only
  split
  · exact retargeted.trans (setPending (.reduce (e.config.maxDelayMs * MS)) _)
  · exact refl e

theorem startAt (now k arrival : ℕ) (e : Engine) : Stands e (e.startAt now k arrival) := by
  unfold Engine.startAt
  dsimp only
  split
  · exact (spliceTo ..).trans (setPending ..)
  · exact (spliceTo ..).trans (backUnderMax _)

theorem findSync (now : ℕ) (e : Engine) : Stands e (Search.engine (e.findSync now)) := by
  have cursor (seq : ℕ) : Stands e { e with out := { e.out with nextSeq := seq } } :=
    ⟨id, rfl, rfl, rfl, Nat.le_refl _, id, fun _ _ _ => ⟨rfl, rfl, rfl⟩⟩
  unfold Engine.findSync
  split
  · split
    · exact refl e
    · split
      · exact cursor _
      · exact refl e
  · split
    · exact cursor _
    · dsimp only
      split
      · exact refl e
      · split
        · exact startAt ..
        · exact startAt ..

end Stands

/-! ## Sending -/

private theorem emitMetadata_stamps (ts : ℕ) (metadata : Option Bytes) (e : Engine) :
    (e.emitMetadata ts metadata).1.stamps =
      metadata.elim e.stamps fun payload => e.stamps.meetMetadata payload ts := by
  unfold emitMetadata
  cases metadata with
  | none => rfl
  | some payload =>
    simp only [Option.elim_some, Stamps.meetMetadata]
    by_cases has : e.out.sentMetadata = some payload
    · rw [if_pos has, if_pos (show e.stamps.metadata = _ from has)]
    · rw [if_neg has, if_neg (show ¬e.stamps.metadata = _ from has)]
      rfl

private theorem hasHeader_iff {kind : Kind} {class_ : UInt16} {payload : Bytes} :
    e.hasHeader kind class_ payload = true ↔ configMark (kind, class_, payload) ∈ e.stamps.marks := decide_eq_true_iff

private theorem emitConfigs_stamps (ts : ℕ) (configs : List (Kind × UInt16 × Bytes)) (e : Engine) :
    (e.emitConfigs ts configs).1.stamps = e.stamps.meetAll configs ts := by
  induction configs generalizing e with
  | nil => rfl
  | cons c configs ih =>
    obtain ⟨kind, class_, payload⟩ := c
    simp only [Stamps.meetAll, List.foldl_cons, Stamps.meet]
    unfold emitConfigs
    by_cases has : e.hasHeader kind class_ payload
    · rw [if_pos has, if_pos (hasHeader_iff.mp has)]
      exact ih e
    · rw [if_neg has, if_neg (mt hasHeader_iff.mpr has)]
      exact ih _

private theorem emitHeadersOf_stamps (ts : ℕ) (headers : Headers) (e : Engine) :
    (e.emitHeadersOf ts headers).1.stamps = e.stamps.meetHeaders headers ts := by
  show (emitConfigs ts headers.config (e.emitMetadata ts headers.metadata).1).1.stamps = _
  rw [emitConfigs_stamps, emitMetadata_stamps]
  rfl

/-- What a splice leaves to send first. -/
theorem sendHeaders_stamps {x : Entry} (found : e.entry e.out.nextSeq = some x) :
    e.sendHeaders.1.stamps =
      if e.out.pendingHeaders then e.stamps.meetHeaders (e.headersAt x.session x.seq) x.ts else e.stamps := by
  unfold sendHeaders
  split
  · unfold emitHeaders
    rw [found]
    exact emitHeadersOf_stamps ..
  · rfl

theorem skipLeading_stamps (x : Entry) (e : Engine) : (e.skipLeading x).1.stamps = e.stamps := by
  unfold skipLeading
  split
  · split <;> rfl
  · rfl

theorem emitMedia_stamps (x : Entry) (e : Engine) : (e.emitMedia x).1.stamps = e.stamps.sent x := by
  unfold emitMedia Stamps.sent
  dsimp only
  split <;> rfl

theorem emitConfigEntry_stamps {x : Entry} (class_ : UInt16) (e : Engine) :
    (e.emitConfigEntry x class_).1.stamps = e.stamps.meet (configMark (x.kind, class_, x.payload)) x.ts := by
  unfold emitConfigEntry Stamps.meet
  by_cases has : e.hasHeader x.kind class_ x.payload
  · rw [if_pos has, if_pos (hasHeader_iff.mp has)]
  · rw [if_neg has, if_neg (mt hasHeader_iff.mpr has)]
    rfl

theorem media_emitConfigEntry {x : Entry} {class_ : UInt16} (config : x.config = some class_) :
    media (e.emitConfigEntry x class_).2 = [] := by
  unfold emitConfigEntry
  split
  · rfl
  · simp [media, Sent.entry?, Sent.make, config]

theorem media_emitMedia {x : Entry} (config : x.config = none) :
    media (e.emitMedia x).2 = [(x, ⟨x.kind, e.outTsValue x.kind x.ts % 2 ^ 32, e.mediaPayload x, some x.seq⟩)] := by
  simp [media, emitMedia, Sent.entry?, Sent.make, config]

private theorem emitHoldConfigs_stamps (t : ℕ) (configs : List (Kind × UInt16 × Bytes)) (e : Engine) :
    (e.emitHoldConfigs t configs).1.stamps = configs.foldl (Stamps.holdConfig t) e.stamps := by
  induction configs generalizing e with
  | nil => rfl
  | cons c configs ih =>
    obtain ⟨kind, class_, payload⟩ := c
    simp only [List.foldl_cons, Stamps.holdConfig]
    unfold emitHoldConfigs
    by_cases has : e.hasHeader kind class_ payload
    · rw [if_pos has, if_pos (hasHeader_iff.mp has)]
      exact ih e
    · rw [if_neg has, if_neg (mt hasHeader_iff.mpr has)]
      exact ih _

private theorem emitHoldHeaders_stamps (headers : Headers) (t : ℕ) (e : Engine) :
    (e.emitHoldHeaders headers t).1.stamps = e.stamps.holdHeaders headers t := by
  unfold emitHoldHeaders Stamps.holdHeaders
  cases headers.metadata with
  | none =>
    dsimp only [Option.elim_none]
    rw [← emitHoldConfigs_stamps]
    rfl
  | some payload =>
    dsimp only [Option.elim_some]
    have configs := emitHoldConfigs_stamps t headers.config
      { e with
        out :=
          { e.out with
            sentMetadata := some payload
            lastKindTs := e.out.lastKindTs.set .data (some t) } }
    exact congrArg (fun s : Stamps => { s with times := { s.times with last := max s.times.last t } }) configs

theorem showFrame_stamps (now : ℕ) (h : HoldFrame) (e : Engine) :
    (e.showFrame now h).1.stamps =
      (if h.needsHeaders then e.stamps.holdHeaders h.headers (e.holdTs now h) else e.stamps).shown
        (e.holdTs now h) h.cts := by
  have headers : ((e.frameShown now h).frameHeaders h (e.holdTs now h)).1.stamps =
      if h.needsHeaders then e.stamps.holdHeaders h.headers (e.holdTs now h) else e.stamps := by
    unfold frameHeaders
    split
    · exact emitHoldHeaders_stamps ..
    · rfl
  rw [← headers]
  rfl

theorem forgetSessions_out (e : Engine) : e.forgetSessions.out = e.out := by
  unfold Engine.forgetSessions
  dsimp only
  split
  · exact forgetHeaders_out e
  · split <;> exact forgetHeaders_out e

end Engine

end StreamDelay
