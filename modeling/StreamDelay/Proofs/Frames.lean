import Mathlib.Tactic.Common
import StreamDelay.Engine.Run
import StreamDelay.Proofs.Buffer

/-! # What operations leave alone

Splices, pending changes and everything sent touch the output only; sending touches nothing there
but the cursor, the timestamps and what the destination has. These facts are stated once, as
equations between engines with the touched part blanked out.
-/

namespace StreamDelay

open Flv (Bytes)

/-- Metadata or decoder configuration, sent again. -/
def Sent.IsHeader (s : Sent) : Prop := s.content? = none ∧ s.msg.seq = none

theorem Sent.IsHeader.entry? {s : Sent} (header : s.IsHeader) : s.entry? = none := by
  have none := header.1
  unfold Sent.content? at none
  unfold Sent.entry?
  split
  · next x origin => simp [origin] at none
  · rfl

namespace Engine

/-! ## Only the output -/

/-- Everything but the output is the same. -/
def OnlyOut (e e' : Engine) : Prop := e' = { e with out := e'.out }

namespace OnlyOut

variable {e mid e' : Engine}

@[refl] theorem refl (e : Engine) : OnlyOut e e := rfl

theorem trans (first : OnlyOut e mid) (second : OnlyOut mid e') : OnlyOut e e' := by
  rw [OnlyOut, second, first]

theorem symm (only : OnlyOut e e') : OnlyOut e' e := by
  rw [OnlyOut, only]

theorem ring (only : OnlyOut e e') : e'.ring = e.ring := by rw [only]
theorem syncs (only : OnlyOut e e') : e'.syncs = e.syncs := by rw [only]
theorem baseSeq (only : OnlyOut e e') : e'.baseSeq = e.baseSeq := by rw [only]
theorem nextSeq (only : OnlyOut e e') : e'.nextSeq = e.nextSeq := by rw [only]
theorem config (only : OnlyOut e e') : e'.config = e.config := by rw [only]
theorem sessions (only : OnlyOut e e') : e'.sessions = e.sessions := by rw [only]

theorem received (only : OnlyOut e e') : e'.received = e.received := by rw [only]
theorem ingestActive (only : OnlyOut e e') : e'.ingestActive = e.ingestActive := by rw [only]
theorem stats (only : OnlyOut e e') : e'.stats = e.stats := by rw [only]
theorem nextSession (only : OnlyOut e e') : e'.nextSession = e.nextSession := by rw [only]
theorem entry (only : OnlyOut e e') (seq : ℕ) : e'.entry seq = e.entry seq := by rw [only]; rfl
theorem arrivalOr (only : OnlyOut e e') (seq now : ℕ) : e'.arrivalOr seq now = e.arrivalOr seq now := by
  rw [only]
  rfl
theorem headersAt (only : OnlyOut e e') (session seq : ℕ) :
    e'.headersAt session seq = e.headersAt session seq := by
  rw [only]
  rfl
theorem frameMs (only : OnlyOut e e') (session : ℕ) : e'.frameMs session = e.frameMs session := by
  rw [only]
  rfl

theorem layout (only : OnlyOut e e') (layout : e.Layout) (cursor : e'.out.nextSeq ≤ e.nextSeq)
    (mark : ∀ m, e'.out.endMark = some m → m < e.nextSeq) : e'.Layout := by
  rw [only]
  exact layout.of_out cursor mark

end OnlyOut

/-! ## Pending changes -/

section Pending

variable (p : Pending) (e : Engine)

theorem withPending_onlyOut : OnlyOut e (e.withPending p) := rfl
theorem setPending_onlyOut : OnlyOut e (e.setPending p) := rfl
theorem finishPending_onlyOut : OnlyOut e e.finishPending := rfl

@[simp] theorem withPending_out : (e.withPending p).out = { e.out with pending := p } := rfl
@[simp] theorem finishPending_out : e.finishPending.out = { e.out with pending := .none } := rfl
@[simp] theorem setPending_out :
    (e.setPending p).out =
      { e.out with
        maskVisible := if e.out.pending.covers then false else e.out.maskVisible
        hold := if p.isHold then e.out.hold else none
        pending := p } := rfl

end Pending

theorem retarget_onlyOut (d : ℕ) (e : Engine) : OnlyOut e (e.retarget d) := rfl

/-! ## Splices -/

theorem spliceTo_onlyOut (k delay : ℕ) (e : Engine) : OnlyOut e (e.spliceTo k delay) := by
  unfold spliceTo
  split <;> rfl

/-- The output a splice to the keyframe `x` leaves. -/
def splicedOut (e : Engine) (x : Entry) (delay : ℕ) : Output :=
  { e.out with
    tsOffset :=
      signed (((if e.out.fresh then 0 else e.afterSent (e.frameMs x.session) x.cts : ℕ) : ℤ) - x.ts)
    fresh := false
    gate := some (x.session, x.ts)
    skipLeadingAfter := if x.hevcNal = some Flv.Hevc.CRA then some x.seq else none
    splices := if e.out.started then e.out.splices + 1 else e.out.splices
    started := true
    nextSeq := x.seq
    delay := delay
    needSync := false
    currentSession := some x.session
    pendingHeaders := true
    landing := some (x, e.out.sent) }

theorem spliceTo_out {e : Engine} (layout : e.Layout) {k : ℕ} {x : Entry} (delay : ℕ)
    (found : e.entry k = some x) : (e.spliceTo k delay).out = e.splicedOut x delay := by
  obtain ⟨-, rfl⟩ := layout.entry_iff.mp found
  simp only [spliceTo, found, splicedOut]

section Splice

variable (k delay : ℕ) (e : Engine)

@[simp] theorem spliceTo_connected : (e.spliceTo k delay).out.connected = e.out.connected := by
  unfold spliceTo; split <;> rfl
@[simp] theorem spliceTo_generation : (e.spliceTo k delay).out.generation = e.out.generation := by
  unfold spliceTo; split <;> rfl
@[simp] theorem spliceTo_target : (e.spliceTo k delay).out.target = e.out.target := by
  unfold spliceTo; split <;> rfl
@[simp] theorem spliceTo_pending : (e.spliceTo k delay).out.pending = e.out.pending := by
  unfold spliceTo; split <;> rfl
@[simp] theorem spliceTo_maskVisible : (e.spliceTo k delay).out.maskVisible = e.out.maskVisible := by
  unfold spliceTo; split <;> rfl
@[simp] theorem spliceTo_hold : (e.spliceTo k delay).out.hold = e.out.hold := by
  unfold spliceTo; split <;> rfl
@[simp] theorem spliceTo_endMark : (e.spliceTo k delay).out.endMark = e.out.endMark := by
  unfold spliceTo; split <;> rfl
@[simp] theorem spliceTo_historyShort :
    (e.spliceTo k delay).out.historyShort = e.out.historyShort := by
  unfold spliceTo; split <;> rfl
@[simp] theorem spliceTo_memoryShort :
    (e.spliceTo k delay).out.memoryShort = e.out.memoryShort := by
  unfold spliceTo; split <;> rfl
@[simp] theorem spliceTo_slateChange :
    (e.spliceTo k delay).out.slateChange = e.out.slateChange := by
  unfold spliceTo; split <;> rfl
@[simp] theorem spliceTo_lastOutTs : (e.spliceTo k delay).out.lastOutTs = e.out.lastOutTs := by
  unfold spliceTo; split <;> rfl
@[simp] theorem spliceTo_lastKindTs : (e.spliceTo k delay).out.lastKindTs = e.out.lastKindTs := by
  unfold spliceTo; split <;> rfl
@[simp] theorem spliceTo_lastPts : (e.spliceTo k delay).out.lastPts = e.out.lastPts := by
  unfold spliceTo; split <;> rfl
@[simp] theorem spliceTo_sentHeaders : (e.spliceTo k delay).out.sentHeaders = e.out.sentHeaders := by
  unfold spliceTo; split <;> rfl
@[simp] theorem spliceTo_sentMetadata :
    (e.spliceTo k delay).out.sentMetadata = e.out.sentMetadata := by
  unfold spliceTo; split <;> rfl
@[simp] theorem spliceTo_firstEmitted :
    (e.spliceTo k delay).out.firstEmitted = e.out.firstEmitted := by
  unfold spliceTo; split <;> rfl

end Splice

theorem spliceTo_started (k delay : ℕ) {e : Engine} (started : e.out.started = true) :
    (e.spliceTo k delay).out.started = true := by
  unfold spliceTo
  split
  · exact started
  · rfl

theorem endHold_onlyOut (now : ℕ) (e : Engine) : OnlyOut e (e.endHold now) := by
  unfold endHold
  split <;> rfl

theorem endHold_out (now : ℕ) (e : Engine) :
    (e.endHold now).out =
      { e.out with
        hold := none
        lastOutTs :=
          e.out.hold.elim e.out.lastOutTs fun h => (e.out.lastOutTs + (now - h.last) / MS) % 2 ^ 64 } := by
  unfold endHold
  split
  · next none => rw [none]; cases e; cases ‹Output›; simp_all
  · next h some => simp only [some, Option.elim_some]

/-- After a splice past the maximum delay, only the target and the pending change are touched. -/
theorem backUnderMax_out (e : Engine) :
    e.backUnderMax = e ∨
      e.out.pending = .none ∧ e.config.maxDelayMs * MS + e.keyframeInterval < e.out.delay ∧
        e.backUnderMax =
          { e with
            out := { e.out with target := min e.out.target (e.config.maxDelayMs * MS) } }.setPending
            (.reduce (e.config.maxDelayMs * MS)) := by
  unfold backUnderMax
  dsimp only
  split
  · next past => exact .inr ⟨past.1, past.2, rfl⟩
  · exact .inl rfl

theorem backUnderMax_onlyOut (e : Engine) : OnlyOut e e.backUnderMax := by
  rcases e.backUnderMax_out with same | ⟨-, -, same⟩
  · rw [same]
  · rw [same]
    rfl

/-- A delay an outage made longer goes back to the one set, unless a change is under way. -/
theorem backToTarget_cases (e : Engine) :
    e.backToTarget = e ∨
      (e.out.pending = .none ∨ ∃ d, e.out.pending = .reduce d ∧ e.out.target < d) ∧
        e.out.target + 500 * MS ≤ e.out.delay ∧
        e.backToTarget =
          e.setPending
            (if e.out.target = 0 then .goLiveNow (e.nextSeq - 1) else .reduce e.out.target) := by
  unfold backToTarget
  dsimp only
  split
  · exact .inl rfl
  · next longer =>
    have longer : e.out.target + 500 * MS ≤ e.out.delay := by omega
    split
    · next none =>
      exact .inr ⟨.inl none, longer, rfl⟩
    · next d reduce =>
      split
      · next above => exact .inr ⟨.inr ⟨d, reduce, of_decide_eq_true above⟩, longer, rfl⟩
      · exact .inl rfl
    · exact .inl rfl

/-- Starting splices to the keyframe, and may then plan to come down to a delay. -/
theorem startAt_cases (now k arrival : ℕ) (e : Engine) :
    let spliced := e.spliceTo k (max e.out.delay (now - arrival))
    e.startAt now k arrival = spliced ∨
      e.out.pending = .none ∧ e.out.started = false ∧
        e.out.target + 500 * MS ≤ max e.out.delay (now - arrival) ∧
        e.startAt now k arrival = spliced.setPending (.reduce e.out.target) ∨
      spliced.out.pending = .none ∧
        spliced.config.maxDelayMs * MS + spliced.keyframeInterval < spliced.out.delay ∧
        e.startAt now k arrival =
          { spliced with
            out :=
              { spliced.out with
                target := min spliced.out.target (spliced.config.maxDelayMs * MS) } }.setPending
            (.reduce (spliced.config.maxDelayMs * MS)) := by
  intro spliced
  unfold startAt
  dsimp only
  split
  · next late =>
    simp only [Bool.and_eq_true, Bool.not_eq_true', decide_eq_true_eq] at late
    exact .inr (.inl ⟨late.1.2, late.1.1, late.2, by rw [spliceTo_target]⟩)
  · rcases spliced.backUnderMax_out with same | ⟨none, past, same⟩
    · exact .inl same
    · exact .inr (.inr ⟨none, past, same⟩)

theorem startAt_onlyOut (now k arrival : ℕ) (e : Engine) : OnlyOut e (e.startAt now k arrival) := by
  have only := e.spliceTo_onlyOut k (max e.out.delay (now - arrival))
  rcases e.startAt_cases now k arrival with same | ⟨-, -, -, same⟩ | ⟨-, -, same⟩
  · rwa [same]
  · rw [same]
    exact only.trans (setPending_onlyOut _ _)
  · rw [same]
    exact only.trans rfl

/-! ## Sending -/

/-- The engine with what sending touches blanked out: the timestamps, and what the destination
has. -/
def course (e : Engine) : Engine :=
  { e with
    out :=
      { e.out with
        lastOutTs := 0
        lastKindTs := .const none
        lastPts := 0
        skipLeadingAfter := none
        pendingHeaders := false
        sentHeaders := []
        sentMetadata := none
        dropped := 0
        sentBytes := 0
        firstEmitted := none } }

/-- The two engines agree up to what sending touches. -/
def SameCourse (e e' : Engine) : Prop := e'.course = e.course

namespace SameCourse

variable {e mid e' : Engine}

@[refl] theorem refl (e : Engine) : SameCourse e e := rfl

theorem trans (first : SameCourse e mid) (second : SameCourse mid e') : SameCourse e e' :=
  Eq.trans second first

theorem onlyOut (same : SameCourse e e') : OnlyOut e e' := by
  cases e
  cases e'
  simp only [SameCourse, course, Engine.mk.injEq] at same
  simp only [OnlyOut, same]

/-- A field of the output that sending does not touch. -/
theorem out {α : Sort*} (same : SameCourse e e') (field : Output → α) :
    field e'.course.out = field e.course.out := congrArg (fun e : Engine => field e.out) same

theorem nextSeq (same : SameCourse e e') : e'.out.nextSeq = e.out.nextSeq := same.out (·.nextSeq)
theorem delay (same : SameCourse e e') : e'.out.delay = e.out.delay := same.out (·.delay)
theorem maskVisible (same : SameCourse e e') : e'.out.maskVisible = e.out.maskVisible :=
  same.out (·.maskVisible)
theorem endMark (same : SameCourse e e') : e'.out.endMark = e.out.endMark := same.out (·.endMark)
theorem connected (same : SameCourse e e') : e'.out.connected = e.out.connected :=
  same.out (·.connected)
theorem started (same : SameCourse e e') : e'.out.started = e.out.started := same.out (·.started)
theorem needSync (same : SameCourse e e') : e'.out.needSync = e.out.needSync :=
  same.out (·.needSync)
theorem fresh (same : SameCourse e e') : e'.out.fresh = e.out.fresh := same.out (·.fresh)
theorem target (same : SameCourse e e') : e'.out.target = e.out.target := same.out (·.target)
theorem hold (same : SameCourse e e') : e'.out.hold = e.out.hold := same.out (·.hold)
theorem pending (same : SameCourse e e') : e'.out.pending = e.out.pending := same.out (·.pending)

end SameCourse

section Send

variable (e : Engine)

theorem recordTs_course (kind : Kind) (t : ℕ) : SameCourse e (e.recordTs kind t) := rfl

theorem recordPts_course (pts : ℤ) : SameCourse e (e.recordPts pts) := rfl

theorem countSent_course (payload : Bytes) : SameCourse e (e.countSent payload) := rfl

private theorem markHeader_course (kind : Kind) (class_ : UInt16) (payload : Bytes) :
    SameCourse e (e.markHeader kind class_ payload) := rfl

/-- A configuration message is marked, timed and counted. -/
theorem header_course (kind : Kind) (class_ : UInt16) (payload : Bytes) (t : ℕ) :
    SameCourse e (((e.markHeader kind class_ payload).recordTs kind t).countSent payload) :=
  ((e.markHeader_course kind class_ payload).trans (recordTs_course _ kind t)).trans
    (countSent_course _ payload)

theorem emitMetadata_course (ts : ℕ) (metadata : Option Bytes) :
    SameCourse e (e.emitMetadata ts metadata).1 := by
  unfold emitMetadata
  split
  · rfl
  · split <;> rfl

private theorem emitConfigs_course (ts : ℕ) (configs : List (Kind × UInt16 × Bytes)) :
    SameCourse e (e.emitConfigs ts configs).1 := by
  induction configs generalizing e with
  | nil => rfl
  | cons c rest ih =>
    obtain ⟨kind, class_, payload⟩ := c
    unfold emitConfigs
    split
    · exact ih e
    · exact (e.header_course kind class_ payload _).trans (ih _)

private theorem emitHeadersOf_course (ts : ℕ) (headers : Headers) :
    SameCourse e (e.emitHeadersOf ts headers).1 :=
  (e.emitMetadata_course ts headers.metadata).trans (emitConfigs_course _ ts headers.config)

theorem sendHeaders_course : SameCourse e e.sendHeaders.1 := by
  unfold sendHeaders
  split
  · unfold emitHeaders
    split
    · rfl
    · exact e.headersDone.emitHeadersOf_course _ _
  · rfl

private theorem emitConfigEntry_course (x : Entry) (class_ : UInt16) :
    SameCourse e (e.emitConfigEntry x class_).1 := by
  unfold emitConfigEntry
  split
  · rfl
  · exact e.header_course x.kind class_ x.payload _

theorem skipLeading_course (x : Entry) : SameCourse e (e.skipLeading x).1 := by
  unfold skipLeading
  split
  · split <;> rfl
  · rfl

private theorem emitMedia_course (x : Entry) : SameCourse e (e.emitMedia x).1 := by
  have timed := e.recordTs_course x.kind (e.outTsValue x.kind x.ts)
  unfold emitMedia
  dsimp only
  split
  · exact (timed.trans (recordPts_course _ _)).trans (countSent_course _ _)
  · exact timed.trans (countSent_course _ _)

private theorem emitEntry_course : SameCourse e e.emitEntry.1 := by
  unfold emitEntry
  split
  · rfl
  · next x found =>
    split
    · exact e.emitConfigEntry_course x _
    · have skipped := e.skipLeading_course x
      split
      · next mid equal =>
        rw [equal] at skipped
        exact skipped
      · next mid equal =>
        rw [equal] at skipped
        split
        · exact skipped
        · exact skipped.trans (mid.emitMedia_course x)

/-- Sending the message at the cursor moves the cursor past it. -/
theorem sendEntry_course : SameCourse (e.pass.tally e.sendEntry.2) e.sendEntry.1 := by
  have entry := e.sendHeaders_course.trans e.sendHeaders.1.noteFirst.emitEntry_course
  exact congrArg (fun e' => e'.pass.tally e.sendEntry.2) entry

theorem emitHoldConfigs_course (t : ℕ) (configs : List (Kind × UInt16 × Bytes)) :
    SameCourse e (e.emitHoldConfigs t configs).1 := by
  induction configs generalizing e with
  | nil => rfl
  | cons c rest ih =>
    obtain ⟨kind, class_, payload⟩ := c
    unfold emitHoldConfigs
    split
    · exact ih e
    · exact ih _

private theorem emitHoldHeaders_course (headers : Headers) (t : ℕ) :
    SameCourse e (e.emitHoldHeaders headers t).1 := by
  unfold emitHoldHeaders
  dsimp only
  split
  · exact e.emitHoldConfigs_course t _
  · exact emitHoldConfigs_course _ t _

theorem frameHeaders_course (h : HoldFrame) (t : ℕ) : SameCourse e (e.frameHeaders h t).1 := by
  unfold frameHeaders
  split
  · exact e.emitHoldHeaders_course _ _
  · rfl

/-- The held frame, sent again: apart from when it is due next, only what sending touches. -/
theorem showFrame_course (now : ℕ) (h : HoldFrame) :
    SameCourse ((e.frameShown now h).tally (e.showFrame now h).2) (e.showFrame now h).1 := by
  have headers := (e.frameShown now h).frameHeaders_course h (e.holdTs now h)
  have timed := headers.trans (recordTs_course _ .video (e.holdTs now h))
  have shown := (timed.trans (recordPts_course _ (signed (e.holdTs now h + h.cts)))).trans
    (countSent_course _ h.payload)
  exact congrArg (fun e' => e'.tally (e.showFrame now h).2) shown

end Send

/-! ## What is sent -/

section Sent

variable {e : Engine} {s : Sent}

private theorem emitMetadata_sent {ts : ℕ} {metadata : Option Bytes}
    (member : s ∈ (e.emitMetadata ts metadata).2) :
    s.IsHeader ∧ s.masked = e.out.maskVisible := by
  unfold emitMetadata at member
  split at member
  · contradiction
  · split at member
    · contradiction
    · obtain rfl := List.mem_singleton.mp member
      exact ⟨⟨rfl, rfl⟩, rfl⟩

private theorem emitConfigs_sent {ts : ℕ} {configs : List (Kind × UInt16 × Bytes)}
    (member : s ∈ (e.emitConfigs ts configs).2) :
    s.IsHeader ∧ s.masked = e.out.maskVisible := by
  induction configs generalizing e with
  | nil => contradiction
  | cons c rest ih =>
    obtain ⟨kind, class_, payload⟩ := c
    unfold emitConfigs at member
    split at member
    · exact ih member
    · rcases List.mem_cons.mp member with rfl | later
      · exact ⟨⟨rfl, rfl⟩, rfl⟩
      · have sent := ih later
        exact sent

private theorem emitHeadersOf_sent {ts : ℕ} {headers : Headers}
    (member : s ∈ (e.emitHeadersOf ts headers).2) :
    s.IsHeader ∧ s.masked = e.out.maskVisible := by
  rcases List.mem_append.mp member with metadata | config
  · exact emitMetadata_sent metadata
  · obtain ⟨content, masked⟩ := emitConfigs_sent config
    exact ⟨content, masked.trans (e.emitMetadata_course ts headers.metadata).maskVisible⟩

theorem sendHeaders_sent (member : s ∈ e.sendHeaders.2) :
    s.IsHeader ∧ s.masked = e.out.maskVisible := by
  unfold sendHeaders at member
  split at member
  · unfold emitHeaders at member
    split at member
    · contradiction
    · have sent := emitHeadersOf_sent member
      exact sent
  · contradiction

private theorem emitEntry_sent (member : s ∈ e.emitEntry.2) :
    ∃ x, e.entry e.out.nextSeq = some x ∧ s.origin = .buffered x ∧ s.msg.seq = some x.seq ∧
      s.masked = e.out.maskVisible := by
  unfold emitEntry at member
  split at member
  · contradiction
  · next x found =>
    refine ⟨x, found, ?_⟩
    split at member
    · unfold emitConfigEntry at member
      split at member
      · contradiction
      · obtain rfl := List.mem_singleton.mp member
        exact ⟨rfl, rfl, rfl⟩
    · have course := e.skipLeading_course x
      split at member
      · contradiction
      · next mid equal =>
        rw [equal] at course
        split at member
        · contradiction
        · obtain rfl := List.mem_singleton.mp member
          exact ⟨rfl, rfl, course.maskVisible⟩

/-- With the message at the cursor go the headers it needs; nothing else is sent. -/
theorem sendEntry_sent {x : Entry} (found : e.entry e.out.nextSeq = some x)
    (member : s ∈ e.sendEntry.2) :
    (s.IsHeader ∨ s.origin = .buffered x ∧ s.msg.seq = some x.seq) ∧
      s.masked = e.out.maskVisible := by
  rcases List.mem_append.mp member with header | message
  · obtain ⟨content, masked⟩ := sendHeaders_sent header
    exact ⟨.inl content, masked⟩
  · obtain ⟨y, foundY, origin, seq, masked⟩ := emitEntry_sent message
    have course := e.sendHeaders_course
    have same : e.sendHeaders.1.noteFirst.entry e.sendHeaders.1.noteFirst.out.nextSeq = some x := by
      rw [← found, ← course.nextSeq, ← course.onlyOut.entry]
      rfl
    obtain rfl := Option.some.inj (foundY.symm.trans same)
    exact ⟨.inr ⟨origin, seq⟩, masked.trans course.maskVisible⟩

private theorem emitHoldConfigs_sent {t : ℕ} {configs : List (Kind × UInt16 × Bytes)}
    (member : s ∈ (e.emitHoldConfigs t configs).2) : s.IsHeader := by
  induction configs generalizing e with
  | nil => contradiction
  | cons c rest ih =>
    obtain ⟨kind, class_, payload⟩ := c
    unfold emitHoldConfigs at member
    split at member
    · exact ih member
    · rcases List.mem_cons.mp member with rfl | later
      · exact ⟨rfl, rfl⟩
      · exact ih later

private theorem emitHoldHeaders_sent {headers : Headers} {t : ℕ}
    (member : s ∈ (e.emitHoldHeaders headers t).2) : s.IsHeader := by
  rcases List.mem_append.mp member with metadata | config
  · split at metadata
    · contradiction
    · obtain rfl := List.mem_singleton.mp metadata
      exact ⟨rfl, rfl⟩
  · exact emitHoldConfigs_sent config

/-- A hold shows its frame, and the headers the frame needs. -/
theorem showFrame_sent {now : ℕ} {h : HoldFrame} (member : s ∈ (e.showFrame now h).2) :
    s.IsHeader ∨ s.origin = .held h.entry h.cts ∧ s.msg.seq = none := by
  unfold showFrame at member
  rcases List.mem_append.mp member with header | message
  · left
    unfold frameHeaders at header
    split at header
    · exact emitHoldHeaders_sent header
    · contradiction
  · right
    obtain rfl := List.mem_singleton.mp message
    exact ⟨rfl, rfl⟩

end Sent

end Engine

end StreamDelay
