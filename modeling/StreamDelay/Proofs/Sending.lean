import Mathlib.Tactic.Common
import StreamDelay.Proofs.Clock

/-! # What sending does to the clock

The headers a message needs and the message itself, or a held frame after its headers: what they are,
the timestamps they get, and what the clock says afterwards.
-/

namespace StreamDelay

namespace Clock

/-- Sent at input timestamp `ts`: metadata, or configuration sent again. -/
structure Header (ts : ℕ) (c : Clock) (s : Sent) : Prop where
  stamp : s.ts = c.outTs s.msg.kind ts
  header : s.IsHeader
  unseen : s.pts? = none
  plain : s.jump = none

/-- The gate of the last splice leaves `y` through: it is video, or not older than the splice. -/
def Passes (c : Clock) (y : Entry) : Prop :=
  y.kind = .video ∨ ∀ g, c.gate = some g → g.1 = y.session → g.2 ≤ y.ts

/-- Sent: the buffered message `y`. -/
structure Airs (y : Entry) (c : Clock) (s : Sent) : Prop where
  stamp : s.ts = c.outTs s.msg.kind y.ts
  kind : s.msg.kind = y.kind
  origin : s.origin = .buffered y
  jump : s.jump = if y.config = none then (c.landing.filter fun l => l.1 = y).map Prod.snd else none
  passes : y.config = none → c.Passes y

variable {c : Clock} {s : Sent}

theorem Airs.entry? {y : Entry} (airs : c.Airs y s) : s.entry? = some y := by
  simp only [Sent.entry?, airs.origin]

@[simp] theorem notes_nil (c : Clock) : c.notes [] = c := rfl

@[simp] theorem notes_cons (c : Clock) (s : Sent) (rest : List Sent) :
    c.notes (s :: rest) = (c.note s).notes rest := rfl

/-- The fields of the clock that no message sent changes. -/
theorem notes_fields (c : Clock) (out : List Sent) :
    c.notes out =
      { c with
        lastOutTs := (c.notes out).lastOutTs
        lastKindTs := (c.notes out).lastKindTs
        lastPts := (c.notes out).lastPts } := by
  induction out generalizing c with
  | nil => rfl
  | cons s rest ih =>
    rw [notes_cons, ih]
    rfl

/-- The headers of the splice are sent. -/
def settle (c : Clock) : Clock := { c with pendingHeaders := false }

theorem notes_settle (c : Clock) (out : List Sent) : c.settle.notes out = (c.notes out).settle := by
  induction out generalizing c with
  | nil => rfl
  | cons s rest ih => exact ih (c.note s)

/-- The message at the cursor is passed on, the first on the connection if none was before. -/
def opened (c : Clock) : Clock := { c with firstEmitted := c.firstEmitted.or (some c.nextSeq) }

/-- The last timestamp of any kind is set to `a`. -/
def upTo (a : ℕ) (c : Clock) : Clock := { c with lastOutTs := a }

/-- What was sent last of any kind does not matter to the rest of the clock. -/
theorem notes_upTo (c : Clock) (a b : ℕ) (out : List Sent) :
    ((c.upTo a).notes out).upTo b = (c.notes out).upTo b := by
  induction out generalizing c a with
  | nil => rfl
  | cons s rest ih =>
    have first : ((c.upTo a).note s) = (c.note s).upTo (max a s.ts) := rfl
    rw [notes_cons, notes_cons, first]
    exact ih (c.note s) (max a s.ts)

theorem notes_at {t : ℕ} {out : List Sent} (same : ∀ s ∈ out, s.ts = t) (c : Clock) :
    max (c.notes out).lastOutTs t = max c.lastOutTs t := by
  induction out generalizing c with
  | nil => rfl
  | cons s rest ih =>
    rw [notes_cons, ih fun r member => same r (List.mem_cons_of_mem _ member)]
    have here := same s (List.mem_cons_self ..)
    simp only [note, here]
    omega

end Clock

namespace Engine

open Clock

variable {e : Engine}

/-! ## Headers -/

private theorem emitMetadata_clock (ts : ℕ) (metadata : Option Flv.Bytes) (e : Engine) :
    (e.emitMetadata ts metadata).1.out.clock = e.out.clock.notes (e.emitMetadata ts metadata).2 ∧
      Sends (Header ts) e.out.clock (e.emitMetadata ts metadata).2 := by
  unfold emitMetadata
  split
  · exact ⟨rfl, trivial⟩
  · split
    · exact ⟨rfl, trivial⟩
    · exact ⟨rfl, ⟨rfl, ⟨rfl, rfl⟩, rfl, rfl⟩, trivial⟩

private theorem emitConfigs_clock (ts : ℕ) (configs : List (Kind × UInt16 × Flv.Bytes)) (e : Engine) :
    (e.emitConfigs ts configs).1.out.clock = e.out.clock.notes (e.emitConfigs ts configs).2 ∧
      Sends (Header ts) e.out.clock (e.emitConfigs ts configs).2 := by
  induction configs generalizing e with
  | nil => exact ⟨rfl, trivial⟩
  | cons c rest ih =>
    obtain ⟨kind, class_, payload⟩ := c
    unfold emitConfigs
    split
    · exact ih e
    · obtain ⟨clock, sends⟩ := ih (((e.markHeader kind class_ payload).recordTs kind
        ((e.markHeader kind class_ payload).outTsValue kind ts)).countSent payload)
      exact ⟨clock, ⟨rfl, ⟨rfl, rfl⟩, rfl, rfl⟩, sends⟩

private theorem emitHeadersOf_clock (ts : ℕ) (headers : Headers) (e : Engine) :
    (e.emitHeadersOf ts headers).1.out.clock = e.out.clock.notes (e.emitHeadersOf ts headers).2 ∧
      Sends (Header ts) e.out.clock (e.emitHeadersOf ts headers).2 := by
  obtain ⟨clock, metadata⟩ := emitMetadata_clock ts headers.metadata e
  obtain ⟨clock', configs⟩ := emitConfigs_clock ts headers.config (e.emitMetadata ts headers.metadata).1
  rw [clock] at clock' configs
  exact ⟨clock'.trans (notes_append ..).symm, sends_append.mpr ⟨metadata, configs⟩⟩

/-- After a splice, the headers at the cursor; otherwise nothing. -/
theorem sendHeaders_clock {y : Entry} (found : e.entry e.out.nextSeq = some y) :
    e.sendHeaders.1.out.clock = e.out.clock.settle.notes e.sendHeaders.2 ∧
      Sends (Header y.ts) e.out.clock.settle e.sendHeaders.2 ∧
      (e.out.pendingHeaders = false → e.sendHeaders.2 = []) := by
  unfold sendHeaders
  split
  · next pending =>
    simp only [emitHeaders, found]
    obtain ⟨clock, sends⟩ := emitHeadersOf_clock y.ts (e.headersAt y.session y.seq) e.headersDone
    exact ⟨clock, sends, by simp [pending]⟩
  · next none =>
    have none : e.out.pendingHeaders = false := by simpa using none
    refine ⟨?_, trivial, fun _ => rfl⟩
    simp only [notes_nil, settle, Output.clock, none]

/-! ## The message at the cursor -/

/-- The message at the cursor is sent, or left out: unchanged configuration, a leading picture of a
spliced CRA, or older than the splice. -/
theorem emitEntry_clock {y : Entry} (found : e.entry e.out.nextSeq = some y) :
    (e.emitEntry.2 = [] ∧
        (∃ skip, e.emitEntry.1.out.clock = { e.out.clock with skipLeadingAfter := skip }) ∧
        (y.config = none → (e.skipLeading y).2 = true ∨ e.gated y = true)) ∨
      ∃ s, e.emitEntry.2 = [s] ∧ e.out.clock.Airs y s ∧
        ∃ skip, e.emitEntry.1.out.clock = { e.out.clock.note s with skipLeadingAfter := skip } := by
  unfold emitEntry
  simp only [found]
  cases config : y.config with
  | some class_ =>
    dsimp only
    unfold emitConfigEntry
    split
    · exact .inl ⟨rfl, ⟨_, rfl⟩, by simp⟩
    · refine .inr ⟨_, rfl, ⟨rfl, rfl, rfl, ?_, by simp [config]⟩, e.out.skipLeadingAfter, ?_⟩
      · simp [Sent.make, config]
      · simp [Clock.note, Sent.make, Sent.pts?, Output.clock, countSent, recordTs, markHeader, config]
  | none =>
    dsimp only
    have skipped : (∃ skip, (e.skipLeading y).1 = { e with out := { e.out with skipLeadingAfter := skip } }) := by
      unfold skipLeading
      split
      · split <;> exact ⟨_, rfl⟩
      · exact ⟨_, rfl⟩
    obtain ⟨skip, same⟩ := skipped
    cases leading : e.skipLeading y with
    | mk mid drops =>
      rw [leading] at same
      dsimp only at same
      subst same
      cases drops with
      | true => exact .inl ⟨rfl, ⟨skip, rfl⟩, fun _ => .inl rfl⟩
      | false =>
        dsimp only
        split
        · next gated => exact .inl ⟨rfl, ⟨skip, rfl⟩, fun _ => .inr gated⟩
        · next open_ =>
          refine .inr ⟨_, rfl, ⟨rfl, rfl, rfl, ?_, fun _ => ?_⟩, skip, ?_⟩
          · simp [Sent.make, config]
            rfl
          · by_cases video : y.kind = .video
            · exact .inl video
            · refine .inr fun g gate same => ?_
              by_contra older
              refine open_ ?_
              have gate : e.out.gate = some g := gate
              simp only [gated, gate, Option.any_some, same, ne_eq, video, not_false_eq_true,
                decide_true, Bool.true_and, decide_eq_true_eq]
              omega
          · unfold emitMedia
            dsimp only
            split
            · next video =>
              simp [Clock.note, Sent.make, Sent.pts?, Output.clock, countSent, recordTs, recordPts, config,
                video]
            · next other =>
              simp [Clock.note, Sent.make, Sent.pts?, Output.clock, countSent, recordTs, config, other]

/-- What goes out with the message at the cursor `y`: the headers it needs, and the message. -/
structure Outgoing (e : Engine) (y : Entry) (headers message : List Sent) : Prop where
  stamped : Sends (Header y.ts) e.out.clock.settle headers
  once : e.out.pendingHeaders = false → headers = []
  last : message = [] ∧ (y.config = none → (e.skipLeading y).2 = true ∨ e.gated y = true) ∨
    ∃ s, message = [s] ∧ (e.out.clock.settle.notes headers).Airs y s

/-- The clock once the message at the cursor is passed, with what was sent for it. -/
def passed (c : Clock) (skip : Option ℕ) (out : List Sent) : Clock :=
  { (c.notes out).settle with
    nextSeq := c.nextSeq + 1
    landing := none
    firstEmitted := c.opened.firstEmitted
    skipLeadingAfter := skip
    sent := c.sent + out.length }

theorem sendEntry_clock {y : Entry} (found : e.entry e.out.nextSeq = some y) :
    ∃ headers message skip, e.sendEntry.2 = headers ++ message ∧ e.Outgoing y headers message ∧
      e.sendEntry.1.out.clock = passed e.out.clock skip (headers ++ message) := by
  obtain ⟨clock, stamped, once⟩ := sendHeaders_clock found
  have course := e.sendHeaders_course
  have found' : e.sendHeaders.1.noteFirst.entry e.sendHeaders.1.noteFirst.out.nextSeq = some y := by
    rw [← found, ← course.nextSeq, ← course.onlyOut.entry]
    rfl
  have fields := clock.trans (notes_fields _ _)
  have skips : (e.sendHeaders.1.noteFirst.skipLeading y).2 = (e.skipLeading y).2 := by
    have same : e.sendHeaders.1.noteFirst.out.skipLeadingAfter = e.out.skipLeadingAfter :=
      congrArg Clock.skipLeadingAfter fields
    unfold skipLeading
    rw [same]
    split
    · split <;> rfl
    · rfl
  have gates : e.sendHeaders.1.noteFirst.gated y = e.gated y := by
    have same : e.sendHeaders.1.noteFirst.out.gate = e.out.gate := congrArg Clock.gate fields
    rw [gated, same, gated]
  have clock' : e.sendHeaders.1.noteFirst.out.clock = (e.out.clock.settle.notes e.sendHeaders.2).opened :=
    congrArg opened clock
  have sent : e.sendEntry.2 = e.sendHeaders.2 ++ e.sendHeaders.1.noteFirst.emitEntry.2 := rfl
  -- Passing the message and counting what was sent come after the message itself.
  have after : e.sendEntry.1.out.clock =
      { e.sendHeaders.1.noteFirst.emitEntry.1.out.clock with
        nextSeq := e.sendHeaders.1.noteFirst.emitEntry.1.out.clock.nextSeq + 1
        landing := none
        sent := e.sendHeaders.1.noteFirst.emitEntry.1.out.clock.sent + e.sendEntry.2.length } := rfl
  rcases emitEntry_clock found' with ⟨none, ⟨skip, emitted⟩, why⟩ | ⟨s, one, airs, skip, emitted⟩
  · refine ⟨e.sendHeaders.2, [], skip, by rw [sent, none], ⟨stamped, once, .inl ⟨rfl, ?_⟩⟩, ?_⟩
    · rwa [skips, gates] at why
    · rw [after, sent, none, emitted, clock', notes_settle, List.append_nil, notes_fields, passed,
        notes_fields e.out.clock]
      rfl
  · refine ⟨e.sendHeaders.2, [s], skip, by rw [sent, one], ⟨stamped, once, .inr ⟨s, rfl, ?_⟩⟩, ?_⟩
    · rw [clock'] at airs
      exact ⟨airs.stamp, airs.kind, airs.origin, airs.jump, airs.passes⟩
    · rw [after, sent, one, emitted, clock', notes_settle, passed, notes_append, notes_fields e.out.clock]
      rfl

/-! ## The frame a hold shows -/

/-- A header sent before a held frame, at its timestamp. -/
structure HoldHeader (t : ℕ) (s : Sent) : Prop where
  stamp : s.ts = t
  header : s.IsHeader
  unseen : s.pts? = none
  plain : s.jump = none

theorem emitHoldConfigs_clock (t : ℕ) (configs : List (Kind × UInt16 × Flv.Bytes)) (e : Engine) :
    (e.emitHoldConfigs t configs).1.out.clock =
        (e.out.clock.notes (e.emitHoldConfigs t configs).2).upTo e.out.lastOutTs ∧
      ∀ s ∈ (e.emitHoldConfigs t configs).2, HoldHeader t s := by
  induction configs generalizing e with
  | nil => exact ⟨rfl, fun _ none => nomatch none⟩
  | cons c rest ih =>
    obtain ⟨kind, class_, payload⟩ := c
    unfold emitHoldConfigs
    split
    · exact ih e
    · dsimp only
      generalize stamped :
        ({ (e.markHeader kind class_ payload).countSent payload with
          out :=
            { ((e.markHeader kind class_ payload).countSent payload).out with
              lastKindTs := ((e.markHeader kind class_ payload).countSent payload).out.lastKindTs.set
                kind (some t) } } : Engine) = mid
      have noted : mid.out.clock =
          (e.out.clock.note (.make kind t payload none (.config class_) mid.out.maskVisible)).upTo
            e.out.lastOutTs := by
        rw [← stamped]
        rfl
      have last : mid.out.lastOutTs = e.out.lastOutTs := by rw [← stamped]; rfl
      obtain ⟨clock, later⟩ := ih mid
      refine ⟨?_, fun s member => ?_⟩
      · rw [clock, noted, last]
        exact notes_upTo _ _ _ _
      · rcases List.mem_cons.mp member with rfl | after
        · exact ⟨rfl, ⟨rfl, rfl⟩, rfl, rfl⟩
        · exact later s after

private theorem emitHoldHeaders_clock (headers : Headers) (t : ℕ) (e : Engine) :
    (e.emitHoldHeaders headers t).1.out.clock =
        (e.out.clock.notes (e.emitHoldHeaders headers t).2).upTo (max e.out.lastOutTs t) ∧
      ∀ s ∈ (e.emitHoldHeaders headers t).2, HoldHeader t s := by
  unfold emitHoldHeaders
  cases headers.metadata with
  | none =>
    obtain ⟨clock, later⟩ := emitHoldConfigs_clock t headers.config e
    exact ⟨congrArg (fun c : Clock => c.upTo (max c.lastOutTs t)) clock, later⟩
  | some m =>
    dsimp only
    generalize stamped :
      ({ e with
        out :=
          { e.out with
            sentMetadata := some m
            lastKindTs := e.out.lastKindTs.set .data (some t) } } : Engine) = mid
    have noted : mid.out.clock =
        (e.out.clock.note (.make .data t m none .metadata e.out.maskVisible)).upTo e.out.lastOutTs := by
      rw [← stamped]
      rfl
    have last : mid.out.lastOutTs = e.out.lastOutTs := by rw [← stamped]
    obtain ⟨clock, later⟩ := emitHoldConfigs_clock t headers.config mid
    refine ⟨?_, fun s member => ?_⟩
    · refine (congrArg (fun c : Clock => c.upTo (max c.lastOutTs t)) clock).trans ?_
      rw [noted, last]
      exact notes_upTo _ _ _ _
    · rcases List.mem_cons.mp member with rfl | after
      · exact ⟨rfl, ⟨rfl, rfl⟩, rfl, rfl⟩
      · exact later s after

/-- The held frame, after its headers. -/
structure Held (now : ℕ) (h : HoldFrame) (e : Engine) (headers : List Sent) (frame : Sent) : Prop where
  headers : ∀ s ∈ headers, HoldHeader (e.holdTs now h) s
  stamp : frame.ts = e.holdTs now h
  kind : frame.msg.kind = .video
  origin : frame.origin = .held h.entry h.cts
  jump : frame.jump = some e.out.sent

private theorem frameHeaders_clock (h : HoldFrame) (t : ℕ) (e : Engine) :
    (∃ last, max last t = max e.out.lastOutTs t ∧
        (e.frameHeaders h t).1.out.clock = (e.out.clock.notes (e.frameHeaders h t).2).upTo last) ∧
      ∀ s ∈ (e.frameHeaders h t).2, HoldHeader t s := by
  unfold frameHeaders
  split
  · obtain ⟨clock, all⟩ := emitHoldHeaders_clock h.headers t e
    exact ⟨⟨_, by omega, clock⟩, all⟩
  · exact ⟨⟨e.out.lastOutTs, rfl, rfl⟩, fun _ none => nomatch none⟩

theorem showFrame_clock (now : ℕ) (h : HoldFrame) (e : Engine) :
    ∃ headers frame, (e.showFrame now h).2 = headers ++ [frame] ∧ Held now h e headers frame ∧
      (e.showFrame now h).1.out.clock =
        { { e.out.clock with fresh := false }.notes (headers ++ [frame]) with
          sent := e.out.sent + (headers ++ [frame]).length } := by
  obtain ⟨⟨last, top, clock⟩, all⟩ := (e.frameShown now h).frameHeaders_clock h (e.holdTs now h)
  let headers := ((e.frameShown now h).frameHeaders h (e.holdTs now h)).2
  let frame : Sent := .make .video (e.holdTs now h) h.payload none (.held h.entry h.cts)
    ((e.frameShown now h).frameHeaders h (e.holdTs now h)).1.out.maskVisible (some e.out.sent)
  refine ⟨headers, frame, rfl, ⟨all, rfl, rfl, rfl, rfl⟩, ?_⟩
  have times := notes_at (fun s member => (all s member).stamp) { e.out.clock with fresh := false }
  have shown : (e.showFrame now h).1.out.clock =
      { ((e.frameShown now h).frameHeaders h (e.holdTs now h)).1.out.clock.note frame with
        sent := ((e.frameShown now h).frameHeaders h (e.holdTs now h)).1.out.clock.sent +
          (headers ++ [frame]).length } := rfl
  have start : (e.frameShown now h).out.clock = { e.out.clock with fresh := false } := rfl
  have noted : (({ e.out.clock with fresh := false }.notes headers).upTo last).note frame =
      ({ e.out.clock with fresh := false }.notes headers).note frame := by
    simp only [note, upTo, Clock.mk.injEq, true_and, and_true]
    exact top.trans times.symm
  rw [shown, clock, start, noted, notes_append]
  rw [notes_fields { e.out.clock with fresh := false } headers]
  rfl

end Engine

end StreamDelay
