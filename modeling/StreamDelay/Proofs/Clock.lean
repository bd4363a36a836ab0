import Mathlib.Tactic.Common
import StreamDelay.Proofs.FrameTimes
import StreamDelay.Proofs.Goal
import StreamDelay.Proofs.Timed

/-! # The clock of the output

Timestamps come from a few fields of the output: the offset a splice sets, what was sent last, and
where the cursor is. Everything an operation does to them is a sequence of a few kinds of ticks: they
stay, the output waits for a keyframe, a splice lands on one, messages are sent.
-/

namespace StreamDelay

open Foundations

/-- What the timestamps of the output depend on. -/
structure Clock where
  connected : Bool
  nextSeq : ℕ
  tsOffset : ℤ
  fresh : Bool
  needSync : Bool
  currentSession : Option ℕ
  gate : Option (ℕ × ℕ)
  skipLeadingAfter : Option ℕ
  pendingHeaders : Bool
  landing : Option (Entry × ℕ)
  firstEmitted : Option ℕ
  lastOutTs : ℕ
  lastKindTs : PerKind (Option ℕ)
  lastPts : ℤ
  sent : ℕ

def Output.clock (o : Output) : Clock :=
  ⟨o.connected, o.nextSeq, o.tsOffset, o.fresh, o.needSync, o.currentSession, o.gate,
    o.skipLeadingAfter, o.pendingHeaders, o.landing, o.firstEmitted, o.lastOutTs, o.lastKindTs, o.lastPts,
    o.sent⟩

namespace Clock

/-- The output waits for a keyframe, from `cursor` on. -/
def seek (cursor : ℕ) (c : Clock) : Clock := { c with nextSeq := cursor, needSync := true }

/-- `after_sent`: a frame after everything sent. -/
def afterSent (c : Clock) (frame : ℕ) (cts : ℤ) : ℕ :=
  max ((c.lastOutTs + max frame 1) % 2 ^ 64)
    (max (Engine.signed (c.lastPts + (max frame 1 : ℕ) - cts)) 0).toNat

/-- A splice lands on the keyframe `x`, which gets the timestamp `base`. -/
def land (x : Entry) (base : ℕ) (c : Clock) : Clock :=
  { c with
    tsOffset := Engine.signed ((base : ℤ) - x.ts)
    fresh := false
    gate := some (x.session, x.ts)
    skipLeadingAfter := if x.hevcNal = some Flv.Hevc.CRA then some x.seq else none
    nextSeq := x.seq
    needSync := false
    currentSession := some x.session
    pendingHeaders := true
    landing := some (x, c.sent) }

/-- The timestamp a splice gives the keyframe `x`, whose frames last `frame` ms. -/
def Fits (c : Clock) (frame : ℕ) (x : Entry) (base : ℕ) : Prop :=
  base = if c.fresh then 0 else c.afterSent frame x.cts

/-- A new connection. -/
def connect (c : Clock) : Clock :=
  { c with
    connected := true
    fresh := true
    needSync := true
    firstEmitted := none
    lastOutTs := 0
    lastKindTs := .const none
    lastPts := 0
    sent := 0 }

/-- What was sent last on the connection is the same. -/
def SameTimes (c c' : Clock) : Prop :=
  c'.fresh = c.fresh ∧ c'.firstEmitted = c.firstEmitted ∧ c'.lastOutTs = c.lastOutTs ∧
    c'.lastKindTs = c.lastKindTs ∧ c'.lastPts = c.lastPts ∧ c'.sent = c.sent

/-- `out_ts`: the timestamp a message gets. -/
def outTs (c : Clock) (kind : Kind) (ts : ℕ) : ℕ :=
  let t := (max (Engine.signed (ts + c.tsOffset)) 0).toNat
  (c.lastKindTs.get kind).elim t (max t)

end Clock

/-- When a video frame sent is presented. -/
def Sent.pts? (s : Sent) : Option ℤ :=
  match s.origin with
  | .buffered x => if x.kind = .video ∧ x.config = none then some (s.ts + x.cts) else none
  | .held _ cts => some (s.ts + cts)
  | _ => none

namespace Clock

/-- A message was sent. -/
def note (c : Clock) (s : Sent) : Clock :=
  { c with
    lastKindTs := c.lastKindTs.set s.msg.kind (some s.ts)
    lastOutTs := max c.lastOutTs s.ts
    lastPts := s.pts?.elim c.lastPts fun p => max c.lastPts (Engine.signed p) }

/-- Messages were sent, one after the other. -/
def notes (c : Clock) (out : List Sent) : Clock := out.foldl note c

/-- Each message sent is one `P` allows of the clock before it. -/
def Sends (P : Clock → Sent → Prop) : Clock → List Sent → Prop
  | _, [] => True
  | c, s :: rest => P c s ∧ Sends P (c.note s) rest

theorem sends_append {P : Clock → Sent → Prop} {c : Clock} {first second : List Sent} :
    Sends P c (first ++ second) ↔ Sends P c first ∧ Sends P (c.notes first) second := by
  induction first generalizing c with
  | nil => exact (and_iff_right trivial).symm
  | cons s rest ih => simp only [List.cons_append, Sends, ih, and_assoc, notes, List.foldl_cons]

/-- What holds of each message `P` allows holds of all that are sent. -/
theorem Sends.all {P : Clock → Sent → Prop} {Q : Sent → Prop} {c : Clock} {out : List Sent}
    (sends : Sends P c out) (each : ∀ c s, P c s → Q s) : ∀ s ∈ out, Q s := by
  induction out generalizing c with
  | nil => exact fun _ none => nomatch none
  | cons s rest ih =>
    intro r member
    rcases List.mem_cons.mp member with rfl | later
    · exact each c r sends.1
    · exact ih sends.2 r later

theorem notes_append (c : Clock) (first second : List Sent) :
    c.notes (first ++ second) = (c.notes first).notes second := List.foldl_append

end Clock

/-- The operation neither takes output back nor opens a connection. -/
def Op.flows : Op → Bool
  | .unsend _ | .outputConnected _ => false
  | _ => true

namespace Engine

/-- The slate of a dump takes the sound away, or will. -/
def muting (e : Engine) : Bool :=
  match e.out.pending with
  | .mask m => m.mute
  | .dump .. => e.config.muteUnderSlate
  | _ => false

/-- The keyframe a mask waits for. -/
def anchor? (e : Engine) : Option ℕ :=
  match e.out.pending with
  | .mask m => m.anchor
  | _ => none

/-- The keyframe a mask waits for is one, while it is buffered. -/
def Anchored (e : Engine) : Prop :=
  ∀ a, e.anchor? = some a → a < e.nextSeq ∧ ∀ x ∈ e.ring, x.seq = a → x.sync = true

/-- `h` is the frame `e` holds, or one taken at `now` from what it has buffered. -/
structure Holds (now : ℕ) (e : Engine) (h : HoldFrame) : Prop where
  last : h.last = now ∨ ∃ g, e.out.hold = some g ∧ g.last = h.last
  frame : (∃ g, e.out.hold = some g ∧ g.frameMs = h.frameMs ∧ g.cts = h.cts) ∨
    e.FrameOf h.frameMs ∧ ∃ x ∈ e.ring, x.cts = h.cts

/-- Messages left the buffer and none came. The sound comes back, or the slate is for a new dump; what a
mask waits for stays, or is a keyframe; so does the frame of a hold. -/
structure Kept (now : ℕ) (e e' : Engine) : Prop where
  ring : ∀ x ∈ e'.ring, x ∈ e.ring
  received : e'.received = e.received
  muting : e'.muting = true → e.muting = true ∨ e'.ring = []
  anchor : ∀ a, e'.anchor? = some a → e.anchor? = some a ∧ e.nextSeq ≤ e'.nextSeq ∨
    a < e'.nextSeq ∧ ∀ x ∈ e'.ring, x.seq = a → x.sync = true
  frames : ∀ f, e'.FrameOf f → e.FrameOf f
  hold : ∀ h, e'.out.hold = some h → Holds now e h

variable {now : ℕ} {e mid e' : Engine}

theorem Holds.same {h : HoldFrame} (held : e.out.hold = some h) : Holds now e h :=
  ⟨.inr ⟨h, held, rfl⟩, .inl ⟨h, held, rfl, rfl⟩⟩

theorem Holds.of_out (hold : e'.out.hold = e.out.hold ∨ e'.out.hold = none) {h : HoldFrame}
    (held : e'.out.hold = some h) : Holds now e h := by
  rcases hold with same | gone
  · exact .same (same ▸ held)
  · rw [gone] at held
    contradiction

theorem airedKeyframe_holds {h : HoldFrame} (frame : e.airedKeyframe now = some h) : Holds now e h := by
  have member := airedKeyframe_mem frame
  obtain ⟨k, -, frame⟩ := Option.bind_eq_some_iff.mp frame
  obtain ⟨x, -, frame⟩ := Option.bind_eq_some_iff.mp frame
  split at frame
  · obtain rfl := Option.some.inj frame
    exact ⟨.inl rfl, .inr ⟨e.frameMs_frameOf x.session, x, member, rfl⟩⟩
  · contradiction

namespace Kept

theorem refl (now : ℕ) (e : Engine) : Kept now e e :=
  ⟨fun _ => id, rfl, .inl, fun _ waits => .inl ⟨waits, Nat.le_refl _⟩, fun _ => id, fun _ => .same⟩

/-- Nothing is pending that waits for a keyframe or takes the sound away. -/
theorem of_plain (ring : ∀ x ∈ e'.ring, x ∈ e.ring) (received : e'.received = e.received)
    (muting : e'.muting = false) (anchor : e'.anchor? = none) (frames : ∀ f, e'.FrameOf f → e.FrameOf f)
    (hold : ∀ h, e'.out.hold = some h → Holds now e h) : Kept now e e' where
  ring := ring
  received := received
  muting := by simp [muting]
  anchor := by simp [anchor]
  frames := frames
  hold := hold

/-- Nothing is pending that was not. -/
theorem of_pending (ring : ∀ x ∈ e'.ring, x ∈ e.ring) (received : e'.received = e.received)
    (next : e'.nextSeq = e.nextSeq) (config : e'.config.muteUnderSlate = e.config.muteUnderSlate)
    (pending : e'.out.pending = e.out.pending) (frames : ∀ f, e'.FrameOf f → e.FrameOf f)
    (hold : e'.out.hold = e.out.hold ∨ e'.out.hold = none) : Kept now e e' where
  ring := ring
  received := received
  muting := fun muted => .inl (by rw [← muted, Engine.muting, Engine.muting, pending, config])
  anchor := fun a waits => .inl ⟨by rw [← waits, anchor?, anchor?, pending], Nat.le_of_eq next.symm⟩
  frames := frames
  hold := fun _ => .of_out hold

/-- Only the output changed, and nothing is pending that was not. -/
theorem of_out (only : OnlyOut e e') (pending : e'.out.pending = e.out.pending)
    (hold : e'.out.hold = e.out.hold ∨ e'.out.hold = none) :
    Kept now e e' :=
  .of_pending (fun x member => by rwa [only.ring] at member) only.received only.nextSeq
    (by rw [only.config]) pending (fun f lasts => by rwa [FrameOf, only.sessions] at lasts) hold

/-- Only the output changed, and what is pending takes no sound and waits for no keyframe. -/
theorem of_out_plain (only : OnlyOut e e') (muting : e'.muting = false) (anchor : e'.anchor? = none)
    (hold : e'.out.hold = e.out.hold ∨ e'.out.hold = none) :
    Kept now e e' :=
  .of_plain (fun x member => by rwa [only.ring] at member) only.received muting anchor
    (fun f lasts => by rwa [FrameOf, only.sessions] at lasts) fun _ => .of_out hold

theorem trans (first : Kept now e mid) (second : Kept now mid e') : Kept now e e' where
  ring := fun x member => first.ring x (second.ring x member)
  received := second.received.trans first.received
  muting := by
    intro muted
    rcases second.muting muted with before | empty
    · rcases first.muting before with earlier | empty
      · exact .inl earlier
      · refine .inr (List.eq_nil_iff_forall_not_mem.mpr fun x member => ?_)
        have still := second.ring x member
        rw [empty] at still
        contradiction
    · exact .inr empty
  anchor := by
    intro a waits
    rcases second.anchor a waits with ⟨before, next⟩ | known
    · rcases first.anchor a before with ⟨earlier, next'⟩ | ⟨issued, sync⟩
      · exact .inl ⟨earlier, Nat.le_trans next' next⟩
      · exact .inr ⟨Nat.lt_of_lt_of_le issued next, fun x member => sync x (second.ring x member)⟩
    · exact .inr known
  frames := fun f lasts => first.frames f (second.frames f lasts)
  hold := by
    intro h held
    obtain ⟨last, frame⟩ := second.hold h held
    constructor
    · rcases last with taken | ⟨g, there, same⟩
      · exact .inl taken
      · rw [← same]
        exact (first.hold g there).last
    · rcases frame with ⟨g, there, frame, cts⟩ | ⟨lasts, x, member, cts⟩
      · rw [← frame, ← cts]
        exact (first.hold g there).frame
      · exact .inr ⟨first.frames _ lasts, x, first.ring x member, cts⟩

theorem anchored (kept : Kept now e e') (anchored : e.Anchored) : e'.Anchored := by
  intro a waits
  rcases kept.anchor a waits with ⟨before, next⟩ | known
  · obtain ⟨issued, sync⟩ := anchored a before
    exact ⟨Nat.lt_of_lt_of_le issued next, fun x member => sync x (kept.ring x member)⟩
  · exact known

end Kept

/-- One step of the output's clock at time `now`, and what it sends. -/
inductive Tick (now : ℕ) : Engine → Engine → List Sent → Prop
  /-- Nothing the timestamps depend on changed. -/
  | still {e e' : Engine} (kept : Kept now e e') (next : e.nextSeq ≤ e'.nextSeq)
      (same : e'.out.clock = e.out.clock) : Tick now e e' []
  /-- The output waits for a keyframe. -/
  | seeks {e e' : Engine} (kept : Kept now e e') (cursor : ℕ)
      (same : e'.out.clock = e.out.clock.seek cursor) : Tick now e e' []
  /-- A splice lands on a keyframe. -/
  | lands {e e' : Engine} (kept : Kept now e e') (layout : e'.Layout) (x : Entry) (base : ℕ)
      (member : x ∈ e'.ring) (sync : x.sync = true) (fits : e.out.clock.Fits (e'.frameMs x.session) x base)
      (same : e'.out.clock = e.out.clock.land x base) : Tick now e e' []
  /-- The held frame goes: timestamps carry on from then. -/
  | resumes {e e' : Engine} (kept : Kept now e e') (h : HoldFrame) (held : e.out.hold = some h)
      (needs : e.out.needSync = true) (gone : e'.out.hold = none)
      (same : e'.out.clock =
        { e.out.clock with lastOutTs := (e.out.lastOutTs + (now - h.last) / MS) % 2 ^ 64 }) :
      Tick now e e' []
  /-- The connection is gone. -/
  | drops {e e' : Engine} (kept : Kept now e e') (down : e'.out.connected = false)
      (same : e.out.clock.SameTimes e'.out.clock) : Tick now e e' []
  /-- A message is received. -/
  | receives {e e' : Engine} (layout : e.Layout) (x : Entry) (ring : e'.ring = e.ring ++ [x])
      (id : x.id = e.received) (seq : x.seq = e.nextSeq) (received : e'.received = e.received + 1)
      (next : e'.nextSeq = e.nextSeq + 1) (config : e'.config = e.config) (same : e'.out = e.out)
      (shift : Flv.Shift x.cts) (frames : ∀ f, e'.FrameOf f → e.FrameOf f ∨ f ≤ 200) : Tick now e e' []
  /-- The held frame is sent. -/
  | shows {e : Engine} (h : HoldFrame) (held : e.out.hold = some h) (needs : e.out.needSync = true) :
      Tick now e (e.showFrame now h).1 (e.showFrame now h).2
  /-- The message at the cursor is sent. -/
  | sends {e : Engine} (layout : e.Layout) (y : Entry) (connected : e.out.connected = true)
      (begun : e.out.fresh = false) (synced : e.out.needSync = false)
      (found : e.entry e.out.nextSeq = some y)
      (session : ∀ cs, e.out.currentSession = some cs → y.session = cs) :
      Tick now e e.sendEntry.1 e.sendEntry.2
  /-- The message at the cursor is left out, under the slate. -/
  | mutes {e : Engine} (layout : e.Layout) (y : Entry) (found : e.entry e.out.nextSeq = some y)
      (session : ∀ cs, e.out.currentSession = some cs → y.session = cs)
      (muted : e.muted y = true) : Tick now e e.muteEntry []

abbrev Ticks (now : ℕ) : Engine → Engine → List Sent → Prop := Steps (Tick now)

/-! ## What the output does by itself -/

theorem spliceTo_clock (layout : e.Layout) {k : ℕ} {x : Entry} (delay : ℕ)
    (found : e.entry k = some x) :
    ∃ base, e.out.clock.Fits (e.frameMs x.session) x base ∧
      (e.spliceTo k delay).out.clock = e.out.clock.land x base := by
  rw [spliceTo_out layout delay found]
  exact ⟨_, rfl, rfl⟩

namespace Tick

/-- A splice to a buffered keyframe, of which other fields of the output may follow. -/
theorem of_splice (layout : e.Layout) {k delay : ℕ} (member : k ∈ e.syncs) (kept : Kept now e e')
    (layout' : e'.Layout) (only : OnlyOut e e')
    (same : e'.out.clock = (e.spliceTo k delay).out.clock) : Tick now e e' [] := by
  obtain ⟨x, found, buffered, sync, -⟩ := layout.sync_entry member
  obtain ⟨base, fits, landed⟩ := spliceTo_clock layout delay found
  exact .lands kept layout' x base (by rwa [only.ring]) sync (by rwa [only.frameMs]) (same.trans landed)

/-- Fields of the output changed that the timestamps do not depend on. -/
theorem of_out (only : OnlyOut e e') (pending : e'.out.pending = e.out.pending)
    (same : e'.out.clock = e.out.clock)
    (hold : e'.out.hold = e.out.hold ∨ e'.out.hold = none) :
    Tick now e e' [] :=
  .still (.of_out only pending hold) (Nat.le_of_eq only.nextSeq.symm) same

theorem of_out_plain (only : OnlyOut e e') (muting : e'.muting = false) (anchor : e'.anchor? = none)
    (same : e'.out.clock = e.out.clock)
    (hold : e'.out.hold = e.out.hold ∨ e'.out.hold = none) :
    Tick now e e' [] :=
  .still (.of_out_plain only muting anchor hold) (Nat.le_of_eq only.nextSeq.symm) same

end Tick

theorem endHold_ticks (now : ℕ) (needs : e.out.needSync = true) : Ticks now e (e.endHold now) [] := by
  unfold endHold
  split
  · exact .refl e
  · next h held => exact .single (.resumes (.of_out rfl rfl (.inr rfl)) h held needs rfl rfl)

private theorem startAt_tick (layout : e.Layout) {now k arrival : ℕ} (member : k ∈ e.syncs)
    (layout' : (e.startAt now k arrival).Layout) : Tick now e (e.startAt now k arrival) [] := by
  have only := startAt_onlyOut now k arrival e
  have spliced (kept : Kept now e (e.startAt now k arrival))
      (same : (e.startAt now k arrival).out.clock =
        (e.spliceTo k (max e.out.delay (now - arrival))).out.clock) :=
    Tick.of_splice layout member kept layout' only same
  rcases e.startAt_cases now k arrival with same | ⟨-, -, -, same⟩ | ⟨-, -, same⟩
  · exact spliced (.of_out only (by simp [same]) (.inl (by simp [same]))) (by rw [same])
  · exact spliced (.of_out_plain only (by rw [same]; rfl) (by rw [same]; rfl) (.inr (by rw [same]; rfl)))
      (by rw [same]; rfl)
  · exact spliced (.of_out_plain only (by rw [same]; rfl) (by rw [same]; rfl) (.inr (by rw [same]; rfl)))
      (by rw [same]; rfl)

/-- A move of the output is a few ticks of its clock. -/
theorem Move.ticks {now : ℕ} {out : List Sent} (move : Move now e e' out) (sound : e.Sound)
    (anchored : e.Anchored) : Ticks now e e' out := by
  obtain ⟨layout, coherent⟩ := sound
  have only := move.onlyOut
  have layout' := move.layout layout
  cases move with
  | liveSplice _ newest =>
    exact .single (.of_splice layout (List.mem_of_getLast? newest)
      (.of_out_plain only rfl rfl (.inl (spliceTo_hold _ _ _))) layout' only rfl)
  | reduceSplice _ _ newest =>
    exact .single (.of_splice layout (newestSyncArrivedBy_mem newest).1
      (.of_out_plain only rfl rfl (.inl (spliceTo_hold _ _ _))) layout' only rfl)
  | replayDone _ first =>
    exact .single (.of_splice layout (List.mem_of_find?_eq_some first)
      (.of_out_plain only rfl rfl (.inl (spliceTo_hold _ _ _))) layout' only rfl)
  | @maskDone m a x pending anchor found =>
    obtain ⟨buffered, same⟩ := layout.entry_iff.mp found
    have sync := (anchored a (by rw [anchor?, pending]; exact anchor)).2 x buffered same
    exact .single (.of_splice layout (layout.mem_syncs.mpr ⟨x, buffered, sync, same⟩)
      (.of_out_plain only rfl rfl (.inr rfl)) layout' only rfl)
  | @covered delay fromSeq a started t pending first next spliced =>
    subst spliced
    have needs := coherent.waits (by rw [pending]; rfl)
    have ended := endHold_onlyOut now e
    have spliced := ended.symm.trans only
    have layoutH := ended.layout layout (by simpa [endHold_out] using layout.cursor)
      (by simpa [endHold_out] using layout.mark)
    have member : a ∈ (e.endHold now).syncs := by
      rw [ended.syncs]
      exact (firstSyncArrivedFrom_mem first).1
    have config := (spliceTo_onlyOut a (now - e.arrivalOr a now) (e.endHold now)).config
    have pendingH : (e.endHold now).out.pending = .dump delay started fromSeq (some t) := by
      rw [endHold_out, pending]
    refine Steps.silent (endHold_ticks now needs) (.single (.of_splice layoutH member ?_ layout' spliced rfl))
    refine ⟨fun x buffered => by rwa [spliced.ring] at buffered, spliced.received, fun muted => .inl ?_,
      fun b waits => .inr ?_, fun f lasts => by rwa [FrameOf, spliced.sessions] at lasts,
      fun _ => .of_out (.inl (spliceTo_hold _ _ _))⟩
    · rw [← muted, Engine.muting, pendingH, ← config]
      rfl
    · obtain rfl : a = b := Option.some.inj waits
      obtain ⟨x, -, buffered, sync, same⟩ := layoutH.sync_entry member
      have issued := layoutH.upper buffered
      rw [same, ← spliced.nextSeq] at issued
      refine ⟨issued, fun y member seq => ?_⟩
      rw [spliced.ring] at member
      rwa [layoutH.eq_of_seq_eq member buffered (seq.trans same.symm)]
  | holdDone pending first _ spliced =>
    subst spliced
    have needs := coherent.waits (by rw [pending]; rfl)
    have ended := endHold_onlyOut now e
    have spliced := ended.symm.trans only
    have layoutH := ended.layout layout (by simpa [endHold_out] using layout.cursor)
      (by simpa [endHold_out] using layout.mark)
    have member := List.mem_of_find?_eq_some first
    rw [← ended.syncs] at member
    exact Steps.silent (endHold_ticks now needs) (.single (.of_splice layoutH member
      (.of_out_plain spliced rfl rfl (.inl (spliceTo_hold _ _ _))) layout' spliced rfl))
  | started _ _ _ _ first =>
    exact .single (startAt_tick layout (mem_candidates.mp (startKeyframe_mem first)).1 layout')
  | liveEdge | airedMark | reduceDone => exact .single (.of_out_plain only rfl rfl rfl (.inl rfl))
  | maskGone => exact .single (.of_out_plain only rfl rfl rfl (.inr rfl))
  | unconfirmed => exact .single (.of_out only rfl rfl (.inl rfl))
  | @anchored m t a pending _ _ first =>
    refine .single (.still ⟨fun x => id, rfl, fun muted => .inl ?_, fun b waits => .inr ?_, fun _ => id,
      fun _ held => .same held⟩ (Nat.le_refl _) rfl)
    · rw [← muted, Engine.muting, pending]
      rfl
    · obtain rfl : a = b := Option.some.inj waits
      obtain ⟨x, -, buffered, sync, same⟩ := layout.sync_entry (firstSyncArrivedFrom_mem first).1
      refine ⟨same ▸ layout.upper buffered, fun y member seq => ?_⟩
      rwa [layout.eq_of_seq_eq member buffered (seq.trans same.symm)]
  | coverLost => exact .single (.of_out_plain only rfl rfl rfl (.inl rfl))
  | @holdEnded _ _ m pending =>
    have needs := coherent.waits (by rw [pending]; rfl)
    exact .single (.seeks (.of_out_plain only rfl rfl (.inr rfl)) (max e.out.nextSeq (m + 1))
      (by simp only [Clock.seek, Output.clock, needs]))
  | replayHeld =>
    refine .single (.seeks ?_ _ rfl)
    exact .of_plain (fun _ => id) rfl rfl rfl (fun _ => id) fun h frame => airedKeyframe_holds frame
  | caughtUp | newSession => exact .single (.seeks (.of_out only rfl (.inl rfl)) _ rfl)
  | @sessionSkipped s _ _ _ needs =>
    exact .single (.seeks (.of_out only rfl (.inl rfl)) (e.nextSessionStart s)
      (by simp only [Clock.seek, Output.clock, needs]))
  | @markSkipped _ m _ _ _ needs =>
    exact .single (.seeks (.of_out only rfl (.inl rfl)) (m + 1) (by simp only [Clock.seek, Output.clock, needs]))
  | heldFrame _ holding frame => exact .single (.shows _ frame (coherent.waits holding))
  | sent connected _ _ synced found session =>
    exact .single (.sends layout _ connected (coherent.begun connected synced) synced found session)
  | silenced _ _ _ _ found session _ muted => exact .single (.mutes layout _ found session muted)

/-! ## What a mask waits for -/

theorem showFrame_kept {h : HoldFrame} (held : e.out.hold = some h) : Kept now e (e.showFrame now h).1 := by
  have course := showFrame_course e now h
  have only : OnlyOut e (e.showFrame now h).1 :=
    (show OnlyOut e ((e.frameShown now h).tally (e.showFrame now h).2) from rfl).trans course.onlyOut
  have pending : (e.showFrame now h).1.out.pending = e.out.pending := course.pending
  refine
    ⟨fun x member => by rwa [only.ring] at member, only.received, fun muted => .inl ?_,
      fun a waits => .inl ⟨?_, Nat.le_of_eq only.nextSeq.symm⟩,
      fun f lasts => by rwa [FrameOf, only.sessions] at lasts, fun g shown => ?_⟩
  · rwa [Engine.muting, pending, only.config] at muted
  · rwa [anchor?, pending] at waits
  · rw [course.hold] at shown
    obtain rfl := Option.some.inj shown
    exact ⟨.inl rfl, .inl ⟨h, held, rfl, rfl⟩⟩

theorem sendEntry_kept (now : ℕ) (e : Engine) : Kept now e e.sendEntry.1 := by
  have course := sendEntry_course e
  have passed : OnlyOut e (e.pass.tally e.sendEntry.2) := rfl
  exact .of_out (passed.trans course.onlyOut) course.pending (.inl course.hold)

theorem Tick.anchored {out : List Sent} (tick : Tick now e e' out) (anchored : e.Anchored) :
    e'.Anchored := by
  cases tick with
  | still kept | seeks kept | lands kept | resumes kept | drops kept =>
    exact kept.anchored anchored
  | receives layout x ring id seq _ next _ same =>
    intro a waits
    rw [anchor?, same] at waits
    obtain ⟨issued, sync⟩ := anchored a waits
    refine ⟨by omega, fun y member number => ?_⟩
    rw [ring] at member
    rcases List.mem_append.mp member with older | new
    · exact sync y older number
    · obtain rfl := List.mem_singleton.mp new
      omega
  | shows h held => exact (showFrame_kept held).anchored anchored
  | sends => exact (sendEntry_kept now e).anchored anchored
  | mutes =>
    have muted : Kept now e e.muteEntry := .of_out rfl rfl (.inl rfl)
    exact muted.anchored anchored

theorem Ticks.anchored {out : List Sent} (ticks : Ticks now e e' out) (anchored : e.Anchored) :
    e'.Anchored := Steps.preserves (fun _ _ _ tick => tick.anchored) ticks anchored

/-- Moves of the output are ticks of its clock. -/
theorem Moves.ticks {now : ℕ} {out : List Sent} (moves : Moves now e e' out) (sound : e.Sound)
    (anchored : e.Anchored) : Ticks now e e' out := by
  induction moves with
  | refl => exact .refl _
  | head move _ ih =>
    have ticks := move.ticks sound anchored
    exact ticks.trans (ih ⟨move.layout sound.layout, move.coherent sound.layout sound.coherent⟩
      (Ticks.anchored ticks anchored))

theorem runPending_ticks (now : ℕ) (sound : e.Sound) (anchored : e.Anchored) :
    Ticks now e (e.runPending now) [] := Moves.ticks (runPending_moves now e) sound anchored

/-! ## Commands -/

/-- An operation that leaves the numbering and the clock alone, before the pending change runs. -/
theorem ticks_then_run (tick : Tick now e mid []) (sound : mid.Sound) (anchored : e.Anchored) :
    Ticks now e (mid.runPending now) [] :=
  Steps.silent (.single tick) (runPending_ticks now sound (tick.anchored anchored))

theorem goLive_tick (when_ : GoLiveWhen) (e : Engine) : Tick now e (e.goLive when_) [] := by
  unfold goLive
  dsimp only
  split
  · exact .of_out_plain rfl rfl rfl rfl (.inr rfl)
  · cases when_ <;> exact .of_out_plain rfl rfl rfl rfl (.inr rfl)

theorem backUnderMax_tick (e : Engine) : Tick now e e.backUnderMax [] := by
  rcases e.backUnderMax_out with same | ⟨-, -, same⟩
  · rw [same]
    exact .of_out rfl rfl rfl (.inl rfl)
  · rw [same]
    exact .of_out_plain rfl rfl rfl rfl (.inr rfl)

private theorem cancel_ticks (e : Engine) : Ticks now e e.cancel [] := by
  unfold cancel
  split
  · exact .refl e
  · dsimp only
    split
    · refine Steps.silent ?_ (.single (backUnderMax_tick _))
      exact .single (.of_out_plain rfl rfl rfl rfl (.inr rfl))
    · exact .single (.of_out_plain rfl rfl rfl rfl (.inr rfl))

private theorem slateShown_tick (now change : ℕ) (e : Engine) : Tick now e (e.slateShown now change) [] := by
  have same : Tick now e e [] := .of_out rfl rfl rfl (.inl rfl)
  unfold slateShown
  split
  · exact same
  · split
    · next m pending =>
      split
      · refine .still ⟨fun _ => id, rfl, fun muted => .inl ?_, fun a waits => .inl ⟨?_, Nat.le_refl _⟩,
          fun _ => id, fun _ held => .same held⟩ (Nat.le_refl _) rfl
        · rw [← muted, Engine.muting, pending]
          rfl
        · rw [← waits, anchor?, pending]
          rfl
      · exact same
    · next pending =>
      refine .still ⟨fun _ => id, rfl, fun muted => .inl ?_, fun a waits => (nomatch waits), fun _ => id,
        fun _ held => .same held⟩ (Nat.le_refl _) rfl
      rw [← muted, Engine.muting, pending]
      rfl
    · exact same

private theorem rewind_tick (layout : e.Layout) (now d : ℕ) (pending : e.out.pending = .none) :
    Tick now e (e.rewind now d) [] := by
  have muting : e.muting = false := by rw [Engine.muting, pending]
  have anchor : e.anchor? = none := by rw [anchor?, pending]
  have short : InPlace e (e.noteShort now) := out_inPlace layout rfl rfl rfl
  have jump {mid : Engine} (start : InPlace e mid) (clock : mid.out.clock = e.out.clock)
      (same : mid.out.pending = e.out.pending) (hold : mid.out.hold = e.out.hold) {k : ℕ}
      (member : k ∈ e.syncs) (known : Bool) :
      Tick now e (mid.rewindTo now d k known) [] := by
    have change := start.trans (rewindTo_inPlace (start.layout layout) now d k known)
    have layout' := change.layout layout
    obtain ⟨x, found, buffered, sync, -⟩ := layout.sync_entry member
    have found' : mid.entry k = some x := (start.only.entry k).trans found
    revert change layout'
    unfold rewindTo
    dsimp only
    split
    · obtain ⟨base, fits, landed⟩ :=
        spliceTo_clock (start.layout layout) (now - mid.arrivalOr k now) found'
      rw [clock] at fits landed
      split
      · intro change layout'
        exact .lands (.of_out_plain change.only rfl rfl (.inr rfl)) layout' x base (by rwa [change.only.ring]) sync
          (by rwa [change.only.frameMs, ← start.only.frameMs]) landed
      · intro change layout'
        exact .lands (.of_out change.only (by rw [spliceTo_pending, same]) (.inl (by rw [spliceTo_hold, hold])))
          layout' x base (by rwa [change.only.ring]) sync (by rwa [change.only.frameMs, ← start.only.frameMs]) landed
    · intro change _
      exact .of_out change.only same clock (.inl hold)
  unfold rewind
  split
  · next k newest => exact jump (.refl layout) rfl rfl rfl (newestSyncArrivedBy_mem newest).1 true
  · split
    · exact .of_out rfl rfl rfl (.inl rfl)
    · next k oldest => exact jump short rfl rfl rfl (oldestInside_mem oldest) false

private theorem changeDelay_ticks (layout : e.Layout) (now d : ℕ) (mode : DelayMode) :
    Ticks now e (e.changeDelay now d mode) [] := by
  have cleared : Tick now e ((e.retarget d).setPending .none) [] := .of_out_plain rfl rfl rfl rfl (.inr rfl)
  have layout' : ((e.retarget d).setPending .none).Layout := layout.of_out layout.cursor layout.mark
  unfold changeDelay
  dsimp only
  split
  · exact .single (.of_out_plain rfl rfl rfl rfl (.inr rfl))
  · split
    · exact Steps.silent (.single cleared) (.single (goLive_tick .now _))
    · split
      · split
        · exact Steps.silent (.single cleared) (.single (rewind_tick layout' now d rfl))
        · exact .single (.of_out_plain rfl rfl rfl rfl (.inr rfl))
      · split
        · exact .single (.of_out_plain rfl rfl rfl rfl (.inr rfl))
        · exact .single cleared

/-- A new delay for a dump under way changes neither its sound nor what it waits for. -/
theorem setDumpDelay_tick {d : ℕ} {p : Pending} (changed : e.out.pending.withDumpDelay d = some p) :
    Tick now e (e.setDumpDelay d p) [] := by
  refine .still ⟨fun _ => id, rfl, fun muted => .inl ?_, fun a waits => .inl ⟨?_, Nat.le_refl _⟩, fun _ => id,
    fun _ held => .same held⟩ (Nat.le_refl _) rfl
  · rw [← muted]
    rcases withDumpDelay_cases changed with
      ⟨_, _, before, rfl⟩ | ⟨_, _, before, rfl⟩ | ⟨_, _, _, _, before, rfl⟩ | ⟨m, before, -, rfl⟩ <;>
      (rw [Engine.muting, before]; rfl)
  · rw [← waits]
    rcases withDumpDelay_cases changed with
      ⟨_, _, before, rfl⟩ | ⟨_, _, before, rfl⟩ | ⟨_, _, _, _, before, rfl⟩ | ⟨m, before, -, rfl⟩ <;>
      (rw [anchor?, before]; rfl)

private theorem setDelay_ticks (sound : e.Sound) (anchored : e.Anchored) (now ms : ℕ) (mode : DelayMode) :
    Ticks now e (e.setDelay now ms mode) [] := by
  obtain ⟨layout, coherent⟩ := sound
  unfold setDelay
  dsimp only
  split
  · next p changed =>
    split at changed
    · obtain ⟨holding, pending⟩ := withDumpDelay_holding changed
      have moved := withPending_coherent coherent holding pending
      exact ticks_then_run (setDumpDelay_tick changed) ⟨layout.of_out layout.cursor layout.mark,
        coherent_down moved ⟨rfl, rfl, rfl, rfl⟩ id (.inl rfl) (.inl rfl)⟩ anchored
    · contradiction
  · split
    · exact .refl e
    · have ticks := changeDelay_ticks layout now (ms * MS) (e.effectiveMode mode)
      exact Steps.silent ticks (runPending_ticks now
        ⟨(changeDelay_inPlace layout now _ _).layout layout, changeDelay_coherent layout coherent now _ _⟩
        (Ticks.anchored ticks anchored))

/-! ## Dumps -/

theorem dropBuffer_clock (e : Engine) : e.dropBuffer.out.clock = e.out.clock.seek e.nextSeq := by
  rw [dropBuffer_out]
  rfl

/-- A dump leaves the output waiting for a keyframe, or lands on one; where the cursor was before makes
no difference. -/
theorem dump_tick {before : Engine} {cursor now : ℕ} (sound : e.Sound) (timed : Timed now e)
    (allowed : e.canDump = true) (kept : Kept now before e)
    (same : e.out.clock = { before.out.clock with nextSeq := cursor }) (mode : DelayMode) (cover : Bool) :
    Tick now before (e.dump now mode cover).1 [] := by
  have layout := dump_layout sound.layout now mode cover
  have seek : e.out.clock.seek e.nextSeq = before.out.clock.seek e.nextSeq := by
    rw [same]
    rfl
  have dropped : (e.retarget e.dumpDelay).dropBuffer.out.clock = before.out.clock.seek e.nextSeq :=
    (dropBuffer_clock _).trans seek
  rcases e.dump_cases now mode cover with
    ⟨-, same'⟩ | ⟨-, -, same'⟩ | ⟨up, running, k, from_, same'⟩ | ⟨-, -, same'⟩
  · rw [same']
    exact .seeks (kept.trans (.of_pending (by simp) (by simp) (by simp) (by simp) (by simp)
      (fun _ => dropBuffer_frames) (.inl (by simp)))) _ ((dropBuffer_clock e).trans seek)
  · rw [same']
    refine .seeks (kept.trans (.of_plain ?_ ?_ rfl rfl (fun _ => dropBuffer_frames) fun h held => ?_)) _
      ((dropBuffer_clock e).trans seek)
    · simp [(setPending_onlyOut _ _).ring]
    · simp [(setPending_onlyOut _ _).received]
    · contradiction
  · have positive : 0 < e.dumpDelay := Nat.lt_of_lt_of_le (by decide) (canDump_running allowed up running)
    obtain ⟨x, sync, -, found⟩ := replayFrom_entry (e := e.retarget e.dumpDelay)
      (sound.layout.of_out sound.layout.cursor sound.layout.mark) (timed.of_ring fun _ => id)
      (dumpEnding_false.mp running).1 positive from_
    rw [same'] at layout ⊢
    obtain ⟨ring, received, -⟩ := replayAt_ring now e.dumpDelay k (e.retarget e.dumpDelay)
    have cut := cutOff_layout (e := e.retarget e.dumpDelay)
      (sound.layout.of_out sound.layout.cursor sound.layout.mark) (dumpEnding_false.mp running).1
    have pended := (setPending_inPlace cut (.replay (e.retarget e.dumpDelay).cut e.dumpDelay)).layout cut
    obtain ⟨base, fits, landed⟩ := spliceTo_clock pended (now - Engine.arrivalOr _ k now) found
    have start : Output.clock (((e.retarget e.dumpDelay).truncate (e.retarget e.dumpDelay).cut).splitSession
        (e.retarget e.dumpDelay).cut |>.setPending (.replay (e.retarget e.dumpDelay).cut e.dumpDelay)).out =
        { before.out.clock with nextSeq := cursor } := by
      rw [← same, setPending_out, splitSession_out]
      rfl
    rw [start] at fits landed
    have member := (pended.entry_iff.mp found).1
    rw [(setPending_onlyOut _ _).ring, splitSession_ring, ← ring] at member
    refine .lands (kept.trans (.of_plain (fun y held => ?_) received ?_ ?_ (fun f lasts => ?_) fun h held => ?_))
      layout x base member sync (by rwa [replayAt, (spliceTo_onlyOut _ _ _).frameMs]) landed
    · rw [ring] at held
      exact ((truncate_mem sound.layout (Nat.le_max_right _ _)).mp held).1
    · unfold replayAt
      simp [Engine.muting]
    · unfold replayAt
      simp [anchor?]
    · rw [FrameOf, replayAt, (spliceTo_onlyOut _ _ _).sessions] at lasts
      exact splitSession_frames (e := (e.retarget e.dumpDelay).truncate (e.retarget e.dumpDelay).cut) lasts
    · rw [(replayAt_ring now e.dumpDelay k (e.retarget e.dumpDelay)).2.2] at held
      contradiction
  · rw [same', holdInstead_eq]
    refine .seeks (kept.trans ⟨by simp, by simp [retarget], fun _ => .inr (by simp), fun a waits => ?_,
      fun _ => dropBuffer_frames, fun h held => airedKeyframe_holds held⟩) e.nextSeq dropped
    cases cover <;> simp [anchor?] at waits

/-- An accepted dump, of an output whose cursor may have gone back before it. -/
theorem dumpCommand_ticks {before : Engine} {cursor now : ℕ} (sound : e.Sound) (timed : Timed now e)
    (allowed : e.canDump = true) (kept : Kept now before e) (anchored : before.Anchored)
    (same : e.out.clock = { before.out.clock with nextSeq := cursor }) (mode : DelayMode) (cover : Bool) :
    Ticks now before (e.command now (.dump mode cover)).1 [] := by
  have cleared := clearNotices_inPlace sound.layout (.dump mode cover)
  have sound' : (e.clearNotices (.dump mode cover)).Sound :=
    ⟨cleared.layout sound.layout, clearNotices_coherent sound.coherent _⟩
  have allowed' : (e.clearNotices (.dump mode cover)).canDump = true := allowed
  have tick := dump_tick (e := e.clearNotices (.dump mode cover)) sound' (timed.of_ring fun _ => id)
    allowed' (kept.trans (.of_out cleared.only rfl (.inl rfl))) same mode cover
  have obeyed : (e.command now (.dump mode cover)).1 =
      ((e.clearNotices (.dump mode cover)).dump now mode cover).1.runPending now := by
    show ((e.clearNotices (.dump mode cover)).obey now (.dump mode cover)).1 = _
    rw [obey, if_pos allowed']
  rw [obeyed]
  exact ticks_then_run tick ⟨dump_layout sound'.layout now mode cover,
    dump_coherent sound'.coherent now mode cover⟩ anchored

private theorem command_ticks {now : ℕ} (sound : e.Sound) (timed : Timed now e) (anchored : e.Anchored)
    (cmd : Command) : Ticks now e (e.command now cmd).1 [] := by
  have cleared := clearNotices_inPlace sound.layout cmd
  have tick : Tick now e (e.clearNotices cmd) [] := by
    cases cmd <;> exact .of_out rfl rfl rfl (.inl rfl)
  have sound' : (e.clearNotices cmd).Sound :=
    ⟨cleared.layout sound.layout, clearNotices_coherent sound.coherent _⟩
  have anchored' := tick.anchored anchored
  unfold command
  split
  · exact .refl e
  · refine Steps.silent (.single tick) ?_
    cases cmd with
    | setDelay ms mode => exact setDelay_ticks sound' anchored' now ms mode
    | goLive when_ =>
      exact ticks_then_run (goLive_tick when_ _)
        ⟨(goLive_inPlace sound'.layout when_).layout sound'.layout, goLive_coherent sound'.coherent when_⟩
        anchored'
    | cancel =>
      have ticks : Ticks now _ _ [] := cancel_ticks (e.clearNotices .cancel)
      exact Steps.silent ticks (runPending_ticks now
        ⟨(cancel_inPlace sound'.layout).layout sound'.layout, cancel_coherent sound'.coherent⟩
        (Ticks.anchored ticks anchored'))
    | slateShown change =>
      exact ticks_then_run (slateShown_tick now change _)
        ⟨(slateShown_inPlace sound'.layout now change).layout sound'.layout,
          slateShown_coherent sound'.coherent now change⟩ anchored'
    | dump mode cover =>
      unfold obey
      dsimp only
      split
      · next allowed =>
        exact ticks_then_run (dump_tick sound' (timed.of_ring fun _ => id) allowed (.refl now _) rfl mode cover)
          ⟨dump_layout sound'.layout now mode cover, dump_coherent sound'.coherent now mode cover⟩
          anchored'
      · exact .refl _

/-! ## The buffer and the connection -/

private theorem memoryShort_tick (now : ℕ) (e : Engine) : Tick now e (e.memoryShort now) [] := by
  unfold memoryShort
  split
  · exact .of_out rfl rfl rfl (.inl rfl)
  · dsimp only
    split
    · exact .of_out rfl rfl rfl (.inl rfl)
    · split
      · exact .of_out_plain rfl rfl rfl rfl (.inr rfl)
      · exact .of_out rfl rfl rfl (.inl rfl)

theorem evict_ticks (layout : e.Layout) (now : ℕ) : Ticks now e (e.evict now) [] := by
  obtain ⟨n, mid, trimmed, same⟩ := evict_trimmed layout now
  have tick : Tick now e mid [] :=
    .still (.of_pending (fun _ => trimmed.mem) trimmed.received trimmed.next (by rw [trimmed.config])
      (by rw [trimmed.out]) trimmed.frames (.inl (by rw [trimmed.out]))) (Nat.le_of_eq trimmed.next.symm)
      (by rw [trimmed.out])
  rcases same with same | same
  · rw [same]
    exact .single tick
  · rw [same]
    exact Steps.silent (.single tick) (.single (memoryShort_tick now mid))

/-- A message taken in goes to the end of the buffer. -/
theorem append_tick (layout : e.Layout) {session : Session} (current : e.sessions.getLast? = some session)
    (kind : Kind) (ts : ℕ) (payload : Flv.Bytes) : Tick now e (e.append now kind ts payload session) [] := by
  obtain ⟨shifts, frames⟩ := append_times current now kind ts payload
  have shift (x : Entry) (id : x.id = e.received)
      (ring : (e.append now kind ts payload session).ring = e.ring ++ [x]) : Flv.Shift x.cts := by
    rcases shifts x (by rw [ring]; simp) with older | shift
    · exact absurd id (Nat.ne_of_lt (layout.fresh x older))
    · exact shift
  revert frames shift
  unfold append
  dsimp only
  split <;>
    exact fun frames shift => .receives layout _ rfl rfl rfl rfl rfl rfl rfl (shift _ rfl rfl) frames

private theorem ingest_ticks (layout : e.Layout) (now : ℕ) (kind : Kind) (ts : ℕ) (payload : Flv.Bytes) :
    Ticks now e (e.ingest now kind ts payload) [] := by
  rcases e.ingest_cases now kind ts payload with same | ⟨session, current, -, same⟩
  · rw [same]
    exact .refl e
  · rw [same]
    exact Steps.silent (.single (append_tick layout current kind ts payload))
      (evict_ticks (append_layout layout now kind ts payload session) now)

private theorem ingestStart_tick (now : ℕ) (e : Engine) : Tick now e (e.ingestStart now) [] := by
  have shrinks := e.ingestStart_shrinks now
  have out := e.ingestStart_out now
  have next : (e.ingestStart now).nextSeq = e.nextSeq := by
    unfold ingestStart
    dsimp only [countSessions]
    rw [(popIdleSession_ring _).2.2.2.1]
    split
    · rfl
    · exact e.dropBuffer_nextSeq
  have kept (pending : (e.ingestStart now).out.pending = e.out.pending)
      (hold : (e.ingestStart now).out.hold = e.out.hold) : Kept now e (e.ingestStart now) :=
    .of_pending shrinks.ring shrinks.received next (by rw [ingestStart_config]) pending
      (fun _ => ingestStart_frames) (.inl hold)
  cases started : e.out.started with
  | true =>
    rw [started, if_pos rfl] at out
    exact .still (kept (by rw [out]) (by rw [out])) (Nat.le_of_eq next.symm) (by rw [out])
  | false =>
    rw [started, if_neg (by simp)] at out
    exact .seeks (kept (by rw [out, dropBuffer_out]) (by rw [out, dropBuffer_out])) e.nextSeq
      (by rw [out, dropBuffer_clock])

private theorem backToTarget_tick (e : Engine) : Tick now e e.backToTarget [] := by
  rcases e.backToTarget_cases with same | ⟨-, -, same⟩
  · rw [same]
    exact .of_out rfl rfl rfl (.inl rfl)
  · rw [same]
    split <;> exact .of_out_plain rfl rfl rfl rfl (.inr rfl)

/-- Restarting from a keyframe is landing on it, whether the output waited for one or not. -/
theorem restartFrom_ticks {waits : Engine} (layout : e.Layout) {k : ℕ} (member : k ∈ e.syncs)
    (only : OnlyOut waits e) (pending : e.out.pending = waits.out.pending) (hold : e.out.hold = waits.out.hold)
    (same : waits.out.clock = { e.out.clock with needSync := true }) (now : ℕ) :
    Ticks now waits (e.restartFrom now k) [] := by
  obtain ⟨x, found, buffered, sync, -⟩ := layout.sync_entry member
  let delay := max e.out.delay (now - e.arrivalOr k now)
  have grown : InPlace e (e.noteGrowth delay) := out_inPlace layout rfl rfl rfl
  have layout' := grown.layout layout
  have spliced := spliceTo_inPlace layout' k delay
  obtain ⟨base, fits, landed⟩ := spliceTo_clock layout' (x := x) delay found
  have only' := only.trans (grown.only.trans spliced.only)
  have held : (Engine.spliceTo k delay (e.noteGrowth delay)).out.hold = waits.out.hold := by
    rw [spliceTo_hold]
    exact hold
  refine Steps.silent (.single (.lands (.of_out only' ?_ (.inl held)) (spliced.layout layout') x base ?_ sync ?_ ?_))
    (.single (backUnderMax_tick _))
  · rw [spliceTo_pending]
    exact pending
  · rwa [only'.ring, ← only.ring]
  · rw [same, spliced.only.frameMs]
    exact fits
  · rw [landed, same]
    rfl

/-- A new connection waits for a keyframe, unless it lands on one at once. -/
theorem outputConnected_ticks (sound : e.Sound) (now : ℕ) :
    ∃ waits, Kept now e waits ∧ waits.out.clock = e.out.clock.connect ∧
      Ticks now waits (e.outputConnected now) [] := by
  obtain ⟨layout, coherent⟩ := sound
  have fresh := freshConnection_inPlace layout now
  let waits : Engine :=
    { e.freshConnection now with out := { (e.freshConnection now).out with needSync := true } }
  have kept : Kept now e waits :=
    ⟨fun _ => id, rfl, .inl, fun _ waits => .inl ⟨waits, Nat.le_refl _⟩, fun _ => id, fun h held => by
      obtain ⟨g, there, rfl⟩ := Option.map_eq_some_iff.mp held
      exact ⟨.inr ⟨g, there, rfl⟩, .inl ⟨g, there, rfl, rfl⟩⟩⟩
  refine ⟨waits, kept, rfl, ?_⟩
  unfold outputConnected
  dsimp only
  split
  · exact .refl waits
  · split
    · unfold reconnect
      split
      · exact .refl waits
      · next k found =>
        have restarted := restartFrom_ticks (fresh.layout layout) (newestSync_mem found).1
          (show OnlyOut waits (e.freshConnection now) from rfl) rfl rfl rfl now
        dsimp only
        split
        · exact Steps.silent restarted (.single (backToTarget_tick _))
        · exact restarted
    · next idle =>
      have needs := (coherent.idle (by simpa [freshConnection] using idle)).2
      refine .single (.of_out rfl rfl ?_ (.inl rfl))
      show Output.clock { (e.freshConnection now).out with needSync := e.out.needSync } = _
      rw [needs]

private theorem outputDisconnected_tick (now : ℕ) (lastWritten : Option ℕ) (e : Engine) :
    Tick now e (e.outputDisconnected now lastWritten) [] := by
  obtain ⟨seq, resumed, -⟩ :=
    resumeAfter_eq lastWritten { e with out := { e.out with connected := false } }
  unfold outputDisconnected
  rw [resumed]
  exact .drops (.of_out rfl rfl (.inl rfl)) rfl ⟨rfl, rfl, rfl, rfl, rfl, rfl⟩

/-- Taking output back moves the cursor to where it resumes, and nothing else of the clock. -/
theorem unsend_clock (now : ℕ) (taken : Option ℕ) (e : Engine) :
    ∃ cursor, (e.unsend taken).out.clock = { e.out.clock with nextSeq := cursor } ∧
      Kept now e (e.unsend taken) := by
  obtain ⟨seq, headers, metadata, same⟩ := e.unsend_eq taken
  rw [same]
  exact ⟨seq, rfl, .of_out rfl rfl (.inl rfl)⟩

private theorem refuseDump_tick (taken : Option ℕ) (e : Engine) : Tick now e (e.refuseDump taken) [] := by
  unfold refuseDump
  dsimp only
  split
  · exact .seeks (.of_out rfl rfl (.inl rfl)) e.out.nextSeq rfl
  · exact .of_out rfl rfl rfl (.inl rfl)

private theorem dumpAfter_ticks {now : ℕ} (sound : e.Sound) (timed : Timed now e) (anchored : e.Anchored)
    (taken : Option ℕ) (mode : DelayMode) (cover : Bool) :
    Ticks now e (e.dumpAfter now taken mode cover).1 [] := by
  unfold dumpAfter
  split
  · next allowed =>
    obtain ⟨cursor, same, kept⟩ := e.unsend_clock now taken
    exact dumpCommand_ticks
      ⟨(unsend_inPlace sound.layout taken).layout sound.layout, unsend_coherent sound.coherent taken⟩
      (timed.of_ring kept.ring) (by rwa [unsend_canDump]) kept anchored same mode cover
  · split
    · exact .refl e
    · exact .single (refuseDump_tick taken e)

private theorem outputReset_tick (e : Engine) : Tick now e e.outputReset [] :=
  .drops (.of_out_plain rfl rfl rfl (.inr rfl)) rfl ⟨rfl, rfl, rfl, rfl, rfl, rfl⟩

/-- Every operation but taking output back, and a new connection, is a few ticks of the output's clock. -/
theorem step_ticks {t : ℕ} (sound : e.Sound) (timed : Timed t e) (anchored : e.Anchored) {op : Op}
    (flows : op.flows = true) (le : t ≤ op.now?.getD t) :
    Ticks (op.now?.getD t) e (e.step op).1 (e.step op).2 := by
  cases op with
  | ingestStart now => exact .single (ingestStart_tick now e)
  | ingestEnd =>
    exact .single
      (.still (.of_pending (fun _ => id) rfl rfl rfl rfl (fun _ => id) (.inl rfl)) (Nat.le_refl _) rfl)
  | setKeepHistory | setRestoreAfterReconnect =>
    exact .single (.still (.of_pending (fun _ => id) rfl rfl rfl rfl (fun _ => id) (.inl rfl)) (Nat.le_refl _) rfl)
  | ingestMetadata now payload =>
    obtain ⟨sessions, bytes, same⟩ := e.ingestMetadata_eq now payload
    have frames (f : ℕ) (lasts : (e.ingestMetadata now payload).FrameOf f) : e.FrameOf f :=
      ingestMetadata_frames lasts
    dsimp only [step]
    rw [same] at frames ⊢
    exact .single (.still (.of_pending (fun _ => id) rfl rfl rfl rfl frames (.inl rfl)) (Nat.le_refl _) rfl)
  | ingest now kind ts payload => exact ingest_ticks sound.layout now kind ts payload
  | outputDisconnected now lastWritten => exact .single (outputDisconnected_tick now lastWritten e)
  | unsend | outputConnected => contradiction
  | dumpAfter now taken mode cover =>
    exact dumpAfter_ticks sound (timed.later le) anchored taken mode cover
  | outputReset => exact .single e.outputReset_tick
  | discard =>
    refine .single (.drops (.of_plain (by simp [step, discard, outputReset]) ?_ rfl rfl
      (fun _ => dropBuffer_frames) fun _ held => absurd held.symm (Option.some_ne_none _)) rfl ?_)
    · exact e.dropBuffer_received
    · simp only [step, discard, outputReset, dropBuffer_out]
      exact ⟨rfl, rfl, rfl, rfl, rfl, rfl⟩
  | endAfter =>
    dsimp only [step]
    cases e.lastSeq with
    | none => exact .refl e
    | some => exact .single (.of_out rfl rfl rfl (.inl rfl))
  | cancelEnd => exact .single (.of_out rfl rfl rfl (.inl rfl))
  | restartAfterEnd =>
    have shrinks := restartAfterEnd_shrinks sound.layout
    have trimmed := dropBefore_trimmed sound.layout (e.out.endMark.elim e.nextSeq (· + 1))
    refine .single (.drops (.of_plain shrinks.ring shrinks.received rfl rfl trimmed.frames
      fun _ held => absurd held.symm (Option.some_ne_none _)) rfl ?_)
    simp only [step, restartAfterEnd, outputReset, trimmed.out]
    exact ⟨rfl, rfl, rfl, rfl, rfl, rfl⟩
  | command now cmd => exact command_ticks sound (timed.later le) anchored cmd
  | pollBudget now maxBytes =>
    have evicted := evict_layout sound.layout now
    have ticks := evict_ticks sound.layout now
    exact Steps.silent ticks (Moves.ticks (pollBudget_moves evicted maxBytes)
      ⟨evicted, evict_coherent sound.layout sound.coherent now⟩ (Ticks.anchored ticks anchored))

/-- What a mask waits for is a keyframe after every operation. -/
theorem step_anchored {t : ℕ} (sound : e.Sound) (timed : Timed t e) (anchored : e.Anchored) (op : Op)
    (le : t ≤ op.now?.getD t) : (e.step op).1.Anchored := by
  cases flows : op.flows with
  | true => exact Ticks.anchored (step_ticks sound timed anchored flows le) anchored
  | false =>
    cases op with
    | unsend taken =>
      obtain ⟨-, -, kept⟩ := e.unsend_clock t taken
      exact kept.anchored anchored
    | outputConnected now =>
      obtain ⟨waits, kept, -, ticks⟩ := outputConnected_ticks sound now
      exact Ticks.anchored ticks (kept.anchored anchored)
    | _ => contradiction

end Engine

end StreamDelay
