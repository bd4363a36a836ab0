import Mathlib.Tactic.Common
import StreamDelay.Proofs.Moves

/-! # The layout of the buffer, over every operation -/

namespace StreamDelay

open Flv (Bytes)
open Foundations

namespace Engine

/-- A message the engine can still show: it is buffered, or a hold shows it. -/
def Retains (e : Engine) (x : Entry) : Prop :=
  x ∈ e.ring ∨ ∃ h, e.out.hold = some h ∧ h.entry = x

/-- The output changed in place: the buffer and the end mark are the same, the cursor is within what
was received, and nothing is shown that was not there. -/
structure InPlace (e e' : Engine) : Prop where
  only : OnlyOut e e'
  cursor : e'.out.nextSeq ≤ e.nextSeq
  mark : e'.out.endMark = e.out.endMark
  retains : ∀ x, e'.Retains x → e.Retains x

namespace InPlace

variable {e mid e' : Engine}

theorem refl (layout : e.Layout) : InPlace e e := ⟨.refl e, layout.cursor, rfl, fun _ => id⟩

theorem trans (first : InPlace e mid) (second : InPlace mid e') : InPlace e e' where
  only := first.only.trans second.only
  cursor := by
    rw [← first.only.nextSeq]
    exact second.cursor
  mark := second.mark.trans first.mark
  retains := fun x held => first.retains x (second.retains x held)

/-- The frame of a hold is the same, or gone. -/
theorem of_hold (only : OnlyOut e e') (cursor : e'.out.nextSeq ≤ e.nextSeq)
    (mark : e'.out.endMark = e.out.endMark)
    (hold : e'.out.hold = e.out.hold ∨ e'.out.hold = none) : InPlace e e' where
  only := only
  cursor := cursor
  mark := mark
  retains := by
    rintro x (buffered | ⟨h, frame, rfl⟩)
    · rw [only.ring] at buffered
      exact .inl buffered
    · rcases hold with same | none
      · rw [same] at frame
        exact .inr ⟨h, frame, rfl⟩
      · rw [none] at frame
        contradiction

theorem layout (change : InPlace e e') (layout : e.Layout) : e'.Layout := by
  refine change.only.layout layout change.cursor fun m mark => layout.mark m ?_
  rwa [← change.mark]

end InPlace

/-! ## Moves -/

section Moves

variable {e e' : Engine} {now : ℕ} {out : List Sent}

theorem airedKeyframe_mem {h : HoldFrame} (frame : e.airedKeyframe now = some h) :
    h.entry ∈ e.ring := by
  obtain ⟨k, -, frame⟩ := Option.bind_eq_some_iff.mp frame
  obtain ⟨x, found, frame⟩ := Option.bind_eq_some_iff.mp frame
  split at frame
  · obtain rfl := Option.some.inj frame
    unfold entry at found
    split at found
    · contradiction
    · exact List.mem_of_getElem? found
  · contradiction

/-- A move shows nothing that was not there: a hold's frame stays, goes, or is a buffered keyframe. -/
theorem Move.retains (move : Move now e e' out) (x : Entry) (held : e'.Retains x) : e.Retains x := by
  have only := move.onlyOut
  rcases held with buffered | ⟨h, frame, rfl⟩
  · rw [only.ring] at buffered
    exact .inl buffered
  · cases move with
    | liveSplice | reduceSplice | replayDone => exact .inr ⟨h, by simpa using frame, rfl⟩
    | maskDone | maskGone => simp [Pending.isHold] at frame
    | coverLost => exact .inr ⟨h, by simpa [Pending.isHold] using frame, rfl⟩
    | covered _ _ spliced | holdDone _ _ _ spliced =>
      subst spliced
      simp [endHold_out] at frame
    | holdEnded => simp at frame
    | heldFrame _ _ shown _ =>
      rw [(showFrame_course e now _).hold] at frame
      obtain rfl := Option.some.inj frame
      exact .inr ⟨_, shown, rfl⟩
    | replayHeld => exact .inl (airedKeyframe_mem frame)
    | started =>
      exact .inr ⟨h, startAt_hold frame, rfl⟩
    | sent =>
      rw [(sendEntry_course e).hold] at frame
      exact .inr ⟨h, frame, rfl⟩
    | liveEdge | airedMark | reduceDone | unconfirmed | anchored | caughtUp | newSession
    | sessionSkipped | markSkipped | silenced => exact .inr ⟨h, frame, rfl⟩

/-- A move shows only what is there. -/
theorem Move.shows (move : Move now e e' out) {s : Sent} (member : s ∈ out) {x : Entry}
    (shows : s.content? = some x) : e.Retains x := by
  cases move with
  | heldFrame _ _ shown _ =>
    rcases showFrame_sent member with ⟨none, -⟩ | ⟨origin, -⟩
    · rw [none] at shows
      contradiction
    · simp only [Sent.content?, origin, Option.some.injEq] at shows
      exact .inr ⟨_, shown, shows⟩
  | sent _ _ _ _ found =>
    rcases (sendEntry_sent found member).1 with ⟨none, -⟩ | ⟨origin, -⟩
    · rw [none] at shows
      contradiction
    · simp only [Sent.content?, origin, Option.some.injEq] at shows
      subst shows
      refine .inl ?_
      unfold entry at found
      split at found
      · contradiction
      · exact List.mem_of_getElem? found
  | liveSplice | liveEdge | airedMark | reduceDone | reduceSplice | unconfirmed | anchored
  | maskGone | maskDone | coverLost | covered | holdEnded | holdDone | replayDone | replayHeld
  | caughtUp | newSession | sessionSkipped | markSkipped | started | silenced => contradiction

theorem Moves.retains (moves : Moves now e e' out) (x : Entry) (held : e'.Retains x) :
    e.Retains x :=
  Steps.relates (T := fun e e' => e'.Retains x → e.Retains x) (fun _ => id)
    (fun _ _ _ first second held => first (second held)) (fun _ _ _ move => move.retains x) moves held

theorem Moves.shows (moves : Moves now e e' out) {s : Sent} (member : s ∈ out) {x : Entry}
    (shows : s.content? = some x) : e.Retains x :=
  Steps.emits (P := fun mid => ∀ x, mid.Retains x → e.Retains x)
    (Q := fun s => ∀ x, s.content? = some x → e.Retains x)
    (fun _ _ _ move kept x held => kept x (move.retains x held))
    (fun _ _ _ move kept _ member x shows => kept x (move.shows member shows))
    moves (fun _ => id) s member x shows

theorem Moves.inPlace (moves : Moves now e e' out) (layout : e.Layout) : InPlace e e' where
  only := moves.onlyOut
  cursor := by
    rw [← (Moves.onlyOut moves).nextSeq]
    exact (Moves.layout moves layout).cursor
  mark := moves.endMark
  retains := moves.retains

end Moves

/-! ## Changes that commands and connections make -/

section Changes

variable {e : Engine}

theorem spliceTo_inPlace (layout : e.Layout) (k delay : ℕ) : InPlace e (e.spliceTo k delay) :=
  .of_hold (spliceTo_onlyOut k delay e) (spliceTo_cursor layout k delay) (spliceTo_endMark k delay e)
    (.inl (spliceTo_hold k delay e))

theorem setPending_inPlace (layout : e.Layout) (p : Pending) : InPlace e (e.setPending p) := by
  refine .of_hold rfl layout.cursor rfl ?_
  cases held : p.isHold <;> simp [held]

/-- The output changed, but not the cursor, the end mark or the frame of a hold. -/
theorem out_inPlace (layout : e.Layout) {out : Output} (cursor : out.nextSeq = e.out.nextSeq)
    (mark : out.endMark = e.out.endMark) (hold : out.hold = e.out.hold) :
    InPlace e { e with out := out } :=
  .of_hold rfl (by rw [cursor]; exact layout.cursor) mark (.inl hold)

theorem runPending_inPlace (layout : e.Layout) (now : ℕ) : InPlace e (e.runPending now) :=
  Moves.inPlace (runPending_moves now e) layout

theorem backUnderMax_inPlace (layout : e.Layout) : InPlace e e.backUnderMax := by
  rcases e.backUnderMax_out with same | ⟨-, -, same⟩
  · rw [same]
    exact .refl layout
  · rw [same]
    exact .of_hold rfl layout.cursor rfl (.inr rfl)

private theorem backToTarget_inPlace (layout : e.Layout) : InPlace e e.backToTarget := by
  rcases e.backToTarget_cases with same | ⟨-, -, same⟩
  · rw [same]
    exact .refl layout
  · rw [same]
    exact setPending_inPlace layout _

private theorem restartFrom_inPlace (layout : e.Layout) (now k : ℕ) : InPlace e (e.restartFrom now k) := by
  have grown : InPlace e (e.noteGrowth (max e.out.delay (now - e.arrivalOr k now))) :=
    out_inPlace layout rfl rfl rfl
  have spliced := grown.trans (spliceTo_inPlace (grown.layout layout) k
    (max e.out.delay (now - e.arrivalOr k now)))
  exact spliced.trans (backUnderMax_inPlace (spliced.layout layout))

private theorem reconnect_inPlace (layout : e.Layout) (now : ℕ) : InPlace e (e.reconnect now) := by
  unfold reconnect
  split
  · exact out_inPlace layout rfl rfl rfl
  · next k found =>
    have restarted := restartFrom_inPlace layout now k
    dsimp only
    split
    · exact restarted.trans (backToTarget_inPlace (restarted.layout layout))
    · exact restarted

theorem freshConnection_inPlace (layout : e.Layout) (now : ℕ) :
    InPlace e (e.freshConnection now) where
  only := rfl
  cursor := layout.cursor
  mark := rfl
  retains := by
    rintro x (buffered | ⟨h, frame, rfl⟩)
    · exact .inl buffered
    · obtain ⟨h, held, rfl⟩ := Option.map_eq_some_iff.mp frame
      exact .inr ⟨h, held, rfl⟩

theorem outputConnected_inPlace (layout : e.Layout) (now : ℕ) :
    InPlace e (e.outputConnected now) := by
  have fresh : InPlace e (e.freshConnection now) := freshConnection_inPlace layout now
  unfold outputConnected
  dsimp only
  split
  · exact fresh.trans (out_inPlace (fresh.layout layout) rfl rfl rfl)
  · split
    · exact fresh.trans (reconnect_inPlace (fresh.layout layout) now)
    · exact fresh

theorem resumeAfter_inPlace (layout : e.Layout) (last : Option ℕ) :
    InPlace e (e.resumeAfter last) := by
  unfold resumeAfter
  split
  · exact .refl layout
  · exact .of_hold rfl (Nat.le_trans (Nat.min_le_left _ _) layout.cursor) rfl (.inl rfl)

theorem unsend_inPlace (layout : e.Layout) (taken : Option ℕ) : InPlace e (e.unsend taken) := by
  unfold unsend
  split
  · exact .refl layout
  · have resumed := resumeAfter_inPlace layout taken
    exact resumed.trans (out_inPlace (resumed.layout layout) rfl rfl rfl)

theorem outputDisconnected_inPlace (layout : e.Layout) (now : ℕ) (lastWritten : Option ℕ) :
    InPlace e (e.outputDisconnected now lastWritten) := by
  have down : InPlace e { e with out := { e.out with connected := false } } := out_inPlace layout rfl rfl rfl
  exact down.trans (resumeAfter_inPlace (down.layout layout) lastWritten)

theorem refuseDump_inPlace (layout : e.Layout) (taken : Option ℕ) : InPlace e (e.refuseDump taken) := by
  unfold refuseDump
  dsimp only
  split
  · exact out_inPlace layout rfl rfl rfl
  · exact out_inPlace layout rfl rfl rfl

theorem rewindTo_inPlace (layout : e.Layout) (now d k : ℕ) (known : Bool) :
    InPlace e (e.rewindTo now d k known) := by
  unfold rewindTo
  dsimp only
  split
  · have spliced := spliceTo_inPlace layout k (now - e.arrivalOr k now)
    split
    · exact spliced.trans (setPending_inPlace (spliced.layout layout) _)
    · exact spliced
  · exact .refl layout

private theorem rewind_inPlace (layout : e.Layout) (now d : ℕ) : InPlace e (e.rewind now d) := by
  have short : InPlace e (e.noteShort now) := out_inPlace layout rfl rfl rfl
  unfold rewind
  split
  · exact rewindTo_inPlace layout now d _ true
  · split
    · exact short
    · exact short.trans (rewindTo_inPlace (short.layout layout) now d _ false)

theorem goLive_inPlace (layout : e.Layout) (when_ : GoLiveWhen) : InPlace e (e.goLive when_) := by
  unfold goLive
  dsimp only
  split
  · exact .of_hold rfl layout.cursor rfl (.inr rfl)
  · cases when_ <;> exact .of_hold rfl layout.cursor rfl (.inr rfl)

theorem cancel_inPlace (layout : e.Layout) : InPlace e e.cancel := by
  unfold cancel
  split
  · exact .refl layout
  · dsimp only
    split
    · have change : InPlace e
          { e.setPending .none with
            out :=
              { (e.setPending .none).out with
                target :=
                  if min e.out.delay (e.config.maxDelayMs * MS) < 500 * MS then 0
                  else min e.out.delay (e.config.maxDelayMs * MS) } } := .of_hold rfl layout.cursor rfl (.inr rfl)
      exact change.trans (backUnderMax_inPlace (change.layout layout))
    · exact .of_hold rfl layout.cursor rfl (.inr rfl)

theorem slateShown_inPlace (layout : e.Layout) (now change : ℕ) :
    InPlace e (e.slateShown now change) := by
  unfold slateShown
  split
  · exact .refl layout
  · split
    · split
      · exact out_inPlace layout rfl rfl rfl
      · exact .refl layout
    · exact out_inPlace layout rfl rfl rfl
    · exact .refl layout

theorem changeDelay_inPlace (layout : e.Layout) (now d : ℕ) (mode : DelayMode) :
    InPlace e (e.changeDelay now d mode) := by
  unfold changeDelay
  generalize start : (e.retarget d).setPending .none = mid
  have change : InPlace e mid := by
    rw [← start]
    exact .of_hold rfl layout.cursor rfl (.inr rfl)
  have layout := change.layout layout
  refine change.trans ?_
  dsimp only
  split
  · exact out_inPlace layout rfl rfl rfl
  · split
    · exact goLive_inPlace layout .now
    · split
      · split
        · exact rewind_inPlace layout now d
        · exact .of_hold rfl layout.cursor rfl (.inr rfl)
      · split
        · exact setPending_inPlace layout _
        · exact .refl layout

theorem setDelay_inPlace (layout : e.Layout) (now ms : ℕ) (mode : DelayMode) :
    InPlace e (e.setDelay now ms mode) := by
  unfold setDelay
  dsimp only
  split
  · next p _ =>
    have change : InPlace e (e.setDumpDelay (ms * MS) p) := out_inPlace layout rfl rfl rfl
    exact change.trans (runPending_inPlace (change.layout layout) now)
  · split
    · exact .refl layout
    · have change := changeDelay_inPlace layout now (ms * MS) (e.effectiveMode mode)
      exact change.trans (runPending_inPlace (change.layout layout) now)

end Changes

/-! ## Dumps -/

section Dumps

variable {e : Engine}

@[simp] theorem splitSession_ring (seq : ℕ) (e : Engine) : (e.splitSession seq).ring = e.ring := by
  unfold splitSession; split <;> rfl
@[simp] theorem splitSession_syncs (seq : ℕ) (e : Engine) :
    (e.splitSession seq).syncs = e.syncs := by
  unfold splitSession; split <;> rfl
@[simp] theorem splitSession_baseSeq (seq : ℕ) (e : Engine) :
    (e.splitSession seq).baseSeq = e.baseSeq := by
  unfold splitSession; split <;> rfl
@[simp] theorem splitSession_nextSeq (seq : ℕ) (e : Engine) :
    (e.splitSession seq).nextSeq = e.nextSeq := by
  unfold splitSession; split <;> rfl
@[simp] theorem splitSession_received (seq : ℕ) (e : Engine) :
    (e.splitSession seq).received = e.received := by
  unfold splitSession; split <;> rfl
@[simp] theorem splitSession_out (seq : ℕ) (e : Engine) : (e.splitSession seq).out = e.out := by
  unfold splitSession; split <;> rfl
@[simp] theorem splitSession_config (seq : ℕ) (e : Engine) :
    (e.splitSession seq).config = e.config := by
  unfold splitSession; split <;> rfl

/-- The layout depends on the ring, its numbers, what was received, the cursor and the mark. -/
theorem Layout.congr {e' : Engine} (layout : e.Layout) (ring : e'.ring = e.ring)
    (syncs : e'.syncs = e.syncs) (base : e'.baseSeq = e.baseSeq) (next : e'.nextSeq = e.nextSeq)
    (received : e'.received = e.received) (cursor : e'.out.nextSeq ≤ e.nextSeq)
    (mark : ∀ m, e'.out.endMark = some m → m < e.nextSeq) : e'.Layout where
  numbered := by rw [ring, base]; exact layout.numbered
  next := by rw [ring, base, next]; exact layout.next
  syncs := by rw [syncs, ring]; exact layout.syncs
  ids := by rw [ring]; exact layout.ids
  fresh := by rw [ring, received]; exact layout.fresh
  cursor := by rw [next]; exact cursor
  mark := by rw [next]; exact mark

/-- What a dump's replay leaves before its splice: the buffer up to the cut. -/
theorem cutOff_layout (layout : e.Layout) (noMark : e.out.endMark = none) :
    ((e.truncate e.cut).splitSession e.cut).Layout := by
  have next := layout.next
  have cursor := layout.cursor
  have cut := truncate_layout layout e.cut (Nat.le_max_right _ _)
    (by simp only [Engine.cut]; omega) (Nat.le_max_left _ _) noMark
  refine cut.congr (by simp) (by simp) (by simp) (by simp) (by simp) ?_ ?_
  · rw [splitSession_out]
    exact cut.cursor
  · rw [splitSession_out]
    exact cut.mark

private theorem replayAt_layout (layout : e.Layout) (noMark : e.out.endMark = none) (now delay k : ℕ) :
    (e.replayAt now delay k).Layout := by
  have cut := cutOff_layout layout noMark
  have pended := (setPending_inPlace cut (.replay e.cut delay)).layout cut
  exact (spliceTo_inPlace pended k _).layout pended

/-- A dump that holds, or waits for its slate, does so over an empty buffer. -/
theorem holdInstead_eq (now delay : ℕ) (cover : Bool) (e : Engine) :
    (e.holdInstead now delay cover).1 =
      { e.dropBuffer with
        out :=
          { e.dropBuffer.out with
            pending :=
              if cover then .dump delay now e.nextSeq none else .hold e.nextSeq delay
            maskVisible := cover || !e.out.pending.covers && e.out.maskVisible
            slateChange := if cover then e.out.slateChange + 1 else e.out.slateChange
            hold := e.airedKeyframe now } } := by
  unfold holdInstead
  cases cover with
  | true => simp [setPending, raiseSlate, withHold, dropBuffer_out]
  | false => cases covers : e.out.pending.covers <;> simp [setPending, withHold, covers]

private theorem holdInstead_layout (layout : e.Layout) (now delay : ℕ) (cover : Bool) :
    (e.holdInstead now delay cover).1.Layout := by
  have dropped := dropBuffer_layout layout
  rw [holdInstead_eq]
  exact dropped.of_out dropped.cursor dropped.mark

/-- What a dump does, and when. -/
theorem dump_cases (now : ℕ) (mode : DelayMode) (cover : Bool) (e : Engine) :
    e.out.started = false ∧ (e.dump now mode cover).1 = e.dropBuffer ∨
    e.out.started = true ∧ e.dumpEnding = true ∧
      (e.dump now mode cover).1 = e.dropBuffer.setPending .none ∨
    e.out.started = true ∧ e.dumpEnding = false ∧
      (∃ k, e.replayFrom now e.dumpDelay = some k ∧
        (e.dump now mode cover).1 = (e.retarget e.dumpDelay).replayAt now e.dumpDelay k) ∨
    e.out.started = true ∧ e.dumpEnding = false ∧
      (e.dump now mode cover).1 =
        ((e.retarget e.dumpDelay).holdInstead now e.dumpDelay cover).1 := by
  unfold dump
  split
  · next idle => exact .inl ⟨by simpa using idle, rfl⟩
  · next up =>
    have up : e.out.started = true := by simpa using up
    split
    · next ending => exact .inr (.inl ⟨up, ending, rfl⟩)
    · next running =>
      have running : e.dumpEnding = false := by simpa using running
      dsimp only
      split
      · next replays =>
        split at replays
        · obtain ⟨k, from_, rfl⟩ := Option.map_eq_some_iff.mp replays
          exact .inr (.inr (.inl ⟨up, running, k, from_, rfl⟩))
        · contradiction
      · exact .inr (.inr (.inr ⟨up, running, rfl⟩))

/-- During a broadcast that goes on, no end mark is set and the encoder is connected. -/
theorem dumpEnding_false : e.dumpEnding = false ↔ e.out.endMark = none ∧ e.ingestActive = true := by
  simp [dumpEnding]

theorem dump_layout (layout : e.Layout) (now : ℕ) (mode : DelayMode) (cover : Bool) :
    (e.dump now mode cover).1.Layout := by
  have dropped := dropBuffer_layout layout
  have targeted : (e.retarget e.dumpDelay).Layout := layout.of_out layout.cursor layout.mark
  rcases e.dump_cases now mode cover with
    ⟨-, same⟩ | ⟨-, -, same⟩ | ⟨-, running, k, -, same⟩ | ⟨-, -, same⟩
  · rwa [same]
  · rw [same]
    exact (setPending_inPlace dropped _).layout dropped
  · rw [same]
    exact replayAt_layout targeted (dumpEnding_false.mp running).1 now _ k
  · rw [same]
    exact holdInstead_layout targeted now _ cover

end Dumps

/-! ## Every operation -/

theorem clearNotices_inPlace {e : Engine} (layout : e.Layout) (cmd : Command) :
    InPlace e (e.clearNotices cmd) := by
  cases cmd <;> exact out_inPlace layout rfl rfl rfl

private theorem obey_layout {e : Engine} (layout : e.Layout) (now : ℕ) (cmd : Command) :
    (e.obey now cmd).1.Layout := by
  have run {e : Engine} (layout : e.Layout) : (e.runPending now).Layout :=
    (runPending_inPlace layout now).layout layout
  cases cmd with
  | setDelay ms mode => exact (setDelay_inPlace layout now ms mode).layout layout
  | goLive when_ => exact run ((goLive_inPlace layout when_).layout layout)
  | cancel => exact run ((cancel_inPlace layout).layout layout)
  | slateShown change => exact run ((slateShown_inPlace layout now change).layout layout)
  | dump mode cover =>
    unfold obey
    dsimp only
    split
    · exact run (dump_layout layout now mode cover)
    · exact layout

theorem command_layout {e : Engine} (layout : e.Layout) (now : ℕ) (cmd : Command) :
    (e.command now cmd).1.Layout := by
  unfold command
  split
  · exact layout
  · exact obey_layout ((clearNotices_inPlace layout cmd).layout layout) now cmd

theorem outputReset_layout {e : Engine} (layout : e.Layout) : e.outputReset.Layout :=
  layout.of_out (Nat.le_refl _) (by simp)

theorem dropBefore_trimmed {e : Engine} (layout : e.Layout) (seq : ℕ) :
    Trimmed (min (seq - e.baseSeq) e.ring.length) e (e.dropBefore seq) := by
  have popped := popBefore_trimmed layout seq
  unfold dropBefore
  dsimp only
  refine Trimmed.forgetHeaders ?_
  split
  · next empty =>
    -- Everything before `seq` was buffered, so the popping already moved the start there.
    have next := (popped.layout layout).next
    have none : (e.popBefore seq).ring.length = 0 := by simpa using empty
    have same : max (e.popBefore seq).baseSeq (min seq (e.popBefore seq).nextSeq) =
        (e.popBefore seq).baseSeq := by omega
    rw [same]
    exact popped
  · exact popped

private theorem restartAfterEnd_layout {e : Engine} (layout : e.Layout) : e.restartAfterEnd.Layout := by
  have bound : e.out.endMark.elim e.nextSeq (· + 1) ≤ e.nextSeq := by
    cases marked : e.out.endMark with
    | none => exact Nat.le_refl _
    | some m => exact layout.mark m marked
  have trimmed := dropBefore_trimmed layout (e.out.endMark.elim e.nextSeq (· + 1))
  have reset := outputReset_layout (trimmed.layout layout)
  refine reset.of_out (Nat.max_le.mpr ⟨?_, ?_⟩) reset.mark
  · exact Nat.le_trans bound (Nat.le_of_eq trimmed.next.symm)
  · exact Nat.le_trans (Nat.le_add_right _ _) (Nat.le_of_eq (trimmed.layout layout).next)

theorem popIdleSession_ring (e : Engine) : e.popIdleSession.ring = e.ring ∧
    e.popIdleSession.syncs = e.syncs ∧ e.popIdleSession.baseSeq = e.baseSeq ∧
    e.popIdleSession.nextSeq = e.nextSeq ∧ e.popIdleSession.received = e.received ∧
    e.popIdleSession.out = e.out := by
  unfold popIdleSession
  split
  · split <;> exact ⟨rfl, rfl, rfl, rfl, rfl, rfl⟩
  · exact ⟨rfl, rfl, rfl, rfl, rfl, rfl⟩

private theorem ingestStart_layout {e : Engine} (layout : e.Layout) (now : ℕ) :
    (e.ingestStart now).Layout := by
  unfold ingestStart
  dsimp only
  have kept : (if e.out.started then e else e.dropBuffer).Layout := by
    split
    · exact layout
    · exact dropBuffer_layout layout
  generalize (if e.out.started then e else e.dropBuffer) = e at kept
  obtain ⟨ring, syncs, base, next, received, out⟩ := e.popIdleSession_ring
  refine kept.congr ring syncs base next received ?_ ?_
  · rw [countSessions_out, out]
    exact kept.cursor
  · rw [countSessions_out, out]
    exact kept.mark

private theorem ingestMetadata_layout {e : Engine} (layout : e.Layout) (now : ℕ) (payload : Bytes) :
    (e.ingestMetadata now payload).Layout := by
  unfold ingestMetadata
  split
  · exact layout
  · split
    · exact layout
    · exact layout.congr rfl rfl rfl rfl rfl layout.cursor layout.mark

theorem append_layout {e : Engine} (layout : e.Layout) (now : ℕ) (kind : Kind) (ts : ℕ)
    (payload : Bytes) (session : Session) : (e.append now kind ts payload session).Layout := by
  have next := layout.next
  have appended : ∀ (x : Entry), x.seq = e.nextSeq → x.id = e.received →
      ∀ e' : Engine, e'.ring = e.ring ++ [x] → e'.baseSeq = e.baseSeq →
      e'.nextSeq = e.nextSeq + 1 → e'.syncs = (if x.sync then e.syncs ++ [e.nextSeq] else e.syncs) →
      e'.received = e.received + 1 → e'.out = e.out → e'.Layout := by
    intro x seq id e' ring base nextSeq syncs received out
    refine ⟨?_, ?_, ?_, ?_, ?_, ?_, ?_⟩
    · rw [ring, base]
      exact layout.numbered.concat (by omega)
    · rw [ring, base, nextSeq, List.length_append, List.length_singleton]
      omega
    · rw [syncs, ring, List.filter_append, List.map_append, ← layout.syncs]
      cases marked : x.sync <;> simp [marked, seq]
    · rw [ring, List.pairwise_append]
      refine ⟨layout.ids, List.pairwise_singleton _ _, ?_⟩
      intro y member z last
      obtain rfl := List.mem_singleton.mp last
      rw [id]
      exact layout.fresh y member
    · intro y member
      rw [ring] at member
      rw [received]
      rcases List.mem_append.mp member with older | last
      · exact Nat.lt_succ_of_lt (layout.fresh y older)
      · obtain rfl := List.mem_singleton.mp last
        omega
    · rw [out, nextSeq]
      exact Nat.le_succ_of_le layout.cursor
    · intro m mark
      rw [out] at mark
      rw [nextSeq]
      exact Nat.lt_succ_of_lt (layout.mark m mark)
  unfold append
  dsimp only
  split <;> exact appended _ rfl rfl _ rfl rfl rfl rfl rfl rfl

theorem evict_layout {e : Engine} (layout : e.Layout) (now : ℕ) : (e.evict now).Layout := by
  obtain ⟨n, mid, trimmed, same | same⟩ := evict_trimmed layout now
  · rw [same]
    exact trimmed.layout layout
  · obtain ⟨out, short, cursor, mark⟩ := memoryShort_fields now mid
    have kept := trimmed.layout layout
    rw [same, short]
    refine kept.of_out ?_ ?_
    · rw [cursor]
      exact kept.cursor
    · rw [mark]
      exact kept.mark

/-- A message is ignored, or appended and then the buffer brought within its limits. -/
theorem ingest_cases (now : ℕ) (kind : Kind) (ts : ℕ) (payload : Bytes) (e : Engine) :
    e.ingest now kind ts payload = e ∨
      ∃ session, e.sessions.getLast? = some session ∧ e.ingestActive = true ∧
        e.ingest now kind ts payload = (e.append now kind ts payload session).evict now := by
  unfold ingest
  split
  · exact .inl rfl
  · next active =>
    split
    · exact .inl rfl
    · next session last =>
      simp only [Bool.or_eq_true, Bool.not_eq_true', not_or, Bool.not_eq_false] at active
      exact .inr ⟨session, last, active.1, rfl⟩

private theorem ingest_layout {e : Engine} (layout : e.Layout) (now : ℕ) (kind : Kind) (ts : ℕ)
    (payload : Bytes) : (e.ingest now kind ts payload).Layout := by
  rcases e.ingest_cases now kind ts payload with same | ⟨session, -, -, same⟩
  · rwa [same]
  · rw [same]
    exact evict_layout (append_layout layout now kind ts payload session) now

private theorem dumpAfter_layout {e : Engine} (layout : e.Layout) (now : ℕ) (taken : Option ℕ)
    (mode : DelayMode) (cover : Bool) : (e.dumpAfter now taken mode cover).1.Layout := by
  unfold dumpAfter
  split
  · exact command_layout ((unsend_inPlace layout taken).layout layout) now _
  · split
    · exact layout
    · exact (refuseDump_inPlace layout taken).layout layout

theorem new_layout (config : EngineConfig) : (Engine.new config).Layout where
  numbered := trivial
  next := rfl
  syncs := rfl
  ids := .nil
  fresh := by simp [Engine.new]
  cursor := Nat.le_refl _
  mark := by simp [Engine.new]

theorem step_layout {e : Engine} (layout : e.Layout) (op : Op) : (e.step op).1.Layout := by
  cases op with
  | ingestStart now => exact ingestStart_layout layout now
  | ingestEnd now => exact layout.congr rfl rfl rfl rfl rfl layout.cursor layout.mark
  | ingestMetadata now payload => exact ingestMetadata_layout layout now payload
  | ingest now kind ts payload => exact ingest_layout layout now kind ts payload
  | outputConnected now => exact (outputConnected_inPlace layout now).layout layout
  | outputDisconnected now lastWritten => exact (outputDisconnected_inPlace layout now lastWritten).layout layout
  | unsend taken => exact (unsend_inPlace layout taken).layout layout
  | dumpAfter now taken mode cover => exact dumpAfter_layout layout now taken mode cover
  | outputReset => exact outputReset_layout layout
  | discard => exact outputReset_layout (dropBuffer_layout layout)
  | endAfter =>
    cases last : e.lastSeq with
    | none => simpa only [step, last, Option.elim_none] using layout
    | some seq =>
      have bound := checkedSub_eq_some.mp last
      simp only [step, last, Option.elim_some]
      refine layout.of_out layout.cursor fun m mark => ?_
      obtain rfl := Option.some.inj mark
      omega
  | cancelEnd => exact layout.of_out layout.cursor (by simp)
  | restartAfterEnd => exact restartAfterEnd_layout layout
  | command now cmd => exact command_layout layout now cmd
  | setKeepHistory keep => exact layout.congr rfl rfl rfl rfl rfl layout.cursor layout.mark
  | setRestoreAfterReconnect restore =>
    exact layout.congr rfl rfl rfl rfl rfl layout.cursor layout.mark
  | pollBudget now maxBytes =>
    have evicted := evict_layout layout now
    exact Moves.layout (pollBudget_moves evicted maxBytes) evicted

end Engine

end StreamDelay
