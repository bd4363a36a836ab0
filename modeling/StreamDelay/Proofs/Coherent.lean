import Mathlib.Tactic.Common
import StreamDelay.Proofs.Layout

/-! # The output's phases

Before a broadcast starts nothing is pending and the output waits for a keyframe; a frame is held
only while a dump holds, and then the output waits for a keyframe too. On a new connection no
configuration goes out before the frame that is held. Connected and past that keyframe, the
connection's timestamps have begun.
-/

namespace StreamDelay

open Flv (Bytes)
open Foundations

structure Output.Coherent (o : Output) : Prop where
  idle : o.started = false → o.pending = .none ∧ o.needSync = true
  frame : ∀ h, o.hold = some h → o.pending.holding ∧ (h.needsHeaders = true → o.sentHeaders = [])
  waits : o.pending.holding → o.needSync = true
  begun : o.connected → o.needSync = false → o.fresh = false

namespace Output.Coherent

variable {o o' : Output}

theorem hold_none (coherent : o.Coherent) (airs : o.pending.holding = false) : o.hold = none := by
  cases held : o.hold with
  | none => rfl
  | some h =>
    rw [(coherent.frame h held).1] at airs
    contradiction

/-- The phase is the same, or the output now waits for a keyframe. -/
theorem same (coherent : o.Coherent) (started : o'.started = o.started)
    (pending : o'.pending = o.pending)
    (hold : ∀ h, o'.hold = some h → o.hold ≠ none ∧ (h.needsHeaders = true → o'.sentHeaders = []))
    (connected : o'.connected → o.connected)
    (needSync : o'.needSync = o.needSync ∨ o'.needSync = true)
    (fresh : o'.fresh = o.fresh ∨ o'.fresh = false) : o'.Coherent where
  idle := by
    intro idle
    obtain ⟨none, needs⟩ := coherent.idle (started ▸ idle)
    refine ⟨pending.trans none, ?_⟩
    rcases needSync with same | set
    · exact same.trans needs
    · exact set
  frame := by
    intro h held
    obtain ⟨before, owed⟩ := hold h held
    obtain ⟨h', held'⟩ := Option.ne_none_iff_exists'.mp before
    rw [pending]
    exact ⟨(coherent.frame h' held').1, owed⟩
  waits := by
    intro holding
    rw [pending] at holding
    rcases needSync with same | set
    · exact same.trans (coherent.waits holding)
    · exact set
  begun := by
    intro up synced
    rcases needSync with same | set
    · have began := coherent.begun (connected up) (same ▸ synced)
      rcases fresh with unchanged | cleared
      · exact unchanged.trans began
      · exact cleared
    · rw [set] at synced
      contradiction

/-- The frame is the same, and no more configuration was sent. -/
theorem unshown (coherent : o.Coherent) (hold : o'.hold = o.hold)
    (headers : o'.sentHeaders = o.sentHeaders ∨ o'.sentHeaders = []) (h : HoldFrame)
    (held : o'.hold = some h) : o.hold ≠ none ∧ (h.needsHeaders = true → o'.sentHeaders = []) := by
  rw [hold] at held
  refine ⟨Option.ne_none_iff_exists'.mpr ⟨h, held⟩, fun owed => ?_⟩
  rcases headers with same | cleared
  · exact same.trans ((coherent.frame h held).2 owed)
  · exact cleared

/-- A broadcast is under way whenever something is pending. -/
theorem started_of_pending (coherent : o.Coherent) (pending : o.pending ≠ .none) :
    o.started = true := by
  by_contra idle
  exact pending (coherent.idle (by simpa using idle)).1

/-- During a broadcast, with nothing held. -/
theorem live (started : o.started = true) (airs : o.pending.holding = false) (hold : o.hold = none)
    (begun : o.connected → o.needSync = false → o.fresh = false) : o.Coherent where
  idle := by simp [started]
  frame := by simp [hold]
  waits := by simp [airs]
  begun := begun

end Output.Coherent

namespace Engine

variable {e : Engine}

/-- A splice to a buffered keyframe, after which a change that airs is pending. -/
theorem splice_coherent (layout : e.Layout) {k delay : ℕ} (member : k ∈ e.syncs) {out : Output}
    (airs : out.pending.holding = false) (hold : out.hold = none)
    (same : out.started = (e.spliceTo k delay).out.started ∧
      out.fresh = (e.spliceTo k delay).out.fresh) : out.Coherent := by
  obtain ⟨x, found, -⟩ := layout.sync_entry member
  rw [spliceTo_out layout delay found] at same
  exact .live same.1 airs hold fun _ _ => same.2

private theorem startAt_coherent (layout : e.Layout) (coherent : e.out.Coherent) {now k arrival : ℕ}
    (member : k ∈ e.syncs) (airs : e.out.pending.holding = false) :
    (e.startAt now k arrival).out.Coherent := by
  have none := coherent.hold_none airs
  rcases e.startAt_cases now k arrival with same | ⟨-, -, -, same⟩ | ⟨-, -, same⟩
  · rw [same]
    exact splice_coherent layout member (by simpa using airs) (by simpa using none) ⟨rfl, rfl⟩
  · rw [same]
    exact splice_coherent layout member rfl rfl ⟨rfl, rfl⟩
  · rw [same]
    exact splice_coherent layout member rfl rfl ⟨rfl, rfl⟩

/-- A frame that is taken to be held counts as shown at once. -/
theorem airedKeyframe_new {now : ℕ} {h : HoldFrame} (frame : e.airedKeyframe now = some h) :
    h.last = now ∧ h.needsHeaders = false := by
  obtain ⟨k, -, frame⟩ := Option.bind_eq_some_iff.mp frame
  obtain ⟨x, -, frame⟩ := Option.bind_eq_some_iff.mp frame
  split at frame
  · obtain rfl := Option.some.inj frame
    exact ⟨rfl, rfl⟩
  · contradiction

theorem Move.coherent {now : ℕ} {e' : Engine} {out : List Sent} (move : Move now e e' out)
    (layout : e.Layout) (coherent : e.out.Coherent) : e'.out.Coherent := by
  have started := coherent.started_of_pending
  have clear := coherent.hold_none
  cases move with
  | liveSplice pending newest =>
    have none := clear (by rw [pending]; rfl)
    exact splice_coherent layout (List.mem_of_getLast? newest) rfl (by simpa using none) ⟨rfl, rfl⟩
  | reduceSplice pending _ newest =>
    have none := clear (by rw [pending]; rfl)
    exact splice_coherent layout (newestSyncArrivedBy_mem newest).1 rfl (by simpa using none)
      ⟨rfl, rfl⟩
  | replayDone pending first =>
    have none := clear (by rw [pending]; rfl)
    exact splice_coherent layout (List.mem_of_find?_eq_some first) rfl (by simpa using none)
      ⟨rfl, rfl⟩
  | maskDone pending _ found =>
    obtain ⟨member, rfl⟩ := layout.entry_iff.mp found
    refine .live ?_ rfl rfl fun _ _ => ?_
    · rw [setPending_out, spliceTo_out layout _ found]
      rfl
    · rw [setPending_out, spliceTo_out layout _ found]
      rfl
  | covered _ first spliced =>
    subst spliced
    have only := endHold_onlyOut now e
    have layout := only.layout layout (by simpa [endHold_out] using layout.cursor)
      (by simpa [endHold_out] using layout.mark)
    exact splice_coherent layout (by rw [only.syncs]; exact (firstSyncArrivedFrom_mem first).1) rfl
      (by simp [endHold_out]) ⟨rfl, rfl⟩
  | holdDone _ first _ spliced =>
    subst spliced
    have only := endHold_onlyOut now e
    have layout := only.layout layout (by simpa [endHold_out] using layout.cursor)
      (by simpa [endHold_out] using layout.mark)
    exact splice_coherent layout (by rw [only.syncs]; exact List.mem_of_find?_eq_some first) rfl
      (by simp [endHold_out]) ⟨rfl, rfl⟩
  | started _ airs _ _ first _ _ =>
    exact startAt_coherent layout coherent (mem_candidates.mp (startKeyframe_mem first)).1 airs
  | liveEdge pending =>
    exact .live (started (by simp [pending])) rfl (clear (by rw [pending]; rfl)) coherent.begun
  | airedMark pending =>
    exact .live (started (by simp [pending])) rfl (clear (by rw [pending]; rfl)) coherent.begun
  | reduceDone pending =>
    exact .live (started (by simp [pending])) rfl (clear (by rw [pending]; rfl)) coherent.begun
  | anchored pending =>
    exact .live (started (by simp [pending])) rfl (clear (by rw [pending]; rfl)) coherent.begun
  | maskGone pending => exact .live (started (by simp [pending])) rfl rfl coherent.begun
  | holdEnded pending => exact .live (started (by simp [pending])) rfl rfl coherent.begun
  | coverLost pending =>
    have needs := coherent.waits (by rw [pending]; rfl)
    have up := started (by simp [pending])
    refine ⟨fun idle => ?_, fun h held => ⟨rfl, (coherent.frame h held).2⟩, fun _ => needs, coherent.begun⟩
    rw [show e.out.started = false from idle] at up
    contradiction
  | replayHeld _ pending =>
    have up := started (by simp [pending])
    refine ⟨fun idle => ?_, fun h held => ⟨rfl, fun owed => ?_⟩, fun _ => rfl, fun _ synced => ?_⟩
    · rw [show e.out.started = false from idle] at up
      contradiction
    · rw [(airedKeyframe_new held).2] at owed
      contradiction
    · contradiction
  | @heldFrame shown connected _ frame =>
    have course := showFrame_course e now shown
    refine coherent.same course.started course.pending (fun h held => ?_) (fun _ => connected)
      (.inl course.needSync) (.inr course.fresh)
    rw [course.hold] at held
    obtain rfl := Option.some.inj held
    exact ⟨by simp [frame], fun owed => absurd owed Bool.false_ne_true⟩
  | sent connected airs =>
    have course := sendEntry_course e
    refine coherent.same course.started course.pending (fun h held => ?_) (fun _ => connected)
      (.inl course.needSync) (.inl course.fresh)
    rw [course.hold, show (e.pass.tally e.sendEntry.2).out.hold = e.out.hold from rfl, clear airs] at held
    contradiction
  | unconfirmed | sessionSkipped | markSkipped | silenced =>
    exact coherent.same rfl rfl (coherent.unshown rfl (.inl rfl)) id (.inl rfl) (.inl rfl)
  | caughtUp | newSession =>
    exact coherent.same rfl rfl (coherent.unshown rfl (.inl rfl)) id (.inr rfl) (.inl rfl)

theorem Moves.coherent {now : ℕ} {e' : Engine} {out : List Sent} (moves : Moves now e e' out)
    (layout : e.Layout) (coherent : e.out.Coherent) : e'.out.Coherent :=
  (Steps.preserves (P := fun e => e.Layout ∧ e.out.Coherent)
    (fun _ _ _ move both => ⟨move.layout both.1, move.coherent both.1 both.2⟩) moves
    ⟨layout, coherent⟩).2

/-! ## Connections -/

theorem backUnderMax_coherent (coherent : e.out.Coherent) (started : e.out.started = true) :
    e.backUnderMax.out.Coherent := by
  rcases e.backUnderMax_out with same | ⟨-, -, same⟩
  · rwa [same]
  · rw [same]
    exact .live started rfl rfl coherent.begun

private theorem backToTarget_coherent (coherent : e.out.Coherent) (started : e.out.started = true) :
    e.backToTarget.out.Coherent := by
  rcases e.backToTarget_cases with same | ⟨-, -, same⟩
  · rwa [same]
  · rw [same]
    split
    · exact .live started rfl rfl coherent.begun
    · exact .live started rfl rfl coherent.begun

private theorem backUnderMax_started (e : Engine) : e.backUnderMax.out.started = e.out.started := by
  rcases e.backUnderMax_out with same | ⟨-, -, same⟩
  · rw [same]
  · rw [same]
    rfl

private theorem reconnect_coherent (layout : e.Layout) (now : ℕ) (started : e.out.started = true)
    (airs : e.out.pending.holding = false) (hold : e.out.hold = none) :
    (e.reconnect now).out.Coherent := by
  unfold reconnect
  split
  · exact .live started airs hold fun _ => by simp
  · next k found =>
    have grown : InPlace e (e.noteGrowth (max e.out.delay (now - e.arrivalOr k now))) :=
      out_inPlace layout rfl rfl rfl
    have spliced : (spliceTo k (max e.out.delay (now - e.arrivalOr k now))
        (e.noteGrowth (max e.out.delay (now - e.arrivalOr k now)))).out.Coherent :=
      splice_coherent (grown.layout layout) (newestSync_mem found).1
        (by rw [spliceTo_pending]; exact airs) (by rw [spliceTo_hold]; exact hold) ⟨rfl, rfl⟩
    have grown_started : (e.noteGrowth (max e.out.delay (now - e.arrivalOr k now))).out.started :=
      started
    have up := spliceTo_started k (max e.out.delay (now - e.arrivalOr k now)) grown_started
    have restarted := backUnderMax_coherent spliced up
    dsimp only
    split
    · exact backToTarget_coherent restarted ((backUnderMax_started _).trans up)
    · exact restarted

private theorem outputConnected_coherent (layout : e.Layout) (coherent : e.out.Coherent) (now : ℕ) :
    (e.outputConnected now).out.Coherent := by
  unfold outputConnected
  dsimp only
  split
  · next holding =>
    have up := coherent.started_of_pending (by
      intro none
      rw [show (e.freshConnection now).out.pending = e.out.pending from rfl, none] at holding
      contradiction)
    refine ⟨fun idle => ?_, fun _ _ => ⟨holding, fun _ => rfl⟩, fun _ => rfl, fun _ => by simp⟩
    rw [show e.out.started = false from idle] at up
    contradiction
  · next airs =>
    have airs : e.out.pending.holding = false := eq_false_of_ne_true airs
    have none := coherent.hold_none airs
    split
    · next started =>
      refine reconnect_coherent ((freshConnection_inPlace layout now).layout layout) now started
        airs ?_
      simp only [freshConnection, none, Option.map_none]
    · next idle =>
      have idle : e.out.started = false := eq_false_of_ne_true idle
      obtain ⟨pending, needs⟩ := coherent.idle idle
      refine ⟨fun _ => ⟨pending, needs⟩, ?_, fun _ => needs, fun _ synced => ?_⟩
      · simp only [freshConnection, none, Option.map_none, reduceCtorEq, false_implies,
          implies_true]
      · rw [show e.out.needSync = false from synced] at needs
        contradiction

/-- Only fields no phase depends on, or the connection, changed. -/
theorem coherent_down (coherent : e.out.Coherent) {out : Output}
    (same : out.started = e.out.started ∧ out.pending = e.out.pending ∧ out.hold = e.out.hold ∧
      out.fresh = e.out.fresh)
    (connected : out.connected → e.out.connected)
    (needSync : out.needSync = e.out.needSync ∨ out.needSync = true)
    (headers : out.sentHeaders = e.out.sentHeaders ∨ out.sentHeaders = []) : out.Coherent := by
  obtain ⟨started, pending, hold, fresh⟩ := same
  exact coherent.same started pending (coherent.unshown hold headers) connected needSync (.inl fresh)

theorem resumeAfter_coherent (coherent : e.out.Coherent) (last : Option ℕ) :
    (e.resumeAfter last).out.Coherent := by
  unfold resumeAfter
  split
  · exact coherent
  · exact coherent_down coherent ⟨rfl, rfl, rfl, rfl⟩ id (.inl rfl) (.inl rfl)

theorem unsend_coherent (coherent : e.out.Coherent) (taken : Option ℕ) :
    (e.unsend taken).out.Coherent := by
  unfold unsend
  split
  · exact coherent
  · exact coherent_down (resumeAfter_coherent coherent taken) ⟨rfl, rfl, rfl, rfl⟩ id (.inl rfl) (.inr rfl)

theorem outputReset_coherent (e : Engine) : e.outputReset.out.Coherent where
  idle := fun _ => ⟨rfl, rfl⟩
  frame := by simp [outputReset]
  waits := fun _ => rfl
  begun := by simp [outputReset]

theorem dropBuffer_coherent (coherent : e.out.Coherent) : e.dropBuffer.out.Coherent := by
  rw [dropBuffer_out]
  exact coherent_down coherent ⟨rfl, rfl, rfl, rfl⟩ id (.inr rfl) (.inl rfl)

/-! ## Commands -/

theorem goLive_coherent (coherent : e.out.Coherent) (when_ : GoLiveWhen) :
    (e.goLive when_).out.Coherent := by
  unfold goLive
  dsimp only
  split
  · next idle =>
    have idle : e.out.started = false := by simpa [retarget] using idle
    have needs := (coherent.idle idle).2
    exact ⟨fun _ => ⟨rfl, needs⟩, by simp [Pending.isHold], fun _ => needs, coherent.begun⟩
  · next up =>
    have up : e.out.started = true := by simpa [retarget] using up
    cases when_ <;> exact .live up rfl rfl coherent.begun

/-- Whatever was pending is cancelled. -/
theorem cleared_coherent (coherent : e.out.Coherent) {out : Output}
    (same : out.started = e.out.started ∧ out.connected = e.out.connected ∧
      out.needSync = e.out.needSync ∧ out.fresh = e.out.fresh)
    (pending : out.pending = .none) (hold : out.hold = none) : out.Coherent := by
  obtain ⟨started, connected, needSync, fresh⟩ := same
  refine ⟨fun idle => ⟨pending, ?_⟩, by simp [hold], by simp [pending, Pending.holding], ?_⟩
  · rw [needSync]
    exact (coherent.idle (started ▸ idle)).2
  · rw [connected, needSync, fresh]
    exact coherent.begun

theorem cancel_coherent (coherent : e.out.Coherent) : e.cancel.out.Coherent := by
  unfold cancel
  split
  · exact coherent
  · dsimp only
    split
    · next up =>
      refine backUnderMax_coherent ?_ (by simpa using up)
      exact cleared_coherent coherent ⟨rfl, rfl, rfl, rfl⟩ rfl rfl
    · exact cleared_coherent coherent ⟨rfl, rfl, rfl, rfl⟩ rfl rfl

theorem withPending_coherent (coherent : e.out.Coherent) {p : Pending}
    (same : p.holding = e.out.pending.holding) (pending : e.out.pending ≠ .none) :
    (e.withPending p).out.Coherent := by
  have up := coherent.started_of_pending pending
  refine ⟨fun idle => ?_, fun h held => ?_, fun holding => ?_, coherent.begun⟩
  · rw [show e.out.started = false from idle] at up
    contradiction
  · exact ⟨same.trans (coherent.frame h held).1, (coherent.frame h held).2⟩
  · exact coherent.waits (same.symm.trans holding)

theorem slateShown_coherent (coherent : e.out.Coherent) (now change : ℕ) :
    (e.slateShown now change).out.Coherent := by
  unfold slateShown
  split
  · exact coherent
  · split
    · next pending =>
      split
      · exact withPending_coherent coherent (by rw [pending]; rfl) (by simp [pending])
      · exact coherent
    · next pending =>
      exact withPending_coherent coherent (by rw [pending]; rfl) (by simp [pending])
    · exact coherent

theorem rewindTo_coherent (layout : e.Layout) (coherent : e.out.Coherent) {now d k : ℕ}
    {known : Bool} (member : k ∈ e.syncs) (pending : e.out.pending = .none)
    (hold : e.out.hold = none) : (e.rewindTo now d k known).out.Coherent := by
  unfold rewindTo
  dsimp only
  split
  · split
    · exact splice_coherent layout member rfl rfl ⟨rfl, rfl⟩
    · exact splice_coherent layout member (by simp [pending, Pending.holding]) (by simpa using hold)
        ⟨rfl, rfl⟩
  · exact coherent

theorem oldestInside_mem {k : ℕ} (oldest : e.oldestInside = some k) : k ∈ e.syncs := by
  unfold oldestInside at oldest
  dsimp only at oldest
  rcases Option.or_eq_some_iff.mp oldest with inside | ⟨-, head⟩
  · split at inside
    · exact List.mem_of_getElem? inside
    · contradiction
  · exact List.mem_of_mem_head? (Option.mem_def.mpr head)

private theorem rewind_coherent (layout : e.Layout) (coherent : e.out.Coherent) (now d : ℕ)
    (pending : e.out.pending = .none) (hold : e.out.hold = none) :
    (e.rewind now d).out.Coherent := by
  have short : (e.noteShort now).out.Coherent :=
    coherent_down coherent ⟨rfl, rfl, rfl, rfl⟩ id (.inl rfl) (.inl rfl)
  unfold rewind
  split
  · next k newest =>
    exact rewindTo_coherent layout coherent (newestSyncArrivedBy_mem newest).1 pending hold
  · split
    · exact short
    · next k oldest =>
      exact rewindTo_coherent ((out_inPlace layout rfl rfl rfl : InPlace e (e.noteShort now)).layout
        layout) short (oldestInside_mem oldest) pending hold

theorem changeDelay_coherent (layout : e.Layout) (coherent : e.out.Coherent) (now d : ℕ)
    (mode : DelayMode) : (e.changeDelay now d mode).out.Coherent := by
  unfold changeDelay
  generalize start : (e.retarget d).setPending .none = mid
  have cleared : mid.out.Coherent := by
    rw [← start]
    exact cleared_coherent coherent ⟨rfl, rfl, rfl, rfl⟩ rfl rfl
  have layout : mid.Layout := by
    rw [← start]
    exact layout.of_out layout.cursor layout.mark
  have pending : mid.out.pending = .none := by rw [← start]; rfl
  have hold : mid.out.hold = none := by rw [← start]; rfl
  dsimp only
  split
  · exact coherent_down cleared ⟨rfl, rfl, rfl, rfl⟩ id (.inl rfl) (.inl rfl)
  · next up =>
    have up : mid.out.started = true := by simpa using up
    split
    · exact goLive_coherent cleared .now
    · split
      · split
        · exact rewind_coherent layout cleared now d pending hold
        · exact .live up rfl rfl cleared.begun
      · split
        · exact .live up rfl rfl cleared.begun
        · exact cleared

theorem withDumpDelay_holding {d : ℕ} {p q : Pending} (same : p.withDumpDelay d = some q) :
    q.holding = p.holding ∧ p ≠ .none := by
  cases p with
  | mask m =>
    unfold Pending.withDumpDelay at same
    dsimp only at same
    split at same
    · obtain rfl := Option.some.inj same
      exact ⟨rfl, by simp⟩
    · contradiction
  | dump | hold | replay =>
    obtain rfl := Option.some.inj same
    exact ⟨rfl, by simp⟩
  | none | goLiveNow | afterAir | reduce => contradiction

theorem runPending_coherent (layout : e.Layout) (coherent : e.out.Coherent) (now : ℕ) :
    (e.runPending now).out.Coherent := Moves.coherent (runPending_moves now e) layout coherent

private theorem setDelay_coherent (layout : e.Layout) (coherent : e.out.Coherent) (now ms : ℕ)
    (mode : DelayMode) : (e.setDelay now ms mode).out.Coherent := by
  unfold setDelay
  dsimp only
  split
  · next p changed =>
    have adjusted : (e.setDumpDelay (ms * MS) p).Layout := layout.of_out layout.cursor layout.mark
    refine runPending_coherent adjusted ?_ now
    split at changed
    · obtain ⟨holding, pending⟩ := withDumpDelay_holding changed
      have moved := withPending_coherent coherent holding pending
      exact coherent_down moved ⟨rfl, rfl, rfl, rfl⟩ id (.inl rfl) (.inl rfl)
    · contradiction
  · split
    · exact coherent
    · exact runPending_coherent ((changeDelay_inPlace layout now _ _).layout layout)
        (changeDelay_coherent layout coherent now _ _) now

private theorem replayAt_coherent (coherent : e.out.Coherent) (up : e.out.started = true)
    (now delay k : ℕ) : (e.replayAt now delay k).out.Coherent := by
  unfold replayAt
  dsimp only
  generalize pended :
    ((e.truncate e.cut).splitSession e.cut).setPending (.replay e.cut delay) = mid
  have out : mid.out = (e.setPending (.replay e.cut delay)).out := by
    rw [← pended, setPending_out, splitSession_out]
    rfl
  refine .live (spliceTo_started _ _ (by rw [out]; exact up)) (by simp [out, Pending.holding])
    (by simp [out, Pending.isHold]) fun connected synced => ?_
  cases found : mid.entry k with
  | none =>
    simp only [spliceTo, found, out, setPending_out] at connected synced ⊢
    exact coherent.begun connected synced
  | some x => simp only [spliceTo, found]

private theorem holdInstead_coherent (up : e.out.started = true) (now delay : ℕ) (cover : Bool) :
    (e.holdInstead now delay cover).1.out.Coherent := by
  rw [holdInstead_eq]
  have needs : e.dropBuffer.out.needSync = true := by rw [dropBuffer_out]
  have started : e.dropBuffer.out.started = true := by rwa [dropBuffer_out]
  have holding : (if cover then Pending.dump delay now e.nextSeq none
      else .hold e.nextSeq delay).holding = true := by cases cover <;> rfl
  refine ⟨fun idle => ?_, fun h held => ⟨holding, fun owed => ?_⟩, fun _ => needs, fun _ synced => ?_⟩
  · rw [show e.dropBuffer.out.started = false from idle] at started
    contradiction
  · rw [(airedKeyframe_new held).2] at owed
    contradiction
  · rw [show e.dropBuffer.out.needSync = false from synced] at needs
    contradiction

theorem dump_coherent (coherent : e.out.Coherent) (now : ℕ) (mode : DelayMode) (cover : Bool) :
    (e.dump now mode cover).1.out.Coherent := by
  have dropped := dropBuffer_coherent coherent
  have targeted : (e.retarget e.dumpDelay).out.Coherent :=
    coherent_down coherent ⟨rfl, rfl, rfl, rfl⟩ id (.inl rfl) (.inl rfl)
  rcases e.dump_cases now mode cover with
    ⟨-, same⟩ | ⟨-, -, same⟩ | ⟨up, -, k, -, same⟩ | ⟨up, -, same⟩
  · rwa [same]
  · rw [same]
    exact cleared_coherent dropped ⟨rfl, rfl, rfl, rfl⟩ rfl rfl
  · rw [same]
    exact replayAt_coherent targeted up now _ k
  · rw [same]
    exact holdInstead_coherent (e := e.retarget e.dumpDelay) up now _ cover

theorem clearNotices_coherent (coherent : e.out.Coherent) (cmd : Command) :
    (e.clearNotices cmd).out.Coherent := by
  cases cmd <;> exact coherent_down coherent ⟨rfl, rfl, rfl, rfl⟩ id (.inl rfl) (.inl rfl)

private theorem obey_coherent (layout : e.Layout) (coherent : e.out.Coherent) (now : ℕ) (cmd : Command) :
    (e.obey now cmd).1.out.Coherent := by
  cases cmd with
  | setDelay ms mode => exact setDelay_coherent layout coherent now ms mode
  | goLive when_ =>
    exact runPending_coherent ((goLive_inPlace layout when_).layout layout)
      (goLive_coherent coherent when_) now
  | cancel =>
    exact runPending_coherent ((cancel_inPlace layout).layout layout) (cancel_coherent coherent) now
  | slateShown change =>
    exact runPending_coherent ((slateShown_inPlace layout now change).layout layout)
      (slateShown_coherent coherent now change) now
  | dump mode cover =>
    unfold obey
    dsimp only
    split
    · exact runPending_coherent (dump_layout layout now mode cover)
        (dump_coherent coherent now mode cover) now
    · exact coherent

theorem command_coherent (layout : e.Layout) (coherent : e.out.Coherent) (now : ℕ)
    (cmd : Command) : (e.command now cmd).1.out.Coherent := by
  unfold command
  split
  · exact coherent
  · exact obey_coherent ((clearNotices_inPlace layout cmd).layout layout)
      (clearNotices_coherent coherent cmd) now cmd

/-! ## Every operation -/

private theorem memoryShort_coherent (coherent : e.out.Coherent) (now : ℕ) :
    (e.memoryShort now).out.Coherent := by
  unfold memoryShort
  split
  · exact coherent
  · dsimp only
    split
    · exact coherent_down coherent ⟨rfl, rfl, rfl, rfl⟩ id (.inl rfl) (.inl rfl)
    · next up =>
      have up : e.out.started = true := by simpa using up
      split
      · exact .live up rfl rfl coherent.begun
      · exact coherent_down coherent ⟨rfl, rfl, rfl, rfl⟩ id (.inl rfl) (.inl rfl)

theorem evict_coherent (layout : e.Layout) (coherent : e.out.Coherent) (now : ℕ) :
    (e.evict now).out.Coherent := by
  obtain ⟨n, mid, trimmed, same | same⟩ := evict_trimmed layout now
  · rwa [same, trimmed.out]
  · rw [same]
    exact memoryShort_coherent (trimmed.out ▸ coherent) now

private theorem dumpAfter_coherent (layout : e.Layout) (coherent : e.out.Coherent) (now : ℕ)
    (taken : Option ℕ) (mode : DelayMode) (cover : Bool) :
    (e.dumpAfter now taken mode cover).1.out.Coherent := by
  unfold dumpAfter
  split
  · exact command_coherent ((unsend_inPlace layout taken).layout layout)
      (unsend_coherent coherent taken) now _
  · split
    · exact coherent
    · unfold refuseDump
      dsimp only
      split
      · exact coherent_down coherent ⟨rfl, rfl, rfl, rfl⟩ id (.inr rfl) (.inr rfl)
      · exact coherent_down coherent ⟨rfl, rfl, rfl, rfl⟩ id (.inl rfl) (.inr rfl)

theorem ingestStart_out (e : Engine) (now : ℕ) :
    (e.ingestStart now).out = if e.out.started then e.out else e.dropBuffer.out := by
  unfold ingestStart
  dsimp only
  rw [countSessions_out, (popIdleSession_ring _).2.2.2.2.2]
  split <;> rfl

theorem ingestMetadata_out (e : Engine) (now : ℕ) (payload : Bytes) :
    (e.ingestMetadata now payload).out = e.out := by
  unfold ingestMetadata
  split
  · rfl
  · split <;> rfl

theorem append_out (e : Engine) (now : ℕ) (kind : Kind) (ts : ℕ) (payload : Bytes)
    (session : Session) : (e.append now kind ts payload session).out = e.out := by
  unfold append
  dsimp only
  split <;> rfl

private theorem step_coherent (layout : e.Layout) (coherent : e.out.Coherent) (op : Op) :
    (e.step op).1.out.Coherent := by
  cases op with
  | ingestStart now =>
    rw [show (e.step (.ingestStart now)).1 = e.ingestStart now from rfl, ingestStart_out]
    split
    · exact coherent
    · exact dropBuffer_coherent coherent
  | ingestEnd | setKeepHistory | setRestoreAfterReconnect => exact coherent
  | ingestMetadata now payload =>
    rw [show (e.step (.ingestMetadata now payload)).1 = e.ingestMetadata now payload from rfl,
      ingestMetadata_out]
    exact coherent
  | ingest now kind ts payload =>
    dsimp only [step]
    rcases e.ingest_cases now kind ts payload with same | ⟨session, -, -, same⟩
    · rwa [same]
    · rw [same]
      exact evict_coherent (append_layout layout now kind ts payload session)
        (by rw [append_out]; exact coherent) now
  | outputConnected now => exact outputConnected_coherent layout coherent now
  | outputDisconnected now lastWritten =>
    exact resumeAfter_coherent (e := { e with out := { e.out with connected := false } })
      (coherent_down coherent ⟨rfl, rfl, rfl, rfl⟩ (by simp) (.inl rfl) (.inl rfl)) lastWritten
  | unsend taken => exact unsend_coherent coherent taken
  | dumpAfter now taken mode cover => exact dumpAfter_coherent layout coherent now taken mode cover
  | outputReset => exact e.outputReset_coherent
  | discard => exact e.dropBuffer.outputReset_coherent
  | endAfter =>
    dsimp only [step]
    cases e.lastSeq with
    | none => exact coherent
    | some => exact coherent_down coherent ⟨rfl, rfl, rfl, rfl⟩ id (.inl rfl) (.inl rfl)
  | cancelEnd => exact coherent_down coherent ⟨rfl, rfl, rfl, rfl⟩ id (.inl rfl) (.inl rfl)
  | restartAfterEnd =>
    exact coherent_down (Engine.outputReset_coherent _) ⟨rfl, rfl, rfl, rfl⟩ id (.inl rfl) (.inl rfl)
  | command now cmd => exact command_coherent layout coherent now cmd
  | pollBudget now maxBytes =>
    have evicted := evict_layout layout now
    exact Moves.coherent (pollBudget_moves evicted maxBytes) evicted
      (evict_coherent layout coherent now)

end Engine

/-! ## Reachable states -/

/-- What holds of the buffer and of the output's phase in every state a run reaches. -/
structure Engine.Sound (e : Engine) : Prop where
  layout : e.Layout
  coherent : e.out.Coherent

namespace Engine.Sound

theorem new (config : EngineConfig) : (Engine.new config).Sound where
  layout := new_layout config
  coherent := ⟨fun _ => ⟨rfl, rfl⟩, by simp [Engine.new], fun _ => rfl, by simp [Engine.new]⟩

theorem step {e : Engine} (sound : e.Sound) (op : Op) : (e.step op).1.Sound :=
  ⟨step_layout sound.layout op, step_coherent sound.layout sound.coherent op⟩

theorem after {e : Engine} (sound : e.Sound) (ops : List Op) : (e.after ops).Sound :=
  Machine.after_induct (P := Engine.Sound) Engine.step (fun _ op sound => sound.step op) sound ops

/-- Every run reaches sound states only. -/
theorem reached (config : EngineConfig) (ops : List Op) : ((Engine.new config).after ops).Sound :=
  (Sound.new config).after ops

end Engine.Sound

end StreamDelay
