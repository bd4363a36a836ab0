import Mathlib.Tactic.Common
import StreamDelay.Proofs.Timed

/-! # The delay the output is on its way to

A pending change leads to a delay. A move keeps an output that aims for at least `d` aiming for it,
unless a hold ends at the end mark or a mask has lost its anchor; then the delay there was decides.
-/

namespace StreamDelay

open Foundations

/-- The delay the output keeps, or is on its way to. -/
def Output.goal (o : Output) : ℕ :=
  match o.pending with
  | .none => o.delay
  | .goLiveNow _ | .afterAir _ => 0
  | .reduce d => min d o.delay
  | .mask m => m.delay
  | .dump d .. | .hold _ d | .replay _ d => d

/-- Nothing is pending, or only a reduction. -/
def Pending.settled : Pending → Bool
  | none | reduce _ => true
  | _ => false

/-- The operation dumps, or asks to. -/
def Op.dumps : Op → Bool
  | .command _ (.dump ..) | .dumpAfter .. => true
  | _ => false

namespace Engine

/-- Every delay asked for is at most this. -/
def maxDelay (e : Engine) : ℕ := e.config.maxDelayMs * MS

/-- The broadcast ends before a hold, or before a dump nobody confirmed the slate of, can. -/
def HoldEnds (now : ℕ) (e : Engine) : Prop :=
  ∃ fromSeq m, e.out.endMark = some m ∧ (∀ k ∈ e.syncs, fromSeq ≤ k → m < k) ∧
    ((∃ delay, e.out.pending = .hold fromSeq delay) ∨
      ∃ delay started, e.out.pending = .dump delay started fromSeq none ∧
        started + SLATE_CONFIRM_WAIT ≤ now)

/-- The keyframe a mask waits for is no longer buffered. -/
def MaskGone (e : Engine) : Prop :=
  ∃ m a, e.out.pending = .mask m ∧ m.anchor = some a ∧ e.entry a = none

/-- The output is to keep a delay of at least `d`. -/
structure Aims (d : ℕ) (e : Engine) : Prop where
  asked : d ≤ e.out.target
  within : d ≤ e.maxDelay
  goal : d ≤ e.out.goal

variable {e e' : Engine} {now d : ℕ} {out : List Sent}

theorem OnlyOut.maxDelay (only : OnlyOut e e') : e'.maxDelay = e.maxDelay := by
  rw [Engine.maxDelay, only.config, Engine.maxDelay]

theorem arrivalOr_eq {k : ℕ} {x : Entry} (found : e.entry k = some x) (now : ℕ) :
    e.arrivalOr k now = x.arrival := by
  simp only [arrivalOr, found, Option.elim_some]

theorem Aims.congr (aims : e.Aims d) (max : e'.maxDelay = e.maxDelay) (out : e'.out = e.out) :
    e'.Aims d := by
  refine ⟨?_, ?_, ?_⟩
  · rw [out]
    exact aims.asked
  · rw [max]
    exact aims.within
  · rw [out]
    exact aims.goal

/-- A settled output airs with the delay it is to keep. -/
theorem Aims.delay (aims : e.Aims d) (settled : e.out.pending.settled = true) :
    d ≤ e.out.delay := by
  have goal := aims.goal
  cases pending : e.out.pending <;> simp only [Output.goal, pending] at goal
  all_goals first | omega | simp [pending, Pending.settled] at settled

theorem spliceTo_delay {k delay : ℕ} {x : Entry} (found : e.entry k = some x) :
    (e.spliceTo k delay).out.delay = delay := by
  simp only [spliceTo, found]

/-- A splice takes the delay it is given, or nothing changes. -/
theorem spliceTo_delay_or (k delay : ℕ) (e : Engine) :
    (e.spliceTo k delay).out.delay = delay ∨ e.spliceTo k delay = e := by
  unfold spliceTo
  split
  · exact .inr rfl
  · exact .inl rfl

/-- The keyframe after the hold is found once there is one. -/
theorem holdEnds_of_none {fromSeq m : ℕ} (mark : e.out.endMark = some m)
    (nothing : e.syncs.find? (fun s => fromSeq ≤ s && e.out.endMark.all fun m => s ≤ m) = none) :
    ∀ k ∈ e.syncs, fromSeq ≤ k → m < k := by
  intro k member low
  have refused := List.find?_eq_none.mp nothing k member
  simp only [mark, Option.all_some, Bool.and_eq_true, decide_eq_true_eq, not_and] at refused
  exact Nat.lt_of_not_le (refused low)

/-! ## Slowing down -/

/-- The delay grew, and a way back down to what was asked for may be planned. -/
structure Slows (e e' : Engine) : Prop where
  only : OnlyOut e e'
  delay : e.out.delay ≤ e'.out.delay
  target : e'.out.target = e.out.target ∨ e'.out.target = min e.out.target e.maxDelay
  pending : e'.out.pending = e.out.pending ∨
    e.out.pending.settled = true ∧
      ((∃ d, e'.out.pending = .reduce d ∧ min e.out.target e.maxDelay ≤ d ∧ d ≤ e'.out.delay) ∨
        min e.out.target e.maxDelay = 0 ∧ ∃ afterSeq, e'.out.pending = .goLiveNow afterSeq)
  historyShort : e'.out.historyShort = e.out.historyShort
  memoryShort : e'.out.memoryShort = e.out.memoryShort
  mask : e.out.pending.settled = false → e'.out.maskVisible = e.out.maskVisible

namespace Slows

variable {mid : Engine}

theorem refl (e : Engine) : Slows e e :=
  ⟨.refl e, Nat.le_refl _, .inl rfl, .inl rfl, rfl, rfl, fun _ => rfl⟩

theorem trans (first : Slows e mid) (second : Slows mid e') : Slows e e' where
  only := first.only.trans second.only
  delay := Nat.le_trans first.delay second.delay
  target := by
    have target := second.target
    rw [first.only.maxDelay] at target
    rcases first.target with same | lowered <;> rcases target with same' | lowered' <;> omega
  pending := by
    have delay := second.delay
    have pending := second.pending
    rw [first.only.maxDelay] at pending
    have floor : min mid.out.target e.maxDelay = min e.out.target e.maxDelay := by
      rcases first.target with same | lowered <;> omega
    rw [floor] at pending
    rcases first.pending with same | ⟨settled, ⟨d, planned, low, high⟩ | ⟨none, afterSeq, planned⟩⟩
    · rwa [same] at pending
    · rcases pending with same' | ⟨-, rest⟩
      · exact .inr ⟨settled, .inl ⟨d, same'.trans planned, low, Nat.le_trans high delay⟩⟩
      · exact .inr ⟨settled, rest⟩
    · rcases pending with same' | ⟨-, rest⟩
      · exact .inr ⟨settled, .inr ⟨none, afterSeq, same'.trans planned⟩⟩
      · exact .inr ⟨settled, rest⟩
  historyShort := second.historyShort.trans first.historyShort
  memoryShort := second.memoryShort.trans first.memoryShort
  mask := by
    intro changing
    rcases first.pending with same | ⟨settled, -⟩
    · exact (second.mask (by rwa [same])).trans (first.mask changing)
    · rw [settled] at changing
      contradiction

/-- Nothing but the delay, and what goals do not depend on, changed. -/
theorem of_pending (only : OnlyOut e e') (delay : e.out.delay ≤ e'.out.delay)
    (target : e'.out.target = e.out.target) (pending : e'.out.pending = e.out.pending)
    (short : e'.out.historyShort = e.out.historyShort ∧ e'.out.memoryShort = e.out.memoryShort)
    (mask : e'.out.maskVisible = e.out.maskVisible) : Slows e e' :=
  ⟨only, delay, .inl target, .inl pending, short.1, short.2, fun _ => mask⟩

/-- An output that slows down keeps its aim. -/
theorem aims (slows : Slows e e') (aims : e.Aims d) : e'.Aims d where
  asked := by
    have asked := aims.asked
    have within := aims.within
    rcases slows.target with same | lowered <;> omega
  within := by
    rw [slows.only.maxDelay]
    exact aims.within
  goal := by
    have delay := slows.delay
    have asked := aims.asked
    have within := aims.within
    have goal := aims.goal
    rcases slows.pending with same | ⟨settled, ⟨r, planned, low, high⟩ | ⟨none, -⟩⟩
    · cases pending : e.out.pending <;> simp only [Output.goal, same, pending] at goal ⊢ <;> omega
    · have held := aims.delay settled
      simp only [Output.goal, planned]
      omega
    · omega

theorem settled (slows : Slows e e') (settled : e.out.pending.settled = true)
    (positive : 0 < min e.out.target e.maxDelay) : e'.out.pending.settled = true := by
  rcases slows.pending with same | ⟨-, ⟨d, planned, -⟩ | ⟨none, -⟩⟩
  · rwa [same]
  · rw [planned]
    rfl
  · omega

end Slows

theorem backUnderMax_slows (e : Engine) : Slows e e.backUnderMax := by
  rcases e.backUnderMax_out with same | ⟨none, past, same⟩
  · rw [same]
    exact .refl e
  · have only := e.backUnderMax_onlyOut
    rw [same] at only ⊢
    refine ⟨only, Nat.le_refl _, .inr rfl, .inr ⟨by rw [none]; rfl, .inl ⟨_, rfl, ?_, ?_⟩⟩, rfl, rfl, ?_⟩
    · exact Nat.min_le_right _ _
    · exact Nat.le_trans (Nat.le_add_right _ _) (Nat.le_of_lt past)
    · intro changing
      rw [none] at changing
      contradiction

private theorem backToTarget_slows (e : Engine) : Slows e e.backToTarget := by
  rcases e.backToTarget_cases with same | ⟨pending, longer, same⟩
  · rw [same]
    exact .refl e
  · have settled : e.out.pending.settled = true := by
      rcases pending with none | ⟨d, reduce, -⟩
      · rw [none]
        rfl
      · rw [reduce]
        rfl
    rw [same]
    refine ⟨rfl, Nat.le_refl _, .inl rfl, .inr ⟨settled, ?_⟩, rfl, rfl, fun changing => ?_⟩
    · rw [setPending_out]
      by_cases zero : e.out.target = 0
      · exact .inr ⟨by omega, _, if_pos zero⟩
      · refine .inl ⟨e.out.target, if_neg zero, Nat.min_le_left _ _, ?_⟩
        dsimp only
        omega
    · rw [settled] at changing
      contradiction

theorem spliceTo_slows (k : ℕ) {delay : ℕ} (longer : e.out.delay ≤ delay) :
    Slows e (e.spliceTo k delay) := by
  refine .of_pending (spliceTo_onlyOut k delay e) ?_ (by simp) (by simp) ⟨by simp, by simp⟩ (by simp)
  rcases spliceTo_delay_or k delay e with taken | same
  · rwa [taken]
  · exact Nat.le_of_eq (by rw [same])

private theorem startAt_slows {k : ℕ} {x : Entry} (found : e.entry k = some x) (now arrival : ℕ) :
    Slows e (e.startAt now k arrival) := by
  have spliced : Slows e (e.spliceTo k (max e.out.delay (now - arrival))) :=
    spliceTo_slows k (Nat.le_max_left _ _)
  unfold startAt
  dsimp only
  split
  · next late =>
    simp only [Bool.and_eq_true, Bool.not_eq_true', decide_eq_true_eq] at late
    obtain ⟨⟨idle, none⟩, late⟩ := late
    have settled : e.out.pending.settled = true := by
      rw [none]
      rfl
    refine spliced.trans ⟨rfl, Nat.le_refl _, .inl rfl, .inr ⟨by rwa [spliceTo_pending], .inl
      ⟨_, rfl, ?_, ?_⟩⟩, rfl, rfl, fun changing => ?_⟩
    · rw [spliceTo_target]
      exact Nat.min_le_left _ _
    · rw [spliceTo_target, setPending_out, spliceTo_delay found]
      omega
    · rw [spliceTo_pending, settled] at changing
      contradiction
  · exact spliced.trans (backUnderMax_slows _)

/-! ## Moves -/

theorem Move.slows_started {k : ℕ} (layout : e.Layout) (first : e.startKeyframe now = some k) :
    Slows e (e.startAt now k (e.arrivalOr k now)) := by
  obtain ⟨x, found, -⟩ := layout.sync_entry (mem_candidates.mp (startKeyframe_mem first)).1
  exact startAt_slows found now _

/-- A splice to what arrived at least `d` before, with nothing pending after it. -/
theorem splice_aims {k delay : ℕ} {x : Entry} (found : e.entry k = some x) (long : d ≤ delay)
    (aims : e.Aims d) : (e.spliceTo k delay).finishPending.Aims d where
  asked := by
    rw [finishPending_out, spliceTo_target]
    exact aims.asked
  within := by
    rw [((spliceTo_onlyOut k delay e).trans (finishPending_onlyOut _)).maxDelay]
    exact aims.within
  goal := by
    simp only [Output.goal, finishPending_out, spliceTo_delay found]
    exact long

/-- A change that leads to `d` turned into another one that does. -/
theorem Aims.of_out (aims : e.Aims d) (only : OnlyOut e e') (target : e'.out.target = e.out.target)
    (goal : d ≤ e'.out.goal) : e'.Aims d := by
  refine ⟨?_, ?_, goal⟩
  · rw [target]
    exact aims.asked
  · rw [only.maxDelay]
    exact aims.within

/-- A move keeps the aim, unless it gives up the pending change at a lower delay. -/
theorem Move.aims (move : Move now e e' out) (layout : e.Layout) (positive : 0 < d)
    (ends : e.HoldEnds now → e'.out.pending.holding = false → d ≤ e.out.delay)
    (gone : e.MaskGone → d ≤ e.out.delay) (aims : e.Aims d) : e'.Aims d := by
  have goal := aims.goal
  have only := move.onlyOut
  cases move with
  | liveSplice pending | liveEdge pending | airedMark pending =>
    simp only [Output.goal, pending] at goal
    omega
  | reduceDone pending =>
    simp only [Output.goal, pending] at goal
    refine aims.of_out only rfl ?_
    simp only [Output.goal, finishPending_out]
    omega
  | reduceSplice pending _ newest =>
    simp only [Output.goal, pending] at goal
    obtain ⟨-, t, before, x, found, arrived⟩ := newestSyncArrivedBy_mem newest
    have before := checkedSub_eq_some.mp before
    refine splice_aims found ?_ aims
    rw [arrivalOr_eq found]
    omega
  | replayDone pending first due =>
    simp only [Output.goal, pending] at goal
    obtain ⟨x, found, -⟩ := layout.sync_entry (List.mem_of_find?_eq_some first)
    exact splice_aims found (by omega) aims
  | maskDone pending _ found due =>
    simp only [Output.goal, pending] at goal
    refine aims.of_out only (by simp) ?_
    simp only [Output.goal, setPending_out, spliceTo_delay found]
    omega
  | maskGone pending anchor lost =>
    exact aims.of_out only rfl (gone ⟨_, _, pending, anchor, lost⟩)
  | holdEnded pending nothing mark =>
    refine aims.of_out only rfl (ends ⟨_, _, mark, holdEnds_of_none mark nothing, ?_⟩ rfl)
    exact .inl ⟨_, pending⟩
  | holdDone pending first due spliced =>
    simp only [Output.goal, pending] at goal
    subst spliced
    obtain ⟨x, found, -⟩ := layout.sync_entry (List.mem_of_find?_eq_some first)
    have found' : (e.endHold now).entry _ = some x := ((endHold_onlyOut now e).entry _).trans found
    refine aims.of_out only (by simp [endHold_out]) ?_
    simp only [Output.goal, finishPending_out, spliceTo_delay found']
    omega
  | covered pending _ spliced =>
    subst spliced
    simp only [Output.goal, pending] at goal
    exact aims.of_out only (by simp [endHold_out]) goal
  | anchored pending | coverLost pending | replayHeld _ pending =>
    simp only [Output.goal, pending] at goal
    exact aims.of_out only rfl goal
  | heldFrame =>
    have course := showFrame_course e now ‹_›
    refine aims.of_out only course.target ?_
    simp only [Output.goal, course.pending, course.delay]
    exact goal
  | started _ _ _ _ first => exact (slows_started layout first).aims aims
  | sent =>
    have course := sendEntry_course e
    refine aims.of_out only course.target ?_
    simp only [Output.goal, course.pending, course.delay]
    exact goal
  | unconfirmed | caughtUp | newSession | sessionSkipped | markSkipped | silenced =>
    exact aims.of_out only rfl goal

/-- A mask is without its anchor only if it was so before the move. -/
theorem Move.maskGone' (move : Move now e e' out) (layout : e.Layout) (gone : e'.MaskGone) :
    e.MaskGone ∧ e.out.delay ≤ e'.out.delay := by
  obtain ⟨m, a, pending, anchor, lost⟩ := gone
  have same (slows : Slows e e') : e.MaskGone ∧ e.out.delay ≤ e'.out.delay := by
    rcases slows.pending with same | ⟨-, ⟨d, planned, -⟩ | ⟨-, afterSeq, planned⟩⟩
    · rw [slows.only.entry] at lost
      exact ⟨⟨m, a, same.symm.trans pending, anchor, lost⟩, slows.delay⟩
    · rw [planned] at pending
      contradiction
    · rw [planned] at pending
      contradiction
  have only := move.onlyOut
  cases move with
  | started _ _ _ _ first => exact same (slows_started layout first)
  | heldFrame =>
    have course := showFrame_course e now ‹_›
    exact same (.of_pending only (Nat.le_of_eq course.delay.symm) course.target course.pending
      ⟨course.out (·.historyShort), course.out (·.memoryShort)⟩ course.maskVisible)
  | sent =>
    have course := sendEntry_course e
    exact same (.of_pending only (Nat.le_of_eq course.delay.symm) course.target course.pending
      ⟨course.out (·.historyShort), course.out (·.memoryShort)⟩ course.maskVisible)
  | unconfirmed | caughtUp | newSession | sessionSkipped | markSkipped | silenced =>
    exact same (.of_pending only (Nat.le_refl _) rfl rfl ⟨rfl, rfl⟩ rfl)
  | anchored _ _ _ first =>
    obtain rfl := Pending.mask.inj pending
    obtain rfl := Option.some.inj anchor
    obtain ⟨-, x, found, -⟩ := firstSyncArrivedFrom_mem first
    rw [only.entry, found] at lost
    contradiction
  | covered _ first spliced =>
    obtain rfl := Pending.mask.inj pending
    obtain rfl := Option.some.inj anchor
    obtain ⟨-, x, found, -⟩ := firstSyncArrivedFrom_mem first
    rw [only.entry, found] at lost
    contradiction
  | holdDone _ _ _ spliced =>
    subst spliced
    contradiction
  | liveSplice | liveEdge | airedMark | reduceDone | reduceSplice | maskGone | maskDone | coverLost
  | holdEnded | replayDone | replayHeld => contradiction

/-- A move does not raise what is asked for. -/
theorem Move.target (move : Move now e e' out) (layout : e.Layout) :
    e'.out.target = e.out.target ∨ e'.out.target = min e.out.target e.maxDelay := by
  cases move with
  | started _ _ _ _ first => exact (slows_started layout first).target
  | covered _ _ spliced | holdDone _ _ _ spliced => exact .inl (by simp [spliced, endHold_out])
  | heldFrame => exact .inl (showFrame_course e now _).target
  | sent => exact .inl (sendEntry_course e).target
  | liveSplice | reduceSplice | replayDone | maskDone => exact .inl (by simp)
  | liveEdge | airedMark | reduceDone | unconfirmed | anchored | maskGone | coverLost | holdEnded
  | replayHeld | caughtUp | newSession | sessionSkipped | markSkipped | silenced => exact .inl rfl

/-- A move reports no shortage, and takes no report away. -/
theorem Move.notices (move : Move now e e' out) (layout : e.Layout) :
    e'.out.historyShort = e.out.historyShort ∧ e'.out.memoryShort = e.out.memoryShort := by
  cases move with
  | started _ _ _ _ first =>
    have slows := slows_started layout first
    exact ⟨slows.historyShort, slows.memoryShort⟩
  | covered _ _ spliced | holdDone _ _ _ spliced => simp [spliced, endHold_out]
  | heldFrame =>
    have course := showFrame_course e now ‹_›
    exact ⟨course.out (·.historyShort), course.out (·.memoryShort)⟩
  | sent =>
    have course := sendEntry_course e
    exact ⟨course.out (·.historyShort), course.out (·.memoryShort)⟩
  | liveSplice | reduceSplice | replayDone | maskDone => simp
  | liveEdge | airedMark | reduceDone | unconfirmed | anchored | maskGone | coverLost | holdEnded
  | replayHeld | caughtUp | newSession | sessionSkipped | markSkipped | silenced => exact ⟨rfl, rfl⟩

theorem Moves.notices (moves : Moves now e e' out) (layout : e.Layout) :
    e'.out.historyShort = e.out.historyShort ∧ e'.out.memoryShort = e.out.memoryShort := by
  refine (Steps.preserves
    (P := fun mid => mid.Layout ∧ mid.out.historyShort = e.out.historyShort ∧
      mid.out.memoryShort = e.out.memoryShort) ?_ moves ⟨layout, rfl, rfl⟩).2
  rintro s t sent move ⟨layout, history, memory⟩
  obtain ⟨history', memory'⟩ := move.notices layout
  exact ⟨move.layout layout, history'.trans history, memory'.trans memory⟩

/-- A hold that is about to end was about to, or a replay just became it. -/
theorem Move.holdEnds (move : Move now e e' out) (ends : e'.HoldEnds now) :
    e'.out.delay = e.out.delay ∧
      (e.HoldEnds now ∨ ∃ fromSeq delay, e.out.pending = .replay fromSeq delay) := by
  obtain ⟨fromSeq, m, mark, nothing, pending⟩ := ends
  rw [move.endMark] at mark
  rw [move.onlyOut.syncs] at nothing
  have same (delay : e'.out.delay = e.out.delay) (same : e'.out.pending = e.out.pending) :
      e'.out.delay = e.out.delay ∧
        (e.HoldEnds now ∨ ∃ fromSeq delay, e.out.pending = .replay fromSeq delay) := by
    rw [same] at pending
    exact ⟨delay, .inl ⟨fromSeq, m, mark, nothing, pending⟩⟩
  have holding : e'.out.pending.holding := by
    rcases pending with ⟨d, pending⟩ | ⟨d, started, pending, -⟩ <;> simp [pending, Pending.holding]
  cases move with
  | heldFrame =>
    have course := showFrame_course e now ‹_›
    exact same course.delay course.pending
  | coverLost dump waited =>
    rcases pending with ⟨d, pending⟩ | ⟨d, started, pending, -⟩
    · obtain ⟨rfl, rfl⟩ := Pending.hold.inj pending
      exact ⟨rfl, .inl ⟨_, m, mark, nothing, .inr ⟨_, _, dump, waited⟩⟩⟩
    · contradiction
  | replayHeld _ replay => exact ⟨rfl, .inr ⟨_, _, replay⟩⟩
  | unconfirmed | caughtUp | newSession | sessionSkipped | markSkipped | silenced =>
    exact same rfl rfl
  | sent _ airs =>
    have same : e.sendEntry.1.out.pending = e.out.pending := (sendEntry_course e).pending
    rw [same, airs] at holding
    contradiction
  | started _ airs =>
    rw [startAt_holding now _ _ airs] at holding
    contradiction
  | holdDone _ _ _ spliced =>
    subst spliced
    contradiction
  | liveSplice | liveEdge | airedMark | reduceDone | reduceSplice | maskGone | maskDone
  | holdEnded | replayDone | anchored | covered => contradiction

/-- A buffered message that a move sends is the one at the cursor, and is due. -/
theorem Move.sends (move : Move now e e' out) {s : Sent} (member : s ∈ out) {x : Entry}
    (buffered : s.entry? = some x) :
    e.entry e.out.nextSeq = some x ∧ x.arrival + e.out.delay ≤ now ∧
      e.out.pending.holding = false ∧ s.masked = e.out.maskVisible := by
  cases move with
  | heldFrame =>
    rcases showFrame_sent member with header | ⟨origin, -⟩
    · rw [header.entry?] at buffered
      contradiction
    · simp [Sent.entry?, origin] at buffered
  | sent _ airs _ _ found _ due _ =>
    obtain ⟨header | ⟨origin, -⟩, masked⟩ := sendEntry_sent found member
    · rw [header.entry?] at buffered
      contradiction
    · simp only [Sent.entry?, origin, Option.some.injEq] at buffered
      subst buffered
      exact ⟨found, due, airs, masked⟩
  | liveSplice | liveEdge | airedMark | reduceDone | reduceSplice | unconfirmed | anchored
  | maskGone | maskDone | coverLost | covered | holdEnded | holdDone | replayDone | replayHeld
  | caughtUp | newSession | sessionSkipped | markSkipped | started | silenced => contradiction

/-! ## Looking at the pending change -/

/-- The engine as an operation goes on with the change that is pending already, and when. -/
def resumed (e : Engine) : Op → Option (ℕ × Engine)
  | .pollBudget now _ => some (now, e.evict now)
  | .command now (.slateShown change) => some (now, e.slateShown now change)
  | .command now .cancel => if e.out.pending.afterDump then some (now, e) else none
  | .command now (.setDelay ms mode) =>
    if e.checkCommand (.setDelay ms mode) = none ∧ 0 < ms then
      (e.out.pending.withDumpDelay (ms * MS)).map fun p => (now, e.setDumpDelay (ms * MS) p)
    else none
  | _ => none

/-- Nothing the output would give up now leaves it at a delay below `d`. -/
structure Secure (now d : ℕ) (e : Engine) : Prop where
  ends : e.HoldEnds now → d ≤ e.out.delay
  gone : e.MaskGone → d ≤ e.out.delay

/-- Only a dump starts a replay. -/
theorem Move.replay (move : Move now e e' out) {fromSeq delay : ℕ}
    (pending : e'.out.pending = .replay fromSeq delay) :
    e.out.pending = .replay fromSeq delay := by
  cases move with
  | heldFrame => rwa [(showFrame_course e now _).pending] at pending
  | sent => rwa [(sendEntry_course e).pending] at pending
  | started =>
    rcases e.startAt_cases now _ _ with same | ⟨-, -, -, same⟩ | ⟨-, -, same⟩
    · rwa [same, spliceTo_pending] at pending
    · rw [same] at pending
      contradiction
    · rw [same] at pending
      contradiction
  | unconfirmed | caughtUp | newSession | sessionSkipped | markSkipped | silenced => exact pending
  | holdDone _ _ _ spliced =>
    subst spliced
    contradiction
  | liveSplice | liveEdge | airedMark | reduceDone | reduceSplice | maskGone | maskDone | coverLost
  | holdEnded | replayDone | replayHeld | anchored | covered => contradiction

/-- A poll's turns end no hold, so only a lost mask could give up the aim. -/
theorem Turns.aims (turns : Turns now e e' out) (layout : e.Layout) (positive : 0 < d)
    (gone : e.MaskGone → d ≤ e.out.delay) (aims : e.Aims d) :
    e'.Aims d ∧ (e'.MaskGone → d ≤ e'.out.delay) := by
  refine (Steps.preserves
    (P := fun e => e.Layout ∧ e.Aims d ∧ (e.MaskGone → d ≤ e.out.delay)) ?_ turns
    ⟨layout, aims, gone⟩).2
  rintro s t sent ⟨move, held⟩ ⟨layout, aims, gone⟩
  refine ⟨move.layout layout, move.aims layout positive ?_ gone aims, fun lost => ?_⟩
  · rintro ⟨fromSeq, m, -, -, pending⟩ ended
    have holding : s.out.pending.holding := by
      rcases pending with ⟨delay, pending⟩ | ⟨delay, started, pending, -⟩ <;>
        simp [pending, Pending.holding]
    rw [held holding] at ended
    contradiction
  · obtain ⟨before, grew⟩ := move.maskGone' layout lost
    exact Nat.le_trans (gone before) grew

/-- Looking at the pending change keeps the aim of a secure output. -/
theorem runPending_aims (layout : e.Layout) (positive : 0 < d) (secure : e.Secure now d)
    (aims : e.Aims d) :
    (e.runPending now).Aims d ∧ ((e.runPending now).MaskGone → d ≤ (e.runPending now).out.delay) := by
  by_cases replaying : ∃ fromSeq delay, e.out.pending = .replay fromSeq delay
  · obtain ⟨fromSeq, delay, pending⟩ := replaying
    exact Turns.aims (runPending_turns now (by rw [pending]; rfl)) layout positive secure.gone aims
  · have kept := Steps.preserves
      (P := fun e => e.Layout ∧ e.Aims d ∧ e.Secure now d ∧
        ¬∃ fromSeq delay, e.out.pending = .replay fromSeq delay) ?_ (runPending_moves now e)
      ⟨layout, aims, secure, replaying⟩
    · exact ⟨kept.2.1, kept.2.2.1.gone⟩
    · rintro s t sent move ⟨layout, aims, secure, none⟩
      refine ⟨move.layout layout, move.aims layout positive (fun ends _ => secure.ends ends)
        secure.gone aims, ⟨fun ends => ?_, fun lost => ?_⟩, ?_⟩
      · obtain ⟨delay, before | replay⟩ := move.holdEnds ends
        · rw [delay]
          exact secure.ends before
        · exact absurd replay none
      · obtain ⟨before, grew⟩ := move.maskGone' layout lost
        exact Nat.le_trans (secure.gone before) grew
      · rintro ⟨fromSeq, delay, pending⟩
        exact none ⟨fromSeq, delay, move.replay pending⟩

/-- A poll keeps the aim of an output that is secure once it has evicted. -/
theorem pollBudget_aims (layout : (e.evict now).Layout) (positive : 0 < d)
    (secure : (e.evict now).Secure now d) (aims : (e.evict now).Aims d) (maxBytes : ℕ) :
    (e.pollBudget now maxBytes).1.Aims d := by
  obtain ⟨looked, gone⟩ := runPending_aims layout positive secure aims
  exact (Turns.aims (pollBudget_turns layout maxBytes)
    (Moves.layout (runPending_moves now _) layout) positive gone looked).1

/-! ## Commands and connections -/

/-- Nothing that could be given up is pending. -/
theorem Secure.of_pending (hold : e.out.pending.holding = false)
    (mask : ∀ m a, e.out.pending = .mask m → m.anchor ≠ some a) : e.Secure now d where
  ends := by
    rintro ⟨fromSeq, m, -, -, ⟨delay, pending⟩ | ⟨delay, started, pending, -⟩⟩ <;>
      simp [pending, Pending.holding] at hold
  gone := by
    rintro ⟨m, a, pending, anchor, -⟩
    exact absurd anchor (mask m a pending)

theorem Secure.of_unmarked (mark : e.out.endMark = none)
    (mask : ∀ m, e.out.pending ≠ .mask m) : e.Secure now d where
  ends := by
    rintro ⟨fromSeq, m, marked, -⟩
    rw [mark] at marked
    contradiction
  gone := by
    rintro ⟨m, a, pending, -⟩
    exact absurd pending (mask m)

theorem Secure.congr (secure : e.Secure now d) (only : OnlyOut e e')
    (mark : e'.out.endMark = e.out.endMark) (pending : e'.out.pending = e.out.pending)
    (delay : e'.out.delay = e.out.delay) : e'.Secure now d where
  ends := by
    rintro ⟨fromSeq, m, marked, nothing, held⟩
    rw [mark] at marked
    rw [only.syncs] at nothing
    rw [pending] at held
    rw [delay]
    exact secure.ends ⟨fromSeq, m, marked, nothing, held⟩
  gone := by
    rintro ⟨m, a, masked, anchor, lost⟩
    rw [pending] at masked
    rw [only.entry] at lost
    rw [delay]
    exact secure.gone ⟨m, a, masked, anchor, lost⟩

theorem Secure.of_settled (settled : e.out.pending.settled = true) : e.Secure now d := by
  refine .of_pending ?_ fun m a pending => ?_
  · cases pending : e.out.pending <;> simp [pending, Pending.settled, Pending.holding] at settled ⊢
  · rw [pending] at settled
    contradiction

private theorem reconnect_slows (now : ℕ) (e : Engine) : Slows e (e.reconnect now) := by
  unfold reconnect
  split
  · exact .of_pending rfl (Nat.le_refl _) rfl rfl ⟨rfl, rfl⟩ rfl
  · next k _ =>
    have grown : Slows e (e.noteGrowth (max e.out.delay (now - e.arrivalOr k now))) :=
      .of_pending rfl (Nat.le_refl _) rfl rfl ⟨rfl, rfl⟩ rfl
    have spliced := grown.trans (spliceTo_slows k (Nat.le_max_left _ _ :
      e.out.delay ≤ max e.out.delay (now - e.arrivalOr k now)))
    have restarted : Slows e (e.restartFrom now k) := spliced.trans (backUnderMax_slows _)
    dsimp only
    split
    · exact restarted.trans (backToTarget_slows _)
    · exact restarted

theorem outputConnected_slows (now : ℕ) (e : Engine) : Slows e (e.outputConnected now) := by
  have fresh : Slows e (e.freshConnection now) :=
    .of_pending rfl (Nat.le_refl _) rfl rfl ⟨rfl, rfl⟩ rfl
  unfold outputConnected
  dsimp only
  split
  · exact .of_pending rfl (Nat.le_refl _) rfl rfl ⟨rfl, rfl⟩ rfl
  · split
    · exact fresh.trans (reconnect_slows now _)
    · exact fresh

/-- Going back to keyframe `k` only adds delay, and comes down to `r` at most. -/
theorem rewindTo_goal (now r k : ℕ) (known : Bool) (pending : e.out.pending = .none) :
    (e.rewindTo now r k known).out.pending.settled = true ∧
      e.out.delay ≤ (e.rewindTo now r k known).out.delay ∧
      min r e.out.delay ≤ (e.rewindTo now r k known).out.goal := by
  unfold rewindTo
  dsimp only
  split
  · next longer =>
    have delay : e.out.delay ≤ (e.spliceTo k (now - e.arrivalOr k now)).out.delay :=
      (spliceTo_slows k (Nat.le_of_lt longer)).delay
    split
    · simp only [setPending_out, Pending.settled, Output.goal]
      refine ⟨trivial, delay, ?_⟩
      omega
    · simp only [spliceTo_pending, pending, Pending.settled, Output.goal]
      refine ⟨trivial, delay, ?_⟩
      omega
  · simp only [pending, Pending.settled, Output.goal]
    exact ⟨trivial, Nat.le_refl _, Nat.min_le_right _ _⟩

/-- Going back to a keyframe old enough gives the delay asked for. -/
theorem rewindTo_reaches {r k : ℕ} {x : Entry} (found : e.entry k = some x)
    (old : x.arrival + r ≤ now) (pending : e.out.pending = .none) (below : e.out.delay < r) :
    r ≤ (e.rewindTo now r k true).out.goal := by
  unfold rewindTo
  dsimp only
  rw [arrivalOr_eq found, if_pos (by omega)]
  split
  · simp only [setPending_out, Output.goal, spliceTo_delay found]
    omega
  · simp only [Output.goal, spliceTo_pending, pending, spliceTo_delay found]
    omega

theorem rewindTo_flags (now r k : ℕ) (known : Bool) (e : Engine) :
    (e.rewindTo now r k known).out.target = e.out.target ∧
      (e.rewindTo now r k known).out.historyShort = e.out.historyShort := by
  unfold rewindTo
  dsimp only
  split
  · split <;> simp
  · exact ⟨rfl, rfl⟩

/-- A rewind adds delay; one that does not reach what was asked for says so. -/
theorem rewind_goal (now r : ℕ) (pending : e.out.pending = .none) (below : e.out.delay < r) :
    (e.rewind now r).out.pending.settled = true ∧ e.out.delay ≤ (e.rewind now r).out.delay ∧
      e.out.delay ≤ (e.rewind now r).out.goal ∧ (e.rewind now r).out.target = e.out.target ∧
      (r ≤ (e.rewind now r).out.goal ∨ (e.rewind now r).out.historyShort = true) := by
  unfold rewind
  split
  · next k newest =>
    obtain ⟨-, t, before, x, found, arrived⟩ := newestSyncArrivedBy_mem newest
    have before := checkedSub_eq_some.mp before
    obtain ⟨settled, delay, goal⟩ := rewindTo_goal now r k true pending
    refine ⟨settled, delay, by omega, (rewindTo_flags now r k true e).1, .inl ?_⟩
    exact rewindTo_reaches found (by omega) pending below
  · split
    · simp only [noteShort, pending, Pending.settled, Output.goal]
      exact ⟨trivial, Nat.le_refl _, Nat.le_refl _, trivial, .inr trivial⟩
    · next k _ =>
      obtain ⟨settled, delay, goal⟩ :=
        rewindTo_goal (e := e.noteShort now) now r k false pending
      have flags := rewindTo_flags now r k false (e.noteShort now)
      have same : (e.noteShort now).out.delay = e.out.delay := rfl
      exact ⟨settled, delay, by omega, flags.1, .inr flags.2⟩

/-- A change of delay other than by a dump: the output goes for it, or says that it cannot. -/
theorem changeDelay_goal (now : ℕ) {r : ℕ} (mode : DelayMode) (e : Engine) (positive : 0 < r) :
    (e.changeDelay now r mode).out.target = r ∧
      ((e.changeDelay now r mode).out.pending.settled = true ∨
        ∃ m, (e.changeDelay now r mode).out.pending = .mask m ∧ m.anchor = none ∧ m.delay = r ∧
          (e.changeDelay now r mode).out.delay = e.out.delay) ∧
      min r e.out.delay ≤ (e.changeDelay now r mode).out.delay ∧
      min r e.out.delay ≤ (e.changeDelay now r mode).out.goal ∧
      (r ≤ (e.changeDelay now r mode).out.goal ∨
        (e.changeDelay now r mode).out.pending.settled = true ∧
          (e.changeDelay now r mode).out.historyShort = true) := by
  unfold changeDelay
  generalize start : (e.retarget r).setPending .none = mid
  have pending : mid.out.pending = .none := by rw [← start]; rfl
  have target : mid.out.target = r := by rw [← start]; rfl
  have delay : mid.out.delay = e.out.delay := by rw [← start]; rfl
  dsimp only
  split
  · simp only [pending, target, Pending.settled, Output.goal]
    exact ⟨trivial, .inl trivial, Nat.min_le_left _ _, Nat.min_le_left _ _, .inl (Nat.le_refl _)⟩
  · rw [if_neg (by omega)]
    split
    · next below =>
      split
      · obtain ⟨settled, longer, goal, same, reached⟩ := rewind_goal now r pending below
        refine ⟨same.trans target, .inl settled, by omega, by omega, ?_⟩
        exact reached.imp id fun short => ⟨settled, short⟩
      · refine ⟨target, .inr ⟨_, rfl, rfl, rfl, delay⟩, ?_, ?_, .inl (Nat.le_refl _)⟩
        · rw [← delay]
          exact Nat.min_le_right _ _
        · exact Nat.min_le_left _ _
    · split
      · simp only [setPending_out, Pending.settled, Output.goal]
        exact ⟨target, .inl trivial, by omega, by omega, .inl (by omega)⟩
      · simp only [pending, target, delay, Pending.settled, Output.goal]
        exact ⟨trivial, .inl trivial, Nat.min_le_right _ _, Nat.min_le_right _ _, .inl (by omega)⟩

theorem changeDelay_zero (now : ℕ) (mode : DelayMode) (e : Engine) :
    (e.changeDelay now 0 mode).out.target = 0 := by
  unfold changeDelay
  dsimp only
  split
  · rfl
  · rw [if_pos rfl]
    unfold goLive
    dsimp only
    split <;> rfl

@[simp] theorem setDumpDelay_target (r : ℕ) (p : Pending) (e : Engine) :
    (e.setDumpDelay r p).out.target = r := rfl

theorem setDumpDelay_out (r : ℕ) (p : Pending) (e : Engine) :
    (e.setDumpDelay r p).out =
      { e.out with pending := p, target := r, historyShort := false } := rfl

/-- A dump that is recovering says how far with another delay. -/
theorem withDumpDelay_cases {r : ℕ} {p q : Pending} (same : p.withDumpDelay r = some q) :
    (∃ fromSeq delay, p = .replay fromSeq delay ∧ q = .replay fromSeq r) ∨
      (∃ fromSeq delay, p = .hold fromSeq delay ∧ q = .hold fromSeq r) ∨
      (∃ delay started fromSeq shown, p = .dump delay started fromSeq shown ∧
        q = .dump r started fromSeq shown) ∨
      ∃ m, p = .mask m ∧ m.dump = true ∧ q = .mask { m with delay := r } := by
  cases p with
  | mask m =>
    unfold Pending.withDumpDelay at same
    dsimp only at same
    split at same
    · next isDump => exact .inr (.inr (.inr ⟨m, rfl, isDump, (Option.some.inj same).symm⟩))
    · contradiction
  | dump delay started fromSeq shown =>
    exact .inr (.inr (.inl ⟨_, _, _, _, rfl, (Option.some.inj same).symm⟩))
  | hold => exact .inr (.inl ⟨_, _, rfl, (Option.some.inj same).symm⟩)
  | replay => exact .inl ⟨_, _, rfl, (Option.some.inj same).symm⟩
  | none | goLiveNow | afterAir | reduce => contradiction

/-- A change cancelled: the delay there is becomes the one asked for. -/
theorem cancel_slows (e : Engine) (airs : e.out.pending.afterDump = false) :
    ∃ mid, Slows mid e.cancel ∧ OnlyOut e mid ∧ mid.out.pending = .none ∧
      mid.out.delay = e.out.delay ∧
      mid.out.target =
        if min e.out.delay e.maxDelay < 500 * MS then 0 else min e.out.delay e.maxDelay := by
  unfold cancel
  rw [if_neg (by simp [airs])]
  dsimp only
  split
  · exact ⟨_, backUnderMax_slows _, rfl, rfl, rfl, rfl⟩
  · exact ⟨_, .refl _, rfl, rfl, rfl, rfl⟩

/-- Nothing accepted asks for more than the maximum. -/
theorem checkCommand_setDelay {ms : ℕ} {mode : DelayMode}
    (accepted : e.checkCommand (.setDelay ms mode) = none) : ms * MS ≤ e.maxDelay := by
  unfold checkCommand at accepted
  dsimp only at accepted
  split at accepted
  · contradiction
  · exact Nat.mul_le_mul_right MS (by omega)

/-! ## Dumps -/

theorem dumpDelay_within (e : Engine) : e.dumpDelay ≤ e.maxDelay := Nat.min_le_right _ _

/-- A dump during a broadcast goes back to the delay asked for, or else to the one there is. -/
theorem dumpDelay_of_aims (positive : 0 < d) (aims : e.Aims d) : d ≤ e.dumpDelay := by
  have asked := aims.asked
  have within := aims.within
  unfold dumpDelay
  rw [if_pos (by omega)]
  exact Nat.le_min.mpr ⟨asked, within⟩

theorem canDump_running (allowed : e.canDump = true) (started : e.out.started = true)
    (running : e.dumpEnding = false) : 500 * MS ≤ e.dumpDelay := by
  obtain ⟨mark, active⟩ := dumpEnding_false.mp running
  simpa [canDump, started, mark, active] using allowed

/-- A dump during a broadcast is on its way back to its delay. -/
theorem dump_goal (now : ℕ) (mode : DelayMode) (cover : Bool) (e : Engine)
    (started : e.out.started = true) (running : e.dumpEnding = false) :
    (e.dump now mode cover).1.out.target = e.dumpDelay ∧
      (e.dump now mode cover).1.out.goal = e.dumpDelay ∧
      (e.dump now mode cover).1.maxDelay = e.maxDelay := by
  rcases e.dump_cases now mode cover with
    ⟨idle, -⟩ | ⟨-, ending, -⟩ | ⟨-, -, k, -, same⟩ | ⟨-, -, same⟩
  · rw [started] at idle
    contradiction
  · rw [running] at ending
    contradiction
  · rw [same]
    unfold replayAt
    dsimp only
    refine ⟨by simp [retarget, truncate], by simp [Output.goal], ?_⟩
    rw [(spliceTo_onlyOut _ _ _).maxDelay, maxDelay, (setPending_onlyOut _ _).config,
      splitSession_config]
    rfl
  · rw [same, holdInstead_eq]
    refine ⟨by simp [retarget], ?_, by simp [maxDelay, retarget]⟩
    cases cover <;> simp [Output.goal]

/-- A dump during a broadcast, which has no end mark, can only wait. -/
theorem dump_secure (now : ℕ) (mode : DelayMode) (cover : Bool) (e : Engine)
    (started : e.out.started = true) (running : e.dumpEnding = false) :
    (e.dump now mode cover).1.Secure now d := by
  have unmarked := (dumpEnding_false.mp running).1
  rcases e.dump_cases now mode cover with
    ⟨idle, -⟩ | ⟨-, ending, -⟩ | ⟨-, -, k, -, same⟩ | ⟨-, -, same⟩
  · rw [started] at idle
    contradiction
  · rw [running] at ending
    contradiction
  · rw [same]
    unfold replayAt
    dsimp only
    exact .of_unmarked (by simp [retarget, truncate, unmarked]) (by simp)
  · rw [same, holdInstead_eq]
    refine .of_unmarked (by simp [retarget, unmarked]) ?_
    cases cover <;> simp

/-- At the end of a broadcast a dump leaves the delay as it is. -/
theorem dump_ending (now : ℕ) (mode : DelayMode) (cover : Bool) (e : Engine)
    (ended : e.out.started = false ∨ e.dumpEnding = true) :
    (e.dump now mode cover).1.out.target = e.out.target ∧
      (e.dump now mode cover).1.out.delay = e.out.delay ∧
      ((e.dump now mode cover).1.out.pending = e.out.pending ∧ e.out.started = false ∨
        (e.dump now mode cover).1.out.pending = .none) ∧
      (e.dump now mode cover).1.maxDelay = e.maxDelay := by
  unfold dump
  split
  · next idle =>
    rw [dropBuffer_out]
    exact ⟨rfl, rfl, .inl ⟨rfl, by simpa using idle⟩, by simp [maxDelay]⟩
  · next up =>
    have up : e.out.started = true := by simpa using up
    have ending : e.dumpEnding = true := by simpa [up] using ended
    rw [if_pos ending, setPending_out, dropBuffer_out]
    exact ⟨rfl, rfl, .inr rfl, by simp [maxDelay, (setPending_onlyOut _ _).config]⟩

/-! ## The memory limit -/

/-- Eviction takes messages off the front and nothing else, or says that the memory is short. -/
theorem evict_cases (layout : e.Layout) (now : ℕ) :
    (∃ n, Trimmed n e (e.evict now)) ∨ (e.evict now).out.memoryShort = true := by
  obtain ⟨n, mid, trimmed, same | same⟩ := evict_trimmed layout now
  · rw [same]
    exact .inl ⟨n, trimmed⟩
  · rw [same]
    unfold memoryShort
    split
    · exact .inl ⟨n, trimmed⟩
    · refine .inr ?_
      dsimp only
      split
      · rfl
      · split <;> rfl

theorem evict_maxDelay (layout : e.Layout) (now : ℕ) : (e.evict now).maxDelay = e.maxDelay := by
  obtain ⟨n, mid, trimmed, same | same⟩ := evict_trimmed layout now
  · rw [same, maxDelay, trimmed.config, maxDelay]
  · rw [same, (memoryShort_hold now mid).1.maxDelay, maxDelay, trimmed.config, maxDelay]

/-! ## What was emitted and not taken -/

/-- Going back to a resume point moves the cursor, and nothing else. -/
theorem resumeAfter_eq (last : Option ℕ) (e : Engine) :
    ∃ seq, e.resumeAfter last = { e with out := { e.out with nextSeq := seq } } ∧
      (seq = e.out.nextSeq ∨ ∃ r, last.elim e.out.firstEmitted (fun s => some (s + 1)) = some r ∧
        seq = min e.out.nextSeq r) := by
  unfold resumeAfter
  split
  · exact ⟨e.out.nextSeq, rfl, .inl rfl⟩
  · next r resumes => exact ⟨_, rfl, .inr ⟨r, resumes, rfl⟩⟩

/-- What was not taken is taken back: the cursor moves, and the headers may have to be sent again. -/
theorem unsend_eq (taken : Option ℕ) (e : Engine) :
    ∃ seq headers metadata, e.unsend taken =
      { e with
        out := { e.out with nextSeq := seq, sentHeaders := headers, sentMetadata := metadata } } := by
  obtain ⟨seq, resumed, -⟩ := e.resumeAfter_eq taken
  unfold unsend
  split
  · exact ⟨_, _, _, rfl⟩
  · rw [resumed]
    exact ⟨_, _, _, rfl⟩

theorem unsend_canDump (taken : Option ℕ) (e : Engine) : (e.unsend taken).canDump = e.canDump := by
  obtain ⟨seq, headers, metadata, same⟩ := e.unsend_eq taken
  rw [same]
  rfl

theorem ingestStart_config (now : ℕ) (e : Engine) : (e.ingestStart now).config = e.config := by
  have popped (mid : Engine) : mid.popIdleSession.config = mid.config := by
    unfold popIdleSession
    split
    · split <;> rfl
    · rfl
  unfold ingestStart
  dsimp only [countSessions]
  rw [popped]
  split
  · rfl
  · exact e.dropBuffer_config

/-- During a broadcast a new publisher leaves what is buffered alone. -/
theorem ingestStart_running (started : e.out.started = true) (now : ℕ) :
    (e.ingestStart now).ring = e.ring ∧ (e.ingestStart now).syncs = e.syncs ∧
      (e.ingestStart now).baseSeq = e.baseSeq := by
  obtain ⟨ring, syncs, base, -⟩ := e.popIdleSession_ring
  unfold ingestStart
  dsimp only [countSessions]
  rw [if_pos started]
  exact ⟨ring, syncs, base⟩

theorem ingestMetadata_eq (now : ℕ) (payload : Flv.Bytes) (e : Engine) :
    ∃ sessions sessionBytes, e.ingestMetadata now payload =
      { e with sessions := sessions, sessionBytes := sessionBytes } := by
  unfold ingestMetadata
  split
  · exact ⟨_, _, rfl⟩
  · split
    · exact ⟨_, _, rfl⟩
    · exact ⟨_, _, rfl⟩

end Engine

end StreamDelay
