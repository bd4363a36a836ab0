import Mathlib.Tactic.Common
import StreamDelay.Proofs.Timed

/-! # The frame of a hold was shown before

A hold notes when its frame was last sent, and with a clock that does not go back that is not later than the
time reached.
-/

namespace StreamDelay

open Foundations

namespace Engine

/-- The frame of a hold was last shown at time `t` or before. -/
def HeldBy (t : ℕ) (e : Engine) : Prop := ∀ h, e.out.hold = some h → h.last ≤ t

variable {now t : ℕ} {e e' : Engine}

namespace HeldBy

theorem later (held : HeldBy t e) (le : t ≤ now) : HeldBy now e := fun h frame => Nat.le_trans (held h frame) le

theorem of_none (none : e.out.hold = none) : HeldBy t e := fun h frame => by
  rw [none] at frame
  contradiction

theorem of_hold (held : HeldBy t e) (hold : e'.out.hold = e.out.hold ∨ e'.out.hold = none) : HeldBy t e' := by
  rcases hold with same | gone
  · intro h frame
    rw [same] at frame
    exact held h frame
  · exact of_none gone

theorem setPending (held : HeldBy t e) (p : Pending) : HeldBy t (e.setPending p) :=
  held.of_hold (by cases kept : p.isHold <;> simp [kept])

theorem spliceTo (held : HeldBy t e) (k delay : ℕ) : HeldBy t (e.spliceTo k delay) :=
  held.of_hold (.inl (spliceTo_hold k delay e))

theorem endHold (now : ℕ) (e : Engine) : HeldBy t (e.endHold now) := of_none (by rw [endHold_out])

theorem dropBuffer (held : HeldBy t e) : HeldBy t e.dropBuffer := held.of_hold (.inl (by rw [dropBuffer_out]))

end HeldBy

/-! ## Moves -/

theorem Move.heldBy {out : List Sent} (move : Move now e e' out) (held : HeldBy now e) : HeldBy now e' := by
  cases move with
  | liveSplice | reduceSplice | replayDone => exact held.spliceTo _ _
  | maskDone => exact (held.spliceTo _ _).setPending _
  | maskGone | coverLost => exact held.setPending _
  | covered _ _ spliced | holdDone _ _ _ spliced =>
    subst spliced
    exact (HeldBy.endHold now e).spliceTo _ _
  | holdEnded => exact .of_none rfl
  | heldFrame =>
    intro h frame
    rw [(showFrame_course e now _).hold] at frame
    obtain rfl := Option.some.inj frame
    exact Nat.le_refl _
  | replayHeld =>
    intro h frame
    exact Nat.le_of_eq ((airedKeyframe_new frame).1)
  | started => exact fun h frame => held h (startAt_hold frame)
  | sent => exact held.of_hold (.inl (by rw [(sendEntry_course e).hold]; rfl))
  | liveEdge | airedMark | reduceDone | unconfirmed | anchored | caughtUp | newSession | sessionSkipped
  | markSkipped | silenced => exact held

theorem Moves.heldBy {out : List Sent} (moves : Moves now e e' out) (held : HeldBy now e) : HeldBy now e' :=
  Steps.preserves (fun _ _ _ move held => move.heldBy held) moves held

theorem HeldBy.runPending (held : HeldBy now e) : HeldBy now (e.runPending now) :=
  Moves.heldBy (runPending_moves now e) held

/-! ## Connections -/

namespace HeldBy

theorem backUnderMax (held : HeldBy t e) : HeldBy t e.backUnderMax := by
  rcases e.backUnderMax_out with same | ⟨-, -, same⟩
  · rwa [same]
  · rw [same]
    exact .of_none rfl

theorem backToTarget (held : HeldBy t e) : HeldBy t e.backToTarget := by
  rcases e.backToTarget_cases with same | ⟨-, -, same⟩
  · rwa [same]
  · rw [same]
    exact held.setPending _

theorem reconnect (held : HeldBy t e) : HeldBy t (e.reconnect now) := by
  unfold Engine.reconnect
  split
  · exact held
  · next k _ =>
    have grown : HeldBy t (e.noteGrowth (max e.out.delay (now - e.arrivalOr k now))) := held
    have restarted : HeldBy t (e.restartFrom now k) := (grown.spliceTo k _).backUnderMax
    dsimp only
    split
    · exact restarted.backToTarget
    · exact restarted

theorem outputConnected (held : HeldBy t e) : HeldBy t (e.outputConnected now) := by
  have fresh : HeldBy t (e.freshConnection now) := by
    intro h frame
    obtain ⟨g, there, rfl⟩ := Option.map_eq_some_iff.mp frame
    exact held g there
  unfold Engine.outputConnected
  dsimp only
  split
  · exact fresh
  · split
    · exact fresh.reconnect
    · exact fresh

theorem resumeAfter (held : HeldBy t e) (last : Option ℕ) : HeldBy t (e.resumeAfter last) := by
  unfold Engine.resumeAfter
  split <;> exact held

theorem unsend (held : HeldBy t e) (taken : Option ℕ) : HeldBy t (e.unsend taken) := by
  unfold Engine.unsend
  split
  · exact held
  · exact held.resumeAfter taken

/-! ## Commands -/

theorem rewindTo (held : HeldBy t e) (d k : ℕ) (known : Bool) : HeldBy t (e.rewindTo now d k known) := by
  unfold Engine.rewindTo
  dsimp only
  split
  · split
    · exact (held.spliceTo _ _).setPending _
    · exact held.spliceTo _ _
  · exact held

theorem rewind (held : HeldBy t e) (d : ℕ) : HeldBy t (e.rewind now d) := by
  have short : HeldBy t (e.noteShort now) := held
  unfold Engine.rewind
  split
  · exact held.rewindTo _ _ _
  · split
    · exact short
    · exact short.rewindTo _ _ _

theorem goLive (held : HeldBy t e) (when_ : GoLiveWhen) : HeldBy t (e.goLive when_) := by
  have targeted : HeldBy t (e.retarget 0) := held
  unfold Engine.goLive
  dsimp only
  split
  · exact setPending (e := { e.retarget 0 with out := { (e.retarget 0).out with delay := 0 } }) targeted _
  · exact targeted.setPending _

theorem cancel (held : HeldBy t e) : HeldBy t e.cancel := by
  have cleared : HeldBy t (e.setPending .none) := held.setPending _
  unfold Engine.cancel
  split
  · exact held
  · dsimp only
    split
    · exact backUnderMax cleared
    · exact cleared

theorem slateShown (held : HeldBy t e) (change : ℕ) : HeldBy t (e.slateShown now change) := by
  unfold Engine.slateShown
  split
  · exact held
  · split
    · split <;> exact held
    · exact held
    · exact held

theorem changeDelay (held : HeldBy t e) (d : ℕ) (mode : DelayMode) : HeldBy t (e.changeDelay now d mode) := by
  have cleared : HeldBy t ((e.retarget d).setPending .none) := setPending (e := e.retarget d) held _
  unfold Engine.changeDelay
  generalize (e.retarget d).setPending .none = mid at cleared
  dsimp only
  split
  · exact cleared
  · split
    · exact cleared.goLive .now
    · split
      · cases mode with
        | rewind => exact cleared.rewind d
        | mask =>
          have masked : HeldBy t (mid.setPending (.mask ⟨d, now, none, false, none, false⟩)) := cleared.setPending _
          exact masked
      · split
        · exact cleared.setPending _
        · exact cleared

theorem setDelay (held : HeldBy now e) (ms : ℕ) (mode : DelayMode) : HeldBy now (e.setDelay now ms mode) := by
  unfold Engine.setDelay
  dsimp only
  split
  · next p _ =>
    have targeted : HeldBy now (e.setDumpDelay (ms * MS) p) := held
    exact targeted.runPending
  · split
    · exact held
    · exact (held.changeDelay _ _).runPending

theorem clearNotices (held : HeldBy t e) (cmd : Command) : HeldBy t (e.clearNotices cmd) := by
  cases cmd <;> exact held

theorem dump (held : HeldBy now e) (mode : DelayMode) (cover : Bool) : HeldBy now (e.dump now mode cover).1 := by
  rcases e.dump_cases now mode cover with ⟨-, same⟩ | ⟨-, -, same⟩ | ⟨-, -, k, -, same⟩ | ⟨-, -, same⟩
  · rw [same]
    exact held.dropBuffer
  · rw [same]
    exact held.dropBuffer.setPending _
  · rw [same]
    exact of_none (replayAt_ring now _ k _).2.2
  · rw [same]
    intro h frame
    rw [(holdInstead_hold now _ cover _).1] at frame
    exact Nat.le_of_eq ((airedKeyframe_new frame).1)

theorem obey (held : HeldBy now e) (cmd : Command) : HeldBy now (e.obey now cmd).1 := by
  cases cmd with
  | setDelay ms mode => exact held.setDelay ms mode
  | goLive when_ => exact (held.goLive when_).runPending
  | cancel => exact held.cancel.runPending
  | slateShown change => exact (held.slateShown change).runPending
  | dump mode cover =>
    unfold Engine.obey
    dsimp only
    split
    · exact (held.dump mode cover).runPending
    · exact held

theorem command (held : HeldBy now e) (cmd : Command) : HeldBy now (e.command now cmd).1 := by
  unfold Engine.command
  split
  · exact held
  · exact (held.clearNotices cmd).obey cmd

/-! ## Every operation -/

theorem evict (held : HeldBy t e) (layout : e.Layout) (now : ℕ) : HeldBy t (e.evict now) := by
  obtain ⟨n, mid, trimmed, same | same⟩ := evict_trimmed layout now
  · rw [same]
    exact held.of_hold (.inl (by rw [trimmed.out]))
  · have popped : HeldBy t mid := held.of_hold (.inl (by rw [trimmed.out]))
    rw [same]
    exact popped.of_hold (memoryShort_hold now mid).2

theorem step (held : HeldBy t e) (layout : e.Layout) (op : Op) (le : t ≤ op.now?.getD t) :
    HeldBy (op.now?.getD t) (e.step op).1 := by
  have held := held.later le
  cases op with
  | ingestStart now =>
    intro h frame
    rw [show (e.step (.ingestStart now)).1 = e.ingestStart now from rfl, ingestStart_out] at frame
    split at frame
    · exact held h frame
    · exact held.dropBuffer h frame
  | ingestMetadata now payload =>
    exact held.of_hold (.inl (congrArg Output.hold (ingestMetadata_out e now payload)))
  | ingest now kind ts payload =>
    dsimp only [Engine.step]
    rcases e.ingest_cases now kind ts payload with same | ⟨session, -, -, same⟩
    · rwa [same]
    · have appended : HeldBy now (e.append now kind ts payload session) :=
        held.of_hold (.inl (congrArg Output.hold (append_out e now kind ts payload session)))
      rw [same]
      exact appended.evict (append_layout layout now kind ts payload session) now
  | outputConnected now => exact held.outputConnected
  | outputDisconnected now lastWritten =>
    exact resumeAfter (e := { e with out := { e.out with connected := false } }) held lastWritten
  | unsend taken => exact held.unsend taken
  | dumpAfter now taken mode cover =>
    dsimp only [Engine.step]
    unfold dumpAfter
    split
    · exact (held.unsend taken).command _
    · split
      · exact held
      · unfold refuseDump
        dsimp only
        split <;> exact held
  | outputReset | discard | restartAfterEnd => exact of_none rfl
  | endAfter =>
    dsimp only [Engine.step]
    cases e.lastSeq <;> exact held
  | command now cmd => exact held.command cmd
  | pollBudget now maxBytes =>
    exact Moves.heldBy (pollBudget_moves (evict_layout layout now) maxBytes) (held.evict layout now)
  | ingestEnd | cancelEnd | setKeepHistory | setRestoreAfterReconnect => exact held

theorem new (config : EngineConfig) : HeldBy 0 (Engine.new config) := of_none rfl

end HeldBy

end Engine

end StreamDelay
