import Mathlib.Tactic.Common
import StreamDelay.Proofs.Sessions

/-! # Messages arrive in order

With a clock that does not go back, what is numbered later arrived later, and nothing buffered
arrived after the time reached.
-/

namespace StreamDelay

open Foundations

namespace Engine

/-- At time `t`: messages are buffered in the order they arrived, up to `t`. -/
structure Timed (t : ℕ) (e : Engine) : Prop where
  ordered : ∀ x ∈ e.ring, ∀ y ∈ e.ring, x.seq ≤ y.seq → x.arrival ≤ y.arrival
  past : ∀ x ∈ e.ring, x.arrival ≤ t

namespace Timed

variable {t : ℕ} {e e' : Engine}

theorem later (timed : Timed t e) {t' : ℕ} (le : t ≤ t') : Timed t' e :=
  ⟨timed.ordered, fun x member => Nat.le_trans (timed.past x member) le⟩

theorem of_ring (timed : Timed t e) (ring : ∀ x ∈ e'.ring, x ∈ e.ring) : Timed t e' :=
  ⟨fun x left y right => timed.ordered x (ring x left) y (ring y right),
    fun x member => timed.past x (ring x member)⟩

theorem ingest (timed : Timed t e) (layout : e.Layout) {now : ℕ} (le : t ≤ now) {kind : Kind}
    {ts : ℕ} {payload : Flv.Bytes} : Timed now (e.ingest now kind ts payload) where
  ordered := by
    intro x left y right before
    rcases ingest_mem layout left with older | ⟨-, seqX, arrivalX⟩
    · rcases ingest_mem layout right with older' | ⟨-, -, arrivalY⟩
      · exact timed.ordered x older y older' before
      · have past := timed.past x older
        omega
    · rcases ingest_mem layout right with older' | ⟨-, -, arrivalY⟩
      · have bound := layout.upper older'
        omega
      · omega
  past := by
    intro x member
    rcases ingest_mem layout member with older | ⟨-, -, arrival⟩
    · exact Nat.le_trans (timed.past x older) le
    · omega

/-- An operation at or after the time reached keeps the order of arrivals. -/
theorem step (timed : Timed t e) (sound : e.Sound) (op : Op) (le : t ≤ op.now?.getD t) :
    Timed (op.now?.getD t) (e.step op).1 := by
  cases op with
  | ingest now kind ts payload => exact timed.ingest sound.layout le
  | ingestStart | ingestEnd | ingestMetadata | outputConnected | outputDisconnected | unsend
  | dumpAfter | outputReset | discard | endAfter | cancelEnd | restartAfterEnd | command
  | setKeepHistory | setRestoreAfterReconnect | pollBudget =>
    exact (timed.later le).of_ring (step_shrinks sound rfl).ring

theorem new (config : EngineConfig) : Timed 0 (Engine.new config) :=
  ⟨by simp [Engine.new], by simp [Engine.new]⟩

end Timed

/-- What holds at time `t` of a run whose clock does not go back. -/
structure Regular (t : ℕ) (e : Engine) : Prop where
  sound : e.Sound
  sessions : e.InSession
  timed : Timed t e

namespace Regular

variable {t : ℕ} {e : Engine}

theorem layout (regular : Regular t e) : e.Layout := regular.sound.layout

theorem step (regular : Regular t e) (op : Op) (le : t ≤ op.now?.getD t) :
    Regular (op.now?.getD t) (e.step op).1 where
  sound := regular.sound.step op
  sessions := step_inSession regular.sound regular.sessions op
  timed := regular.timed.step regular.sound op le

theorem after (regular : Regular t e) {ops : List Op} (ordered : Chronological Op.now? t ops) :
    Regular (clockAfter Op.now? t ops) (e.after ops) :=
  Chronological.preserves Engine.step (fun _ _ op le regular => regular.step op le) ordered regular

/-- Every run whose clock does not go back reaches regular states only. -/
theorem reached (config : EngineConfig) {ops : List Op} (ordered : Chronological Op.now? 0 ops) :
    Regular (clockAfter Op.now? 0 ops) ((Engine.new config).after ops) :=
  Regular.after ⟨.new config, new_inSession config, .new config⟩ ordered

end Regular

/-! ## What a dump replays -/

/-- A dump's replay starts from a keyframe that arrived the delay before the cut: it is numbered below
the cut, and buffered after it. -/
theorem replayFrom_entry {now delay k : ℕ} {e : Engine} (layout : e.Layout) (timed : Timed now e)
    (noMark : e.out.endMark = none) (positive : 0 < delay) (from_ : e.replayFrom now delay = some k) :
    ∃ x, x.sync = true ∧ x.arrival + delay ≤ now ∧
      (((e.truncate e.cut).splitSession e.cut).setPending (.replay e.cut delay)).entry k = some x := by
  unfold replayFrom at from_
  split at from_
  · contradiction
  · obtain ⟨sync, t, before, x, found, arrived⟩ := newestSyncArrivedBy_mem from_
    have before := checkedSub_eq_some.mp before
    obtain ⟨member, same⟩ := layout.entry_iff.mp found
    obtain ⟨y, -, buffered, isSync, number⟩ := layout.sync_entry sync
    obtain rfl := layout.eq_of_seq_eq member buffered (same.trans number.symm)
    have low := layout.lower member
    have high := layout.upper member
    have cursor := layout.cursor
    have next := layout.next
    have cut : e.cut = max e.out.nextSeq e.baseSeq := rfl
    have below : k < e.cut ∧ e.arrivalOr e.cut now ≤ now := by
      cases atCut : e.entry e.cut with
      | none =>
        have past : e.nextSeq ≤ e.cut := by
          by_contra inside
          obtain ⟨y, buffered⟩ := layout.entry_of_lt (by omega : e.baseSeq ≤ e.cut) (by omega)
          rw [buffered] at atCut
          contradiction
        simp only [arrivalOr, atCut, Option.elim_none]
        omega
      | some y =>
        have arrivalY : e.arrivalOr e.cut now = y.arrival := by
          simp only [arrivalOr, atCut, Option.elim_some]
        rw [arrivalY] at before ⊢
        obtain ⟨memberY, sameY⟩ := layout.entry_iff.mp atCut
        refine ⟨?_, timed.past y memberY⟩
        by_contra after
        have order := timed.ordered y memberY x member (by omega)
        omega
    have kept : x ∈ (e.truncate e.cut).ring :=
      (truncate_mem layout (Nat.le_max_right _ _)).mpr ⟨member, by omega⟩
    have split := cutOff_layout layout noMark
    have entry : ((e.truncate e.cut).splitSession e.cut).entry k = some x :=
      split.entry_iff.mpr ⟨by rwa [splitSession_ring], same⟩
    exact ⟨x, isSync, by omega, ((setPending_onlyOut _ _).entry k).trans entry⟩

end Engine

end StreamDelay
