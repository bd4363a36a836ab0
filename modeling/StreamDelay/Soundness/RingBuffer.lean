import Mathlib.Tactic.Common
import StreamDelay.Proofs.Unfailing

/-! # The ring buffer and what is kept beside it agree

After every operation of a run whose clock does not go back the ring is numbered and ordered, the list of
keyframes, the counters and the sessions say what is in it, and the cursor is within what was received. So
nothing the engine takes out is missing and nothing it subtracts is too much.
-/

namespace StreamDelay

open Foundations

namespace Engine

/-- How the ring, the numbers, the keyframes, the counters, the sessions and the cursor agree. -/
structure Ring (e : Engine) : Prop where
  first : e.baseSeq ≤ e.nextSeq
  numbers : e.ring.map Entry.seq = List.range' e.baseSeq (e.nextSeq - e.baseSeq)
  arrivals : e.ring.Pairwise fun x y => x.arrival ≤ y.arrival
  ordered : e.ring.Pairwise fun x y => x.session ≤ y.session
  keyframes : e.syncs = (e.ring.filter Entry.sync).map Entry.seq
  increasing : e.syncs.Pairwise (· < ·)
  bytes : e.bytes = (e.ring.map fun x => cost x.payload.length).sum
  sessionBytes : e.sessionBytes = (e.sessions.map Session.cost).sum
  kept : ∀ x ∈ e.ring, ∃ s ∈ e.sessions, s.id = x.session
  cursor : e.out.nextSeq ≤ e.nextSeq

/-- What holds at time `t` of a run whose clock does not go back, for the ring and for the frame of a hold. -/
structure Consistent (t : ℕ) (e : Engine) : Prop where
  regular : Regular t e
  counted : e.Counted
  listed : e.Listed
  held : HeldBy t e

namespace Consistent

variable {t : ℕ} {e : Engine}

theorem step (consistent : Consistent t e) (op : Op) (le : t ≤ op.now?.getD t) :
    Consistent (op.now?.getD t) (e.step op).1 := by
  have layout := consistent.regular.layout
  constructor
  · exact consistent.regular.step op le
  · exact step_counted layout consistent.counted op
  · exact step_listed layout consistent.regular.sessions consistent.listed op
  · exact consistent.held.step layout op le

theorem new (config : EngineConfig) : Consistent 0 (Engine.new config) where
  regular := ⟨.new config, new_inSession config, .new config⟩
  counted := ⟨rfl, rfl⟩
  listed := .of_empty rfl
  held := .new config

theorem reached (config : EngineConfig) {ops : List Op} (ordered : Chronological Op.now? 0 ops) :
    Consistent (clockAfter Op.now? 0 ops) ((Engine.new config).after ops) :=
  Chronological.preserves Engine.step (fun _ _ op le consistent => consistent.step op le) ordered (.new config)

theorem ring (consistent : Consistent t e) : e.Ring := by
  have layout := consistent.regular.layout
  have next := layout.next
  have behind : e.ring.Pairwise fun x y => x.seq < y.seq := layout.numbered.strict
  constructor
  · omega
  · rw [layout.numbered.map_key, ← next, Nat.add_sub_cancel_left]
  · exact behind.imp_of_mem fun left right lt => consistent.regular.timed.ordered _ left _ right (Nat.le_of_lt lt)
  · exact behind.imp_of_mem fun left right lt => consistent.regular.sessions.ordered _ left _ right (Nat.le_of_lt lt)
  · exact layout.syncs
  · exact layout.syncs_sorted
  · exact consistent.counted.bytes
  · exact consistent.counted.sessionBytes
  · exact fun x member => List.mem_map.mp (consistent.listed x member)
  · exact layout.cursor

theorem unfailing (consistent : Consistent t e) (op : Op) (le : t ≤ op.now?.getD t) :
    Guarded.step e op = some (e.step op) :=
  Guarded.step_eq consistent.regular.layout consistent.counted consistent.held op le

/-- A run that goes on from a consistent state fails nowhere. -/
theorem after_unfailing (consistent : Consistent t e) {ops : List Op} (ordered : Chronological Op.now? t ops) :
    Guarded.after e ops = some (e.after ops) := by
  induction ops generalizing t e with
  | nil => rfl
  | cons op rest ih =>
    have first : (Guarded.step e op).map Prod.fst = some (e.step op).1 := by
      rw [consistent.unfailing op ordered.1]
      rfl
    unfold Guarded.after
    rw [List.foldlM_cons, first]
    exact ih (consistent.step op ordered.1) ordered.2

end Consistent

/-- After every operation the ring and what is kept beside it agree, and none of the operations fails. -/
theorem ring_buffer (config : EngineConfig) (ops : List Op) (ordered : Chronological Op.now? 0 ops) :
    ((Engine.new config).after ops).Ring ∧
      Guarded.after (Engine.new config) ops = some ((Engine.new config).after ops) ∧
      (∀ seq, Guarded.entry seq ((Engine.new config).after ops) = some (((Engine.new config).after ops).entry seq)) ∧
      ∀ now maxBytes rounds, clockAfter Op.now? 0 ops ≤ now →
        let e := (((Engine.new config).after ops).evict now).runPending now
        e.out.connected → Guarded.pollLoop now maxBytes rounds 0 e = some (e.pollLoop now maxBytes rounds 0) := by
  have consistent := Consistent.reached config ordered
  refine ⟨consistent.ring, (Consistent.new config).after_unfailing ordered, fun seq => Guarded.entry_eq seq _, ?_⟩
  intro now maxBytes rounds le e connected
  have layout := evict_layout consistent.regular.layout now
  have held := (consistent.held.later le).evict consistent.regular.layout now
  exact Guarded.pollLoop_eq (Moves.layout (runPending_moves now _) layout) connected held.runPending

theorem ring_buffer_masking :
    Chronological Op.now? 0 masking ∧ ((Engine.new {}).after masking).Ring ∧
      Guarded.after (Engine.new {}) masking = some ((Engine.new {}).after masking) := by
  have run : Chronological Op.now? 0 masking := by decide
  have sound := ring_buffer {} masking run
  exact ⟨run, sound.1, sound.2.1⟩

/-- A keyframe whose timestamp does not fit a signed word is due. -/
def farAhead : List Op := [.ingestStart 0, .outputConnected 0, .ingest 0 .video (2 ^ 63) keyframe]

/-- The shift of timestamps at a splice overflows, and an end mark ahead of what was received takes the cursor there. -/
theorem ring_buffer_fails :
    (Chronological Op.now? 0 farAhead ∧
      ((Engine.new {}).after farAhead).startKeyframe 0 = some 0 ∧
      (((Engine.new {}).after farAhead).entry 0).map (fun x => Guarded.tsOffset x ((Engine.new {}).after farAhead)) =
        some none ∧
      ((Engine.new {}).after (farAhead ++ [.pollBudget 0 1000])).out.started = true) ∧
    ((Engine.new {}).endAfter 5).restartAfterEnd.nextSeq <
      ((Engine.new {}).endAfter 5).restartAfterEnd.out.nextSeq := by
  decide +kernel

end Engine

end StreamDelay
