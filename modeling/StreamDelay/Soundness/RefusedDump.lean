import Mathlib.Tactic.Common
import StreamDelay.Proofs.Goal
import StreamDelay.Proofs.Shadows

/-! # A refused dump

A dump that finds nothing to dump asks whether the connection threw away anything sent on it. It looks at the cursor to
find out, and the cursor also moves past messages that are never sent. And what was sent counts as not sent, so the
output sends its configuration again, at the configuration's own timestamp: what comes after it goes out no earlier.
-/

namespace StreamDelay

open Foundations

namespace Engine

variable {e : Engine} {taken : Option ℕ}

/-- What the connection took reaches up to the cursor; or the output waits for a keyframe, or starts from one,
anyway. -/
def Unlost (taken : Option ℕ) (e : Engine) : Prop :=
  e.out.connected = true →
    e.out.needSync = true ∨ e.out.pendingHeaders = true ∨
      taken.elim (e.out.firstEmitted = none) fun s => e.out.nextSeq ≤ s + 1

/-- With nothing lost, a refused dump forgets what was sent on the connection, and no more than that. -/
private theorem refuseDump_unlost (up : e.out.connected = true) (unlost : e.Unlost taken) :
    e.refuseDump taken = e.clearSent := by
  unfold refuseDump
  dsimp only
  split
  · next sought =>
    rw [Bool.and_eq_true, Bool.not_eq_true'] at sought
    obtain ⟨lost, spliced⟩ := sought
    rcases unlost up with waits | starts | reaches
    · rw [← waits]
    · rw [starts] at spliced
      contradiction
    · cases taken with
      | none =>
        rw [Option.elim_none] at lost reaches
        rw [reaches] at lost
        contradiction
      | some s =>
        simp only [Option.elim_some, decide_eq_true_eq] at lost reaches
        omega
  · rfl

/-- No other dump says that there is nothing to dump. -/
private theorem dumpAfter_nothing {now : ℕ} {mode : DelayMode} {cover : Bool}
    (refused : (e.dumpAfter now taken mode cover).2 = .error .nothingToDump) :
    e.out.started = true ∧
      (e.dumpAfter now taken mode cover).1 = if e.out.connected then e.refuseDump taken else e := by
  unfold dumpAfter at refused ⊢
  cases able : e.canDump with
  | true =>
    have still : ((e.unsend taken).clearNotices (.dump mode cover)).canDump = true :=
      (unsend_canDump taken e).trans able
    rw [able, if_pos rfl] at refused
    change ((((e.unsend taken).clearNotices (.dump mode cover)).obey now (.dump mode cover)).2 = _) at refused
    unfold obey at refused
    dsimp only at refused
    rw [if_pos still] at refused
    contradiction
  | false =>
    have started : e.out.started = true := by
      unfold canDump at able
      simp only [Bool.or_eq_false_iff, Bool.not_eq_false'] at able
      exact able.1.1.1
    cases e.out.connected with
    | true => exact ⟨started, rfl⟩
    | false => exact ⟨started, rfl⟩

/-- In every run, after a dump that finds nothing to dump, with what the connection took reaching up to the cursor,
every sequence of polls sends the messages of the buffer it would have sent without, at the same timestamps, as long as
the headers that go out again are overtaken in the polls without. -/
theorem refused_dump_harmless (config : EngineConfig) (ops : List Op) (now : ℕ) (taken : Option ℕ) (mode : DelayMode)
    (cover : Bool) (times : List ℕ)
    (refused : (((Engine.new config).after ops).dumpAfter now taken mode cover).2 = .error .nothingToDump)
    (unlost : ((Engine.new config).after ops).Unlost taken)
    (overtaken : ((Engine.new config).after ops).out.connected = true →
      Overtaken [] none (beats times ((Engine.new config).after ops))) :
    ∃ bytes, ∀ maxBytes, bytes ≤ maxBytes →
      media (((Engine.new config).after (ops ++ [.dumpAfter now taken mode cover])).sends
          (times.map fun t => .pollBudget t maxBytes)) =
        media (((Engine.new config).after ops).sends (times.map fun t => .pollBudget t maxBytes)) := by
  have coherent := (Sound.reached config ops).coherent
  rw [after, Machine.after_append]
  change ∃ bytes, ∀ maxBytes, bytes ≤ maxBytes →
    media ((((Engine.new config).after ops).dumpAfter now taken mode cover).1.sends _) = _
  generalize (Engine.new config).after ops = e at *
  obtain ⟨started, same⟩ := dumpAfter_nothing refused
  rw [same]
  split
  · next up =>
    rw [refuseDump_unlost up unlost]
    refine Shadow.sends times ⟨rfl, ⟨⟨rfl, rfl, fun _ => .inl rfl, .inl rfl⟩, fun _ none => ?_, .inl rfl, overtaken up⟩,
      started, coherent.frame⟩
    exact absurd none List.not_mem_nil
  · exact ⟨0, fun _ _ => rfl⟩

/-- At a delay of 300 ms, a keyframe is sent, and the configuration that was sent before it comes again, with timestamp
`ts`. -/
def repeating (ts : ℕ) : List Op :=
  [.ingestStart 0, .outputConnected 0, .command 0 (.setDelay 300 .rewind), .ingest 0 .video 0 [0x17, 0, 0, 0, 0, 1],
    .ingest 0 .video 0 keyframe, .ingest (40 * MS) .video 40 [0x27, 1, 0, 0, 0],
    .ingest (80 * MS) .video ts [0x17, 0, 0, 0, 0, 1], .ingest (120 * MS) .video 120 [0x27, 1, 0, 0, 0],
    .pollBudget (300 * MS) 1000]

theorem refused_dump_harmless_repeating :
    ∃ bytes, ∀ maxBytes, bytes ≤ maxBytes →
      media (((Engine.new {}).after (repeating 80 ++ [.dumpAfter (300 * MS) (some 1) .rewind false])).sends
          ([500 * MS].map fun t => .pollBudget t maxBytes)) =
        media (((Engine.new {}).after (repeating 80)).sends ([500 * MS].map fun t => .pollBudget t maxBytes)) := by
  have reaches : ((Engine.new {}).after (repeating 80)).out.nextSeq ≤ 1 + 1 := by decide +kernel
  exact refused_dump_harmless {} (repeating 80) (300 * MS) (some 1) .rewind false [500 * MS] (by decide +kernel)
    (fun _ => .inr (.inr reaches)) (fun _ => by decide +kernel)

-- The configuration goes out once more at 5000, where it was passed over, and so does the frame after it.
example : (media (((Engine.new {}).after (repeating 5000)).sends [.pollBudget (500 * MS) (2 ^ 64 - 1)])).map
      (fun m => m.2.timestamp) = [40, 120] ∧
    (media (((Engine.new {}).after (repeating 5000 ++ [.dumpAfter (300 * MS) (some 1) .rewind false])).sends
      [.pollBudget (500 * MS) (2 ^ 64 - 1)])).map (fun m => m.2.timestamp) = [40, 5000] := by
  decide +kernel

/-- The frame sent last is the last the connection took, and only the repeated configuration is passed after it:
the refused dump keeps the next frame from being sent. -/
theorem refused_dump_skips :
    (((Engine.new {}).sends (repeating 80 ++ [.pollBudget (400 * MS) 1000])).filterMap fun s =>
        s.entry?.map Entry.seq).getLast? = some 2 ∧
      (((Engine.new {}).after (repeating 80 ++ [.pollBudget (400 * MS) 1000])).dumpAfter (400 * MS) (some 2) .rewind
        false).2 = .error .nothingToDump ∧
      (media (((Engine.new {}).after (repeating 80 ++ [.pollBudget (400 * MS) 1000])).sends
        [.pollBudget (500 * MS) (2 ^ 64 - 1)])).map (fun m => m.1.seq) = [4] ∧
      media (((Engine.new {}).after (repeating 80 ++ [.pollBudget (400 * MS) 1000,
        .dumpAfter (400 * MS) (some 2) .rewind false])).sends [.pollBudget (500 * MS) (2 ^ 64 - 1)]) = [] := by
  decide +kernel

end Engine

end StreamDelay
