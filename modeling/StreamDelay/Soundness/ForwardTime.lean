import Mathlib.Tactic.Common
import StreamDelay.Proofs.Timestamps
import StreamDelay.Soundness.DumpedContent

/-! # On a connection time goes forward

Whatever timestamps the encoder sends, those of each kind do not decrease on one destination
connection, and what a splice lands on, or a hold shows, is decoded and presented after everything
sent before, until the words they are counted in run out.
-/

namespace StreamDelay

open Foundations

namespace Engine

/-- On the connection opened at `now`, as long as nothing sent is past `top`, which leaves room for the time
that passes: what is sent next has no earlier timestamp than what was sent of its kind, and where a splice
lands on it, or it is a held frame, a later timestamp than everything sent before the splice, or before the
held frame and its headers, and is presented after every frame sent before. -/
theorem time_goes_forward (config : EngineConfig) (before after : List Op) (now top : ℕ)
    (ordered : Chronological Op.now? 0 (before ++ .outputConnected now :: after))
    (connection : ∀ op ∈ after, op.opens = false) (room : Room top (clockAfter Op.now? now after)) :
    ∀ first s rest, (((Engine.new config).after before).outputConnected now).sends after = first ++ s :: rest →
      (∀ a ∈ first, a.ts ≤ top) →
        (∀ a ∈ first, a.msg.kind = s.msg.kind → a.ts ≤ s.ts) ∧ Lands first s := by
  intro first s rest split small
  have follows := (connection_goes config top ordered connection).follows room
  rw [split] at follows
  exact follows.at_split small

/-- A keyframe airs and is held while a dump builds up its delay; then the output lands on the next. -/
theorem time_goes_forward_airing :
    let sent := (((Engine.new {}).after [.ingestStart 0]).outputConnected 0).sends
      (airing.drop 2 ++ [.command (2 * SEC) (.dump .mask false), .pollBudget (3 * SEC) 1000,
        .ingest (5 * SEC) .video 5000 keyframe, .pollBudget (7 * SEC) 1000])
    sent.map (fun s => (s.ts, s.jump)) = [(0, some 0), (1000, some 1), (5033, some 2)] ∧
      ∀ first s rest, sent = first ++ s :: rest → (∀ a ∈ first, a.ts ≤ 2 ^ 62) →
        (∀ a ∈ first, a.msg.kind = s.msg.kind → a.ts ≤ s.ts) ∧ Lands first s :=
  ⟨by decide +kernel,
    time_goes_forward {} [.ingestStart 0] _ 0 (2 ^ 62) (by decide) (by decide) (by unfold Room; decide +kernel)⟩

/-- A keyframe at the last timestamp a signed word has airs, and a rewind lands on the one before it. -/
def wrapping : List Op :=
  [.ingest 0 .video 0 keyframe, .pollBudget 0 1000, .ingest (2 * SEC) .video (2 ^ 63 - 1) keyframe,
    .pollBudget (2 * SEC) 1000, .command (3 * SEC) (.setDelay 2000 .rewind), .pollBudget (3 * SEC) 1000]

/-- The rewind lands no later than what was sent before it: the timestamps wrap. -/
theorem time_goes_forward_fails :
    let sent := (((Engine.new {}).after [.ingestStart 0]).outputConnected 0).sends wrapping
    Chronological Op.now? 0 ([.ingestStart 0] ++ .outputConnected 0 :: wrapping) ∧
      sent.map (fun s => (s.ts, s.jump)) = [(0, some 0), (2 ^ 63 - 1, none), (2 ^ 63 - 1, some 2)] ∧
      ¬∀ first s rest, sent = first ++ s :: rest → Lands first s := by
  intro sent
  have shape : sent.map (fun s => (s.ts, s.jump)) = [(0, some 0), (2 ^ 63 - 1, none), (2 ^ 63 - 1, some 2)] := by
    decide +kernel
  refine ⟨by decide, shape, fun lands => ?_⟩
  obtain ⟨a, _, split, -, shape⟩ := List.map_eq_cons_iff.mp shape
  obtain ⟨b, _, rfl, same, shape⟩ := List.map_eq_cons_iff.mp shape
  obtain ⟨s, _, rfl, landed, -⟩ := List.map_eq_cons_iff.mp shape
  obtain ⟨before, -⟩ := Prod.mk.inj same
  obtain ⟨here, jump⟩ := Prod.mk.inj landed
  have later := (lands [a, b] s _ split 2 jump).2.1 b (by simp)
  omega

end Engine

end StreamDelay
