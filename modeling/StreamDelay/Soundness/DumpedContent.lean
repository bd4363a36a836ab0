import Mathlib.Tactic.Common
import StreamDelay.Proofs.Custody

/-! # Dumped content is gone

No message that was buffered at or after the cursor when a dump was given is shown afterwards,
whatever follows. Sequence numbers at and after the cut are given out again, so a message is told by
when it was received, not by its number.
-/

namespace StreamDelay

namespace Engine

/-- The engine at the moment of the dump, if `op` gives one that is accepted: `dump_after` first takes
back what the destination connection did not take. -/
def dumpMoment (e : Engine) : Op → Option Engine
  | .command now (.dump mode cover) =>
    if (e.command now (.dump mode cover)).2.isOk then some e else none
  | .dumpAfter now taken mode cover =>
    if (e.dumpAfter now taken mode cover).2.isOk then some (e.unsend taken) else none
  | _ => none

variable {e : Engine}

private theorem command_dump_ok {now : ℕ} {mode : DelayMode} {cover : Bool}
    (ok : (e.command now (.dump mode cover)).2.isOk) :
    (e.command now (.dump mode cover)).1 =
      ((e.clearNotices (.dump mode cover)).dump now mode cover).1.runPending now := by
  simp only [command, checkCommand, obey] at ok ⊢
  split
  · rfl
  · next refused =>
    rw [if_neg refused] at ok
    contradiction

/-- What the engine holds after an accepted dump was buffered before the cursor. -/
theorem dumpMoment_retains (sound : e.Sound) {op : Op} {moment : Engine}
    (dumped : e.dumpMoment op = some moment) :
    moment.Sound ∧ moment.received = e.received ∧
      ∀ x, (e.step op).1.Retains x → x ∈ moment.ring ∧ x.seq < moment.cut := by
  have given {m : Engine} (sound : m.Sound) {now : ℕ} {mode : DelayMode} {cover : Bool}
      (ok : (m.command now (.dump mode cover)).2.isOk) {x : Entry}
      (held : (m.command now (.dump mode cover)).1.Retains x) : x ∈ m.ring ∧ x.seq < m.cut := by
    have layout := (clearNotices_inPlace sound.layout (.dump mode cover)).layout sound.layout
    have coherent := clearNotices_coherent sound.coherent (.dump mode cover)
    rw [command_dump_ok ok] at held
    have before := (runPending_inPlace (dump_layout layout now mode cover) now).retains x held
    exact dump_retains layout coherent before
  cases op with
  | command now cmd =>
    cases cmd with
    | dump mode cover =>
      simp only [dumpMoment, Option.ite_none_right_eq_some, Option.some.injEq] at dumped
      obtain ⟨ok, rfl⟩ := dumped
      exact ⟨sound, rfl, fun x held => given sound ok held⟩
    | setDelay | goLive | cancel | slateShown => contradiction
  | dumpAfter now taken mode cover =>
    simp only [dumpMoment, Option.ite_none_right_eq_some, Option.some.injEq] at dumped
    obtain ⟨ok, rfl⟩ := dumped
    have unsent := sound.step (.unsend taken)
    refine ⟨unsent, (unsend_inPlace sound.layout taken).only.received, fun x held => ?_⟩
    simp only [dumpAfter] at ok
    dsimp only [step, dumpAfter] at held
    split at ok
    · next can =>
      rw [if_pos can] at held
      exact given unsent ok held
    · split at ok <;> contradiction
  | ingestStart | ingestEnd | ingestMetadata | ingest | outputConnected | outputDisconnected
  | unsend | outputReset | discard | endAfter | cancelEnd | restartAfterEnd | setKeepHistory
  | setRestoreAfterReconnect | pollBudget => contradiction

/-- In any run, no message buffered at or after the cursor at the moment of an accepted dump is shown
from then on: not as itself, and not as the frame a hold repeats. -/
theorem dumped_content_gone (config : EngineConfig) (before after : List Op) (op : Op)
    (moment : Engine) (dumped : ((Engine.new config).after before).dumpMoment op = some moment)
    (x : Entry) (buffered : x ∈ moment.ring) (unaired : moment.out.nextSeq ≤ x.seq) :
    ∀ s ∈ ((Engine.new config).after before).sends (op :: after),
      ∀ y, s.content? = some y → y.id ≠ x.id := by
  have sound := Sound.reached config before
  generalize (Engine.new config).after before = e at dumped sound
  obtain ⟨momentSound, received, retained⟩ := dumpMoment_retains sound dumped
  have silent : (e.step op).2 = [] := by
    cases op with
    | pollBudget => contradiction
    | _ => rfl
  have left : ∀ y, (e.step op).1.Retains y → y.id ≠ x.id := by
    intro y held same
    obtain ⟨member, below⟩ := retained y held
    obtain rfl := momentSound.layout.eq_of_id_eq member buffered same
    have low := momentSound.layout.lower buffered
    unfold cut at below
    omega
  have old : x.id < (e.step op).1.received := by
    have fresh := momentSound.layout.fresh x buffered
    have grown := step_received sound op
    omega
  intro s sent y shows
  rw [sends, Foundations.Machine.outputs_cons, silent, List.nil_append] at sent
  exact custody.gone (sound.step op) old left sent shows

/-- A keyframe on air, and one behind it that waits out two seconds. -/
def airing : List Op :=
  [.ingestStart 0, .outputConnected 0, .command 0 (.setDelay 2000 .rewind),
    .ingest 0 .video 0 keyframe, .ingest (2 * SEC) .video 2000 keyframe, .pollBudget (2 * SEC) 1000]

/-- A dump holds: the keyframe that waited does not air, nor does the hold show it; the one after it
does air. -/
theorem dumped_content_gone_airing :
    (((Engine.new {}).after airing).sends
        [.command (2 * SEC) (.dump .mask false), .pollBudget (3 * SEC) 1000,
          .ingest (5 * SEC) .video 5000 keyframe, .pollBudget (7 * SEC) 1000]).filterMap
        (fun s => s.content?.map Entry.id) = [0, 2] ∧
      ∀ s ∈ ((Engine.new {}).after airing).sends
        [.command (2 * SEC) (.dump .mask false), .pollBudget (3 * SEC) 1000,
          .ingest (5 * SEC) .video 5000 keyframe, .pollBudget (7 * SEC) 1000],
        ∀ y, s.content? = some y → y.id ≠ 1 :=
  ⟨by decide +kernel, dumped_content_gone {} airing _ _ ((Engine.new {}).after airing)
    (by decide +kernel)
    ⟨1, 2 * SEC, 1, .video, 2000, keyframe, true, none, 0, none, none, 1⟩
    (by decide +kernel) (by decide +kernel)⟩

end Engine

end StreamDelay
