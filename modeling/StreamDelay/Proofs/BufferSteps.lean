import Mathlib.Tactic.Common
import StreamDelay.Proofs.Custody

/-! # What an operation does to the buffer

Most operations change the output only. The others take a message in, or they evict, empty the buffer, cut off
what has not aired, or drop what a broadcast ended with; the output may change before and after.
-/

namespace StreamDelay

open Flv (Bytes)

namespace Engine

/-- A change of the buffer and of what is kept for the sessions, other than by a message taken in. -/
inductive Rebuffers (e : Engine) : Engine → Prop
  | output {e' : Engine} (only : OnlyOut e e') : Rebuffers e e'
  | settings (config : EngineConfig) (active : Bool) :
      Rebuffers e { e with config := config, ingestActive := active }
  | session (now : ℕ) : Rebuffers e (e.ingestStart now)
  | metadata (now : ℕ) (payload : Bytes) : Rebuffers e (e.ingestMetadata now payload)
  | evicted {e' : Engine} (now : ℕ) (after : OnlyOut (e.evict now) e') : Rebuffers e e'
  | emptied {mid e' : Engine} (before : OnlyOut e mid) (after : OnlyOut mid.dropBuffer e') : Rebuffers e e'
  /-- A dump that replays: what comes next is of a new session. -/
  | cut {mid e' : Engine} (before : OnlyOut e mid)
      (after : OnlyOut ((mid.truncate mid.cut).splitSession mid.cut) e') : Rebuffers e e'
  | dropped {e' : Engine} (seq : ℕ) (after : OnlyOut (e.dropBefore seq) e') : Rebuffers e e'

variable {e mid e' : Engine}

theorem dump_rebuffers {now : ℕ} {mode : DelayMode} {cover : Bool} (before : OnlyOut e mid)
    (after : OnlyOut (mid.dump now mode cover).1 e') : Rebuffers e e' := by
  rcases mid.dump_cases now mode cover with ⟨-, same⟩ | ⟨-, -, same⟩ | ⟨-, -, k, -, same⟩ | ⟨-, -, same⟩
  · rw [same] at after
    exact .emptied before after
  · rw [same] at after
    exact .emptied before ((setPending_onlyOut _ _).trans after)
  · rw [same] at after
    exact .cut (before.trans (retarget_onlyOut _ mid))
      (((setPending_onlyOut _ _).trans (spliceTo_onlyOut k _ _)).trans after)
  · rw [same, holdInstead_eq] at after
    exact .emptied (before.trans (retarget_onlyOut _ mid)) after

theorem command_rebuffers (before : OnlyOut e mid) (layout : mid.Layout) (now : ℕ) (cmd : Command) :
    Rebuffers e (mid.command now cmd).1 := by
  have cleared := clearNotices_inPlace layout cmd
  have layout' := cleared.layout layout
  have changed {last : Engine} (change : InPlace (mid.clearNotices cmd) last) : Rebuffers e last :=
    .output ((before.trans cleared.only).trans change.only)
  have run {last : Engine} (change : InPlace (mid.clearNotices cmd) last) : Rebuffers e (last.runPending now) :=
    changed (change.trans (runPending_inPlace (change.layout layout') now))
  unfold command
  split
  · exact .output before
  · cases cmd with
    | setDelay ms mode => exact changed (setDelay_inPlace layout' now ms mode)
    | goLive when_ => exact run (goLive_inPlace layout' when_)
    | cancel => exact run (cancel_inPlace layout')
    | slateShown change => exact run (slateShown_inPlace layout' now change)
    | dump mode cover =>
      unfold obey
      dsimp only
      split
      · exact dump_rebuffers (before.trans cleared.only)
          (runPending_inPlace (dump_layout layout' now mode cover) now).only
      · exact .output (before.trans cleared.only)

theorem step_rebuffers (layout : e.Layout) {op : Op} (none : op.ingests = false) : Rebuffers e (e.step op).1 := by
  cases op with
  | ingest => contradiction
  | ingestStart now => exact .session now
  | ingestEnd => exact .settings e.config false
  | ingestMetadata now payload => exact .metadata now payload
  | outputConnected now => exact .output (outputConnected_inPlace layout now).only
  | outputDisconnected now lastWritten => exact .output (outputDisconnected_inPlace layout now lastWritten).only
  | unsend taken => exact .output (unsend_inPlace layout taken).only
  | dumpAfter now taken mode cover =>
    dsimp only [step]
    unfold dumpAfter
    split
    · have unsent := unsend_inPlace layout taken
      exact command_rebuffers unsent.only (unsent.layout layout) now _
    · split
      · exact .output (.refl e)
      · exact .output (refuseDump_inPlace layout taken).only
  | outputReset | cancelEnd => exact .output rfl
  | discard => exact .emptied (.refl e) rfl
  | endAfter =>
    dsimp only [step]
    cases e.lastSeq with
    | none => exact .output (.refl e)
    | some => exact .output rfl
  | restartAfterEnd => exact .dropped _ rfl
  | command now cmd => exact command_rebuffers (.refl e) layout now cmd
  | setKeepHistory | setRestoreAfterReconnect => exact .settings _ e.ingestActive
  | pollBudget now maxBytes => exact .evicted now (pollBudget_moves (evict_layout layout now) maxBytes).onlyOut

end Engine

end StreamDelay
