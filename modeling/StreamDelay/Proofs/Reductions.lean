import Mathlib.Tactic.Common
import StreamDelay.Proofs.Goal

/-! # Where a pending change leads

A pending reduction never leads above the delay there is, so that the delay it asks for is the one the output
is on its way to.
-/

namespace StreamDelay

open Foundations

/-- The delay of the pending change, or the delay in effect if none. Going live leads to no delay. -/
def Output.heading (o : Output) : ℕ :=
  match o.pending with
  | .none => o.delay
  | .goLiveNow _ | .afterAir _ => 0
  | .reduce d => d
  | .mask m => m.delay
  | .dump d .. | .hold _ d | .replay _ d => d

/-- A pending reduction does not lead up. -/
def Output.Lowers (o : Output) : Prop := ∀ d, o.pending = .reduce d → d ≤ o.delay

namespace Output.Lowers

variable {o o' : Output}

/-- Something other than a reduction is pending. -/
theorem other {p : Pending} (pending : o.pending = p) (apart : ∀ d, p ≠ .reduce d) : o.Lowers :=
  fun d reduces => absurd (pending.symm.trans reduces) (apart d)

theorem congr (lowers : o.Lowers) (pending : o'.pending = o.pending) (delay : o.delay ≤ o'.delay) : o'.Lowers :=
  fun d reduces => Nat.le_trans (lowers d (pending.symm.trans reduces)) delay

/-- Then the delay a change asks for is the one the output is on its way to. -/
theorem heading (lowers : o.Lowers) : o.heading = o.goal := by
  unfold Output.heading Output.goal
  cases pending : o.pending with
  | reduce d => exact (Nat.min_eq_left (lowers d pending)).symm
  | _ => rfl

end Output.Lowers

namespace Engine

variable {e e' : Engine} {now : ℕ} {out : List Sent}

theorem Slows.lowers (slows : Slows e e') (lowers : e.out.Lowers) : e'.out.Lowers := by
  rcases slows.pending with same | ⟨-, ⟨d, reduces, -, below⟩ | ⟨-, afterSeq, live⟩⟩
  · exact lowers.congr same slows.delay
  · intro d' reduces'
    obtain rfl := Pending.reduce.inj (reduces.symm.trans reduces')
    exact below
  · exact .other live nofun

/-! ## Moves -/

theorem Move.lowers (move : Move now e e' out) (layout : e.Layout) (lowers : e.out.Lowers) : e'.out.Lowers := by
  cases move with
  | liveSplice | liveEdge | reduceDone | reduceSplice | maskGone | maskDone | holdEnded | replayDone =>
    exact .other (p := .none) rfl nofun
  | holdDone _ _ _ spliced =>
    subst spliced
    exact .other (p := .none) rfl nofun
  | airedMark | anchored | coverLost | covered | replayHeld => exact .other rfl nofun
  | started _ _ _ _ first => exact (slows_started layout first).lowers lowers
  | heldFrame =>
    have course := showFrame_course e now ‹_›
    exact lowers.congr course.pending (Nat.le_of_eq course.delay.symm)
  | sent =>
    have course := sendEntry_course e
    exact lowers.congr course.pending (Nat.le_of_eq course.delay.symm)
  | unconfirmed | caughtUp | newSession | sessionSkipped | markSkipped | silenced => exact lowers

theorem Moves.lowers (moves : Moves now e e' out) (layout : e.Layout) (lowers : e.out.Lowers) : e'.out.Lowers :=
  (Steps.preserves (P := fun e => e.Layout ∧ e.out.Lowers)
    (fun _ _ _ move both => ⟨move.layout both.1, move.lowers both.1 both.2⟩) moves ⟨layout, lowers⟩).2

theorem runPending_lowers (layout : e.Layout) (lowers : e.out.Lowers) (now : ℕ) : (e.runPending now).out.Lowers :=
  Moves.lowers (runPending_moves now e) layout lowers

/-! ## Commands -/

theorem goLive_lowers (when_ : GoLiveWhen) (e : Engine) : (e.goLive when_).out.Lowers := by
  unfold goLive
  dsimp only
  split
  · exact .other rfl nofun
  · cases when_
    · exact .other rfl nofun
    · exact .other rfl nofun

private theorem cancel_lowers (lowers : e.out.Lowers) : e.cancel.out.Lowers := by
  cases after : e.out.pending.afterDump with
  | true =>
    unfold cancel
    rwa [if_pos after]
  | false =>
    obtain ⟨mid, slows, -, none, -⟩ := e.cancel_slows after
    exact slows.lowers (.other none nofun)

private theorem slateShown_lowers (lowers : e.out.Lowers) (now change : ℕ) : (e.slateShown now change).out.Lowers := by
  unfold slateShown
  split
  · exact lowers
  · split
    · split
      · exact .other rfl nofun
      · exact lowers
    · exact .other rfl nofun
    · exact lowers

theorem rewindTo_lowers {d k : ℕ} {known : Bool} (none : e.out.pending = .none)
    (old : known = true → ∃ x, e.entry k = some x ∧ x.arrival + d ≤ now) :
    (e.rewindTo now d k known).out.Lowers := by
  unfold rewindTo
  dsimp only
  split
  · split
    · next gap =>
      obtain ⟨x, found, due⟩ := old (Bool.and_eq_true_iff.mp gap).1
      intro d' reduces
      obtain rfl := Pending.reduce.inj reduces
      rw [setPending_out]
      dsimp only
      rw [spliceTo_delay found, arrivalOr_eq found]
      omega
    · exact .other ((spliceTo_pending ..).trans none) nofun
  · exact .other none nofun

private theorem changeDelay_lowers (now d : ℕ) (mode : DelayMode) (e : Engine) :
    (e.changeDelay now d mode).out.Lowers := by
  unfold changeDelay
  generalize start : (e.retarget d).setPending .none = mid
  have none : mid.out.pending = .none := by rw [← start]; rfl
  dsimp only
  split
  · exact .other none nofun
  · split
    · exact goLive_lowers .now mid
    · split
      · split
        · unfold rewind
          split
          · next k newest =>
            obtain ⟨-, t, before, x, found, arrived⟩ := newestSyncArrivedBy_mem newest
            have before := checkedSub_eq_some.mp before
            exact rewindTo_lowers none fun _ => ⟨x, found, by omega⟩
          · split
            · exact .other none nofun
            · exact rewindTo_lowers none nofun
        · exact .other rfl nofun
      · split
        · next below =>
          intro d' reduces
          obtain rfl := Pending.reduce.inj reduces
          exact Nat.le_of_lt below
        · exact .other none nofun

private theorem setDelay_lowers (layout : e.Layout) (lowers : e.out.Lowers) (now ms : ℕ) (mode : DelayMode) :
    (e.setDelay now ms mode).out.Lowers := by
  unfold setDelay
  dsimp only
  split
  · next p dumping =>
    have other : ∀ d, p ≠ .reduce d := by
      split at dumping
      · rcases withDumpDelay_cases dumping with
          ⟨_, _, -, rfl⟩ | ⟨_, _, -, rfl⟩ | ⟨_, _, _, _, -, rfl⟩ | ⟨_, -, -, rfl⟩
        all_goals nofun
      · contradiction
    have layout' : (e.setDumpDelay (ms * MS) p).Layout := layout.of_out layout.cursor layout.mark
    exact runPending_lowers layout' (.other rfl other) now
  · split
    · exact lowers
    · exact runPending_lowers ((changeDelay_inPlace layout now _ _).layout layout) (changeDelay_lowers now _ _ e) now

private theorem dump_lowers (lowers : e.out.Lowers) (now : ℕ) (mode : DelayMode) (cover : Bool) :
    (e.dump now mode cover).1.out.Lowers := by
  rcases e.dump_cases now mode cover with ⟨-, same⟩ | ⟨-, -, same⟩ | ⟨-, -, k, -, same⟩ | ⟨-, -, same⟩
  · rw [same, dropBuffer_out]
    exact lowers.congr rfl (Nat.le_refl _)
  · rw [same]
    exact .other rfl nofun
  · rw [same]
    unfold replayAt
    dsimp only
    exact .other (spliceTo_pending ..) nofun
  · rw [same, holdInstead_eq]
    cases cover
    · exact .other rfl nofun
    · exact .other rfl nofun

theorem command_lowers (layout : e.Layout) (lowers : e.out.Lowers) (now : ℕ) (cmd : Command) :
    (e.command now cmd).1.out.Lowers := by
  have cleared : (e.clearNotices cmd).out.Lowers := by
    cases cmd <;> exact lowers
  have layout' := (clearNotices_inPlace layout cmd).layout layout
  unfold command
  split
  · exact lowers
  · cases cmd with
    | setDelay ms mode => exact setDelay_lowers layout' cleared now ms mode
    | goLive when_ =>
      exact runPending_lowers ((goLive_inPlace layout' when_).layout layout') (goLive_lowers when_ _) now
    | cancel => exact runPending_lowers ((cancel_inPlace layout').layout layout') (cancel_lowers cleared) now
    | slateShown change =>
      exact runPending_lowers ((slateShown_inPlace layout' now change).layout layout')
        (slateShown_lowers cleared now change) now
    | dump mode cover =>
      unfold obey
      dsimp only
      split
      · exact runPending_lowers (dump_layout layout' now mode cover) (dump_lowers cleared now mode cover) now
      · exact cleared

/-! ## Every operation -/

private theorem memoryShort_lowers (coherent : e.out.Coherent) (lowers : e.out.Lowers) (now : ℕ) :
    (e.memoryShort now).out.Lowers := by
  unfold memoryShort
  split
  · exact lowers
  · dsimp only
    split
    · next idle => exact .other (coherent.idle (by simpa using idle)).1 nofun
    · split
      · next lower =>
        have below := of_decide_eq_true (Bool.and_eq_true_iff.mp lower).2
        intro d reduces
        obtain rfl := Pending.reduce.inj reduces
        exact Nat.le_of_lt below
      · exact lowers

theorem evict_lowers (layout : e.Layout) (coherent : e.out.Coherent) (lowers : e.out.Lowers) (now : ℕ) :
    (e.evict now).out.Lowers := by
  obtain ⟨n, mid, trimmed, same | same⟩ := evict_trimmed layout now
  · rwa [same, trimmed.out]
  · rw [same]
    exact memoryShort_lowers (trimmed.out ▸ coherent) (trimmed.out ▸ lowers) now

private theorem step_lowers (sound : e.Sound) (lowers : e.out.Lowers) (op : Op) : (e.step op).1.out.Lowers := by
  have layout := sound.layout
  cases op with
  | ingestStart now =>
    show (e.ingestStart now).out.Lowers
    rw [ingestStart_out]
    split
    · exact lowers
    · rw [dropBuffer_out]
      exact lowers.congr rfl (Nat.le_refl _)
  | ingestMetadata now payload =>
    show (e.ingestMetadata now payload).out.Lowers
    rwa [ingestMetadata_out]
  | ingestEnd | setKeepHistory | setRestoreAfterReconnect | cancelEnd => exact lowers
  | endAfter =>
    dsimp only [step]
    cases e.lastSeq with
    | none => exact lowers
    | some => exact lowers
  | ingest now kind ts payload =>
    dsimp only [step]
    rcases e.ingest_cases now kind ts payload with same | ⟨session, -, -, same⟩
    · rwa [same]
    · rw [same]
      have out := append_out e now kind ts payload session
      exact evict_lowers (append_layout layout now kind ts payload session) (out ▸ sound.coherent)
        (out ▸ lowers) now
  | outputConnected now => exact (outputConnected_slows now e).lowers lowers
  | outputDisconnected now lastWritten =>
    obtain ⟨seq, resumed, -⟩ := resumeAfter_eq lastWritten { e with out := { e.out with connected := false } }
    dsimp only [step, outputDisconnected]
    rw [resumed]
    exact lowers
  | unsend taken =>
    obtain ⟨seq, headers, metadata, unsent⟩ := e.unsend_eq taken
    dsimp only [step]
    rw [unsent]
    exact lowers
  | dumpAfter now taken mode cover =>
    dsimp only [step]
    unfold dumpAfter
    split
    · obtain ⟨seq, headers, metadata, unsent⟩ := e.unsend_eq taken
      refine command_lowers ((unsend_inPlace layout taken).layout layout) ?_ now _
      rw [unsent]
      exact lowers
    · split
      · exact lowers
      · unfold refuseDump
        dsimp only
        split
        · exact lowers
        · exact lowers
  | outputReset | discard | restartAfterEnd => exact .other (p := .none) rfl nofun
  | command now cmd => exact command_lowers layout lowers now cmd
  | pollBudget now maxBytes =>
    have evicted := evict_layout layout now
    exact Moves.lowers (pollBudget_moves evicted maxBytes) evicted (evict_lowers layout sound.coherent lowers now)

/-- In every state of every run a reduction leads down. -/
theorem lowers_reached (config : EngineConfig) (ops : List Op) : ((Engine.new config).after ops).out.Lowers :=
  (Machine.after_induct (P := fun e => e.Sound ∧ e.out.Lowers) step
    (fun _ op both => ⟨both.1.step op, step_lowers both.1 both.2 op⟩)
    ⟨.new config, .other (p := .none) rfl nofun⟩ ops).2

end Engine

end StreamDelay
