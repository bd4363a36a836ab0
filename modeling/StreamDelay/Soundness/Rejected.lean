import Mathlib.Tactic.Common
import StreamDelay.Engine.Run

/-! # What a rejected command changes

A delay is checked before anything changes. A dump is not: its refusal takes the notices of earlier commands
away, and nothing else.
-/

namespace StreamDelay

namespace Engine

variable {e : Engine}

/-- A notice of an earlier command is shown: what is kept of the delay, of the slate and of an outage. -/
def noticed (e : Engine) : Bool :=
  e.out.memoryShort || e.out.slateUnconfirmed || e.out.coverLost || e.out.grewOnReconnect

/-- The command is a dump that finds nothing to dump. -/
def refusesDump (e : Engine) : Command → Bool
  | .dump _ _ => !e.canDump
  | _ => false

/-- Clearing the notices changes nothing if none is shown. -/
theorem clearNotices_eq_self (mode : DelayMode) (cover : Bool) :
    e.clearNotices (.dump mode cover) = e ↔ e.noticed = false := by
  unfold clearNotices noticed
  constructor
  · intro same
    rw [← same]
    rfl
  · intro quiet
    simp only [Bool.or_eq_false_iff] at quiet
    obtain ⟨⟨⟨memory, slate⟩, lost⟩, grew⟩ := quiet
    have kept {a b c d : Bool} (ha : a = e.out.memoryShort) (hb : b = e.out.slateUnconfirmed)
        (hc : c = e.out.coverLost) (hd : d = e.out.grewOnReconnect) :
        ({ e with out := { e.out with
            memoryShort := a, slateUnconfirmed := b, coverLost := c, grewOnReconnect := d } } : Engine) = e := by
      rw [ha, hb, hc, hd]
    exact kept memory.symm slate.symm lost.symm grew.symm

/-- Past the check of a delay, only a dump is refused. -/
theorem obey_error {now : ℕ} {cmd : Command} {err : EngineError} (refused : (e.obey now cmd).2 = .error err) :
    (∃ mode cover, cmd = .dump mode cover ∧ e.canDump = false ∧ err = .nothingToDump) ∧ (e.obey now cmd).1 = e := by
  unfold obey at refused ⊢
  cases cmd with
  | dump mode cover =>
    dsimp only at refused ⊢
    cases can : e.canDump with
    | true =>
      rw [can] at refused
      contradiction
    | false =>
      rw [can] at refused
      exact ⟨⟨mode, cover, rfl, rfl, (Except.error.inj refused).symm⟩, rfl⟩
  | setDelay | goLive | cancel | slateShown => contradiction

/-- A rejected command was rejected before anything changed, or is a dump. -/
theorem command_error {now : ℕ} {cmd : Command} {err : EngineError}
    (refused : (e.command now cmd).2 = .error err) :
    (e.command now cmd).1 = e ∧ e.refusesDump cmd = false ∨
      (e.command now cmd).1 = e.clearNotices cmd ∧ e.refusesDump cmd = true := by
  unfold command at refused ⊢
  cases checked : e.checkCommand cmd with
  | some err' =>
    cases cmd with
    | setDelay => exact .inl ⟨rfl, rfl⟩
    | goLive | cancel | slateShown | dump => contradiction
  | none =>
    rw [checked] at refused
    obtain ⟨⟨mode, cover, rfl, can, rfl⟩, same⟩ := obey_error refused
    have before : e.canDump = false := can
    refine .inr ⟨same, ?_⟩
    unfold refusesDump
    rw [before]
    rfl

/-- A dump that finds nothing to dump clears the notices, and is refused. -/
theorem command_refused {now : ℕ} {cmd : Command} (nothing : e.refusesDump cmd = true) :
    e.command now cmd = (e.clearNotices cmd, .error .nothingToDump) := by
  cases cmd with
  | dump mode cover =>
    have can : (e.clearNotices (.dump mode cover)).canDump = false := by
      unfold refusesDump at nothing
      rw [Bool.not_eq_true'] at nothing
      exact nothing
    show (e.clearNotices (.dump mode cover)).obey now (.dump mode cover) = _
    unfold obey
    rw [can]
    rfl
  | setDelay | goLive | cancel | slateShown => contradiction

/-- At any state of any run, a command that is rejected leaves the engine as it was exactly if it is no
refused dump while a notice is shown. -/
theorem rejected_changes_nothing (config : EngineConfig) (ops : List Op) (now : ℕ) (cmd : Command) :
    (∀ err, (((Engine.new config).after ops).command now cmd).2 = .error err →
        (((Engine.new config).after ops).command now cmd).1 = (Engine.new config).after ops) ↔
      ¬(((Engine.new config).after ops).refusesDump cmd = true ∧ ((Engine.new config).after ops).noticed = true) := by
  generalize (Engine.new config).after ops = e
  constructor
  · rintro unchanged ⟨nothing, shown⟩
    have same := unchanged .nothingToDump (by rw [command_refused nothing])
    rw [command_refused nothing] at same
    cases cmd with
    | dump mode cover =>
      have quiet : e.noticed = false := (clearNotices_eq_self mode cover).mp same
      rw [quiet] at shown
      contradiction
    | setDelay | goLive | cancel | slateShown => contradiction
  · intro quiet err refused
    rcases command_error refused with ⟨same, _⟩ | ⟨cleared, nothing⟩
    · exact same
    · rw [cleared]
      cases cmd with
      | dump mode cover =>
        exact (clearNotices_eq_self mode cover).mpr (Bool.eq_false_iff.mpr fun shown => quiet ⟨nothing, shown⟩)
      | setDelay | goLive | cancel | slateShown => contradiction

/-- A live output whose destination was away for a tenth of a second. -/
def away : List Op :=
  [.ingestStart 0, .outputConnected 0, .ingest 0 .video 0 keyframe, .pollBudget 0 1000,
    .outputDisconnected 0 (some 0), .outputConnected (100 * MS)]

/-- The refused dump takes away that the outage made the delay longer. -/
theorem refused_dump_forgets :
    ¬∀ (config : EngineConfig) (ops : List Op) (now : ℕ) (cmd : Command) (err : EngineError),
      (((Engine.new config).after ops).command now cmd).2 = .error err →
        (((Engine.new config).after ops).command now cmd).1 = (Engine.new config).after ops := by
  intro unchanged
  have kept := unchanged {} away (100 * MS) (.dump .mask true) .nothingToDump (by decide +kernel)
  have before : ((Engine.new {}).after away).out.grewOnReconnect = true := by decide +kernel
  have after : (((Engine.new {}).after away).command (100 * MS) (.dump .mask true)).1.out.grewOnReconnect = false := by
    decide +kernel
  rw [kept, before] at after
  contradiction

end Engine

end StreamDelay
