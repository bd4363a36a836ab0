import Mathlib.Tactic.Common
import StreamDelay.Foundations.Machine

/-! # What flows through a machine

Items enter a machine, are held by it in order, and leave it. If every step accounts for what it takes in and
lets go, then over any run what entered is what left, followed by what is held: nothing leaves twice, nothing is
lost, and nothing overtakes.
-/

namespace StreamDelay.Foundations

variable {σ ι ο α : Type*}

structure Flow (step : σ → ι → σ × List ο) where
  /-- The invariant under which steps account for everything. -/
  valid : σ → Prop
  held : σ → List α
  enters : ο → Option α
  leaves : ο → Option α
  keeps : ∀ s i, valid s → valid (step s i).1
  balance : ∀ s i, valid s →
    held s ++ (step s i).2.filterMap enters = (step s i).2.filterMap leaves ++ held (step s i).1

namespace Flow

variable {step : σ → ι → σ × List ο} (flow : Flow (α := α) step)

theorem valid_after {s : σ} (valid : flow.valid s) (ops : List ι) : flow.valid (Machine.after step s ops) :=
  Machine.after_induct (P := flow.valid) step flow.keeps valid ops

/-- What was held and what entered is what left and what is held. -/
theorem run {s : σ} (valid : flow.valid s) (ops : List ι) :
    flow.held s ++ (Machine.outputs step s ops).filterMap flow.enters =
      (Machine.outputs step s ops).filterMap flow.leaves ++ flow.held (Machine.after step s ops) := by
  induction ops generalizing s with
  | nil => exact List.append_nil _
  | cons i rest ih =>
    rw [Machine.outputs_cons, Machine.after_cons, List.filterMap_append, List.filterMap_append, ← List.append_assoc,
      flow.balance s i valid, List.append_assoc, List.append_assoc, ih (flow.keeps s i valid)]

/-- A sum over what is held that every step keeps up to date is exact over every run. -/
theorem count {ρ : Type*} (counter : σ → ρ) (worth : List α → ρ)
    (exact : ∀ s i, flow.valid s → counter s = worth (flow.held s) →
      counter (step s i).1 = worth (flow.held (step s i).1))
    {s : σ} (valid : flow.valid s) (start : counter s = worth (flow.held s)) (ops : List ι) :
    counter (Machine.after step s ops) = worth (flow.held (Machine.after step s ops)) :=
  (Machine.after_induct (P := fun s => flow.valid s ∧ counter s = worth (flow.held s)) step
    (fun s i before => ⟨flow.keeps s i before.1, exact s i before.1 before.2⟩) ⟨valid, start⟩ ops).2

end Flow

end StreamDelay.Foundations
