import Mathlib.Tactic.Common
import StreamDelay.Proofs.Lifecycle

/-! # An end at the mark and its deadline

A tick at or after the deadline of an end at the mark brings it about, as long as there is a destination.
Without one the tick stops the connection and looks no further, so the end outlives its deadline.
-/

namespace StreamDelay

open Foundations

namespace Lifecycle

/-- The deadline of the end at the mark has come. -/
def overdue (now : ℕ) (l : Lifecycle) : Bool := l.plan.deadline?.any fun deadline => deadline ≤ now

/-- A tick leaves no end at the mark behind that it found overdue: the broadcast is ended, or over with a new
one to come. -/
structure EndsOverdue (now : ℕ) (f : Facts) (settings : Bool) (l : Lifecycle) : Prop where
  ended : ∀ deadline, l.plan = .endAtMark deadline → deadline ≤ now →
    (l.step (.tick now f settings)).1.plan = .ended
  restarted : ∀ deadline, l.plan = .restartAtMark deadline → deadline ≤ now →
    (l.step (.tick now f settings)).1.plan = .live ∧ .restartAfterEnd ∈ (l.step (.tick now f settings)).2

variable {now deadline : ℕ} {f : Facts} {l : Lifecycle}

/-- Without a destination a tick leaves the plan as it is. -/
theorem tick_nowhere (now : ℕ) (settings : Bool) (l : Lifecycle) (nowhere : f.destination = false) :
    (l.step (.tick now f settings)).1.plan = l.plan := by
  have ticked : l.tick now f = ((l.stop .stopEgress).1, (l.stop .stopEgress).2, .nothing) := by
    unfold tick
    rw [nowhere]
    rfl
  show (l.manageEgress now f settings).1.plan = _
  unfold manageEgress
  rw [ticked]
  exact (l.stop_fields .stopEgress).1

/-- With a destination, what `end_at_mark` brings about is all a tick does. -/
theorem tick_ends {l' : Lifecycle} {fx : List Effect} (settings : Bool) (destination : f.destination = true)
    (ends : l.endAtMark now f = some (l', fx)) : l.step (.tick now f settings) = (l', fx) := by
  have ticked : l.tick now f = (l', fx, .nothing) := by
    unfold tick
    rw [destination, ends]
    rfl
  show l.manageEgress now f settings = _
  unfold manageEgress
  rw [ticked]

/-- At its deadline an End stream ends the broadcast. -/
theorem endAtMark_ended (plan : l.plan = .endAtMark deadline) (late : deadline ≤ now) :
    l.endAtMark now f = some ({ l.finish.1 with plan := .ended }, l.finish.2) := by
  unfold endAtMark
  rw [plan]
  dsimp only [Plan.deadline?, Option.bind_some]
  rw [if_neg (by simp only [Bool.and_eq_true, decide_eq_true_eq, not_and]; omega)]

/-- At its deadline the end of a stream that was restarted makes room for the new one. -/
theorem endAtMark_restarted (plan : l.plan = .restartAtMark deadline) (late : deadline ≤ now) :
    l.endAtMark now f = some ({ (l.stop .stopEgress).1 with plan := .live },
      (l.stop .stopEgress).2 ++ [.restartAfterEnd]) := by
  unfold endAtMark
  rw [plan]
  dsimp only [Plan.deadline?, Option.bind_some]
  rw [if_neg (by simp only [Bool.and_eq_true, decide_eq_true_eq, not_and]; omega)]

/-- In every run, a tick ends what is overdue exactly if a destination is set up then. -/
theorem ends_by_deadline (grace : ℕ) (before : List LifeEvent) (now : ℕ) (f : Facts) (settings : Bool) :
    ((new grace).after before).EndsOverdue now f settings ↔
      (((new grace).after before).overdue now = true → f.destination = true) := by
  generalize (new grace).after before = l
  constructor
  · intro ends passed
    by_contra nowhere
    have kept := tick_nowhere now settings l (Bool.not_eq_true _ ▸ nowhere)
    unfold overdue at passed
    cases plan : l.plan with
    | live | ended =>
      rw [plan] at passed
      contradiction
    | endAtMark deadline =>
      rw [plan] at passed kept
      have ended := ends.ended deadline plan (of_decide_eq_true passed)
      exact Plan.noConfusion (kept.symm.trans ended)
    | restartAtMark deadline =>
      rw [plan] at passed kept
      have live := (ends.restarted deadline plan (of_decide_eq_true passed)).1
      exact Plan.noConfusion (kept.symm.trans live)
  · intro destination
    refine ⟨fun deadline plan late => ?_, fun deadline plan late => ?_⟩
    · have there := destination (by simpa only [overdue, plan, Plan.deadline?, Option.any_some, decide_eq_true_eq])
      rw [tick_ends settings there (endAtMark_ended plan late)]
    · have there := destination (by simpa only [overdue, plan, Plan.deadline?, Option.any_some, decide_eq_true_eq])
      rw [tick_ends settings there (endAtMark_restarted plan late)]
      exact ⟨rfl, List.mem_append_right _ (List.mem_singleton_self _)⟩

/-- A stream airs a minute late, End stream (after air) is given, and the destination is taken out of the
settings. -/
def removed : List LifeEvent :=
  let f : Facts := ⟨true, true, false, false, false, true, true, true, 60 * SEC⟩
  [.publishing 0 false f, .tick SEC f true, .endAfterAir (2 * SEC) f, .destinationChanged]

/-- Two minutes later a tick still finds no destination, and the end is still to come. -/
theorem end_outlives_deadline :
    ¬∀ (grace : ℕ) (before : List LifeEvent) (now : ℕ) (f : Facts) (settings : Bool),
      ((new grace).after before).EndsOverdue now f settings := by
  intro ends
  have plan : ((new (30 * SEC)).after removed).plan = .endAtMark (92 * SEC) := by decide +kernel
  have ended := (ends (30 * SEC) removed (180 * SEC) {} true).ended _ plan (by decide)
  have kept := tick_nowhere (180 * SEC) true ((new (30 * SEC)).after removed)
    (rfl : ({} : Facts).destination = false)
  rw [plan] at kept
  exact Plan.noConfusion (kept.symm.trans ended)

end Lifecycle

end StreamDelay
