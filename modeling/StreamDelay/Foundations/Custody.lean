import Mathlib.Tactic.Common
import StreamDelay.Foundations.Machine

/-! # Custody of numbered items

A machine keeps items in custody and shows some of them. Items are numbered in the order they are
received; a step only ever shows what is in custody before it, and what is in custody after it was
there before or has been received meanwhile. Then an item that left custody is never shown again,
whatever the machine does next.
-/

namespace StreamDelay.Foundations

variable {σ ι ο α : Type*}

structure Custody (step : σ → ι → σ × List ο) where
  /-- The invariant under which the machine keeps custody. -/
  valid : σ → Prop
  holds : σ → α → Prop
  number : α → ℕ
  /-- How many items have been received. -/
  received : σ → ℕ
  shows : ο → Option α
  keeps : ∀ s i, valid s → valid (step s i).1
  counts : ∀ s i, valid s → received s ≤ received (step s i).1
  inherits : ∀ s i x, valid s → holds (step s i).1 x → holds s x ∨ received s ≤ number x
  emits : ∀ s i o x, valid s → o ∈ (step s i).2 → shows o = some x → holds s x

namespace Custody

variable {step : σ → ι → σ × List ο} (custody : Custody (α := α) step)

/-- What is held after a sequence of operations was held before it or received meanwhile. -/
theorem holds_after {s : σ} (valid : custody.valid s) (ops : List ι) {x : α}
    (held : custody.holds (Machine.after step s ops) x) :
    custody.holds s x ∨ custody.received s ≤ custody.number x := by
  induction ops generalizing s with
  | nil => exact .inl held
  | cons i rest ih =>
    rcases ih (custody.keeps s i valid) held with before | later
    · exact custody.inherits s i x valid before
    · exact .inr (Nat.le_trans (custody.counts s i valid) later)

theorem valid_after {s : σ} (valid : custody.valid s) (ops : List ι) :
    custody.valid (Machine.after step s ops) :=
  Machine.after_induct (P := custody.valid) step custody.keeps valid ops

/-- Whatever a sequence of operations shows was held before it or received meanwhile. -/
theorem shown {s : σ} (valid : custody.valid s) {ops : List ι} {o : ο} {x : α}
    (emitted : o ∈ Machine.outputs step s ops) (shows : custody.shows o = some x) :
    custody.holds s x ∨ custody.received s ≤ custody.number x := by
  obtain ⟨first, i, second, rfl, now⟩ := Machine.mem_outputs step emitted
  have reached := custody.valid_after valid first
  exact custody.holds_after valid first (custody.emits _ i o x reached now shows)

/-- What was received and is not held any more is never shown again. -/
theorem gone {s : σ} (valid : custody.valid s) {n : ℕ} (old : n < custody.received s)
    (left : ∀ x, custody.holds s x → custody.number x ≠ n) {ops : List ι} {o : ο} {x : α}
    (emitted : o ∈ Machine.outputs step s ops) (shows : custody.shows o = some x) :
    custody.number x ≠ n := by
  rcases custody.shown valid emitted shows with held | later
  · exact left x held
  · omega

end Custody

end StreamDelay.Foundations
