import Mathlib.Tactic.Common
import Mathlib.Data.Int.Notation

/-! # Computations on a state that may fail

A computation fails or gives a value and the next state; what it may give is shown of its steps one after the
other. A checked computation does the same with arithmetic that can be out of range: it is sound if no check is
ever missed, so that it gives, or fails as, what the computation without checks does.
-/

namespace StreamDelay.Foundations

variable {σ α β : Type}

/-- A computation on `σ`. -/
abbrev Partial (σ α : Type) := StateT σ Option α

/-- Whatever `x` gives satisfies `P`. -/
def Yields (x : Partial σ α) (P : α → Prop) : Prop := ∀ s a s', x s = some (a, s') → P a

namespace Yields

variable {x : Partial σ α} {f : α → Partial σ β} {P : α → Prop} {Q : β → Prop} {a : α}

theorem any (x : Partial σ α) : Yields x fun _ => True := fun _ _ _ _ => trivial

theorem pure (here : P a) : Yields (pure a : Partial σ α) P := by
  intro s b s' given
  obtain ⟨rfl, -⟩ := Prod.mk.inj (Option.some.inj given)
  exact here

theorem failure : Yields (failure : Partial σ α) P := by
  intro s b s' given
  contradiction

theorem bind (first : Yields x P) (later : ∀ a, P a → Yields (f a) Q) : Yields (x >>= f) Q := by
  intro s b s' given
  obtain ⟨⟨a, middle⟩, here, rest⟩ := Option.bind_eq_some_iff.mp given
  exact later a (first s a middle here) middle b s' rest

theorem mono {P' : α → Prop} (yields : Yields x P) (weaker : ∀ a, P a → P' a) : Yields x P' :=
  fun s a s' given => weaker a (yields s a s' given)

end Yields

/-- A computation with checks: nothing outside, where one has failed. -/
abbrev Checking (σ α : Type) := StateT σ (OptionT Option) α

namespace Checking

/-- A computation that needs no check. -/
def plain (x : Partial σ α) : Checking σ α := fun s => OptionT.mk (some (x s))

/-- A value that is missing where it is out of range. -/
def check (a : Option α) : Checking σ α := fun s => OptionT.mk (a.map fun a => some (a, s))

/-- No check fails, and the computation is `x`. -/
def Sound (checked : Checking σ α) (x : Partial σ α) : Prop := ∀ s, (checked s).run = some (x s)

namespace Sound

variable {checked : Checking σ α} {x : Partial σ α} {f : α → Checking σ β} {g : α → Partial σ β} {P : α → Prop}

theorem plain (x : Partial σ α) : Sound (plain x) x := fun _ => rfl

theorem pure (a : α) : Sound (pure a : Checking σ α) (pure a) := fun _ => rfl

theorem failure : Sound (failure : Checking σ α) failure := fun _ => rfl

theorem check {a : α} {given : Option α} (inRange : given = some a) :
    Sound (check given : Checking σ α) (Pure.pure a) := by
  intro s
  rw [inRange]
  rfl

theorem bind (first : Sound checked x) (yields : Yields x P) (later : ∀ a, P a → Sound (f a) (g a)) :
    Sound (checked >>= f) (x >>= g) := by
  intro s
  show ((checked s).run.bind fun given => _) = _
  rw [first s]
  cases given : x s with
  | none =>
    show _ = some (Option.bind (x s) _)
    rw [given]
    rfl
  | some found =>
    obtain ⟨a, middle⟩ := found
    show _ = some (Option.bind (x s) _)
    rw [given]
    exact later a (yields s a middle given) middle

end Sound

end Checking

end StreamDelay.Foundations
