import Mathlib.Tactic.Common
import Mathlib.Data.List.Basic

/-! # Paths of small steps that emit outputs

A step relation `R s t out` moves from `s` to `t` and emits `out`. A path composes steps and
concatenates what they emit. A property every step preserves holds at the end of a path, and what
every step emits under it is emitted by the whole path.
-/

namespace StreamDelay.Foundations

variable {σ ο : Type*}

/-- A finite path of steps, with everything emitted along it. -/
inductive Steps (R : σ → σ → List ο → Prop) : σ → σ → List ο → Prop
  | refl (s : σ) : Steps R s s []
  | head {s mid t : σ} {out rest : List ο} :
      R s mid out → Steps R mid t rest → Steps R s t (out ++ rest)

namespace Steps

variable {R : σ → σ → List ο → Prop}

theorem single {s t : σ} {out : List ο} (step : R s t out) : Steps R s t out := by
  simpa only [List.append_nil] using Steps.head step (.refl t)

theorem trans {s mid t : σ} {out rest : List ο} (first : Steps R s mid out)
    (second : Steps R mid t rest) : Steps R s t (out ++ rest) := by
  induction first with
  | refl => exact second
  | head step _ ih =>
    rw [List.append_assoc]
    exact .head step (ih second)

/-- Silent steps followed by a path. -/
theorem silent {s mid t : σ} {rest : List ο} (first : Steps R s mid [])
    (second : Steps R mid t rest) : Steps R s t rest := first.trans second

theorem mono {R' : σ → σ → List ο → Prop} (weaker : ∀ s t out, R s t out → R' s t out) {s t : σ}
    {out : List ο} (path : Steps R s t out) : Steps R' s t out := by
  induction path with
  | refl => exact .refl _
  | head step _ ih => exact .head (weaker _ _ _ step) ih

/-- A property every step preserves holds at the end of a path. -/
theorem preserves {P : σ → Prop} (step : ∀ s t out, R s t out → P s → P t) {s t : σ}
    {out : List ο} (path : Steps R s t out) (start : P s) : P t := by
  induction path with
  | refl => exact start
  | head first _ ih => exact ih (step _ _ _ first start)

/-- A path whose steps start where a preserved property holds. -/
theorem within {P : σ → Prop} (step : ∀ s t out, R s t out → P s → P t) {s t : σ}
    {out : List ο} (path : Steps R s t out) (start : P s) :
    Steps (fun s t out => R s t out ∧ P s) s t out := by
  induction path with
  | refl => exact .refl _
  | head first _ ih => exact .head ⟨first, start⟩ (ih (step _ _ _ first start))

/-- What every step emits under a preserved property is emitted by the whole path. -/
theorem emits {P : σ → Prop} {Q : ο → Prop} (step : ∀ s t out, R s t out → P s → P t)
    (emit : ∀ s t out, R s t out → P s → ∀ o ∈ out, Q o) {s t : σ} {out : List ο}
    (path : Steps R s t out) (start : P s) : ∀ o ∈ out, Q o := by
  induction path with
  | refl => simp only [List.not_mem_nil, false_implies, implies_true]
  | head first _ ih =>
    intro o member
    rcases List.mem_append.mp member with here | later
    · exact emit _ _ _ first start o here
    · exact ih (step _ _ _ first start) o later

/-- A property of a state and everything emitted so far. -/
theorem preserves_log {P : σ → List ο → Prop}
    (step : ∀ s t out log, R s t out → P s log → P t (log ++ out)) {s t : σ} {out : List ο}
    (path : Steps R s t out) {log : List ο} (start : P s log) : P t (log ++ out) := by
  induction path generalizing log with
  | refl => simpa only [List.append_nil] using start
  | head first _ ih =>
    rw [← List.append_assoc]
    exact ih (step _ _ _ _ first start)

/-- A reflexive and transitive relation every step respects holds along a path. -/
theorem relates {T : σ → σ → Prop} (refl : ∀ s, T s s) (trans : ∀ s m t, T s m → T m t → T s t)
    (step : ∀ s t out, R s t out → T s t) {s t : σ} {out : List ο} (path : Steps R s t out) :
    T s t := by
  induction path with
  | refl => exact refl _
  | head first _ ih => exact trans _ _ _ (step _ _ _ first) ih

/-- What no step changes, a path does not change. -/
theorem constant {α : Type*} (f : σ → α) (step : ∀ s t out, R s t out → f t = f s) {s t : σ}
    {out : List ο} (path : Steps R s t out) : f t = f s := by
  induction path with
  | refl => rfl
  | head first _ ih => exact ih.trans (step _ _ _ first)

end Steps

end StreamDelay.Foundations
