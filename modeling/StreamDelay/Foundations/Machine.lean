import Mathlib.Tactic.Common
import Mathlib.Data.List.Basic

/-! # Deterministic machines driven by timed operations

A machine is a function from a state and an operation to the next state and what it emits. Some
operations carry a clock reading; a sequence of them is chronological when the readings do not
decrease. A property that one operation preserves, given the time reached so far, holds after any
chronological sequence.
-/

namespace StreamDelay.Foundations

variable {σ ι ο : Type*}

/-- Each of a list satisfies `P` of everything before it, which is `before` at the start. -/
def Each {α : Type*} (P : List α → α → Prop) : List α → List α → Prop
  | _, [] => True
  | before, a :: rest => P before a ∧ Each P (before ++ [a]) rest

namespace Each

variable {α : Type*} {P : List α → α → Prop} {before first second rest : List α} {a : α}

theorem append : Each P before (first ++ second) ↔
    Each P before first ∧ Each P (before ++ first) second := by
  induction first generalizing before with
  | nil => simp only [List.nil_append, Each, List.append_nil, true_and]
  | cons a rest ih =>
    simp only [List.cons_append, Each, ih, and_assoc, List.append_assoc, List.nil_append]

theorem of_forall (all : ∀ a ∈ first, ∀ before, P before a) : Each P before first := by
  induction first generalizing before with
  | nil => exact trivial
  | cons a rest ih =>
    exact ⟨all a (List.mem_cons_self ..) before, ih fun b member => all b (List.mem_cons_of_mem _ member)⟩

theorem mono {Q : List α → α → Prop} (weaker : ∀ before a, P before a → Q before a)
    (each : Each P before first) : Each Q before first := by
  induction first generalizing before with
  | nil => exact trivial
  | cons a rest ih => exact ⟨weaker before a each.1, ih each.2⟩

/-- What holds of anything after an extension of what comes before. -/
theorem of_extends (all : ∀ later, before <+: later → ∀ a, P later a) : Each P before first := by
  induction first generalizing before with
  | nil => exact trivial
  | cons a rest ih =>
    exact ⟨all before List.prefix_rfl a, ih fun later extends_ =>
      all later ((List.prefix_append before [a]).trans extends_)⟩

theorem and {Q : List α → α → Prop} (left : Each P before first) (right : Each Q before first) :
    Each (fun before a => P before a ∧ Q before a) before first := by
  induction first generalizing before with
  | nil => exact trivial
  | cons a rest ih => exact ⟨⟨left.1, right.1⟩, ih left.2 right.2⟩

theorem at_split (each : Each P before (first ++ a :: rest)) : P (before ++ first) a :=
  (append.mp each).2.1

instance [∀ before a, Decidable (P before a)] : ∀ before l : List α, Decidable (Each P before l)
  | _, [] => isTrue trivial
  | before, a :: rest =>
    have : Decidable (Each P (before ++ [a]) rest) := instDecidable (before ++ [a]) rest
    inferInstanceAs (Decidable (_ ∧ _))

end Each

/-- One of a list satisfies `P` of everything before it. -/
def Sometime {α : Type*} (P : List α → α → Prop) (l : List α) : Prop :=
  ∃ before a later, l = before ++ a :: later ∧ P before a

namespace Sometime

variable {α : Type*} {P : List α → α → Prop} {l : List α}

theorem last {a : α} (here : P l a) : Sometime P (l ++ [a]) := ⟨l, a, [], rfl, here⟩

theorem append (sometime : Sometime P l) (rest : List α) : Sometime P (l ++ rest) := by
  obtain ⟨before, a, later, rfl, there⟩ := sometime
  exact ⟨before, a, later ++ rest, List.append_assoc .., there⟩

end Sometime

/-- The last that `f` finds in a list, given everything before each. -/
def latest {α β : Type*} (f : List α → α → Option β) : List α → List α → Option β
  | _, [] => none
  | before, a :: rest => (latest f (before ++ [a]) rest).or (f before a)

theorem latest_append {α β : Type*} (f : List α → α → Option β) (before l : List α) (a : α) :
    latest f before (l ++ [a]) = (f (before ++ l) a).or (latest f before l) := by
  induction l generalizing before with
  | nil => simp only [List.nil_append, latest, List.append_nil, Option.none_or, Option.or_none]
  | cons b rest ih => simp only [List.cons_append, latest, ih, List.append_assoc, List.nil_append, Option.or_assoc]

namespace Machine

variable (step : σ → ι → σ × List ο)

/-- The state after a sequence of operations. -/
def after : σ → List ι → σ
  | s, [] => s
  | s, i :: rest => after (step s i).1 rest

/-- Everything a sequence of operations emits. -/
def outputs : σ → List ι → List ο
  | _, [] => []
  | s, i :: rest => (step s i).2 ++ outputs (step s i).1 rest

@[simp] theorem after_nil (s : σ) : after step s [] = s := rfl

@[simp] theorem after_cons (s : σ) (i : ι) (rest : List ι) :
    after step s (i :: rest) = after step (step s i).1 rest := rfl

@[simp] theorem outputs_nil (s : σ) : outputs step s [] = [] := rfl

@[simp] theorem outputs_cons (s : σ) (i : ι) (rest : List ι) :
    outputs step s (i :: rest) = (step s i).2 ++ outputs step (step s i).1 rest := rfl

theorem after_append (s : σ) (first second : List ι) :
    after step s (first ++ second) = after step (after step s first) second := by
  induction first generalizing s with
  | nil => rfl
  | cons i rest ih => exact ih _

theorem outputs_append (s : σ) (first second : List ι) :
    outputs step s (first ++ second) =
      outputs step s first ++ outputs step (after step s first) second := by
  induction first generalizing s with
  | nil => rfl
  | cons i rest ih => simp only [List.cons_append, outputs_cons, after_cons, ih, List.append_assoc]

/-- Everything emitted by a sequence is emitted by one of its operations, from the state reached
before it. -/
theorem mem_outputs {s : σ} {ops : List ι} {o : ο} (member : o ∈ outputs step s ops) :
    ∃ first i second, ops = first ++ i :: second ∧ o ∈ (step (after step s first) i).2 := by
  induction ops generalizing s with
  | nil => contradiction
  | cons i rest ih =>
    rcases List.mem_append.mp member with here | later
    · exact ⟨[], i, rest, rfl, here⟩
    · obtain ⟨first, j, second, rfl, emitted⟩ := ih later
      exact ⟨i :: first, j, second, rfl, emitted⟩

/-- A property every operation preserves holds after any sequence of them. -/
theorem after_induct {P : σ → Prop} (keep : ∀ s i, P s → P (step s i).1) {s : σ} (start : P s)
    (ops : List ι) : P (after step s ops) := by
  induction ops generalizing s with
  | nil => exact start
  | cons i rest ih => exact ih (keep s i start)

/-- A property every operation of a sequence preserves holds after it. -/
theorem after_preserves {P : σ → Prop} {ok : ι → Prop}
    (keep : ∀ s i, ok i → P s → P (step s i).1) {s : σ} {ops : List ι} (allowed : ∀ i ∈ ops, ok i)
    (start : P s) : P (after step s ops) := by
  induction ops generalizing s with
  | nil => exact start
  | cons i rest ih =>
    exact ih (fun j member => allowed j (List.mem_cons_of_mem _ member))
      (keep s i (allowed i (List.mem_cons_self ..)) start)

/-- Every operation of a sequence is allowed in the state it is made in. -/
def Along (ok : σ → ι → Prop) : σ → List ι → Prop
  | _, [] => True
  | s, i :: rest => ok s i ∧ Along ok (step s i).1 rest

instance {ok : σ → ι → Prop} [∀ s i, Decidable (ok s i)] :
    ∀ (s : σ) (ops : List ι), Decidable (Along step ok s ops)
  | _, [] => .isTrue trivial
  | s, i :: rest =>
    have : Decidable (Along step ok (step s i).1 rest) := instDecidableAlong ..
    inferInstanceAs (Decidable (_ ∧ _))

/-- A property every allowed operation preserves holds after any sequence of them. -/
theorem preserves_along {ok : σ → ι → Prop} {P : σ → Prop}
    (keep : ∀ s i, ok s i → P s → P (step s i).1) {s : σ} {ops : List ι}
    (allowed : Along step ok s ops) (start : P s) : P (after step s ops) := by
  induction ops generalizing s with
  | nil => exact start
  | cons i rest ih => exact ih allowed.2 (keep s i allowed.1 start)

theorem along_of_forall {ok : σ → ι → Prop} (all : ∀ s i, ok s i) (s : σ) (ops : List ι) : Along step ok s ops := by
  induction ops generalizing s with
  | nil => exact trivial
  | cons i rest ih => exact ⟨all s i, ih _⟩

theorem along_and {ok ok' : σ → ι → Prop} {s : σ} {ops : List ι} (left : Along step ok s ops)
    (right : Along step ok' s ops) : Along step (fun s i => ok s i ∧ ok' s i) s ops := by
  induction ops generalizing s with
  | nil => exact trivial
  | cons i rest ih => exact ⟨⟨left.1, right.1⟩, ih left.2 right.2⟩

theorem along_append {ok : σ → ι → Prop} {s : σ} {first second : List ι} :
    Along step ok s (first ++ second) ↔
      Along step ok s first ∧ Along step ok (after step s first) second := by
  induction first generalizing s with
  | nil => simp only [List.nil_append, Along, after_nil, true_and]
  | cons i rest ih => simp only [List.cons_append, Along, after_cons, ih, and_assoc]

/-- Where every allowed operation keeps a property and every other loses it, it holds throughout a
sequence exactly when every operation of it is allowed. -/
theorem throughout_iff_along {good : ι → Prop} {ok : σ → ι → Prop} {P : σ → Prop}
    (keep : ∀ s i, good i → P s → (P (step s i).1 ↔ ok s i)) {s : σ} (start : P s) {ops : List ι}
    (fair : ∀ i ∈ ops, good i) :
    (∀ first, first <+: ops → P (after step s first)) ↔ Along step ok s ops := by
  induction ops generalizing s with
  | nil =>
    refine ⟨fun _ => trivial, fun _ first early => ?_⟩
    rw [List.prefix_nil.mp early]
    exact start
  | cons i rest ih =>
    have here := keep s i (fair i (List.mem_cons_self ..)) start
    have later := fun j member => fair j (List.mem_cons_of_mem i member)
    constructor
    · intro throughout
      have next : P (step s i).1 := throughout [i] ⟨rest, rfl⟩
      refine ⟨here.mp next, (ih next later).mp fun first early => ?_⟩
      exact throughout (i :: first) (List.cons_prefix_cons.mpr ⟨rfl, early⟩)
    · rintro ⟨allowed, rest⟩ first early
      cases first with
      | nil => exact start
      | cons j first =>
        obtain ⟨rfl, sooner⟩ := List.cons_prefix_cons.mp early
        exact (ih (here.mpr allowed) later).mpr rest first sooner

variable {γ : Type*} (note : γ → σ → ι → γ)

/-- The machine with a note of what happens kept beside its state. -/
def noting (s : γ × σ) (i : ι) : (γ × σ) × List ο :=
  ((note s.1 s.2 i, (step s.2 i).1), (step s.2 i).2)

@[simp] theorem after_noting (s : γ × σ) (ops : List ι) :
    (after (noting step note) s ops).2 = after step s.2 ops := by
  induction ops generalizing s with
  | nil => rfl
  | cons i rest ih => exact ih _

end Machine

/-- The clock readings of a sequence of operations do not decrease, from `t` on. -/
def Chronological (clock : ι → Option ℕ) : ℕ → List ι → Prop
  | _, [] => True
  | t, i :: rest => t ≤ (clock i).getD t ∧ Chronological clock ((clock i).getD t) rest

/-- The last clock reading of a sequence of operations, from `t` on. -/
def clockAfter (clock : ι → Option ℕ) (t : ℕ) (ops : List ι) : ℕ :=
  ops.foldl (fun t i => (clock i).getD t) t

instance (clock : ι → Option ℕ) : ∀ (t : ℕ) (ops : List ι), Decidable (Chronological clock t ops)
  | _, [] => .isTrue trivial
  | t, i :: rest =>
    have : Decidable (Chronological clock ((clock i).getD t) rest) := instDecidableChronological ..
    inferInstanceAs (Decidable (_ ∧ _))

namespace Chronological

variable {clock : ι → Option ℕ}

theorem append {t : ℕ} {first second : List ι} :
    Chronological clock t (first ++ second) ↔
      Chronological clock t first ∧ Chronological clock (clockAfter clock t first) second := by
  induction first generalizing t with
  | nil => simp [Chronological, clockAfter]
  | cons i rest ih =>
    simp only [List.cons_append, Chronological, ih, clockAfter, List.foldl_cons, and_assoc]

/-- A property of the time reached and the state, which every operation of a chronological
sequence preserves, holds after it. -/
theorem preserves (step : σ → ι → σ × List ο) {P : ℕ → σ → Prop}
    (keep : ∀ t s i, t ≤ (clock i).getD t → P t s → P ((clock i).getD t) (step s i).1) {t : ℕ}
    {s : σ} {ops : List ι} (ordered : Chronological clock t ops) (start : P t s) :
    P (clockAfter clock t ops) (Machine.after step s ops) := by
  induction ops generalizing t s with
  | nil => exact start
  | cons i rest ih => exact ih ordered.2 (keep t s i ordered.1 start)

/-- A property which every operation allowed in its state preserves, given the time reached. -/
theorem preserves_along (step : σ → ι → σ × List ο) {ok : σ → ι → Prop} {P : ℕ → σ → Prop}
    (keep : ∀ t s i, t ≤ (clock i).getD t → ok s i → P t s → P ((clock i).getD t) (step s i).1)
    {t : ℕ} {s : σ} {ops : List ι} (ordered : Chronological clock t ops)
    (allowed : Machine.Along step ok s ops) (start : P t s) :
    P (clockAfter clock t ops) (Machine.after step s ops) := by
  induction ops generalizing t s with
  | nil => exact start
  | cons i rest ih => exact ih ordered.2 allowed.2 (keep t s i ordered.1 allowed.1 start)

/-- A property of the time reached, the state and everything emitted, which every allowed operation
preserves. -/
theorem preserves_log (step : σ → ι → σ × List ο) {ok : ι → Prop} {P : ℕ → σ → List ο → Prop}
    (keep : ∀ t s i log, t ≤ (clock i).getD t → ok i → P t s log →
      P ((clock i).getD t) (step s i).1 (log ++ (step s i).2))
    {t : ℕ} {s : σ} {ops : List ι} {log : List ο} (ordered : Chronological clock t ops)
    (allowed : ∀ i ∈ ops, ok i) (start : P t s log) :
    P (clockAfter clock t ops) (Machine.after step s ops) (log ++ Machine.outputs step s ops) := by
  induction ops generalizing t s log with
  | nil => rwa [Machine.outputs_nil, List.append_nil]
  | cons i rest ih =>
    have next := keep t s i log ordered.1 (allowed i (List.mem_cons_self ..)) start
    have later := ih ordered.2 (fun j member => allowed j (List.mem_cons_of_mem _ member)) next
    rwa [List.append_assoc] at later

end Chronological

end StreamDelay.Foundations
