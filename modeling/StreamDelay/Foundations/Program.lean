import Mathlib.Tactic.Common

/-! # Programs that can stop anywhere

A program makes calls to something outside, which may answer a call in more than one way. A run of it can be cut
short after any call. A condition with a crash condition is what every state passed satisfies, and every result; it is
computed along the program, and carries over to an implementation of the calls by programs of their own.
-/

namespace StreamDelay.Foundations

/-- A program that makes calls `i : ι`, each answered with a `ρ i`. -/
inductive Program (ι : Type) (ρ : ι → Type) (α : Type) where
  | done (a : α)
  | call (i : ι) (next : ρ i → Program ι ρ α)

namespace Program

variable {ι κ : Type} {ρ : ι → Type} {π : κ → Type} {α β : Type} {ε : Type}

/-- One program after another. -/
def andThen (p : Program ι ρ α) (k : α → Program ι ρ β) : Program ι ρ β :=
  match p with
  | done a => k a
  | call i next => call i fun r => (next r).andThen k

/-- The program that makes one call. -/
def perform (i : ι) : Program ι ρ (ρ i) := call i done

/-- `?`: goes on with a result, and gives up with an error. -/
def orFail (p : Program ι ρ (Except ε α)) (k : α → Program ι ρ (Except ε β)) : Program ι ρ (Except ε β) :=
  p.andThen fun
    | .ok a => k a
    | .error e => done (.error e)

/-- Each call is made by a program. -/
def implement (f : ∀ i, Program κ π (ρ i)) : Program ι ρ α → Program κ π α
  | done a => done a
  | call i next => (f i).andThen fun r => (next r).implement f

/-! ## Runs -/

variable {σ τ : Type}

/-- What a call can do to the state, and answer. -/
abbrev Service (ι : Type) (ρ : ι → Type) (σ : Type) := (i : ι) → σ → σ → ρ i → Prop

variable (serve : Service ι ρ σ)

/-- A run of `p` from the first state can be in the second one. -/
inductive Passes : σ → Program ι ρ α → σ → Prop
  | here {s : σ} {p : Program ι ρ α} : Passes s p s
  | call {s t u : σ} {i : ι} {r : ρ i} {next : ρ i → Program ι ρ α} (served : serve i s t r)
      (later : Passes t (next r) u) : Passes s (call i next) u

/-- A run of `p` from the first state can end in the second one, with a result. -/
inductive Ends : σ → Program ι ρ α → σ → α → Prop
  | done {s : σ} {a : α} : Ends s (done a) s a
  | call {s t u : σ} {i : ι} {r : ρ i} {next : ρ i → Program ι ρ α} {a : α} (served : serve i s t r)
      (later : Ends t (next r) u a) : Ends s (call i next) u a

/-- Operations one after another, each to its end or to where it is cut short. Which program an operation is, the state
it starts in decides. -/
inductive Runs {ω : Type} (program : σ → ω → Program ι ρ α) (start : σ) : List (ω × Option α) → σ → Prop
  | nil : Runs program start [] start
  | ended {ops : List (ω × Option α)} {s t : σ} {op : ω} {a : α} (runs : Runs program start ops s)
      (ends : Ends serve s (program s op) t a) : Runs program start (ops ++ [(op, some a)]) t
  | stopped {ops : List (ω × Option α)} {s t : σ} {op : ω} (runs : Runs program start ops s)
      (passes : Passes serve s (program s op) t) : Runs program start (ops ++ [(op, none)]) t

/-- The run where every call is answered by `answer`. -/
def run (answer : σ → (i : ι) → σ × ρ i) : Program ι ρ α → σ → σ × α
  | done a, s => (s, a)
  | call i next, s => (next (answer s i).2).run answer (answer s i).1

/-- Every state that a run of `p` passes satisfies `C`, and every end of one satisfies `Q`. -/
def Always (C : σ → Prop) (Q : α → σ → Prop) : Program ι ρ α → σ → Prop
  | done a, s => C s ∧ Q a s
  | call i next, s => C s ∧ ∀ t r, serve i s t r → (next r).Always C Q t

variable {serve} {C D : σ → Prop} {Q : α → σ → Prop} {s t : σ} {p : Program ι ρ α}

theorem Always.start (always : p.Always serve C Q s) : C s := by
  cases p with
  | done a => exact always.1
  | call i next => exact always.1

theorem Always.passes (always : p.Always serve C Q s) (passes : Passes serve s p t) : C t := by
  induction passes with
  | here => exact always.start
  | call served _ ih => exact ih (always.2 _ _ served)

theorem Always.ends (always : p.Always serve C Q s) {a : α} (ends : Ends serve s p t a) : Q a t := by
  induction ends with
  | done => exact always.2
  | call served _ ih => exact ih (always.2 _ _ served)

theorem run_ends {answer : σ → (i : ι) → σ × ρ i} (served : ∀ s i, serve i s (answer s i).1 (answer s i).2)
    (p : Program ι ρ α) (s : σ) : Ends serve s p (p.run answer s).1 (p.run answer s).2 := by
  induction p generalizing s with
  | done a => exact .done
  | call i next ih => exact .call (served s i) (ih _ _)

theorem run_andThen (answer : σ → (i : ι) → σ × ρ i) (p : Program ι ρ α) (k : α → Program ι ρ β) (s : σ) :
    (p.andThen k).run answer s = (k (p.run answer s).2).run answer (p.run answer s).1 := by
  induction p generalizing s with
  | done a => rfl
  | call i next ih => exact ih _ _

/-! ## Rules -/

theorem Always.weaken {R : α → σ → Prop} (always : p.Always serve C Q s) (crash : ∀ s, C s → D s)
    (result : ∀ a s, Q a s → R a s) : p.Always serve D R s := by
  induction p generalizing s with
  | done a => exact ⟨crash s always.1, result a s always.2⟩
  | call i next ih => exact ⟨crash s always.1, fun t r served => ih r (always.2 t r served)⟩

/-- A program always passes the states it passes, and ends as it ends. -/
theorem always_traced (p : Program ι ρ α) (s : σ) :
    p.Always serve (Passes serve s p) (fun a t => Ends serve s p t a) s := by
  induction p generalizing s with
  | done a => exact ⟨.here, .done⟩
  | call i next ih =>
    exact ⟨.here, fun t r served => (ih r t).weaken (fun _ => .call served) fun _ _ => .call served⟩

theorem always_perform {i : ι} {R : ρ i → σ → Prop} (crash : C s)
    (served : ∀ t r, serve i s t r → C t ∧ R r t) : (perform i).Always serve C R s := ⟨crash, served⟩

theorem always_andThen {R : β → σ → Prop} {k : α → Program ι ρ β} (first : p.Always serve C Q s)
    (rest : ∀ a t, Q a t → (k a).Always serve C R t) : (p.andThen k).Always serve C R s := by
  induction p generalizing s with
  | done a => exact rest a s first.2
  | call i next ih => exact ⟨first.1, fun t r served => ih r (first.2 t r served)⟩

theorem always_orFail {p : Program ι ρ (Except ε α)} {Q : Except ε α → σ → Prop} {R : Except ε β → σ → Prop}
    {k : α → Program ι ρ (Except ε β)} (first : p.Always serve C Q s) (crash : ∀ e t, Q (.error e) t → C t)
    (rest : ∀ a t, Q (.ok a) t → (k a).Always serve C R t) (failed : ∀ e t, Q (.error e) t → R (.error e) t) :
    (p.orFail k).Always serve C R s := by
  refine always_andThen first fun result t ends => ?_
  cases result with
  | ok a => exact rest a t ends
  | error e => exact ⟨crash e t ends, failed e t ends⟩

/-! ## Implementations -/

/-- The programs `f` are good for the calls: where `R` relates their states, they pass only states related to the one
before the call or one after it, and end as the call may. -/
def Implements (serve : Service ι ρ σ) (serve' : Service κ π τ) (R : τ → σ → Prop) (f : ∀ i, Program κ π (ρ i)) :
    Prop :=
  ∀ i t s, R t s → (f i).Always serve' (fun t' => R t' s ∨ ∃ s' r, serve i s s' r ∧ R t' s')
    (fun r t' => ∃ s', serve i s s' r ∧ R t' s') t

/-- What holds of a program holds, up to `R`, of its implementation. -/
theorem Implements.always {serve' : Service κ π τ} {R : τ → σ → Prop} {f : ∀ i, Program κ π (ρ i)}
    (implements : Implements serve serve' R f) (always : p.Always serve C Q s) {t : τ} (related : R t s) :
    (p.implement f).Always serve' (fun t' => ∃ s', C s' ∧ R t' s') (fun a t' => ∃ s', Q a s' ∧ R t' s') t := by
  induction p generalizing s t with
  | done a => exact ⟨⟨s, always.1, related⟩, s, always.2, related⟩
  | call i next ih =>
    have first := (implements i t s related).weaken
      (D := fun t' => ∃ s', C s' ∧ R t' s') (fun t' passed => ?_) fun r t' ended => ended
    · exact always_andThen first fun r t' ⟨s', served, related'⟩ => ih r (always.2 s' r served) related'
    · rcases passed with same | ⟨s', r, served, related'⟩
      · exact ⟨s, always.1, same⟩
      · exact ⟨s', (always.2 s' r served).start, related'⟩

/-- A run of implementations is, up to `R`, a run of what they implement. -/
theorem Implements.runs {serve' : Service κ π τ} {R : τ → σ → Prop} {f : ∀ i, Program κ π (ρ i)} {ω : Type}
    {program : σ → ω → Program ι ρ α} {program' : τ → ω → Program κ π α} (implements : Implements serve serve' R f)
    (made : ∀ t s, R t s → ∀ op, program' t op = (program s op).implement f) {s : σ} {t t' : τ} (related : R t s)
    {ops : List (ω × Option α)} (runs : Runs serve' program' t ops t') :
    ∃ s', Runs serve program s ops s' ∧ R t' s' := by
  induction runs with
  | nil => exact ⟨s, .nil, related⟩
  | ended _ ends ih =>
    obtain ⟨mid, runs, related⟩ := ih
    rw [made _ _ related] at ends
    obtain ⟨s', ends, related⟩ := (implements.always (always_traced _ mid) related).ends ends
    exact ⟨s', .ended runs ends, related⟩
  | stopped _ passes ih =>
    obtain ⟨mid, runs, related⟩ := ih
    rw [made _ _ related] at passes
    obtain ⟨s', passes, related⟩ := (implements.always (always_traced _ mid) related).passes passes
    exact ⟨s', .stopped runs passes, related⟩

end Program

end StreamDelay.Foundations
