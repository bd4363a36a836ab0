import Mathlib.Data.List.Induction
import StreamDelay.Foundations.Program

/-! # One program at work at a time

Requests are served by programs, one after another, while other things happen between the calls. A program can be
given up before any call. What every program keeps, where what happens meanwhile does not break it, is kept throughout.
-/

namespace StreamDelay.Foundations

/-- What requests are served with: the program for a request, how a call is answered, and what else happens. -/
structure Office (κ χ ε ι : Type) (ρ : ι → Type) (α σ : Type) where
  receive : κ → σ → σ
  program : κ → Program ι ρ α
  answer : χ → σ → (i : ι) → σ × ρ i
  happen : ε → σ → σ

inductive Move (κ χ ε : Type) where
  | request (k : κ)
  /-- The program at work makes its next call; one that has made its last one is put away. -/
  | call (c : χ)
  | giveUp
  | meanwhile (e : ε)

structure Session (ι : Type) (ρ : ι → Type) (α σ : Type) where
  state : σ
  working : Option (Program ι ρ α)

variable {κ χ ε ι α σ : Type} {ρ : ι → Type}

namespace Office

variable (office : Office κ χ ε ι ρ α σ)

/-- A request that finds a program at work waits outside. -/
def step (s : Session ι ρ α σ) : Move κ χ ε → Session ι ρ α σ
  | .request k =>
    match s.working with
    | none => ⟨office.receive k s.state, some (office.program k)⟩
    | some _ => s
  | .call c =>
    match s.working with
    | some (.call i next) => ⟨(office.answer c s.state i).1, some (next (office.answer c s.state i).2)⟩
    | _ => { s with working := none }
  | .giveUp => { s with working := none }
  | .meanwhile e => { s with state := office.happen e s.state }

def after (s : Session ι ρ α σ) (moves : List (Move κ χ ε)) : Session ι ρ α σ := moves.foldl office.step s

/-- A call, answered in one of the ways allowed, before which something may happen. -/
def service (allowed : χ → Prop) (meanwhile : σ → σ → Prop) : Program.Service ι ρ σ :=
  fun i s t r => ∃ s' c, meanwhile s s' ∧ allowed c ∧ office.answer c s' i = (t, r)

/-- What it takes for a condition to hold throughout: nothing that happens breaks it, and every program keeps it from
call to call, and ends with a result of which `Q` holds and goes on to hold. -/
structure Keeps (asked : κ → Prop) (allowed : χ → Prop) (happens : ε → Prop) (meanwhile : σ → σ → Prop) (C : σ → Prop)
    (Q : α → σ → Prop) : Prop where
  refl : ∀ s, meanwhile s s
  trans : ∀ {s t u}, meanwhile s t → meanwhile t u → meanwhile s u
  happened : ∀ e s, happens e → meanwhile s (office.happen e s)
  stable : ∀ {s t}, meanwhile s t → C s → C t
  settled : ∀ {a s t}, meanwhile s t → Q a s → Q a t
  served : ∀ k s, asked k → C s → (office.program k).Always (office.service allowed meanwhile) C Q (office.receive k s)

/-- The moves of a run that keep to the rules. -/
def Fine (asked : κ → Prop) (allowed : χ → Prop) (happens : ε → Prop) : Move κ χ ε → Prop
  | .request k => asked k
  | .call c => allowed c
  | .giveUp => True
  | .meanwhile e => happens e

namespace Keeps

variable {office} {asked : κ → Prop} {allowed : χ → Prop} {happens : ε → Prop} {meanwhile : σ → σ → Prop}
  {C : σ → Prop} {Q : α → σ → Prop}

/-- The condition holds, and what is left of the program at work keeps it. -/
def Holds (office : Office κ χ ε ι ρ α σ) (allowed : χ → Prop) (meanwhile : σ → σ → Prop) (C : σ → Prop)
    (Q : α → σ → Prop) (s : Session ι ρ α σ) : Prop :=
  C s.state ∧ ∀ p ∈ s.working, p.Always (office.service allowed meanwhile) C Q s.state

/-- What a program keeps it keeps when it goes on after something has happened. -/
theorem later (keeps : office.Keeps asked allowed happens meanwhile C Q) {p : Program ι ρ α} {s t : σ}
    (happened : meanwhile s t) (always : p.Always (office.service allowed meanwhile) C Q s) :
    p.Always (office.service allowed meanwhile) C Q t := by
  cases p with
  | done a => exact ⟨keeps.stable happened always.1, keeps.settled happened always.2⟩
  | call i next =>
    refine ⟨keeps.stable happened always.1, fun u r ⟨v, c, later, may, answered⟩ => ?_⟩
    exact always.2 u r ⟨v, c, keeps.trans happened later, may, answered⟩

theorem step (keeps : office.Keeps asked allowed happens meanwhile C Q) {s : Session ι ρ α σ} {m : Move κ χ ε}
    (fine : Fine asked allowed happens m) (holds : Holds office allowed meanwhile C Q s) :
    Holds office allowed meanwhile C Q (office.step s m) := by
  obtain ⟨state, working⟩ := s
  obtain ⟨here, going⟩ := holds
  cases m with
  | request k =>
    cases working with
    | none =>
      have always := keeps.served k state fine here
      exact ⟨always.start, fun p own => by rwa [← Option.some.inj own]⟩
    | some p => exact ⟨here, going⟩
  | call c =>
    cases working with
    | none => exact ⟨here, nofun⟩
    | some p =>
      cases p with
      | done a => exact ⟨here, nofun⟩
      | call i next =>
        have always := (going _ rfl).2 _ _ ⟨state, c, keeps.refl state, fine, rfl⟩
        exact ⟨always.start, fun p own => by rwa [← Option.some.inj own]⟩
  | giveUp => exact ⟨here, nofun⟩
  | «meanwhile» e =>
    have happened := keeps.happened e state fine
    exact ⟨keeps.stable happened here, fun p own => keeps.later happened (going p own)⟩

/-- The condition holds after every run that keeps to the rules. -/
theorem after (keeps : office.Keeps asked allowed happens meanwhile C Q) {s : Session ι ρ α σ}
    {moves : List (Move κ χ ε)} (fine : ∀ m ∈ moves, Fine asked allowed happens m)
    (holds : Holds office allowed meanwhile C Q s) : Holds office allowed meanwhile C Q (office.after s moves) := by
  induction moves generalizing s with
  | nil => exact holds
  | cons m rest ih =>
    exact ih (fun n member => fine n (List.mem_cons_of_mem _ member))
      (keeps.step (fine m (List.mem_cons_self ..)) holds)

end Keeps

end Office

/-! ## Calls that change nothing -/

namespace Program

variable {serve : Service ι ρ σ} {β : Type} {C : σ → Prop} {s : σ}

/-- Every call is one of a kind. -/
def Only (kind : ι → Prop) : Program ι ρ β → Prop
  | done _ => True
  | call i next => kind i ∧ ∀ r, (next r).Only kind

theorem Only.andThen {α : Type} {kind : ι → Prop} {p : Program ι ρ α} {k : α → Program ι ρ β} (only : p.Only kind)
    (rest : ∀ a, (k a).Only kind) : (p.andThen k).Only kind := by
  induction p with
  | done a => exact rest a
  | call i next ih => exact ⟨only.1, fun r => ih r (only.2 r)⟩

/-- A program whose calls keep to a transitive relation keeps to it. -/
theorem Only.always {kind : ι → Prop} {R : σ → σ → Prop} {p : Program ι ρ β} (only : p.Only kind)
    (trans : ∀ {s t u}, R s t → R t u → R s u) (stable : ∀ {s t}, R s t → C s → C t)
    (quiet : ∀ i, kind i → ∀ s t r, serve i s t r → R s t) (refl : R s s) (here : C s) :
    p.Always serve C (fun _ t => R s t) s := by
  suffices going : ∀ t, R s t → p.Always serve C (fun _ u => R s u) t from going s refl
  intro t reached
  induction p generalizing t with
  | done a => exact ⟨stable reached here, reached⟩
  | call i next ih =>
    refine ⟨stable reached here, fun u r served => ?_⟩
    exact ih r (only.2 r) u (trans reached (quiet i only.1 t u r served))

/-- The same where every call is answered in one way. -/
theorem Only.run {kind : ι → Prop} {R : σ → σ → Prop} {answer : σ → (i : ι) → σ × ρ i} {p : Program ι ρ β}
    (only : p.Only kind) (refl : ∀ s, R s s) (trans : ∀ {s t u}, R s t → R t u → R s u)
    (quiet : ∀ i, kind i → ∀ s, R s (answer s i).1) (s : σ) : R s (p.run answer s).1 := by
  induction p generalizing s with
  | done a => exact refl s
  | call i next ih => exact trans (quiet i only.1 s) (ih _ (only.2 _) _)

end Program

end StreamDelay.Foundations
