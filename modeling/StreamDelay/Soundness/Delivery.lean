import Mathlib.Tactic.Common
import StreamDelay.Proofs.Delivery

/-! # What is queued is written without gaps

Whatever the core and the task do, and in whatever order, what is written of a connection's media between two
dumps is its beginning, each message once and in order; and what was queued before a dump is not written by any
write begun after it.
-/

namespace StreamDelay

open Foundations

namespace Egress

variable {Target : Type}

namespace State

private theorem new_marked : (State.new : State Target).Marked where
  line := by
    intro generation none
    contradiction
  since := by
    intro cut none
    contradiction
  held := fun _ none => absurd none List.not_mem_nil
  takes := fun some => absurd rfl some

/-- Where every message of a mark that is settled is written. -/
theorem written_eq_left {notes : List Note} {generation cut : ℕ}
    (all : ∀ q fate, .settled q fate ∈ notes → q.marked generation cut = true → fate = .written) :
    (notes.filterMap Note.written).filter (·.marked generation cut) =
      (notes.filterMap Note.left).filter (·.marked generation cut) := by
  induction notes with
  | nil => rfl
  | cons note rest ih =>
    have later := ih fun q fate settled => all q fate (List.mem_cons_of_mem _ settled)
    cases note with
    | queued q => exact later
    | settled q fate =>
      by_cases here : q.marked generation cut = true
      · obtain rfl := all q fate (List.mem_cons_self ..) here
        show List.filter _ (q :: rest.filterMap Note.written) = List.filter _ (q :: rest.filterMap Note.left)
        rw [List.filter_cons_of_pos here, List.filter_cons_of_pos here, later]
      · show _ = List.filter _ (q :: rest.filterMap Note.left)
        rw [List.filter_cons_of_neg here, ← later]
        cases fate with
        | written => exact List.filter_cons_of_neg here
        | stale | cutShort | dropped => rfl

private theorem mem_written {notes : List Note} {q : Queued} :
    q ∈ notes.filterMap Note.written ↔ .settled q .written ∈ notes := by
  rw [List.mem_filterMap]
  constructor
  · rintro ⟨note, member, written⟩
    cases note with
    | queued q' => contradiction
    | settled q' fate =>
      cases fate with
      | written =>
        obtain rfl := Option.some.inj written
        exact member
      | stale | cutShort | dropped => contradiction
  · exact fun settled => ⟨_, settled, rfl⟩

/-- What one step settles of a mark is written, or none of it is. -/
theorem step_settles {s : State Target} (marked : s.Marked) {act : Act Target} (fresh : s.Fresh act)
    (generation cut : ℕ) :
    let notes := (s.step act).2
    let written := (notes.filterMap Note.written).filter (·.marked generation cut)
    let left := (notes.filterMap Note.left).filter (·.marked generation cut)
    written = left ∧ (written ≠ [] → ¬s.Dead generation cut) ∨
      written = [] ∧ (s.step act).1.Dead generation cut := by
  intro notes written left
  have turn := step_turn s act
  by_cases all : ∀ q fate, .settled q fate ∈ notes → q.marked generation cut = true → fate = .written
  · refine .inl ⟨written_eq_left all, fun some => ?_⟩
    obtain ⟨q, member⟩ := List.exists_mem_of_ne_nil _ some
    obtain ⟨reported, here⟩ := List.mem_filter.mp member
    obtain ⟨rfl, rfl⟩ := Queued.marked_iff.mp here
    exact turn.alive marked reported
  · push Not at all
    obtain ⟨q, fate, settled, here, unwritten⟩ := all
    obtain ⟨member, missed⟩ := (turn.left marked.takes q fate settled).resolve_left unwritten
    obtain ⟨rfl, rfl⟩ := Queued.marked_iff.mp here
    refine .inr ⟨?_, turn.missed fresh marked member missed⟩
    by_contra some
    obtain ⟨q', also⟩ := List.exists_mem_of_ne_nil _ some
    obtain ⟨reported, same⟩ := List.mem_filter.mp also
    obtain ⟨generation, cut⟩ := Queued.marked_iff.mp same
    obtain ⟨-, since, line, goesOn⟩ := turn.written q' reported
    rw [generation] at line goesOn
    rw [cut] at since
    rcases missed with ⟨finished, -⟩ | ⟨other, on, differs⟩ | ⟨begun, at_, -, differs, -⟩
    · rw [finished] at goesOn
      contradiction
    · exact differs (Option.some.inj (line.symm.trans on))
    · exact differs (Option.some.inj (since.symm.trans at_))

/-- Over a run, from where what was written of a mark is the beginning of what was settled. -/
theorem run_settles {s : State Target} (valid : s.Valid) (marked : s.Marked) {acts : List (Act Target)}
    (fresh : Machine.Along State.step Fresh s acts) (generation cut : ℕ) {written left : List Queued}
    (begins : written <+: left) (on : written = left ∨ s.Dead generation cut) :
    written ++ ((s.notes acts).filterMap Note.written).filter (·.marked generation cut) <+:
      left ++ ((s.notes acts).filterMap Note.left).filter (·.marked generation cut) := by
  induction acts generalizing s written left with
  | nil =>
    show written ++ [] <+: left ++ []
    rwa [List.append_nil, List.append_nil]
  | cons act rest ih =>
    obtain ⟨here, later⟩ := fresh
    have turn := step_turn s act
    have accounts := step_accounts valid act
    have next := turn.marked here accounts marked
    rw [notes, Machine.outputs_cons, List.filterMap_append, List.filterMap_append, List.filter_append,
      List.filter_append, ← List.append_assoc, ← List.append_assoc]
    rcases step_settles marked here generation cut with ⟨same, alive⟩ | ⟨none, dead⟩
    · rcases on with rfl | dead
      · rw [same]
        exact ih accounts.valid next later (List.prefix_refl _) (.inl rfl)
      · have none : ((s.step act).2.filterMap Note.written).filter (·.marked generation cut) = [] := by
          by_contra some
          exact alive some dead
        rw [← same, none, List.append_nil, List.append_nil]
        exact ih accounts.valid next later begins (.inr (turn.dead here dead))
    · rw [none, List.append_nil]
      exact ih accounts.valid next later (begins.trans (List.prefix_append ..)) (.inr dead)

end State

/-- What is written is what was queued, each message at most once and in the order it was queued in; and of what
was queued for a connection between two dumps, it is the beginning: no message is written once one before it has
been left out. -/
theorem written_in_order (acts : List (Act Target))
    (fresh : Machine.Along State.step State.Fresh (State.new : State Target) acts) :
    let notes := (State.new : State Target).notes acts
    (notes.filterMap Note.written).Sublist (notes.filterMap Note.entered) ∧
      ∀ generation cut, (notes.filterMap Note.written).filter (·.marked generation cut) <+:
        (notes.filterMap Note.entered).filter (·.marked generation cut) := by
  intro notes
  have valid : (State.new : State Target).Valid := fun ended => Bool.noConfusion ended
  have ran := State.flow.run valid acts
  constructor
  · have settled : (notes.filterMap Note.written).Sublist (notes.filterMap Note.left) := by
      induction notes with
      | nil => exact List.Sublist.refl _
      | cons note rest ih =>
        cases note with
        | queued q => exact ih
        | settled q fate =>
          cases fate with
          | written => exact ih.cons_cons q
          | stale | cutShort | dropped => exact ih.cons q
    have counted : notes.filterMap Note.entered = notes.filterMap Note.left ++ (State.new.after acts).held := ran
    rw [counted]
    exact settled.trans (List.sublist_append_left _ _)
  · intro generation cut
    have all := State.run_settles valid State.new_marked fresh generation cut List.nil_prefix (.inl rfl)
    refine all.trans ?_
    show _ <+: List.filter _ ((State.new.notes acts).filterMap Note.entered)
    rw [show (State.new.notes acts).filterMap Note.entered = _ from ran, List.filter_append]
    exact List.prefix_append ..

/-- An audio message of so many bytes. -/
def sized (n : ℕ) : OutMsg := ⟨.audio, 0, List.replicate n 0, none⟩

/-- The first of three messages is being written. -/
def airing : List (Act ℕ) :=
  [.control (.start 7), .receive false, .attempt true, .quiet, .answer 1, .resume, .queue (sized 3), .send,
    .takeMany 64, .queue (sized 5), .send, .queue (sized 4), .send]

/-- The write fails, and what was queued behind it is dropped, though the next connection takes media. -/
theorem written_in_order_failing :
    let acts := airing ++ [.write true, .settle, .slept, .attempt true, .quiet, .answer 2, .resume,
      .queue (sized 6), .send, .takeMany 64, .write false, .settle]
    ((State.new.notes acts).filterMap Note.written).filter (·.marked 1 0) <+:
      ((State.new.notes acts).filterMap Note.entered).filter (·.marked 1 0) :=
  (written_in_order _ (by decide +kernel)).2 1 0

namespace State

variable {s : State Target} {cut : ℕ}

/-- A write begun before so many dumps is the one that was under way at `start`. -/
def Begun (cut : ℕ) (start s : State Target) : Prop :=
  cut ≤ s.cut ∧ ∀ since, s.phase.since = some since → since < cut →
    s.batch = start.batch ∧ start.phase.since = some since

/-- No write under way was begun before so many dumps. -/
def Past (cut : ℕ) (s : State Target) : Prop :=
  cut ≤ s.cut ∧ ∀ since, s.phase.since = some since → cut ≤ since

/-- The task has yet to be told of a dump, or no write begun before it goes on. -/
def Told (n cut : ℕ) (s : State Target) : Prop := cut ≤ s.cut ∧ (.cut n ∈ s.ctl ∨ s.Past cut)

private theorem step_begun {start : State Target} (act : Act Target) (begun : Begun cut start s) :
    Begun cut start (s.step act).1 := by
  have turn := step_turn s act
  refine ⟨Nat.le_trans begun.1 turn.cut, fun since writing earlier => ?_⟩
  rcases turn.since with finished | ⟨kept, same⟩ | ⟨-, now, -⟩
  · rw [finished] at writing
    contradiction
  · rw [same]
    exact begun.2 since (kept ▸ writing) earlier
  · obtain rfl := Option.some.inj (now.symm.trans writing)
    exact absurd begun.1 (Nat.not_le.mpr earlier)

private theorem step_past (act : Act Target) (past : s.Past cut) : (s.step act).1.Past cut := by
  have turn := step_turn s act
  refine ⟨Nat.le_trans past.1 turn.cut, fun since writing => ?_⟩
  rcases turn.since with finished | ⟨kept, -⟩ | ⟨-, now, -⟩
  · rw [finished] at writing
    contradiction
  · exact past.2 since (kept ▸ writing)
  · obtain rfl := Option.some.inj (now.symm.trans writing)
    exact past.1

private theorem step_told {n : ℕ} (act : Act Target) (told : s.Told n cut) : (s.step act).1.Told n cut := by
  have turn := step_turn s act
  have counted := Nat.le_trans told.1 turn.cut
  refine ⟨counted, ?_⟩
  rcases told.2 with waits | past
  · rcases turn.ctl n waits with still | finished
    · exact .inl still
    · refine .inr ⟨counted, fun since writing => ?_⟩
      rw [finished] at writing
      contradiction
  · exact .inr (step_past act past)

/-- What a run writes, it writes in a step taken where the message may still be written. -/
theorem written_since {acts : List (Act Target)} {q : Queued} (written : .settled q .written ∈ s.notes acts) :
    ∃ first act second, acts = first ++ act :: second ∧ q ∈ (s.after first).batch ∧
      (s.after first).phase.since = some q.cut := by
  obtain ⟨first, act, second, split, here⟩ := Machine.mem_outputs State.step written
  obtain ⟨member, since, -⟩ := (step_turn (s.after first) act).written q (mem_written.mpr here)
  exact ⟨first, act, second, split, member, since⟩

end State

/-- A dump takes back what is queued. After it, of what was queued before, only what was being written then is
still written; and once the task has received the dump's message (number `n`, sent at any time after it), none
of it is. -/
theorem dump_takes_back (before : List (Act Target)) :
    let s := (State.new : State Target).after before
    let dumped := (s.step .takeBack).1
    s.core = true →
      (∀ later q, .settled q .written ∈ dumped.notes later → q.cut ≤ s.cut →
        q ∈ s.batch ∧ s.phase.since = some q.cut) ∧
      ∀ mid n next, (dumped.after mid).core = true →
        let told := dumped.after (mid ++ .control (.cut n) :: next)
        .cut n ∉ told.ctl → ∀ later q, .settled q .written ∈ told.notes later → s.cut < q.cut := by
  intro s dumped on
  have back : dumped = { s with cut := s.cut + 1 } := by
    show (if s.core then s.coreStep .takeBack else (s, [])).1 = _
    rw [if_pos on]
    rfl
  constructor
  · intro later q written older
    obtain ⟨first, act, second, -, member, since⟩ := State.written_since written
    have start : State.Begun (s.cut + 1) s dumped := by
      rw [back]
      exact ⟨Nat.le_refl _, fun since writing _ => ⟨rfl, writing⟩⟩
    have begun : State.Begun (s.cut + 1) s (dumped.after first) :=
      Machine.after_induct (P := State.Begun (s.cut + 1) s) State.step (fun _ act => State.step_begun act) start first
    obtain ⟨same, was⟩ := begun.2 _ since (Nat.lt_succ_of_le older)
    exact ⟨same ▸ member, was⟩
  · intro mid n next alive told received later q written
    obtain ⟨first, act, second, -, -, since⟩ := State.written_since written
    have dumps : State.Begun (s.cut + 1) dumped dumped :=
      ⟨Nat.le_of_eq (by rw [back]), fun since writing _ => ⟨rfl, writing⟩⟩
    have counted : s.cut + 1 ≤ (dumped.after mid).cut :=
      (Machine.after_induct (P := State.Begun (s.cut + 1) dumped) State.step (fun _ act => State.step_begun act)
        dumps mid).1
    have sent : ((dumped.after mid).step (.control (.cut n))).1.Told n (s.cut + 1) := by
      show (if (dumped.after mid).core then (dumped.after mid).coreStep (.control (.cut n))
        else ((dumped.after mid), [])).1.Told n (s.cut + 1)
      rw [if_pos alive]
      exact ⟨counted, .inl (List.mem_append_right _ (List.mem_cons_self ..))⟩
    have here : told.Told n (s.cut + 1) := by
      show (dumped.after (mid ++ .control (.cut n) :: next)).Told n (s.cut + 1)
      rw [State.after, Machine.after_append]
      exact Machine.after_induct (P := State.Told n (s.cut + 1)) State.step (fun _ act => State.step_told act) sent next
    have past : (told.after first).Past (s.cut + 1) :=
      Machine.after_induct (P := State.Past (s.cut + 1)) State.step (fun _ act => State.step_past act)
        (here.2.resolve_left received) first
    exact past.2 _ since

/-- A dump while the first of three messages is being written: that one may still be written, until the dump's
message interrupts it; the two behind it are not. -/
theorem dump_takes_back_airing :
    let s := State.new.after airing
    let dumped := (s.step .takeBack).1
    ⟨1, 0, sized 3⟩ ∈ s.batch ∧
      ∀ later q, .settled q .written ∈ (dumped.after [.control (.cut 1), .interrupt, .settle]).notes later →
        0 < q.cut := by
  intro s dumped
  have back := dump_takes_back airing (by decide +kernel)
  constructor
  · exact (back.1 [.write false, .settle] ⟨1, 0, sized 3⟩ (by decide +kernel) (by decide +kernel)).1
  · exact back.2 [] 1 [.interrupt, .settle] (by decide +kernel) (by decide +kernel)

end Egress

end StreamDelay
