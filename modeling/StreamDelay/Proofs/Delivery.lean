import Mathlib.Tactic.Common
import StreamDelay.Proofs.Egress

/-! # What a step may write

A message is written on the connection it was made for and by a write begun since the last dump, or not at
all; once one of a connection and a dump has been left out, no later one of the two is written.
-/

namespace StreamDelay

open Foundations

namespace Egress

variable {Target : Type}

/-- The connection whose media may still be written. -/
def Phase.line : Phase Target → Option ℕ
  | announced _ reply => reply
  | publishing _ generation => some generation
  | writing _ generation _ => some generation
  | wrote _ generation _ .done => some generation
  | _ => none

/-- The dumps there had been when the write under way was begun, if it may still take all of its batch. -/
def Phase.since : Phase Target → Option ℕ
  | writing _ _ cut => some cut
  | wrote _ _ cut .done => some cut
  | _ => none

/-- Where the task may hold media. -/
def Phase.takes : Phase Target → Bool
  | idle | backoff _ | stopping | writing .. | wrote .. => true
  | _ => false

/-- The message a note reports as written. -/
def Note.written : Note → Option Queued
  | settled q .written => some q
  | _ => none

/-- Made for a connection, after so many dumps. -/
def Queued.marked (generation cut : ℕ) (q : Queued) : Bool := q.generation == generation && q.cut == cut

theorem Queued.marked_iff {generation cut : ℕ} {q : Queued} :
    q.marked generation cut = true ↔ q.generation = generation ∧ q.cut = cut := by
  rw [marked, Bool.and_eq_true, beq_iff_eq, beq_iff_eq]

theorem Queued.fate_written {q : Queued} {generation cut : ℕ} {result : Written Target} :
    q.fate generation cut result = .written ↔ q.generation = generation ∧ q.cut = cut ∧ result = .done := by
  unfold fate
  split
  · next stale =>
    refine ⟨fun written => Fate.noConfusion written, ?_⟩
    rintro ⟨same, made, -⟩
    exact absurd stale (not_or.mpr ⟨not_not_intro same, not_not_intro made⟩)
  · next current =>
    obtain ⟨same, made⟩ := not_or.mp current
    cases result with
    | done => exact ⟨fun _ => ⟨not_not.mp same, not_not.mp made, rfl⟩, fun _ => rfl⟩
    | failed | interrupted =>
      refine ⟨fun written => Fate.noConfusion written, ?_⟩
      rintro ⟨-, -, done⟩
      contradiction

theorem written_settled (queued : List Queued) (fate : Queued → Fate) :
    (queued.map fun q => Note.settled q (fate q)).filterMap Note.written =
      queued.filter fun q => fate q = .written := by
  induction queued with
  | nil => rfl
  | cons q rest ih =>
    rw [List.map_cons, List.filter_cons]
    by_cases written : fate q = .written
    · rw [List.filterMap_cons_some (b := q) (by rw [written]; rfl), ih, if_pos (decide_eq_true written)]
    · rw [List.filterMap_cons_none, ih, if_neg (by rwa [decide_eq_true_eq])]
      cases same : fate q with
      | written => exact absurd same written
      | stale => rfl
      | cutShort => rfl
      | dropped => rfl

namespace State

variable {s s' : State Target} {act : Act Target} {notes : List Note}

/-- The core gives each connection a number of its own. -/
def Fresh (s : State Target) : Act Target → Prop
  | .answer generation => s.generation < generation
  | _ => True

instance (s : State Target) : (act : Act Target) → Decidable (s.Fresh act)
  | .answer generation => inferInstanceAs (Decidable (s.generation < generation))
  | .queue _ | .send | .control _ | .takeBack | .leave | .receive _ | .take | .drop | .attempt _ | .quiet
  | .resume | .lost | .takeMany _ | .write _ | .interrupt | .settle | .slept => .isTrue trivial

/-- What is queued was made for no later connection, and after no later dump. -/
structure Marked (s : State Target) : Prop where
  line : ∀ generation, s.phase.line = some generation → generation = s.generation
  since : ∀ cut, s.phase.since = some cut → cut ≤ s.cut ∧ ∀ q ∈ s.batch, q.cut ≤ cut
  held : ∀ q ∈ s.held, q.generation ≤ s.generation ∧ q.cut ≤ s.cut
  takes : s.batch ≠ [] → s.phase.takes = true

/-- Nothing made for a connection after so many dumps is written any more. -/
def Dead (generation cut : ℕ) (s : State Target) : Prop :=
  (generation < s.generation ∨ s.phase.line = none ∧ generation ≤ s.generation) ∨
    cut < s.cut ∧ ∀ begun, s.phase.since = some begun → cut < begun

/-- Why a message is left out: the connection is over, it was made for another, or a dump took it back. -/
def Missed (s s' : State Target) (q : Queued) : Prop :=
  (s'.phase.line = none ∧ s'.generation = s.generation) ∨
    (∃ generation, s.phase.line = some generation ∧ q.generation ≠ generation) ∨
    ∃ cut, s.phase.since = some cut ∧ q ∈ s.batch ∧ q.cut ≠ cut ∧ s'.phase.since = none

/-- What one step may do. -/
structure Turn (act : Act Target) (s s' : State Target) (notes : List Note) : Prop where
  line : s.Fresh act → (s'.generation = s.generation ∧ (s'.phase.line = none ∨ s'.phase.line = s.phase.line)) ∨
    s.generation < s'.generation ∧ s'.phase.line = some s'.generation
  cut : s.cut ≤ s'.cut
  since : s'.phase.since = none ∨ (s'.phase.since = s.phase.since ∧ s'.batch = s.batch) ∨
    s.phase.since = none ∧ s'.phase.since = some s.cut ∧ ∀ q ∈ s'.batch, q ∈ s.media
  takes : (s.batch ≠ [] → s.phase.takes = true) → s'.batch ≠ [] → s'.phase.takes = true
  ctl : ∀ n, .cut n ∈ s.ctl → .cut n ∈ s'.ctl ∨ s'.phase.since = none
  entered : ∀ q ∈ notes.filterMap Note.entered, q.generation = s.generation ∧ q.cut = s.cut
  written : ∀ q ∈ notes.filterMap Note.written, q ∈ s.batch ∧ s.phase.since = some q.cut ∧
    s.phase.line = some q.generation ∧ s'.phase.line = some q.generation
  left : (s.batch ≠ [] → s.phase.takes = true) → ∀ q fate, .settled q fate ∈ notes →
    fate = .written ∨ q ∈ s.batch ∧ Missed s s' q

/-- A step that settles and begins nothing. -/
theorem Turn.quiet (line : s.Fresh act → (s'.generation = s.generation ∧
      (s'.phase.line = none ∨ s'.phase.line = s.phase.line)) ∨
      s.generation < s'.generation ∧ s'.phase.line = some s'.generation) (cut : s.cut ≤ s'.cut)
    (since : s'.phase.since = none ∨ (s'.phase.since = s.phase.since ∧ s'.batch = s.batch))
    (takes : (s.batch ≠ [] → s.phase.takes = true) → s'.batch ≠ [] → s'.phase.takes = true)
    (ctl : ∀ n, .cut n ∈ s.ctl → .cut n ∈ s'.ctl ∨ s'.phase.since = none) : Turn act s s' [] where
  line := line
  cut := cut
  since := since.imp_right .inl
  takes := takes
  ctl := ctl
  entered := fun _ none => absurd none List.not_mem_nil
  written := fun _ none => absurd none List.not_mem_nil
  left := fun _ _ _ none => absurd none List.not_mem_nil

theorem Turn.same : Turn act s s [] :=
  .quiet (fun _ => .inl ⟨rfl, .inr rfl⟩) (Nat.le_refl _) (.inr ⟨rfl, rfl⟩) id fun _ => .inl

/-- A step of the core that leaves the task where it is. -/
theorem Turn.beside (phase : s'.phase = s.phase) (batch : s'.batch = s.batch)
    (generation : s'.generation = s.generation)
    (cut : s.cut ≤ s'.cut) (ctl : s.ctl ⊆ s'.ctl) : Turn act s s' [] := by
  refine .quiet (fun _ => .inl ⟨generation, .inr (by rw [phase])⟩) cut (.inr ⟨by rw [phase], batch⟩) ?_
    fun n waits => .inl (ctl waits)
  intro takes some
  rw [phase]
  exact takes (batch ▸ some)

/-- A step of the task to where nothing is being written, with the media it holds. -/
theorem Turn.moved {phase : Phase Target} {batch media : List Queued} {ctl : List (Ctl Target)}
    (line : phase.line = none ∨ phase.line = s.phase.line) (since : phase.since = none)
    (takes : batch ≠ [] → phase.takes = true) :
    Turn act s { s with ctl := ctl, media := media, batch := batch, phase := phase } [] :=
  .quiet (fun _ => .inl ⟨rfl, line⟩) (Nat.le_refl _) (.inl since) (fun _ => takes) fun _ _ => .inr since

private theorem coreStep_turn (s : State Target) (act : Act Target) :
    Turn act s (s.coreStep act).1 (s.coreStep act).2 := by
  unfold coreStep
  cases act with
  | queue msg =>
    dsimp only
    split
    · constructor
      · exact fun _ => .inl ⟨rfl, .inr rfl⟩
      · exact Nat.le_refl _
      · exact .inr (.inl ⟨rfl, rfl⟩)
      · exact id
      · exact fun n waits => .inl waits
      · intro q counted
        rw [List.mem_singleton.mp counted]
        exact ⟨rfl, rfl⟩
      · exact fun q none => absurd none List.not_mem_nil
      · intro _ q fate settled
        cases List.mem_singleton.mp settled
    · exact .same
  | send =>
    dsimp only
    split
    · exact .same
    · exact .beside rfl rfl rfl (Nat.le_refl _) fun _ => id
  | control c => exact .beside rfl rfl rfl (Nat.le_refl _) (List.subset_append_left _ _)
  | takeBack => exact .beside rfl rfl rfl (Nat.le_succ _) fun _ => id
  | answer generation =>
    dsimp only
    split
    · next t phase =>
      refine .quiet (fun fresh => .inr ⟨fresh, rfl⟩) (Nat.le_refl _) (.inl rfl) ?_ fun n waits => .inl waits
      intro takes some
      rw [phase] at takes
      exact absurd (takes some) Bool.false_ne_true
    · exact .same
  | leave =>
    dsimp only
    split
    · exact .beside rfl rfl rfl (Nat.le_refl _) fun _ => id
    · exact .same
  | receive | take | drop | attempt | quiet | resume | lost | takeMany | write | interrupt | settle | slept =>
    exact .same

theorem endedBy_line (t : Target) (c : Option (Ctl Target)) :
    (endedBy t c).line = none ∧ (endedBy t c).since = none := by
  unfold endedBy
  split <;> exact ⟨rfl, rfl⟩

/-- After a write the connection goes on or is over, and nothing is being written. -/
theorem afterWrite_line (t : Target) (generation cut : ℕ) (result : Written Target) :
    ((afterWrite t generation result).line = none ∨
      (afterWrite t generation result).line = (Phase.wrote t generation cut result).line) ∧
      (afterWrite t generation result).since = none := by
  cases result with
  | done => exact ⟨.inr rfl, rfl⟩
  | failed => exact ⟨.inl rfl, rfl⟩
  | interrupted c => exact ⟨.inl (endedBy_line t c).1, (endedBy_line t c).2⟩

/-- A control message leaves the connection as it is, or ends it, and nothing is being written. -/
theorem control_line {c : Option (Ctl Target)} {waiting : Bool} {phase next : Phase Target}
    (received : Egress.control c waiting phase = some next) :
    (next.line = none ∨ next.line = phase.line) ∧ next.since = none := by
  have ended {t : Target} {c : Option (Ctl Target)} (finished : some (endedBy t c) = some next) :
      (next.line = none ∨ next.line = phase.line) ∧ next.since = none := by
    obtain rfl := Option.some.inj finished
    exact ⟨.inl (endedBy_line t c).1, (endedBy_line t c).2⟩
  unfold Egress.control at received
  split at received <;> try split at received
  all_goals first
    | contradiction
    | exact ended received
    | obtain rfl := Option.some.inj received
      exact ⟨.inl rfl, rfl⟩
    | obtain rfl := Option.some.inj received
      split
      · exact ⟨.inl rfl, rfl⟩
      · exact ⟨.inr rfl, rfl⟩

theorem takeOne_turn {closed : Phase Target} (free : s.batch = []) (off : s.phase.line = none)
    (idle : s.phase.since = none) (takes : s.phase.takes = true) (last : closed.line = none)
    (finished : closed.since = none) : Turn act s (s.takeOne closed) [] := by
  unfold takeOne
  split
  · exact .moved (.inl off) idle fun _ => takes
  · split
    · exact .same
    · exact .moved (.inl last) finished fun some => absurd free some

private theorem taskStep_turn (free : s.batch = []) (act : Act Target) :
    Turn act s (s.taskStep act).1 (s.taskStep act).2 := by
  have none {phase : Phase Target} : s.batch ≠ [] → phase.takes = true := fun some => absurd free some
  unfold taskStep
  cases act with
  | receive waiting =>
    dsimp only
    split
    · exact .same
    · next c rest _ =>
      split
      · exact .same
      · next phase received =>
        obtain ⟨line, since⟩ := control_line received
        exact .moved line since none
  | take =>
    dsimp only
    split
    · next phase =>
      exact takeOne_turn free (by rw [phase]; rfl) (by rw [phase]; rfl) (by rw [phase]; rfl) rfl rfl
    · next phase =>
      exact takeOne_turn free (by rw [phase]; rfl) (by rw [phase]; rfl) (by rw [phase]; rfl) rfl rfl
    · next phase =>
      split
      · exact .moved (.inr rfl) (by rw [phase]; rfl) fun _ => by rw [phase]; rfl
      · exact .moved (.inl rfl) rfl none
    · exact .same
  | attempt connected =>
    dsimp only
    split
    · cases connected with
      | true => exact .moved (.inl rfl) rfl none
      | false => exact .moved (.inl rfl) rfl none
    · exact .same
  | quiet =>
    dsimp only
    split
    · split
      · exact .moved (.inl rfl) rfl none
      · exact .same
    · exact .same
  | resume =>
    dsimp only
    split
    · next phase => exact .moved (.inr (by rw [phase]; rfl)) rfl none
    · split
      · exact .same
      · exact .moved (.inl rfl) rfl none
    · exact .same
  | lost | slept =>
    dsimp only
    split
    · exact .moved (.inl rfl) rfl none
    · exact .same
  | takeMany n =>
    dsimp only
    split
    · next phase =>
      split
      · split
        · exact .same
        · exact .moved (.inl rfl) rfl none
      · constructor
        · exact fun _ => .inl ⟨rfl, .inr (by rw [phase]; rfl)⟩
        · exact Nat.le_refl _
        · exact .inr (.inr ⟨by rw [phase]; rfl, rfl, fun q => List.mem_of_mem_take⟩)
        · exact fun _ _ => rfl
        · exact fun n waits => .inl waits
        all_goals intros; contradiction
    · exact .same
  | queue | send | control | takeBack | answer | leave | drop | write | interrupt | settle => exact .same

private theorem batchStep_turn (some_ : s.batch ≠ []) (act : Act Target) :
    Turn act s (s.batchStep act).1 (s.batchStep act).2 := by
  unfold batchStep
  split
  · next t generation cut phase =>
    split
    · next failed =>
      cases failed with
      | true => exact .moved (.inl rfl) rfl fun _ => rfl
      | false =>
        exact .quiet (fun _ => .inl ⟨rfl, .inr (by rw [phase]; rfl)⟩) (Nat.le_refl _) (.inr ⟨by rw [phase]; rfl, rfl⟩)
          (fun _ _ => rfl) fun n waits => .inl waits
    · split
      · exact .same
      · exact .moved (.inl rfl) rfl fun _ => rfl
    · exact .same
  · next t generation cut result phase =>
    split
    · constructor
      · rw [phase]
        exact fun _ => .inl ⟨rfl, (afterWrite_line t generation cut result).1⟩
      · exact Nat.le_refl _
      · exact .inl (afterWrite_line t generation cut result).2
      · exact fun _ none => absurd rfl none
      · intro n waits
        exact .inl waits
      · rw [entered_settled]
        exact fun q none => absurd none List.not_mem_nil
      · rw [written_settled]
        intro q member
        obtain ⟨here, written⟩ := List.mem_filter.mp member
        obtain ⟨rfl, rfl, rfl⟩ := Queued.fate_written.mp (of_decide_eq_true written)
        exact ⟨here, by rw [phase]; rfl, by rw [phase]; rfl, rfl⟩
      · intro _ q fate settled
        obtain ⟨q', here, same⟩ := List.mem_map.mp settled
        obtain ⟨rfl, rfl⟩ := Note.settled.inj same
        by_cases written : q'.fate generation cut result = .written
        · exact .inl written
        refine .inr ⟨here, ?_⟩
        rw [Queued.fate_written] at written
        cases result with
        | failed => exact .inl ⟨rfl, rfl⟩
        | interrupted c => exact .inl ⟨(endedBy_line t c).1, rfl⟩
        | done =>
          by_cases other : q'.generation = generation
          · refine .inr (.inr ⟨cut, by rw [phase]; rfl, here, fun same => ?_, rfl⟩)
            exact written ⟨other, same, rfl⟩
          · exact .inr (.inl ⟨generation, by rw [phase]; rfl, other⟩)
    · exact .same
  · next writing wrote =>
    split
    · unfold dropQueued
      have finished (takes : s.phase.takes = true) : s.phase.line = none := by
        cases phase : s.phase with
        | idle | backoff | stopping => rfl
        | writing t generation cut => exact absurd phase (writing t generation cut)
        | wrote t generation cut result => exact absurd phase (wrote t generation cut result)
        | connecting | accepted | announced | publishing | returned =>
          rw [phase] at takes
          contradiction
      constructor
      · exact fun _ => .inl ⟨rfl, .inr rfl⟩
      · exact Nat.le_refl _
      · refine .inl ?_
        show s.phase.since = none
        cases phase : s.phase with
        | writing t generation cut => exact absurd phase (writing t generation cut)
        | wrote t generation cut result => exact absurd phase (wrote t generation cut result)
        | _ => rfl
      · exact fun _ none => absurd rfl none
      · exact fun n waits => .inl waits
      · rw [entered_settled]
        exact fun q none => absurd none List.not_mem_nil
      · rw [written_settled]
        intro q member
        exact absurd (of_decide_eq_true (List.mem_filter.mp member).2) (fun same => Fate.noConfusion same)
      · intro takes q fate settled
        obtain ⟨q', here, same⟩ := List.mem_map.mp settled
        obtain ⟨rfl, rfl⟩ := Note.settled.inj same
        exact .inr ⟨here, .inl ⟨finished (takes some_), rfl⟩⟩
    · exact .same

/-- What any step may do. -/
theorem step_turn (s : State Target) (act : Act Target) : Turn act s (s.step act).1 (s.step act).2 := by
  have task : Turn act s (if s.batch = [] then s.taskStep act else s.batchStep act).1
      (if s.batch = [] then s.taskStep act else s.batchStep act).2 := by
    split
    · next free => exact taskStep_turn free act
    · next some => exact batchStep_turn some act
  have core : Turn act s (if s.core then s.coreStep act else (s, [])).1
      (if s.core then s.coreStep act else (s, [])).2 := by
    split
    · exact coreStep_turn s act
    · exact .same
  unfold step
  cases act with
  | queue | send | control | takeBack | answer | leave => exact core
  | receive | take | drop | attempt | quiet | resume | lost | takeMany | write | interrupt | settle | slept =>
    exact task

/-! ## What the steps keep -/

theorem Turn.generation_le (turn : Turn act s s' notes) (fresh : s.Fresh act) : s.generation ≤ s'.generation := by
  rcases turn.line fresh with ⟨same, -⟩ | ⟨later, -⟩
  · exact Nat.le_of_eq same.symm
  · exact Nat.le_of_lt later

theorem Turn.marked (turn : Turn act s s' notes) (fresh : s.Fresh act) (accounts : Accounts act s s' notes)
    (marked : s.Marked) :
    s'.Marked where
  line := by
    intro generation on
    rcases turn.line fresh with ⟨same, off | kept⟩ | ⟨-, opened⟩
    · rw [off] at on
      contradiction
    · rw [same]
      exact marked.line generation (kept ▸ on)
    · exact Option.some.inj (on.symm.trans opened)
  since := by
    intro cut writing
    rcases turn.since with finished | ⟨kept, batch⟩ | ⟨-, begun, taken⟩
    · rw [finished] at writing
      contradiction
    · obtain ⟨earlier, within⟩ := marked.since cut (kept ▸ writing)
      exact ⟨Nat.le_trans earlier turn.cut, batch ▸ within⟩
    · obtain rfl := Option.some.inj (begun.symm.trans writing)
      refine ⟨turn.cut, fun q member => ?_⟩
      have queued : q ∈ s.held := List.mem_append_left _ (List.mem_append_right _ (taken q member))
      exact (marked.held q queued).2
  held := by
    intro q member
    have all : q ∈ s.held ++ notes.filterMap Note.entered := by
      rw [accounts.balance]
      exact List.mem_append_right _ member
    rcases List.mem_append.mp all with before | counted
    · obtain ⟨generation, cut⟩ := marked.held q before
      exact ⟨Nat.le_trans generation (turn.generation_le fresh), Nat.le_trans cut turn.cut⟩
    · obtain ⟨generation, cut⟩ := turn.entered q counted
      exact ⟨Nat.le_trans (Nat.le_of_eq generation) (turn.generation_le fresh),
        Nat.le_trans (Nat.le_of_eq cut) turn.cut⟩
  takes := turn.takes marked.takes

variable {generation cut : ℕ}

/-- What is not written any more is not written later either. -/
theorem Turn.dead (turn : Turn act s s' notes) (fresh : s.Fresh act) (dead : s.Dead generation cut) :
    s'.Dead generation cut := by
  rcases dead with (earlier | ⟨off, last⟩) | ⟨taken, begun⟩
  · exact .inl (.inl (Nat.lt_of_lt_of_le earlier (turn.generation_le fresh)))
  · rcases turn.line fresh with ⟨same, finished⟩ | ⟨later, -⟩
    · rw [off, or_self] at finished
      exact .inl (.inr ⟨finished, same ▸ last⟩)
    · exact .inl (.inl (Nat.lt_of_le_of_lt last later))
  · refine .inr ⟨Nat.lt_of_lt_of_le taken turn.cut, fun since writing => ?_⟩
    rcases turn.since with finished | ⟨kept, -⟩ | ⟨-, now, -⟩
    · rw [finished] at writing
      contradiction
    · exact begun since (kept ▸ writing)
    · obtain rfl := Option.some.inj (now.symm.trans writing)
      exact taken

/-- What is written could be. -/
theorem Turn.alive (turn : Turn act s s' notes) (marked : s.Marked) {q : Queued}
    (written : q ∈ notes.filterMap Note.written) : ¬s.Dead q.generation q.cut := by
  obtain ⟨-, since, on, -⟩ := turn.written q written
  have current := marked.line _ on
  rintro ((earlier | ⟨off, -⟩) | ⟨-, begun⟩)
  · exact absurd current (Nat.ne_of_lt earlier)
  · rw [off] at on
    contradiction
  · exact Nat.lt_irrefl _ (begun _ since)

/-- Once a message is left out, what was made for the same connection after as many dumps is as well. -/
theorem Turn.missed (turn : Turn act s s' notes) (fresh : s.Fresh act) (marked : s.Marked) {q : Queued}
    (member : q ∈ s.batch)
    (missed : s.Missed s' q) : s'.Dead q.generation q.cut := by
  have queued : q ∈ s.held := List.mem_append_left _ (List.mem_append_left _ member)
  obtain ⟨generation, cut⟩ := marked.held q queued
  rcases missed with ⟨finished, same⟩ | ⟨line, on, other⟩ | ⟨begun, since, here, other, finished⟩
  · exact .inl (.inr ⟨finished, same ▸ generation⟩)
  · obtain rfl := marked.line line on
    exact .inl (.inl (Nat.lt_of_lt_of_le (Nat.lt_of_le_of_ne generation other) (turn.generation_le fresh)))
  · obtain ⟨earlier, within⟩ := marked.since begun since
    refine .inr ⟨?_, fun begun' since' => ?_⟩
    · exact Nat.lt_of_lt_of_le (Nat.lt_of_le_of_ne (within q here) other) (Nat.le_trans earlier turn.cut)
    · rw [finished] at since'
      contradiction

end State

end Egress

end StreamDelay
