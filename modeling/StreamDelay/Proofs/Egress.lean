import Mathlib.Tactic.Common
import StreamDelay.Relay.Egress
import StreamDelay.Foundations.Flow

/-! # What one step does to the queue

Every step accounts for the messages it counts, moves and subtracts, and the counter with them. The task is
over only once the core has gone, so nothing is counted that no one receives.
-/

namespace StreamDelay

open Foundations

namespace Egress

variable {Target : Type}

theorem bytes_append (first second : List Queued) : bytes (first ++ second) = bytes first + bytes second := by
  unfold bytes
  rw [List.map_append, List.sum_append]

/-- The message a note counts. -/
def Note.entered : Note → Option Queued
  | queued q => some q
  | settled .. => none

/-- The message a note subtracts. -/
def Note.left : Note → Option Queued
  | queued _ => none
  | settled q _ => some q

theorem entered_settled (queued : List Queued) (fate : Queued → Fate) :
    (queued.map fun q => Note.settled q (fate q)).filterMap Note.entered = [] := by
  induction queued with
  | nil => rfl
  | cons q rest ih => exact ih

theorem left_settled (queued : List Queued) (fate : Queued → Fate) :
    (queued.map fun q => Note.settled q (fate q)).filterMap Note.left = queued := by
  induction queued with
  | nil => rfl
  | cons q rest ih => exact congrArg (q :: ·) ih

namespace State

variable {s s' : State Target} {act : Act Target} {notes : List Note}

/-- The task is over only once the core has gone. -/
def Valid (s : State Target) : Prop := s.phase.gone = true → s.core = false

/-- A step accounts for what it counts and subtracts. -/
structure Accounts (act : Act Target) (s s' : State Target) (notes : List Note) : Prop where
  valid : s'.Valid
  source : ∀ q ∈ notes.filterMap Note.entered, act = .queue q.msg
  balance : s.held ++ notes.filterMap Note.entered = notes.filterMap Note.left ++ s'.held
  counter : s'.backlog = s.backlog + bytes (notes.filterMap Note.entered) - bytes (notes.filterMap Note.left)

/-- A step that only moves messages. -/
theorem Accounts.moved (valid : s'.Valid) (held : s'.held = s.held) (backlog : s'.backlog = s.backlog) :
    Accounts act s s' [] where
  valid := valid
  source := fun _ counted => nomatch counted
  balance := (List.append_nil _).trans held.symm
  counter := by
    rw [backlog]
    exact ((Int.sub_zero _).trans (Int.add_zero _)).symm

theorem Accounts.same (valid : s.Valid) : Accounts act s s [] := .moved valid rfl rfl

/-- A step that only moves the task, and not to its end. -/
theorem Accounts.turned {phase : Phase Target} (on : phase.gone = false) (ctl : List (Ctl Target)) :
    Accounts act s { s with ctl := ctl, phase := phase } [] :=
  .moved (fun ended => absurd (on.symm.trans ended) Bool.false_ne_true) rfl rfl

/-- The batch is subtracted. -/
theorem Accounts.settled {phase : Phase Target} (valid : phase.gone = true → s.core = false)
    (fate : Queued → Fate) :
    Accounts act s { s with backlog := s.backlog - bytes s.batch, batch := [], phase := phase }
      (s.batch.map fun q => .settled q (fate q)) where
  valid := valid
  source := by
    rw [entered_settled]
    exact fun _ counted => nomatch counted
  balance := by
    rw [entered_settled, left_settled]
    show s.batch ++ s.media ++ s.adding.toList ++ [] = s.batch ++ ([] ++ s.media ++ s.adding.toList)
    rw [List.append_nil, List.nil_append, List.append_assoc]
  counter := by
    rw [entered_settled, left_settled]
    exact congrArg (· - _) (Int.add_zero _).symm

/-- The core counts a message. -/
theorem Accounts.queued (valid : s.Valid) (free : s.adding = none) (q : Queued) :
    Accounts (.queue q.msg) s { s with adding := some q, backlog := s.backlog + q.bytes } [.queued q] where
  valid := valid
  source := fun q' counted => by rw [List.mem_singleton.mp counted]
  balance := by
    show s.batch ++ s.media ++ s.adding.toList ++ [q] = s.batch ++ s.media ++ [q]
    rw [free, Option.toList_none, List.append_nil]
  counter := by
    show s.backlog + (q.bytes : ℤ) = s.backlog + ((q.bytes + 0 : ℕ) : ℤ) - ((0 : ℕ) : ℤ)
    omega

private theorem coreStep_accounts (valid : s.Valid) (on : s.core = true) (act : Act Target) :
    Accounts act s (s.coreStep act).1 (s.coreStep act).2 := by
  have going : s.phase.gone = false := by
    by_contra ended
    rw [valid (Bool.not_eq_false _ ▸ ended)] at on
    contradiction
  unfold coreStep
  cases act with
  | queue msg =>
    dsimp only
    split
    · next free => exact .queued valid free ⟨s.generation, s.cut, msg⟩
    · exact .same valid
  | send =>
    dsimp only
    split
    · exact .same valid
    · next q adding =>
      refine .moved valid ?_ rfl
      rw [going]
      show s.batch ++ (s.media ++ [q]) ++ [] = s.batch ++ s.media ++ s.adding.toList
      rw [adding, List.append_nil, ← List.append_assoc]
      rfl
  | answer generation =>
    dsimp only
    split
    · exact .moved (fun ended => Bool.noConfusion ended) rfl rfl
    · exact .same valid
  | leave =>
    dsimp only
    split
    · exact .moved (fun _ => rfl) rfl rfl
    · exact .same valid
  | control | takeBack => exact .moved valid rfl rfl
  | receive | take | drop | attempt | quiet | resume | lost | takeMany | write | interrupt | settle | slept =>
    exact .same valid

theorem endedBy_gone (t : Target) (c : Option (Ctl Target)) : (endedBy t c).gone = false := by
  unfold endedBy
  split <;> rfl

private theorem afterWrite_gone (t : Target) (generation : ℕ) (result : Written Target) :
    (afterWrite t generation result).gone = false := by
  unfold afterWrite
  split
  · rfl
  · rfl
  · exact endedBy_gone t _

/-- Control messages end the task only by there being none to come. -/
theorem control_gone {c : Option (Ctl Target)} {waiting : Bool} {phase next : Phase Target}
    (received : control c waiting phase = some next) (ended : next.gone = true) : c = none := by
  cases c with
  | none => rfl
  | some c =>
    exfalso
    unfold control at received
    split at received <;> try split at received
    all_goals first
      | contradiction
      | obtain rfl := Option.some.inj received
        first
          | contradiction
          | rw [endedBy_gone] at ended
            contradiction
          | split at ended <;> contradiction

private theorem nextCtl_gone {rest : List (Ctl Target)} (ended : s.nextCtl = some (none, rest)) : s.core = false := by
  unfold nextCtl at ended
  split at ended
  · injections
  · split at ended
    · injections
    · next gone => exact Bool.not_eq_true _ ▸ gone

/-- One message is received, with no batch. -/
theorem takeOne_accounts {closed : Phase Target} (valid : s.Valid) (free : s.batch = []) :
    Accounts act s (s.takeOne closed) [] := by
  unfold takeOne
  split
  · next q rest media =>
    refine .moved valid ?_ rfl
    show [q] ++ rest ++ s.adding.toList = s.batch ++ s.media ++ s.adding.toList
    rw [free, media]
    rfl
  · split
    · exact .same valid
    · next gone => exact .moved (fun _ => Bool.not_eq_true _ ▸ gone) rfl rfl

private theorem taskStep_accounts (valid : s.Valid) (free : s.batch = []) (act : Act Target) :
    Accounts act s (s.taskStep act).1 (s.taskStep act).2 := by
  unfold taskStep
  cases act with
  | receive waiting =>
    dsimp only
    split
    · exact .same valid
    · next c rest next =>
      split
      · exact .same valid
      · next phase received =>
        refine .moved (fun ended => ?_) rfl rfl
        obtain rfl := control_gone received ended
        show s.core = false
        exact nextCtl_gone next
  | take =>
    dsimp only
    split
    · exact takeOne_accounts valid free
    · exact takeOne_accounts valid free
    · split
      · next q rest media =>
        refine .moved valid ?_ rfl
        show [q] ++ rest ++ s.adding.toList = s.batch ++ s.media ++ s.adding.toList
        rw [free, media]
        rfl
      · exact .turned rfl s.ctl
    · exact .same valid
  | attempt connected =>
    dsimp only
    split
    · exact .turned (by cases connected <;> rfl) s.ctl
    · exact .same valid
  | quiet =>
    dsimp only
    split
    · split
      · exact .turned rfl s.ctl
      · exact .same valid
    · exact .same valid
  | resume =>
    dsimp only
    split
    · exact .turned rfl s.ctl
    · split
      · exact .same valid
      · next gone => exact .moved (fun _ => Bool.not_eq_true _ ▸ gone) rfl rfl
    · exact .same valid
  | lost | slept =>
    dsimp only
    split
    · exact .turned rfl s.ctl
    · exact .same valid
  | takeMany n =>
    dsimp only
    split
    · split
      · split
        · exact .same valid
        · exact .turned rfl s.ctl
      · refine .moved (fun ended => Bool.noConfusion ended) ?_ rfl
        show s.media.take _ ++ s.media.drop _ ++ s.adding.toList = s.batch ++ s.media ++ s.adding.toList
        rw [List.take_append_drop, free, List.nil_append]
    · exact .same valid
  | queue | send | control | takeBack | answer | leave | drop | write | interrupt | settle => exact .same valid

private theorem batchStep_accounts (valid : s.Valid) (act : Act Target) :
    Accounts act s (s.batchStep act).1 (s.batchStep act).2 := by
  unfold batchStep
  split
  · split
    · exact .turned rfl s.ctl
    · split
      · exact .same valid
      · exact .turned rfl _
    · exact .same valid
  · next t generation cut result _ =>
    split
    · exact .settled (fun ended => absurd ((afterWrite_gone t generation result).symm.trans ended) Bool.false_ne_true) _
    · exact .same valid
  · split
    · exact .settled valid fun _ => .dropped
    · exact .same valid

/-- Every step accounts for what it counts and subtracts. -/
theorem step_accounts (valid : s.Valid) (act : Act Target) : Accounts act s (s.step act).1 (s.step act).2 := by
  have task : Accounts act s (if s.batch = [] then s.taskStep act else s.batchStep act).1
      (if s.batch = [] then s.taskStep act else s.batchStep act).2 := by
    split
    · next free => exact taskStep_accounts valid free act
    · exact batchStep_accounts valid act
  have core : Accounts act s (if s.core then s.coreStep act else (s, [])).1
      (if s.core then s.coreStep act else (s, [])).2 := by
    split
    · next on => exact coreStep_accounts valid on act
    · exact .same valid
  unfold step
  cases act with
  | queue | send | control | takeBack | answer | leave => exact core
  | receive | take | drop | attempt | quiet | resume | lost | takeMany | write | interrupt | settle | slept =>
    exact task

/-- Messages flow through the queue, in order. -/
def flow : Flow (α := Queued) (step : State Target → Act Target → State Target × List Note) where
  valid := Valid
  held := held
  enters := Note.entered
  leaves := Note.left
  keeps := fun _ act valid => (step_accounts valid act).valid
  balance := fun _ act valid => (step_accounts valid act).balance

/-- The counter follows what is held. -/
theorem step_counter (valid : s.Valid) (act : Act Target) (exact : s.backlog = bytes s.held) :
    (s.step act).1.backlog = bytes (s.step act).1.held := by
  have accounts := step_accounts valid act
  have both := congrArg bytes accounts.balance
  rw [bytes_append, bytes_append] at both
  rw [accounts.counter, exact]
  omega

end State

end Egress

end StreamDelay
