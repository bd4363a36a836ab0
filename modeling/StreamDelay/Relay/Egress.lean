import Mathlib.Tactic.Common
import StreamDelay.Engine.Data
import StreamDelay.Foundations.Machine

/-! # The queue to the destination

The core queues media for the task that publishes it, and a counter both share says how much of it is not
written yet. The two run side by side: every access to what they share is a step of its own, and so is all
that the task waits for. What it waits for comes in any order; the counter is an integer, so that one
subtraction too many would show.
-/

namespace StreamDelay

open Foundations

namespace Egress

/-- A control message of the core's (`EgressCtl`). -/
inductive Ctl (Target : Type) where
  | start (t : Target)
  | stop
  | abort
  | cut (n : ℕ)
deriving DecidableEq, Repr

/-- Media for the destination, as the core queues it. -/
structure Queued where
  /-- The connection it was made for. -/
  generation : ℕ
  /-- The dumps before it. -/
  cut : ℕ
  msg : OutMsg
deriving DecidableEq, Repr

def Queued.bytes (q : Queued) : ℕ := q.msg.payload.length

/-- The payload bytes of messages. -/
def bytes (queued : List Queued) : ℕ := (queued.map Queued.bytes).sum

/-- Outcome of `write_or_ctl`. -/
inductive Written (Target : Type) where
  | done
  | failed
  /-- A control message arrived first, or the core has gone. -/
  | interrupted (c : Option (Ctl Target))
deriving DecidableEq, Repr

/-- Where the task is. -/
inductive Phase (Target : Type) where
  /-- Waiting for a start request. -/
  | idle
  | connecting (t : Target)
  /-- The destination has accepted the stream, and nothing has been sent. -/
  | accepted (t : Target)
  /-- The core has been told, and answers which connection this is. -/
  | announced (t : Target) (reply : Option ℕ)
  | publishing (t : Target) (generation : ℕ)
  /-- A batch is being written; `cut` dumps had been made when it was taken. -/
  | writing (t : Target) (generation cut : ℕ)
  /-- The write is over, and what it was of still counted. -/
  | wrote (t : Target) (generation cut : ℕ) (result : Written Target)
  | backoff (t : Target)
  /-- Dropping what is queued for the connection that ended (`stopped`). -/
  | stopping
  | returned
deriving DecidableEq, Repr

structure State (Target : Type) where
  /-- The core has not ended. -/
  core : Bool
  generation : ℕ
  /-- Dumps so far (`Counters::cut`). -/
  cut : ℕ
  /-- A message counted by the core and not yet in the channel. -/
  adding : Option Queued
  ctl : List (Ctl Target)
  /-- The media channel. -/
  media : List Queued
  /-- `Counters::backlog` -/
  backlog : ℤ
  phase : Phase Target
  /-- What the task has received, and not yet subtracted. -/
  batch : List Queued
deriving DecidableEq, Repr

/-- What becomes of a message. -/
inductive Fate where
  | written
  /-- Made for an earlier connection, or taken back by a dump. -/
  | stale
  /-- Its write failed or was interrupted. -/
  | cutShort
  /-- Discarded with no connection to send it on. -/
  | dropped
deriving DecidableEq, Repr

/-- The counter is raised for a message, or lowered. -/
inductive Note where
  | queued (q : Queued)
  | settled (q : Queued) (fate : Fate)
deriving DecidableEq, Repr

/-- A step of the core or of the task, with what decides it. -/
inductive Act (Target : Type) where
  /-- The core counts a message. -/
  | queue (msg : OutMsg)
  /-- The core sends the message it counted. -/
  | send
  | control (c : Ctl Target)
  /-- The core takes back what is queued, for a dump. -/
  | takeBack
  /-- The core says which connection this is. -/
  | answer (generation : ℕ)
  | leave
  /-- The task receives a control message, or sees that the core has gone. For a dump while publishing:
  `waiting` if something from before it may be waiting in this computer. -/
  | receive (waiting : Bool)
  /-- The task receives a message, or finds none, with no connection to send it on. -/
  | take
  /-- `drop_queued` -/
  | drop
  /-- The connection attempt is over. -/
  | attempt (connected : Bool)
  /-- No control message is pending. -/
  | quiet
  /-- The core's answer arrives, or will not come. -/
  | resume
  /-- The connection failed, or ended. -/
  | lost
  /-- `recv_many` -/
  | takeMany (n : ℕ)
  | write (failed : Bool)
  /-- A control message, or the core's end, interrupts the write. -/
  | interrupt
  /-- What the batch had is subtracted. -/
  | settle
  | slept
deriving DecidableEq, Repr

variable {Target : Type}

def Phase.gone : Phase Target → Bool
  | returned => true
  | _ => false

/-- What a control message means for a running connection (`ended_by`, and what `run` does then). -/
def endedBy (t : Target) : Option (Ctl Target) → Phase Target
  | some (.start t) => .connecting t
  | some (.cut _) => .connecting t
  | some .stop | some .abort | none => .stopping

/-- What follows a write. -/
def afterWrite (t : Target) (generation : ℕ) : Written Target → Phase Target
  | .done => .publishing t generation
  | .failed => .backoff t
  | .interrupted c => endedBy t c

/-- A control message, or `none` if the core has gone, where the task waits for one. -/
def control (c : Option (Ctl Target)) (waiting : Bool) : Phase Target → Option (Phase Target)
  | .idle =>
    match c with
    | some (.start t) => some (.connecting t)
    | some _ => some .idle
    | none => some .returned
  | .connecting t =>
    match c with
    | some (.cut _) => some (.connecting t)
    | c => some (endedBy t c)
  | .accepted t =>
    match c with
    | some (.cut _) => some (.accepted t)
    | some c => some (endedBy t (some c))
    -- `try_recv` does not tell a channel that is closed from an empty one.
    | none => some (.announced t none)
  | .publishing t generation =>
    match c with
    | some (.cut _) => some (if waiting then .connecting t else .publishing t generation)
    | c => some (endedBy t c)
  | .backoff t =>
    match c with
    | some (.cut _) => some (.backoff t)
    | c => some (endedBy t c)
  | _ => none

/-- The next control message: `none` if there is none to come, and nothing if one may still. -/
def State.nextCtl (s : State Target) : Option (Option (Ctl Target) × List (Ctl Target)) :=
  match s.ctl with
  | c :: rest => some (some c, rest)
  | [] => if s.core then none else some (none, [])

/-- A message is received where no connection takes it; `closed` is where the task goes if none can come. -/
def State.takeOne (closed : Phase Target) (s : State Target) : State Target :=
  match s.media with
  | q :: rest => { s with media := rest, batch := [q] }
  | [] => if s.core then s else { s with phase := closed }

/-- What becomes of a message of a batch. -/
def Queued.fate (q : Queued) (generation cut : ℕ) (result : Written Target) : Fate :=
  if q.generation ≠ generation ∨ q.cut ≠ cut then .stale
  else match result with
    | .done => .written
    | _ => .cutShort

namespace State

/-- `Counters::drop_queued`, for what was received. -/
def dropQueued (s : State Target) : State Target × List Note :=
  ({ s with backlog := s.backlog - bytes s.batch, batch := [] }, s.batch.map fun q => .settled q .dropped)

/-- A step of the core. -/
def coreStep (s : State Target) : Act Target → State Target × List Note
  | .queue msg =>
    if s.adding = none then
      let q : Queued := ⟨s.generation, s.cut, msg⟩
      ({ s with adding := some q, backlog := s.backlog + q.bytes }, [.queued q])
    else (s, [])
  | .send =>
    match s.adding with
    | none => (s, [])
    | some q =>
      -- With the task gone nothing receives it.
      ({ s with adding := none, media := if s.phase.gone then s.media else s.media ++ [q] }, [])
  | .control c => ({ s with ctl := s.ctl ++ [c] }, [])
  | .takeBack => ({ s with cut := s.cut + 1 }, [])
  | .answer generation =>
    match s.phase with
    | .announced t none =>
      ({ s with generation := generation, phase := .announced t (some generation) }, [])
    | _ => (s, [])
  | .leave => if s.adding = none then ({ s with core := false }, []) else (s, [])
  | _ => (s, [])

/-- A step of the task, with nothing received that it has not subtracted. -/
def taskStep (s : State Target) : Act Target → State Target × List Note
  | .receive waiting =>
    match s.nextCtl with
    | none => (s, [])
    | some (c, rest) =>
      match Egress.control c waiting s.phase with
      | none => (s, [])
      | some phase => ({ s with ctl := rest, phase := phase }, [])
  | .take =>
    match s.phase with
    | .idle => (s.takeOne .returned, [])
    | .backoff _ => (s.takeOne .idle, [])
    | .stopping =>
      match s.media with
      | q :: rest => ({ s with media := rest, batch := [q] }, [])
      | [] => ({ s with phase := .idle }, [])
    | _ => (s, [])
  | .attempt connected =>
    match s.phase with
    | .connecting t => ({ s with phase := if connected then .accepted t else .backoff t }, [])
    | _ => (s, [])
  | .quiet =>
    match s.phase with
    | .accepted t => if s.ctl = [] then ({ s with phase := .announced t none }, []) else (s, [])
    | _ => (s, [])
  | .resume =>
    match s.phase with
    | .announced t (some generation) => ({ s with phase := .publishing t generation }, [])
    | .announced _ none => if s.core then (s, []) else ({ s with phase := .returned }, [])
    | _ => (s, [])
  | .lost =>
    match s.phase with
    | .publishing t _ => ({ s with phase := .backoff t }, [])
    | _ => (s, [])
  | .takeMany n =>
    match s.phase with
    | .publishing t generation =>
      if s.media = [] then (if s.core then s else { s with phase := .stopping }, [])
      else
        let n := max 1 (min n 64)
        ({ s with
            media := s.media.drop n
            batch := s.media.take n
            phase := .writing t generation s.cut }, [])
    | _ => (s, [])
  | .slept =>
    match s.phase with
    | .backoff t => ({ s with phase := .connecting t }, [])
    | _ => (s, [])
  | _ => (s, [])

/-- A step of the task with a batch: it is written, or dropped, and then subtracted. -/
def batchStep (s : State Target) (act : Act Target) : State Target × List Note :=
  match s.phase with
  | .writing t generation cut =>
    match act with
    | .write failed => ({ s with phase := .wrote t generation cut (if failed then .failed else .done) }, [])
    | .interrupt =>
      match s.nextCtl with
      | none => (s, [])
      | some (c, rest) => ({ s with ctl := rest, phase := .wrote t generation cut (.interrupted c) }, [])
    | _ => (s, [])
  | .wrote t generation cut result =>
    match act with
    | .settle =>
      ({ s with
          backlog := s.backlog - bytes s.batch
          batch := []
          phase := afterWrite t generation result },
        s.batch.map fun q => .settled q (q.fate generation cut result))
    | _ => (s, [])
  | _ =>
    match act with
    | .drop => s.dropQueued
    | _ => (s, [])

/-- One step: a step that is not to be taken where things are changes nothing. -/
def step (s : State Target) (act : Act Target) : State Target × List Note :=
  match act with
  | .queue _ | .send | .control _ | .takeBack | .answer _ | .leave =>
    if s.core then s.coreStep act else (s, [])
  | act => if s.batch = [] then s.taskStep act else s.batchStep act

def new : State Target := ⟨true, 0, 0, none, [], [], 0, .idle, []⟩

/-- The state after a sequence of steps. -/
abbrev after (s : State Target) (acts : List (Act Target)) : State Target := Machine.after step s acts

/-- What a sequence of steps notes. -/
abbrev notes (s : State Target) (acts : List (Act Target)) : List Note := Machine.outputs step s acts

/-- What is counted and not subtracted: received by the task, in the channel, or on its way there. -/
def held (s : State Target) : List Queued := s.batch ++ s.media ++ s.adding.toList

end State

end Egress

end StreamDelay
