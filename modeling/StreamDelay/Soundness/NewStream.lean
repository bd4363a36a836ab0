import Mathlib.Tactic.Common
import StreamDelay.Proofs.Lifecycle
import StreamDelay.Relay.Core

/-! # A new stream after an End stream

An encoder that stopped its stream on purpose and starts another means to go on: no End stream given
before ends the new stream, provided that its publish found the pending end, if there was one, with the
previous stream still on the connection.
-/

namespace StreamDelay

open Foundations

namespace Lifecycle

/-- An encoder streams, and nothing the streamer asked for is to end its stream. -/
def GoesOn (l : Lifecycle) : Prop :=
  l.encoder = .publishing ∧ (l.plan = .live ∨ ∃ deadline, l.plan = .restartAtMark deadline)

/-- The event ends no stream by itself: it is no End stream, and the encoder does not leave. -/
def lasting : LifeEvent → Bool
  | .endNow | .endAfterAir .. | .encoderLeft .. => false
  | _ => true

variable {l : Lifecycle}

theorem GoesOn.encoderGone (on : l.GoesOn) (now : ℕ) : l.encoderGone now = false := by
  simp only [Lifecycle.encoderGone, on.1]

private theorem GoesOn.of_fields {l' : Lifecycle} (on : l.GoesOn) (encoder : l'.encoder = l.encoder)
    (plan : l'.plan = l.plan) : l'.GoesOn := by
  rw [GoesOn, encoder, plan]
  exact on

theorem GoesOn.stop (on : l.GoesOn) :
    (l.stop .stopEgress).1.GoesOn ∧ .discard ∉ (l.stop .stopEgress).2 := by
  have fields := l.stop_fields .stopEgress
  refine ⟨on.of_fields fields.2.1 fields.1, ?_⟩
  rw [stop_effects]
  split <;> simp

/-- A stream that goes on is only moved to a new broadcast at the end mark. -/
theorem GoesOn.endAtMark {l' : Lifecycle} {now : ℕ} {f : Facts} {fx : List Effect} (on : l.GoesOn)
    (reached : l.endAtMark now f = some (l', fx)) : l'.GoesOn ∧ .discard ∉ fx := by
  rcases on.2 with live | ⟨deadline, restart⟩
  · simp only [Lifecycle.endAtMark, live, Plan.deadline?, Option.bind_none, reduceCtorEq] at reached
  · simp only [Lifecycle.endAtMark, restart, Plan.deadline?, Option.bind_some] at reached
    split at reached
    · contradiction
    · obtain ⟨rfl, rfl⟩ := Prod.mk.inj (Option.some.inj reached)
      have stopped := on.stop
      refine ⟨⟨stopped.1.1, .inl rfl⟩, ?_⟩
      rw [List.mem_append, not_or]
      exact ⟨stopped.2, by simp⟩

theorem GoesOn.tick (on : l.GoesOn) (now : ℕ) (f : Facts) :
    (l.tick now f).1.GoesOn ∧ .discard ∉ (l.tick now f).2.1 := by
  have same : l.GoesOn ∧ Effect.discard ∉ ([] : List Effect) := ⟨on, List.not_mem_nil⟩
  cases destination : f.destination with
  | false =>
    simp only [Lifecycle.tick, destination, Bool.not_false, if_true]
    exact on.stop
  | true =>
    cases reached : l.endAtMark now f with
    | some next =>
      simp only [Lifecycle.tick, destination, reached, Bool.not_true, Bool.false_eq_true, if_false]
      exact on.endAtMark reached
    | none =>
      simp only [Lifecycle.tick, destination, reached, on.encoderGone, on.1, Bool.not_true,
        Bool.false_eq_true, Bool.false_and, if_false]
      split
      · split <;> exact same
      · exact same

theorem GoesOn.manageEgress (on : l.GoesOn) (now : ℕ) (f : Facts) (settings : Bool) :
    (l.manageEgress now f settings).1.GoesOn ∧ .discard ∉ (l.manageEgress now f settings).2 := by
  have ticked := on.tick now f
  unfold Lifecycle.manageEgress
  split
  · next nothing =>
    rw [nothing] at ticked
    exact ticked
  · next start =>
    rw [start] at ticked
    split
    · exact ticked
    · simp only [startFailed, ticked.1.encoderGone, Bool.false_eq_true, if_false, List.append_nil]
      exact ticked

/-- While no End stream is given and the encoder stays, a stream goes on and nothing of it is
discarded. -/
theorem GoesOn.step (on : l.GoesOn) {event : LifeEvent} (lasts : lasting event = true) :
    (l.step event).1.GoesOn ∧ .discard ∉ (l.step event).2 := by
  cases event with
  | publishing now takeover f =>
    have same : l.restartPlan now f = (l, []) := by
      simp only [restartPlan, newStream, on.1, Bool.false_and, Bool.false_eq_true, if_false]
    have goes : ¬(l.plan = .ended ∧ l.stoppedBefore takeover = true) := by
      rintro ⟨ended, -⟩
      rcases on.2 with live | ⟨deadline, restart⟩
      · rw [live] at ended
        contradiction
      · rw [restart] at ended
        contradiction
    simp only [Lifecycle.step, publishing, same, if_neg goes]
    exact ⟨⟨rfl, on.2⟩, List.not_mem_nil⟩
  | destinationChanged => exact on.stop
  | resume =>
    rcases on.2 with live | ⟨deadline, restart⟩
    · simp only [Lifecycle.step, resume, live]
      exact ⟨⟨on.1, .inl live⟩, List.not_mem_nil⟩
    · simp only [Lifecycle.step, resume, restart]
      exact ⟨⟨on.1, .inr ⟨deadline, restart⟩⟩, List.not_mem_nil⟩
  | tick now f settings => exact on.manageEgress now f settings
  | encoderLeft => contradiction
  | endNow => contradiction
  | endAfterAir => contradiction

/-- A pending End stream is found with the previous stream, stopped on purpose, still on the
connection. -/
def Renewable (l : Lifecycle) : Prop :=
  ∀ deadline, l.plan = .endAtMark deadline → l.newStream = true ∧ l.egressOn = true

instance (l : Lifecycle) : Decidable l.Renewable :=
  match plan : l.plan with
  | .endAtMark deadline =>
    decidable_of_iff (l.newStream = true ∧ l.egressOn = true)
      ⟨fun renewed _ _ => renewed, fun renewable => renewable deadline plan⟩
  | .live | .restartAtMark _ | .ended => .isTrue fun deadline pending => by
    rw [plan] at pending
    contradiction

private theorem restartPlan_quiet (now : ℕ) (f : Facts) (l : Lifecycle) :
    .discard ∉ (l.restartPlan now f).2 := by
  unfold restartPlan
  split
  · split
    · split <;> simp
    · simp
    · simp
  · simp

/-- A new stream, after one stopped on purpose, goes on exactly where a pending End stream can be
renewed. -/
theorem publishing_goesOn (now : ℕ) {takeover : Bool} (f : Facts)
    (stopped : l.stoppedBefore takeover = true) :
    ((l.publishing now takeover f).1.GoesOn ↔ l.Renewable) ∧
      .discard ∉ (l.publishing now takeover f).2 := by
  refine ⟨?_, l.restartPlan_quiet now f⟩
  have plan : (l.publishing now takeover f).1.plan =
      if (l.restartPlan now f).1.plan = .ended then .live else (l.restartPlan now f).1.plan := by
    simp only [publishing, stopped, and_true]
  have goes : (l.publishing now takeover f).1.GoesOn ↔
      ((l.publishing now takeover f).1.plan = .live ∨
        ∃ deadline, (l.publishing now takeover f).1.plan = .restartAtMark deadline) :=
    and_iff_right rfl
  rw [goes, plan]
  cases known : l.plan with
  | live =>
    have renewable : l.Renewable := fun deadline pending => by
      rw [known] at pending
      contradiction
    refine iff_of_true ?_ renewable
    unfold restartPlan
    split
    · simp only [known]
      split
      · exact .inr ⟨_, rfl⟩
      · simp [known]
    · simp [known]
  | restartAtMark deadline =>
    have renewable : l.Renewable := fun deadline pending => by
      rw [known] at pending
      contradiction
    refine iff_of_true (.inr ⟨deadline, ?_⟩) renewable
    simp only [restartPlan, known]
    split <;> simp [known]
  | ended =>
    have renewable : l.Renewable := fun deadline pending => by
      rw [known] at pending
      contradiction
    refine iff_of_true (.inl ?_) renewable
    simp only [restartPlan, known]
    split <;> simp
  | endAtMark deadline =>
    by_cases renewed : l.newStream = true ∧ l.egressOn = true
    · refine iff_of_true (.inr ⟨deadline, ?_⟩) fun _ _ => renewed
      simp only [restartPlan, known, renewed.1, renewed.2, Bool.and_true, if_true, reduceCtorEq,
        if_false]
    · have stays : (l.newStream && l.egressOn) = false := by
        rw [Bool.eq_false_iff, ne_eq, Bool.and_eq_true]
        exact renewed
      refine iff_of_false ?_ fun renewable => renewed (renewable deadline known)
      simp [restartPlan, stays, known]

end Lifecycle

namespace Core

/-- What an event of the core is to the lifecycle. -/
def lifeEvent? (c : Core) : CoreEvent → Option LifeEvent
  | .ingestPublish now backlogEmpty =>
    some (.publishing now c.publisher (c.facts now backlogEmpty))
  | .ingestClosed now unpublished =>
    if c.publisher then some (.encoderLeft now unpublished) else none
  | .setDestination _ => some .destinationChanged
  | .endStream => some .endNow
  | .endAfterAir now backlogEmpty => some (.endAfterAir now (c.facts now backlogEmpty))
  | .resume => some .resume
  | .pump now room backlogEmpty settings =>
    let polled := (c.onEngine (.pollBudget now (if c.dump.isSome then 0 else room))).1
    some (.tick now (polled.facts now backlogEmpty) settings)
  | _ => none

private theorem onEngine_outputs (op : Op) (c : Core) (e : Effect) : .effect e ∉ (c.onEngine op).2 := by
  simp [onEngine]

private theorem apply_outputs (decided : Lifecycle × List Effect) (c : Core) (e : Effect) :
    .effect e ∈ (c.apply decided).2 ↔ e ∈ decided.2 := by
  simp [apply]

private theorem finishDump_life (now : ℕ) (delivered : Option ℕ) (overdue : Bool) (c : Core) :
    (c.finishDump now delivered overdue).1.life = c.life ∧
      ∀ e, .effect e ∉ (c.finishDump now delivered overdue).2 := by
  unfold finishDump
  split
  · exact ⟨rfl, fun _ => List.not_mem_nil⟩
  · exact ⟨rfl, onEngine_outputs _ _⟩

private theorem control_life (now : ℕ) (cmd : Command) (c : Core) :
    (c.control now cmd).1.life = c.life ∧ ∀ e, .effect e ∉ (c.control now cmd).2 := by
  unfold control
  split
  · split
    · exact ⟨rfl, fun _ => List.not_mem_nil⟩
    · exact ⟨rfl, onEngine_outputs _ _⟩
  · exact ⟨rfl, onEngine_outputs _ _⟩

/-- The lifecycle sees an event of the core as one of its own, or not at all. -/
theorem step_life (c : Core) (event : CoreEvent) :
    match c.lifeEvent? event with
    | some seen => (c.step event).1.life = (c.life.step seen).1 ∧
        ∀ e, .effect e ∈ (c.step event).2 ↔ e ∈ (c.life.step seen).2
    | none => (c.step event).1.life = c.life ∧ ∀ e, .effect e ∉ (c.step event).2 := by
  cases event with
  | ingestPublish now backlogEmpty => exact ⟨rfl, apply_outputs _ c⟩
  | ingestMedia | ingestMetadata =>
    simp only [lifeEvent?, step]
    split
    · exact ⟨rfl, onEngine_outputs _ _⟩
    · exact ⟨rfl, fun _ => List.not_mem_nil⟩
  | ingestClosed now unpublished =>
    simp only [lifeEvent?, step]
    cases c.publisher with
    | true => exact ⟨rfl, fun e => iff_of_false (onEngine_outputs _ _ e) List.not_mem_nil⟩
    | false => exact ⟨rfl, fun _ => List.not_mem_nil⟩
  | egressConnected | egressDisconnected | setKeepHistory | setRestoreAfterReconnect =>
    exact ⟨rfl, onEngine_outputs _ _⟩
  | cutDone now delivered => exact c.finishDump_life now delivered false
  | dumpOverdue now => exact c.finishDump_life now none true
  | command now cmd => exact c.control_life now cmd
  | setDestination | endStream | endAfterAir | resume => exact ⟨rfl, apply_outputs _ _⟩
  | pump now room backlogEmpty settings =>
    refine ⟨rfl, fun e => ?_⟩
    let poll : Op := .pollBudget now (if c.dump.isSome then 0 else room)
    have polled := onEngine_outputs poll c e
    have applied := apply_outputs ((c.onEngine poll).1.life.manageEgress now
      ((c.onEngine poll).1.facts now backlogEmpty) settings) (c.onEngine poll).1 e
    exact List.mem_append.trans ((or_iff_right polled).trans applied)

/-- Whether a new stream is on that the streamer has not ended since it was published: started after one
stopped on purpose, with its encoder still there. -/
def renews (fresh : Bool) (c : Core) : CoreEvent → Bool
  | .ingestPublish .. => c.life.stoppedBefore c.publisher || fresh
  | .ingestClosed .. => fresh && !c.publisher
  | .endStream | .endAfterAir .. => false
  | _ => fresh

/-- A new stream that finds an End stream pending finds the previous stream on the connection. -/
def Renewed (c : Core) : CoreEvent → Prop
  | .ingestPublish .. => c.life.stoppedBefore c.publisher = true → c.life.Renewable
  | _ => True

instance (c : Core) : ∀ event, Decidable (c.Renewed event)
  | .ingestPublish .. => inferInstanceAs (Decidable (_ → _))
  | .ingestMedia .. | .ingestMetadata .. | .ingestClosed .. | .egressConnected .. | .egressDisconnected ..
  | .cutDone .. | .dumpOverdue .. | .command .. | .setDestination .. | .endStream | .endAfterAir ..
  | .resume | .setKeepHistory .. | .setRestoreAfterReconnect .. | .pump .. => .isTrue trivial

/-- One event of the core leaves a new stream on, and nothing of it is discarded. -/
theorem renewed_step {s : Bool × Core} {event : CoreEvent} (renewed : s.2.Renewed event)
    (before : s.1 = true → s.2.life.GoesOn) (fresh : renews s.1 s.2 event = true) :
    (s.2.step event).1.life.GoesOn ∧ .effect .discard ∉ (s.2.step event).2 := by
  obtain ⟨was, c⟩ := s
  have seen := c.step_life event
  have on (going : was = true) {inside : LifeEvent} (lasts : Lifecycle.lasting inside = true)
      (seen : (c.step event).1.life = (c.life.step inside).1 ∧
        ∀ e, .effect e ∈ (c.step event).2 ↔ e ∈ (c.life.step inside).2) :
      (c.step event).1.life.GoesOn ∧ .effect .discard ∉ (c.step event).2 := by
    have next := (before going).step lasts
    rw [seen.1, seen.2]
    exact next
  have quiet (going : was = true)
      (seen : (c.step event).1.life = c.life ∧ ∀ e, .effect e ∉ (c.step event).2) :
      (c.step event).1.life.GoesOn ∧ .effect .discard ∉ (c.step event).2 := by
    rw [seen.1]
    exact ⟨before going, seen.2 _⟩
  cases event with
  | ingestPublish now backlogEmpty =>
    by_cases stopped : c.life.stoppedBefore c.publisher = true
    · obtain ⟨goes, kept⟩ := Lifecycle.publishing_goesOn now (c.facts now backlogEmpty) stopped
      rw [seen.1, seen.2]
      exact ⟨goes.mpr (renewed stopped), kept⟩
    · have going : was = true := by simpa [renews, stopped] using fresh
      exact on going rfl seen
  | ingestClosed now unpublished =>
    simp only [renews, Bool.and_eq_true, Bool.not_eq_true'] at fresh
    simp only [lifeEvent?, fresh.2, Bool.false_eq_true, if_false] at seen
    exact quiet fresh.1 seen
  | setDestination => exact on fresh rfl seen
  | resume => exact on fresh rfl seen
  | pump => exact on fresh rfl seen
  | endStream | endAfterAir => contradiction
  | _ => exact quiet fresh seen

/-- Every new stream goes on, from its publish until the streamer ends it or its encoder leaves, and
nothing of it is discarded, as long as each one's publish finds an End stream that is still pending with
the previous stream on the connection. -/
theorem new_stream_goes_on (config : EngineConfig) (grace : ℕ) (destination : Bool)
    (events : List CoreEvent)
    (renewed : Machine.Along (Machine.noting step renews) (fun s event => s.2.Renewed event)
      (false, new config grace destination) events) :
    ∀ first event rest, events = first ++ event :: rest →
      (Machine.after (Machine.noting step renews) (false, new config grace destination)
        (first ++ [event])).1 = true →
      ((new config grace destination).after (first ++ [event])).life.plan ≠ .ended ∧
        .effect .discard ∉ (((new config grace destination).after first).step event).2 := by
  rintro first event rest rfl fresh
  obtain ⟨early, late⟩ := (Machine.along_append _).mp renewed
  have before := Machine.preserves_along (P := fun s : Bool × Core => s.1 = true → s.2.life.GoesOn) _
    (fun s event renewed before fresh => (renewed_step renewed before fresh).1) early
    (fun never => by contradiction)
  rw [Machine.after_append] at fresh
  have kept := renewed_step late.1 before fresh
  rw [Machine.after_noting] at kept
  refine ⟨fun ended => ?_, kept.2⟩
  rw [after, Machine.after_append] at ended
  rcases kept.1.2 with live | ⟨deadline, restart⟩
  · exact absurd (live.symm.trans ended) (by simp)
  · exact absurd (restart.symm.trans ended) (by simp)

/-- A stream airs, is to end after air, is stopped in the encoder, and followed by another. -/
def renewal : List CoreEvent :=
  [.ingestPublish 0 true, .ingestMedia 0 .video 0 Engine.keyframe, .pump 0 1000 true true,
    .egressConnected 0, .pump 0 1000 true true, .endAfterAir SEC false, .ingestClosed SEC true]

theorem new_stream_goes_on_renewal :
    ((new {} (30 * SEC) true).after (renewal ++ [.ingestPublish (2 * SEC) false])).life.plan ≠ .ended ∧
      .effect .discard ∉ (((new {} (30 * SEC) true).after renewal).step (.ingestPublish (2 * SEC) false)).2 :=
  new_stream_goes_on {} (30 * SEC) true (renewal ++ [.ingestPublish (2 * SEC) false]) (by decide +kernel)
    renewal (.ingestPublish (2 * SEC) false) [] rfl (by decide +kernel)

/-- A stream shorter than the delay of a minute is to end after air, before any of it is due and a
connection is up; it is stopped in the encoder, and followed by another. -/
def shortStream : List CoreEvent :=
  [.ingestPublish 0 true, .command 0 (.setDelay 60000 .rewind),
    .ingestMedia 0 .video 0 Engine.keyframe, .pump 0 1000 true true, .ingestClosed SEC true,
    .endAfterAir (2 * SEC) true, .ingestPublish (5 * SEC) true,
    .ingestMedia (5 * SEC) .video 0 Engine.keyframe]

/-- The End stream given before ends the new stream, and discards what it has sent. -/
theorem short_stream_ends_next :
    let s := Machine.after (Machine.noting step renews) (false, new {} (30 * SEC) true) shortStream
    renews s.1 s.2 (.pump (6 * SEC) 1000 true true) = true ∧ s.2.engine.hasBuffered = true ∧
      (s.2.step (.pump (6 * SEC) 1000 true true)).1.life.plan = .ended ∧
      ((s.2.step (.pump (6 * SEC) 1000 true true)).2.any fun o => match o with
        | .effect e => e = .discard
        | .media _ => false) = true := by
  decide +kernel

end Core

end StreamDelay
