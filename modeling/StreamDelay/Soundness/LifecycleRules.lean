import Mathlib.Tactic.Common
import StreamDelay.Proofs.Lifecycle

/-! # The rules of the lifecycle

Whatever happens, in whatever order and with whatever the buffer says: an ended broadcast has no
connection, a connection is stopped only when it is on and turned on only by a tick, and a plan that
waits for the end mark has one. An End stream stays in force until it is taken back, unless one of
the ways a broadcast comes to its end forgets it; these are named.
-/

namespace StreamDelay

open Foundations

namespace Lifecycle

/-! ## What an End stream comes to -/

/-- Whether an End stream of the streamer's is in force: given, and neither taken back nor followed
by a new stream, started in the encoder after the last one was stopped on purpose. -/
def asks (asked : Bool) (l : Lifecycle) : LifeEvent → Bool
  | .endNow | .endAfterAir .. => true
  | .resume => false
  | .publishing _ takeover _ => asked && !l.stoppedBefore takeover
  | _ => asked

/-- Everything up to the end mark has been written, or the destination has had long enough. -/
def markOver (now : ℕ) (f : Facts) (l : Lifecycle) : Bool :=
  match l.plan.deadline? with
  | some deadline => (f.endReached && f.backlogEmpty) || deadline ≤ now
  | none => false

/-- With the encoder gone: everything has been written, or cannot be any more. -/
def drains (now : ℕ) (f : Facts) (started leftAt : ℕ) (stopped : Bool) (l : Lifecycle) : Bool :=
  if f.connected then
    (f.drained && f.backlogEmpty) ||
      (if stopped then f.delay else max l.grace f.delay) + DRAIN_SLACK ≤ now - leftAt
  else l.encoderGone now && l.grace ≤ now - started

/-- The broadcast ends because the encoder is gone, not because its end mark came. -/
def runsOut (now : ℕ) (f : Facts) (settings : Bool) (l : Lifecycle) : Bool :=
  match l.egress with
  | .off => l.encoderGone now && (!f.hasBuffered || (f.outputWanted && !settings))
  | .on started =>
    match l.encoder with
    | .left leftAt stopped =>
      (l.encoderGone now || stopped) && l.drains now f started leftAt stopped
    | _ => false

/-- The event ends a broadcast that was to end at its mark, and leaves the lifecycle live: the end
the streamer asked for is forgotten. -/
def forgets (l : Lifecycle) : LifeEvent → Bool
  | .tick now f settings =>
    f.destination &&
      match l.plan with
      | .endAtMark _ => !l.markOver now f && l.runsOut now f settings
      | .restartAtMark _ => l.markOver now f || l.runsOut now f settings
      | _ => false
  | _ => false


/-- An End stream in force ends the broadcast, or is still to at the end mark. -/
def Asked (s : Bool × Lifecycle) : Prop :=
  s.1 = true → s.2.plan.atMark = false → s.2.plan = .ended

private theorem finish_plan_atMark {l : Lifecycle} (atMark : l.plan.atMark = true) :
    l.finish.1.plan = .live := by
  rw [l.finish_fields.2.1, if_pos atMark]

private theorem finish_plan_ended {l : Lifecycle} (ended : l.plan = .ended) : l.finish.1.plan = .ended := by
  rw [l.finish_fields.2.1, ended]
  rfl

private theorem drain_eq (now : ℕ) (f : Facts) (started leftAt : ℕ) (stopped : Bool) (l : Lifecycle) :
    (l.drain now f started leftAt stopped).1 =
      if l.drains now f started leftAt stopped then l.finish.1 else l := by
  unfold drain drains
  dsimp only
  generalize (if stopped then f.delay else max l.grace f.delay) + DRAIN_SLACK = allowed
  cases f.connected with
  | false =>
    simp only [Bool.false_and, Bool.false_eq_true, Bool.not_false, if_true, if_false]
    split <;> rfl
  | true =>
    simp only [Bool.true_and, Bool.not_true, Bool.false_eq_true, if_true, if_false, Bool.or_eq_true,
      decide_eq_true_eq]
    by_cases aired : (f.drained && f.backlogEmpty) = true
    · rw [if_pos aired, if_pos (.inl aired)]
    · rw [if_neg aired]
      by_cases late : allowed ≤ now - leftAt
      · rw [if_pos late, if_pos (.inr late)]
      · rw [if_neg late, if_neg (not_or.mpr ⟨aired, late⟩)]

/-- A tick with no connection, and no end mark reached. -/
theorem tick_off {now : ℕ} {f : Facts} {l : Lifecycle} (destination : f.destination = true)
    (before : l.endAtMark now f = none) (off : l.egress = .off) :
    l.tick now f =
      if l.encoderGone now && (l.ended || !f.hasBuffered) then (l.finish.1, l.finish.2, .nothing)
      else if !l.ended && f.outputWanted then (l, [], .start) else (l, [], .nothing) := by
  simp only [tick, destination, before, off, Bool.not_true, Bool.false_eq_true, if_false]

/-- A tick with the connection on and the encoder away, and no end mark reached. -/
theorem tick_left {now : ℕ} {f : Facts} {l : Lifecycle} {started leftAt : ℕ} {stopped : Bool}
    (destination : f.destination = true) (before : l.endAtMark now f = none)
    (on : l.egress = .on started) (left : l.encoder = .left leftAt stopped) :
    (l.tick now f).1 =
        (if (l.encoderGone now || stopped) && l.drains now f started leftAt stopped then l.finish.1
          else l) ∧
      (l.tick now f).2.2 = .nothing := by
  simp only [tick, destination, before, on, left, Bool.not_true, Bool.false_eq_true, if_false]
  by_cases away : (l.encoderGone now || stopped) = true
  · rw [if_pos away, away, Bool.true_and]
    exact ⟨l.drain_eq now f started leftAt stopped, rfl⟩
  · rw [if_neg away, Bool.eq_false_iff.mpr away, Bool.false_and]
    exact ⟨rfl, rfl⟩

/-- With no end mark reached, a tick ends a broadcast that is not ended only as it runs out. -/
theorem manageEgress_plan {now : ℕ} {f : Facts} {l : Lifecycle} (settings : Bool)
    (destination : f.destination = true) (before : l.endAtMark now f = none)
    (goes : l.ended = false) :
    (l.manageEgress now f settings).1.plan =
      if l.runsOut now f settings then l.finish.1.plan else l.plan := by
  cases egress : l.egress with
  | off =>
    simp only [manageEgress, tick_off destination before egress, goes, runsOut, egress,
      Bool.false_or, Bool.not_false, Bool.true_and]
    cases gone : l.encoderGone now <;> cases f.hasBuffered <;> cases f.outputWanted <;>
      cases settings <;> simp [startFailed, gone, started]
  | on started =>
    cases left : l.encoder with
    | left leftAt stopped =>
      obtain ⟨next, nothing⟩ := tick_left destination before egress left
      simp only [runsOut, egress, left]
      rcases ticked : l.tick now f with ⟨l', fx, outcome⟩
      rw [ticked] at next nothing
      obtain rfl : outcome = .nothing := nothing
      simp only [manageEgress, ticked]
      rw [show l' = _ from next]
      split <;> rfl
    | publishing | idle =>
      simp only [manageEgress, tick, destination, before, egress, left, runsOut, Bool.not_true,
        Bool.false_eq_true, if_false]

private theorem endAtMark_none {now : ℕ} {f : Facts} {l : Lifecycle} (early : l.markOver now f = false) :
    l.endAtMark now f = none := by
  unfold endAtMark
  unfold markOver at early
  cases due : l.plan.deadline? with
  | none => rfl
  | some deadline =>
    rw [due] at early
    simp only [Bool.or_eq_false_iff, decide_eq_false_iff_not, Nat.not_le] at early
    simp only [Option.bind_some, early.1, Bool.not_false, Bool.true_and, early.2, decide_true,
      if_true]

/-- At its end mark a broadcast ends, or makes way for the next one. -/
theorem endAtMark_some {now : ℕ} {f : Facts} {l : Lifecycle} (reached : l.markOver now f = true) :
    ∃ l' fx, l.endAtMark now f = some (l', fx) ∧
      l'.plan = match l.plan with
        | .restartAtMark _ => .live
        | _ => .ended := by
  have finished {deadline : ℕ} (due : l.plan.deadline? = some deadline) :
      ((!(f.endReached && f.backlogEmpty)) && decide (now < deadline)) = false := by
    simp only [markOver, due, Bool.or_eq_true] at reached
    rcases reached with aired | late
    · rw [aired]
      rfl
    · rw [decide_eq_false (Nat.not_lt.mpr (of_decide_eq_true late)), Bool.and_false]
  cases plan : l.plan with
  | live | ended => simp only [markOver, plan, Plan.deadline?, Bool.false_eq_true] at reached
  | endAtMark deadline =>
    refine ⟨{ l.finish.1 with plan := .ended }, l.finish.2, ?_, rfl⟩
    simp only [endAtMark, plan, Plan.deadline?, Option.bind_some,
      finished (by rw [plan]; rfl : l.plan.deadline? = some deadline), Bool.false_eq_true, if_false]
  | restartAtMark deadline =>
    refine ⟨{ (l.stop .stopEgress).1 with plan := .live },
      (l.stop .stopEgress).2 ++ [.restartAfterEnd], ?_, rfl⟩
    simp only [endAtMark, plan, Plan.deadline?, Option.bind_some,
      finished (by rw [plan]; rfl : l.plan.deadline? = some deadline), Bool.false_eq_true, if_false]

private theorem markOver_ended {now : ℕ} {f : Facts} {l : Lifecycle} (ended : l.plan = .ended) :
    l.markOver now f = false := by
  simp only [markOver, ended, Plan.deadline?]

/-- An ended broadcast stays so, tick after tick. -/
theorem manageEgress_ended {now : ℕ} {f : Facts} {l : Lifecycle} (ended : l.plan = .ended)
    (settings : Bool) : (l.manageEgress now f settings).1.plan = .ended := by
  have finished : l.ended = true := decide_eq_true ended
  have closed := finish_plan_ended ended
  have ticked : (l.tick now f).1.plan = .ended := by
    have before : l.endAtMark now f = none := endAtMark_none (markOver_ended ended)
    cases destination : f.destination with
    | false =>
      simp only [tick, destination, Bool.not_false, if_true]
      rw [(l.stop_fields .stopEgress).1, ended]
    | true =>
      match egress : l.egress with
      | .off =>
        simp only [tick_off destination before egress, finished, Bool.true_or, Bool.and_true,
          Bool.not_true, Bool.false_and, Bool.false_eq_true, if_false]
        split
        · exact closed
        · exact ended
      | .on started =>
        match left : l.encoder with
        | .left leftAt stopped =>
          rw [(tick_left destination before egress left).1]
          split
          · exact closed
          · exact ended
        | .publishing | .idle _ =>
          simp only [tick, destination, before, egress, left, Bool.not_true, Bool.false_eq_true,
            if_false, ended]
  unfold manageEgress
  split
  · next nothing =>
    rw [nothing] at ticked
    exact ticked
  · next start =>
    obtain ⟨-, -, -, goes⟩ := tick_start start
    rw [finished] at goes
    contradiction

private theorem manageEgress_none {now : ℕ} {f : Facts} {l : Lifecycle} (destination : f.destination = false)
    (settings : Bool) : (l.manageEgress now f settings).1.plan = l.plan := by
  simp only [manageEgress, tick, destination, Bool.not_false, if_true]
  exact (l.stop_fields .stopEgress).1

/-- What a tick makes of a plan that waits for the end mark. -/
theorem manageEgress_atMark (now : ℕ) (f : Facts) (settings : Bool) {l : Lifecycle}
    (atMark : l.plan.atMark = true) :
    (l.manageEgress now f settings).1.plan =
      if l.forgets (.tick now f settings) then .live
      else if f.destination && l.markOver now f then .ended else l.plan := by
  cases destination : f.destination with
  | false =>
    rw [manageEgress_none destination]
    simp only [forgets, destination, Bool.false_and, Bool.false_eq_true, if_false]
  | true =>
    have goes : l.ended = false := by
      cases plan : l.plan <;> simp_all [Plan.atMark, ended]
    cases reached : l.markOver now f with
    | false =>
      rw [manageEgress_plan settings destination (endAtMark_none reached) goes,
        finish_plan_atMark atMark]
      cases plan : l.plan <;>
        simp_all [forgets, Plan.atMark]
    | true =>
      obtain ⟨l', fx, finished, next⟩ := endAtMark_some reached
      have managed : (l.manageEgress now f settings).1 = l' := by
        simp only [manageEgress, tick, destination, finished, Bool.not_true, Bool.false_eq_true, if_false]
      rw [managed, next]
      cases plan : l.plan <;>
        simp_all [forgets, Plan.atMark]

/-- A new stream leaves a pending end pending. -/
theorem publishing_atMark (now : ℕ) (takeover : Bool) (f : Facts) {l : Lifecycle}
    (atMark : l.plan.atMark = true) : (l.publishing now takeover f).1.plan.atMark = true := by
  have kept : (l.restartPlan now f).1.plan.atMark = true := by
    unfold restartPlan
    split
    · split
      · next live =>
        rw [live] at atMark
        contradiction
      · rfl
      · exact atMark
    · exact atMark
  simp only [publishing]
  split
  · next finished =>
    rw [finished.1] at kept
    contradiction
  · exact kept

/-- What ended stays so, unless the last stream was stopped on purpose. -/
theorem publishing_ended (now : ℕ) {takeover : Bool} (f : Facts) {l : Lifecycle}
    (ended : l.plan = .ended) (stopped : l.stoppedBefore takeover = false) :
    (l.publishing now takeover f).1.plan = .ended := by
  have kept : (l.restartPlan now f).1.plan = .ended := by
    unfold restartPlan
    simp only [ended]
    split <;> exact ended
  simp only [publishing, kept, stopped, Bool.false_eq_true, and_false, if_false]

private theorem ended_or_atMark {s : Bool × Lifecycle} (before : Asked s) (still : s.1 = true) :
    s.2.plan = .ended ∨ s.2.plan.atMark = true := by
  cases atMark : s.2.plan.atMark with
  | true => exact .inr rfl
  | false => exact .inl (before still atMark)

/-- What leaves the plan alone leaves an End stream in force. -/
theorem Asked.of_plan {asked : Bool} {l l' : Lifecycle} (before : Asked (asked, l))
    (plan : l'.plan = l.plan) : Asked (asked, l') := by
  intro still finished
  rw [plan] at finished ⊢
  exact before still finished

private theorem encoderLeft_plan (now : ℕ) (stopped : Bool) (l : Lifecycle) :
    (l.encoderLeft now stopped).plan = l.plan := by
  unfold encoderLeft
  split <;> rfl

private theorem endAfterAir_plan (now : ℕ) (f : Facts) (l : Lifecycle) :
    (l.endAfterAir now f).1.plan = .ended ∨ (l.endAfterAir now f).1.plan.atMark = true := by
  unfold endAfterAir
  split
  · next plan => exact .inl plan
  · next plan =>
    rw [plan]
    exact .inr rfl
  · exact .inr rfl
  · dsimp only
    split
    · exact .inr rfl
    · exact .inl rfl

/-- An End stream in force stays so unless the event forgets it. -/
theorem step_asked {s : Bool × Lifecycle} (event : LifeEvent) (before : Asked s) :
    Asked (Machine.noting step asks s event).1 ↔ (s.1 = true → s.2.forgets event = false) := by
  obtain ⟨asked, l⟩ := s
  cases event with
  | tick now f settings =>
    change Asked (asked, (l.manageEgress now f settings).1) ↔ _
    constructor
    · intro after still
      rcases ended_or_atMark before still with ended | atMark
      · dsimp only at ended
        simp only [forgets, ended, Bool.and_false]
      · by_contra forgotten
        have live := manageEgress_atMark now f settings atMark
        rw [if_pos (Bool.not_eq_false _ ▸ forgotten)] at live
        have finished := after still (by rw [live]; rfl)
        rw [live] at finished
        contradiction
    · intro remembers still finished
      rcases ended_or_atMark before still with ended | atMark
      · exact manageEgress_ended ended settings
      · have next := manageEgress_atMark now f settings atMark
        rw [remembers still, if_neg Bool.false_ne_true] at next
        dsimp only at next finished ⊢
        rw [next] at finished ⊢
        split
        · rfl
        · next early =>
          rw [if_neg early] at finished
          exact absurd (finished.symm.trans atMark) Bool.false_ne_true
  | publishing now takeover f =>
    refine ⟨fun _ _ => rfl, fun _ still finished => ?_⟩
    simp only [Machine.noting, asks, Bool.and_eq_true, Bool.not_eq_true'] at still
    rcases ended_or_atMark before still.1 with ended | atMark
    · exact publishing_ended now f ended still.2
    · have pending := publishing_atMark now takeover f atMark
      exact absurd (finished.symm.trans pending) Bool.false_ne_true
  | encoderLeft now stopped =>
    exact ⟨fun _ _ => rfl, fun _ => before.of_plan (l.encoderLeft_plan now stopped)⟩
  | destinationChanged =>
    exact ⟨fun _ _ => rfl, fun _ => before.of_plan (l.stop_fields .stopEgress).1⟩
  | endNow => exact ⟨fun _ _ => rfl, fun _ _ _ => rfl⟩
  | endAfterAir now f =>
    refine ⟨fun _ _ => rfl, fun _ _ finished => ?_⟩
    rcases l.endAfterAir_plan now f with ended | atMark
    · exact ended
    · exact absurd (finished.symm.trans atMark) Bool.false_ne_true
  | resume => exact ⟨fun _ _ => rfl, fun _ still => by contradiction⟩

/-- The rules, for every sequence of events: an ended broadcast has no connection; one is stopped at
most once by an event, when it is on, and turned on only by a tick that asks for it; a plan that
waits for the end mark has one; and an End stream stays in force until taken back exactly as long as
no tick forgets it. -/
theorem lifecycle_rules (grace : ℕ) (events : List LifeEvent) :
    let l := (new grace).after events
    (l.plan = .ended → l.egress = .off) ∧
      (∀ event, stopCount (l.step event).2 ≤ 1 ∧
        (0 < stopCount (l.step event).2 → l.egress ≠ .off ∧ (l.step event).1.egress = .off) ∧
        (l.egress = .off → (l.step event).1.egress ≠ .off →
          ∃ now f, event = .tick now f true ∧ (l.tick now f).2.2 = .start ∧
            (l.step event).1 = l.started now)) ∧
      (l.plan.atMark = true → ∃ first rest, (new grace).effects events = first ++ .markEnd :: rest ∧
        ∀ effect ∈ rest, effect.clearsMark = false) ∧
      ((∀ first, first <+: events →
          Asked (Machine.after (Machine.noting step asks) (false, new grace) first)) ↔
        Machine.Along (Machine.noting step asks)
          (fun s event => s.1 = true → s.2.forgets event = false) (false, new grace) events) := by
  obtain ⟨off, mark⟩ := after_keeps grace events
  refine ⟨fun ended => egressOn_iff.mp (off ended), fun event => ?_, fun atMark => marked_since (mark atMark),
    Machine.throughout_iff_along _ (fun _ _ (_ : True) => step_asked _)
      (fun still => by contradiction) fun _ _ => trivial⟩
  generalize (new grace).after events = l
  rcases step_cases l event with kept | ⟨now, f, rfl, ticked, same⟩
  · refine ⟨kept.once, fun some => ?_, fun off on => ?_⟩
    · obtain ⟨on, off⟩ := kept.stopped some
      refine ⟨fun was => ?_, egressOn_iff.mp off⟩
      rw [egressOn_iff.mpr was] at on
      contradiction
    · have was : (l.step event).1.egressOn = true := by
        by_contra off
        exact on (egressOn_iff.mp (Bool.not_eq_true _ ▸ off))
      have on := (kept.off was).1
      rw [egressOn_iff.mpr off] at on
      contradiction
  · rw [same]
    exact ⟨Nat.zero_le _, fun some => absurd some (Nat.lt_irrefl _),
      fun _ _ => ⟨now, f, rfl, by rw [ticked], rfl⟩⟩

/-- The encoder streams and airs; End stream (after air) is given; the encoder drops its connection
and the destination cannot be reached until the grace period is over; then the encoder reconnects by
itself. -/
def unreachable : List LifeEvent :=
  let f : Facts := ⟨true, true, false, false, false, true, true, true, 60 * SEC⟩
  [.publishing 0 false f, .tick SEC f true, .endAfterAir (2 * SEC) f, .encoderLeft (3 * SEC) false,
    .tick (33 * SEC) { f with connected := false } true, .publishing (40 * SEC) false f]

/-- The End stream is forgotten: the reconnect starts a broadcast. -/
theorem reconnect_starts :
    (Machine.after (Machine.noting step asks) (false, new (30 * SEC)) unreachable).1 = true ∧
      ((new (30 * SEC)).after unreachable).plan = .live ∧
      (((new (30 * SEC)).after unreachable).tick (41 * SEC)
        ⟨true, true, false, false, false, true, true, false, 60 * SEC⟩).2.2 = .start := by
  decide +kernel

end Lifecycle

end StreamDelay
