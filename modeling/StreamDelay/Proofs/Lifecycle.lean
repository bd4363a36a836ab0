import Mathlib.Tactic.Common
import Mathlib.Data.List.Induction
import StreamDelay.Relay.Lifecycle

/-! # What one event does to the lifecycle

Every event but one keeps to the same rules: it leaves the connection as it is or turns it off, asks
for that at most once, and waits for an end mark only where there is one. The exception is the tick
that starts a connection.
-/

namespace StreamDelay

open Foundations

namespace Effect

/-- The connection to the destination is stopped. -/
def stops : Effect → Bool
  | stopEgress | abortEgress => true
  | _ => false

/-- The engine has no end mark any more. -/
def clearsMark : Effect → Bool
  | discard | cancelEnd | restartAfterEnd => true
  | _ => false

/-- Whether the engine has an end mark after the effect. -/
def marks (marked : Bool) : Effect → Bool
  | markEnd => true
  | discard | cancelEnd | restartAfterEnd => false
  | _ => marked

end Effect

/-- How many of the effects stop the connection. -/
def stopCount (fx : List Effect) : ℕ := fx.countP Effect.stops

/-- Whether the engine has an end mark after the effects. -/
def marked (before : Bool) (fx : List Effect) : Bool := fx.foldl Effect.marks before

theorem marked_append (before : Bool) (first second : List Effect) :
    marked before (first ++ second) = marked (marked before first) second :=
  List.foldl_append ..

/-- An end mark that is there was set, and not cleared since. -/
theorem marked_since {fx : List Effect} (set : marked false fx = true) :
    ∃ first rest, fx = first ++ .markEnd :: rest ∧ ∀ e ∈ rest, e.clearsMark = false := by
  induction fx using List.reverseRecOn with
  | nil => contradiction
  | append_singleton fx last ih =>
    rw [marked_append] at set
    by_cases mark : last = .markEnd
    · exact ⟨fx, [], by rw [mark], by simp⟩
    · have kept : last.clearsMark = false ∧ marked false fx = true := by
        cases last <;> simp_all [marked, Effect.marks, Effect.clearsMark]
      obtain ⟨first, rest, rfl, since⟩ := ih kept.2
      refine ⟨first, rest ++ [last], by simp, fun e member => ?_⟩
      rcases List.mem_append.mp member with earlier | here
      · exact since e earlier
      · rw [List.mem_singleton.mp here]
        exact kept.1

namespace Lifecycle

variable {l : Lifecycle}

theorem egressOn_iff : l.egressOn = false ↔ l.egress = .off := by
  unfold egressOn
  cases l.egress <;> simp

/-! ## What one event does -/

/-- What an event leaves, and the effects it asks for, keep to the rules: with `mark`, the engine had
an end mark before. -/
structure Keeps (l l' : Lifecycle) (fx : List Effect) : Prop where
  off : l'.egressOn = true → l.egressOn = true ∧ (l'.plan = .ended → l.plan = .ended)
  once : stopCount fx ≤ 1
  stopped : 0 < stopCount fx → l.egressOn = true ∧ l'.egressOn = false
  mark : ∀ mark, (l.plan.atMark = true → mark = true) → l'.plan.atMark = true → marked mark fx = true

namespace Keeps

/-- Only the encoder and the connection, and that only to be stopped, changed. -/
theorem quiet {l' : Lifecycle} (plan : l'.plan = l.plan) (egress : l'.egress = l.egress) :
    Keeps l l' [] where
  off := by
    have on : l'.egressOn = l.egressOn := by simp only [egressOn, egress]
    rw [plan, on]
    exact fun on => ⟨on, id⟩
  once := Nat.zero_le _
  stopped := fun some => absurd some (Nat.lt_irrefl _)
  mark := by
    intro mark before
    rw [plan]
    exact before

end Keeps

theorem stop_off (how : Effect) (l : Lifecycle) : (l.stop how).1.egressOn = false := by
  unfold stop
  split
  · rfl
  · next off => simpa using off

theorem stop_fields (how : Effect) (l : Lifecycle) :
    (l.stop how).1.plan = l.plan ∧ (l.stop how).1.encoder = l.encoder ∧
      (l.stop how).1.grace = l.grace := by
  unfold stop
  split <;> exact ⟨rfl, rfl, rfl⟩

theorem stop_effects (how : Effect) (l : Lifecycle) :
    (l.stop how).2 = if l.egressOn then [how] else [] := by
  unfold stop
  split <;> rfl

private theorem stop_marked {how : Effect} (stops : how.stops = true) (l : Lifecycle) (mark : Bool) :
    marked mark (l.stop how).2 = mark := by
  rw [stop_effects]
  split
  · cases how <;> first | rfl | contradiction
  · rfl

theorem stop_keeps {how : Effect} (stops : how.stops = true) (l : Lifecycle) :
    Keeps l (l.stop how).1 (l.stop how).2 where
  off := fun on => absurd on (by rw [l.stop_off how]; exact Bool.false_ne_true)
  once := by
    rw [stop_effects]
    split <;> simp [stopCount, stops]
  stopped := by
    intro some
    refine ⟨?_, l.stop_off how⟩
    rw [stop_effects] at some
    by_contra off
    simp [off, stopCount] at some
  mark := by
    intro mark before atMark
    rw [stop_marked stops]
    rw [(l.stop_fields how).1] at atMark
    exact before atMark

/-- What follows a stop asks for no other, and leaves no plan that needs the mark it may clear. -/
theorem stop_then (l : Lifecycle) {how : Effect} (stops : how.stops = true) {l' : Lifecycle}
    (first last : List Effect) (egress : l'.egressOn = false)
    (quiet : stopCount first = 0 ∧ stopCount last = 0) (plan : l'.plan.atMark = false) :
    Keeps l l' (first ++ (l.stop how).2 ++ last) := by
  have stopped := stop_keeps stops l
  have count : stopCount (first ++ (l.stop how).2 ++ last) = stopCount (l.stop how).2 := by
    simp only [stopCount, List.countP_append] at quiet ⊢
    omega
  refine ⟨fun on => absurd on (by rw [egress]; exact Bool.false_ne_true), ?_, fun some => ⟨?_, egress⟩,
    fun mark _ atMark => ?_⟩
  · rw [count]
    exact stopped.once
  · rw [count] at some
    exact (stopped.stopped some).1
  · rw [plan] at atMark
    contradiction

theorem finish_fields (l : Lifecycle) :
    l.finish.1.egressOn = false ∧ l.finish.1.plan = (if l.plan.atMark then .live else l.plan) ∧
      l.finish.1.grace = l.grace := by
  have fields := l.stop_fields .stopEgress
  have off := l.stop_off .stopEgress
  refine ⟨off, ?_, fields.2.2⟩
  simp only [finish, fields.1]

theorem finish_plan (l : Lifecycle) : l.finish.1.plan.atMark = false := by
  rw [l.finish_fields.2.1]
  split
  · rfl
  · next plan => simpa using plan

private theorem finish_effects (l : Lifecycle) : l.finish.2 = (l.stop .stopEgress).2 ++ [.discard] := rfl

/-- Finishing, after what it explains. -/
theorem finish_keeps {l' : Lifecycle} (why : List Effect) (egress : l'.egressOn = false)
    (plan : l'.plan.atMark = false) (quiet : stopCount why = 0) : Keeps l l' (why ++ l.finish.2) := by
  rw [finish_effects, ← List.append_assoc]
  exact l.stop_then rfl why [.discard] egress ⟨quiet, rfl⟩ plan

/-- Finishing, with a word about why. -/
theorem explained_keeps (why : String) (l : Lifecycle) :
    Keeps l l.finish.1 (.explain why :: l.finish.2) :=
  finish_keeps [.explain why] l.finish_fields.1 l.finish_plan rfl

private theorem endNow_keeps (l : Lifecycle) : Keeps l l.endNow.1 l.endNow.2 := by
  have kept : Keeps l l.endNow.1 ([.discard] ++ (l.stop .abortEgress).2 ++ []) :=
    l.stop_then rfl [.discard] [] (l.stop_off .abortEgress) ⟨rfl, rfl⟩ rfl
  rw [List.append_nil] at kept
  exact kept

private theorem endAfterAir_keeps (now : ℕ) (f : Facts) (l : Lifecycle) :
    Keeps l (l.endAfterAir now f).1 (l.endAfterAir now f).2 := by
  unfold endAfterAir
  split
  · exact .quiet rfl rfl
  · exact .quiet rfl rfl
  · next deadline plan =>
    refine ⟨fun on => ⟨on, fun ended => by contradiction⟩, Nat.zero_le _, fun some => absurd some (Nat.lt_irrefl _),
      fun mark before _ => before ?_⟩
    rw [plan]
    rfl
  · dsimp only
    split
    · exact ⟨fun on => ⟨on, fun ended => by contradiction⟩, Nat.zero_le _,
        fun some => absurd some (Nat.lt_irrefl _), fun _ _ _ => rfl⟩
    · exact finish_keeps [] l.finish_fields.1 rfl rfl

private theorem resume_keeps (l : Lifecycle) : Keeps l l.resume.1 l.resume.2 := by
  unfold resume
  split
  · exact ⟨fun on => ⟨on, fun ended => by contradiction⟩, Nat.zero_le _, fun some => absurd some (Nat.lt_irrefl _),
      fun _ _ atMark => by contradiction⟩
  · exact ⟨fun on => ⟨on, fun ended => by contradiction⟩, Nat.zero_le _, fun some => absurd some (Nat.lt_irrefl _),
      fun _ _ atMark => by contradiction⟩
  · exact .quiet rfl rfl
  · exact .quiet rfl rfl

private theorem restartPlan_keeps (now : ℕ) (f : Facts) (l : Lifecycle) :
    Keeps l (l.restartPlan now f).1 (l.restartPlan now f).2 := by
  unfold restartPlan
  split
  · split
    · split
      · exact ⟨fun on => ⟨on, fun ended => by contradiction⟩, Nat.zero_le _,
          fun some => absurd some (Nat.lt_irrefl _), fun _ _ _ => rfl⟩
      · exact .quiet rfl rfl
    · next deadline plan =>
      refine ⟨fun on => ⟨on, fun ended => by contradiction⟩, Nat.zero_le _,
        fun some => absurd some (Nat.lt_irrefl _), fun mark before _ => before ?_⟩
      rw [plan]
      rfl
    · exact .quiet rfl rfl
  · exact .quiet rfl rfl

private theorem publishing_keeps (now : ℕ) (takeover : Bool) (f : Facts) (l : Lifecycle) :
    Keeps l (l.publishing now takeover f).1 (l.publishing now takeover f).2 := by
  have kept := l.restartPlan_keeps now f
  have egress : (l.publishing now takeover f).1.egressOn = (l.restartPlan now f).1.egressOn := rfl
  have plan : (l.publishing now takeover f).1.plan = (l.restartPlan now f).1.plan ∨
      (l.publishing now takeover f).1.plan = .live := by
    simp only [publishing]
    split
    · exact .inr rfl
    · exact .inl rfl
  refine ⟨fun on => ?_, kept.once, ?_, fun mark before atMark => ?_⟩
  · rw [egress] at on
    refine ⟨(kept.off on).1, fun ended => ?_⟩
    rcases plan with same | live
    · exact (kept.off on).2 (same ▸ ended)
    · rw [live] at ended
      contradiction
  · rw [egress]
    exact kept.stopped
  · rcases plan with same | live
    · exact kept.mark mark before (same ▸ atMark)
    · rw [live] at atMark
      contradiction

private theorem encoderLeft_keeps (now : ℕ) (stopped : Bool) (l : Lifecycle) :
    Keeps l (l.encoderLeft now stopped) [] := by
  unfold encoderLeft
  split <;> exact .quiet rfl rfl

private theorem startFailed_keeps (now : ℕ) (l : Lifecycle) :
    Keeps l (l.startFailed now).1 (l.startFailed now).2 := by
  unfold startFailed
  split
  · exact finish_keeps [] l.finish_fields.1 l.finish_plan rfl
  · exact .quiet rfl rfl

private theorem endAtMark_keeps {now : ℕ} {f : Facts} {l l' : Lifecycle} {fx : List Effect}
    (finished : l.endAtMark now f = some (l', fx)) : Keeps l l' fx := by
  obtain ⟨deadline, -, finished⟩ := Option.bind_eq_some_iff.mp finished
  dsimp only at finished
  split at finished
  · contradiction
  · split at finished
    · obtain ⟨rfl, rfl⟩ := Prod.mk.inj (Option.some.inj finished)
      exact l.stop_then rfl [] [.restartAfterEnd] (l.stop_off .stopEgress) ⟨rfl, rfl⟩ rfl
    · obtain ⟨rfl, rfl⟩ := Prod.mk.inj (Option.some.inj finished)
      exact finish_keeps [] l.finish_fields.1 rfl rfl

/-- Draining either goes on or finishes, perhaps with a word about why. -/
theorem drain_cases (now : ℕ) (f : Facts) (started leftAt : ℕ) (stopped : Bool) (l : Lifecycle) :
    l.drain now f started leftAt stopped = (l, []) ∨
      l.drain now f started leftAt stopped = l.finish ∨
        ∃ why, l.drain now f started leftAt stopped = (l.finish.1, .explain why :: l.finish.2) := by
  unfold drain
  by_cases aired : (f.connected && f.drained && f.backlogEmpty) = true
  · rw [if_pos aired]
    exact .inr (.inl rfl)
  · rw [if_neg aired]
    by_cases down : (!f.connected) = true
    · rw [if_pos down]
      by_cases given : (l.encoderGone now && l.grace ≤ now - started) = true
      · rw [if_pos given]
        exact .inr (.inr ⟨UNREACHABLE, rfl⟩)
      · rw [if_neg given]
        exact .inl rfl
    · rw [if_neg down]
      dsimp only
      generalize (if stopped then f.delay else max l.grace f.delay) + DRAIN_SLACK = allowed
      split
      · exact .inr (.inr ⟨STALLED, rfl⟩)
      · exact .inl rfl

private theorem drain_keeps (now : ℕ) (f : Facts) (started leftAt : ℕ) (stopped : Bool) (l : Lifecycle) :
    Keeps l (l.drain now f started leftAt stopped).1 (l.drain now f started leftAt stopped).2 := by
  rcases l.drain_cases now f started leftAt stopped with on | finished | ⟨why, finished⟩
  · rw [on]
    exact .quiet rfl rfl
  · rw [finished]
    exact finish_keeps [] l.finish_fields.1 l.finish_plan rfl
  · rw [finished]
    exact l.explained_keeps why

private theorem tick_keeps (now : ℕ) (f : Facts) (l : Lifecycle) :
    Keeps l (l.tick now f).1 (l.tick now f).2.1 := by
  unfold tick
  split
  · exact stop_keeps rfl l
  · split
    · next finished => exact endAtMark_keeps finished
    · split
      · split
        · exact finish_keeps [] l.finish_fields.1 l.finish_plan rfl
        · split <;> exact .quiet rfl rfl
      · split
        · split
          · exact l.drain_keeps now f _ _ _
          · exact .quiet rfl rfl
        · exact .quiet rfl rfl

/-- A connection is started only when there is none, and the broadcast goes on. -/
theorem tick_start {now : ℕ} {f : Facts} {l l' : Lifecycle} {fx : List Effect}
    (start : l.tick now f = (l', fx, .start)) :
    l' = l ∧ fx = [] ∧ l.egress = .off ∧ l.ended = false := by
  unfold tick at start
  split at start
  · exact absurd (congrArg (·.2.2) start) (by simp)
  · split at start
    · exact absurd (congrArg (·.2.2) start) (by simp)
    · split at start
      · next off =>
        split at start
        · exact absurd (congrArg (·.2.2) start) (by simp)
        · split at start
          · next wanted =>
            simp only [Bool.and_eq_true, Bool.not_eq_true'] at wanted
            simp only [Prod.mk.injEq] at start
            exact ⟨start.1.symm, start.2.1.symm, off, wanted.1⟩
          · exact absurd (congrArg (·.2.2) start) (by simp)
      · split at start
        · split at start <;> exact absurd (congrArg (·.2.2) start) (by simp)
        · exact absurd (congrArg (·.2.2) start) (by simp)

/-- One event keeps to the rules, or it is a tick that starts a connection. -/
theorem step_cases (l : Lifecycle) (event : LifeEvent) :
    Keeps l (l.step event).1 (l.step event).2 ∨
      ∃ now f, event = .tick now f true ∧ l.tick now f = (l, [], .start) ∧
        l.step event = (l.started now, []) := by
  cases event with
  | publishing now takeover f => exact .inl (l.publishing_keeps now takeover f)
  | encoderLeft now stopped => exact .inl (l.encoderLeft_keeps now stopped)
  | destinationChanged => exact .inl (stop_keeps rfl l)
  | endNow => exact .inl l.endNow_keeps
  | endAfterAir now f => exact .inl (l.endAfterAir_keeps now f)
  | resume => exact .inl l.resume_keeps
  | tick now f settings =>
    have kept := l.tick_keeps now f
    simp only [step, manageEgress]
    rcases ticked : l.tick now f with ⟨l', fx, _ | _⟩
    · rw [ticked] at kept
      exact .inl kept
    · obtain ⟨rfl, rfl, -, -⟩ := tick_start ticked
      cases settings with
      | false => exact .inl (l'.startFailed_keeps now)
      | true => exact .inr ⟨now, f, rfl, ticked, rfl⟩

/-- Whatever happened: an ended broadcast has no connection, and a plan that waits for the end mark
has one. -/
theorem after_keeps (grace : ℕ) (events : List LifeEvent) :
    (((new grace).after events).plan = .ended → ((new grace).after events).egressOn = false) ∧
      (((new grace).after events).plan.atMark = true →
        marked false ((new grace).effects events) = true) := by
  induction events using List.reverseRecOn with
  | nil => exact ⟨fun _ => rfl, fun atMark => by contradiction⟩
  | append_singleton events event ih =>
    simp only [after, effects, Machine.after_append, Machine.outputs_append, Machine.after_cons,
      Machine.after_nil, Machine.outputs_cons, Machine.outputs_nil, List.append_nil, marked_append]
    rcases step_cases ((new grace).after events) event with kept | ⟨now, f, rfl, ticked, same⟩
    · refine ⟨fun ended => ?_, kept.mark _ ih.2⟩
      by_contra on
      obtain ⟨was, wasEnded⟩ := kept.off (Bool.not_eq_false _ ▸ on)
      rw [ih.1 (wasEnded ended)] at was
      contradiction
    · rw [same]
      obtain ⟨-, -, -, goes⟩ := tick_start ticked
      refine ⟨fun ended => ?_, ih.2⟩
      have wasEnded : ((new grace).after events).ended = true := decide_eq_true ended
      rw [goes] at wasEnded
      contradiction

end Lifecycle

end StreamDelay
