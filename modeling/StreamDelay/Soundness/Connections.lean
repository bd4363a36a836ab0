import Mathlib.Tactic.Common
import StreamDelay.Proofs.Coherent
import StreamDelay.Proofs.Delivery

/-! # A number of its own for each connection

Only a new connection changes the engine's generation, and it adds one. So the generations a run gives out only go
up, and the core answers each connection with a number later than that of the one before.
-/

namespace StreamDelay

open Foundations

namespace Engine

variable {e e' : Engine} {now : ℕ} {out : List Sent}

/-! ## What keeps the generation -/

private theorem startAt_generation (now k arrival : ℕ) (e : Engine) :
    (e.startAt now k arrival).out.generation = e.out.generation := by
  rcases e.startAt_cases now k arrival with same | ⟨-, -, -, same⟩ | ⟨-, -, same⟩ <;> simp [same]

theorem Move.generation (move : Move now e e' out) : e'.out.generation = e.out.generation := by
  cases move with
  | covered _ _ spliced | holdDone _ _ _ spliced => simp [spliced, endHold_out]
  | heldFrame => exact (showFrame_course e now _).out (·.generation)
  | started => exact startAt_generation now _ _ e
  | sent => exact (sendEntry_course e).out (·.generation)
  | liveSplice | reduceSplice | replayDone | maskDone => simp
  | liveEdge | airedMark | reduceDone | unconfirmed | anchored | maskGone | coverLost | holdEnded
  | replayHeld | caughtUp | newSession | sessionSkipped | markSkipped | silenced => rfl

theorem Moves.generation (moves : Moves now e e' out) : e'.out.generation = e.out.generation :=
  Steps.constant (·.out.generation) (fun _ _ _ move => move.generation) moves

private theorem runPending_generation (now : ℕ) (e : Engine) :
    (e.runPending now).out.generation = e.out.generation :=
  Moves.generation (runPending_moves now e)

private theorem backUnderMax_generation (e : Engine) : e.backUnderMax.out.generation = e.out.generation := by
  rcases backUnderMax_out e with same | ⟨-, -, same⟩ <;> simp [same]

private theorem backToTarget_generation (e : Engine) : e.backToTarget.out.generation = e.out.generation := by
  rcases backToTarget_cases e with same | ⟨-, -, same⟩ <;> simp [same]

private theorem rewindTo_generation (now d k : ℕ) (known : Bool) (e : Engine) :
    (e.rewindTo now d k known).out.generation = e.out.generation := by
  unfold rewindTo
  dsimp only
  split_ifs <;> simp

private theorem rewind_generation (now d : ℕ) (e : Engine) :
    (e.rewind now d).out.generation = e.out.generation := by
  unfold rewind
  split
  · exact rewindTo_generation ..
  · split
    · rfl
    · exact rewindTo_generation ..

private theorem goLive_generation (when : GoLiveWhen) (e : Engine) :
    (e.goLive when).out.generation = e.out.generation := by
  unfold goLive
  dsimp only
  split_ifs <;> rfl

private theorem changeDelay_generation (now d : ℕ) (mode : DelayMode) (e : Engine) :
    (e.changeDelay now d mode).out.generation = e.out.generation := by
  unfold changeDelay
  dsimp only
  split_ifs
  · rfl
  · exact goLive_generation ..
  · cases mode with
    | rewind => exact rewind_generation ..
    | mask => rfl
  · rfl
  · rfl

private theorem setDelay_generation (now ms : ℕ) (mode : DelayMode) (e : Engine) :
    (e.setDelay now ms mode).out.generation = e.out.generation := by
  unfold setDelay
  dsimp only
  split
  · exact runPending_generation ..
  · split_ifs
    · rfl
    · rw [runPending_generation, changeDelay_generation]

private theorem dump_generation (now : ℕ) (mode : DelayMode) (cover : Bool) (e : Engine) :
    (e.dump now mode cover).1.out.generation = e.out.generation := by
  rcases e.dump_cases now mode cover with
    ⟨-, same⟩ | ⟨-, -, same⟩ | ⟨-, -, k, -, same⟩ | ⟨-, -, same⟩ <;> rw [same]
  · rw [dropBuffer_out]
  · rw [setPending_out, dropBuffer_out]
  · unfold replayAt
    rw [spliceTo_generation, setPending_out, splitSession_out]
    rfl
  · rw [holdInstead_eq, dropBuffer_out]
    rfl

private theorem slateShown_generation (now change : ℕ) (e : Engine) :
    (e.slateShown now change).out.generation = e.out.generation := by
  unfold slateShown
  split
  · rfl
  · split <;> (try split) <;> rfl

private theorem cancel_generation (e : Engine) : e.cancel.out.generation = e.out.generation := by
  unfold cancel
  dsimp only
  split_ifs <;> simp [backUnderMax_generation]

private theorem clearNotices_generation (cmd : Command) (e : Engine) :
    (e.clearNotices cmd).out.generation = e.out.generation := by
  cases cmd <;> rfl

private theorem command_generation (now : ℕ) (cmd : Command) (e : Engine) :
    (e.command now cmd).1.out.generation = e.out.generation := by
  unfold command
  split
  · rfl
  · rw [← clearNotices_generation cmd e]
    generalize e.clearNotices cmd = cleared
    cases cmd with
    | slateShown change => exact (runPending_generation ..).trans (slateShown_generation ..)
    | cancel => exact (runPending_generation ..).trans (cancel_generation _)
    | dump mode cover =>
      simp only [obey]
      split
      · exact (runPending_generation ..).trans (dump_generation ..)
      · rfl
    | goLive when => exact (runPending_generation ..).trans (goLive_generation ..)
    | setDelay ms mode => exact setDelay_generation ..

private theorem resumeAfter_generation (last : Option ℕ) (e : Engine) :
    (e.resumeAfter last).out.generation = e.out.generation := by
  unfold resumeAfter
  split <;> rfl

private theorem unsend_generation (taken : Option ℕ) (e : Engine) :
    (e.unsend taken).out.generation = e.out.generation := by
  unfold unsend
  split
  · rfl
  · exact resumeAfter_generation taken e

private theorem dumpAfter_generation (now : ℕ) (taken : Option ℕ) (mode : DelayMode) (cover : Bool) (e : Engine) :
    (e.dumpAfter now taken mode cover).1.out.generation = e.out.generation := by
  unfold dumpAfter
  split_ifs
  · rw [command_generation, unsend_generation]
  · rfl
  · unfold refuseDump
    dsimp only
    split <;> rfl

private theorem memoryShort_generation (now : ℕ) (e : Engine) :
    (e.memoryShort now).out.generation = e.out.generation := by
  unfold memoryShort
  split
  · rfl
  · dsimp only
    split
    · rfl
    · split <;> rfl

private theorem evict_generation (layout : e.Layout) (now : ℕ) :
    (e.evict now).out.generation = e.out.generation := by
  obtain ⟨n, mid, trimmed, same | same⟩ := evict_trimmed layout now
  · rw [same, trimmed.out]
  · rw [same, memoryShort_generation, trimmed.out]

private theorem restartFrom_generation (now k : ℕ) (e : Engine) :
    (e.restartFrom now k).out.generation = e.out.generation := by
  unfold restartFrom
  rw [backUnderMax_generation, spliceTo_generation]
  rfl

/-- A new connection gets the next number. -/
theorem outputConnected_generation (now : ℕ) (e : Engine) :
    (e.outputConnected now).out.generation = e.out.generation + 1 := by
  unfold outputConnected
  dsimp only
  split
  · rfl
  · split
    · unfold reconnect
      split
      · rfl
      · dsimp only
        split
        · rw [backToTarget_generation, restartFrom_generation]
          rfl
        · rw [restartFrom_generation]
          rfl
    · rfl

private theorem step_generation (layout : e.Layout) {op : Op} (other : ∀ now, op ≠ .outputConnected now) :
    (e.step op).1.out.generation = e.out.generation := by
  cases op with
  | ingestStart now =>
    show (e.ingestStart now).out.generation = _
    rw [ingestStart_out]
    split
    · rfl
    · rw [dropBuffer_out]
  | ingestMetadata now payload =>
    show (e.ingestMetadata now payload).out.generation = _
    rw [ingestMetadata_out]
  | ingest now kind ts payload =>
    show (e.ingest now kind ts payload).out.generation = _
    rcases e.ingest_cases now kind ts payload with same | ⟨session, -, -, same⟩
    · rw [same]
    · rw [same, evict_generation (append_layout layout now kind ts payload session), append_out]
  | outputConnected now => exact absurd rfl (other now)
  | outputDisconnected now lastWritten => exact resumeAfter_generation lastWritten _
  | unsend taken => exact unsend_generation taken e
  | dumpAfter now taken mode cover => exact dumpAfter_generation now taken mode cover e
  | discard =>
    show e.dropBuffer.out.generation = _
    rw [dropBuffer_out]
  | endAfter =>
    show (e.lastSeq.elim e fun seq => e.endAfter seq).out.generation = _
    cases e.lastSeq <;> rfl
  | restartAfterEnd =>
    show (e.dropBefore (e.out.endMark.elim e.nextSeq (· + 1))).out.generation = _
    rw [(dropBefore_trimmed layout _).out]
  | command now cmd => exact command_generation now cmd e
  | pollBudget now maxBytes =>
    have evicted := evict_layout layout now
    exact (Moves.generation (pollBudget_moves evicted maxBytes)).trans (evict_generation layout now)
  | ingestEnd | outputReset | cancelEnd | setKeepHistory | setRestoreAfterReconnect => rfl

/-! ## The numbers a run gives out -/

/-- The number an operation gives a connection, if it is a new one. -/
def gives (e : Engine) : Op → List ℕ
  | .outputConnected now => [(e.outputConnected now).out.generation]
  | _ => []

/-- The numbers a sequence of operations gives out, in order. -/
def given : Engine → List Op → List ℕ
  | _, [] => []
  | e, op :: rest => e.gives op ++ given (e.step op).1 rest

private theorem given_increasing (layout : e.Layout) (ops : List Op) :
    (e.out.generation :: e.given ops).Pairwise (· < ·) := by
  induction ops generalizing e with
  | nil => exact List.pairwise_singleton ..
  | cons op rest ih =>
    have later := ih (step_layout layout op)
    by_cases connects : ∃ now, op = .outputConnected now
    · obtain ⟨now, rfl⟩ := connects
      have next : e.out.generation < (e.step (.outputConnected now)).1.out.generation := by
        show _ < (e.outputConnected now).out.generation
        rw [outputConnected_generation]
        exact Nat.lt_succ_self _
      refine List.pairwise_cons.mpr ⟨fun n member => ?_, later⟩
      rcases List.mem_cons.mp member with rfl | member
      · exact next
      · exact Nat.lt_trans next ((List.pairwise_cons.mp later).1 n member)
    · have other : ∀ now, op ≠ .outputConnected now := fun now same => connects ⟨now, same⟩
      have none : e.gives op = [] := by
        cases op with
        | outputConnected now => exact absurd rfl (other now)
        | _ => rfl
      rw [step_generation layout other] at later
      rwa [given, none]

end Engine

/-! ## The numbers the task is answered with -/

namespace Egress

variable {Target : Type}

/-- The number a step of the core answers a connection with, if it answers one. -/
def Act.answered : Act Target → Option ℕ
  | .answer generation => some generation
  | _ => none

namespace State

variable {s : State Target}

private theorem coreStep_generation (s : State Target) (act : Act Target) :
    (s.coreStep act).1.generation = s.generation ∨ act.answered = some (s.coreStep act).1.generation := by
  unfold coreStep
  cases act with
  | answer generation =>
    dsimp only
    split
    · exact .inr rfl
    · exact .inl rfl
  | queue | send | leave =>
    dsimp only
    split <;> exact .inl rfl
  | control | takeBack | receive | take | drop | attempt | quiet | resume | lost | takeMany | write | interrupt
  | settle | slept => exact .inl rfl

private theorem taskStep_generation (s : State Target) (act : Act Target) :
    (s.taskStep act).1.generation = s.generation := by
  unfold taskStep takeOne
  repeat' first | rfl | split

private theorem batchStep_generation (s : State Target) (act : Act Target) :
    (s.batchStep act).1.generation = s.generation := by
  unfold batchStep
  repeat' first | rfl | split

/-- Only the core's answer changes the number of the connection. -/
private theorem step_generation (s : State Target) (act : Act Target) :
    (s.step act).1.generation = s.generation ∨ act.answered = some (s.step act).1.generation := by
  cases act with
  | queue | send | control | takeBack | answer | leave =>
    dsimp only [step]
    split
    · exact coreStep_generation s _
    · exact .inl rfl
  | receive | take | drop | attempt | quiet | resume | lost | takeMany | write | interrupt | settle | slept =>
    left
    dsimp only [step]
    split
    · exact taskStep_generation s _
    · exact batchStep_generation s _

/-- Answers that go up are each later than the one before. -/
theorem fresh_of_increasing {acts : List (Act Target)}
    (increasing : (s.generation :: acts.filterMap Act.answered).Pairwise (· < ·)) :
    Machine.Along State.step Fresh s acts := by
  induction acts generalizing s with
  | nil => trivial
  | cons act rest ih =>
    cases answered : act.answered with
    | none =>
      have same : (s.step act).1.generation = s.generation :=
        (step_generation s act).resolve_right (by rw [answered]; exact nofun)
      rw [List.filterMap_cons_none answered, ← same] at increasing
      refine ⟨?_, ih increasing⟩
      cases act with
      | answer generation => contradiction
      | _ => trivial
    | some generation =>
      obtain rfl : act = .answer generation := by
        cases act with
        | answer given => exact congrArg Act.answer (Option.some.inj answered)
        | _ => contradiction
      rw [List.filterMap_cons_some answered] at increasing
      have above := List.pairwise_cons.mp increasing
      refine ⟨above.1 generation (List.mem_cons_self ..), ih ?_⟩
      rcases step_generation s (.answer generation) with same | same
      · rw [same]
        exact increasing.sublist ((List.sublist_cons_self ..).cons_cons _)
      · rw [← Option.some.inj same]
        exact above.2

end State

/-- With the numbers a run of the engine gives out, whichever of them the task hears and however the rest of its
steps fall, every connection has a number of its own. -/
theorem answered_fresh (config : EngineConfig) (ops : List Op) {acts : List (Act Target)}
    (heard : (acts.filterMap Act.answered).Sublist ((Engine.new config).given ops)) :
    Machine.Along State.step State.Fresh (State.new : State Target) acts :=
  State.fresh_of_increasing ((Engine.given_increasing (Engine.new_layout config) ops).sublist (heard.cons_cons 0))

end Egress

end StreamDelay
