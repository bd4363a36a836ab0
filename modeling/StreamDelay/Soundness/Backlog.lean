import Mathlib.Tactic.Common
import StreamDelay.Proofs.Egress

/-! # The backlog counter is exact

Whatever the core and the task do, and in whatever order, the counter is what is queued and not yet
subtracted; each message is subtracted once, in the order it was queued in.
-/

namespace StreamDelay

open Foundations

namespace Egress

variable {Target : Type}

private theorem new_valid : (State.new : State Target).Valid := fun ended => Bool.noConfusion ended

/-- A message that is counted was queued. -/
theorem mem_queued {acts : List (Act Target)} {q : Queued}
    (counted : q ∈ ((State.new : State Target).notes acts).filterMap Note.entered) : .queue q.msg ∈ acts := by
  obtain ⟨note, noted, entered⟩ := List.mem_filterMap.mp counted
  obtain ⟨first, act, second, rfl, here⟩ := Machine.mem_outputs State.step noted
  have valid := State.flow.valid_after new_valid first
  have source := (State.step_accounts valid act).source q (List.mem_filterMap.mpr ⟨note, here, entered⟩)
  rw [source]
  exact List.mem_append_right _ (List.mem_cons_self ..)

private theorem bytes_eq_zero {queued : List Queued} (full : ∀ q ∈ queued, q.msg.payload ≠ []) :
    bytes queued = 0 ↔ queued = [] := by
  cases queued with
  | nil => exact ⟨fun _ => rfl, fun _ => rfl⟩
  | cons q rest =>
    have some : 0 < q.bytes := List.length_pos_iff.mpr (full q (List.mem_cons_self ..))
    refine ⟨fun none => ?_, fun none => nomatch none⟩
    have sum : bytes (q :: rest) = q.bytes + bytes rest := rfl
    omega

/-- Over any run of the core and the task, the counter is the bytes of what is queued: received by the task and
not subtracted, in the channel, or counted and about to be sent; so no subtraction takes it below 0. What was
counted is what was subtracted, once each and in order, and what is queued. With no empty message queued the
counter is 0 exactly when nothing is. -/
theorem backlog_exact (acts : List (Act Target)) :
    let s := (State.new : State Target).after acts
    let notes := (State.new : State Target).notes acts
    s.backlog = bytes s.batch + bytes s.media + bytes s.adding.toList ∧
      0 ≤ s.backlog ∧
      notes.filterMap Note.entered = notes.filterMap Note.left ++ (s.batch ++ s.media ++ s.adding.toList) ∧
      ((∀ msg, .queue msg ∈ acts → msg.payload ≠ []) →
        (s.backlog = 0 ↔ s.batch ++ s.media ++ s.adding.toList = [])) := by
  intro s notes
  have counter : s.backlog = (bytes s.held : ℤ) :=
    State.flow.count State.backlog (fun queued => (bytes queued : ℤ))
      (fun _ act valid exact => State.step_counter valid act exact) new_valid rfl acts
  have ran : notes.filterMap Note.entered = notes.filterMap Note.left ++ s.held :=
    State.flow.run new_valid acts
  have parts : bytes s.held = bytes s.batch + bytes s.media + bytes s.adding.toList := by
    rw [State.held, bytes_append, bytes_append]
  refine ⟨by omega, by omega, ran, fun full => ?_⟩
  have held : ∀ q ∈ s.held, q.msg.payload ≠ [] := by
    intro q member
    have counted : q ∈ notes.filterMap Note.entered := by
      rw [ran]
      exact List.mem_append_right _ member
    exact full q.msg (mem_queued counted)
  rw [counter, Int.natCast_eq_zero]
  exact bytes_eq_zero held

/-- Two messages are queued for the first connection, and a third after a dump takes them back: the write of the
first is interrupted, and what is left is dropped when the connection stops. -/
example :
    let msg (n : ℕ) : OutMsg := ⟨.audio, 0, List.replicate n 0, none⟩
    let acts : List (Act ℕ) := [.control (.start 7), .receive false, .attempt true, .quiet, .answer 1, .resume,
      .queue (msg 3), .send, .takeMany 64, .queue (msg 5), .send, .takeBack, .control .stop, .interrupt, .settle,
      .queue (msg 2), .send, .take, .drop]
    (State.new.after acts).backlog = 2 ∧
      (State.new.notes acts).filterMap Note.left = [⟨1, 0, msg 3⟩, ⟨1, 0, msg 5⟩] := by
  decide +kernel

end Egress

end StreamDelay
