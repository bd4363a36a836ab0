import Mathlib.Tactic.Common
import StreamDelay.Proofs.Promise

/-! # A poll comes to its end

Every round of the poll loop but the last takes the output on: the cursor moves up, or a change that could send it back
is done with. So the loop ends by itself, within the rounds it is given.
-/

namespace StreamDelay

/-- How often the change can still send the cursor back. -/
def Pending.turnsBack : Pending → ℕ
  | none | reduce _ => 0
  | goLiveNow _ | afterAir _ | mask _ | dump .. | hold .. | replay .. => 1

namespace Engine

open Foundations

/-- The messages from the cursor on. -/
def toCome (e : Engine) : ℕ := e.nextSeq - max e.baseSeq e.out.nextSeq

/-- A bound on the rounds still to come. A hold ends the poll. -/
def roundsLeft (e : Engine) : ℕ :=
  if e.out.pending.holding then 0 else e.out.pending.turnsBack * (e.ring.length + 1) + e.toCome + 1

variable {now maxBytes emitted fuel fuel' n : ℕ} {e e' : Engine} {out : List Sent}

private theorem toCome_le (layout : e.Layout) : e.toCome ≤ e.ring.length := by
  have next := layout.next
  unfold toCome
  omega

theorem roundsLeft_airs (airs : e.out.pending.holding = false) :
    e.roundsLeft = e.out.pending.turnsBack * (e.ring.length + 1) + e.toCome + 1 := by
  rw [roundsLeft, airs, if_neg Bool.false_ne_true]

theorem roundsLeft_le : e.roundsLeft ≤ e.out.pending.turnsBack * (e.ring.length + 1) + e.toCome + 1 := by
  unfold roundsLeft
  split
  · exact Nat.zero_le _
  · exact Nat.le_refl _

theorem roundsLeft_lt_pollFuel (layout : e.Layout) : e.roundsLeft < e.pollFuel := by
  have bound := roundsLeft_le (e := e)
  have within := toCome_le layout
  have back : e.out.pending.turnsBack ≤ 1 := by
    cases e.out.pending <;> simp [Pending.turnsBack]
  have turns := Nat.mul_le_mul_right (e.ring.length + 1) back
  unfold pollFuel
  omega

/-- The cursor goes on, and no change that could send it back begins. -/
theorem roundsLeft_forward (only : OnlyOut e e') (airs : e.out.pending.holding = false)
    (turns : e'.out.pending.turnsBack ≤ e.out.pending.turnsBack) (forward : e.out.nextSeq ≤ e'.out.nextSeq) :
    e'.roundsLeft ≤ e.roundsLeft := by
  have shorter := Nat.mul_le_mul_right (e.ring.length + 1) turns
  have bound := roundsLeft_le (e := e')
  rw [roundsLeft_airs airs]
  unfold toCome at *
  rw [only.ring, only.nextSeq, only.baseSeq] at bound
  omega

/-- A change that could send the cursor back is done with. -/
theorem roundsLeft_back (only : OnlyOut e e') (layout : e.Layout) (airs : e.out.pending.holding = false)
    (turns : e'.out.pending.turnsBack < e.out.pending.turnsBack) : e'.roundsLeft ≤ e.roundsLeft := by
  have shorter := Nat.mul_le_mul_right (e.ring.length + 1) (Nat.succ_le_of_lt turns)
  rw [Nat.succ_mul] at shorter
  have bound := roundsLeft_le (e := e')
  have next := layout.next
  rw [roundsLeft_airs airs]
  unfold toCome at *
  rw [only.ring, only.nextSeq, only.baseSeq] at bound
  omega

/-- A cursor that goes on with a message has fewer to come. -/
theorem roundsLeft_passed (only : OnlyOut e e') (airs : e.out.pending.holding = false)
    (turns : e'.out.pending = e.out.pending)
    (forward : e.out.nextSeq < e'.out.nextSeq) (above : e.baseSeq ≤ e.out.nextSeq)
    (inside : e.out.nextSeq < e.nextSeq) : e'.roundsLeft < e.roundsLeft := by
  have bound := roundsLeft_le (e := e')
  rw [roundsLeft_airs airs]
  unfold toCome at *
  rw [only.ring, only.nextSeq, only.baseSeq, turns] at bound
  omega

theorem spliceTo_forward {k delay : ℕ} (ahead : e.out.nextSeq ≤ k) :
    e.out.nextSeq ≤ (e.spliceTo k delay).out.nextSeq := by
  unfold spliceTo
  split
  · exact Nat.le_refl _
  · exact ahead

/-- A turn leaves no more rounds. -/
theorem Turn.roundsLeft_le (turn : Turn now e e' out) (layout : e.Layout) (sessions : e.InSession) :
    e'.roundsLeft ≤ e.roundsLeft := by
  obtain ⟨move, holds⟩ := turn
  cases airs : e.out.pending.holding with
  | true =>
    rw [roundsLeft, if_pos (holds airs)]
    exact Nat.zero_le _
  | false =>
    have only := move.onlyOut
    cases move with
    | liveSplice pending | liveEdge pending | maskGone pending | maskDone pending | replayDone pending =>
      exact roundsLeft_back only layout airs (by rw [pending]; exact Nat.one_pos)
    | airedMark pending | anchored pending =>
      exact roundsLeft_forward only airs (by rw [pending]; exact Nat.le_refl 1) (Nat.le_refl _)
    | reduceDone pending => exact roundsLeft_forward only airs (Nat.zero_le _) (Nat.le_refl _)
    | reduceSplice pending above newest ahead =>
      exact roundsLeft_forward only airs (Nat.zero_le _) (spliceTo_forward (Nat.le_of_lt ahead))
    | coverLost pending | covered pending | holdEnded pending | holdDone pending =>
      rw [pending] at airs
      contradiction
    | heldFrame connected holding =>
      rw [holding] at airs
      contradiction
    | replayHeld connected pending =>
      exact roundsLeft_forward only airs (by rw [pending]; exact Nat.le_refl 1) (Nat.le_refl _)
    | unconfirmed | newSession => exact roundsLeft_forward only airs (Nat.le_refl _) (Nat.le_refl _)
    | markSkipped connected airs open_ needs first mark beyond =>
      refine roundsLeft_forward only airs (Nat.le_refl _) ?_
      simp only [pastMark, endReached, mark, Option.any_some, decide_eq_false_iff_not, Nat.not_lt] at open_
      exact Nat.le_succ_of_le open_
    | caughtUp connected airs behind =>
      exact roundsLeft_forward only airs (Nat.le_refl _) (Nat.le_of_lt behind)
    | sessionSkipped connected airs open_ needs nothing cursor old =>
      exact roundsLeft_forward only airs (Nat.le_refl _) (Nat.le_of_lt (lt_nextSessionStart layout sessions cursor))
    | started connected airs open_ needs first mark due =>
      have ahead := (mem_candidates.mp (startKeyframe_mem first)).2.1
      refine roundsLeft_forward only airs ?_ (startAt_nextSeq now _ _ e ▸ spliceTo_forward ahead)
      rcases e.startAt_cases now _ _ with same | ⟨-, -, -, same⟩ | ⟨-, -, same⟩
      · exact Nat.le_of_eq (by rw [same, spliceTo_pending])
      · rw [same]
        exact Nat.zero_le _
      · rw [same]
        exact Nat.zero_le _
    | sent =>
      have course := sendEntry_course e
      refine roundsLeft_forward only airs (Nat.le_of_eq (congrArg _ course.pending)) ?_
      rw [course.nextSeq]
      exact Nat.le_succ _
    | silenced => exact roundsLeft_forward only airs (Nat.le_refl _) (Nat.le_succ _)

theorem Turns.roundsLeft_le (turns : Turns now e e' out) (layout : e.Layout) (sessions : e.InSession) :
    e'.roundsLeft ≤ e.roundsLeft := by
  have kept := Steps.preserves (P := fun mid => mid.Layout ∧ mid.InSession ∧ mid.roundsLeft ≤ e.roundsLeft)
    (fun s t out turn ⟨layout, sessions, fewer⟩ => ⟨turn.1.layout layout,
      (KeepsSession.of_onlyOut turn.1.onlyOut).inSession sessions,
      Nat.le_trans (turn.roundsLeft_le layout sessions) fewer⟩) turns ⟨layout, sessions, Nat.le_refl _⟩
  exact kept.2.2

/-! ## Rounds -/

/-- A round that passes the message at the cursor. -/
theorem sendDue_fewer (layout : e.Layout) (sessions : e.InSession) (airs : e.out.pending.holding = false)
    (again : e.sendDue now maxBytes emitted = .again e' out) : e'.roundsLeft < e.roundsLeft := by
  have passes {mid : Engine} (found : ∃ x, e.entry e.out.nextSeq = some x) (only : OnlyOut e mid)
      (pending : mid.out.pending = e.out.pending) (cursor : mid.out.nextSeq = e.out.nextSeq + 1)
      (mark : mid.out.endMark = e.out.endMark) : (mid.runPending now).roundsLeft < e.roundsLeft := by
    obtain ⟨x, found⟩ := found
    obtain ⟨member, same⟩ := layout.entry_iff.mp found
    have above := layout.lower member
    have inside := layout.upper member
    have turns := runPending_turns now (show mid.out.pending.holding = false by rw [pending]; exact airs)
    have layout' := only.layout layout (by omega) fun m marked => layout.mark m (mark ▸ marked)
    refine Nat.lt_of_le_of_lt (turns.roundsLeft_le layout' ((KeepsSession.of_onlyOut only).inSession sessions)) ?_
    exact roundsLeft_passed only airs pending (by omega) (by omega) (by omega)
  unfold sendDue at again
  split at again
  · contradiction
  · next x found =>
    dsimp only at again
    split at again
    · contradiction
    · split at again
      · contradiction
      · split at again
        · obtain ⟨rfl, -⟩ := Round.again.inj again
          exact passes ⟨x, found⟩ rfl rfl rfl rfl
        · obtain ⟨rfl, -⟩ := Round.again.inj again
          have course := sendEntry_course e
          exact passes ⟨x, found⟩ ((show OnlyOut e (e.pass.tally _) from rfl).trans course.onlyOut) course.pending
            course.nextSeq course.endMark

/-- A round that moves to a later session. -/
theorem findSync_fewer (layout : e.Layout) (sessions : e.InSession) (airs : e.out.pending.holding = false)
    (again : e.findSync now = .again e') : e'.roundsLeft < e.roundsLeft := by
  unfold findSync at again
  split at again
  · split at again
    · contradiction
    · next s cursor =>
      split at again
      · obtain rfl := Search.again.inj again
        obtain ⟨x, found, -⟩ := Option.map_eq_some_iff.mp cursor
        obtain ⟨member, same⟩ := layout.entry_iff.mp found
        exact roundsLeft_passed rfl airs rfl (lt_nextSessionStart layout sessions cursor) (same ▸ layout.lower member)
          (same ▸ layout.upper member)
      · contradiction
  · split at again
    · contradiction
    · dsimp only at again
      split at again
      · contradiction
      · split at again <;> contradiction

theorem sendFrom_fewer (layout : e.Layout) (sessions : e.InSession) (connected : e.out.connected)
    (airs : e.out.pending.holding = false) (before : e.pastMark = false)
    (again : e.sendFrom now maxBytes emitted = .again e' out) : e'.roundsLeft < e.roundsLeft := by
  unfold sendFrom at again
  split at again
  · next needs =>
    have search := findSync_turns now connected airs before needs
    split at again
    · next mid found =>
      obtain ⟨rfl, -⟩ := Round.again.inj again
      exact findSync_fewer layout sessions airs found
    · contradiction
    · next mid found =>
      obtain ⟨airs', -⟩ := findSync_ready layout airs found
      rw [found] at search
      refine Nat.lt_of_lt_of_le (sendDue_fewer (Moves.layout search.moves layout)
        ((KeepsSession.of_onlyOut (Moves.onlyOut search.moves)).inSession sessions) airs' again) ?_
      exact search.roundsLeft_le layout sessions
  · exact sendDue_fewer layout sessions airs again

theorem catchUp_cases (e : Engine) :
    e.catchUp = e ∨ e.out.nextSeq < e.baseSeq ∧
      e.catchUp = { e with out := { e.out with nextSeq := e.baseSeq, needSync := true } } := by
  unfold catchUp
  split
  · next behind => exact .inr ⟨behind, rfl⟩
  · exact .inl rfl

private theorem noticeSession_cases (e : Engine) :
    e.noticeSession = e ∨ e.noticeSession = { e with out := { e.out with needSync := true } } := by
  unfold noticeSession
  split
  · split
    · exact .inr rfl
    · exact .inl rfl
  · exact .inl rfl

theorem noticed_fewer (layout : e.Layout) (sessions : e.InSession) (connected : e.out.connected)
    (airs : e.out.pending.holding = false) (before : e.pastMark = false)
    (again : e.noticeSession.sendFrom now maxBytes emitted = .again e' out) : e'.roundsLeft < e.roundsLeft := by
  rcases e.noticeSession_cases with same | same <;> rw [same] at again
  · exact sendFrom_fewer layout sessions connected airs before again
  · have only : OnlyOut e { e with out := { e.out with needSync := true } } := rfl
    exact sendFrom_fewer (e := { e with out := { e.out with needSync := true } })
      (only.layout layout layout.cursor layout.mark) ((KeepsSession.of_onlyOut only).inSession sessions) connected airs
      before again

theorem advance_fewer (layout : e.Layout) (sessions : e.InSession) (connected : e.out.connected)
    (airs : e.out.pending.holding = false) (again : e.advance now maxBytes emitted = .again e' out) :
    e'.roundsLeft < e.roundsLeft := by
  unfold advance at again
  dsimp only at again
  split at again
  · contradiction
  · next before =>
    have before : e.catchUp.pastMark = false := by simpa using before
    rcases e.catchUp_cases with same | ⟨behind, same⟩
    · rw [same] at again before
      exact noticed_fewer layout sessions connected airs before again
    · have move : Move now e e.catchUp [] := same ▸ .caughtUp connected airs behind
      have only := move.onlyOut
      refine Nat.lt_of_lt_of_le (noticed_fewer (move.layout layout) ((KeepsSession.of_onlyOut only).inSession sessions)
        ?_ ?_ before again) ((move.turn airs).roundsLeft_le layout sessions)
      · rwa [same]
      · rwa [same]

theorem pollRound_fewer (layout : e.Layout) (sessions : e.InSession) (connected : e.out.connected)
    (again : e.pollRound now maxBytes emitted = .again e' out) : e'.roundsLeft < e.roundsLeft := by
  unfold pollRound at again
  split at again
  · contradiction
  · contradiction
  · next fromSeq delay pending =>
    have airs : e.out.pending.holding = false := by rw [pending]; rfl
    split at again
    · split at again
      · obtain ⟨rfl, -⟩ := Round.again.inj again
        have none : (e.holdReplay now fromSeq delay).roundsLeft = 0 := if_pos rfl
        rw [none, roundsLeft_airs airs]
        exact Nat.succ_pos _
      · contradiction
    · exact advance_fewer layout sessions connected airs again
  · next notDump notHold notReplay =>
    refine advance_fewer layout sessions connected ?_ again
    cases pending : e.out.pending with
    | dump => exact absurd pending (notDump _ _ _ _)
    | hold => exact absurd pending (notHold _ _)
    | none | goLiveNow | afterAir | reduce | mask | replay => rfl

/-- More rounds than are left change nothing. -/
theorem pollLoop_enough (layout : e.Layout) (sessions : e.InSession) (connected : e.out.connected)
    (enough : e.roundsLeft < fuel) (more : fuel ≤ fuel') :
    e.pollLoop now maxBytes fuel' emitted = e.pollLoop now maxBytes fuel emitted := by
  induction fuel generalizing fuel' e emitted with
  | zero => exact absurd enough (Nat.not_lt_zero _)
  | succ fuel ih =>
    obtain ⟨fuel', rfl⟩ := Nat.exists_eq_succ_of_ne_zero (Nat.ne_of_gt (Nat.lt_of_lt_of_le (Nat.succ_pos fuel) more))
    have turns := pollRound_turns now maxBytes emitted layout connected
    rw [pollLoop, pollLoop]
    cases ended : e.pollRound now maxBytes emitted with
    | stop => rfl
    | again mid sent =>
      rw [ended] at turns
      have fewer := pollRound_fewer layout sessions connected ended
      have rest := @ih (emitted + payloadBytes sent) fuel' mid (Moves.layout turns.moves layout)
        ((KeepsSession.of_onlyOut (Moves.onlyOut turns.moves)).inSession sessions)
        ((Moves.connected turns.moves).trans connected) (Nat.lt_of_lt_of_le fewer (Nat.le_of_lt_succ enough))
        (Nat.le_of_succ_le_succ more)
      dsimp only
      rw [show pollLoop now maxBytes fuel' (emitted + payloadBytes sent) mid = _ from rest]

/-- The rounds a poll is given are enough: with more of them it does the same. -/
theorem poll_ends (config : EngineConfig) (ops : List Op) (now maxBytes : ℕ) (more : fuel' ≤ fuel) :
    let e := (((Engine.new config).after ops).evict now).runPending now
    e.out.connected → e.pollFuel ≤ fuel' → e.pollLoop now maxBytes fuel 0 = e.pollLoop now maxBytes fuel' 0 := by
  intro e connected enough
  have layout := (Sound.reached config ops).layout
  have moves := runPending_moves now (((Engine.new config).after ops).evict now)
  have evicted := evict_layout layout now
  have sessions := (evict_keepsSession layout now).inSession (inSession_reached config ops)
  exact pollLoop_enough (Moves.layout moves evicted)
    ((KeepsSession.of_onlyOut (Moves.onlyOut moves)).inSession sessions)
    connected (Nat.lt_of_lt_of_le (roundsLeft_lt_pollFuel (Moves.layout moves evicted)) enough) more

end Engine

end StreamDelay
