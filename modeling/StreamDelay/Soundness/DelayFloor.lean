import Mathlib.Tactic.Common
import StreamDelay.Proofs.Goal

/-! # The delay floor

With nothing pending but a reduction, and no shortage reported, what a poll sends was received at
least the target delay before. The engine keeps to it over every run, as long as nothing leaves it
behind a longer delay than it airs with: a dump at the end of a broadcast or a refused one, a hold
the end mark ends, a mask whose anchor is gone.
-/

namespace StreamDelay

open Foundations

/-- The operation asks for something else to air. -/
def Op.commands : Op → Bool
  | .command .. | .dumpAfter .. => true
  | _ => false

namespace Engine

/-- The operation does not silently leave the output with a delay below the target. -/
structure KeepsFloor (e : Engine) (op : Op) : Prop where
  /-- A pending change given up left the delay at the target at least. -/
  resumes : ∀ now mid, e.resumed op = some (now, mid) → mid.Secure now mid.out.target
  /-- So did a dump before the start or at the end of a broadcast. -/
  ending : op.dumps = true → e.canDump = true →
    e.out.started = false ∨ e.dumpEnding = true → e.out.target ≤ e.out.delay
  /-- A refused dump took no notice of a shortage away. -/
  refused : ∀ now mode cover, op = .command now (.dump mode cover) → e.canDump = false →
    e.out.target ≤ e.out.goal

/-- The target is kept, or is on its way, or a shortage is reported. -/
structure Floor (e : Engine) : Prop where
  within : e.out.target ≤ e.maxDelay
  keeps : e.out.target ≤ e.out.goal ∨
    e.out.pending.settled = true ∧ (e.out.historyShort = true ∨ e.out.memoryShort = true)

variable {e e' : Engine} {now : ℕ} {out : List Sent}

namespace Floor

private theorem of_aims {d : ℕ} (aims : e.Aims d) (target : e.out.target ≤ d) : e.Floor where
  within := Nat.le_trans target aims.within
  keeps := .inl (Nat.le_trans target aims.goal)

private theorem of_zero (zero : e.out.target = 0) : e.Floor :=
  ⟨zero ▸ Nat.zero_le _, .inl (zero ▸ Nat.zero_le _)⟩

theorem aims (floor : e.Floor) (keeps : e.out.target ≤ e.out.goal) : e.Aims e.out.target :=
  ⟨Nat.le_refl _, floor.within, keeps⟩

/-- The floor depends on the target, the delay, the pending change and the notices. -/
theorem congr (floor : e.Floor) (max : e'.maxDelay = e.maxDelay)
    (target : e'.out.target = e.out.target) (delay : e'.out.delay = e.out.delay)
    (pending : e'.out.pending = e.out.pending)
    (short : e'.out.historyShort = e.out.historyShort ∧ e'.out.memoryShort = e.out.memoryShort) :
    e'.Floor where
  within := by
    rw [target, max]
    exact floor.within
  keeps := by
    have goal : e'.out.goal = e.out.goal := by simp only [Output.goal, pending, delay]
    rw [target, goal, pending, short.1, short.2]
    exact floor.keeps

end Floor

theorem Slows.floor (slows : Slows e e') (floor : e.Floor) : e'.Floor := by
  have within := floor.within
  have target : e'.out.target = e.out.target := by
    rcases slows.target with same | lowered <;> omega
  rcases Nat.eq_zero_or_pos e.out.target with zero | positive
  · exact .of_zero (target.trans zero)
  · rcases floor.keeps with keeps | ⟨settled, short⟩
    · exact .of_aims (slows.aims (floor.aims keeps)) (Nat.le_of_eq target)
    · refine ⟨?_, .inr ⟨slows.settled settled (by omega), ?_⟩⟩
      · rw [target, slows.only.maxDelay]
        exact within
      · rw [slows.historyShort, slows.memoryShort]
        exact short

/-! ## Moves -/

theorem Move.settled (move : Move now e e' out) (layout : e.Layout)
    (settled : e.out.pending.settled = true) (positive : 0 < min e.out.target e.maxDelay) :
    e'.out.pending.settled = true := by
  cases move with
  | started _ _ _ _ first => exact (slows_started layout first).settled settled positive
  | heldFrame => rwa [(showFrame_course e now _).pending]
  | sent => rwa [(sendEntry_course e).pending]
  | liveSplice pending | liveEdge pending | airedMark pending | unconfirmed pending
  | anchored pending | maskGone pending | maskDone pending | coverLost pending | covered pending
  | holdEnded pending | holdDone pending | replayDone pending | replayHeld _ pending =>
    rw [pending] at settled
    contradiction
  | reduceDone | reduceSplice => rfl
  | caughtUp | newSession | sessionSkipped | markSkipped | silenced => exact settled

/-- Moves leave the target alone. -/
theorem Moves.asked (moves : Moves now e e' out) (layout : e.Layout)
    (within : e.out.target ≤ e.maxDelay) :
    e'.out.target = e.out.target ∧ e'.maxDelay = e.maxDelay := by
  refine (Steps.preserves
    (P := fun mid => mid.Layout ∧ mid.out.target = e.out.target ∧ mid.maxDelay = e.maxDelay)
    ?_ moves ⟨layout, rfl, rfl⟩).2
  rintro s t sent move ⟨layout, target, max⟩
  refine ⟨move.layout layout, ?_, move.onlyOut.maxDelay.trans max⟩
  rcases move.target layout with same | lowered <;> omega

/-- With only a reduction pending, moves leave it at that. -/
theorem Moves.settled (moves : Moves now e e' out) (layout : e.Layout)
    (settled : e.out.pending.settled = true) (within : e.out.target ≤ e.maxDelay)
    (positive : 0 < e.out.target) : e'.out.pending.settled = true := by
  refine (Steps.preserves
    (P := fun mid => mid.Layout ∧ mid.out.pending.settled = true ∧
      mid.out.target = e.out.target ∧ mid.maxDelay = e.maxDelay)
    ?_ moves ⟨layout, settled, rfl, rfl⟩).2.1
  rintro s t sent move ⟨layout, settled, target, max⟩
  refine ⟨move.layout layout, move.settled layout settled (by omega), ?_,
    move.onlyOut.maxDelay.trans max⟩
  rcases move.target layout with same | lowered <;> omega

/-- Moves that keep the aim keep the floor. -/
theorem Moves.floor (moves : Moves now e e' out) (layout : e.Layout) (floor : e.Floor)
    (aims : 0 < e.out.target → e.Aims e.out.target → e'.Aims e.out.target) : e'.Floor := by
  obtain ⟨target, max⟩ := Moves.asked moves layout floor.within
  obtain ⟨history, memory⟩ := Moves.notices moves layout
  rcases Nat.eq_zero_or_pos e.out.target with zero | positive
  · exact .of_zero (target.trans zero)
  · rcases floor.keeps with keeps | ⟨settled, short⟩
    · exact .of_aims (aims positive (floor.aims keeps)) (Nat.le_of_eq target)
    · refine ⟨?_, .inr ⟨Moves.settled moves layout settled floor.within positive, ?_⟩⟩
      · rw [target, max]
        exact floor.within
      · rw [history, memory]
        exact short

private theorem runPending_floor (layout : e.Layout) (floor : e.Floor)
    (secure : e.Secure now e.out.target) : (e.runPending now).Floor :=
  Moves.floor (runPending_moves now e) layout floor fun positive aims =>
    (runPending_aims layout positive secure aims).1

/-! ## Operations -/

/-- Eviction keeps the floor: a delay it lowers is reported. -/
theorem evict_floor (layout : e.Layout) (coherent : e.out.Coherent) (floor : e.Floor) (now : ℕ) :
    (e.evict now).Floor := by
  obtain ⟨n, mid, trimmed, same | same⟩ := evict_trimmed layout now
  · have max : mid.maxDelay = e.maxDelay := by rw [maxDelay, trimmed.config, maxDelay]
    rw [same]
    exact floor.congr max (by rw [trimmed.out]) (by rw [trimmed.out]) (by rw [trimmed.out])
      ⟨by rw [trimmed.out], by rw [trimmed.out]⟩
  · have max : mid.maxDelay = e.maxDelay := by rw [maxDelay, trimmed.config, maxDelay]
    have coherent : mid.out.Coherent := trimmed.out ▸ coherent
    have floor : mid.Floor :=
      floor.congr max (by rw [trimmed.out]) (by rw [trimmed.out]) (by rw [trimmed.out])
        ⟨by rw [trimmed.out], by rw [trimmed.out]⟩
    rw [same]
    unfold memoryShort
    split
    · exact floor
    · dsimp only
      split
      · next idle =>
        have idle : mid.out.started = false := by simpa using idle
        refine ⟨floor.within, .inr ⟨?_, .inr rfl⟩⟩
        dsimp only
        rw [(coherent.idle idle).1]
        rfl
      · split
        · exact ⟨floor.within, .inr ⟨rfl, .inr rfl⟩⟩
        · exact ⟨floor.within, floor.keeps.imp id fun flagged => ⟨flagged.1, .inr rfl⟩⟩

private theorem outputReset_floor (within : e.out.target ≤ e.maxDelay) : e.outputReset.Floor :=
  ⟨within, .inl (Nat.le_refl _)⟩

/-- Clearing the notices of earlier commands keeps a floor that rests on none. -/
theorem clearNotices_floor (within : e.out.target ≤ e.maxDelay) (keeps : e.out.target ≤ e.out.goal)
    (cmd : Command) : (e.clearNotices cmd).Floor := by
  cases cmd <;> exact ⟨within, .inl keeps⟩

/-- A dump that is recovering recovers to the delay it is given. -/
theorem setDumpDelay_goal {r : ℕ} {p q : Pending} (dumping : p.withDumpDelay r = some q)
    (e : Engine) : (e.setDumpDelay r q).out.goal = r := by
  rcases withDumpDelay_cases dumping with ⟨fromSeq, delay, -, rfl⟩ | ⟨fromSeq, delay, -, rfl⟩ |
    ⟨delay, started, fromSeq, shown, -, rfl⟩ | ⟨m, -, -, rfl⟩ <;>
    simp only [setDumpDelay_out, Output.goal]

private theorem changeDelay_floor (layout : e.Layout) (now : ℕ) {r : ℕ} (mode : DelayMode)
    (within : r ≤ e.maxDelay) :
    (e.changeDelay now r mode).Floor ∧
      (e.changeDelay now r mode).Secure now (e.changeDelay now r mode).out.target := by
  have max := (changeDelay_inPlace layout now r mode).only.maxDelay
  rcases Nat.eq_zero_or_pos r with rfl | positive
  · have zero := changeDelay_zero now mode e
    refine ⟨.of_zero zero, ?_⟩
    rw [zero]
    exact ⟨fun _ => Nat.zero_le _, fun _ => Nat.zero_le _⟩
  · obtain ⟨target, pending, -, -, reached⟩ := changeDelay_goal now mode e positive
    refine ⟨⟨by omega, ?_⟩, ?_⟩
    · rw [target]
      exact reached.imp id fun short => ⟨short.1, .inl short.2⟩
    · rcases pending with settled | ⟨m, pending, unanchored, -⟩
      · exact .of_settled settled
      · refine .of_pending (by rw [pending]; rfl) fun m' a same => ?_
        obtain rfl := Pending.mask.inj (pending.symm.trans same)
        simp [unanchored]

private theorem setDelay_floor (layout : e.Layout) (floor : e.Floor) {ms : ℕ} {mode : DelayMode}
    (accepted : e.checkCommand (.setDelay ms mode) = none)
    (secure : ∀ p, 0 < ms → e.out.pending.withDumpDelay (ms * MS) = some p →
      (e.setDumpDelay (ms * MS) p).Secure now (ms * MS)) :
    ((e.clearNotices (.setDelay ms mode)).setDelay now ms mode).Floor := by
  have within := checkCommand_setDelay accepted
  have cleared := clearNotices_inPlace layout (.setDelay ms mode)
  have max : (e.clearNotices (.setDelay ms mode)).maxDelay = e.maxDelay := cleared.only.maxDelay
  have layout' := cleared.layout layout
  unfold setDelay
  dsimp only
  generalize ms * MS = r at within secure ⊢
  split
  · next p dumping =>
    split at dumping
    · next positive =>
      have secure := secure p positive dumping
      have changed : OnlyOut (e.setDumpDelay r p)
          ((e.clearNotices (.setDelay ms mode)).setDumpDelay r p) := rfl
      have adjusted : ((e.clearNotices (.setDelay ms mode)).setDumpDelay r p).Layout :=
        layout'.of_out layout'.cursor layout'.mark
      refine runPending_floor adjusted ⟨?_, .inl ?_⟩ ?_
      · rw [setDumpDelay_target]
        exact Nat.le_trans within (Nat.le_of_eq max.symm)
      · exact Nat.le_of_eq (by rw [setDumpDelay_goal dumping, setDumpDelay_target])
      · rw [setDumpDelay_target]
        exact secure.congr changed rfl rfl rfl
    · contradiction
  · split
    · next same =>
      -- The same mask again, which is under way: it leads to the target.
      refine clearNotices_floor floor.within ?_ (.setDelay ms mode)
      rcases floor.keeps with keeps | ⟨settled, -⟩
      · exact keeps
      · exfalso
        simp only [sameMask, Bool.and_eq_true] at same
        have masked := same.2
        replace settled : (e.clearNotices (.setDelay ms mode)).out.pending.settled = true := settled
        cases pending : (e.clearNotices (.setDelay ms mode)).out.pending <;>
          simp [pending, Pending.settled] at settled masked
    · obtain ⟨floor, secure⟩ := changeDelay_floor layout' now
        ((e.clearNotices (.setDelay ms mode)).effectiveMode mode) (max ▸ within)
      exact runPending_floor ((changeDelay_inPlace layout' now _ _).layout layout') floor secure

private theorem goLive_floor (layout : e.Layout) (now : ℕ) (when_ : GoLiveWhen) :
    ((e.goLive when_).runPending now).Floor := by
  have zero : (e.goLive when_).out.target = 0 := by
    unfold goLive
    dsimp only
    split <;> rfl
  refine runPending_floor ((goLive_inPlace layout when_).layout layout) (.of_zero zero) ?_
  rw [zero]
  exact ⟨fun _ => Nat.zero_le _, fun _ => Nat.zero_le _⟩

private theorem cancel_floor (layout : e.Layout) (floor : e.Floor) (now : ℕ)
    (secure : e.out.pending.afterDump = true → e.Secure now e.out.target) :
    (e.cancel.runPending now).Floor := by
  cases dumping : e.out.pending.afterDump with
  | true =>
    have same : e.cancel = e := by rw [cancel, if_pos dumping]
    rw [same]
    exact runPending_floor layout floor (secure dumping)
  | false =>
    obtain ⟨mid, slows, only, pending, delay, target⟩ := e.cancel_slows dumping
    have kept : mid.Floor := by
      refine ⟨?_, .inl ?_⟩
      · rw [target, only.maxDelay]
        split <;> omega
      · simp only [Output.goal, pending, target, delay]
        split <;> omega
    refine runPending_floor ((cancel_inPlace layout).layout layout) (slows.floor kept) ?_
    rcases Nat.eq_zero_or_pos e.cancel.out.target with zero | positive
    · rw [zero]
      exact ⟨fun _ => Nat.zero_le _, fun _ => Nat.zero_le _⟩
    · refine .of_settled (slows.settled (by rw [pending]; rfl) ?_)
      have within := kept.within
      rcases slows.target with same | lowered <;> omega

private theorem slateShown_floor (layout : e.Layout) (floor : e.Floor) (now change : ℕ)
    (secure : (e.slateShown now change).Secure now (e.slateShown now change).out.target) :
    ((e.slateShown now change).runPending now).Floor := by
  refine runPending_floor ((slateShown_inPlace layout now change).layout layout) ?_ secure
  unfold slateShown
  split
  · exact floor
  · split
    · next m pending =>
      split
      · refine ⟨floor.within, .inl ?_⟩
        rcases floor.keeps with keeps | ⟨settled, -⟩
        · simp only [Output.goal, pending] at keeps
          exact keeps
        · rw [pending] at settled
          contradiction
      · exact floor
    · next pending =>
      refine ⟨floor.within, .inl ?_⟩
      rcases floor.keeps with keeps | ⟨settled, -⟩
      · simp only [Output.goal, pending] at keeps
        exact keeps
      · rw [pending] at settled
        contradiction
    · exact floor

/-- An accepted dump keeps the floor, unless it ends a pending change below the target. -/
theorem dump_floor (layout : e.Layout) (coherent : e.out.Coherent)
    (within : e.out.target ≤ e.maxDelay) (now : ℕ) (mode : DelayMode) (cover : Bool)
    (ending : e.out.started = false ∨ e.dumpEnding = true → e.out.target ≤ e.out.delay) :
    ((e.dump now mode cover).1.runPending now).Floor := by
  have layout' := dump_layout layout now mode cover
  by_cases ended : e.out.started = false ∨ e.dumpEnding = true
  · obtain ⟨target, delay, pending, max⟩ := dump_ending now mode cover e ended
    have none : (e.dump now mode cover).1.out.pending = .none := by
      rcases pending with ⟨same, idle⟩ | none
      · exact same.trans (coherent.idle idle).1
      · exact none
    refine runPending_floor layout' ⟨?_, .inl ?_⟩ (.of_settled (by rw [none]; rfl))
    · rwa [target, max]
    · simp only [Output.goal, none, target, delay]
      exact ending ended
  · simp only [not_or, Bool.not_eq_false, Bool.not_eq_true] at ended
    obtain ⟨target, goal, max⟩ := dump_goal now mode cover e ended.1 ended.2
    refine runPending_floor layout' ⟨?_, .inl ?_⟩ ?_
    · rw [target, max]
      exact e.dumpDelay_within
    · exact Nat.le_of_eq (by rw [target, goal])
    · exact dump_secure now mode cover e ended.1 ended.2

private theorem command_floor (layout : e.Layout) (coherent : e.out.Coherent) (floor : e.Floor) (now : ℕ)
    (cmd : Command) (keeps : e.KeepsFloor (.command now cmd)) : (e.command now cmd).1.Floor := by
  unfold command
  split
  · exact floor
  · next accepted =>
    cases cmd with
    | slateShown change =>
      exact slateShown_floor layout floor now change (keeps.resumes now _ rfl)
    | cancel =>
      refine cancel_floor layout floor now fun dumping => keeps.resumes now e ?_
      simp [resumed, dumping]
    | goLive when_ =>
      have cleared := clearNotices_inPlace layout (.goLive when_)
      exact goLive_floor (cleared.layout layout) now when_
    | setDelay ms mode =>
      refine setDelay_floor layout floor accepted fun p positive dumping => ?_
      have secure := keeps.resumes now (e.setDumpDelay (ms * MS) p)
        (by simp [resumed, accepted, positive, dumping])
      rwa [setDumpDelay_target] at secure
    | dump mode cover =>
      have cleared := clearNotices_inPlace layout (.dump mode cover)
      have same : (e.clearNotices (.dump mode cover)).canDump = e.canDump := rfl
      unfold obey
      dsimp only
      rw [same]
      split
      · next allowed =>
        exact dump_floor (cleared.layout layout) (clearNotices_coherent coherent _) floor.within now
          mode cover fun ended => keeps.ending rfl allowed ended
      · next refused =>
        exact clearNotices_floor floor.within
          (keeps.refused now mode cover rfl (by simpa using refused)) (.dump mode cover)

private theorem dropBuffer_floor (floor : e.Floor) : e.dropBuffer.Floor :=
  floor.congr (by simp [maxDelay]) (by simp) (by simp) (by simp) (by simp)

private theorem resumeAfter_floor (floor : e.Floor) (last : Option ℕ) : (e.resumeAfter last).Floor := by
  unfold resumeAfter
  split
  · exact floor
  · exact floor.congr rfl rfl rfl rfl ⟨rfl, rfl⟩

private theorem unsend_floor (floor : e.Floor) (taken : Option ℕ) : (e.unsend taken).Floor := by
  unfold unsend
  split
  · exact floor
  · exact (resumeAfter_floor floor taken).congr rfl rfl rfl rfl ⟨rfl, rfl⟩

/-- An operation that keeps the floor, keeps it. -/
theorem step_floor (sound : e.Sound) (floor : e.Floor) {op : Op} (keeps : e.KeepsFloor op) :
    (e.step op).1.Floor := by
  obtain ⟨layout, coherent⟩ := sound
  cases op with
  | ingestStart now =>
    have out := ingestStart_out e now
    have max : (e.ingestStart now).maxDelay = e.maxDelay := by
      rw [maxDelay, ingestStart_config, maxDelay]
    dsimp only [step]
    split at out
    · exact floor.congr max (by rw [out]) (by rw [out]) (by rw [out]) ⟨by rw [out], by rw [out]⟩
    · rw [dropBuffer_out] at out
      exact floor.congr max (by rw [out]) (by rw [out]) (by rw [out]) ⟨by rw [out], by rw [out]⟩
  | ingestEnd | setKeepHistory | setRestoreAfterReconnect | cancelEnd =>
    exact floor.congr rfl rfl rfl rfl ⟨rfl, rfl⟩
  | endAfter =>
    dsimp only [step]
    cases e.lastSeq with
    | none => exact floor
    | some => exact floor.congr rfl rfl rfl rfl ⟨rfl, rfl⟩
  | ingestMetadata now payload =>
    have out := ingestMetadata_out e now payload
    refine floor.congr ?_ (by simp only [step, out]) (by simp only [step, out])
      (by simp only [step, out]) (by simp only [step, out, and_self])
    dsimp only [step, ingestMetadata]
    split
    · rfl
    · split <;> rfl
  | ingest now kind ts payload =>
    dsimp only [step]
    rcases e.ingest_cases now kind ts payload with same | ⟨session, -, -, same⟩
    · rwa [same]
    · have out := append_out e now kind ts payload session
      have appended : (e.append now kind ts payload session).Floor := by
        refine floor.congr ?_ (by rw [out]) (by rw [out]) (by rw [out]) (by simp only [out, and_self])
        unfold append
        dsimp only
        split <;> rfl
      rw [same]
      exact evict_floor (append_layout layout now kind ts payload session) (by rwa [out]) appended now
  | outputConnected now => exact (outputConnected_slows now e).floor floor
  | outputDisconnected now lastWritten =>
    exact resumeAfter_floor (e := { e with out := { e.out with connected := false } })
      (floor.congr rfl rfl rfl rfl ⟨rfl, rfl⟩) lastWritten
  | unsend taken => exact unsend_floor floor taken
  | dumpAfter now taken mode cover =>
    dsimp only [step, dumpAfter]
    split
    · next allowed =>
      have unsent := unsend_inPlace layout taken
      have can := (e.unsend_canDump taken).trans allowed
      obtain ⟨seq, headers, metadata, same⟩ := e.unsend_eq taken
      simp only [command, checkCommand, obey]
      rw [if_pos (show ((e.unsend taken).clearNotices (.dump mode cover)).canDump = true from can)]
      have cleared := clearNotices_inPlace (unsent.layout layout) (.dump mode cover)
      refine dump_floor (cleared.layout (unsent.layout layout))
        (clearNotices_coherent (unsend_coherent coherent taken) _)
        (unsend_floor floor taken).within now mode cover fun ended => ?_
      rw [same] at ended ⊢
      exact keeps.ending rfl allowed ended
    · split
      · exact floor
      · unfold refuseDump
        dsimp only
        split <;> exact floor.congr rfl rfl rfl rfl ⟨rfl, rfl⟩
  | outputReset => exact outputReset_floor floor.within
  | discard => exact outputReset_floor (dropBuffer_floor floor).within
  | restartAfterEnd =>
    have trimmed := dropBefore_trimmed layout (e.out.endMark.elim e.nextSeq (· + 1))
    refine (outputReset_floor (e := e.dropBefore _) ?_).congr rfl rfl rfl rfl ⟨rfl, rfl⟩
    rw [trimmed.out, maxDelay, trimmed.config]
    exact floor.within
  | command now cmd => exact command_floor layout coherent floor now cmd keeps
  | pollBudget now maxBytes =>
    have evicted := evict_layout layout now
    have secure := keeps.resumes now (e.evict now) rfl
    have start := evict_floor layout coherent floor now
    exact Moves.floor (pollBudget_moves evicted maxBytes) evicted start fun positive aims =>
      pollBudget_aims evicted positive secure aims maxBytes

/-! ## Until the next command -/

private theorem evict_settled (layout : e.Layout) (settled : e.out.pending.settled = true) (now : ℕ) :
    (e.evict now).out.pending.settled = true ∧ (e.evict now).out.target = e.out.target ∧
      (e.evict now).out.historyShort = e.out.historyShort := by
  obtain ⟨n, mid, trimmed, same | same⟩ := evict_trimmed layout now
  · rw [same, trimmed.out]
    exact ⟨settled, rfl, rfl⟩
  · rw [← trimmed.out] at settled ⊢
    rw [same]
    unfold memoryShort
    split
    · exact ⟨settled, rfl, rfl⟩
    · dsimp only
      split
      · exact ⟨settled, rfl, rfl⟩
      · split
        · exact ⟨rfl, rfl, rfl⟩
        · exact ⟨settled, rfl, rfl⟩

/-- With at most a reduction pending, only a dump could leave the target behind. -/
theorem keepsFloor_of_settled (layout : e.Layout) (settled : e.out.pending.settled = true) {op : Op}
    (keeps : op.dumps = false) : e.KeepsFloor op where
  resumes := by
    intro now mid resumes
    cases op with
    | pollBudget t maxBytes =>
      obtain ⟨rfl, rfl⟩ := Prod.mk.inj (Option.some.inj resumes)
      exact .of_settled (evict_settled layout settled _).1
    | command t cmd =>
      cases pending : e.out.pending with
      | none | reduce =>
        cases cmd with
        | slateShown change =>
          obtain ⟨rfl, rfl⟩ := Prod.mk.inj (Option.some.inj resumes)
          refine .of_settled ?_
          unfold slateShown
          split
          · exact settled
          · simp only [pending, Pending.settled]
        | cancel | setDelay =>
          simp [resumed, pending, Pending.afterDump, Pending.withDumpDelay] at resumes
        | goLive | dump => contradiction
      | goLiveNow | afterAir | mask | dump | hold | replay =>
        rw [pending] at settled
        contradiction
    | _ => contradiction
  ending := by
    intro dumps
    rw [keeps] at dumps
    contradiction
  refused := by
    rintro now mode cover rfl
    contradiction

private theorem dumps_of_commands {op : Op} (quiet : op.commands = false) : op.dumps = false := by
  cases op <;> first | rfl | contradiction

/-- What is not a command leaves the target alone, and at most a reduction pending. -/
theorem step_settled (sound : e.Sound) (within : e.out.target ≤ e.maxDelay)
    (positive : 0 < e.out.target) (settled : e.out.pending.settled = true) {op : Op}
    (quiet : op.commands = false) :
    (e.step op).1.out.pending.settled = true ∧ (e.step op).1.out.target = e.out.target ∧
      ((e.step op).1.out.historyShort = true → e.out.historyShort = true) := by
  have layout := sound.layout
  have same {out : Output} (pending : out.pending = e.out.pending)
      (target : out.target = e.out.target) (history : out.historyShort = e.out.historyShort) :
      out.pending.settled = true ∧ out.target = e.out.target ∧
        (out.historyShort = true → e.out.historyShort = true) := by
    rw [pending, target, history]
    exact ⟨settled, rfl, id⟩
  have reset {mid : Engine} (target : mid.out.target = e.out.target) :
      mid.outputReset.out.pending.settled = true ∧ mid.outputReset.out.target = e.out.target ∧
        (mid.outputReset.out.historyShort = true → e.out.historyShort = true) := by
    refine ⟨rfl, target, fun history => ?_⟩
    contradiction
  cases op with
  | command | dumpAfter => contradiction
  | ingestStart now =>
    have out := ingestStart_out e now
    dsimp only [step]
    split at out
    · rw [out]
      exact same rfl rfl rfl
    · rw [out, dropBuffer_out]
      exact same rfl rfl rfl
  | ingestEnd | setKeepHistory | setRestoreAfterReconnect | cancelEnd => exact same rfl rfl rfl
  | endAfter =>
    dsimp only [step]
    cases e.lastSeq <;> exact same rfl rfl rfl
  | ingestMetadata now payload =>
    dsimp only [step]
    rw [ingestMetadata_out]
    exact same rfl rfl rfl
  | ingest now kind ts payload =>
    dsimp only [step]
    rcases e.ingest_cases now kind ts payload with unchanged | ⟨session, -, -, added⟩
    · rw [unchanged]
      exact same rfl rfl rfl
    · have out := append_out e now kind ts payload session
      obtain ⟨settled', target, history⟩ := evict_settled
        (append_layout layout now kind ts payload session) (by rwa [out]) now
      rw [added, target, history, out]
      exact ⟨settled', rfl, id⟩
  | outputConnected now =>
    have slows := outputConnected_slows now e
    refine ⟨slows.settled settled (by omega), ?_, fun history => ?_⟩
    · rcases slows.target with same | lowered
      · exact same
      · exact lowered.trans (Nat.min_eq_left within)
    · exact slows.historyShort.symm.trans history
  | outputDisconnected now lastWritten =>
    obtain ⟨seq, resumed, -⟩ :=
      resumeAfter_eq lastWritten { e with out := { e.out with connected := false } }
    dsimp only [step, outputDisconnected]
    rw [resumed]
    exact same rfl rfl rfl
  | unsend taken =>
    obtain ⟨seq, headers, metadata, unsent⟩ := e.unsend_eq taken
    dsimp only [step]
    rw [unsent]
    exact same rfl rfl rfl
  | outputReset => exact reset rfl
  | discard => exact reset (by rw [dropBuffer_out])
  | restartAfterEnd =>
    have trimmed := dropBefore_trimmed layout (e.out.endMark.elim e.nextSeq (· + 1))
    have target : (e.dropBefore (e.out.endMark.elim e.nextSeq (· + 1))).out.target = e.out.target := by
      rw [trimmed.out]
    refine ⟨rfl, target, fun history => ?_⟩
    contradiction
  | pollBudget now maxBytes =>
    have evicted := evict_layout layout now
    have moves := pollBudget_moves evicted maxBytes
    obtain ⟨settled', target, history⟩ := evict_settled layout settled now
    have max := evict_maxDelay layout now
    have target' := (Moves.asked moves evicted (by omega)).1
    have history' := (Moves.notices moves evicted).1
    refine ⟨Moves.settled moves evicted settled' (by omega) (by omega), target'.trans target, ?_⟩
    intro short
    exact (history'.trans history).symm.trans short

/-- Every buffered message a poll sends has been received by then. -/
theorem poll_past (layout : e.Layout) (now maxBytes : ℕ) :
    ∀ s ∈ (e.pollBudget now maxBytes).2.1, ∀ x, s.entry? = some x → x.arrival + 0 ≤ now := by
  have evicted := evict_layout layout now
  refine Steps.emits (P := Layout) (Q := fun s => ∀ x, s.entry? = some x → x.arrival + 0 ≤ now)
    (fun _ _ _ move layout => move.layout layout) ?_ (pollBudget_moves evicted maxBytes) evicted
  intro s t sent move layout m member x buffered
  have due := (move.sends member buffered).2.1
  omega

/-- A poll that reports no shortage of memory sends what waited out the target. -/
theorem poll_waited (layout : e.Layout) (floor : e.Floor) (positive : 0 < e.out.target)
    (settled : e.out.pending.settled = true) (history : e.out.historyShort = false) {maxBytes : ℕ}
    (memory : (e.pollBudget now maxBytes).1.out.memoryShort = false) :
    ∀ s ∈ (e.pollBudget now maxBytes).2.1, ∀ x, s.entry? = some x →
      x.arrival + e.out.target ≤ now := by
  have evicted := evict_layout layout now
  have moves := pollBudget_moves evicted maxBytes
  have target := (evict_settled layout settled now).2.1
  have memory' := (Moves.notices moves evicted).2
  -- Nothing was reported, so the eviction before it left the output alone.
  have out : (e.evict now).out = e.out := by
    rcases evict_cases layout now with ⟨n, trimmed⟩ | short
    · exact trimmed.out
    · rw [memory', short] at memory
      contradiction
  have short : e.out.memoryShort = false := by rwa [memory', out] at memory
  have keeps : e.out.target ≤ e.out.goal := by
    rcases floor.keeps with keeps | ⟨-, flagged | flagged⟩
    · exact keeps
    · rw [history] at flagged
      contradiction
    · rw [short] at flagged
      contradiction
  have aims : (e.evict now).Aims e.out.target :=
    (floor.aims keeps).congr (evict_maxDelay layout now) out
  refine Steps.emits
    (P := fun mid => mid.Layout ∧ mid.Aims e.out.target ∧ mid.out.pending.settled = true ∧
      mid.out.target = e.out.target)
    (Q := fun s => ∀ x, s.entry? = some x → x.arrival + e.out.target ≤ now) ?_ ?_ moves
    ⟨evicted, aims, by rwa [out], target⟩
  · rintro s t sent move ⟨layout, aims, settled, target⟩
    have within := aims.within
    have secure : s.Secure now e.out.target := .of_settled settled
    refine ⟨move.layout layout, ?_, move.settled layout settled (by omega), ?_⟩
    · exact move.aims layout positive (fun ends _ => secure.ends ends) secure.gone aims
    · rcases move.target layout with same | lowered <;> omega
  · rintro s t sent move ⟨layout, aims, settled, -⟩ m member x buffered
    have due := (move.sends member buffered).2.1
    have delay := aims.delay settled
    omega

/-! ## Runs -/

/-- Every run whose steps keep the floor reaches states that have it. -/
theorem Floor.reached (config : EngineConfig) {ops : List Op}
    (kept : Machine.Along step KeepsFloor (Engine.new config) ops) :
    ((Engine.new config).after ops).Floor :=
  (Machine.preserves_along step (P := fun e => e.Sound ∧ e.Floor)
    (fun _ op keeps both => ⟨both.1.step op, step_floor both.1 both.2 keeps⟩) kept
    ⟨.new config, .of_zero rfl⟩).2

/-- In any run whose steps up to a state keep the floor: if at most a reduction is pending there and
no shortage is reported, what a poll sends before the next command, unless the memory was found short
meanwhile, was received at least the target delay before. -/
theorem delay_floor (config : EngineConfig) (before rest : List Op) (now maxBytes : ℕ)
    (kept : Machine.Along step KeepsFloor (Engine.new config) before)
    (settled : ((Engine.new config).after before).out.pending.settled = true)
    (history : ((Engine.new config).after before).out.historyShort = false)
    (quiet : ∀ op ∈ rest, op.commands = false)
    (memory : ((((Engine.new config).after before).after rest).pollBudget now
      maxBytes).1.out.memoryShort = false) :
    ∀ s ∈ ((((Engine.new config).after before).after rest).pollBudget now maxBytes).2.1,
      ∀ x, s.entry? = some x →
        x.arrival + ((Engine.new config).after before).out.target ≤ now := by
  have sound := Sound.reached config before
  have floor := Floor.reached config kept
  generalize (Engine.new config).after before = e at sound floor settled history memory
  rcases Nat.eq_zero_or_pos e.out.target with zero | positive
  · rw [zero]
    exact poll_past (sound.after rest).layout now maxBytes
  · have reached : (e.after rest).Sound ∧ (e.after rest).Floor ∧
        (e.after rest).out.pending.settled = true ∧ (e.after rest).out.target = e.out.target ∧
        (e.after rest).out.historyShort = false := by
      refine Machine.after_preserves step
        (P := fun mid => mid.Sound ∧ mid.Floor ∧ mid.out.pending.settled = true ∧
          mid.out.target = e.out.target ∧ mid.out.historyShort = false)
        ?_ quiet ⟨sound, floor, settled, rfl, history⟩
      rintro mid op quiet ⟨sound, floor, settled, target, history⟩
      obtain ⟨settled', target', history'⟩ :=
        step_settled sound floor.within (by rwa [target]) settled quiet
      refine ⟨sound.step op, ?_, settled', target'.trans target, ?_⟩
      · exact step_floor sound floor (keepsFloor_of_settled sound.layout settled (dumps_of_commands quiet))
      · by_contra short
        have short := history' (by simpa using short)
        rw [history] at short
        contradiction
    obtain ⟨sound, floor, settled, target, history⟩ := reached
    rw [← target]
    exact poll_waited sound.layout floor (by rwa [target]) settled history memory

theorem delay_floor_waiting :
    ((((Engine.new {}).after waiting).after
        [.ingest (3 * SEC) .video 3000 keyframe]).pollBudget (5 * SEC) 1000).2.1 ≠ [] ∧
      ∀ s ∈ ((((Engine.new {}).after waiting).after
          [.ingest (3 * SEC) .video 3000 keyframe]).pollBudget (5 * SEC) 1000).2.1,
        ∀ x, s.entry? = some x → x.arrival + 2 * SEC ≤ 5 * SEC := by
  have settled (n : ℕ) (inside : n < 6) :
      ((Engine.new {}).after (waiting.take n)).out.pending.settled = true := by
    revert n
    decide +kernel
  have layout (n : ℕ) := (Sound.reached {} (waiting.take n)).layout
  have kept : Machine.Along step KeepsFloor (Engine.new {}) waiting :=
    ⟨keepsFloor_of_settled (layout 0) (settled 0 (by decide)) rfl,
      keepsFloor_of_settled (layout 1) (settled 1 (by decide)) rfl,
      keepsFloor_of_settled (layout 2) (settled 2 (by decide)) rfl,
      keepsFloor_of_settled (layout 3) (settled 3 (by decide)) rfl,
      keepsFloor_of_settled (layout 4) (settled 4 (by decide)) rfl, trivial⟩
  have target : ((Engine.new {}).after waiting).out.target = 2 * SEC := by decide +kernel
  refine ⟨by decide +kernel, ?_⟩
  rw [← target]
  exact delay_floor {} waiting [.ingest (3 * SEC) .video 3000 keyframe] (5 * SEC) 1000 kept
    (settled 5 (by decide)) (by decide +kernel) (by decide) (by decide +kernel)

/-- Nothing is reported in the state before, and yet a poll sends what it received too recently. -/
def Undercut (config : EngineConfig) (before rest : List Op) (now maxBytes : ℕ) : Prop :=
  Chronological Op.now? 0 (before ++ rest ++ [.pollBudget now maxBytes]) ∧
    ((Engine.new config).after before).out.started = true ∧
    ((Engine.new config).after before).out.pending.settled = true ∧
    ((Engine.new config).after before).out.historyShort = false ∧
    ((Engine.new config).after before).out.memoryShort = false ∧
    (∀ op ∈ rest, op.commands = false) ∧
    ∃ s ∈ ((((Engine.new config).after before).after rest).pollBudget now maxBytes).2.1,
      s.entry?.any fun x => now < x.arrival + ((Engine.new config).after before).out.target

instance (config : EngineConfig) (before rest : List Op) (now maxBytes : ℕ) :
    Decidable (Undercut config before rest now maxBytes) := inferInstanceAs (Decidable (_ ∧ _))

/-- The target is undercut when the memory turns out short before the next poll; after a dump with
the encoder away; after a refused dump takes the notice of a shortage away; when the end mark ends a
hold; and when the anchor of a mask is evicted. -/
theorem delay_floor_undercut :
    Undercut { ramCapBytes := 1000 }
        [.ingestStart 0, .outputConnected 0, .command 0 (.setDelay 10000 .rewind),
          .ingest 0 .video 0 keyframe, .ingest (5 * SEC) .video 5000 keyframe,
          .ingest (10 * SEC) .video 10000 keyframe, .pollBudget (10 * SEC) 1000]
        [.ingest (11 * SEC) .video 11000 (keyframe ++ List.replicate 595 0)] (11 * SEC) 1000 ∧
      Undercut {} (masking ++ [.ingestEnd SEC, .command SEC (.dump .mask true)])
        [.ingestStart (2 * SEC), .ingest (2 * SEC) .video 0 keyframe] (2 * SEC) 1000 ∧
      Undercut { ramCapBytes := 200 }
        [.ingestStart 0, .outputConnected 0, .command 0 (.setDelay 400 .rewind),
          .ingest 0 .video 0 keyframe, .ingest (100 * MS) .video 100 keyframe,
          .pollBudget (100 * MS) 1000, .command (100 * MS) (.dump .mask false)]
        [.ingest (200 * MS) .video 200 keyframe] (200 * MS) 1000 ∧
      Undercut {}
        (masking ++ [.command SEC (.dump .mask false), .endAfter, .pollBudget (2 * SEC) 1000])
        [.cancelEnd, .ingest (3 * SEC) .video 3000 keyframe] (3 * SEC) 1000 ∧
      Undercut { ramCapBytes := 200 }
        (masking ++ [.command 0 (.slateShown 1), .ingest (2 * SEC) .video 2000 keyframe,
          .pollBudget (2 * SEC) 1000, .ingest (4 * SEC) .video 4000 keyframe,
          .pollBudget (4 * SEC) 1000])
        [.ingest (5 * SEC) .video 5000 keyframe] (5 * SEC) 1000 :=
  ⟨by decide +kernel, by decide +kernel, by decide +kernel, by decide +kernel, by decide +kernel⟩

end Engine

end StreamDelay
