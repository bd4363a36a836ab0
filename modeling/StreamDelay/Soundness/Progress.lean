import Mathlib.Tactic.Common
import StreamDelay.Proofs.Rounds
import StreamDelay.Proofs.Timestamps
import StreamDelay.Soundness.AfterAir

/-! # The output goes on

With nothing pending, a running output gets past a buffered message that is due only by sending it, or leaving it out
for what it is, and a poll ends before the message only where it is not due yet, the budget is used up or the broadcast
ends. Only a delay that a start took over the maximum is different: the change back to the maximum may splice the
output to a later keyframe.
-/

namespace StreamDelay

open Foundations

namespace Engine

variable {e e' : Engine} {x : Entry} {op : Op} {now maxBytes emitted : ℕ} {sent : List Sent}

/-- The delay of the running output is not below the maximum, and no change is pending but one that takes it back to
that. -/
structure Over (e : Engine) : Prop where
  started : e.out.started = true
  above : e.config.maxDelayMs * MS ≤ e.out.delay
  reduces : e.out.pending = .none ∨ e.out.pending = .reduce (e.config.maxDelayMs * MS)

theorem Over.airs (excess : e.Over) : e.out.pending.holding = false := by
  rcases excess.reduces with idle | reduces
  · rw [idle]
    rfl
  · rw [reduces]
    rfl

theorem Over.same (excess : e.Over) (config : e'.config = e.config) (started : e'.out.started = true)
    (delay : e.out.delay ≤ e'.out.delay) (pending : e'.out.pending = e.out.pending) : e'.Over where
  started := started
  above := by
    rw [config]
    exact Nat.le_trans excess.above delay
  reduces := by
    rw [config, pending]
    exact excess.reduces

theorem Over.idle (config : e'.config = e.config) (started : e'.out.started = true)
    (delay : e.config.maxDelayMs * MS ≤ e'.out.delay) (idle : e'.out.pending = .none) : e'.Over :=
  ⟨started, config ▸ delay, .inl idle⟩

/-- A running output starts again at a keyframe with nothing pending, or with the delay over the maximum. -/
private theorem startAt_idle (now k arrival : ℕ) (started : e.out.started = true) :
    (e.startAt now k arrival).out.started = true ∧
      ((e.startAt now k arrival).out.pending = e.out.pending ∨ (e.startAt now k arrival).Over) := by
  have running := spliceTo_started k (max e.out.delay (now - arrival)) started
  have pending := spliceTo_pending k (max e.out.delay (now - arrival)) e
  rcases e.startAt_cases now k arrival with same | ⟨-, fresh, -⟩ | ⟨-, above, same⟩
  · rw [same]
    exact ⟨running, .inl pending⟩
  · rw [started] at fresh
    contradiction
  · rw [same]
    generalize e.spliceTo k (max e.out.delay (now - arrival)) = spliced at running above
    exact ⟨running, .inr ⟨running, Nat.le_of_lt (Nat.lt_of_le_of_lt (Nat.le_add_right ..) above), .inr rfl⟩⟩

private theorem startAt_delay {k : ℕ} {y : Entry} (found : e.entry k = some y) (now arrival : ℕ) :
    (e.startAt now k arrival).out.delay = max e.out.delay (now - arrival) := by
  have spliced : (e.spliceTo k (max e.out.delay (now - arrival))).out.delay = _ := spliceTo_delay found
  rcases e.startAt_cases now k arrival with same | ⟨-, -, -, same⟩ | ⟨-, -, same⟩
  · rw [same, spliced]
  · rw [same]
    exact spliced
  · rw [same]
    exact spliced

private theorem Move.over (move : Move now e e' sent) (layout : e.Layout) (excess : e.Over) : e'.Over := by
  have reduces {p : Pending} (pending : e.out.pending = p) : p = .none ∨ p = .reduce (e.config.maxDelayMs * MS) :=
    pending ▸ excess.reduces
  cases move with
  | liveSplice pending | liveEdge pending | airedMark pending | unconfirmed pending | anchored pending
  | maskGone pending | maskDone pending | coverLost pending | covered pending | holdEnded pending
  | holdDone pending | replayDone pending | replayHeld _ pending =>
    rcases reduces pending with same | same <;> contradiction
  | reduceDone => exact ⟨excess.started, excess.above, .inl rfl⟩
  | @reduceSplice delay k pending above newest ahead =>
    obtain rfl : delay = e.config.maxDelayMs * MS := by
      rcases reduces pending with same | same
      · contradiction
      · exact Pending.reduce.inj same
    obtain ⟨member, t, by_, y, found, arrived⟩ := newestSyncArrivedBy_mem newest
    have since := checkedSub_eq_some.mp by_
    have config : (e.spliceTo k (now - e.arrivalOr k now)).config = e.config := (spliceTo_onlyOut ..).config
    have running := spliceTo_started k (now - e.arrivalOr k now) excess.started
    have spliced : (e.spliceTo k (now - e.arrivalOr k now)).out.delay = now - y.arrival := by
      rw [spliceTo_delay found, show e.arrivalOr k now = y.arrival by simp only [arrivalOr, found, Option.elim_some]]
    generalize e.spliceTo k (now - e.arrivalOr k now) = next at config running spliced
    show next.finishPending.Over
    refine .idle config running ?_ rfl
    have delay : next.finishPending.out.delay = now - y.arrival := spliced
    omega
  | heldFrame _ holding =>
    rw [excess.airs] at holding
    contradiction
  | caughtUp | newSession | sessionSkipped | markSkipped | silenced =>
    exact excess.same rfl excess.started (Nat.le_refl _) rfl
  | @started k _ _ _ _ first =>
    obtain ⟨y, found, -⟩ := layout.sync_entry (mem_candidates.mp (startKeyframe_mem first)).1
    obtain ⟨running, pending | above⟩ := startAt_idle now k (e.arrivalOr k now) excess.started
    · refine excess.same (startAt_onlyOut now k _ e).config running ?_ pending
      rw [startAt_delay found]
      exact Nat.le_max_left ..
    · exact above
  | sent =>
    have course := sendEntry_course e
    exact excess.same course.onlyOut.config (course.started.trans excess.started) (Nat.le_of_eq course.delay.symm)
      course.pending

private theorem Moves.over (moves : Moves now e e' sent) (layout : e.Layout) (excess : e.Over) : e'.Over := by
  have kept := Steps.preserves (P := fun mid => mid.Layout ∧ mid.Over)
    (fun _ _ _ move ⟨layout, excess⟩ => ⟨move.layout layout, move.over layout excess⟩) moves ⟨layout, excess⟩
  exact kept.2

/-! ## A message that is due is sent -/

/-- Nothing is pending, and the running output comes to `x` before anything after it. -/
structure ComesTo (e : Engine) (x : Entry) : Prop where
  started : e.out.started = true
  idle : e.out.pending = .none
  due : e.Due x

/-- Why a poll at `now` ends before `x`. -/
def Excused (now maxBytes emitted : ℕ) (e : Engine) (x : Entry) : Prop :=
  now < x.arrival + e.out.delay ∨ maxBytes ≤ emitted ∨ e.out.endMark.isSome = true

/-- A round gets past `x` only by sending it, or leaving it out for what it is, unless the delay gets over the
maximum. -/
def Meets (now maxBytes emitted : ℕ) (x : Entry) : Round → Prop
  | .again e sent => Passed x (e, sent) ∨ e.ComesTo x ∨ e.Over
  | .stop e sent _ => Passed x (e, sent) ∨ e.ComesTo x ∧ Excused now maxBytes emitted e x ∨ e.Over

theorem ComesTo.airs (comes : e.ComesTo x) : e.out.pending.holding = false := by
  rw [comes.idle]
  rfl

private theorem runPending_idle (idle : e.out.pending = .none) : e.runPending now = e := by
  simp only [runPending, idle]

/-- What is buffered before `x` arrived before it. -/
private theorem ComesTo.arrived {t : ℕ} (comes : e.ComesTo x) (timed : Timed t e) {w : Entry} (member : w ∈ e.ring)
    (before : w.seq ≤ x.seq) : w.arrival ≤ x.arrival := timed.ordered w member x comes.due.member before

private theorem sendDue_meets {t : ℕ} (layout : e.Layout) (sessions : e.InSession) (timed : Timed t e)
    (comes : e.ComesTo x) (above : e.baseSeq ≤ e.out.nextSeq) (synced : e.out.needSync = false)
    (session : ∀ w cs, e.entry e.out.nextSeq = some w → e.out.currentSession = some cs → w.session = cs) :
    Meets now maxBytes emitted x (e.sendDue now maxBytes emitted) := by
  have reach := comes.due.ahead
  have bound := layout.upper comes.due.member
  unfold sendDue
  split
  · next none =>
    obtain ⟨w, found⟩ := layout.entry_of_lt above (Nat.lt_of_le_of_lt reach bound)
    rw [none] at found
    contradiction
  · next w found =>
    obtain ⟨held, cursor⟩ := layout.entry_iff.mp found
    have arrived := comes.arrived timed held (cursor ▸ reach)
    dsimp only
    split
    · next early => exact .inr (.inl ⟨comes, .inl (by omega)⟩)
    · split
      · next full => exact .inr (.inl ⟨comes, .inr (.inl full)⟩)
      · split
        · next silenced =>
          simp [muted, comes.idle, Pending.mutes] at silenced
        · have course := sendEntry_course e
          have idle : e.sendEntry.1.out.pending = .none := course.pending.trans comes.idle
          show Passed x (e.sendEntry.1.runPending now, e.sendEntry.2) ∨ _
          rw [runPending_idle idle]
          by_cases here : w = x
          · subst here
            exact .inl (sendEntry_passes found cursor.symm)
          · have only : OnlyOut e e.sendEntry.1 := (show OnlyOut e (e.pass.tally _) from rfl).trans course.onlyOut
            refine .inr (.inl ⟨course.started.trans comes.started, idle, ?_⟩)
            exact comes.due.pass layout sessions found here (fun cs => session w cs found) only.ring course.nextSeq
              (course.needSync.trans synced) (course.out (·.currentSession))

/-- A search leaves nothing pending, or the delay over the maximum. -/
theorem ComesTo.findSync (comes : e.ComesTo x) (layout : e.Layout) (sessions : e.InSession)
    (connected : e.out.connected = true) (needs : e.out.needSync = true) :
    (Search.engine (e.findSync now)).ComesTo x ∨ (Search.engine (e.findSync now)).Over := by
  have due : (Search.engine (e.findSync now)).Due x :=
    comes.due.findSync layout sessions comes.started connected needs
  have idle : (Search.engine (e.findSync now)).out.started = true ∧
      ((Search.engine (e.findSync now)).out.pending = .none ∨ (Search.engine (e.findSync now)).Over) := by
    have start (k arrival : ℕ) := comes.idle ▸ startAt_idle now k arrival comes.started
    unfold Engine.findSync
    split
    · split
      · exact ⟨comes.started, .inl comes.idle⟩
      · split <;> exact ⟨comes.started, .inl comes.idle⟩
    · split
      · exact ⟨comes.started, .inl comes.idle⟩
      · dsimp only
        split
        · exact ⟨comes.started, .inl comes.idle⟩
        · split <;> exact start _ _
  exact idle.2.imp_left fun none => ⟨idle.1, none, due⟩

/-- A search ends the poll where nothing that is due is ahead. -/
private theorem findSync_stops {t : ℕ} (layout : e.Layout) (sessions : e.InSession) (timed : Timed t e)
    (comes : e.ComesTo x) (connected : e.out.connected = true) (needs : e.out.needSync = true)
    (above : e.baseSeq ≤ e.out.nextSeq)
    {wake : Option ℕ} (stop : e.findSync now = .stop e' wake) : Excused now maxBytes emitted e' x := by
  obtain ⟨member, ahead, y, buffered, sync, same, before, reach⟩ := comes.due
  have reach : e.out.nextSeq ≤ y.seq := by
    rcases reach with ahead | down | ⟨synced, -⟩
    · exact ahead
    · rw [connected] at down
      contradiction
    · rw [needs] at synced
      contradiction
  unfold findSync at stop
  split at stop
  · next nothing =>
    obtain ⟨w, found⟩ := layout.entry_of_lt above (Nat.lt_of_le_of_lt ahead (layout.upper member))
    obtain ⟨held, cursor⟩ := layout.entry_iff.mp found
    have session : e.cursorSession = some w.session := by rw [cursorSession, found, Option.map_some]
    rw [session] at stop
    dsimp only at stop
    split at stop
    · contradiction
    · next last =>
      -- The cursor is in the newest session, which is that of the keyframe ahead.
      have newest := (sessions.newest w.session (not_not.mp last)).2 y buffered
      have order := sessions.ordered w held y buffered (by omega)
      have candidate : y.seq ∈ e.candidates := by
        refine mem_candidates.mpr ⟨layout.mem_syncs.mpr ⟨y, buffered, sync, rfl⟩, reach, ?_⟩
        rw [layout.entry_mem buffered, session, Option.map_some, Option.some.injEq]
        omega
      unfold startKeyframe at nothing
      dsimp only at nothing
      rw [if_pos comes.started, List.head?_eq_none_iff] at nothing
      rw [nothing] at candidate
      contradiction
  · next k first =>
    have kBefore := startKeyframe_before layout sessions comes.started first buffered sync reach
    split at stop
    · next m mark =>
      obtain ⟨rfl, -⟩ := Search.stop.inj stop
      obtain ⟨known, -⟩ := Option.filter_eq_some_iff.mp mark
      exact .inr (.inr (known ▸ rfl))
    · dsimp only at stop
      split at stop
      · next early =>
        obtain ⟨rfl, -⟩ := Search.stop.inj stop
        obtain ⟨z, found, held, -, number⟩ := layout.sync_entry (mem_candidates.mp (startKeyframe_mem first)).1
        have arrived := comes.arrived timed held (by omega)
        rw [show e.arrivalOr k now = z.arrival by simp only [arrivalOr, found, Option.elim_some]] at early
        exact .inl (by omega)
      · split at stop
        · next past =>
          obtain ⟨rfl, -⟩ := Search.stop.inj stop
          obtain ⟨m, mark, -⟩ := (Option.any_eq_true _ _).mp past
          exact .inr (.inr (mark ▸ rfl))
        · contradiction

/-- The output starts at a keyframe from the cursor on. -/
private theorem findSync_forward (ready : e.findSync now = .ready e') : e.out.nextSeq ≤ e'.out.nextSeq := by
  unfold findSync at ready
  split at ready
  · split at ready
    · contradiction
    · split at ready <;> contradiction
  · next k first =>
    split at ready
    · contradiction
    · dsimp only at ready
      split at ready
      · contradiction
      · split at ready
        · contradiction
        · obtain rfl := Search.ready.inj ready
          rw [startAt_nextSeq]
          exact spliceTo_forward (mem_candidates.mp (startKeyframe_mem first)).2.1

private theorem Over.meets {round : Round} (excess : (Round.engine round).Over) :
    Meets now maxBytes emitted x round := by
  cases round with
  | again => exact .inr (.inr excess)
  | stop => exact .inr (.inr excess)

private theorem sendFrom_meets {t : ℕ} (layout : e.Layout) (sessions : e.InSession) (timed : Timed t e)
    (comes : e.ComesTo x) (connected : e.out.connected = true) (open_ : e.pastMark = false)
    (above : e.baseSeq ≤ e.out.nextSeq)
    (session : e.out.needSync = false → ∀ w cs, e.entry e.out.nextSeq = some w → e.out.currentSession = some cs →
      w.session = cs) : Meets now maxBytes emitted x (e.sendFrom now maxBytes emitted) := by
  unfold sendFrom
  split
  · next needs =>
    have search := findSync_turns now connected comes.airs open_ needs
    have kept : (Search.engine (e.findSync now)).ComesTo x ∨ (Search.engine (e.findSync now)).Over :=
      comes.findSync layout sessions connected needs
    split
    · next next found =>
      rw [found] at kept
      exact .inr kept
    · next next wake found =>
      rw [found] at kept
      have excused : Excused now maxBytes emitted next x :=
        findSync_stops layout sessions timed comes connected needs above found
      exact .inr (kept.imp_left fun comes => ⟨comes, excused⟩)
    · next next found =>
      obtain ⟨airs, before, synced, session'⟩ := findSync_ready layout comes.airs found
      rw [found] at search kept
      have layout' := Moves.layout search.moves layout
      have only := Moves.onlyOut search.moves
      rcases kept with comes' | excess
      · have timed' : Timed t next := timed.of_ring fun y member => only.ring ▸ member
        exact sendDue_meets layout' ((KeepsSession.of_onlyOut only).inSession sessions) timed' comes'
          (only.baseSeq ▸ Nat.le_trans above (findSync_forward found)) synced session'
      · have turns : Turns now next (Round.engine (next.sendDue now maxBytes emitted)) _ :=
          sendDue_turns ((Moves.connected search.moves).trans connected) airs before synced session'
        exact (Moves.over turns.moves layout' excess).meets
  · next synced =>
    have synced : e.out.needSync = false := by simpa using synced
    exact sendDue_meets layout sessions timed comes above synced (session synced)

private theorem advance_meets {t : ℕ} (layout : e.Layout) (sessions : e.InSession) (timed : Timed t e)
    (comes : e.ComesTo x) (connected : e.out.connected = true) :
    Meets now maxBytes emitted x (e.advance now maxBytes emitted) := by
  have caught : e.catchUp.Layout ∧ e.catchUp.InSession ∧ Timed t e.catchUp ∧ e.catchUp.ComesTo x ∧
      e.catchUp.out.connected = true ∧ e.catchUp.baseSeq ≤ e.catchUp.out.nextSeq := by
    have due := comes.due.catchUp layout
    rcases e.catchUp_cases with same | ⟨behind, same⟩
    · rw [same]
      refine ⟨layout, sessions, timed, comes, connected, ?_⟩
      by_contra below
      have moved : e.catchUp.out.nextSeq = e.baseSeq := by
        unfold catchUp
        rw [if_pos (Nat.lt_of_not_le below)]
      rw [same] at moved
      exact below (Nat.le_of_eq moved.symm)
    · have next := layout.next
      rw [same] at due ⊢
      exact ⟨layout.of_out (by dsimp only; omega) layout.mark, (KeepsSession.of_onlyOut (by rfl)).inSession sessions,
        ⟨timed.ordered, timed.past⟩, ⟨comes.started, comes.idle, due⟩, connected, Nat.le_refl _⟩
  unfold advance
  dsimp only
  generalize e.catchUp = e at caught ⊢
  obtain ⟨layout, sessions, timed, comes, connected, above⟩ := caught
  split
  · next past =>
    obtain ⟨m, mark, -⟩ := (Option.any_eq_true _ _).mp past
    exact .inr (.inl ⟨comes, .inr (.inr (mark ▸ rfl))⟩)
  · next open_ =>
    have open_ : e.pastMark = false := by simpa using open_
    have due := comes.due.noticeSession layout sessions connected
    obtain ⟨same, session⟩ := e.noticeSession_spec
    rcases same with same | same
    · rw [same] at session ⊢
      exact sendFrom_meets layout sessions timed comes connected open_ above session
    · rw [same] at due session ⊢
      exact sendFrom_meets (layout.of_out layout.cursor layout.mark)
        ((KeepsSession.of_onlyOut (by rfl)).inSession sessions) ⟨timed.ordered, timed.past⟩
          ⟨comes.started, comes.idle, due⟩ connected open_ above session

private theorem pollRound_meets {t : ℕ} (layout : e.Layout) (sessions : e.InSession) (timed : Timed t e)
    (comes : e.ComesTo x) (connected : e.out.connected = true) :
    Meets now maxBytes emitted x (e.pollRound now maxBytes emitted) := by
  unfold pollRound
  simp only [comes.idle]
  exact advance_meets layout sessions timed comes connected

/-- The rounds of a poll get past `x` only by sending it, or leaving it out for what it is; and they end before it only
where it is not due yet, the budget is used up or the broadcast ends. -/
theorem pollLoop_meets {fuel t : ℕ} (layout : e.Layout) (sessions : e.InSession) (timed : Timed t e)
    (comes : e.ComesTo x) (connected : e.out.connected = true) (enough : e.roundsLeft < fuel) :
    let last := (e.pollLoop now maxBytes fuel emitted).1
    (∃ round ∈ e.pollRounds now maxBytes fuel emitted, Passed x round) ∨
      last.ComesTo x ∧
        Excused now maxBytes (emitted + payloadBytes (e.pollLoop now maxBytes fuel emitted).2.1) last x ∨
      last.Over := by
  induction fuel generalizing e emitted with
  | zero => exact absurd enough (Nat.not_lt_zero _)
  | succ fuel ih =>
    have round : Meets now maxBytes emitted x (e.pollRound now maxBytes emitted) :=
      pollRound_meets layout sessions timed comes connected
    have turns := pollRound_turns now maxBytes emitted layout connected
    unfold pollLoop pollRounds
    cases ended : e.pollRound now maxBytes emitted with
    | stop next sent wake =>
      rw [ended] at round
      rcases round with passed | ⟨comes, excused⟩ | excess
      · exact .inl ⟨_, List.mem_singleton.mpr rfl, passed⟩
      · refine .inr (.inl ⟨comes, ?_⟩)
        rcases excused with early | full | mark
        · exact .inl early
        · exact .inr (.inl (Nat.le_trans full (Nat.le_add_right ..)))
        · exact .inr (.inr mark)
      · exact .inr (.inr excess)
    | again next sent =>
      rw [ended] at round turns
      have fewer := pollRound_fewer layout sessions connected ended
      have layout' := Moves.layout turns.moves layout
      have only := Moves.onlyOut turns.moves
      have connected' := (Moves.connected turns.moves).trans connected
      rcases round with passed | comes' | excess
      · exact .inl ⟨_, List.mem_cons_self .., passed⟩
      · have timed' : Timed t next := timed.of_ring fun y member => only.ring ▸ member
        have rest := @ih next (emitted + payloadBytes sent) layout'
          ((KeepsSession.of_onlyOut only).inSession sessions) timed' comes' connected'
            (Nat.lt_of_lt_of_le fewer (Nat.le_of_lt_succ enough))
        rcases rest with ⟨r, member, passed⟩ | ⟨comes, excused⟩ | excess
        · exact .inl ⟨r, List.mem_cons_of_mem _ member, passed⟩
        · refine .inr (.inl ⟨comes, ?_⟩)
          rcases excused with early | full | mark
          · exact .inl early
          · refine .inr (.inl (Nat.le_trans full (Nat.le_of_eq ?_)))
            show _ = emitted + payloadBytes (sent ++ _)
            rw [payloadBytes_append, ← Nat.add_assoc]
          · exact .inr (.inr mark)
        · exact .inr (.inr excess)
      · have later : Turns now next (next.pollLoop now maxBytes fuel (emitted + payloadBytes sent)).1 _ :=
          pollLoop_turns layout' connected'
        exact .inr (.inr (Moves.over later.moves layout' excess))

/-! ## Operations and runs -/

/-- The operation carries on, the memory limit takes nothing that is still to air, and the delay stays below the
maximum with no change of it pending. -/
def Steady (e : Engine) (op : Op) : Prop :=
  op.carriesOn = true ∧ e.spares op = true ∧ (e.step op).1.out.pending = .none ∧
    (e.step op).1.out.delay < (e.step op).1.config.maxDelayMs * MS

instance : Decidable (Steady e op) := inferInstanceAs (Decidable (_ ∧ _))

theorem step_meets {t : ℕ} (regular : Regular t e) (le : t ≤ op.now?.getD t) (comes : e.ComesTo x)
    (steady : e.Steady op) :
    (∃ round ∈ e.rounds op, Passed x round) ∨ (e.step op).1.ComesTo x ∧
      ∀ now maxBytes, op = .pollBudget now maxBytes → (e.step op).1.out.connected = true →
        Excused now maxBytes (payloadBytes (e.step op).2) (e.step op).1 x := by
  obtain ⟨allowed, spared, idle, under⟩ := steady
  by_cases polls : ∃ now maxBytes, op = .pollBudget now maxBytes
  · obtain ⟨now, maxBytes, rfl⟩ := polls
    obtain ⟨out, due⟩ := evict_due regular.sound regular.sessions comes.started spared
    have layout := evict_layout regular.layout now
    have kept := evict_keepsSession regular.layout now
    have sessions := kept.inSession regular.sessions
    have timed := regular.timed.of_ring kept.ring
    have comes' : (e.evict now).ComesTo x := ⟨out ▸ comes.started, out ▸ comes.idle, due x comes.due⟩
    revert under
    dsimp only [step, rounds, pollBudget]
    rw [runPending_idle comes'.idle]
    cases connected : (e.evict now).out.connected with
    | false =>
      simp only [Bool.false_eq_true, if_false, Bool.not_false, if_true]
      exact fun _ => .inr ⟨comes', fun _ _ _ up => absurd up (by rw [connected]; exact Bool.false_ne_true)⟩
    | true =>
      simp only [Bool.not_true, Bool.false_eq_true, if_false, if_true]
      intro under
      have met := @pollLoop_meets (e.evict now) x now maxBytes 0 _ t layout sessions timed comes' connected
        (roundsLeft_lt_pollFuel layout)
      rcases met with passed | ⟨comes, excused⟩ | excess
      · exact .inl passed
      · refine .inr ⟨comes, fun now' maxBytes' same _ => ?_⟩
        obtain ⟨rfl, rfl⟩ := Op.pollBudget.inj same
        rwa [Nat.zero_add] at excused
      · exact absurd excess.above (Nat.not_le_of_lt under)
  · have between : ∀ now maxBytes, op ≠ .pollBudget now maxBytes :=
      fun now maxBytes poll => polls ⟨now, maxBytes, poll⟩
    obtain ⟨started, -, due⟩ :=
      step_due regular.sound regular.sessions allowed spared between comes.started comes.airs
    exact .inr ⟨⟨started, idle, due x comes.due⟩, fun now maxBytes poll => absurd poll (between now maxBytes)⟩

theorem run_meets {t : ℕ} {ops : List Op} (regular : Regular t e) (ordered : Chronological Op.now? t ops)
    (comes : e.ComesTo x) (steady : Machine.Along step Steady e ops) :
    (∃ round ∈ e.allRounds ops, Passed x round) ∨ (e.after ops).ComesTo x := by
  induction ops generalizing e t with
  | nil => exact .inr comes
  | cons op rest ih =>
    rcases step_meets regular ordered.1 comes steady.1 with ⟨round, member, passed⟩ | ⟨comes', -⟩
    · exact .inl ⟨round, List.mem_append_left _ member, passed⟩
    · refine (ih (regular.step op ordered.1) ordered.2 comes' steady.2).imp_left ?_
      rintro ⟨round, member, passed⟩
      exact ⟨round, List.mem_append_right _ member, passed⟩

end Engine

end StreamDelay
