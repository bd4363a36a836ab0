import Mathlib.Tactic.Common
import StreamDelay.Engine.Guarded
import StreamDelay.Proofs.HeldFrames
import StreamDelay.Proofs.Kept

/-! # What the engine relies on is there

Where the layout is right and the counters are the costs of what is kept, the buffer's operations fail nowhere;
with a clock that does not go back, neither do the pending changes and the output.
-/

namespace StreamDelay

open Flv (Bytes)
open Foundations
open Foundations.Checked (sub index remove drain)

namespace Engine.Guarded

variable {now : ℕ} {e : Engine}

/-! ## The buffer -/

theorem entry_eq (seq : ℕ) (e : Engine) : entry seq e = some (e.entry seq) := by
  unfold entry Engine.entry
  split
  · rfl
  · next inside =>
    rw [Checked.sub_of_le (Nat.le_of_not_lt inside)]
    rfl

private theorem forgetLoop_eq {base fuel i : ℕ} {headers : List HeaderRec} (enough : headers.length - i < fuel) :
    forgetLoop base fuel i headers = some (headers.take i ++ forgetReplaced base (headers.drop i)) := by
  induction fuel generalizing i headers with
  | zero => exact absurd enough (Nat.not_lt_zero _)
  | succ fuel ih =>
    unfold forgetLoop
    split
    · next inside =>
      have here : index headers i = some headers[i] := List.getElem?_eq_getElem inside
      rw [here, Checked.advance_of_le inside, List.drop_eq_getElem_cons inside]
      unfold forgetReplaced
      dsimp only [Option.bind_eq_bind, Option.bind_some]
      split
      · have gone : remove headers i = some (headers[i], headers.take i ++ headers.drop (i + 1)) := by
          rw [remove, List.getElem?_eq_getElem inside, List.eraseIdx_eq_take_drop_succ]
          rfl
        have before : (headers.take i).length = i := List.length_take_of_le (Nat.le_of_lt inside)
        rw [gone]
        dsimp only [Option.bind_some]
        rw [ih (by rw [List.length_append, before, List.length_drop]; omega), List.take_left' before,
          List.drop_left' before]
      · rw [ih (by omega), List.take_succ_eq_append_getElem inside, List.append_assoc]
        rfl
    · next outside =>
      have all := Nat.le_of_not_lt outside
      rw [List.take_of_length_le all, List.drop_eq_nil_of_le all, forgetReplaced, List.append_nil]

theorem forgetHeaders_eq (e : Engine) : forgetHeaders e = some e.forgetHeaders := by
  have loop : (fun s : Session => (forgetLoop e.baseSeq (s.headers.length + 1) 0 s.headers).map
      fun headers => { s with headers := headers }) =
      fun s => pure { s with headers := forgetReplaced e.baseSeq s.headers } := by
    funext s
    rw [forgetLoop_eq (by omega)]
    rfl
  unfold forgetHeaders
  rw [loop, List.mapM_pure]
  rfl

private theorem forgetSessions_eq (e : Engine) : forgetSessions e = some e.forgetSessions := by
  unfold forgetSessions Engine.forgetSessions
  rw [forgetHeaders_eq]
  dsimp only [Option.bind_eq_bind, Option.bind_some]
  cases e.forgetHeaders.ring with
  | nil => rfl
  | cons front rest =>
    dsimp only
    split <;> rfl

/-- Taking a message off leaves the cost of the others. -/
theorem popLoop_eq {stop fuel : ℕ} (counted : e.bytes = ringCost e.ring) (enough : e.ring.length < fuel) :
    popLoop stop fuel e = some (Engine.popLoop stop e.ring e) := by
  induction fuel generalizing e with
  | zero => exact absurd enough (Nat.not_lt_zero _)
  | succ fuel ih =>
    unfold popLoop
    cases ring : e.ring with
    | nil => rfl
    | cons f rest =>
      rw [ring] at counted enough
      unfold Engine.popLoop
      simp only [List.head?_cons, Option.any_some, decide_eq_true_eq, List.tail_cons, Option.bind_eq_bind,
        Option.bind_some]
      by_cases below : f.seq < stop
      · have afford : cost f.payload.length ≤ e.bytes := by
          rw [counted]
          exact Nat.le_add_right ..
        rw [if_pos below, if_pos below, Checked.sub_of_le afford]
        refine ih (e := { e with
          ring := rest
          bytes := e.bytes - cost f.payload.length
          baseSeq := f.seq + 1
          syncs := if e.syncs.head? = some f.seq then e.syncs.tail else e.syncs }) ?_ (Nat.lt_of_succ_lt_succ enough)
        show e.bytes - cost f.payload.length = ringCost rest
        rw [counted]
        exact Nat.add_sub_cancel_left ..
      · rw [if_neg below, if_neg below]

theorem popBefore_eq (counted : e.Counted) (stop : ℕ) : popBefore stop e = some (e.popBefore stop) :=
  popLoop_eq counted.bytes (Nat.lt_succ_self _)

private theorem dropBefore_eq (counted : e.Counted) (seq : ℕ) : dropBefore seq e = some (e.dropBefore seq) := by
  unfold dropBefore Engine.dropBefore
  rw [popBefore_eq counted]
  exact forgetHeaders_eq _

theorem dropBuffer_eq (e : Engine) : dropBuffer e = some e.dropBuffer := by
  unfold dropBuffer Engine.dropBuffer
  dsimp only
  rw [forgetHeaders_eq]
  rfl

private theorem evictLoop_eq {capacity fuel : ℕ} {keepFrom restart : Option ℕ} (lost : Bool) (layout : e.Layout)
    (counted : e.Counted) (enough : e.ring.length ≤ fuel) :
    evictLoop now capacity keepFrom restart (fuel + 1) e lost =
      some (Engine.evictLoop now capacity keepFrom restart fuel e lost) := by
  induction fuel generalizing e lost with
  | zero =>
    have empty : e.ring = [] := List.length_eq_zero_iff.mp (Nat.le_zero.mp enough)
    unfold evictLoop
    rw [empty]
    rfl
  | succ fuel ih =>
    unfold evictLoop Engine.evictLoop
    cases ring : e.ring with
    | nil => rfl
    | cons front rest =>
      dsimp only
      split
      · have shorter := round_length layout ring (plan_stop now capacity keepFrom restart front e)
        set stop := (e.evictPlan now capacity keepFrom restart front).stop
        have trimmed := (popBefore_trimmed layout stop).forgetSessions
        have size : e.ring.length = rest.length + 1 := by rw [ring]; rfl
        rw [popBefore_eq counted]
        dsimp only [Option.bind_eq_bind, Option.bind_some]
        rw [forgetSessions_eq]
        exact ih _ (trimmed.layout layout) (counted.popBefore stop).forgetSessions (by omega)
      · rfl

theorem evict_eq (layout : e.Layout) (counted : e.Counted) (now : ℕ) : evict now e = some (e.evict now) := by
  unfold evict Engine.evict
  dsimp only
  rw [evictLoop_eq false layout counted (Nat.le_refl _)]
  rfl

/-! ## Taking in the encoder's stream -/

/-- With everything taken out nothing is left of the cost, and there is room. -/
theorem trimHeaders_eq {budget need fuel : ℕ} {headers : List HeaderRec} (fits : need ≤ budget)
    (enough : headers.length < fuel) :
    trimHeaders budget need fuel (headersCost headers) headers =
      some (StreamDelay.trimHeaders budget need headers) := by
  induction headers generalizing fuel with
  | nil =>
    obtain ⟨fuel, rfl⟩ := Nat.exists_eq_add_of_lt enough
    unfold trimHeaders
    rw [if_neg]
    · rfl
    · rintro (many | dear)
      · exact absurd many (by decide)
      · exact absurd dear (Nat.not_lt.mpr (Nat.le_trans (Nat.le_of_eq (Nat.zero_add need)) fits))
  | cons h rest ih =>
    cases fuel with
    | zero => exact absurd enough (Nat.not_lt_zero _)
    | succ fuel =>
      unfold trimHeaders StreamDelay.trimHeaders
      have cost : headersCost (h :: rest) = StreamDelay.cost h.payload.length + headersCost rest := List.sum_cons
      split
      · rw [cost]
        dsimp only [remove, List.getElem?_cons_zero, Option.map_some, Option.bind_eq_bind, Option.bind_some]
        rw [Checked.sub_of_le (Nat.le_add_right ..), Nat.add_sub_cancel_left]
        exact ih (Nat.lt_of_succ_lt_succ enough)
      · rfl

private theorem keepHeader_eq (s : Session) (budget seq : ℕ) (kind : Kind) (config : Option UInt16) (payload : Bytes) :
    keepHeader s budget seq kind config payload = some (s.keepHeader budget seq kind config payload) := by
  unfold keepHeader Session.keepHeader
  cases config with
  | none => rfl
  | some class_ =>
    dsimp only
    split
    · next kept =>
      rw [trimHeaders_eq kept.2.2 (Nat.lt_succ_self _)]
      rfl
    · rfl

private theorem append_eq (now : ℕ) (kind : Kind) (ts : ℕ) (payload : Bytes) (session : Session) (e : Engine) :
    append now kind ts payload session e = some (e.append now kind ts payload session) := by
  unfold append Engine.append
  dsimp only
  rw [keepHeader_eq]
  rfl

private theorem ingest_eq (layout : e.Layout) (counted : e.Counted) (now : ℕ) (kind : Kind) (ts : ℕ) (payload : Bytes) :
    ingest now kind ts payload e = some (e.ingest now kind ts payload) := by
  unfold ingest Engine.ingest
  split
  · rfl
  · cases current : e.sessions.getLast? with
    | none => rfl
    | some session =>
      dsimp only
      rw [append_eq]
      exact evict_eq (append_layout layout now kind ts payload session)
        (append_counted counted current now kind ts payload) now

private theorem ingestStart_eq (now : ℕ) (e : Engine) : ingestStart now e = some (e.ingestStart now) := by
  unfold ingestStart Engine.ingestStart
  split
  · rfl
  · rw [dropBuffer_eq]
    rfl

/-! ## Dumps -/

/-- What is cut off is taken from the counter, message by message. -/
theorem foldlM_sub_eq {gone : List Entry} {bytes : ℕ} (afford : ringCost gone ≤ bytes) :
    gone.foldlM (fun bytes x => sub bytes (cost x.payload.length)) bytes = some (bytes - ringCost gone) := by
  induction gone generalizing bytes with
  | nil => rfl
  | cons x rest ih =>
    have split : ringCost (x :: rest) = cost x.payload.length + ringCost rest := List.sum_cons
    rw [split] at afford ⊢
    rw [List.foldlM_cons, Checked.sub_of_le (Nat.le_trans (Nat.le_add_right ..) afford)]
    dsimp only [Option.bind_eq_bind, Option.bind_some]
    rw [ih (by omega), Nat.sub_sub]

private theorem truncate_eq {cut : ℕ} (counted : e.Counted) (low : e.baseSeq ≤ cut)
    (high : cut ≤ e.baseSeq + e.ring.length) : truncate cut e = some (e.truncate cut) := by
  have afford : ringCost (e.ring.drop (cut - e.baseSeq)) ≤ e.bytes := by
    rw [counted.bytes]
    exact ((List.drop_sublist ..).map _).sum_le_sum fun _ _ => Nat.zero_le _
  unfold truncate
  rw [Checked.sub_of_le low]
  dsimp only [Option.bind_eq_bind, Option.bind_some]
  rw [Checked.drain_of_le (by omega)]
  dsimp only [Option.bind_some]
  rw [foldlM_sub_eq afford]
  rfl

private theorem replayAt_eq (layout : e.Layout) (counted : e.Counted) (now delay k : ℕ) :
    replayAt now delay k e = some (e.replayAt now delay k) := by
  have next := layout.next
  have cursor := layout.cursor
  have low : e.baseSeq ≤ e.cut := Nat.le_max_right ..
  have high : e.cut ≤ e.baseSeq + e.ring.length := by
    unfold Engine.cut
    omega
  unfold replayAt Engine.replayAt
  dsimp only
  rw [truncate_eq counted low high]
  rfl

private theorem replayInstead_eq (layout : e.Layout) (counted : e.Counted) (now delay : ℕ) :
    replayInstead now delay e = some (e.replayInstead now delay) := by
  unfold replayInstead Engine.replayInstead
  cases e.replayFrom now delay with
  | none => rfl
  | some k =>
    dsimp only
    rw [replayAt_eq layout counted]
    rfl

theorem holdInstead_eq (now delay : ℕ) (cover : Bool) (e : Engine) :
    holdInstead now delay cover e = some (e.holdInstead now delay cover) := by
  unfold holdInstead Engine.holdInstead
  rw [dropBuffer_eq]
  rfl

private theorem dump_eq (layout : e.Layout) (counted : e.Counted) (now : ℕ) (mode : DelayMode) (cover : Bool) :
    dump now mode cover e = some (e.dump now mode cover) := by
  have targeted : (e.retarget e.dumpDelay).Layout := layout.of_out layout.cursor layout.mark
  have costs := counted.of_onlyOut (retarget_onlyOut e.dumpDelay e)
  unfold dump Engine.dump
  rw [dropBuffer_eq]
  split
  · rfl
  · split
    · rfl
    · dsimp only
      cases mode with
      | mask => exact holdInstead_eq ..
      | rewind =>
        rw [if_pos rfl, if_pos rfl, replayInstead_eq targeted costs]
        cases (e.retarget e.dumpDelay).replayInstead now e.dumpDelay with
        | none => exact holdInstead_eq ..
        | some => rfl

/-! ## Running what is pending -/

theorem endHold_eq (held : HeldBy now e) : endHold now e = some (e.endHold now) := by
  unfold endHold Engine.endHold
  cases frame : e.out.hold with
  | none => rfl
  | some h =>
    dsimp only
    rw [Checked.sub_of_le (held h frame)]
    rfl

theorem runMaskAt_eq (now : ℕ) (m : MaskChange) (anchor : ℕ) (e : Engine) :
    runMaskAt now m anchor e = some (e.runMaskAt now m anchor) := by
  unfold runMaskAt Engine.runMaskAt
  cases e.entry anchor with
  | none => rfl
  | some x =>
    dsimp only
    split
    · next due =>
      rw [Checked.sub_of_le (Nat.le_trans (Nat.le_add_right ..) due)]
      rfl
    · rfl

theorem anchorMask_eq (now : ℕ) (m : MaskChange) (since : ℕ) (e : Engine) :
    anchorMask now m since e = some (e.anchorMask now m since) := by
  unfold anchorMask Engine.anchorMask
  cases e.firstSyncArrivedFrom since with
  | none => rfl
  | some a => exact runMaskAt_eq ..

theorem runMask_eq (now : ℕ) (m : MaskChange) (e : Engine) : runMask now m e = some (e.runMask now m) := by
  unfold runMask Engine.runMask
  cases m.anchor with
  | some a => exact runMaskAt_eq ..
  | none =>
    dsimp only
    cases m.shown with
    | some t => exact anchorMask_eq ..
    | none =>
      dsimp only
      split
      · exact anchorMask_eq ..
      · rfl

theorem runHold_eq (held : HeldBy now e) (fromSeq delay : ℕ) :
    runHold now fromSeq delay e = some (e.runHold now fromSeq delay) := by
  unfold runHold Engine.runHold
  cases e.syncs.find? fun s => fromSeq ≤ s && e.out.endMark.all fun m => s ≤ m with
  | none => cases e.out.endMark <;> rfl
  | some k =>
    dsimp only
    split
    · next due =>
      rw [endHold_eq held, Checked.sub_of_le (Nat.le_trans (Nat.le_add_right ..) due)]
      rfl
    · rfl

private theorem runDump_eq (held : HeldBy now e) (delay started fromSeq : ℕ) (shown : Option ℕ) :
    runDump now delay started fromSeq shown e = some (e.runDump now delay started fromSeq shown) := by
  unfold runDump Engine.runDump
  cases shown with
  | none =>
    dsimp only
    split
    · have lost : HeldBy now { e with out := { e.out with coverLost := true } } := held
      exact runHold_eq (lost.setPending _) fromSeq delay
    · rfl
  | some t =>
    dsimp only
    cases e.firstSyncArrivedFrom (t + e.config.maskMarginMs * MS) with
    | none => rfl
    | some anchor =>
      dsimp only
      rw [endHold_eq held]
      dsimp only [Option.bind_eq_bind, Option.bind_some]
      exact runMask_eq ..

private theorem runReplay_eq (now fromSeq delay : ℕ) (e : Engine) :
    runReplay now fromSeq delay e = some (e.runReplay now fromSeq delay) := by
  unfold runReplay Engine.runReplay
  cases e.syncs.find? fun s => fromSeq ≤ s with
  | none => rfl
  | some k =>
    dsimp only
    split
    · next due =>
      rw [Checked.sub_of_le (Nat.le_trans (Nat.le_add_right ..) due)]
      rfl
    · rfl

theorem runPending_eq (held : HeldBy now e) : runPending now e = some (e.runPending now) := by
  unfold runPending
  cases pending : e.out.pending with
  | none | goLiveNow | afterAir | reduce => rfl
  | mask m =>
    rw [Engine.runPending, pending]
    exact runMask_eq now m e
  | dump delay started fromSeq shown =>
    rw [Engine.runPending, pending]
    exact runDump_eq held delay started fromSeq shown
  | hold fromSeq delay =>
    rw [Engine.runPending, pending]
    exact runHold_eq held fromSeq delay
  | replay fromSeq delay =>
    rw [Engine.runPending, pending]
    exact runReplay_eq now fromSeq delay e

/-! ## Commands and the end of a broadcast -/

private theorem setDelay_eq (held : HeldBy now e) (ms : ℕ) (mode : DelayMode) :
    setDelay now ms mode e = some (e.setDelay now ms mode) := by
  unfold setDelay Engine.setDelay
  dsimp only
  cases if 0 < ms then e.out.pending.withDumpDelay (ms * MS) else none with
  | some p =>
    have targeted : HeldBy now (e.setDumpDelay (ms * MS) p) := held
    exact runPending_eq targeted
  | none =>
    dsimp only
    split
    · rfl
    · exact runPending_eq (held.changeDelay _ _)

private theorem obey_eq (layout : e.Layout) (counted : e.Counted) (held : HeldBy now e) (cmd : Command) :
    obey now cmd e = some (e.obey now cmd) := by
  unfold obey Engine.obey
  cases cmd with
  | setDelay ms mode =>
    dsimp only
    rw [setDelay_eq held]
    rfl
  | goLive when_ =>
    dsimp only
    rw [runPending_eq (held.goLive when_)]
    rfl
  | cancel =>
    dsimp only
    rw [runPending_eq held.cancel]
    rfl
  | slateShown change =>
    dsimp only
    rw [runPending_eq (held.slateShown change)]
    rfl
  | dump mode cover =>
    dsimp only
    split
    · rw [dump_eq layout counted]
      dsimp only [Option.bind_eq_bind, Option.bind_some]
      rw [runPending_eq (held.dump mode cover)]
      rfl
    · rfl

theorem command_eq (layout : e.Layout) (counted : e.Counted) (held : HeldBy now e) (cmd : Command) :
    command now cmd e = some (e.command now cmd) := by
  have cleared := clearNotices_inPlace layout cmd
  unfold command Engine.command
  cases e.checkCommand cmd with
  | some => rfl
  | none => exact obey_eq (cleared.layout layout) (counted.of_onlyOut cleared.only) (held.clearNotices cmd) cmd

private theorem dumpAfter_eq (layout : e.Layout) (counted : e.Counted) (held : HeldBy now e) (taken : Option ℕ)
    (mode : DelayMode) (cover : Bool) :
    dumpAfter now taken mode cover e = some (e.dumpAfter now taken mode cover) := by
  have unsent := unsend_inPlace layout taken
  unfold dumpAfter Engine.dumpAfter
  split
  · exact command_eq (unsent.layout layout) (counted.of_onlyOut unsent.only) (held.unsend taken) _
  · split <;> rfl

private theorem restartAfterEnd_eq (counted : e.Counted) : restartAfterEnd e = some e.restartAfterEnd := by
  unfold restartAfterEnd Engine.restartAfterEnd
  dsimp only
  rw [dropBefore_eq counted]
  rfl

/-! ## Polling the output -/

section Poll

variable {maxBytes emitted : ℕ}

private theorem emitHoldFrame_eq (held : HeldBy now e) : emitHoldFrame now e = some (e.emitHoldFrame now) := by
  unfold emitHoldFrame Engine.emitHoldFrame
  cases frame : e.out.hold with
  | none => rfl
  | some h =>
    dsimp only
    split
    · rfl
    · unfold showFrame holdTs
      rw [frame]
      dsimp only [Option.bind_eq_bind, Option.bind_some]
      rw [Checked.sub_of_le (held h frame)]
      rfl

private theorem startAt_eq {arrival : ℕ} (past : arrival ≤ now) (k : ℕ) :
    startAt now k arrival e = some (e.startAt now k arrival) := by
  unfold startAt Engine.startAt
  rw [Checked.sub_of_le past]
  rfl

private theorem findSync_eq (now : ℕ) (e : Engine) : findSync now e = some (e.findSync now) := by
  unfold findSync
  cases first : e.startKeyframe now with
  | none => rfl
  | some k =>
    unfold Engine.findSync
    rw [first]
    dsimp only
    cases e.out.endMark.filter fun m => decide (m < k) with
    | some => rfl
    | none =>
      dsimp only
      split
      · rfl
      · next due =>
        rw [startAt_eq (by omega)]
        dsimp only [Option.bind_eq_bind, Option.bind_some]
        split <;> rfl

private theorem findSync_hold {mid : Engine} {h : HoldFrame} (found : e.findSync now = .ready mid)
    (frame : mid.out.hold = some h) : e.out.hold = some h := by
  unfold Engine.findSync at found
  split at found
  · split at found
    · contradiction
    · split at found <;> contradiction
  · split at found
    · contradiction
    · dsimp only at found
      split at found
      · contradiction
      · split at found
        · contradiction
        · obtain rfl := Search.ready.inj found
          exact startAt_hold frame

theorem sendDue_eq (held : HeldBy now e) : sendDue now maxBytes emitted e = some (e.sendDue now maxBytes emitted) := by
  unfold sendDue Engine.sendDue
  cases e.entry e.out.nextSeq with
  | none => rfl
  | some x =>
    dsimp only
    split
    · rfl
    · split
      · rfl
      · split
        · have silenced : HeldBy now e.muteEntry := held
          rw [runPending_eq silenced]
          rfl
        · have sent : HeldBy now e.sendEntry.1 := held.of_hold (.inl (by rw [(sendEntry_course e).hold]; rfl))
          rw [runPending_eq sent]
          rfl

private theorem sendFrom_eq (held : HeldBy now e) :
    sendFrom now maxBytes emitted e = some (e.sendFrom now maxBytes emitted) := by
  unfold sendFrom Engine.sendFrom
  split
  · rw [findSync_eq]
    dsimp only [Option.bind_eq_bind, Option.bind_some]
    cases found : e.findSync now with
    | again | stop => rfl
    | ready mid =>
      refine sendDue_eq fun h frame => held h ?_
      exact findSync_hold found frame
  · exact sendDue_eq held

theorem advance_eq (held : HeldBy now e) :
    advance now maxBytes emitted e = some (e.advance now maxBytes emitted) := by
  have caught : HeldBy now e.catchUp := by
    unfold catchUp
    split <;> exact held
  unfold advance Engine.advance
  dsimp only
  split
  · rfl
  · refine sendFrom_eq ?_
    unfold noticeSession
    split
    · split <;> exact caught
    · exact caught

private theorem pollRound_eq (held : HeldBy now e) :
    pollRound now maxBytes emitted e = some (e.pollRound now maxBytes emitted) := by
  unfold pollRound Engine.pollRound
  cases e.out.pending with
  | dump | hold =>
    dsimp only
    rw [emitHoldFrame_eq held]
    rfl
  | replay fromSeq delay =>
    dsimp only
    split
    · split <;> rfl
    · exact advance_eq held
  | none | goLiveNow | afterAir | reduce | mask => exact advance_eq held

theorem pollLoop_eq {fuel : ℕ} (layout : e.Layout) (connected : e.out.connected) (held : HeldBy now e) :
    pollLoop now maxBytes fuel emitted e = some (e.pollLoop now maxBytes fuel emitted) := by
  induction fuel generalizing e emitted with
  | zero => rfl
  | succ fuel ih =>
    have round := (pollRound_turns now maxBytes emitted layout connected).moves
    unfold pollLoop Engine.pollLoop
    rw [pollRound_eq held]
    dsimp only [Option.bind_eq_bind, Option.bind_some]
    cases went : e.pollRound now maxBytes emitted with
    | stop => rfl
    | again mid sent =>
      rw [went] at round
      have layout' : mid.Layout := Moves.layout round layout
      have connected' : mid.out.connected := (Moves.connected round).trans connected
      have held' : HeldBy now mid := Moves.heldBy round held
      dsimp only
      rw [ih layout' connected' held']
      rfl

private theorem pollBudget_eq (layout : e.Layout) (counted : e.Counted) (held : HeldBy now e) (maxBytes : ℕ) :
    pollBudget now maxBytes e = some (e.pollBudget now maxBytes) := by
  have evicted := evict_layout layout now
  have shown := held.evict layout now
  unfold pollBudget Engine.pollBudget
  rw [evict_eq layout counted]
  dsimp only [Option.bind_eq_bind, Option.bind_some]
  rw [runPending_eq shown]
  dsimp only [Option.bind_some]
  split
  · rfl
  · next connected =>
    have ran := runPending_moves now (e.evict now)
    rw [pollLoop_eq (Moves.layout ran evicted) (by simpa using connected) shown.runPending]
    rfl

end Poll

/-! ## Every operation -/

/-- Where the buffer is laid out and counted, and the frame of a hold was shown before, no operation fails. -/
theorem step_eq (layout : e.Layout) (counted : e.Counted) {t : ℕ} (held : HeldBy t e) (op : Op)
    (le : t ≤ op.now?.getD t) : step e op = some (e.step op) := by
  have held := held.later le
  cases op with
  | ingestStart now => exact congrArg (Option.map (·, [])) (ingestStart_eq now e)
  | ingest now kind ts payload =>
    exact congrArg (Option.map (·, [])) (ingest_eq layout counted now kind ts payload)
  | dumpAfter now taken mode cover =>
    exact congrArg (Option.map fun p => (p.1, [])) (dumpAfter_eq layout counted held taken mode cover)
  | discard =>
    have reset : discard e = some e.discard := congrArg (Option.map Engine.outputReset) (dropBuffer_eq e)
    exact congrArg (Option.map (·, [])) reset
  | restartAfterEnd => exact congrArg (Option.map (·, [])) (restartAfterEnd_eq counted)
  | command now cmd => exact congrArg (Option.map fun p => (p.1, [])) (command_eq layout counted held cmd)
  | pollBudget now maxBytes =>
    exact congrArg (Option.map fun p => (p.1, p.2.1)) (pollBudget_eq layout counted held maxBytes)
  | ingestEnd | ingestMetadata | outputConnected | outputDisconnected | unsend | outputReset | endAfter | cancelEnd
  | setKeepHistory | setRestoreAfterReconnect => rfl

end Engine.Guarded

end StreamDelay
