import Mathlib.Tactic.Common
import StreamDelay.Proofs.Goal
import StreamDelay.Proofs.Owing
import StreamDelay.Soundness.DumpedContent

/-! # Live after what is buffered aired

GoLive after air lets everything buffered at that moment air before anything received later does, and
before the output jumps to live, through reconnects of both sides. What it leaves out on the way is what
it would leave out anyway.
-/

namespace StreamDelay

open Foundations

/-- The operation is no command and does not end the broadcast. -/
def Op.carriesOn : Op → Bool
  | .command .. | .dumpAfter .. | .outputReset | .discard | .restartAfterEnd => false
  | _ => true

namespace Engine

/-! ## The rounds of a run -/

/-- The rounds of the poll loop: the engine each leaves, and what it sends. -/
def pollRounds (now maxBytes : ℕ) : ℕ → ℕ → Engine → List (Engine × List Sent)
  | 0, _, _ => []
  | fuel + 1, emitted, e =>
    match e.pollRound now maxBytes emitted with
    | .stop e sent _ => [(e, sent)]
    | .again e sent => (e, sent) :: pollRounds now maxBytes fuel (emitted + payloadBytes sent) e

/-- The rounds of an operation. -/
def rounds (e : Engine) : Op → List (Engine × List Sent)
  | .pollBudget now maxBytes =>
    let e := (e.evict now).runPending now
    if e.out.connected then e.pollRounds now maxBytes e.pollFuel 0 else []
  | _ => []

/-- The rounds of a sequence of operations. -/
def allRounds : Engine → List Op → List (Engine × List Sent)
  | _, [] => []
  | e, op :: rest => e.rounds op ++ allRounds (e.step op).1 rest

/-- `x` would be left out: the destination has this configuration, or it is a leading picture of the
CRA the output was spliced to, or of another kind and older than the splice. -/
def omits (e : Engine) (x : Entry) : Bool :=
  match x.config with
  | some class_ => e.hasHeader x.kind class_ x.payload
  | none => (e.skipLeading x).2 || e.gated x

/-- The round sent `x`, or got past it leaving it out. -/
def Passed (x : Entry) (round : Engine × List Sent) : Prop :=
  (∃ s ∈ round.2, s.entry? = some x) ∨ round.1.out.nextSeq = x.seq + 1 ∧ round.1.omits x = true

instance {x : Entry} {round : Engine × List Sent} : Decidable (Passed x round) :=
  inferInstanceAs (Decidable (_ ∨ _))

/-! ## What is owed -/

/-- `x` is buffered and has not been passed. -/
def Owed (e : Engine) (x : Entry) : Prop := x ∈ e.ring ∧ e.out.nextSeq ≤ x.seq

/-- The output can go on in encoder session `session` from the cursor: a keyframe to start it from again
is buffered, and a connected output is in the session and waits for no keyframe. -/
structure GoesOn (e : Engine) (session : ℕ) : Prop where
  keyframe : ∃ y ∈ e.ring, y.sync = true ∧ y.session = session ∧ y.seq ≤ e.out.nextSeq
  flows : e.out.connected = true →
    e.out.needSync = false ∧ ∀ cs, e.out.currentSession = some cs → cs = session

/-- `x` precedes the first keyframe ahead of its session, which the output starts with. -/
def Undecodable (e : Engine) (x : Entry) : Prop :=
  ¬ e.GoesOn x.session ∧
    ∀ y ∈ e.ring, y.sync = true → y.session = x.session → e.out.nextSeq ≤ y.seq → x.seq < y.seq

/-- What `e` owed of `x` is settled by the rounds. -/
def Settled (e : Engine) (played : List (Engine × List Sent)) (x : Entry) : Prop :=
  (∃ round ∈ played, Passed x round) ∨ e.Undecodable x

/-- The round sends something received after `start` only once all that `start` owed is settled. -/
def Waits (start : Engine) (played : List (Engine × List Sent)) (round : Engine × List Sent) : Prop :=
  (∃ s ∈ round.2, ∃ z, s.entry? = some z ∧ start.nextSeq ≤ z.seq) →
    ∀ x, start.Owed x → start.Settled played x

/-- The memory limit takes nothing that is still to air. -/
def spares (e : Engine) : Op → Bool
  | .ingest now kind ts payload =>
    !e.ingestActive || payload.isEmpty ||
      e.sessions.getLast?.all fun session => (e.append now kind ts payload session).evictsAired now
  | .pollBudget now _ => e.evictsAired now
  | _ => true

variable {e e' start : Engine} {x : Entry} {now : ℕ} {played : List (Engine × List Sent)}

/-- What is owed and can be decoded is due. -/
theorem Owed.due (owed : e.Owed x) : e.Undecodable x ∨ e.Due x := by
  by_cases late : e.Undecodable x
  · exact .inl late
  · refine .inr ⟨owed.1, owed.2, ?_⟩
    by_cases goes : e.GoesOn x.session
    · obtain ⟨⟨y, member, sync, same, before⟩, flows⟩ := goes
      refine ⟨y, member, sync, same, Nat.le_trans before owed.2, .inr ?_⟩
      cases connected : e.out.connected with
      | false => exact .inl rfl
      | true => exact .inr (flows connected)
    · have keyframe : ∃ y ∈ e.ring, y.sync = true ∧ y.session = x.session ∧ e.out.nextSeq ≤ y.seq ∧
          y.seq ≤ x.seq := by
        by_contra none
        refine late ⟨goes, fun y member sync same ahead => ?_⟩
        by_contra before
        exact none ⟨y, member, sync, same, ahead, Nat.le_of_not_lt before⟩
      obtain ⟨y, member, sync, same, ahead, before⟩ := keyframe
      exact ⟨y, member, sync, same, before, .inl ahead⟩

/-! ## Passing a message -/

/-- What is left out depends on the configuration sent and on the last splice. -/
theorem omits_congr (headers : e'.out.sentHeaders = e.out.sentHeaders) (gate : e'.out.gate = e.out.gate)
    (skip : e'.out.skipLeadingAfter = e.out.skipLeadingAfter) (x : Entry) : e'.omits x = e.omits x := by
  have leading : (e'.skipLeading x).2 = (e.skipLeading x).2 := by
    unfold skipLeading
    rw [skip]
    split
    · split <;> rfl
    · rfl
  unfold omits hasHeader gated
  rw [headers, gate, leading]

private theorem emitEntry_passes (found : e.entry e.out.nextSeq = some x) :
    (∃ s ∈ e.emitEntry.2, s.entry? = some x) ∨ e.emitEntry.1.omits x = true := by
  unfold emitEntry omits
  simp only [found]
  cases config : x.config with
  | some class_ =>
    dsimp only
    unfold emitConfigEntry
    split
    · next has => exact .inr has
    · exact .inl ⟨_, List.mem_singleton.mpr rfl, rfl⟩
  | none =>
    dsimp only
    have skipped : (e.skipLeading x).2 = true → (e.skipLeading x).1 = e := by
      unfold skipLeading
      split
      · split <;> simp
      · simp
    cases leading : e.skipLeading x with
    | mk mid drops =>
      rw [leading] at skipped
      cases drops with
      | true =>
        obtain rfl : mid = e := skipped rfl
        refine .inr ?_
        have same : mid.drop.omits x = mid.omits x := omits_congr (by rfl) (by rfl) (by rfl) x
        simp only [omits, config, leading, Bool.true_or] at same
        exact same
      | false =>
        dsimp only
        split
        · next gated =>
          refine .inr ?_
          have same : mid.drop.gated x = true := gated
          rw [same, Bool.or_true]
        · unfold emitMedia
          dsimp only
          exact .inl ⟨_, List.mem_cons_self .., by simp only [Sent.entry?, Sent.make]⟩

/-- The message at the cursor is sent, or left out for a reason. -/
theorem sendEntry_passes (found : e.entry e.out.nextSeq = some x) (cursor : e.out.nextSeq = x.seq) :
    Passed x e.sendEntry := by
  have course := e.sendHeaders_course
  have found' : e.sendHeaders.1.noteFirst.entry e.sendHeaders.1.noteFirst.out.nextSeq = some x := by
    rw [← found, ← course.nextSeq, ← course.onlyOut.entry]
    rfl
  rcases emitEntry_passes found' with ⟨s, member, entry⟩ | omits
  · exact .inl ⟨s, List.mem_append_right _ member, entry⟩
  · refine .inr ⟨?_, ?_⟩
    · rw [(sendEntry_course e).nextSeq, ← cursor]
      rfl
    · have left : e.sendEntry.1 =
          e.sendHeaders.1.noteFirst.emitEntry.1.pass.tally e.sendEntry.2 := rfl
      rw [left]
      exact (omits_congr (by rfl) (by rfl) (by rfl) x).trans omits

/-! ## Waiting to go live -/

/-- Looking at the pending change, the output waits on until it is past the mark; only what is received
later can make it jump then. -/
theorem runPending_afterAir {mark : ℕ} (now : ℕ) (layout : e.Layout) (pending : e.out.pending = .afterAir mark) :
    e.out.nextSeq ≤ mark ∧ e.runPending now = e ∨
      mark < e.out.nextSeq ∧ e.runPending now = e.withPending (.goLiveNow (e.nextSeq - 1)) := by
  unfold runPending
  simp only [pending]
  unfold runAfterAir
  split
  · next aired =>
    refine .inr ⟨aired, ?_⟩
    have none : ((e.withPending (.goLiveNow (e.nextSeq - 1))).syncs.getLast?.filter fun s =>
        decide (e.nextSeq - 1 < s)) = none := by
      refine Option.filter_eq_none_iff.mpr fun s newest => ?_
      have bound := layout.sync_lt (List.mem_of_getLast? newest)
      simp only [decide_eq_true_eq]
      omega
    unfold runGoLiveNow
    dsimp only
    rw [none]
  · next waits => exact .inl ⟨Nat.le_of_not_lt waits, rfl⟩

/-- Everything owed at the start is settled, or the output waits to go live and the rest is due. -/
def Owes (start : Engine) (settled : Entry → Prop) (e : Engine) : Prop :=
  (∀ x, start.Owed x → settled x) ∨
    e.out.started = true ∧ e.out.pending = .afterAir (start.nextSeq - 1) ∧
      ∀ x, start.Owed x → settled x ∨ e.Due x

variable {settled : Entry → Prop}

namespace Owes

theorem mono {more : Entry → Prop} (owes : Owes start settled e) (grows : ∀ x, settled x → more x) :
    Owes start more e := by
  rcases owes with all | ⟨started, pending, due⟩
  · exact .inl fun x owed => grows x (all x owed)
  · exact .inr ⟨started, pending, fun x owed => (due x owed).imp_left (grows x)⟩

/-- While the output waits, what stays due stays owed. -/
theorem keep (owes : Owes start settled e)
    (waits : e.out.started = true → e.out.pending = .afterAir (start.nextSeq - 1) →
      e'.out.started = true ∧ e'.out.pending = .afterAir (start.nextSeq - 1) ∧
        ∀ x, e.Due x → e'.Due x) : Owes start settled e' := by
  rcases owes with all | ⟨started, pending, due⟩
  · exact .inl all
  · obtain ⟨started', pending', still⟩ := waits started pending
    exact .inr ⟨started', pending', fun x owed => (due x owed).imp_right (still x)⟩

/-- Past the mark, everything owed is settled. -/
theorem past (owes : Owes start settled e) (layout : start.Layout)
    (aired : start.nextSeq - 1 < e.out.nextSeq) : ∀ x, start.Owed x → settled x := by
  rcases owes with all | ⟨-, -, due⟩
  · exact all
  · intro x owed
    rcases due x owed with done | ahead
    · exact done
    · have bound := layout.upper owed.1
      have reach := ahead.ahead
      omega

theorem runPending (now : ℕ) (owes : Owes start settled e) (layout : start.Layout) (layout' : e.Layout) :
    Owes start settled (e.runPending now) := by
  rcases owes with all | ⟨started, pending, due⟩
  · exact .inl all
  · rcases runPending_afterAir now layout' pending with ⟨-, same⟩ | ⟨aired, -⟩
    · rw [same]
      exact .inr ⟨started, pending, due⟩
    · exact .inl (Owes.past (.inr ⟨started, pending, due⟩) layout aired)

end Owes

/-! ## A round of the poll loop -/

theorem Passed.runPending {mark : ℕ} {sent : List Sent} (layout : e.Layout)
    (pending : e.out.pending = .afterAir mark) (passed : Passed x (e, sent)) :
    Passed x (e.runPending now, sent) := by
  rcases runPending_afterAir now layout pending with ⟨-, same⟩ | ⟨-, same⟩
  · rwa [same]
  · rw [same]
    rcases passed with sent | ⟨cursor, omitted⟩
    · exact .inl sent
    · refine .inr ⟨cursor, ?_⟩
      have same : (e.withPending (.goLiveNow (e.nextSeq - 1))).omits x = e.omits x :=
        omits_congr (by rfl) (by rfl) (by rfl) x
      exact same.trans omitted

/-- A round settles what it passes, and what is received later airs only once all is settled. -/
structure Advances (start : Engine) (settled : Entry → Prop) (round : Round) : Prop where
  owes : Owes start (fun x => settled x ∨ Passed x (Round.engine round, Round.sent round))
    (Round.engine round)
  order : (∃ s ∈ Round.sent round, ∃ z, s.entry? = some z ∧ start.nextSeq ≤ z.seq) →
    ∀ x, start.Owed x → settled x

section Rounds

variable {maxBytes emitted : ℕ}

/-- A round that sends nothing. -/
theorem Advances.silent {round : Round} (owes : Owes start settled (Round.engine round))
    (silent : Round.sent round = []) : Advances start settled round where
  owes := owes.mono fun _ => .inl
  order := by simp [silent]

/-- A round once everything is settled. -/
theorem Advances.of_all {round : Round} (all : ∀ x, start.Owed x → settled x) :
    Advances start settled round where
  owes := .inl fun x owed => .inl (all x owed)
  order := fun _ => all

/-- Sending the message at the cursor settles it. -/
theorem sendEntry_advances {w : Entry} (layout : start.Layout) (layout' : e.Layout)
    (sessions : e.InSession) (started : e.out.started = true)
    (pending : e.out.pending = .afterAir (start.nextSeq - 1))
    (due : ∀ x, start.Owed x → settled x ∨ e.Due x) (synced : e.out.needSync = false)
    (found : e.entry e.out.nextSeq = some w)
    (session : ∀ cs, e.out.currentSession = some cs → w.session = cs) :
    Advances start settled (.again (e.sendEntry.1.runPending now) e.sendEntry.2) := by
  obtain ⟨held, cursor⟩ := layout'.entry_iff.mp found
  have course := sendEntry_course e
  have only : OnlyOut e e.sendEntry.1 := (show OnlyOut e (e.pass.tally _) from rfl).trans course.onlyOut
  have next : e.sendEntry.1.out.nextSeq = e.out.nextSeq + 1 := course.nextSeq
  have pendingS : e.sendEntry.1.out.pending = .afterAir (start.nextSeq - 1) :=
    course.pending.trans pending
  have layoutS : e.sendEntry.1.Layout := by
    refine only.layout layout' ?_ fun m mark => layout'.mark m (course.endMark ▸ mark)
    have bound := layout'.upper held
    omega
  constructor
  · refine Owes.runPending now (.inr ⟨course.started.trans started, pendingS, fun x owed => ?_⟩) layout
      layoutS
    by_cases here : w = x
    · subst here
      exact .inl (.inr ((sendEntry_passes found cursor.symm).runPending layoutS pendingS))
    · rcases due x owed with done | ahead
      · exact .inl (.inl done)
      · exact .inr (ahead.pass layout' sessions found here session only.ring next
          (course.needSync.trans synced) (course.out (·.currentSession)))
  · rintro ⟨s, member, z, entry, after⟩ x owed
    have sent : z = w := by
      rcases (sendEntry_sent found member).1 with header | ⟨origin, -⟩
      · rw [header.entry?] at entry
        contradiction
      · rw [Sent.entry?, origin] at entry
        exact (Option.some.inj entry).symm
    subst sent
    rcases due x owed with done | ahead
    · exact done
    · have bound := layout.upper owed.1
      have reach := ahead.ahead
      omega

private theorem sendDue_advances (layout : start.Layout) (layout' : e.Layout) (sessions : e.InSession)
    (started : e.out.started = true) (pending : e.out.pending = .afterAir (start.nextSeq - 1))
    (due : ∀ x, start.Owed x → settled x ∨ e.Due x) (synced : e.out.needSync = false)
    (session : ∀ x cs, e.entry e.out.nextSeq = some x → e.out.currentSession = some cs →
      x.session = cs) : Advances start settled (e.sendDue now maxBytes emitted) := by
  have waits : Owes start settled e := .inr ⟨started, pending, due⟩
  unfold sendDue
  split
  · exact .silent waits rfl
  · next w found =>
    dsimp only
    split
    · exact .silent waits rfl
    · split
      · exact .silent waits rfl
      · split
        · next silenced =>
          simp [muted, pending, Pending.mutes] at silenced
        · exact sendEntry_advances layout layout' sessions started pending due synced found
            fun cs => session w cs found

/-- Searching for a keyframe leaves the change that waits. -/
theorem findSync_waits {mark : ℕ} (now : ℕ) (started : e.out.started = true)
    (pending : e.out.pending = .afterAir mark) :
    (Search.engine (e.findSync now)).out.started = true ∧
      (Search.engine (e.findSync now)).out.pending = .afterAir mark := by
  have start (k arrival : ℕ) : (e.startAt now k arrival).out.started = true ∧
      (e.startAt now k arrival).out.pending = .afterAir mark := by
    rcases e.startAt_cases now k arrival with same | ⟨none, -⟩ | ⟨none, -⟩
    · rw [same, spliceTo_pending]
      exact ⟨spliceTo_started _ _ started, pending⟩
    · rw [pending] at none
      contradiction
    · rw [spliceTo_pending, pending] at none
      contradiction
  unfold findSync
  split
  · split
    · exact ⟨started, pending⟩
    · split <;> exact ⟨started, pending⟩
  · split
    · exact ⟨started, pending⟩
    · dsimp only
      split
      · exact ⟨started, pending⟩
      · split <;> exact start _ _

private theorem sendFrom_advances (layout : start.Layout) (layout' : e.Layout) (sessions : e.InSession)
    (started : e.out.started = true) (connected : e.out.connected = true)
    (open_ : e.pastMark = false) (pending : e.out.pending = .afterAir (start.nextSeq - 1))
    (due : ∀ x, start.Owed x → settled x ∨ e.Due x)
    (session : e.out.needSync = false → ∀ x cs, e.entry e.out.nextSeq = some x →
      e.out.currentSession = some cs → x.session = cs) :
    Advances start settled (e.sendFrom now maxBytes emitted) := by
  have airs : e.out.pending.holding = false := by rw [pending]; rfl
  unfold sendFrom
  split
  · next needs =>
    have search := findSync_turns now connected airs open_ needs
    obtain ⟨started', pending'⟩ := findSync_waits now started pending
    have due' : ∀ x, start.Owed x → settled x ∨ (Search.engine (e.findSync now)).Due x :=
      fun x owed => (due x owed).imp_right fun ahead =>
        ahead.findSync layout' sessions started connected needs
    split
    · next next found =>
      rw [found] at started' pending' due'
      exact .silent (.inr ⟨started', pending', due'⟩) rfl
    · next next wake found =>
      rw [found] at started' pending' due'
      exact .silent (.inr ⟨started', pending', due'⟩) rfl
    · next next found =>
      obtain ⟨-, -, synced, session'⟩ := findSync_ready layout' airs found
      rw [found] at search started' pending' due'
      exact sendDue_advances layout (Moves.layout search.moves layout')
        ((KeepsSession.of_onlyOut (Moves.onlyOut search.moves)).inSession sessions) started' pending' due'
        synced session'
  · next synced =>
    have synced : e.out.needSync = false := by simpa using synced
    exact sendDue_advances layout layout' sessions started pending due synced (session synced)

/-- Another session at the cursor makes the output wait for its keyframe. -/
theorem noticeSession_spec (e : Engine) :
    (e.noticeSession = e ∨ e.noticeSession = { e with out := { e.out with needSync := true } }) ∧
      (e.noticeSession.out.needSync = false → ∀ x cs,
        e.noticeSession.entry e.noticeSession.out.nextSeq = some x →
          e.noticeSession.out.currentSession = some cs → x.session = cs) := by
  unfold noticeSession
  split
  · next cs w current found =>
    split
    · exact ⟨.inr rfl, by simp⟩
    · next stays =>
      refine ⟨.inl rfl, fun synced x cs' foundX current' => ?_⟩
      obtain rfl := Option.some.inj (found.symm.trans foundX)
      obtain rfl := Option.some.inj (current.symm.trans current')
      simpa [synced] using stays
  · next none =>
    exact ⟨.inl rfl, fun _ x cs found current => absurd found (none cs x current)⟩

private theorem advance_advances (layout : start.Layout) (layout' : e.Layout) (sessions : e.InSession)
    (started : e.out.started = true) (connected : e.out.connected = true)
    (pending : e.out.pending = .afterAir (start.nextSeq - 1))
    (due : ∀ x, start.Owed x → settled x ∨ e.Due x) :
    Advances start settled (e.advance now maxBytes emitted) := by
  have caught : e.catchUp.Layout ∧ e.catchUp.InSession ∧ e.catchUp.out.started = true ∧
      e.catchUp.out.connected = true ∧ e.catchUp.out.pending = .afterAir (start.nextSeq - 1) := by
    unfold catchUp
    split
    · have next := layout'.next
      exact ⟨layout'.of_out (by dsimp only; omega) layout'.mark,
        (KeepsSession.of_onlyOut (by rfl)).inSession sessions, started, connected, pending⟩
    · exact ⟨layout', sessions, started, connected, pending⟩
  have due : ∀ x, start.Owed x → settled x ∨ e.catchUp.Due x :=
    fun x owed => (due x owed).imp_right fun ahead => ahead.catchUp layout'
  unfold advance
  dsimp only
  generalize e.catchUp = e at caught due ⊢
  obtain ⟨layout', sessions, started, connected, pending⟩ := caught
  split
  · exact .silent (.inr ⟨started, pending, due⟩) rfl
  · next open_ =>
    have open_ : e.pastMark = false := by simpa using open_
    have due : ∀ x, start.Owed x → settled x ∨ e.noticeSession.Due x :=
      fun x owed => (due x owed).imp_right fun ahead => ahead.noticeSession layout' sessions connected
    obtain ⟨same, session⟩ := e.noticeSession_spec
    rcases same with same | same
    · rw [same] at due session ⊢
      exact sendFrom_advances layout layout' sessions started connected open_ pending due session
    · rw [same] at due session ⊢
      exact sendFrom_advances layout (layout'.of_out layout'.cursor layout'.mark)
        ((KeepsSession.of_onlyOut (by rfl)).inSession sessions) started connected open_ pending due session

/-- A round of the poll loop settles what it passes. -/
theorem pollRound_advances (now maxBytes emitted : ℕ) (layout : start.Layout) (layout' : e.Layout)
    (sessions : e.InSession)
    (connected : e.out.connected = true) (owes : Owes start settled e) :
    Advances start settled (e.pollRound now maxBytes emitted) := by
  rcases owes with all | ⟨started, pending, due⟩
  · exact .of_all all
  · unfold pollRound
    simp only [pending]
    exact advance_advances layout layout' sessions started connected pending due

/-- The rounds of the poll loop settle what they pass, in order. -/
theorem pollLoop_settles {fuel : ℕ} (layout : start.Layout) (layout' : e.Layout)
    (sessions : e.InSession) (connected : e.out.connected = true)
    (owes : Owes start (start.Settled played) e) :
    Owes start (start.Settled (played ++ e.pollRounds now maxBytes fuel emitted))
        (e.pollLoop now maxBytes fuel emitted).1 ∧
      Each start.Waits played (e.pollRounds now maxBytes fuel emitted) := by
  induction fuel generalizing e emitted played with
  | zero =>
    rw [pollRounds, List.append_nil]
    exact ⟨owes, trivial⟩
  | succ fuel ih =>
    have round := pollRound_advances now maxBytes emitted layout
      layout' sessions connected owes
    have turns := pollRound_turns now maxBytes emitted layout' connected
    have settles : Owes start (start.Settled (played ++
        [(Round.engine (e.pollRound now maxBytes emitted), Round.sent (e.pollRound now maxBytes emitted))]))
        (Round.engine (e.pollRound now maxBytes emitted)) := by
      refine round.owes.mono fun x done => ?_
      rcases done with (⟨r, member, passed⟩ | late) | passed
      · exact .inl ⟨r, List.mem_append_left _ member, passed⟩
      · exact .inr late
      · exact .inl ⟨_, List.mem_append_right _ (List.mem_singleton.mpr rfl), passed⟩
    have waits : start.Waits played
        (Round.engine (e.pollRound now maxBytes emitted), Round.sent (e.pollRound now maxBytes emitted)) :=
      round.order
    unfold pollLoop pollRounds
    cases ended : e.pollRound now maxBytes emitted with
    | stop next sent wake =>
      rw [ended] at settles waits
      exact ⟨settles, waits, trivial⟩
    | again next sent =>
      rw [ended] at settles waits turns
      obtain ⟨later, rest⟩ := ih (Moves.layout turns.moves layout')
        ((KeepsSession.of_onlyOut (Moves.onlyOut turns.moves)).inSession sessions)
        ((Moves.connected turns.moves).trans connected) settles
      rw [List.append_assoc] at later
      exact ⟨later, waits, rest⟩

end Rounds

/-! ## An operation -/

private theorem resumeAfter_cursor (last : Option ℕ) (e : Engine) :
    (e.resumeAfter last).out.nextSeq ≤ e.out.nextSeq := by
  obtain ⟨seq, resumed, rfl | ⟨r, -, rfl⟩⟩ := e.resumeAfter_eq last
  · exact Nat.le_of_eq (by rw [resumed])
  · rw [resumed]
    exact Nat.min_le_left _ _

/-- A message taken in leaves what is due. -/
theorem ingest_keeps {kind : Kind} {ts : ℕ} {payload : Flv.Bytes} (layout : e.Layout)
    (sessions : e.InSession) (started : e.out.started = true)
    (spared : e.spares (.ingest now kind ts payload) = true) :
    (e.ingest now kind ts payload).out = e.out ∧
      ∀ x, e.Due x → (e.ingest now kind ts payload).Due x := by
  unfold ingest
  split
  · exact ⟨rfl, fun x due => due⟩
  · next active =>
    split
    · exact ⟨rfl, fun x due => due⟩
    · next session current =>
      have spared : (e.append now kind ts payload session).evictsAired now = true := by
        simp only [spares, current, Option.all_some] at spared
        simpa [active] using spared
      have appended := append_layout layout now kind ts payload session
      have out := e.append_out now kind ts payload session
      have begun : (e.append now kind ts payload session).out.started = true := by rw [out, started]
      obtain ⟨⟨n, trimmed⟩, -⟩ := evict_keeps appended (if_pos begun) spared
      refine ⟨trimmed.out.trans out, fun x due => ?_⟩
      refine Due.evict (due.keep (fun y member => ?_) (Nat.le_of_eq (by rw [out]))
        (by rw [out]; simp)) appended
        (append_inSession layout sessions current now kind ts payload) begun spared
      unfold append
      dsimp only
      split <;> exact List.mem_append_left _ member

/-- Between polls, what is due stays due, and a new connection is all that may change what is pending. -/
theorem step_due {op : Op} (sound : e.Sound) (sessions : e.InSession) (allowed : op.carriesOn = true)
    (spared : e.spares op = true) (between : ∀ now maxBytes, op ≠ .pollBudget now maxBytes)
    (started : e.out.started = true) (airs : e.out.pending.holding = false) :
    (e.step op).1.out.started = true ∧
      ((e.step op).1.out.pending = e.out.pending ∨ ∃ now, op = .outputConnected now) ∧
        ∀ x, e.Due x → (e.step op).1.Due x := by
  cases op with
  | command | dumpAfter | outputReset | discard | restartAfterEnd => contradiction
  | pollBudget now maxBytes => exact absurd rfl (between now maxBytes)
  | ingestStart now =>
    have out : (e.ingestStart now).out = e.out := by rw [ingestStart_out, if_pos started]
    have ring : (e.ingestStart now).ring = e.ring := by
      unfold ingestStart
      simp only [started, if_true]
      exact (popIdleSession_ring e).1
    refine ⟨by dsimp only [step]; rw [out, started], .inl (by dsimp only [step]; rw [out]),
      fun x due => due.keep (fun y member => ?_) ?_ ?_⟩
    · dsimp only [step]
      rwa [ring]
    · exact Nat.le_of_eq (congrArg Output.nextSeq out)
    · dsimp only [step]
      rw [out]
      exact fun up => ⟨up, rfl, rfl⟩
  | ingestMetadata now payload =>
    obtain ⟨sessions, bytes, same⟩ := e.ingestMetadata_eq now payload
    dsimp only [step]
    rw [same]
    exact ⟨started, .inl rfl, fun x due => due.keep (fun _ => id) (Nat.le_refl _) fun up => ⟨up, rfl, rfl⟩⟩
  | ingest now kind ts payload =>
    obtain ⟨out, due⟩ := ingest_keeps sound.layout sessions started spared
    dsimp only [step]
    rw [out]
    exact ⟨started, .inl rfl, due⟩
  | outputConnected now =>
    exact ⟨(outputConnected_starts now sound.layout started airs).1, .inr ⟨now, rfl⟩,
      fun x due => due.outputConnected sound.layout sessions started airs⟩
  | outputDisconnected now lastWritten =>
    have cursor := resumeAfter_cursor lastWritten { e with out := { e.out with connected := false } }
    obtain ⟨seq, resumed, -⟩ := resumeAfter_eq lastWritten { e with out := { e.out with connected := false } }
    dsimp only [step, outputDisconnected]
    rw [resumed] at cursor ⊢
    exact ⟨started, .inl rfl, fun x due => due.keep (fun _ => id) cursor (by simp)⟩
  | unsend taken =>
    have cursor : (e.unsend taken).out.nextSeq ≤ e.out.nextSeq := by
      unfold unsend
      split
      · exact Nat.le_refl _
      · exact resumeAfter_cursor taken e
    obtain ⟨seq, headers, metadata, same⟩ := e.unsend_eq taken
    dsimp only [step]
    rw [same] at cursor ⊢
    exact ⟨started, .inl rfl, fun x due => due.keep (fun _ => id) cursor fun up => ⟨up, rfl, rfl⟩⟩
  | endAfter =>
    dsimp only [step]
    cases e.lastSeq <;>
      exact ⟨started, .inl rfl, fun x due => due.keep (fun _ => id) (Nat.le_refl _) fun up => ⟨up, rfl, rfl⟩⟩
  | ingestEnd | cancelEnd | setKeepHistory | setRestoreAfterReconnect =>
    exact ⟨started, .inl rfl, fun x due => due.keep (fun _ => id) (Nat.le_refl _) fun up => ⟨up, rfl, rfl⟩⟩

/-- The memory limit leaves what is due, where it takes nothing that is still to air. -/
theorem evict_due (sound : e.Sound) (sessions : e.InSession) (started : e.out.started = true)
    (spared : e.evictsAired now = true) :
    (e.evict now).out = e.out ∧ ∀ x, e.Due x → (e.evict now).Due x := by
  obtain ⟨⟨n, trimmed⟩, -⟩ := evict_keeps sound.layout (if_pos started) spared
  exact ⟨trimmed.out, fun x due => due.evict sound.layout sessions started spared⟩

/-- An operation that carries on settles what its rounds pass, in order. -/
theorem step_settles {op : Op} (layout : start.Layout) (sound : e.Sound) (sessions : e.InSession)
    (owes : Owes start (start.Settled played) e) (allowed : op.carriesOn = true)
    (spared : e.spares op = true) :
    Owes start (start.Settled (played ++ e.rounds op)) (e.step op).1 ∧
      Each start.Waits played (e.rounds op) := by
  by_cases polls : ∃ now maxBytes, op = .pollBudget now maxBytes
  · obtain ⟨now, maxBytes, rfl⟩ := polls
    have evicted : Owes start (start.Settled played) (e.evict now) := by
      refine owes.keep fun started pending => ?_
      obtain ⟨out, due⟩ := evict_due sound sessions started spared
      rw [out]
      exact ⟨started, pending, due⟩
    have layout' := evict_layout sound.layout now
    have ran := evicted.runPending now layout layout'
    have moves := runPending_moves now (e.evict now)
    have layoutR := Moves.layout moves layout'
    have sessionsR := (KeepsSession.of_onlyOut (Moves.onlyOut moves)).inSession
      ((evict_keepsSession sound.layout now).inSession sessions)
    dsimp only [step, rounds, pollBudget]
    cases connected : ((e.evict now).runPending now).out.connected with
    | false =>
      simp only [Bool.false_eq_true, if_false, Bool.not_false, if_true, List.append_nil]
      exact ⟨ran, trivial⟩
    | true => exact pollLoop_settles layout layoutR sessionsR connected ran
  · have between : ∀ now maxBytes, op ≠ .pollBudget now maxBytes :=
      fun now maxBytes poll => polls ⟨now, maxBytes, poll⟩
    have none : e.rounds op = [] := by
      cases op with
      | pollBudget now maxBytes => exact absurd rfl (between now maxBytes)
      | _ => rfl
    rw [none, List.append_nil]
    refine ⟨owes.keep fun started pending => ?_, trivial⟩
    obtain ⟨started', same, due⟩ := step_due sound sessions allowed spared between started (by rw [pending]; rfl)
    refine ⟨started', ?_, due⟩
    rcases same with same | ⟨now, rfl⟩
    · exact same.trans pending
    · exact outputConnected_afterAir now pending

/-! ## A run -/

theorem run_settles {ops : List Op} (layout : start.Layout) (sound : e.Sound) (sessions : e.InSession)
    (owes : Owes start (start.Settled played) e)
    (allowed : Machine.Along step (fun e op => op.carriesOn = true ∧ e.spares op = true) e ops) :
    Owes start (start.Settled (played ++ e.allRounds ops)) (e.after ops) ∧
      Each start.Waits played (e.allRounds ops) := by
  induction ops generalizing e played with
  | nil =>
    rw [allRounds, List.append_nil]
    exact ⟨owes, trivial⟩
  | cons op rest ih =>
    obtain ⟨⟨carries, spared⟩, later⟩ := allowed
    obtain ⟨next, first⟩ := step_settles layout sound sessions owes carries spared
    obtain ⟨last, second⟩ := ih (sound.step op) (step_inSession sound sessions op) next later
    rw [List.append_assoc] at last
    exact ⟨last, Each.append.mpr ⟨first, second⟩⟩

private theorem pollRounds_sends (now maxBytes fuel emitted : ℕ) (e : Engine) :
    (e.pollRounds now maxBytes fuel emitted).flatMap Prod.snd =
      (e.pollLoop now maxBytes fuel emitted).2.1 := by
  induction fuel generalizing e emitted with
  | zero => rfl
  | succ fuel ih =>
    unfold pollRounds pollLoop
    cases e.pollRound now maxBytes emitted with
    | stop next sent wake => simp only [List.flatMap_cons, List.flatMap_nil, List.append_nil]
    | again next sent => simp only [List.flatMap_cons, ih]

/-- What the rounds of a run send is what the run sends. -/
theorem allRounds_sends (e : Engine) (ops : List Op) :
    (e.allRounds ops).flatMap Prod.snd = e.sends ops := by
  induction ops generalizing e with
  | nil => rfl
  | cons op rest ih =>
    have first : (e.rounds op).flatMap Prod.snd = (e.step op).2 := by
      cases op with
      | pollBudget now maxBytes =>
        dsimp only [rounds, step, pollBudget]
        cases ((e.evict now).runPending now).out.connected with
        | false => rfl
        | true => exact pollRounds_sends _ _ _ _ _
      | _ => rfl
    rw [allRounds, List.flatMap_append, first, ih]
    rfl

/-- GoLive after air waits for everything buffered at or after the cursor. -/
theorem goLive_owes (sound : start.Sound) (running : start.out.started = true) (now : ℕ) :
    Owes start (start.Settled []) (start.command now (.goLive .afterAir)).1 := by
  have waiting : Owes start (start.Settled [])
      ((start.clearNotices (.goLive .afterAir)).goLive .afterAir) := by
    have live : (start.clearNotices (.goLive .afterAir)).goLive .afterAir =
        ((start.clearNotices (.goLive .afterAir)).retarget 0).setPending
          (.afterAir (start.nextSeq - 1)) := by
      unfold goLive
      dsimp only [clearNotices, retarget]
      rw [running]
      rfl
    rw [live]
    refine .inr ⟨running, rfl, fun x owed => ?_⟩
    refine owed.due.imp .inr fun due => ?_
    exact due.keep (fun _ => id) (Nat.le_refl _) fun up => ⟨up, rfl, rfl⟩
  have cleared := clearNotices_inPlace sound.layout (.goLive .afterAir)
  have layout := cleared.layout sound.layout
  exact waiting.runPending now sound.layout ((goLive_inPlace layout .afterAir).layout layout)

/-- After GoLive after air, in any run in which no other command comes, the broadcast is not ended and
the memory limit takes nothing that is still to air: nothing received later is sent before everything
that was buffered from the cursor on is settled, that is sent, left out, or before the keyframe its
session starts with; and so it is once the output no longer waits, which is before it jumps to live. -/
theorem airs_before_live (config : EngineConfig) (before after : List Op) (now : ℕ)
    (running : ((Engine.new config).after before).out.started = true)
    (allowed : Machine.Along step (fun e op => op.carriesOn = true ∧ e.spares op = true)
      (((Engine.new config).after before).command now (.goLive .afterAir)).1 after) :
    let start := (Engine.new config).after before
    let e := (start.command now (.goLive .afterAir)).1
    (e.allRounds after).flatMap Prod.snd = e.sends after ∧
      (∀ first round rest, e.allRounds after = first ++ round :: rest → start.Waits first round) ∧
        ∀ first, first <+: after → (e.after first).out.pending ≠ .afterAir (start.nextSeq - 1) →
          ∀ x, start.Owed x → start.Settled (e.allRounds first) x := by
  intro start e
  have sound : start.Sound := Sound.reached config before
  have sessions : start.InSession := inSession_reached config before
  have owes := goLive_owes sound running now
  have sound' : e.Sound := sound.step (.command now (.goLive .afterAir))
  have sessions' : e.InSession := step_inSession sound sessions (.command now (.goLive .afterAir))
  refine ⟨allRounds_sends e after, fun first round rest split => ?_, ?_⟩
  · have each := (run_settles sound.layout sound' sessions' owes allowed).2
    rw [split] at each
    exact each.at_split
  · rintro first ⟨second, rfl⟩ done
    have settles := (run_settles sound.layout sound' sessions' owes
      (Machine.along_append step |>.mp allowed).1).1
    rw [List.nil_append] at settles
    rcases settles with all | ⟨-, pending, -⟩
    · exact all
    · contradiction

/-- What waited out the delay airs, and the output goes live at the next keyframe. -/
def goingLive : List Op :=
  [.pollBudget (4 * SEC) 1000, .ingest (5 * SEC) .video 5000 keyframe, .pollBudget (5 * SEC) 1000]

theorem airs_before_live_airing :
    let start := (Engine.new {}).after airing
    let e := (start.command (2 * SEC) (.goLive .afterAir)).1
    (e.sends goingLive).filterMap (fun s => s.content?.map Entry.id) = [1, 2] ∧
      (e.allRounds goingLive).flatMap Prod.snd = e.sends goingLive ∧
        (∀ first round rest, e.allRounds goingLive = first ++ round :: rest → start.Waits first round) ∧
          ∀ first, first <+: goingLive →
            (e.after first).out.pending ≠ .afterAir (start.nextSeq - 1) →
              ∀ x, start.Owed x → start.Settled (e.allRounds first) x :=
  ⟨by decide +kernel,
    airs_before_live {} airing goingLive (2 * SEC) (by decide +kernel) (by decide +kernel)⟩

/-- A dump holds, and a frame that is no keyframe is received after it. -/
def holding : List Op :=
  airing ++ [.command (2 * SEC) (.dump .mask false), .ingest (3 * SEC) .video 3000 [0x27, 1, 0, 0, 0]]

/-- The output of a hold waits for a keyframe of the same session: the frame before it is neither sent
nor left out for what it is, and the keyframe after the mark airs. -/
theorem held_start_skipped :
    let start := (Engine.new {}).after holding
    let e := (start.command (3 * SEC) (.goLive .afterAir)).1
    let later : List Op := [.ingest (4 * SEC) .video 4000 keyframe, .pollBudget (6 * SEC) 1000]
    start.out.started = true ∧
      Machine.Along step (fun e op => op.carriesOn = true ∧ e.spares op = true) e later ∧
        (∃ s ∈ e.sends later, s.entry?.any (fun z => start.nextSeq ≤ z.seq)) ∧
          ∃ x ∈ start.ring, start.out.nextSeq ≤ x.seq ∧ start.out.currentSession = some x.session ∧
            ∀ round ∈ e.allRounds later, ¬ Passed x round := by
  decide +kernel

end Engine

end StreamDelay
