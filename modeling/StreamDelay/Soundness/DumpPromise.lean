import Mathlib.Tactic.Common
import StreamDelay.Proofs.Promise

/-! # The dump promise

After a dump, what was recorded later airs once the delay the dump went back to has passed, or while
the slate is up and an overlay confirmed it in time. The promise holds over every run until less is
asked for, as long as the memory suffices and nothing takes the output out of what the dump built up.
-/

namespace StreamDelay

open Foundations

/-- The operation asks for less delay than `d`, or ends the broadcast. -/
def Op.asksLess (d : ℕ) : Op → Bool
  | .command _ (.setDelay ms _) => ms * MS < d
  | .command _ (.goLive _) | .outputReset | .discard | .restartAfterEnd => true
  | _ => false

namespace Engine

/-- Where the operation says that the output goes on, if it may move the cursor back. -/
def goesBackTo (e : Engine) : Op → Option ℕ
  | .outputDisconnected _ last => last.elim e.out.firstEmitted fun s => some (s + 1)
  | .unsend taken =>
    if e.out.connected then taken.elim e.out.firstEmitted fun s => some (s + 1) else none
  | _ => none

/-- When the operation says that an overlay shows the slate of the dump that waits for it. -/
def confirms (e : Engine) : Op → Option ℕ
  | .command t (.slateShown change) =>
    match e.out.pending with
    | .dump _ _ _ none => if change = e.out.slateChange then some t else none
    | _ => none
  | _ => none

/-- When an overlay said so, during the operations. -/
def confirmations : Engine → List Op → List ℕ
  | _, [] => []
  | e, op :: rest => (e.confirms op).toList ++ confirmations (e.step op).1 rest

/-- The operation does not take the output out of a delay of `d`. -/
structure KeepsPromise (d : ℕ) (e : Engine) (op : Op) : Prop where
  /-- Less is not asked for. -/
  asks : op.asksLess d = false
  /-- The memory suffices. -/
  memory : (e.step op).1.out.memoryShort = false
  /-- A pending change given up left the delay. -/
  resumes : ∀ now mid, e.resumed op = some (now, mid) → mid.Secure now d
  /-- So did a dump before the start or at the end of a broadcast. -/
  ending : op.dumps = true → e.canDump = true → e.dumpEnding = true → d ≤ e.out.delay
  /-- Under the slate of a dump, the output does not go on before the anchor. -/
  goesBack : ∀ r m a, e.goesBackTo op = some r → e.out.pending = .mask m → m.dump = true →
    m.anchor = some a → d ≤ e.out.delay ∨ a ≤ r

variable {e e' : Engine} {now clock d : ℕ} {confirmed : ℕ → Prop} {m : MaskChange} {t a : ℕ}

/-! ## The buffer -/

/-- The messages taken off the front change nothing about what airs. -/
theorem Upholds.trimmed {n : ℕ} (upholds : Upholds confirmed clock d e) (layout : e.Layout)
    (trimmed : Trimmed n e e') : Upholds confirmed clock d e' := by
  have max : e'.maxDelay = e.maxDelay := by rw [maxDelay, trimmed.config, maxDelay]
  have margin : e'.maskMargin = e.maskMargin := by rw [maskMargin, trimmed.config, maskMargin]
  have out := trimmed.out
  refine upholds.keep (upholds.aims.congr max out) (by rw [out]) (by rw [out])
    (Nat.le_of_eq (by rw [out])) fun m t a under => .inr ?_
  refine under.congr margin (by rw [out]) (by rw [out]) (by rw [out]; exact under.cursor) ?_
    fun x member => .inl (trimmed.mem member)
  have base := trimmed.base
  rcases under.anchored with buffered | gone
  · by_cases low : e'.baseSeq ≤ a
    · exact .inl ((trimmed.mem_syncs layout).mpr ⟨buffered, low⟩)
    · exact .inr (by omega)
  · exact .inr (by omega)

/-- An eviction that reports no shortage only takes messages off the front. -/
theorem evict_upholds (upholds : Upholds confirmed clock d e) (layout : e.Layout)
    (memory : (e.evict now).out.memoryShort = false) : Upholds confirmed clock d (e.evict now) := by
  rcases evict_cases layout now with ⟨n, trimmed⟩ | short
  · exact upholds.trimmed layout trimmed
  · rw [short] at memory
    contradiction

private theorem append_upholds (upholds : Upholds confirmed now d e) (kind : Kind) (ts : ℕ)
    (payload : Flv.Bytes) (session : Session) :
    Upholds confirmed now d (e.append now kind ts payload session) := by
  have out := append_out e now kind ts payload session
  have fields : (e.append now kind ts payload session).config = e.config ∧
      (e.append now kind ts payload session).baseSeq = e.baseSeq ∧
      ∀ k ∈ e.syncs, k ∈ (e.append now kind ts payload session).syncs := by
    unfold append
    dsimp only
    split <;> refine ⟨rfl, rfl, fun k member => ?_⟩ <;> dsimp only [countSessions] <;> split <;>
      simp [member]
  obtain ⟨config, base, syncs⟩ := fields
  refine upholds.keep (upholds.aims.congr (by rw [maxDelay, config, maxDelay]) out) (by rw [out])
    (by rw [out]) (Nat.le_of_eq (by rw [out])) fun m t a under => .inr ?_
  refine under.congr (by rw [maskMargin, config, maskMargin]) (by rw [out]) (by rw [out])
    (by rw [out]; exact under.cursor) ?_ fun x member => ?_
  · rw [base]
    exact under.anchored.imp (syncs a) id
  · rcases append_mem.2.2 x member with older | ⟨-, -, arrival⟩
    · exact .inl older
    · exact .inr (Nat.le_of_eq arrival.symm)

/-! ## Connections -/

private theorem syncAtOrBefore_ge (layout : e.Layout) {seq k : ℕ} (anchored : a ∈ e.syncs ∨ a < e.baseSeq)
    (low : a ≤ seq) (found : e.syncAtOrBefore seq = some k) : a ≤ k := by
  rcases anchored with buffered | gone
  · exact newestSync_newest layout found buffered (by simpa using low)
  · obtain ⟨x, found, -⟩ := layout.sync_entry (newestSync_mem found).1
    obtain ⟨inRing, same⟩ := layout.entry_iff.mp found
    have lower := layout.lower inRing
    omega

private theorem backUnderMax_nextSeq (e : Engine) : e.backUnderMax.out.nextSeq = e.out.nextSeq := by
  rcases e.backUnderMax_out with same | ⟨-, -, same⟩ <;> rw [same]
  rfl

private theorem backToTarget_nextSeq (e : Engine) : e.backToTarget.out.nextSeq = e.out.nextSeq := by
  rcases e.backToTarget_cases with same | ⟨-, -, same⟩ <;> rw [same]
  rfl

private theorem restartFrom_nextSeq {k : ℕ} {x : Entry} (found : e.entry k = some x) (now : ℕ) :
    (e.restartFrom now k).out.nextSeq = k := by
  unfold restartFrom
  dsimp only
  rw [backUnderMax_nextSeq]
  simp only [spliceTo, show (e.noteGrowth _).entry k = some x from found]

/-- A connection starts at the cursor, or at the keyframe before it. -/
theorem outputConnected_cursor (layout : e.Layout) (now : ℕ) :
    (e.outputConnected now).out.nextSeq = e.out.nextSeq ∨
      e.syncAtOrBefore e.out.nextSeq = some (e.outputConnected now).out.nextSeq := by
  unfold outputConnected
  dsimp only
  split
  · exact .inl rfl
  · split
    · unfold reconnect
      split
      · exact .inl rfl
      · next k found =>
        have found : e.syncAtOrBefore e.out.nextSeq = some k := found
        obtain ⟨x, entry, -⟩ := layout.sync_entry (newestSync_mem found).1
        have start : ((e.freshConnection now).restartFrom now k).out.nextSeq = k :=
          restartFrom_nextSeq (e := e.freshConnection now) entry now
        dsimp only
        split
        · rw [backToTarget_nextSeq, start]
          exact .inr found
        · rw [start]
          exact .inr found
    · exact .inl rfl

private theorem outputConnected_upholds (upholds : Upholds confirmed clock d e) (layout : e.Layout)
    (positive : 0 < d) (now : ℕ) : Upholds confirmed clock d (e.outputConnected now) := by
  have slows := outputConnected_slows now e
  have aims := slows.aims upholds.aims
  rcases slows.pending with same | ⟨-, ⟨r, planned, -⟩ | ⟨none, -⟩⟩
  · have visible (covers : e.out.pending.settled = false) := slows.mask covers
    refine ⟨aims, fun airs => ?_, fun delay started fromSeq shown dumping => ?_⟩
    · rw [same] at airs
      rcases upholds.airs airs with kept | ⟨m, t, a, under⟩
      · exact .inl (Nat.le_trans kept slows.delay)
      · refine .inr ⟨m, t, a, under.of_onlyOut slows.only same (visible ?_) ?_⟩
        · rw [under.pending]
          rfl
        · rcases outputConnected_cursor layout now with cursor | keyframe
          · rw [cursor]
            exact under.cursor
          · exact syncAtOrBefore_ge layout under.anchored under.cursor keyframe
    · rw [same] at dumping
      rw [visible (by rw [dumping]; rfl)]
      exact upholds.slate delay started fromSeq shown dumping
  · exact .of_settled aims (by rw [planned]; rfl)
  · have asked := upholds.aims.asked
    have within := upholds.aims.within
    omega

/-- The cursor moved, but not back past the anchor while the slate covers less than the delay. -/
theorem cursor_upholds (upholds : Upholds confirmed clock d e) {out : Output}
    (same : out = { e.out with
      connected := out.connected, nextSeq := out.nextSeq, needSync := out.needSync,
      sentHeaders := out.sentHeaders, sentMetadata := out.sentMetadata, endMark := out.endMark })
    (cursor : ∀ m a, e.out.pending = .mask m → m.dump = true → m.anchor = some a →
      d ≤ e.out.delay ∨ a ≤ e.out.nextSeq → d ≤ e.out.delay ∨ a ≤ out.nextSeq) :
    Upholds confirmed clock d { e with out := out } := by
  have only : OnlyOut e { e with out := out } := rfl
  have pending : out.pending = e.out.pending := by rw [same]
  have delay : out.delay = e.out.delay := by rw [same]
  have visible : out.maskVisible = e.out.maskVisible := by rw [same]
  have target : out.target = e.out.target := by rw [same]
  refine upholds.keep (upholds.aims.of_out only target ?_) pending visible (Nat.le_of_eq delay.symm)
    fun m t a under => ?_
  · simp only [Output.goal, pending, delay]
    exact upholds.aims.goal
  · rcases cursor m a under.pending under.dump under.anchor (.inr under.cursor) with kept | low
    · exact .inl (Nat.le_trans kept (Nat.le_of_eq delay.symm))
    · exact .inr (under.of_onlyOut only pending visible low)

private theorem resumeAfter_upholds (upholds : Upholds confirmed clock d e) {last : Option ℕ}
    (goesBack : ∀ r m a, last.elim e.out.firstEmitted (fun s => some (s + 1)) = some r →
      e.out.pending = .mask m → m.dump = true → m.anchor = some a → d ≤ e.out.delay ∨ a ≤ r) :
    Upholds confirmed clock d (e.resumeAfter last) := by
  obtain ⟨seq, resumed, moved⟩ := e.resumeAfter_eq last
  rw [resumed]
  refine cursor_upholds upholds rfl fun m a pending dump anchor before => ?_
  rcases moved with rfl | ⟨r, resumes, rfl⟩
  · exact before
  · rcases before with kept | low
    · exact .inl kept
    · exact (goesBack r m a resumes pending dump anchor).imp id fun bound => Nat.le_min.mpr ⟨low, bound⟩

/-! ## Dumps -/

/-- A replay airs with the delay the dump goes back to. -/
theorem replayAt_delay (layout : e.Layout) (timed : Timed now e) (noMark : e.out.endMark = none)
    {delay k : ℕ} (positive : 0 < delay) (from_ : e.replayFrom now delay = some k) :
    delay ≤ (e.replayAt now delay k).out.delay := by
  obtain ⟨x, -, arrived, pended⟩ := replayFrom_entry layout timed noMark positive from_
  unfold replayAt
  dsimp only
  rw [spliceTo_delay pended, arrivalOr_eq pended]
  omega

/-- An accepted dump makes the promise, for the delay it goes back to or a lower one. -/
theorem dump_upholds (layout : e.Layout) (coherent : e.out.Coherent) (timed : Timed now e)
    (positive : 0 < d) (mode : DelayMode) (cover : Bool)
    (running : e.out.started = true → e.dumpEnding = false → d ≤ e.dumpDelay)
    (ending : e.out.started = false ∨ e.dumpEnding = true →
      d ≤ e.out.delay ∧ d ≤ e.out.target ∧ d ≤ e.maxDelay) :
    Upholds confirmed now d (e.dump now mode cover).1 ∧ (e.dump now mode cover).1.Secure now d := by
  by_cases ended : e.out.started = false ∨ e.dumpEnding = true
  · obtain ⟨target, delay, pending, max⟩ := dump_ending now mode cover e ended
    obtain ⟨kept, asked, within⟩ := ending ended
    have none : (e.dump now mode cover).1.out.pending = .none := by
      rcases pending with ⟨same, idle⟩ | none
      · exact same.trans (coherent.idle idle).1
      · exact none
    have settled : (e.dump now mode cover).1.out.pending.settled = true := by
      rw [none]
      rfl
    refine ⟨.of_settled ⟨by rwa [target], by rwa [max], ?_⟩ settled, .of_settled settled⟩
    simp only [Output.goal, none, delay]
    exact kept
  · simp only [not_or, Bool.not_eq_false, Bool.not_eq_true] at ended
    obtain ⟨started, goesOn⟩ := ended
    have reaches := running started goesOn
    obtain ⟨target, goal, max⟩ := dump_goal now mode cover e started goesOn
    have aims : (e.dump now mode cover).1.Aims d :=
      ⟨by rwa [target], by rw [max]; exact Nat.le_trans reaches e.dumpDelay_within, by rwa [goal]⟩
    refine ⟨⟨aims, ?_, ?_⟩, dump_secure now mode cover e started goesOn⟩
    · intro airs
      rcases e.dump_cases now mode cover with
        ⟨idle, -⟩ | ⟨-, ends, -⟩ | ⟨-, -, k, from_, same⟩ | ⟨-, -, same⟩
      · rw [started] at idle
        contradiction
      · rw [goesOn] at ends
        contradiction
      · have targeted : (e.retarget e.dumpDelay).Layout := layout.of_out layout.cursor layout.mark
        have longer := replayAt_delay (e := e.retarget e.dumpDelay) targeted
          (timed.of_ring fun _ => id) (dumpEnding_false.mp goesOn).1
          (Nat.lt_of_lt_of_le positive reaches) from_
        rw [same]
        exact .inl (Nat.le_trans reaches longer)
      · rw [same, holdInstead_eq] at airs
        cases cover <;> contradiction
    · intro delay begun fromSeq shown dumping
      rcases e.dump_cases now mode cover with
        ⟨idle, -⟩ | ⟨-, ends, -⟩ | ⟨-, -, k, from_, same⟩ | ⟨-, -, same⟩
      · rw [started] at idle
        contradiction
      · rw [goesOn] at ends
        contradiction
      · rw [same] at dumping
        unfold replayAt at dumping
        simp at dumping
      · rw [same, holdInstead_eq] at dumping ⊢
        cases cover with
        | false => contradiction
        | true =>
          obtain ⟨-, -, -, rfl⟩ := Pending.dump.inj dumping
          exact ⟨rfl, fun t shown => by contradiction⟩

/-! ## Commands -/

/-- The state a run has reached, at the time of the operation. -/
theorem runPending_upholds (regular : Regular now e) (positive : 0 < d) (secure : e.Secure now d)
    (upholds : Upholds confirmed now d e) : Upholds confirmed now d (e.runPending now) :=
  Moves.upholds (runPending_moves now e) regular.layout regular.sessions regular.timed positive
    secure upholds

/-- Only the output changed, and it is coherent. -/
theorem Regular.inPlace (regular : Regular now e) (change : InPlace e e')
    (coherent : e'.out.Coherent) : Regular now e' where
  sound := ⟨change.layout regular.layout, coherent⟩
  sessions := (KeepsSession.of_onlyOut change.only).inSession regular.sessions
  timed := regular.timed.of_ring fun x member => by rwa [change.only.ring] at member

private theorem clearNotices_upholds (upholds : Upholds confirmed clock d e) (cmd : Command) :
    Upholds confirmed clock d (e.clearNotices cmd) := by
  have same {out : Output} (target : out.target = e.out.target) (delay : out.delay = e.out.delay)
      (pending : out.pending = e.out.pending) (visible : out.maskVisible = e.out.maskVisible)
      (cursor : out.nextSeq = e.out.nextSeq) : Upholds confirmed clock d { e with out := out } := by
    refine upholds.keep (upholds.aims.of_out rfl target ?_) pending visible (Nat.le_of_eq delay.symm)
      fun m t a under => .inr (under.of_onlyOut rfl pending visible ?_)
    · simp only [Output.goal, pending, delay]
      exact upholds.aims.goal
    · rw [cursor]
      exact under.cursor
  cases cmd <;> exact same rfl rfl rfl rfl rfl

/-- A dump that is recovering recovers to no less than `d`. -/
theorem setDumpDelay_upholds {r : ℕ} {q : Pending} (upholds : Upholds confirmed clock d e)
    (enough : d ≤ r) (dumping : e.out.pending.withDumpDelay r = some q) :
    Upholds confirmed clock d (e.setDumpDelay r q) := by
  have max : (e.setDumpDelay r q).maxDelay = e.maxDelay := rfl
  have aims (goal : (e.setDumpDelay r q).out.goal = r) : (e.setDumpDelay r q).Aims d :=
    ⟨enough, by rw [max]; exact upholds.aims.within, by rwa [goal]⟩
  rcases withDumpDelay_cases dumping with ⟨fromSeq, delay, pending, rfl⟩ |
    ⟨fromSeq, delay, pending, rfl⟩ | ⟨delay, started, fromSeq, shown, pending, rfl⟩ |
    ⟨m, pending, isDump, rfl⟩
  · refine ⟨aims rfl, fun _ => .inl ?_, fun _ _ _ _ dumping => by contradiction⟩
    refine upholds.delay (by rw [pending]; rfl) fun m same => ?_
    rw [pending] at same
    contradiction
  · exact ⟨aims rfl, fun airs => by contradiction, fun _ _ _ _ dumping => by contradiction⟩
  · refine ⟨aims rfl, fun airs => by contradiction, fun delay' started' fromSeq' shown' dumping => ?_⟩
    obtain ⟨rfl, rfl, rfl, rfl⟩ := Pending.dump.inj dumping
    exact upholds.slate _ _ _ _ pending
  · refine ⟨aims rfl, fun _ => ?_, fun _ _ _ _ dumping => by contradiction⟩
    rcases upholds.airs (by rw [pending]; rfl) with kept | ⟨m', t, a, under⟩
    · exact .inl kept
    · obtain rfl := Pending.mask.inj (pending.symm.trans under.pending)
      exact .inr ⟨{ m with delay := r }, t, a, rfl, under.dump, under.anchor, under.confirmed,
        under.visible, under.cursor, under.anchored, under.margin, under.after⟩

private theorem afterDump_of_withDumpDelay {r : ℕ} {p : Pending} (none : p.withDumpDelay r = none) :
    p.afterDump = false := by
  cases p with
  | mask m =>
    unfold Pending.withDumpDelay at none
    dsimp only at none
    split at none
    · contradiction
    · next isDump => simpa [Pending.afterDump] using isDump
  | none | goLiveNow | afterAir | reduce => rfl
  | dump | hold | replay => contradiction

/-- With no dump recovering, the delay itself is kept. -/
theorem Upholds.delay_of_afterDump (upholds : Upholds confirmed clock d e)
    (plain : e.out.pending.afterDump = false) : d ≤ e.out.delay := by
  refine upholds.delay ?_ fun m pending dump => ?_
  · cases pending : e.out.pending <;> first | rfl | simp [pending, Pending.afterDump] at plain
  · simp [pending, Pending.afterDump, dump] at plain

private theorem setDelay_upholds (regular : Regular now e) (positive : 0 < d)
    (upholds : Upholds confirmed now d e) {r ms : ℕ} (same : ms * MS = r) {mode : DelayMode}
    (enough : d ≤ r)
    (secure : ∀ p, e.out.pending.withDumpDelay r = some p → (e.setDumpDelay r p).Secure now d) :
    Upholds confirmed now d (e.setDelay now ms mode) := by
  have asked : 0 < ms := by
    by_contra zero
    obtain rfl : ms = 0 := by omega
    omega
  unfold setDelay
  simp only [same, if_pos asked]
  split
  · next p dumping =>
    have coherent : (e.setDumpDelay r p).out.Coherent := by
      obtain ⟨holding, pending⟩ := withDumpDelay_holding dumping
      exact coherent_down (withPending_coherent regular.sound.coherent holding pending)
        ⟨rfl, rfl, rfl, rfl⟩ id (.inl rfl) (.inl rfl)
    refine runPending_upholds (regular.inPlace ?_ coherent) positive (secure p dumping)
      (setDumpDelay_upholds upholds enough dumping)
    exact out_inPlace regular.layout rfl rfl rfl
  · next none =>
    have delay := upholds.delay_of_afterDump (afterDump_of_withDumpDelay none)
    split
    · exact upholds
    · have change := changeDelay_inPlace regular.layout now r (e.effectiveMode mode)
      have coherent := changeDelay_coherent regular.layout regular.sound.coherent now r
        (e.effectiveMode mode)
      obtain ⟨target, pending, longer, goal, -⟩ :=
        changeDelay_goal now (e.effectiveMode mode) e (by omega : 0 < r)
      have aims : (e.changeDelay now r (e.effectiveMode mode)).Aims d := by
        refine ⟨by omega, ?_, by omega⟩
        rw [change.only.maxDelay]
        exact upholds.aims.within
      refine runPending_upholds (regular.inPlace change coherent) positive ?_
        ⟨aims, fun _ => .inl (by omega), fun _ _ _ _ dumping => ?_⟩
      · rcases pending with settled | ⟨m, pending, unanchored, -⟩
        · exact .of_settled settled
        · refine .of_pending (by rw [pending]; rfl) fun m' a same => ?_
          obtain rfl := Pending.mask.inj (pending.symm.trans same)
          simp [unanchored]
      · rcases pending with settled | ⟨m, pending, -⟩
        · rw [dumping] at settled
          contradiction
        · rw [pending] at dumping
          contradiction

private theorem cancel_upholds (regular : Regular now e) (enough : 500 * MS ≤ d)
    (upholds : Upholds confirmed now d e)
    (secure : e.out.pending.afterDump = true → e.Secure now d) :
    Upholds confirmed now d (e.cancel.runPending now) := by
  have positive : 0 < d := by
    simp only [MS] at enough
    omega
  cases dumping : e.out.pending.afterDump with
  | true =>
    have same : e.cancel = e := by rw [cancel, if_pos dumping]
    rw [same]
    exact runPending_upholds regular positive (secure dumping) upholds
  | false =>
    have kept := upholds.delay_of_afterDump dumping
    have within := upholds.aims.within
    obtain ⟨mid, slows, only, pending, delay, target⟩ := e.cancel_slows dumping
    have settled : e.cancel.out.pending.settled = true := by
      refine slows.settled (by rw [pending]; rfl) ?_
      rw [target, only.maxDelay, if_neg (by omega)]
      omega
    have aims : mid.Aims d := by
      refine ⟨?_, by rwa [only.maxDelay], ?_⟩
      · rw [target, if_neg (by omega)]
        omega
      · simp only [Output.goal, pending, delay]
        exact kept
    exact runPending_upholds
      (regular.inPlace (cancel_inPlace regular.layout) (cancel_coherent regular.sound.coherent))
      positive (.of_settled settled) (.of_settled (slows.aims aims) settled)

private theorem slateShown_upholds (upholds : Upholds confirmed clock d e) (change : ℕ)
    (shown : ∀ t, e.confirms (.command now (.slateShown change)) = some t → confirmed t) :
    Upholds confirmed clock d (e.slateShown now change) := by
  unfold slateShown
  split
  · exact upholds
  · next current =>
    obtain rfl : change = e.out.slateChange := by simpa using current
    split
    · next m pending =>
      split
      · next open_ =>
        have delay := upholds.delay (by rw [pending]; rfl) fun m' same _ => by
          obtain rfl := Pending.mask.inj (pending.symm.trans same)
          exact open_.1
        refine ⟨upholds.aims.of_out rfl rfl ?_, fun _ => .inl delay, fun _ _ _ _ dumping => ?_⟩
        · have goal := upholds.aims.goal
          simp only [Output.goal, pending] at goal
          exact goal
        · contradiction
      · exact upholds
    · next delay started fromSeq pending =>
      refine ⟨upholds.aims.of_out rfl rfl ?_, fun airs => by contradiction,
        fun delay' started' fromSeq' shown' dumping => ?_⟩
      · have goal := upholds.aims.goal
        simp only [Output.goal, pending] at goal
        exact goal
      · obtain ⟨rfl, rfl, rfl, rfl⟩ := Pending.dump.inj dumping
        refine ⟨(upholds.slate _ _ _ _ pending).1, fun t same => ?_⟩
        obtain rfl := Option.some.inj same
        exact shown now (by simp only [confirms, pending, if_true])
    · exact upholds

/-- What an accepted dump is given to: the connection may have said what it took, and the notices of
earlier commands are gone. -/
def dumping (e : Engine) (seq : ℕ) (headers : List (Kind × UInt16 × UInt64))
    (metadata : Option Flv.Bytes) : Engine :=
  { e with
    out :=
      { e.out with
        nextSeq := seq
        sentHeaders := headers
        sentMetadata := metadata
        memoryShort := false
        slateUnconfirmed := false
        coverLost := false
        grewOnReconnect := false } }

private theorem step_dumping {op : Op} (regular : Regular (op.now?.getD clock) e) (dumps : op.dumps = true)
    (allowed : e.canDump = true) :
    ∃ mode cover seq headers metadata, Regular (op.now?.getD clock) (e.dumping seq headers metadata) ∧
      (e.step op).1 = ((e.dumping seq headers metadata).dump (op.now?.getD clock) mode
        cover).1.runPending (op.now?.getD clock) := by
  have given {mid : Engine} {now : ℕ} (regular : Regular now mid) (mode : DelayMode) (cover : Bool)
      (allowed : mid.canDump = true) :
      Regular now (mid.clearNotices (.dump mode cover)) ∧ (mid.command now (.dump mode cover)).1 =
        ((mid.clearNotices (.dump mode cover)).dump now mode cover).1.runPending now := by
    refine ⟨regular.inPlace (clearNotices_inPlace regular.layout _)
      (clearNotices_coherent regular.sound.coherent _), ?_⟩
    have same : (mid.clearNotices (.dump mode cover)).canDump = true := allowed
    simp only [command, checkCommand, obey, same, if_true]
  cases op with
  | command now cmd =>
    cases cmd with
    | dump mode cover =>
      exact ⟨mode, cover, e.out.nextSeq, e.out.sentHeaders, e.out.sentMetadata,
        given regular mode cover allowed⟩
    | setDelay | goLive | cancel | slateShown => contradiction
  | dumpAfter now taken mode cover =>
    obtain ⟨seq, headers, metadata, unsent⟩ := e.unsend_eq taken
    have regular' := regular.inPlace (unsend_inPlace regular.layout taken)
      (unsend_coherent regular.sound.coherent taken)
    have accepted := given regular' mode cover ((unsend_canDump taken e).trans allowed)
    rw [unsent] at accepted
    refine ⟨mode, cover, seq, headers, metadata, accepted.1, ?_⟩
    dsimp only [step, dumpAfter]
    rw [if_pos allowed, unsent]
    exact accepted.2
  | ingestStart | ingestEnd | ingestMetadata | ingest | outputConnected | outputDisconnected
  | unsend | outputReset | discard | endAfter | cancelEnd | restartAfterEnd | setKeepHistory
  | setRestoreAfterReconnect | pollBudget => contradiction

/-- An accepted dump keeps a promise of `d` if it goes back to that much, or finds it. -/
theorem dumped_upholds {op : Op} (regular : Regular (op.now?.getD clock) e)
    (dumps : op.dumps = true) (allowed : e.canDump = true) (positive : 0 < d)
    (running : e.out.started = true → e.dumpEnding = false → d ≤ e.dumpDelay)
    (ending : e.out.started = false ∨ e.dumpEnding = true →
      d ≤ e.out.delay ∧ d ≤ e.out.target ∧ d ≤ e.maxDelay) :
    Upholds confirmed (op.now?.getD clock) d (e.step op).1 := by
  obtain ⟨mode, cover, seq, headers, metadata, regular, same⟩ := step_dumping regular dumps allowed
  rw [same]
  generalize op.now?.getD clock = now at regular
  generalize given : e.dumping seq headers metadata = mid at regular
  have dumped : Upholds confirmed now d (mid.dump now mode cover).1 ∧
      (mid.dump now mode cover).1.Secure now d :=
    dump_upholds regular.layout regular.sound.coherent regular.timed positive mode cover
      (by rw [← given]; exact running) (by rw [← given]; exact ending)
  have after : Regular now (mid.dump now mode cover).1 :=
    ⟨⟨dump_layout regular.layout now mode cover,
        dump_coherent regular.sound.coherent now mode cover⟩,
      dump_inSession regular.layout regular.sessions now mode cover,
      regular.timed.of_ring fun x member => dump_ring regular.layout member⟩
  exact runPending_upholds after positive dumped.2 dumped.1

private theorem command_upholds (regular : Regular now e) (enough : 500 * MS ≤ d) {cmd : Command}
    (keeps : KeepsPromise d e (.command now cmd))
    (shown : ∀ t, e.confirms (.command now cmd) = some t → confirmed t)
    (plain : ∀ mode cover, cmd = .dump mode cover → e.canDump = false)
    (upholds : Upholds confirmed now d e) : Upholds confirmed now d (e.command now cmd).1 := by
  have positive : 0 < d := by
    simp only [MS] at enough
    omega
  unfold command
  split
  · exact upholds
  · next accepted =>
    have cleared := clearNotices_inPlace regular.layout cmd
    have coherent := clearNotices_coherent regular.sound.coherent cmd
    have regular' := regular.inPlace cleared coherent
    have upholds' := clearNotices_upholds upholds cmd
    cases cmd with
    | slateShown change =>
      have change' := slateShown_inPlace regular.layout now change
      exact runPending_upholds
        (regular.inPlace change' (slateShown_coherent regular.sound.coherent now change)) positive
        (keeps.resumes now _ rfl) (slateShown_upholds upholds change shown)
    | cancel =>
      refine cancel_upholds regular enough upholds fun dumping => keeps.resumes now e ?_
      simp only [resumed, show e.out.pending.afterDump = true from dumping, if_true]
    | goLive when_ =>
      have asks := keeps.asks
      contradiction
    | setDelay ms mode =>
      have asks : ¬ms * MS < d := by simpa [Op.asksLess] using keeps.asks
      have resumes := keeps.resumes
      simp only [resumed] at resumes
      generalize same : ms * MS = r at asks resumes
      refine setDelay_upholds regular' positive upholds' same (by omega) fun p dumping => ?_
      have asked : 0 < ms := by
        by_contra zero
        obtain rfl : ms = 0 := by omega
        omega
      have dumping : e.out.pending.withDumpDelay r = some p := dumping
      have secure := resumes now (e.setDumpDelay r p) (by simp [accepted, asked, dumping])
      exact secure.congr rfl rfl rfl rfl
    | dump mode cover =>
      have refused : (e.clearNotices (.dump mode cover)).canDump = false := plain mode cover rfl
      simp only [obey, refused, Bool.false_eq_true, if_false]
      exact upholds'

/-- An operation that keeps the promise, keeps it. -/
theorem step_upholds (regular : Regular clock e) {op : Op} (le : clock ≤ op.now?.getD clock)
    (enough : 500 * MS ≤ d) (keeps : KeepsPromise d e op)
    (shown : ∀ t, e.confirms op = some t → confirmed t) (upholds : Upholds confirmed clock d e) :
    Upholds confirmed (op.now?.getD clock) d (e.step op).1 := by
  have positive : 0 < d := by
    simp only [MS] at enough
    omega
  have upholds := upholds.later le
  have regular : Regular (op.now?.getD clock) e :=
    ⟨regular.sound, regular.sessions, regular.timed.later le⟩
  have layout := regular.layout
  by_cases given : op.dumps = true ∧ e.canDump = true
  · refine dumped_upholds regular given.1 given.2 positive
      (fun _ _ => dumpDelay_of_aims positive upholds.aims) fun ended => ?_
    refine ⟨?_, upholds.aims.asked, upholds.aims.within⟩
    rcases ended with idle | ended
    · have none := (regular.sound.coherent.idle idle).1
      exact upholds.aims.delay (by rw [none]; rfl)
    · exact keeps.ending given.1 given.2 ended
  have moved {out : Output}
      (same : out = { e.out with
        connected := out.connected, nextSeq := out.nextSeq, needSync := out.needSync,
        sentHeaders := out.sentHeaders, sentMetadata := out.sentMetadata, endMark := out.endMark })
      (cursor : e.out.nextSeq ≤ out.nextSeq) :
      Upholds confirmed (op.now?.getD clock) d { e with out := out } :=
    cursor_upholds upholds same fun _ _ _ _ _ before =>
      before.imp id fun low => Nat.le_trans low cursor
  have buffer {mid : Engine} (out : mid.out = e.out) (config : mid.config = e.config)
      (ring : mid.ring = e.ring) (syncs : mid.syncs = e.syncs) (base : mid.baseSeq = e.baseSeq) :
      Upholds confirmed (op.now?.getD clock) d mid := by
    refine upholds.keep (upholds.aims.congr (by rw [maxDelay, config, maxDelay]) out) (by rw [out])
      (by rw [out]) (Nat.le_of_eq (by rw [out])) fun m t a under => .inr ?_
    exact under.congr (by rw [maskMargin, config, maskMargin]) (by rw [out]) (by rw [out])
      (by rw [out]; exact under.cursor) (by rw [syncs, base]; exact under.anchored)
      fun x member => .inl (by rwa [ring] at member)
  cases op with
  | ingestStart now =>
    have out := ingestStart_out e now
    have config := ingestStart_config now e
    dsimp only [step]
    cases started : e.out.started with
    | false =>
      have none := (regular.sound.coherent.idle started).1
      rw [if_neg (by simp [started]), dropBuffer_out] at out
      have delay := upholds.aims.delay (by rw [none]; rfl)
      refine .of_settled ⟨?_, ?_, ?_⟩ (by rw [out]; simp only [none]; rfl)
      · rw [out]
        exact upholds.aims.asked
      · rw [maxDelay, config]
        exact upholds.aims.within
      · rw [out]
        simp only [Output.goal, none]
        exact delay
    | true =>
      rw [if_pos started] at out
      obtain ⟨ring, syncs, base⟩ := ingestStart_running started now
      exact buffer out config ring syncs base
  | ingestEnd => exact buffer rfl rfl rfl rfl rfl
  | setKeepHistory | setRestoreAfterReconnect =>
    refine upholds.keep ⟨upholds.aims.asked, upholds.aims.within, upholds.aims.goal⟩ rfl rfl
      (Nat.le_refl _) fun m t a under => .inr ?_
    exact under.congr rfl rfl rfl under.cursor under.anchored fun x member => .inl member
  | ingestMetadata now payload =>
    obtain ⟨sessions, sessionBytes, same⟩ := e.ingestMetadata_eq now payload
    dsimp only [step]
    rw [same]
    exact buffer rfl rfl rfl rfl rfl
  | ingest now kind ts payload =>
    have memory := keeps.memory
    dsimp only [step] at memory ⊢
    rcases e.ingest_cases now kind ts payload with same | ⟨session, -, -, same⟩
    · rwa [same]
    · rw [same] at memory ⊢
      exact evict_upholds (append_upholds upholds kind ts payload session)
        (append_layout layout now kind ts payload session) memory
  | outputConnected now => exact outputConnected_upholds upholds layout positive now
  | outputDisconnected now last =>
    refine resumeAfter_upholds (e := { e with out := { e.out with connected := false } })
      (moved rfl (Nat.le_refl _)) fun r m a resumes => keeps.goesBack r m a resumes
  | unsend taken =>
    have goesBack := keeps.goesBack
    dsimp only [step, unsend]
    split
    · exact upholds
    · next connected =>
      simp only [goesBackTo, if_pos (by simpa using connected : e.out.connected = true)] at goesBack
      exact cursor_upholds (resumeAfter_upholds upholds goesBack) rfl
        fun _ _ _ _ _ before => before
  | dumpAfter now taken mode cover =>
    have refused : ¬e.canDump = true := fun allowed => given ⟨rfl, allowed⟩
    dsimp only [step, dumpAfter]
    rw [if_neg refused]
    split
    · exact upholds
    · unfold refuseDump clearSent
      dsimp only
      split <;> exact moved rfl (Nat.le_refl _)
  | endAfter =>
    dsimp only [step]
    cases e.lastSeq with
    | none => exact upholds
    | some => exact moved rfl (Nat.le_refl _)
  | cancelEnd => exact moved rfl (Nat.le_refl _)
  | outputReset | discard | restartAfterEnd =>
    have asks := keeps.asks
    contradiction
  | command now cmd =>
    refine command_upholds regular enough keeps shown (fun mode cover same => ?_) upholds
    subst same
    simpa using fun allowed => given ⟨rfl, allowed⟩
  | pollBudget now maxBytes =>
    have evicted := evict_layout layout now
    have moves := pollBudget_moves evicted maxBytes
    have memory : (e.evict now).out.memoryShort = false := by
      rw [← (Moves.notices moves evicted).2]
      exact keeps.memory
    exact Moves.upholds moves evicted ((evict_keepsSession layout now).inSession regular.sessions)
      (regular.timed.of_ring (evict_shrinks layout now).ring) positive
      (keeps.resumes now _ rfl) (evict_upholds upholds layout memory)

/-! ## Runs -/

/-- Every confirmation during the operations is one of those. -/
theorem confirmations_along (e : Engine) (ops : List Op) (shown : ℕ → Prop)
    (all : ∀ t ∈ e.confirmations ops, shown t) :
    Machine.Along step (fun e op => ∀ t, e.confirms op = some t → shown t) e ops := by
  induction ops generalizing e with
  | nil => exact trivial
  | cons op rest ih =>
    refine ⟨fun t confirmed => all t ?_, ih _ fun t later => all t ?_⟩
    · exact List.mem_append_left _ (by simp [confirmed])
    · exact List.mem_append_right _ later

private theorem evict_maskMargin (layout : e.Layout) (now : ℕ) : (e.evict now).maskMargin = e.maskMargin := by
  obtain ⟨n, mid, trimmed, same | same⟩ := evict_trimmed layout now
  · rw [same, maskMargin, trimmed.config, maskMargin]
  · rw [same, (memoryShort_hold now mid).1.maskMargin, maskMargin, trimmed.config, maskMargin]

/-- What a poll sends under the promise waited out the delay, or is under a slate confirmed in time. -/
theorem poll_promised (regular : Regular now e) (positive : 0 < d)
    (upholds : Upholds confirmed now d e) {maxBytes : ℕ}
    (keeps : KeepsPromise d e (.pollBudget now maxBytes)) :
    ∀ s ∈ (e.pollBudget now maxBytes).2.1, ∀ x, s.entry? = some x →
      x.arrival + d ≤ now ∨
        s.masked = true ∧ ∃ t, confirmed t ∧ t + e.maskMargin ≤ x.arrival := by
  have layout := regular.layout
  have evicted := evict_layout layout now
  have moves := pollBudget_moves evicted maxBytes
  have memory : (e.evict now).out.memoryShort = false := by
    rw [← (Moves.notices moves evicted).2]
    exact keeps.memory
  rw [← evict_maskMargin layout now]
  exact Moves.promised moves evicted ((evict_keepsSession layout now).inSession regular.sessions)
    (regular.timed.of_ring (evict_shrinks layout now).ring) positive
    (keeps.resumes now _ rfl) (evict_upholds upholds layout memory)

/-- In any run whose clock does not go back: a dump of a started broadcast, not at its end (or with
the delay it goes back to kept already), promises that delay. As long as every operation after it
keeps the promise, each buffered message a poll sends waited out the delay, or is under the slate and
arrived the margin after an overlay had confirmed it. -/
theorem dump_promise (config : EngineConfig) (before first : List Op) (dump : Op)
    (now maxBytes : ℕ) (e dumped : Engine) (reached : (Engine.new config).after before = e)
    (given : (e.step dump).1 = dumped)
    (ordered : Chronological Op.now? 0 (before ++ dump :: (first ++ [.pollBudget now maxBytes])))
    (dumps : dump.dumps = true) (allowed : e.canDump = true) (started : e.out.started = true)
    (ending : e.dumpEnding = true →
      500 * MS ≤ e.dumpDelay ∧ e.dumpDelay ≤ e.out.delay ∧ e.dumpDelay ≤ e.out.target)
    (kept : Machine.Along step (KeepsPromise e.dumpDelay) dumped
      (first ++ [.pollBudget now maxBytes])) :
    ∀ s ∈ ((dumped.after first).pollBudget now maxBytes).2.1, ∀ x, s.entry? = some x →
      x.arrival + e.dumpDelay ≤ now ∨
        s.masked = true ∧ ∃ t ∈ dumped.confirmations first,
          t + (dumped.after first).maskMargin ≤ x.arrival := by
  subst reached
  obtain ⟨earlier, le, later⟩ := Chronological.append.mp ordered
  have regular := Regular.reached config earlier
  generalize clockAfter Op.now? 0 before = clock at le later regular
  have regular' := regular.step dump le
  generalize (Engine.new config).after before = e at *
  have enough : 500 * MS ≤ e.dumpDelay := by
    cases ended : e.dumpEnding with
    | true => exact (ending ended).1
    | false => exact canDump_running allowed started ended
  have positive : 0 < e.dumpDelay := by
    simp only [MS] at enough
    omega
  have upholds : Upholds (· ∈ dumped.confirmations first) (dump.now?.getD clock) e.dumpDelay
      (e.step dump).1 := by
    refine dumped_upholds ⟨regular.sound, regular.sessions, regular.timed.later le⟩ dumps allowed
      positive (fun _ _ => Nat.le_refl _) fun ended => ?_
    have ended : e.dumpEnding = true := by simpa [started] using ended
    exact ⟨(ending ended).2.1, (ending ended).2.2, e.dumpDelay_within⟩
  rw [given] at regular' upholds
  generalize dump.now?.getD clock = moment at *
  obtain ⟨during, due, -⟩ := Chronological.append.mp later
  obtain ⟨keeps, poll, -⟩ := (Machine.along_append step).mp kept
  have confirmed := confirmations_along dumped first (· ∈ dumped.confirmations first) fun _ => id
  have reached := Chronological.preserves_along step
    (P := fun t e => Regular t e ∧ Upholds (· ∈ dumped.confirmations first) t _ e)
    (fun t e op le keeps both => ⟨both.1.step op le,
      step_upholds both.1 le enough keeps.1 keeps.2 both.2⟩)
    during (Machine.along_and step keeps confirmed) ⟨regular', upholds⟩
  generalize clockAfter Op.now? moment first = clock' at due reached
  exact poll_promised
    ⟨reached.1.sound, reached.1.sessions, reached.1.timed.later due⟩ positive
    (reached.2.later due) poll

/-- A dump holds for two seconds, and what is recorded next waits that long. -/
theorem dump_promise_held :
    ((((Engine.new {}).after (waiting ++ [.command (3 * SEC) (.dump .mask false)])).after
        [.ingest (4 * SEC) .video 4000 keyframe]).pollBudget (6 * SEC) 1000).2.1 ≠ [] ∧
      ∀ s ∈ ((((Engine.new {}).after (waiting ++ [.command (3 * SEC) (.dump .mask false)])).after
          [.ingest (4 * SEC) .video 4000 keyframe]).pollBudget (6 * SEC) 1000).2.1,
        ∀ x, s.entry? = some x → x.arrival + 2 * SEC ≤ 6 * SEC ∨ s.masked = true := by
  have asked : ((Engine.new {}).after waiting).dumpDelay = 2 * SEC := by decide +kernel
  have kept : Machine.Along step (KeepsPromise (2 * SEC))
      ((Engine.new {}).after (waiting ++ [.command (3 * SEC) (.dump .mask false)]))
      [.ingest (4 * SEC) .video 4000 keyframe, .pollBudget (6 * SEC) 1000] := by
    refine ⟨⟨rfl, by decide +kernel, fun _ _ same => by contradiction, fun dumps => by contradiction,
      fun _ _ _ same => by contradiction⟩, ⟨rfl, by decide +kernel, fun now mid same => ?_,
      fun dumps => by contradiction, fun _ _ _ same => by contradiction⟩, trivial⟩
    obtain ⟨rfl, rfl⟩ := Prod.mk.inj (Option.some.inj same)
    refine .of_unmarked (by decide +kernel) fun m pending => ?_
    have holds : ((((Engine.new {}).after (waiting ++ [.command (3 * SEC) (.dump .mask false)])).step
        (.ingest (4 * SEC) .video 4000 keyframe)).1.evict (6 * SEC)).out.pending.covers = false := by
      decide +kernel
    rw [pending] at holds
    contradiction
  rw [← asked] at kept
  refine ⟨by decide +kernel, fun s sent x buffered => ?_⟩
  have promised := dump_promise {} waiting [.ingest (4 * SEC) .video 4000 keyframe]
    (.command (3 * SEC) (.dump .mask false)) (6 * SEC) 1000 _ _ rfl rfl (by decide) rfl
    (by decide +kernel) (by decide +kernel) (by decide +kernel) kept s sent x buffered
  rw [asked] at promised
  exact promised.imp id And.left

/-- A dump during a broadcast, after which less than its delay is not asked for, and yet a poll sends
what was recorded after it too early, without a slate confirmed for it in time. -/
def Broken (config : EngineConfig) (before first : List Op) (dump : Op) (now maxBytes : ℕ) : Prop :=
  let e := (Engine.new config).after before
  let dumped := (e.step dump).1
  Chronological Op.now? 0 (before ++ dump :: (first ++ [.pollBudget now maxBytes])) ∧
    dump.dumps = true ∧ e.canDump = true ∧ e.out.started = true ∧
    (∀ op ∈ first, op.asksLess e.dumpDelay = false) ∧
    ∃ s ∈ ((dumped.after first).pollBudget now maxBytes).2.1,
      s.entry?.any fun x => dumped.nextSeq ≤ x.seq && now < x.arrival + e.dumpDelay &&
        (!s.masked || (dumped.confirmations (first.takeWhile fun op => !op.dumps)).all fun t =>
          x.arrival < t + e.maskMargin)

instance (config : EngineConfig) (before first : List Op) (dump : Op) (now maxBytes : ℕ) :
    Decidable (Broken config before first dump now maxBytes) := inferInstanceAs (Decidable (_ ∧ _))

/-- The promise is broken with the encoder away at the dump, or at a second one; when the memory turns
out short; when the anchor of the slate's mask is evicted; when a reconnect goes back before it; when
the end mark ends a hold; under the slate of a second dump; and, with the delay restored after a
reconnect, when a dump at the end mark went back to less than half a second or to no target. -/
theorem dump_promise_broken :
    Broken {} (masking ++ [.ingestEnd SEC])
        [.ingestStart (2 * SEC), .ingest (2 * SEC) .video 0 keyframe]
        (.command SEC (.dump .mask true)) (2 * SEC) 1000 ∧
      Broken {} masking
        [.ingestEnd (2 * SEC), .command (2 * SEC) (.dump .mask false), .ingestStart (3 * SEC),
          .ingest (3 * SEC) .video 0 keyframe]
        (.command SEC (.dump .mask false)) (3 * SEC) 1000 ∧
      Broken { ramCapBytes := 1000 }
        [.ingestStart 0, .outputConnected 0, .command 0 (.setDelay 10000 .rewind),
          .ingest 0 .video 0 keyframe, .pollBudget (10 * SEC) 1000]
        [.ingest (11 * SEC) .video 11000 keyframe, .ingest (16 * SEC) .video 16000 keyframe,
          .ingest (21 * SEC) .video 21000 keyframe, .pollBudget (21 * SEC) 1000,
          .ingest (22 * SEC) .video 22000 (keyframe ++ List.replicate 595 0)]
        (.command (10 * SEC) (.dump .mask false)) (22 * SEC) 1000 ∧
      Broken { ramCapBytes := 200 } masking
        [.command SEC (.slateShown 2), .ingest (3 * SEC) .video 3000 keyframe,
          .pollBudget (3 * SEC) 1000, .ingest (5 * SEC) .video 5000 keyframe]
        (.command SEC (.dump .mask true)) (5 * SEC) 1000 ∧
      Broken {} masking
        [.ingest (3 * SEC) .video 3000 keyframe, .command (3 * SEC) (.slateShown 2),
          .ingest (5 * SEC) .video 5000 keyframe, .pollBudget (5 * SEC) 1000,
          .outputDisconnected (5 * SEC) (some 0), .outputConnected (6 * SEC)]
        (.command (2 * SEC) (.dump .mask true)) (6 * SEC) 1000 ∧
      Broken {} masking
        [.endAfter, .pollBudget (2 * SEC) 1000, .cancelEnd, .ingest (3 * SEC) .video 3000 keyframe]
        (.command SEC (.dump .mask false)) (3 * SEC) 1000 ∧
      Broken {} masking
        [.command SEC (.dump .mask true), .command SEC (.slateShown 2),
          .ingest (3 * SEC) .video 3000 keyframe]
        (.command SEC (.dump .mask false)) (3 * SEC) 1000 ∧
      Broken { restoreAfterReconnect := true }
        [.ingestStart 0, .outputConnected 0, .command 0 (.setDelay 400 .rewind),
          .ingest 0 .video 0 keyframe, .pollBudget (400 * MS) 1000, .endAfter]
        [.cancelEnd, .command (400 * MS) .cancel, .ingest (500 * MS) .video 500 keyframe,
          .outputDisconnected (500 * MS) (some 0), .outputConnected (1100 * MS),
          .ingest (1200 * MS) .video 1200 keyframe]
        (.command (400 * MS) (.dump .mask false)) (1200 * MS) 1000 ∧
      Broken { restoreAfterReconnect := true }
        (waiting ++ [.command (2 * SEC) (.goLive .now), .endAfter])
        [.cancelEnd, .ingest (3 * SEC) .video 3000 keyframe,
          .outputDisconnected (3 * SEC) (some 0), .outputConnected (5 * SEC),
          .ingest (5 * SEC) .video 5000 keyframe]
        (.command (2 * SEC) (.dump .mask false)) (5 * SEC) 1000 :=
  ⟨by decide +kernel, by decide +kernel, by decide +kernel, by decide +kernel, by decide +kernel,
    by decide +kernel, by decide +kernel, by decide +kernel, by decide +kernel⟩

end Engine

end StreamDelay
