import Mathlib.Tactic.Common
import StreamDelay.Foundations.Steps
import StreamDelay.Proofs.Frames

/-! # What the output can do by itself

A poll, and a command after it is obeyed, move the output along: pending changes complete or turn
into others, the cursor catches up, splices to a keyframe or skips, and messages are sent. Each of
these moves is named here with everything the code checks before it; the pending changes and the
poll loop are sequences of them.
-/

namespace StreamDelay

open Foundations

/-- A dump not yet followed by what was recorded after it. -/
def Pending.recovers : Pending → Bool
  | dump .. | hold .. | replay .. => true
  | _ => false

namespace Engine

/-- One move of the output at time `now`, and what it sends. -/
inductive Move (now : ℕ) : Engine → Engine → List Sent → Prop
  /-- GoLive jumps to the newest keyframe. -/
  | liveSplice {e : Engine} {afterSeq k : ℕ} (pending : e.out.pending = .goLiveNow afterSeq)
      (newest : e.syncs.getLast? = some k) (later : afterSeq < k)
      (ahead : e.out.nextSeq < k ∨ e.out.needSync) :
      Move now e (e.spliceTo k (now - e.arrivalOr k now)).finishPending []
  /-- GoLive at the live edge. -/
  | liveEdge {e : Engine} {afterSeq k : ℕ} (pending : e.out.pending = .goLiveNow afterSeq)
      (newest : e.syncs.getLast? = some k) (later : afterSeq < k)
      (aired : ¬(e.out.nextSeq < k ∨ e.out.needSync)) :
      Move now e
        { e with out := { e.out with delay := min e.out.delay e.out.target } }.finishPending []
  /-- Everything up to the mark aired: go live. -/
  | airedMark {e : Engine} {markSeq : ℕ} (pending : e.out.pending = .afterAir markSeq)
      (aired : markSeq < e.out.nextSeq) :
      Move now e (e.withPending (.goLiveNow (e.nextSeq - 1))) []
  | reduceDone {e : Engine} {delay : ℕ} (pending : e.out.pending = .reduce delay)
      (there : e.out.delay < delay + 500 * MS) : Move now e e.finishPending []
  | reduceSplice {e : Engine} {delay k : ℕ} (pending : e.out.pending = .reduce delay)
      (above : delay + 500 * MS ≤ e.out.delay)
      (newest : e.newestSyncArrivedBy (checkedSub now delay) = some k)
      (ahead : e.out.nextSeq < k) :
      Move now e (e.spliceTo k (now - e.arrivalOr k now)).finishPending []
  /-- No overlay confirmed the slate. -/
  | unconfirmed {e : Engine} {m : MaskChange} (pending : e.out.pending = .mask m)
      (unanchored : m.anchor = none) (unshown : m.shown = none)
      (waited : m.started + SLATE_CONFIRM_WAIT ≤ now) :
      Move now e { e with out := { e.out with slateUnconfirmed := true } } []
  | anchored {e : Engine} {m : MaskChange} {t : ℕ} {a : ℕ} (pending : e.out.pending = .mask m)
      (unanchored : m.anchor = none) (shown : m.shown = some t ∨ m.shown = none ∧ t = m.started)
      (first : e.firstSyncArrivedFrom (t + e.config.maskMarginMs * MS) = some a) :
      Move now e (e.withPending (.mask { m with anchor := some a })) []
  /-- The keyframe a mask waits for is gone. -/
  | maskGone {e : Engine} {m : MaskChange} {a : ℕ} (pending : e.out.pending = .mask m)
      (anchor : m.anchor = some a) (gone : e.entry a = none) : Move now e (e.setPending .none) []
  | maskDone {e : Engine} {m : MaskChange} {a : ℕ} {x : Entry} (pending : e.out.pending = .mask m)
      (anchor : m.anchor = some a) (found : e.entry a = some x)
      (due : x.arrival + m.delay ≤ now) :
      Move now e ((e.spliceTo a (now - x.arrival)).setPending .none) []
  /-- The slate that should cover a dump is not confirmed: hold. -/
  | coverLost {e : Engine} {delay fromSeq : ℕ} {started : ℕ}
      (pending : e.out.pending = .dump delay started fromSeq none)
      (waited : started + SLATE_CONFIRM_WAIT ≤ now) :
      Move now e
        ({ e with out := { e.out with coverLost := true } }.setPending (.hold fromSeq delay)) []
  /-- The slate covers a dump: air what it covers, while the delay builds back up. -/
  | covered {e : Engine} {delay fromSeq a : ℕ} {started t : ℕ}
      (pending : e.out.pending = .dump delay started fromSeq (some t))
      (first : e.firstSyncArrivedFrom (t + e.config.maskMarginMs * MS) = some a) {next : Engine}
      (spliced : next = (e.endHold now).spliceTo a (now - e.arrivalOr a now)) :
      Move now e
        (next.withPending
          (.mask ⟨delay, started, some a, next.config.muteUnderSlate, some t, true⟩)) []
  /-- The broadcast ends before a hold does. -/
  | holdEnded {e : Engine} {fromSeq delay m : ℕ} (pending : e.out.pending = .hold fromSeq delay)
      (nothing : e.syncs.find? (fun s => fromSeq ≤ s && e.out.endMark.all fun m => s ≤ m) = none)
      (mark : e.out.endMark = some m) :
      Move now e
        { e with
          out :=
            { e.out with
              nextSeq := max e.out.nextSeq (m + 1)
              pending := .none
              hold := none
              coverLost := false } } []
  | holdDone {e : Engine} {fromSeq delay k : ℕ} (pending : e.out.pending = .hold fromSeq delay)
      (first : e.syncs.find? (fun s => fromSeq ≤ s && e.out.endMark.all fun m => s ≤ m) = some k)
      (due : e.arrivalOr k now + delay ≤ now) {next : Engine}
      (spliced : next = ((e.endHold now).spliceTo k (now - e.arrivalOr k now)).finishPending) :
      Move now e { next with out := { next.out with coverLost := false } } []
  | replayDone {e : Engine} {fromSeq delay k : ℕ} (pending : e.out.pending = .replay fromSeq delay)
      (first : e.syncs.find? (fun s => fromSeq ≤ s) = some k)
      (due : e.arrivalOr k now + delay ≤ now) :
      Move now e (e.spliceTo k (now - e.arrivalOr k now)).finishPending []
  /-- The held frame is sent again. -/
  | heldFrame {e : Engine} {h : HoldFrame} (connected : e.out.connected)
      (holding : e.out.pending.holding) (frame : e.out.hold = some h) (due : h.next ≤ now) :
      Move now e (e.showFrame now h).1 (e.showFrame now h).2
  /-- A replay ran out long before what comes next is due. -/
  | replayHeld {e : Engine} {fromSeq delay : ℕ} (connected : e.out.connected)
      (pending : e.out.pending = .replay fromSeq delay) (ran : fromSeq ≤ e.out.nextSeq)
      (early : now + REPLAY_GAP_HELD_AFTER < e.replayDue now fromSeq delay) :
      Move now e (e.holdReplay now fromSeq delay) []
  /-- Eviction took the message at the cursor. -/
  | caughtUp {e : Engine} (connected : e.out.connected) (airs : e.out.pending.holding = false)
      (behind : e.out.nextSeq < e.baseSeq) :
      Move now e { e with out := { e.out with nextSeq := e.baseSeq, needSync := true } } []
  /-- The cursor reached another encoder session. -/
  | newSession {e : Engine} {x : Entry} {cs : ℕ} (connected : e.out.connected)
      (airs : e.out.pending.holding = false) (open_ : e.pastMark = false)
      (found : e.entry e.out.nextSeq = some x) (current : e.out.currentSession = some cs)
      (other : x.session ≠ cs) (synced : e.out.needSync = false) :
      Move now e { e with out := { e.out with needSync := true } } []
  /-- A session without a keyframe left is skipped. -/
  | sessionSkipped {e : Engine} {s : ℕ} (connected : e.out.connected)
      (airs : e.out.pending.holding = false) (open_ : e.pastMark = false)
      (needs : e.out.needSync) (nothing : e.startKeyframe now = none)
      (cursor : e.cursorSession = some s) (old : e.sessions.getLast?.map Session.id ≠ some s) :
      Move now e { e with out := { e.out with nextSeq := e.nextSessionStart s } } []
  /-- The next keyframe is past the end mark. -/
  | markSkipped {e : Engine} {k m : ℕ} (connected : e.out.connected)
      (airs : e.out.pending.holding = false) (open_ : e.pastMark = false)
      (needs : e.out.needSync) (first : e.startKeyframe now = some k)
      (mark : e.out.endMark = some m) (beyond : m < k) :
      Move now e { e with out := { e.out with nextSeq := m + 1 } } []
  /-- The output starts from a keyframe that is due. -/
  | started {e : Engine} {k : ℕ} (connected : e.out.connected)
      (airs : e.out.pending.holding = false) (open_ : e.pastMark = false)
      (needs : e.out.needSync) (first : e.startKeyframe now = some k)
      (mark : ∀ m, e.out.endMark = some m → k ≤ m)
      (due : e.arrivalOr k now + e.out.delay ≤ now) :
      Move now e (e.startAt now k (e.arrivalOr k now)) []
  /-- The message at the cursor is sent. -/
  | sent {e : Engine} {x : Entry} (connected : e.out.connected)
      (airs : e.out.pending.holding = false) (open_ : e.pastMark = false)
      (synced : e.out.needSync = false) (found : e.entry e.out.nextSeq = some x)
      (session : ∀ cs, e.out.currentSession = some cs → x.session = cs)
      (due : x.arrival + e.out.delay ≤ now) (heard : e.muted x = false) :
      Move now e e.sendEntry.1 e.sendEntry.2
  /-- The message at the cursor is left out, under the slate. -/
  | silenced {e : Engine} {x : Entry} (connected : e.out.connected)
      (airs : e.out.pending.holding = false) (open_ : e.pastMark = false)
      (synced : e.out.needSync = false) (found : e.entry e.out.nextSeq = some x)
      (session : ∀ cs, e.out.currentSession = some cs → x.session = cs)
      (due : x.arrival + e.out.delay ≤ now) (muted : e.muted x) :
      Move now e e.muteEntry []

/-- A sequence of moves at time `now`. -/
abbrev Moves (now : ℕ) : Engine → Engine → List Sent → Prop := Steps (Move now)

/-! ## Pending changes -/

theorem runGoLiveNow_moves {e : Engine} {now afterSeq : ℕ}
    (pending : e.out.pending = .goLiveNow afterSeq) : Moves now e (e.runGoLiveNow now afterSeq) [] := by
  unfold runGoLiveNow
  split
  · exact .refl e
  · next k newest =>
    obtain ⟨last, later⟩ := Option.filter_eq_some_iff.mp newest
    have later : afterSeq < k := by simpa using later
    split
    · next ahead => exact .single (.liveSplice pending last later ahead)
    · next aired => exact .single (.liveEdge pending last later aired)

theorem runMaskAt_moves {e : Engine} {now a : ℕ} {m : MaskChange}
    (pending : e.out.pending = .mask m) (anchor : m.anchor = some a) :
    Moves now e (e.runMaskAt now m a) [] := by
  unfold runMaskAt
  split
  · next gone => exact .single (.maskGone pending anchor gone)
  · next x found =>
    split
    · next due => exact .single (.maskDone pending anchor found due)
    · exact .refl e

theorem anchorMask_moves {e : Engine} {now : ℕ} {m : MaskChange} {t : ℕ}
    (pending : e.out.pending = .mask m) (unanchored : m.anchor = none)
    (shown : m.shown = some t ∨ m.shown = none ∧ t = m.started) :
    Moves now e (e.anchorMask now m (t + e.config.maskMarginMs * MS)) [] := by
  unfold anchorMask
  split
  · exact .refl e
  · next a first =>
    exact Steps.silent (.single (.anchored pending unanchored shown first))
      (runMaskAt_moves rfl rfl)

theorem runMask_moves {e : Engine} {now : ℕ} {m : MaskChange} (pending : e.out.pending = .mask m) :
    Moves now e (e.runMask now m) [] := by
  unfold runMask
  split
  · next a anchor => exact runMaskAt_moves pending anchor
  · next unanchored =>
    dsimp only
    split
    · next t shown => exact anchorMask_moves pending unanchored (.inl shown)
    · next unshown =>
      split
      · next waited =>
        exact Steps.silent (.single (.unconfirmed pending unanchored unshown waited))
          (anchorMask_moves pending unanchored (.inr ⟨unshown, rfl⟩))
      · exact .refl e

theorem runHold_moves {e : Engine} {now fromSeq delay : ℕ}
    (pending : e.out.pending = .hold fromSeq delay) : Moves now e (e.runHold now fromSeq delay) [] := by
  unfold runHold
  split
  · next nothing =>
    split
    · exact .refl e
    · next m mark => exact .single (.holdEnded pending nothing mark)
  · next k first =>
    dsimp only
    split
    · next due => exact .single (.holdDone pending first due rfl)
    · exact .refl e

private theorem runDump_moves {e : Engine} {now delay fromSeq : ℕ} {started : ℕ} {shown : Option ℕ}
    (pending : e.out.pending = .dump delay started fromSeq shown) :
    Moves now e (e.runDump now delay started fromSeq shown) [] := by
  unfold runDump
  split
  · split
    · next waited =>
      exact Steps.silent (.single (.coverLost pending waited)) (runHold_moves rfl)
    · exact .refl e
  · next t =>
    split
    · exact .refl e
    · next a first =>
      exact Steps.silent (.single (.covered pending first rfl)) (runMask_moves rfl)

/-- Looking at the pending change is a sequence of silent moves. -/
theorem runPending_moves (now : ℕ) (e : Engine) : Moves now e (e.runPending now) [] := by
  unfold runPending
  split
  · exact .refl e
  · next pending => exact runGoLiveNow_moves pending
  · next markSeq pending =>
    unfold runAfterAir
    split
    · next aired =>
      exact Steps.silent (.single (.airedMark pending aired)) (runGoLiveNow_moves rfl)
    · exact .refl e
  · next delay pending =>
    unfold runReduce
    split
    · next there => exact .single (.reduceDone pending there)
    · next above =>
      split
      · exact .refl e
      · next k newest =>
        split
        · next ahead =>
          dsimp only
          split
          · exact .refl e
          · exact .single (.reduceSplice pending (by omega) newest ahead)
        · exact .refl e
  · next pending => exact runMask_moves pending
  · next pending => exact runDump_moves pending
  · next pending => exact runHold_moves pending
  · next fromSeq delay pending =>
    unfold runReplay
    split
    · exact .refl e
    · next k first =>
      dsimp only
      split
      · next due => exact .single (.replayDone pending first due)
      · exact .refl e

/-! ## What every move leaves alone -/

theorem Move.onlyOut {now : ℕ} {e e' : Engine} {out : List Sent} (move : Move now e e' out) :
    OnlyOut e e' := by
  cases move with
  | liveSplice | reduceSplice | replayDone =>
    exact (spliceTo_onlyOut _ _ e).trans (finishPending_onlyOut _)
  | maskDone => exact (spliceTo_onlyOut _ _ e).trans (setPending_onlyOut _ _)
  | covered _ _ spliced =>
    subst spliced
    exact ((endHold_onlyOut now e).trans (spliceTo_onlyOut _ _ _)).trans (withPending_onlyOut _ _)
  | holdDone _ _ _ spliced =>
    subst spliced
    exact ((endHold_onlyOut now e).trans (spliceTo_onlyOut _ _ _)).trans rfl
  | @heldFrame h =>
    exact (show OnlyOut e ((e.frameShown now h).tally _) from rfl).trans
      (showFrame_course e now h).onlyOut
  | started => exact startAt_onlyOut now _ _ e
  | sent => exact (show OnlyOut e (e.pass.tally _) from rfl).trans (sendEntry_course e).onlyOut
  | liveEdge | airedMark | reduceDone | unconfirmed | anchored | maskGone | coverLost | holdEnded
  | replayHeld | caughtUp | newSession | sessionSkipped | markSkipped | silenced => rfl

private theorem startAt_connected (now k arrival : ℕ) (e : Engine) :
    (e.startAt now k arrival).out.connected = e.out.connected := by
  rcases e.startAt_cases now k arrival with same | ⟨-, -, -, same⟩ | ⟨-, -, same⟩ <;> simp [same]

private theorem startAt_endMark (now k arrival : ℕ) (e : Engine) :
    (e.startAt now k arrival).out.endMark = e.out.endMark := by
  rcases e.startAt_cases now k arrival with same | ⟨-, -, -, same⟩ | ⟨-, -, same⟩ <;> simp [same]

theorem startAt_nextSeq (now k arrival : ℕ) (e : Engine) :
    (e.startAt now k arrival).out.nextSeq =
      (e.spliceTo k (max e.out.delay (now - arrival))).out.nextSeq := by
  rcases e.startAt_cases now k arrival with same | ⟨-, -, -, same⟩ | ⟨-, -, same⟩ <;> simp [same]

private theorem startAt_needSync (now k arrival : ℕ) (e : Engine) :
    (e.startAt now k arrival).out.needSync =
      (e.spliceTo k (max e.out.delay (now - arrival))).out.needSync := by
  rcases e.startAt_cases now k arrival with same | ⟨-, -, -, same⟩ | ⟨-, -, same⟩ <;> simp [same]

private theorem startAt_currentSession (now k arrival : ℕ) (e : Engine) :
    (e.startAt now k arrival).out.currentSession =
      (e.spliceTo k (max e.out.delay (now - arrival))).out.currentSession := by
  rcases e.startAt_cases now k arrival with same | ⟨-, -, -, same⟩ | ⟨-, -, same⟩ <;> simp [same]

theorem startAt_hold {now k arrival : ℕ} {e : Engine} {h : HoldFrame}
    (frame : (e.startAt now k arrival).out.hold = some h) : e.out.hold = some h := by
  rcases e.startAt_cases now k arrival with same | ⟨-, -, -, same⟩ | ⟨-, -, same⟩
  · simpa [same] using frame
  · simp [same, Pending.isHold] at frame
  · simp [same, Pending.isHold] at frame

theorem startAt_holding (now k arrival : ℕ) {e : Engine} (airs : e.out.pending.holding = false) :
    (e.startAt now k arrival).out.pending.holding = false := by
  rcases e.startAt_cases now k arrival with same | ⟨-, -, -, same⟩ | ⟨-, -, same⟩
  · simp [same, airs]
  · simp [same, Pending.holding]
  · simp [same, Pending.holding]

theorem Move.endMark {now : ℕ} {e e' : Engine} {out : List Sent} (move : Move now e e' out) :
    e'.out.endMark = e.out.endMark := by
  cases move with
  | covered _ _ spliced | holdDone _ _ _ spliced => simp [spliced, endHold_out]
  | heldFrame => exact (showFrame_course e now _).endMark
  | started => exact startAt_endMark now _ _ e
  | sent => exact (sendEntry_course e).endMark
  | liveSplice | reduceSplice | replayDone | maskDone => simp
  | liveEdge | airedMark | reduceDone | unconfirmed | anchored | maskGone | coverLost | holdEnded
  | replayHeld | caughtUp | newSession | sessionSkipped | markSkipped | silenced => rfl

theorem Move.connected {now : ℕ} {e e' : Engine} {out : List Sent} (move : Move now e e' out) :
    e'.out.connected = e.out.connected := by
  cases move with
  | covered _ _ spliced | holdDone _ _ _ spliced => simp [spliced, endHold_out]
  | heldFrame => exact (showFrame_course e now _).connected
  | started => exact startAt_connected now _ _ e
  | sent => exact (sendEntry_course e).connected
  | liveSplice | reduceSplice | replayDone | maskDone => simp
  | liveEdge | airedMark | reduceDone | unconfirmed | anchored | maskGone | coverLost | holdEnded
  | replayHeld | caughtUp | newSession | sessionSkipped | markSkipped | silenced => rfl

/-! ## Finding keyframes -/

theorem newestSync_mem {e : Engine} {p : ℕ → Bool} {k : ℕ} (newest : e.newestSync p = some k) :
    k ∈ e.syncs ∧ p k :=
  ⟨List.mem_reverse.mp (List.mem_of_find?_eq_some newest), List.find?_some newest⟩

/-- No keyframe the search accepts is newer than the one it finds. -/
theorem newestSync_newest {e : Engine} (layout : e.Layout) {p : ℕ → Bool} {k s : ℕ}
    (newest : e.newestSync p = some k) (member : s ∈ e.syncs) (accepted : p s) : s ≤ k := by
  obtain ⟨-, after, before, split, refused⟩ := List.find?_eq_some_iff_append.mp newest
  have order : e.syncs = before.reverse ++ k :: after.reverse := by
    rw [← List.reverse_reverse e.syncs, split]
    simp
  have sorted := layout.syncs_sorted
  rw [order, List.pairwise_append, List.pairwise_cons] at sorted
  rw [order] at member
  rcases List.mem_append.mp member with older | rest
  · exact Nat.le_of_lt (sorted.2.2 s older k (List.mem_cons_self ..))
  · rcases List.mem_cons.mp rest with rfl | newer
    · exact Nat.le_refl _
    · have turned := refused s (List.mem_reverse.mp newer)
      simp [accepted] at turned

theorem newestSyncArrivedBy_mem {e : Engine} {t : Option ℕ} {k : ℕ}
    (newest : e.newestSyncArrivedBy t = some k) :
    k ∈ e.syncs ∧ ∃ t', t = some t' ∧ ∃ x, e.entry k = some x ∧ x.arrival ≤ t' := by
  obtain ⟨t', rfl, newest⟩ := Option.bind_eq_some_iff.mp newest
  obtain ⟨member, arrived⟩ := newestSync_mem newest
  obtain ⟨x, found, arrived⟩ := (Option.any_eq_true _ _).mp arrived
  exact ⟨member, t', rfl, x, found, of_decide_eq_true arrived⟩

theorem firstSyncArrivedFrom_mem {e : Engine} {t : ℕ} {k : ℕ}
    (first : e.firstSyncArrivedFrom t = some k) :
    k ∈ e.syncs ∧ ∃ x, e.entry k = some x ∧ t ≤ x.arrival := by
  have chosen := List.find?_some first
  obtain ⟨x, found, arrived⟩ := (Option.any_eq_true _ _).mp chosen
  exact ⟨List.mem_of_find?_eq_some first, x, found, of_decide_eq_true arrived⟩

theorem mem_candidates {e : Engine} {k : ℕ} :
    k ∈ e.candidates ↔
      k ∈ e.syncs ∧ e.out.nextSeq ≤ k ∧ (e.entry k).map Entry.session = e.cursorSession := by
  simp only [candidates, List.mem_filter, Bool.and_eq_true, decide_eq_true_eq]

/-- The keyframe the output starts from is a candidate. -/
theorem startKeyframe_mem {e : Engine} {now : ℕ} {k : ℕ} (first : e.startKeyframe now = some k) :
    k ∈ e.candidates := by
  unfold startKeyframe at first
  dsimp only at first
  split at first
  · exact List.mem_of_mem_head? (Option.mem_def.mpr first)
  · obtain ⟨f, head, chosen⟩ := Option.map_eq_some_iff.mp first
    subst chosen
    cases ready : (e.candidates.filter fun s =>
        (e.entry s).any fun x => decide (x.arrival + e.out.delay ≤ now)).getLast? with
    | none => exact List.mem_of_mem_head? (Option.mem_def.mpr head)
    | some last => exact List.mem_of_mem_filter (List.mem_of_getLast? ready)

private theorem nextSessionStart_le {e : Engine} (layout : e.Layout) (s : ℕ) :
    e.nextSessionStart s ≤ e.nextSeq := by
  unfold nextSessionStart
  cases found : e.ring.find? fun x => decide (s < x.session) with
  | none => exact Nat.le_refl _
  | some x => exact Nat.le_of_lt (layout.upper (List.mem_of_find?_eq_some found))

/-! ## The layout stays -/

theorem spliceTo_cursor {e : Engine} (layout : e.Layout) (k delay : ℕ) :
    (e.spliceTo k delay).out.nextSeq ≤ e.nextSeq := by
  cases found : e.entry k with
  | none => simpa only [spliceTo, found] using layout.cursor
  | some x =>
    rw [spliceTo_out layout delay found]
    exact Nat.le_of_lt (layout.upper (layout.entry_iff.mp found).1)

theorem Move.cursor {now : ℕ} {e e' : Engine} {out : List Sent} (move : Move now e e' out)
    (layout : e.Layout) : e'.out.nextSeq ≤ e.nextSeq := by
  have cursor := layout.cursor
  cases move with
  | liveSplice | reduceSplice | replayDone | maskDone => exact spliceTo_cursor layout _ _
  | covered _ _ spliced =>
    subst spliced
    have only := endHold_onlyOut now e
    have bound := spliceTo_cursor (only.layout layout (by simpa [endHold_out] using cursor)
      (by simpa [endHold_out] using layout.mark))
    simpa only [withPending_out, only.nextSeq] using bound _ _
  | holdDone _ _ _ spliced =>
    subst spliced
    have only := endHold_onlyOut now e
    have bound := spliceTo_cursor (only.layout layout (by simpa [endHold_out] using cursor)
      (by simpa [endHold_out] using layout.mark))
    simpa only [finishPending_out, only.nextSeq] using bound _ _
  | heldFrame =>
    rw [(showFrame_course e now _).nextSeq]
    exact cursor
  | started =>
    rw [startAt_nextSeq]
    exact spliceTo_cursor layout _ _
  | sent _ _ _ _ found =>
    rw [(sendEntry_course e).nextSeq]
    obtain ⟨member, same⟩ := layout.entry_iff.mp found
    have bound := layout.upper member
    simp only [tally, pass]
    omega
  | silenced _ _ _ _ found =>
    obtain ⟨member, same⟩ := layout.entry_iff.mp found
    have bound := layout.upper member
    simp only [muteEntry, pass, drop]
    omega
  | caughtUp =>
    have next := layout.next
    dsimp only
    omega
  | sessionSkipped => exact nextSessionStart_le layout _
  | holdEnded _ _ mark =>
    have bound := layout.mark _ mark
    dsimp only
    omega
  | markSkipped _ _ _ _ _ mark _ =>
    have bound := layout.mark _ mark
    dsimp only
    omega
  | liveEdge | airedMark | reduceDone | unconfirmed | anchored | maskGone | coverLost
  | replayHeld | newSession => exact cursor

theorem Move.layout {now : ℕ} {e e' : Engine} {out : List Sent} (move : Move now e e' out)
    (layout : e.Layout) : e'.Layout := by
  refine move.onlyOut.layout layout (move.cursor layout) fun m mark => layout.mark m ?_
  rwa [← move.endMark]

theorem Moves.onlyOut {now : ℕ} {e e' : Engine} {out : List Sent} (moves : Moves now e e' out) :
    OnlyOut e e' :=
  Steps.relates .refl (fun _ _ _ => .trans) (fun _ _ _ move => move.onlyOut) moves

theorem Moves.layout {now : ℕ} {e e' : Engine} {out : List Sent} (moves : Moves now e e' out)
    (layout : e.Layout) : e'.Layout :=
  Steps.preserves (fun _ _ _ move layout => move.layout layout) moves layout

theorem Moves.connected {now : ℕ} {e e' : Engine} {out : List Sent} (moves : Moves now e e' out) :
    e'.out.connected = e.out.connected :=
  Steps.constant (·.out.connected) (fun _ _ _ move => move.connected) moves

theorem Moves.endMark {now : ℕ} {e e' : Engine} {out : List Sent} (moves : Moves now e e' out) :
    e'.out.endMark = e.out.endMark :=
  Steps.constant (·.out.endMark) (fun _ _ _ move => move.endMark) moves

/-! ## The poll loop -/

/-- Only a dump starts a hold or a replay. -/
theorem Move.recovers {now : ℕ} {e e' : Engine} {out : List Sent} (move : Move now e e' out)
    (past : e.out.pending.recovers = false) : e'.out.pending.recovers = false := by
  cases move with
  | coverLost pending | covered pending | holdEnded pending | holdDone pending | replayDone pending
  | replayHeld _ pending =>
    rw [pending] at past
    contradiction
  | heldFrame => rwa [(showFrame_course e now _).pending]
  | sent => rwa [(sendEntry_course e).pending]
  | started =>
    rcases e.startAt_cases now _ _ with same | ⟨-, -, -, same⟩ | ⟨-, -, same⟩
    · rwa [same, spliceTo_pending]
    · rw [same]
      rfl
    · rw [same]
      rfl
  | liveSplice | liveEdge | airedMark | reduceDone | reduceSplice | maskGone | maskDone
  | anchored => rfl
  | unconfirmed | caughtUp | newSession | sessionSkipped | markSkipped | silenced => exact past

/-- A move of the poll loop: it ends no hold. -/
def Turn (now : ℕ) (e e' : Engine) (out : List Sent) : Prop :=
  Move now e e' out ∧ (e.out.pending.holding → e'.out.pending.holding)

abbrev Turns (now : ℕ) : Engine → Engine → List Sent → Prop := Steps (Turn now)

theorem Move.turn {now : ℕ} {e e' : Engine} {out : List Sent} (move : Move now e e' out)
    (airs : e.out.pending.holding = false) : Turns now e e' out :=
  .single ⟨move, by simp [airs]⟩

theorem Turns.moves {now : ℕ} {e e' : Engine} {out : List Sent} (turns : Turns now e e' out) :
    Moves now e e' out := Steps.mono (fun _ _ _ => And.left) turns

/-- With nothing held, looking at the pending change ends no hold. -/
theorem runPending_turns (now : ℕ) {e : Engine} (airs : e.out.pending.holding = false) :
    Turns now e (e.runPending now) [] := by
  cases past : e.out.pending.recovers with
  | false =>
    refine Steps.mono ?_ (Steps.within (P := fun e => e.out.pending.recovers = false)
      (fun _ _ _ move => move.recovers) (runPending_moves now e) past)
    rintro s t out ⟨move, past⟩
    refine ⟨move, fun holding => ?_⟩
    cases pending : s.out.pending <;> simp [pending, Pending.recovers, Pending.holding] at past holding
  | true =>
    cases pending : e.out.pending with
    | replay fromSeq delay =>
      simp only [runPending, pending, runReplay]
      split
      · exact .refl e
      · next k first =>
        split
        · next due => exact (Move.replayDone pending first due).turn airs
        · exact .refl e
    | _ => simp [pending, Pending.recovers, Pending.holding] at past airs

section Rounds

variable {now maxBytes emitted : ℕ} {e : Engine}

/-- The engine a round leaves. -/
def Round.engine : Round → Engine
  | .again e _ | .stop e _ _ => e

/-- What a round sends. -/
def Round.sent : Round → List Sent
  | .again _ sent | .stop _ sent _ => sent

/-- The engine the search for a keyframe leaves. -/
def Search.engine : Search → Engine
  | .again e | .stop e _ | .ready e => e

/-- A message that is due is sent, or left out, and the pending change looked at again. -/
theorem sendDue_turns (connected : e.out.connected) (airs : e.out.pending.holding = false)
    (before : e.pastMark = false) (synced : e.out.needSync = false)
    (session : ∀ x cs, e.entry e.out.nextSeq = some x → e.out.currentSession = some cs →
      x.session = cs) :
    Turns now e (Round.engine (e.sendDue now maxBytes emitted))
      (Round.sent (e.sendDue now maxBytes emitted)) := by
  unfold sendDue
  split
  · exact .refl e
  · next x found =>
    dsimp only
    split
    · exact .refl e
    · next due =>
      have due : x.arrival + e.out.delay ≤ now := by omega
      have current := fun cs => session x cs found
      split
      · exact .refl e
      · split
        · next muted =>
          exact Steps.silent
            ((Move.silenced connected airs before synced found current due muted).turn airs)
            (runPending_turns now airs)
        · next heard =>
          have sent := Move.sent connected airs before synced found current due
            (by simpa using heard)
          have airs' : e.sendEntry.1.out.pending.holding = false := by
            rw [(sendEntry_course e).pending]
            exact airs
          simpa only [List.append_nil, Round.engine, Round.sent] using
            (sent.turn airs).trans (runPending_turns now airs')

theorem findSync_turns (now : ℕ) (connected : e.out.connected) (airs : e.out.pending.holding = false)
    (before : e.pastMark = false) (needs : e.out.needSync) :
    Turns now e (Search.engine (e.findSync now)) [] := by
  unfold findSync
  split
  · next nothing =>
    split
    · exact .refl e
    · next s cursor =>
      split
      · next old =>
        exact (Move.sessionSkipped connected airs before needs nothing cursor old).turn airs
      · exact .refl e
  · next k first =>
    split
    · next m mark =>
      obtain ⟨marked, beyond⟩ := Option.filter_eq_some_iff.mp mark
      exact (Move.markSkipped connected airs before needs first marked
        (of_decide_eq_true beyond)).turn airs
    · next inside =>
      have mark : ∀ m, e.out.endMark = some m → k ≤ m := by
        intro m marked
        simpa [marked] using inside
      dsimp only
      split
      · exact .refl e
      · next due =>
        have start := Move.started connected airs before needs first mark (by omega)
        split <;> exact start.turn airs

/-- A search that found its keyframe leaves the output ready to send from it. -/
theorem findSync_ready {e' : Engine} (layout : e.Layout) (airs : e.out.pending.holding = false)
    (ready : e.findSync now = .ready e') :
    e'.out.pending.holding = false ∧ e'.pastMark = false ∧ e'.out.needSync = false ∧
      ∀ x cs, e'.entry e'.out.nextSeq = some x → e'.out.currentSession = some cs →
        x.session = cs := by
  unfold findSync at ready
  split at ready
  · split at ready
    · contradiction
    · split at ready <;> contradiction
  · next k first =>
    split at ready
    · contradiction
    · dsimp only at ready
      split at ready
      · contradiction
      · split at ready
        · contradiction
        · next before =>
          obtain rfl := Search.ready.inj ready
          obtain ⟨x, found, -, -, -⟩ :=
            layout.sync_entry (mem_candidates.mp (startKeyframe_mem first)).1
          have spliced := spliceTo_out layout (max e.out.delay (now - e.arrivalOr k now)) found
          refine ⟨startAt_holding now k _ airs, by simpa using before, ?_, ?_⟩
          · rw [startAt_needSync, spliced]
            rfl
          · intro y cs foundY current
            rw [startAt_currentSession, spliced] at current
            rw [startAt_nextSeq, spliced, (startAt_onlyOut now k _ e).entry] at foundY
            have member := (layout.entry_iff.mp found).1
            obtain rfl := Option.some.inj ((layout.entry_mem member).symm.trans foundY)
            exact Option.some.inj current

/-- The search for a keyframe, and what is due from it. -/
theorem sendFrom_turns (layout : e.Layout) (connected : e.out.connected)
    (airs : e.out.pending.holding = false) (before : e.pastMark = false)
    (session : e.out.needSync = false → ∀ x cs, e.entry e.out.nextSeq = some x →
      e.out.currentSession = some cs → x.session = cs) :
    Turns now e (Round.engine (e.sendFrom now maxBytes emitted))
      (Round.sent (e.sendFrom now maxBytes emitted)) := by
  unfold sendFrom
  split
  · next needs =>
    have search := findSync_turns now connected airs before needs
    split
    · next next found =>
      rw [found] at search
      exact search
    · next next wake found =>
      rw [found] at search
      exact search
    · next next found =>
      obtain ⟨airs, before, synced, session⟩ := findSync_ready layout airs found
      rw [found] at search
      exact search.silent
        (sendDue_turns ((Moves.connected search.moves).trans connected) airs before synced session)
  · next synced =>
    have synced : e.out.needSync = false := by simpa using synced
    exact sendDue_turns connected airs before synced (session synced)

theorem advance_turns (layout : e.Layout) (connected : e.out.connected)
    (airs : e.out.pending.holding = false) :
    Turns now e (Round.engine (e.advance now maxBytes emitted))
      (Round.sent (e.advance now maxBytes emitted)) := by
  have caught : Turns now e e.catchUp [] := by
    unfold catchUp
    split
    · next behind => exact (Move.caughtUp connected airs behind).turn airs
    · exact .refl e
  have layout := Moves.layout caught.moves layout
  have connected : e.catchUp.out.connected := (Moves.connected caught.moves).trans connected
  have airs : e.catchUp.out.pending.holding = false := by
    unfold catchUp
    split <;> exact airs
  unfold advance
  dsimp only
  split
  · exact caught
  · next before =>
    have before : e.catchUp.pastMark = false := by simpa using before
    refine caught.silent ?_
    generalize e.catchUp = e at layout connected airs before
    by_cases other : e.out.needSync = false ∧ ∃ x cs, e.entry e.out.nextSeq = some x ∧
        e.out.currentSession = some cs ∧ x.session ≠ cs
    · obtain ⟨synced, x, cs, found, current, other⟩ := other
      have noticed : e.noticeSession = { e with out := { e.out with needSync := true } } := by
        simp [noticeSession, found, current, synced, other]
      rw [noticed]
      have move : Move now e { e with out := { e.out with needSync := true } } [] :=
        .newSession connected airs before found current other synced
      exact Steps.silent (move.turn airs)
        (sendFrom_turns (move.layout layout) connected airs before (by simp))
    · have same : e.noticeSession = e := by
        unfold noticeSession
        split
        · next cs x current found =>
          split
          · next change =>
            simp only [Bool.and_eq_true, Bool.not_eq_true', decide_eq_true_eq] at change
            exact absurd ⟨change.1, x, cs, found, current, change.2⟩ other
          · rfl
        · rfl
      rw [same]
      refine sendFrom_turns layout connected airs before fun synced x cs found current => ?_
      by_contra different
      exact other ⟨synced, x, cs, found, current, different⟩

/-- A round of the poll loop is a sequence of turns. -/
theorem pollRound_turns (now maxBytes emitted : ℕ) (layout : e.Layout) (connected : e.out.connected) :
    Turns now e (Round.engine (e.pollRound now maxBytes emitted))
      (Round.sent (e.pollRound now maxBytes emitted)) := by
  have held (holding : e.out.pending.holding) :
      Turns now e (e.emitHoldFrame now).1 (e.emitHoldFrame now).2.1 := by
    unfold emitHoldFrame
    split
    · exact .refl e
    · next h frame =>
      split
      · exact .refl e
      · refine .single ⟨.heldFrame connected holding frame (by omega), fun _ => ?_⟩
        rw [(showFrame_course e now h).pending]
        exact holding
  unfold pollRound
  split
  · next pending => exact held (by rw [pending]; rfl)
  · next pending => exact held (by rw [pending]; rfl)
  · next fromSeq delay pending =>
    split
    · next ran =>
      split
      · next early =>
        exact (Move.replayHeld connected pending ran early).turn (by rw [pending]; rfl)
      · exact .refl e
    · exact advance_turns layout connected (by rw [pending]; rfl)
  · next notDump notHold notReplay =>
    refine advance_turns layout connected ?_
    cases pending : e.out.pending with
    | dump => exact absurd pending (notDump _ _ _ _)
    | hold => exact absurd pending (notHold _ _)
    | none | goLiveNow | afterAir | reduce | mask | replay => rfl

theorem payloadBytes_append (xs ys : List Sent) : payloadBytes (xs ++ ys) = payloadBytes xs + payloadBytes ys := by
  unfold payloadBytes
  rw [List.map_append, List.sum_append]

/-- The poll loop is a sequence of turns, whatever its bound. -/
theorem pollLoop_turns {fuel : ℕ} (layout : e.Layout) (connected : e.out.connected) :
    Turns now e (e.pollLoop now maxBytes fuel emitted).1
      (e.pollLoop now maxBytes fuel emitted).2.1 := by
  induction fuel generalizing e emitted with
  | zero => exact .refl e
  | succ fuel ih =>
    have round := pollRound_turns now maxBytes emitted layout connected
    unfold pollLoop
    split
    · next stopped =>
      rw [stopped] at round
      exact round
    · next mid sent again =>
      rw [again] at round
      exact round.trans
        (ih (Moves.layout round.moves layout) ((Moves.connected round.moves).trans connected))

end Rounds

/-- A poll evicts, looks at the pending change, and then takes its turns. -/
theorem pollBudget_turns {e : Engine} (layout : (e.evict now).Layout) (maxBytes : ℕ) :
    Turns now ((e.evict now).runPending now) (e.pollBudget now maxBytes).1
      (e.pollBudget now maxBytes).2.1 := by
  unfold pollBudget
  dsimp only
  split
  · exact .refl _
  · next connected =>
    exact pollLoop_turns (Moves.layout (runPending_moves now _) layout) (by simpa using connected)

theorem pollBudget_moves {e : Engine} (layout : (e.evict now).Layout) (maxBytes : ℕ) :
    Moves now (e.evict now) (e.pollBudget now maxBytes).1 (e.pollBudget now maxBytes).2.1 :=
  (runPending_moves now _).silent (pollBudget_turns layout maxBytes).moves

end Engine

end StreamDelay
