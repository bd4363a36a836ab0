import Mathlib.Tactic.Common
import StreamDelay.Proofs.Goal

/-! # What airs keeps a delay, or is under the slate

After a dump nothing airs before the delay it went back to has passed, except what the slate covers:
everything from the mask's anchor on was recorded well after an overlay confirmed it. The cursor,
the delay, the pending change and the slate keep this together, move by move.
-/

namespace StreamDelay

open Foundations

namespace Engine

/-- How long after the slate was confirmed what it covers has to be recorded. -/
def maskMargin (e : Engine) : ℕ := e.config.maskMarginMs * MS

/-- A dump airs under the slate, confirmed at `t`, from its anchor `a` on. -/
structure UnderSlate (confirmed : ℕ → Prop) (clock : ℕ) (m : MaskChange) (t a : ℕ) (e : Engine) :
    Prop where
  pending : e.out.pending = .mask m
  dump : m.dump = true
  anchor : m.anchor = some a
  confirmed : confirmed t
  visible : e.out.maskVisible = true
  cursor : a ≤ e.out.nextSeq
  anchored : a ∈ e.syncs ∨ a < e.baseSeq
  margin : t + e.maskMargin ≤ clock
  after : ∀ x ∈ e.ring, a ≤ x.seq → t + e.maskMargin ≤ x.arrival

/-- The output aims for a delay of at least `d`, and what airs until then is under the slate. -/
structure Upholds (confirmed : ℕ → Prop) (clock d : ℕ) (e : Engine) : Prop where
  aims : e.Aims d
  airs : e.out.pending.holding = false →
    d ≤ e.out.delay ∨ ∃ m t a, UnderSlate confirmed clock m t a e
  slate : ∀ delay started fromSeq shown, e.out.pending = .dump delay started fromSeq shown →
    e.out.maskVisible = true ∧ ∀ t, shown = some t → confirmed t

variable {e e' : Engine} {now clock d : ℕ} {out : List Sent} {confirmed : ℕ → Prop}
  {m : MaskChange} {t a : ℕ}

theorem OnlyOut.maskMargin (only : OnlyOut e e') : e'.maskMargin = e.maskMargin := by
  rw [Engine.maskMargin, only.config, Engine.maskMargin]

namespace UnderSlate

theorem later (under : UnderSlate confirmed clock m t a e) (le : clock ≤ now) :
    UnderSlate confirmed now m t a e :=
  { under with margin := Nat.le_trans under.margin le }

/-- The cursor went on, or the buffer lost or gained messages. -/
theorem congr (under : UnderSlate confirmed clock m t a e)
    (margin : e'.maskMargin = e.maskMargin) (pending : e'.out.pending = e.out.pending)
    (visible : e'.out.maskVisible = e.out.maskVisible) (cursor : a ≤ e'.out.nextSeq)
    (anchored : a ∈ e'.syncs ∨ a < e'.baseSeq)
    (ring : ∀ x ∈ e'.ring, x ∈ e.ring ∨ clock ≤ x.arrival) :
    UnderSlate confirmed clock m t a e' where
  pending := pending.trans under.pending
  dump := under.dump
  anchor := under.anchor
  confirmed := under.confirmed
  visible := visible.trans under.visible
  cursor := cursor
  anchored := anchored
  margin := by
    rw [margin]
    exact under.margin
  after := by
    intro x member from_
    rw [margin]
    rcases ring x member with older | new
    · exact under.after x older from_
    · exact Nat.le_trans under.margin new

/-- Only the output changed, and the cursor did not go back past the anchor. -/
theorem of_onlyOut (under : UnderSlate confirmed clock m t a e) (only : OnlyOut e e')
    (pending : e'.out.pending = e.out.pending)
    (visible : e'.out.maskVisible = e.out.maskVisible) (cursor : a ≤ e'.out.nextSeq) :
    UnderSlate confirmed clock m t a e' :=
  under.congr only.maskMargin pending visible cursor
    (by rw [only.syncs, only.baseSeq]; exact under.anchored)
    fun x member => .inl (by rwa [only.ring] at member)

end UnderSlate

namespace Upholds

theorem later (upholds : Upholds confirmed clock d e) (le : clock ≤ now) :
    Upholds confirmed now d e :=
  { upholds with
    airs := fun airs => (upholds.airs airs).imp id
      fun ⟨m, t, a, under⟩ => ⟨m, t, a, under.later le⟩ }

/-- A settled output that keeps its aim. -/
theorem of_settled (aims : e.Aims d) (settled : e.out.pending.settled = true) :
    Upholds confirmed clock d e where
  aims := aims
  airs := fun _ => .inl (aims.delay settled)
  slate := by
    intro delay started fromSeq shown pending
    rw [pending] at settled
    contradiction

/-- Without the slate of a dump, the delay itself is kept. -/
theorem delay (upholds : Upholds confirmed clock d e) (airs : e.out.pending.holding = false)
    (open_ : ∀ m, e.out.pending = .mask m → m.dump = true → m.anchor = none) : d ≤ e.out.delay := by
  rcases upholds.airs airs with kept | ⟨m, t, a, under⟩
  · exact kept
  · have none := open_ m under.pending under.dump
    rw [under.anchor] at none
    contradiction

/-- The pending change stays, and so does what airs. -/
theorem keep (upholds : Upholds confirmed clock d e) (aims : e'.Aims d)
    (pending : e'.out.pending = e.out.pending)
    (visible : e'.out.maskVisible = e.out.maskVisible) (delay : e.out.delay ≤ e'.out.delay)
    (under : ∀ m t a, UnderSlate confirmed clock m t a e →
      d ≤ e'.out.delay ∨ UnderSlate confirmed clock m t a e') :
    Upholds confirmed clock d e' where
  aims := aims
  airs := by
    intro airs
    rw [pending] at airs
    rcases upholds.airs airs with kept | ⟨m, t, a, covered⟩
    · exact .inl (Nat.le_trans kept delay)
    · exact (under m t a covered).imp id fun covered => ⟨m, t, a, covered⟩
  slate := by
    intro delay started fromSeq shown dumping
    rw [pending] at dumping
    rw [visible]
    exact upholds.slate delay started fromSeq shown dumping

end Upholds

/-! ## Moves -/

/-- The session after the one at the cursor starts ahead of it. -/
theorem lt_nextSessionStart (layout : e.Layout) (sessions : e.InSession) {s : ℕ}
    (cursor : e.cursorSession = some s) : e.out.nextSeq < e.nextSessionStart s := by
  obtain ⟨x, found, rfl⟩ := Option.map_eq_some_iff.mp cursor
  obtain ⟨member, same⟩ := layout.entry_iff.mp found
  unfold nextSessionStart
  cases next : e.ring.find? fun y => decide (x.session < y.session) with
  | none => exact same ▸ layout.upper member
  | some y =>
    have later : x.session < y.session := by simpa using List.find?_some next
    by_contra before
    have order := sessions.ordered y (List.mem_of_find?_eq_some next) x member
      (by simp only [Option.elim_some] at before; omega)
    omega

/-- The splice that starts what the slate covers. -/
theorem covered_under (layout : e.Layout) (timed : Timed now e)
    {delay started : ℕ} (visible : e.out.maskVisible = true) (shown : confirmed t)
    (first : e.firstSyncArrivedFrom (t + e.config.maskMarginMs * MS) = some a) {next : Engine}
    (spliced : next = (e.endHold now).spliceTo a (now - e.arrivalOr a now)) {mute : Bool} :
    UnderSlate confirmed now ⟨delay, started, some a, mute, some t, true⟩ t a
      (next.withPending (.mask ⟨delay, started, some a, mute, some t, true⟩)) := by
  subst spliced
  obtain ⟨sync, x, found, arrived⟩ := firstSyncArrivedFrom_mem first
  obtain ⟨member, same⟩ := layout.entry_iff.mp found
  have ended := endHold_onlyOut now e
  have only : OnlyOut e ((e.endHold now).spliceTo a (now - e.arrivalOr a now)) :=
    ended.trans (spliceTo_onlyOut _ _ _)
  have margin : e.maskMargin = e.config.maskMarginMs * MS := rfl
  have past := timed.past x member
  have start : ((e.endHold now).spliceTo a (now - e.arrivalOr a now)).out.nextSeq = a := by
    simp only [spliceTo, ended.entry, found]
  refine ⟨rfl, rfl, rfl, shown, ?_, Nat.le_of_eq start.symm, .inl ?_, ?_, ?_⟩
  · simp [endHold_out, visible]
  · rwa [(withPending_onlyOut _ _).syncs, only.syncs]
  · rw [(withPending_onlyOut _ _).maskMargin, only.maskMargin]
    omega
  · intro y buffered from_
    rw [(withPending_onlyOut _ _).ring, only.ring] at buffered
    rw [(withPending_onlyOut _ _).maskMargin, only.maskMargin]
    have order := timed.ordered x member y buffered (by omega)
    omega

theorem Move.upholds (move : Move now e e' out) (layout : e.Layout) (sessions : e.InSession)
    (timed : Timed now e) (positive : 0 < d) (secure : e.Secure now d)
    (upholds : Upholds confirmed now d e) : Upholds confirmed now d e' := by
  have only := move.onlyOut
  have aims := move.aims layout positive (fun ends _ => secure.ends ends) secure.gone upholds.aims
  have cursor (pending : e'.out.pending = e.out.pending)
      (visible : e'.out.maskVisible = e.out.maskVisible) (delay : e.out.delay ≤ e'.out.delay)
      (on : e.out.nextSeq ≤ e'.out.nextSeq) : Upholds confirmed now d e' :=
    upholds.keep aims pending visible delay fun m t a under =>
      .inr (under.of_onlyOut only pending visible (Nat.le_trans under.cursor on))
  cases move with
  | liveSplice | liveEdge | reduceDone | reduceSplice | maskGone | maskDone | holdEnded
  | replayDone => exact .of_settled aims rfl
  | holdDone _ _ _ spliced =>
    subst spliced
    exact .of_settled aims rfl
  | airedMark =>
    have goal : d ≤ 0 := aims.goal
    omega
  | unconfirmed => exact cursor rfl rfl (Nat.le_refl _) (Nat.le_refl _)
  | newSession => exact cursor rfl rfl (Nat.le_refl _) (Nat.le_refl _)
  | caughtUp _ _ behind => exact cursor rfl rfl (Nat.le_refl _) (Nat.le_of_lt behind)
  | silenced => exact cursor rfl rfl (Nat.le_refl _) (Nat.le_succ _)
  | sessionSkipped _ _ _ _ _ current =>
    exact cursor rfl rfl (Nat.le_refl _) (Nat.le_of_lt (lt_nextSessionStart layout sessions current))
  | markSkipped _ _ open_ _ _ mark =>
    simp only [pastMark, endReached, mark, Option.any_some, decide_eq_false_iff_not] at open_
    exact cursor rfl rfl (Nat.le_refl _) (by dsimp only; omega)
  | sent =>
    have course := sendEntry_course e
    exact cursor course.pending course.maskVisible (Nat.le_of_eq course.delay.symm)
      (by rw [course.nextSeq]; exact Nat.le_succ _)
  | started _ _ _ _ first =>
    have slows := slows_started layout first
    obtain ⟨candidate, ahead, -⟩ := mem_candidates.mp (startKeyframe_mem first)
    obtain ⟨x, found, -⟩ := layout.sync_entry candidate
    rcases slows.pending with same | ⟨-, ⟨r, planned, -⟩ | ⟨none, -⟩⟩
    · refine upholds.keep aims same ?_ slows.delay fun m t a under => .inr ?_
      · rcases e.startAt_cases now _ _ with same | ⟨none, -, -, same⟩ | ⟨none, -, same⟩
        · rw [same, spliceTo_maskVisible]
        · rw [same, setPending_out, spliceTo_pending, none, spliceTo_maskVisible]
          rfl
        · rw [same, setPending_out]
          dsimp only
          rw [none, spliceTo_maskVisible]
          rfl
      · have waiting : e.out.pending.settled = false := by
          rw [under.pending]
          rfl
        refine under.of_onlyOut only same (slows.mask waiting) ?_
        have start := under.cursor
        rw [startAt_nextSeq]
        simp only [spliceTo, found]
        omega
    · exact .of_settled aims (by rw [planned]; rfl)
    · have asked := upholds.aims.asked
      have within := upholds.aims.within
      omega
  | heldFrame _ holding =>
    have course := showFrame_course e now ‹_›
    refine upholds.keep aims course.pending course.maskVisible (Nat.le_of_eq course.delay.symm)
      fun m t a under => ?_
    rw [under.pending] at holding
    contradiction
  | anchored pending unanchored =>
    have delay := upholds.delay (by rw [pending]; rfl) fun m same _ => by
      obtain rfl := Pending.mask.inj (pending.symm.trans same)
      exact unanchored
    exact ⟨aims, fun _ => .inl delay, fun _ _ _ _ dumping => by contradiction⟩
  | coverLost =>
    exact ⟨aims, fun airs => by contradiction, fun _ _ _ _ dumping => by contradiction⟩
  | replayHeld =>
    exact ⟨aims, fun airs => by contradiction, fun _ _ _ _ dumping => by contradiction⟩
  | covered pending first spliced =>
    obtain ⟨visible, shown⟩ := upholds.slate _ _ _ _ pending
    exact ⟨aims, fun _ => .inr ⟨_, _, _, covered_under layout timed visible (shown _ rfl) first spliced⟩,
      fun _ _ _ _ dumping => by contradiction⟩

/-- A secure output that keeps the promise stays secure. -/
theorem Move.secure (move : Move now e e' out) (layout : e.Layout) (secure : e.Secure now d)
    (upholds : Upholds confirmed now d e) : e'.Secure now d where
  ends := by
    intro ends
    obtain ⟨delay, before | ⟨fromSeq, r, replay⟩⟩ := move.holdEnds ends
    · rw [delay]
      exact secure.ends before
    · rw [delay]
      refine upholds.delay (by rw [replay]; rfl) fun m pending => ?_
      rw [replay] at pending
      contradiction
  gone := by
    intro lost
    obtain ⟨before, grew⟩ := move.maskGone' layout lost
    exact Nat.le_trans (secure.gone before) grew

/-- Moves keep the promise of a secure output. -/
theorem Moves.upholds (moves : Moves now e e' out) (layout : e.Layout) (sessions : e.InSession)
    (timed : Timed now e) (positive : 0 < d) (secure : e.Secure now d)
    (upholds : Upholds confirmed now d e) : Upholds confirmed now d e' := by
  refine (Steps.preserves
    (P := fun e => e.Layout ∧ e.InSession ∧ Timed now e ∧ e.Secure now d ∧
      Upholds confirmed now d e) ?_ moves ⟨layout, sessions, timed, secure, upholds⟩).2.2.2.2
  rintro s t sent move ⟨layout, sessions, timed, secure, upholds⟩
  exact ⟨move.layout layout, (KeepsSession.of_onlyOut move.onlyOut).inSession sessions,
    timed.of_ring fun x member => by rwa [move.onlyOut.ring] at member,
    move.secure layout secure upholds, move.upholds layout sessions timed positive secure upholds⟩

/-- What moves send under the promise waited out the delay, or is under the slate. -/
theorem Moves.promised (moves : Moves now e e' out) (layout : e.Layout) (sessions : e.InSession)
    (timed : Timed now e) (positive : 0 < d) (secure : e.Secure now d)
    (upholds : Upholds confirmed now d e) : ∀ s ∈ out, ∀ x, s.entry? = some x →
      x.arrival + d ≤ now ∨
        s.masked = true ∧ ∃ t, confirmed t ∧ t + e.maskMargin ≤ x.arrival := by
  refine Steps.emits
    (P := fun mid => mid.Layout ∧ mid.InSession ∧ Timed now mid ∧ mid.Secure now d ∧
      Upholds confirmed now d mid ∧ mid.maskMargin = e.maskMargin)
    (Q := fun s => ∀ x, s.entry? = some x → x.arrival + d ≤ now ∨
      s.masked = true ∧ ∃ t, confirmed t ∧ t + e.maskMargin ≤ x.arrival)
    ?_ ?_ moves ⟨layout, sessions, timed, secure, upholds, rfl⟩
  · rintro s t sent move ⟨layout, sessions, timed, secure, upholds, margin⟩
    exact ⟨move.layout layout, (KeepsSession.of_onlyOut move.onlyOut).inSession sessions,
      timed.of_ring fun x member => by rwa [move.onlyOut.ring] at member,
      move.secure layout secure upholds, move.upholds layout sessions timed positive secure upholds,
      move.onlyOut.maskMargin.trans margin⟩
  · rintro s t sent move ⟨layout, -, -, -, upholds, margin⟩ m member x buffered
    obtain ⟨found, due, airs, masked⟩ := move.sends member buffered
    rcases upholds.airs airs with kept | ⟨change, t, a, under⟩
    · left
      omega
    · obtain ⟨inRing, same⟩ := layout.entry_iff.mp found
      have cursor := under.cursor
      have after := under.after x inRing (by omega)
      rw [margin] at after
      exact .inr ⟨masked.trans under.visible, t, under.confirmed, after⟩

end Engine

end StreamDelay
