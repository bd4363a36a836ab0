import Mathlib.Tactic.Common
import StreamDelay.Proofs.Timed

/-! # What the output still has to air

A buffered message ahead of the cursor is due when the output cannot get past it without looking at it:
there is a keyframe of its session to start from, at or after the cursor, or the output is past that
keyframe and airs its session.
-/

namespace StreamDelay

open Foundations

namespace Engine

/-- The output comes to `x` before anything after it. -/
structure Due (e : Engine) (x : Entry) : Prop where
  member : x ∈ e.ring
  ahead : e.out.nextSeq ≤ x.seq
  /-- The keyframe it starts from. -/
  keyframe : ∃ y ∈ e.ring, y.sync = true ∧ y.session = x.session ∧ y.seq ≤ x.seq ∧
    (e.out.nextSeq ≤ y.seq ∨ e.out.connected = false ∨
      e.out.needSync = false ∧ ∀ cs, e.out.currentSession = some cs → cs = x.session)

variable {e e' : Engine} {x : Entry} {now : ℕ}

/-- What is buffered between two messages of a session is of that session. -/
theorem InSession.between (sessions : e.InSession) {y w : Entry} (left : y ∈ e.ring) (middle : w ∈ e.ring)
    (right : x ∈ e.ring) (after : y.seq ≤ w.seq) (before : w.seq ≤ x.seq)
    (same : y.session = x.session) : w.session = x.session := by
  have lower := sessions.ordered y left w middle after
  have upper := sessions.ordered w middle x right before
  omega

namespace Due

/-- The cursor may go back, and messages may come. -/
theorem keep (due : e.Due x) (ring : ∀ y ∈ e.ring, y ∈ e'.ring)
    (cursor : e'.out.nextSeq ≤ e.out.nextSeq)
    (flows : e'.out.connected = true → e.out.connected = true ∧ e'.out.needSync = e.out.needSync ∧
      e'.out.currentSession = e.out.currentSession) : e'.Due x := by
  obtain ⟨member, ahead, y, buffered, sync, session, before, reach⟩ := due
  refine ⟨ring x member, Nat.le_trans cursor ahead, y, ring y buffered, sync, session, before, ?_⟩
  rcases reach with ahead | down | ⟨synced, current⟩
  · exact .inl (Nat.le_trans cursor ahead)
  · cases connected : e'.out.connected with
    | false => exact .inr (.inl rfl)
    | true =>
      rw [(flows connected).1] at down
      contradiction
  · cases connected : e'.out.connected with
    | false => exact .inr (.inl rfl)
    | true =>
      obtain ⟨-, needs, same⟩ := flows connected
      exact .inr (.inr ⟨needs.trans synced, same ▸ current⟩)

/-- The cursor catches up with the buffer. -/
theorem catchUp (due : e.Due x) (layout : e.Layout) : e.catchUp.Due x := by
  unfold Engine.catchUp
  split
  · obtain ⟨member, ahead, y, buffered, sync, session, before, -⟩ := due
    exact ⟨member, layout.lower member, y, buffered, sync, session, before,
      .inl (layout.lower buffered)⟩
  · exact due

/-- At another session the output waits for its keyframe. -/
theorem noticeSession (due : e.Due x) (layout : e.Layout) (sessions : e.InSession)
    (connected : e.out.connected = true) : e.noticeSession.Due x := by
  unfold Engine.noticeSession
  split
  · next cs w current found =>
    split
    · next change =>
      simp only [Bool.and_eq_true, Bool.not_eq_true', decide_eq_true_eq] at change
      obtain ⟨member, ahead, y, buffered, sync, session, before, reach⟩ := due
      refine ⟨member, ahead, y, buffered, sync, session, before, .inl ?_⟩
      rcases reach with ahead | down | ⟨-, same⟩
      · exact ahead
      · rw [connected] at down
        contradiction
      · by_contra passed
        obtain ⟨held, at_⟩ := layout.entry_iff.mp found
        refine change.2 ((sessions.between buffered held member ?_ ?_ session).trans (same cs current).symm)
        · show y.seq ≤ w.seq
          simp only at passed
          omega
        · omega
    · exact due
  · exact due

end Due

/-- The first candidate comes before every other. -/
theorem candidates_head (layout : e.Layout) {k s : ℕ} (first : e.candidates.head? = some k)
    (member : s ∈ e.candidates) : k ≤ s := by
  have sorted : e.candidates.Pairwise (· < ·) := layout.syncs_sorted.filter _
  obtain ⟨rest, split⟩ := List.head?_eq_some_iff.mp first
  rw [split, List.pairwise_cons] at sorted
  rw [split] at member
  rcases List.mem_cons.mp member with rfl | later
  · exact Nat.le_refl _
  · exact Nat.le_of_lt (sorted.1 s later)

/-- The next session starts at or before every message of a later one. -/
theorem nextSessionStart_first (layout : e.Layout) {y : Entry} {s : ℕ} (member : y ∈ e.ring)
    (later : s < y.session) : e.nextSessionStart s ≤ y.seq := by
  unfold nextSessionStart
  cases found : e.ring.find? fun z => decide (s < z.session) with
  | none =>
    have none := List.find?_eq_none.mp found y member
    simp only [decide_eq_true_eq] at none
    contradiction
  | some z =>
    obtain ⟨-, before, after, split, refused⟩ := List.find?_eq_some_iff_append.mp found
    have sorted := layout.numbered.strict
    rw [split, List.pairwise_append, List.pairwise_cons] at sorted
    rw [split] at member
    rcases List.mem_append.mp member with early | rest
    · have turned := refused y early
      simp only [Bool.not_eq_true', decide_eq_false_iff_not] at turned
      contradiction
    · rcases List.mem_cons.mp rest with rfl | late
      · exact Nat.le_refl _
      · exact Nat.le_of_lt (sorted.2.1.1 y late)

/-- The keyframe the search starts from is not after one ahead of the cursor. -/
theorem startKeyframe_before (layout : e.Layout) (sessions : e.InSession)
    (started : e.out.started = true) {k : ℕ} {y : Entry} (first : e.startKeyframe now = some k)
    (member : y ∈ e.ring) (sync : y.sync = true) (ahead : e.out.nextSeq ≤ y.seq) : k ≤ y.seq := by
  obtain ⟨isSync, reach, session⟩ := mem_candidates.mp (startKeyframe_mem first)
  obtain ⟨z, found, buffered, -, number⟩ := layout.sync_entry isSync
  have head : e.candidates.head? = some k := by
    unfold startKeyframe at first
    dsimp only at first
    rwa [if_pos started] at first
  by_contra passed
  refine passed (candidates_head layout head (mem_candidates.mpr
    ⟨layout.mem_syncs.mpr ⟨y, member, sync, rfl⟩, ahead, ?_⟩))
  rw [found, Option.map_some] at session
  obtain ⟨w, cursor, same⟩ := Option.map_eq_some_iff.mp session.symm
  obtain ⟨held, at_⟩ := layout.entry_iff.mp cursor
  have lower := sessions.ordered w held y member (by omega)
  have upper := sessions.ordered y member z buffered (by omega)
  rw [layout.entry_mem member, ← session, Option.map_some, Option.some.injEq]
  omega

namespace Due

/-- Searching for a keyframe does not get past a message that is due. -/
theorem findSync (due : e.Due x) (layout : e.Layout) (sessions : e.InSession)
    (started : e.out.started = true) (connected : e.out.connected = true)
    (needs : e.out.needSync = true) : (Search.engine (e.findSync now)).Due x := by
  obtain ⟨member, ahead, y, buffered, sync, session, before, reach⟩ := due
  have reach : e.out.nextSeq ≤ y.seq := by
    rcases reach with ahead | down | ⟨synced, -⟩
    · exact ahead
    · rw [connected] at down
      contradiction
    · rw [needs] at synced
      contradiction
  have stay : e.Due x := ⟨member, ahead, y, buffered, sync, session, before, .inl reach⟩
  have moved {e' : Engine} (ring : e'.ring = e.ring) (cursor : e'.out.nextSeq ≤ y.seq) : e'.Due x :=
    ⟨by rwa [ring], Nat.le_trans cursor before, y, by rwa [ring], sync, session, before, .inl cursor⟩
  unfold Engine.findSync
  split
  · next nothing =>
    split
    · exact stay
    · next s cursor =>
      split
      · refine moved rfl (nextSessionStart_first layout buffered ?_)
        obtain ⟨w, found, same⟩ := Option.map_eq_some_iff.mp cursor
        obtain ⟨held, at_⟩ := layout.entry_iff.mp found
        have order := sessions.ordered w held y buffered (by omega)
        by_contra older
        have candidate : y.seq ∈ e.candidates := by
          refine mem_candidates.mpr ⟨layout.mem_syncs.mpr ⟨y, buffered, sync, rfl⟩, reach, ?_⟩
          rw [layout.entry_mem buffered, cursor, Option.map_some, Option.some.injEq]
          omega
        unfold startKeyframe at nothing
        dsimp only at nothing
        rw [if_pos started, List.head?_eq_none_iff] at nothing
        rw [nothing] at candidate
        contradiction
      · exact stay
  · next k first =>
    have kBefore := startKeyframe_before layout sessions started first buffered sync reach
    split
    · next m mark =>
      obtain ⟨-, beyond⟩ := Option.filter_eq_some_iff.mp mark
      have beyond := of_decide_eq_true beyond
      refine moved rfl ?_
      show m + 1 ≤ y.seq
      omega
    · dsimp only
      split
      · exact stay
      · have start : (e.startAt now k (e.arrivalOr k now)).Due x := by
          obtain ⟨z, found, -, -, number⟩ :=
            layout.sync_entry (mem_candidates.mp (startKeyframe_mem first)).1
          refine moved (startAt_onlyOut now k _ e).ring ?_
          rw [startAt_nextSeq, spliceTo_out layout _ found]
          show z.seq ≤ y.seq
          omega
        split <;> exact start

/-- Passing another message. -/
theorem pass {w : Entry} (due : e.Due x) (layout : e.Layout) (sessions : e.InSession)
    (found : e.entry e.out.nextSeq = some w) (other : w ≠ x)
    (session : ∀ cs, e.out.currentSession = some cs → w.session = cs)
    (ring : e'.ring = e.ring) (cursor : e'.out.nextSeq = e.out.nextSeq + 1)
    (needs : e'.out.needSync = false) (current : e'.out.currentSession = e.out.currentSession) :
    e'.Due x := by
  obtain ⟨member, ahead, y, buffered, sync, same, before, reach⟩ := due
  obtain ⟨held, at_⟩ := layout.entry_iff.mp found
  have next : e.out.nextSeq ≠ x.seq := fun here => other (layout.eq_of_seq_eq held member (at_.trans here))
  refine ⟨by rwa [ring], by omega, y, by rwa [ring], sync, same, before, ?_⟩
  rw [cursor, needs, current]
  rcases Nat.lt_or_ge e.out.nextSeq y.seq with later | passed
  · exact .inl later
  · refine .inr (.inr ⟨rfl, fun cs known => ?_⟩)
    rw [← session cs known]
    exact sessions.between buffered held member (by omega) (by omega) same

end Due

/-! ## Eviction -/

/-- The memory limit takes nothing that is still to air. -/
def evictsAired (now : ℕ) (e : Engine) : Bool :=
  !(evictLoop now ((e.config.maxDelayMs + e.config.headroomMs) * MS) (e.keepFrom now) e.restartPoint
    e.ring.length e false).2

theorem evictLoop_lost {now capacity fuel : ℕ} {keepFrom restart : Option ℕ} {lost : Bool}
    (spared : (evictLoop now capacity keepFrom restart fuel e lost).2 = false) : lost = false := by
  induction fuel generalizing e lost with
  | zero => exact spared
  | succ fuel ih =>
    unfold evictLoop at spared
    split at spared
    · exact spared
    · dsimp only at spared
      split at spared
      · exact (Bool.or_eq_false_iff.mp (ih spared)).1
      · exact spared

/-- What is evicted without loss comes before the restart point. -/
theorem evictPlan_aired {now capacity r : ℕ} {keepFrom : Option ℕ} {front : Entry}
    (below : ∀ k, keepFrom = some k → k ≤ r)
    (spared : (e.evictPlan now capacity keepFrom (some r) front).lostUnaired = false) :
    (e.evictPlan now capacity keepFrom (some r) front).stop ≤ r := by
  simp only [evictPlan, Option.all_some] at spared ⊢
  by_contra beyond
  simp only [decide_eq_false beyond, Bool.false_and, Bool.not_false, Bool.true_and,
    Bool.not_eq_false'] at spared
  cases known : keepFrom with
  | none => simp [known] at spared
  | some k =>
    have bound := below k known
    cases next : e.syncs.find? fun s => decide (front.seq < s) with
    | none => simp [known, next] at spared
    | some s =>
      simp only [known, next, decide_eq_true_eq] at spared
      rw [next, Option.getD_some] at beyond
      omega

private theorem evictLoop_keeps {now capacity fuel r : ℕ} {keepFrom : Option ℕ} {lost : Bool}
    (layout : e.Layout) (below : ∀ k, keepFrom = some k → k ≤ r)
    (spared : (evictLoop now capacity keepFrom (some r) fuel e lost).2 = false) {x : Entry}
    (member : x ∈ e.ring) (kept : r ≤ x.seq) :
    x ∈ (evictLoop now capacity keepFrom (some r) fuel e lost).1.ring := by
  induction fuel generalizing e lost with
  | zero => exact member
  | succ fuel ih =>
    unfold evictLoop at spared ⊢
    split at spared
    · exact member
    · next front _ _ =>
      dsimp only at spared ⊢
      split at spared
      · next evicts =>
        rw [if_pos evicts]
        have aired := evictPlan_aired below (Bool.or_eq_false_iff.mp (evictLoop_lost spared)).2
        have trimmed := (popBefore_trimmed layout
          (e.evictPlan now capacity keepFrom (some r) front).stop).forgetSessions
        refine ih (trimmed.layout layout) spared ((trimmed.mem_iff layout).mpr ⟨member, ?_⟩)
        have base := trimmed.base
        have lower := layout.lower member
        omega
      · next stays =>
        rw [if_neg stays]
        exact member

/-- With a keyframe buffered at or before `c`, there is a newest one. -/
theorem syncAtOrBefore_of_sync (layout : e.Layout) {c : ℕ} {y : Entry} (member : y ∈ e.ring)
    (sync : y.sync = true) (before : y.seq ≤ c) :
    ∃ z ∈ e.ring, z.sync = true ∧ e.syncAtOrBefore c = some z.seq ∧ y.seq ≤ z.seq ∧ z.seq ≤ c := by
  have isSync : y.seq ∈ e.syncs := layout.mem_syncs.mpr ⟨y, member, sync, rfl⟩
  cases found : e.syncAtOrBefore c with
  | none =>
    have none := List.find?_eq_none.mp found y.seq (List.mem_reverse.mpr isSync)
    simp only [decide_eq_true_eq] at none
    contradiction
  | some k =>
    obtain ⟨z, -, held, isSync', number⟩ := layout.sync_entry (newestSync_mem found).1
    subst number
    exact ⟨z, held, isSync', rfl, newestSync_newest layout found isSync (by simpa using before),
      of_decide_eq_true (newestSync_mem found).2⟩

/-- Where a running broadcast would start again is not after the cursor. -/
theorem restartPoint_le {r : ℕ} (restart : e.restartPoint = some r) : r ≤ e.out.nextSeq := by
  unfold restartPoint at restart
  split at restart
  · obtain rfl := Option.some.inj restart
    cases found : e.syncAtOrBefore e.out.nextSeq with
    | none => exact Nat.le_refl _
    | some k => exact of_decide_eq_true (newestSync_mem found).2
  · contradiction

/-- What must stay without history begins at the restart point, or before it. -/
theorem keepFrom_le {r k : ℕ} (restart : e.restartPoint = some r) (kept : e.keepFrom now = some k) : k ≤ r := by
  unfold keepFrom at kept
  split at kept
  · contradiction
  · simp only [restart] at kept
    split at kept
    · next m _ =>
      obtain rfl := Option.some.inj kept
      cases m.anchor with
      | none => exact Nat.le_refl _
      | some a => exact Nat.min_le_left _ _
    · exact Nat.le_of_eq (Option.some.inj kept).symm

/-- Without loss, eviction leaves everything from the restart point on. -/
theorem evict_keeps (layout : e.Layout) {r : ℕ} (restart : e.restartPoint = some r)
    (spared : e.evictsAired now = true) :
    (∃ n, Trimmed n e (e.evict now)) ∧ ∀ x ∈ e.ring, r ≤ x.seq → x ∈ (e.evict now).ring := by
  have below : ∀ k, e.keepFrom now = some k → k ≤ r := fun k kept => keepFrom_le restart kept
  have spared : (evictLoop now ((e.config.maxDelayMs + e.config.headroomMs) * MS) (e.keepFrom now)
      e.restartPoint e.ring.length e false).2 = false := by
    simpa [evictsAired] using spared
  have same : e.evict now = (evictLoop now ((e.config.maxDelayMs + e.config.headroomMs) * MS)
      (e.keepFrom now) e.restartPoint e.ring.length e false).1 := by
    unfold evict
    dsimp only
    rw [spared]
    rfl
  rw [same]
  refine ⟨evictLoop_trimmed layout .., fun x member kept => ?_⟩
  rw [restart] at spared ⊢
  exact evictLoop_keeps layout below spared member kept

namespace Due

/-- Eviction without loss leaves what is due. -/
theorem evict (due : e.Due x) (layout : e.Layout) (sessions : e.InSession)
    (started : e.out.started = true) (spared : e.evictsAired now = true) : (e.evict now).Due x := by
  obtain ⟨member, ahead, y, buffered, sync, same, before, reach⟩ := due
  have restart : e.restartPoint =
      some ((e.syncAtOrBefore e.out.nextSeq).getD e.out.nextSeq) := if_pos started
  obtain ⟨⟨n, trimmed⟩, keeps⟩ := evict_keeps layout restart spared
  have bound := restartPoint_le restart
  have kept := keeps x member (by omega)
  have out := trimmed.out
  by_cases stays : (e.syncAtOrBefore e.out.nextSeq).getD e.out.nextSeq ≤ y.seq
  · refine ⟨kept, by rwa [out], y, keeps y buffered stays, sync, same, before, ?_⟩
    rwa [out]
  · -- The keyframe went: the one the output would start again from takes its place.
    obtain ⟨z, held, isSync, found, after, upTo⟩ :=
      syncAtOrBefore_of_sync layout (c := e.out.nextSeq) buffered sync (by omega)
    rw [found, Option.getD_some] at keeps stays
    refine ⟨kept, by rwa [out], z, keeps z held (Nat.le_refl _), isSync,
      sessions.between buffered held member after (by omega) same, by omega, ?_⟩
    rw [out]
    rcases reach with ahead' | rest
    · omega
    · exact .inr rest

end Due

/-! ## New connections -/

/-- Where the output is, whatever change is pending. -/
def place (e : Engine) : ℕ × Bool × Option ℕ × Bool :=
  (e.out.nextSeq, e.out.needSync, e.out.currentSession, e.out.started)

private theorem backUnderMax_place (e : Engine) : e.backUnderMax.place = e.place := by
  rcases e.backUnderMax_out with same | ⟨-, -, same⟩
  · rw [same]
  · rw [same]
    rfl

private theorem backToTarget_place (e : Engine) : e.backToTarget.place = e.place := by
  rcases e.backToTarget_cases with same | ⟨-, -, same⟩
  · rw [same]
  · rw [same]
    rfl

/-- A new connection restarts a running output from the keyframe at or before the cursor, or waits for one. -/
theorem outputConnected_starts (now : ℕ) (layout : e.Layout) (started : e.out.started = true)
    (airs : e.out.pending.holding = false) :
    (e.outputConnected now).out.started = true ∧
      ((∀ y ∈ e.ring, y.sync = true → e.out.nextSeq < y.seq) ∧
          (e.outputConnected now).out.nextSeq = e.out.nextSeq ∨
        ∃ z ∈ e.ring, z.sync = true ∧ z.seq ≤ e.out.nextSeq ∧
          (∀ y ∈ e.ring, y.sync = true → y.seq ≤ e.out.nextSeq → y.seq ≤ z.seq) ∧
          (e.outputConnected now).out.nextSeq = z.seq ∧
          (e.outputConnected now).out.needSync = false ∧
          (e.outputConnected now).out.currentSession = some z.session) := by
  have layoutF := (freshConnection_inPlace layout now).layout layout
  have found : (e.freshConnection now).syncAtOrBefore (e.freshConnection now).out.nextSeq =
      e.syncAtOrBefore e.out.nextSeq := rfl
  have connected : e.outputConnected now = (e.freshConnection now).reconnect now := by
    unfold Engine.outputConnected
    dsimp only
    rw [show (e.freshConnection now).out.pending.holding = false from airs, if_neg Bool.false_ne_true]
    exact if_pos started
  rw [connected]
  unfold reconnect
  rw [found]
  cases at_ : e.syncAtOrBefore e.out.nextSeq with
  | none =>
    refine ⟨started, .inl ⟨fun y member sync => ?_, rfl⟩⟩
    by_contra before
    obtain ⟨z, -, -, same, -⟩ := syncAtOrBefore_of_sync layout member sync (Nat.le_of_not_lt before)
    rw [at_] at same
    contradiction
  | some k =>
    obtain ⟨isSync, before⟩ := newestSync_mem at_
    obtain ⟨z, entry, held, sync, rfl⟩ := layout.sync_entry isSync
    let delay := max (e.freshConnection now).out.delay (now - (e.freshConnection now).arrivalOr z.seq now)
    have grown : InPlace (e.freshConnection now) ((e.freshConnection now).noteGrowth delay) :=
      out_inPlace layoutF rfl rfl rfl
    have out := spliceTo_out (grown.layout layoutF) (k := z.seq) (x := z) delay entry
    have spliced : (((e.freshConnection now).noteGrowth delay).spliceTo z.seq delay).place =
        (z.seq, false, some z.session, true) := by
      unfold place
      rw [out]
      rfl
    have restarted : ((e.freshConnection now).restartFrom now z.seq).place = (z.seq, false, some z.session, true) :=
      (backUnderMax_place _).trans spliced
    have placed (e' : Engine) (place : e'.place = (z.seq, false, some z.session, true)) :
        e'.out.started = true ∧ ((∀ y ∈ e.ring, y.sync = true → e.out.nextSeq < y.seq) ∧
            e'.out.nextSeq = e.out.nextSeq ∨
          ∃ z ∈ e.ring, z.sync = true ∧ z.seq ≤ e.out.nextSeq ∧
            (∀ y ∈ e.ring, y.sync = true → y.seq ≤ e.out.nextSeq → y.seq ≤ z.seq) ∧
            e'.out.nextSeq = z.seq ∧ e'.out.needSync = false ∧ e'.out.currentSession = some z.session) := by
      obtain ⟨cursor, synced, session, running⟩ := by simpa only [Engine.place, Prod.mk.injEq] using place
      refine ⟨running, .inr ⟨z, held, sync, of_decide_eq_true before, fun y member isSync' upTo => ?_, cursor, synced,
        session⟩⟩
      exact newestSync_newest layout at_ (layout.mem_syncs.mpr ⟨y, member, isSync', rfl⟩) (by simpa using upTo)
    dsimp only
    split
    · exact placed _ ((backToTarget_place _).trans restarted)
    · exact placed _ restarted

/-- A new connection starts at or before what is due, or goes on in its session. -/
theorem Due.outputConnected (due : e.Due x) (layout : e.Layout) (sessions : e.InSession)
    (started : e.out.started = true) (airs : e.out.pending.holding = false) : (e.outputConnected now).Due x := by
  obtain ⟨-, moved⟩ := outputConnected_starts now layout started airs
  have ring := (outputConnected_inPlace layout now).only.ring
  obtain ⟨member, ahead, y, buffered, sync, same, before, -⟩ := due
  rcases moved with ⟨none, cursor⟩ | ⟨z, held, isSync, upTo, newest, cursor, synced, current⟩
  · have after := none y buffered sync
    exact ⟨by rwa [ring], by omega, y, by rwa [ring], sync, same, before, .inl (by omega)⟩
  · refine ⟨by rwa [ring], by omega, y, by rwa [ring], sync, same, before, ?_⟩
    rcases Nat.lt_or_ge e.out.nextSeq y.seq with later | passed
    · exact .inl (by omega)
    · refine .inr (.inr ⟨synced, fun cs known => ?_⟩)
      obtain rfl := Option.some.inj (known.symm.trans current)
      exact sessions.between buffered held member (newest y buffered sync passed) (by omega) same

/-! ## While a jump to live waits -/

variable {mark : ℕ}

private theorem backUnderMax_afterAir (pending : e.out.pending = .afterAir mark) : e.backUnderMax = e := by
  rcases e.backUnderMax_out with same | ⟨none, -⟩
  · exact same
  · rw [pending] at none
    contradiction

private theorem backToTarget_afterAir (pending : e.out.pending = .afterAir mark) : e.backToTarget = e := by
  rcases e.backToTarget_cases with same | ⟨none | ⟨d, reduce, -⟩, -⟩
  · exact same
  · rw [pending] at none
    contradiction
  · rw [pending] at reduce
    contradiction

/-- A new connection leaves a jump to live waiting. -/
theorem outputConnected_afterAir (now : ℕ) (pending : e.out.pending = .afterAir mark) :
    (e.outputConnected now).out.pending = .afterAir mark := by
  have fresh : (e.freshConnection now).out.pending = .afterAir mark := pending
  unfold Engine.outputConnected
  dsimp only
  split
  · exact fresh
  · split
    · unfold reconnect
      split
      · exact fresh
      · next k _ =>
        have spliced : (((e.freshConnection now).noteGrowth (max (e.freshConnection now).out.delay
            (now - (e.freshConnection now).arrivalOr k now))).spliceTo k (max (e.freshConnection now).out.delay
            (now - (e.freshConnection now).arrivalOr k now))).out.pending = .afterAir mark := by
          rw [spliceTo_pending]
          exact fresh
        have restarted : ((e.freshConnection now).restartFrom now k).out.pending = .afterAir mark := by
          unfold restartFrom
          dsimp only
          rw [backUnderMax_afterAir spliced]
          exact spliced
        dsimp only
        rw [backToTarget_afterAir restarted, ite_self]
        exact restarted
    · exact fresh

end Engine

end StreamDelay
