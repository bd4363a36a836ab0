import Mathlib.Tactic.Common
import StreamDelay.Proofs.BufferSteps
import StreamDelay.Proofs.Retention

/-! # What is kept is counted, and belongs to a session that is kept

The two counters stay the cost of what is buffered and of what is kept for the sessions, and no session goes
while a message of it is buffered.
-/

namespace StreamDelay

open Flv (Bytes)
open Foundations

namespace Engine

variable {e e' : Engine}

/-! ## A message is taken in -/

/-- What an appended message changes: the ring is longer by a message of the current session. -/
theorem append_fields {session : Session} (current : e.sessions.getLast? = some session) (now : ℕ)
    (kind : Kind) (ts : ℕ) (payload : Bytes) :
    ∃ x : Entry, x.session = session.id ∧ x.arrival = now ∧ x.payload = payload ∧
      (e.append now kind ts payload session).ring = e.ring ++ [x] ∧
      (e.append now kind ts payload session).sessionIds = e.sessionIds ∧
      (e.append now kind ts payload session).nextSession = e.nextSession ∧
      (e.append now kind ts payload session).bytes = e.bytes + cost payload.length := by
  have kept := (keepHeader_id (classify now kind ts payload session e.stats).session
    (e.config.ramCapBytes / HEADER_SHARE_OF_RAM_CAP) e.nextSeq kind
    (classify now kind ts payload session e.stats).config payload).trans
    (classify_session now kind ts payload session e.stats)
  have ids {s : Session} (same : s.id = session.id) : (e.sessions.dropLast ++ [s]).map Session.id = e.sessionIds := by
    obtain ⟨init, sessions⟩ := List.getLast?_eq_some_iff.mp current
    rw [sessionIds, sessions, List.dropLast_concat, List.map_append, List.map_append]
    simp [same]
  unfold append
  dsimp only
  split
  · exact ⟨_, kept, rfl, rfl, rfl, ids kept, rfl, rfl⟩
  · exact ⟨_, kept, rfl, rfl, rfl, ids kept, rfl, rfl⟩

private theorem classify_cost (now : ℕ) (kind : Kind) (ts : ℕ) (payload : Bytes) (session : Session)
    (stats : IngestTracker) : (classify now kind ts payload session stats).session.cost = session.cost := by
  unfold classify
  split
  · cases Flv.inspectVideo payload <;> rfl
  · cases Flv.inspectAudio payload <;> rfl
  · rfl

theorem append_counted (counted : e.Counted) {session : Session} (current : e.sessions.getLast? = some session)
    (now : ℕ) (kind : Kind) (ts : ℕ) (payload : Bytes) : (e.append now kind ts payload session).Counted := by
  have ring (x : Entry) (same : x.payload = payload) : e.bytes + cost payload.length = ringCost (e.ring ++ [x]) := by
    rw [counted.bytes, ringCost, ringCost, List.map_append, List.sum_append, ← same]
    rfl
  unfold append
  dsimp only
  split
  · exact ⟨ring _ rfl, rfl⟩
  · next plain =>
    refine ⟨ring _ rfl, ?_⟩
    -- Nothing was kept, so the session costs what it did.
    have none : (classify now kind ts payload session e.stats).config = none := by simpa using plain
    rw [none]
    obtain ⟨init, sessions⟩ := List.getLast?_eq_some_iff.mp current
    show e.sessionBytes = sessionsCost (e.sessions.dropLast ++ [(classify now kind ts payload session e.stats).session])
    rw [counted.sessionBytes, sessions, List.dropLast_concat]
    unfold sessionsCost
    rw [List.map_append, List.map_append, List.map_singleton, List.map_singleton, classify_cost]

/-! ## The counters -/

theorem Rebuffers.counted (change : Rebuffers e e') (counted : e.Counted) : e'.Counted := by
  cases change with
  | output only => exact counted.of_onlyOut only
  | settings => exact ⟨counted.bytes, counted.sessionBytes⟩
  | session now =>
    have begun : (if e.out.started then e else e.dropBuffer).Counted := by
      split
      · exact counted
      · exact .dropBuffer e
    unfold ingestStart
    dsimp only
    generalize (if e.out.started then e else e.dropBuffer) = mid at begun
    have bytes : mid.popIdleSession.bytes = mid.bytes := by
      unfold popIdleSession
      split
      · split <;> rfl
      · rfl
    refine ⟨?_, rfl⟩
    show mid.popIdleSession.bytes = ringCost mid.popIdleSession.ring
    rw [bytes, (popIdleSession_ring mid).1, begun.bytes]
  | metadata now payload =>
    unfold ingestMetadata
    split
    · exact counted
    · split
      · exact counted
      · exact ⟨counted.bytes, rfl⟩
  | evicted now after => exact (counted.evict now).of_onlyOut after
  | emptied _ after => exact (Counted.dropBuffer _).of_onlyOut after
  | cut before after => exact (((counted.of_onlyOut before).truncate _).splitSession _).of_onlyOut after
  | dropped seq after => exact (counted.dropBefore seq).of_onlyOut after

/-- The counters are right after every operation. -/
theorem step_counted (layout : e.Layout) (counted : e.Counted) (op : Op) : (e.step op).1.Counted := by
  cases op with
  | ingest now kind ts payload =>
    dsimp only [step]
    rcases e.ingest_cases now kind ts payload with same | ⟨session, current, -, same⟩
    · rwa [same]
    · rw [same]
      exact (append_counted counted current now kind ts payload).evict now
  | _ => exact (step_rebuffers layout rfl).counted counted

/-! ## The sessions kept -/

theorem le_last (layout : e.Layout) {x y : Entry} (member : x ∈ e.ring) (last : e.ring.getLast? = some y) :
    x.seq ≤ y.seq := by
  rw [List.getLast?_eq_getElem?] at last
  have seq := layout.numbered.key_getElem? last
  have upper := layout.numbered.upper member
  omega

theorem ingestMetadata_ids (e : Engine) (now : ℕ) (payload : Bytes) :
    (e.ingestMetadata now payload).sessionIds = e.sessionIds := by
  unfold ingestMetadata
  split
  · rfl
  · split
    · rfl
    · next s last =>
      obtain ⟨init, sessions⟩ := List.getLast?_eq_some_iff.mp last
      rw [countSessions_ids, sessionIds, sessionIds, sessions]
      dsimp only
      rw [List.dropLast_concat, List.map_append, List.map_append]
      rfl

theorem dropBefore_ids (e : Engine) (seq : ℕ) : (e.dropBefore seq).sessionIds = e.sessionIds := by
  unfold dropBefore
  dsimp only
  rw [forgetHeaders_ids]
  split
  · exact popBefore_ids e seq
  · exact popBefore_ids e seq

/-- The session of every buffered message is kept. -/
def Listed (e : Engine) : Prop := ∀ x ∈ e.ring, x.session ∈ e.sessionIds

namespace Listed

theorem of_subset (listed : e.Listed) (ring : ∀ x ∈ e'.ring, x ∈ e.ring)
    (ids : ∀ i ∈ e.sessionIds, i ∈ e'.sessionIds) : e'.Listed := fun x member => ids _ (listed x (ring x member))

theorem of_onlyOut (listed : e.Listed) (only : OnlyOut e e') : e'.Listed := by
  rw [only]
  exact listed

theorem of_empty (empty : e.ring = []) : e.Listed := by
  intro x member
  rw [empty] at member
  contradiction

/-- What is forgotten with the first message's session has no message left. -/
theorem forgetSessions (listed : e.Listed) (layout : e.Layout) (sessions : e.InSession) : e.forgetSessions.Listed := by
  have headers : e.forgetHeaders.Listed :=
    listed.of_subset (fun x member => by rwa [forgetHeaders_ring] at member) fun i member => by
      rwa [forgetHeaders_ids]
  unfold Engine.forgetSessions
  dsimp only
  split
  · exact headers
  · next front rest ring =>
    split
    · intro x member
      have member : x ∈ e.forgetHeaders.ring := member
      obtain ⟨s, kept, same⟩ := List.mem_map.mp (headers x member)
      rw [forgetHeaders_ring] at ring member
      have first : front ∈ e.ring := by
        rw [ring]
        exact List.mem_cons_self ..
      have numbered := layout.numbered
      have lower := layout.lower member
      rw [ring] at numbered
      have after := sessions.ordered front first x member (Nat.le_trans (Nat.le_of_eq numbered.1) lower)
      exact List.mem_map.mpr ⟨s, List.mem_filter.mpr ⟨kept, by simp [same, after]⟩, same⟩
    · exact headers

theorem evict (listed : e.Listed) (layout : e.Layout) (sessions : e.InSession) (now : ℕ) : (e.evict now).Listed := by
  have round (e : Engine) (stop : ℕ) (sound : e.Layout ∧ e.InSession ∧ e.Listed) :
      (e.popBefore stop).forgetSessions.Layout ∧ (e.popBefore stop).forgetSessions.InSession ∧
        (e.popBefore stop).forgetSessions.Listed := by
    obtain ⟨layout, sessions, listed⟩ := sound
    have popped := popBefore_trimmed layout stop
    have kept : (e.popBefore stop).InSession := (KeepsSession.of_trimmed popped).inSession sessions
    have there : (e.popBefore stop).Listed :=
      listed.of_subset (fun _ => popped.mem) fun i member => by rwa [popBefore_ids]
    exact ⟨popped.forgetSessions.layout layout, (popBefore_keepsSession layout stop).inSession sessions,
      there.forgetSessions (popped.layout layout) kept⟩
  have loop : (evictLoop now ((e.config.maxDelayMs + e.config.headroomMs) * MS) (e.keepFrom now) e.restartPoint
      e.ring.length e false).1.Listed :=
    (evictLoop_preserves (P := fun e => e.Layout ∧ e.InSession ∧ e.Listed) round ⟨layout, sessions, listed⟩).2.2
  unfold Engine.evict
  dsimp only
  split
  · exact loop.of_onlyOut (memoryShort_hold now _).1
  · exact loop

/-- The last session goes only when no message is of it. -/
theorem popIdleSession (listed : e.Listed) (layout : e.Layout) (sessions : e.InSession) : e.popIdleSession.Listed := by
  unfold Engine.popIdleSession
  cases current : e.sessions.getLast? with
  | none => exact listed
  | some last =>
    dsimp only
    split
    · next idle =>
      obtain ⟨init, all⟩ := List.getLast?_eq_some_iff.mp current
      intro x member
      have member : x ∈ e.ring := member
      show x.session ∈ e.sessions.dropLast.map Session.id
      have there := listed x member
      rw [sessionIds, all, List.map_append] at there
      rw [all, List.dropLast_concat]
      refine (List.mem_append.mp there).resolve_right fun same => ?_
      obtain ⟨y, newest⟩ := Option.isSome_iff_exists.mp (List.getLast?_isSome.mpr (List.ne_nil_of_mem member))
      have buffered := List.mem_of_getLast? newest
      have other : y.session ≠ last.id := by
        rw [newest] at idle
        simpa using idle
      have above := sessions.ordered x member y buffered (le_last layout member newest)
      have below := (sessions.newest last.id (by rw [newestSession, current]; rfl)).2 y buffered
      have own : x.session = last.id := List.mem_singleton.mp same
      omega
    · exact listed

/-- A cut opens a session, and forgets none. -/
theorem cutOff (listed : e.Listed) (cut seq : ℕ) : ((e.truncate cut).splitSession seq).Listed := by
  refine listed.of_subset (fun x member => ?_) fun i member => ?_
  · rw [splitSession_ring] at member
    exact List.mem_of_mem_take member
  · unfold splitSession
    split
    · exact member
    · obtain ⟨s, kept, same⟩ := List.mem_map.mp member
      exact List.mem_map.mpr ⟨s, List.mem_append_left _ kept, same⟩

theorem dropBefore (listed : e.Listed) (layout : e.Layout) (seq : ℕ) : (e.dropBefore seq).Listed := by
  refine listed.of_subset (fun _ => (dropBefore_trimmed layout seq).mem) fun i member => ?_
  rwa [dropBefore_ids]

end Listed

theorem Rebuffers.listed (change : Rebuffers e e') (layout : e.Layout) (sessions : e.InSession) (listed : e.Listed) :
    e'.Listed := by
  cases change with
  | output only => exact listed.of_onlyOut only
  | settings => exact listed
  | session now =>
    have begun : (if e.out.started then e else e.dropBuffer).Layout ∧
        (if e.out.started then e else e.dropBuffer).InSession ∧
        (if e.out.started then e else e.dropBuffer).Listed := by
      split
      · exact ⟨layout, sessions, listed⟩
      · exact ⟨dropBuffer_layout layout, e.dropBuffer_keepsSession.inSession sessions, .of_empty e.dropBuffer_ring⟩
    unfold ingestStart
    dsimp only
    generalize (if e.out.started then e else e.dropBuffer) = mid at begun
    obtain ⟨layout, sessions, listed⟩ := begun
    refine (listed.popIdleSession layout sessions).of_subset (fun _ => id) fun i member => ?_
    obtain ⟨s, kept, same⟩ := List.mem_map.mp member
    exact List.mem_map.mpr ⟨s, List.mem_append_left _ kept, same⟩
  | metadata now payload =>
    refine listed.of_subset (e.ingestMetadata_keepsSession now payload).ring fun i member => ?_
    rwa [ingestMetadata_ids]
  | evicted now after => exact (listed.evict layout sessions now).of_onlyOut after
  | emptied _ after => exact (Listed.of_empty (dropBuffer_ring _)).of_onlyOut after
  | cut before after => exact ((listed.of_onlyOut before).cutOff _ _).of_onlyOut after
  | dropped seq after => exact (listed.dropBefore layout seq).of_onlyOut after

theorem step_listed (layout : e.Layout) (sessions : e.InSession) (listed : e.Listed) (op : Op) :
    (e.step op).1.Listed := by
  cases op with
  | ingest now kind ts payload =>
    dsimp only [step]
    rcases e.ingest_cases now kind ts payload with same | ⟨session, current, -, same⟩
    · rwa [same]
    · obtain ⟨x, belongs, -, -, ring, ids, -, -⟩ := append_fields current now kind ts payload
      have appended : (e.append now kind ts payload session).Listed := by
        intro y member
        rw [ring] at member
        rw [ids]
        rcases List.mem_append.mp member with older | new
        · exact listed y older
        · rw [List.mem_singleton.mp new, belongs]
          exact List.mem_map_of_mem (List.mem_of_getLast? current)
      rw [same]
      exact appended.evict (append_layout layout now kind ts payload session)
        (append_inSession layout sessions current now kind ts payload) now
  | _ => exact (step_rebuffers layout rfl).listed layout sessions listed

end Engine

end StreamDelay
