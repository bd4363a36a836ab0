import Mathlib.Tactic.Common
import StreamDelay.Proofs.BufferSteps

/-! # Messages are buffered session by session

Session ids are given out in increasing order, so what is numbered later belongs to the same session
or a later one. A replay splits the session it cuts, and what follows goes to the new part.
-/

namespace StreamDelay

open Flv (Bytes)
open Foundations

namespace Engine

/-- The sessions of the buffered messages do not decrease, up to the newest session. -/
structure InSession (e : Engine) : Prop where
  ordered : ∀ x ∈ e.ring, ∀ y ∈ e.ring, x.seq ≤ y.seq → x.session ≤ y.session
  issued : ∀ x ∈ e.ring, x.session < e.nextSession
  newest : ∀ s, e.newestSession = some s → s < e.nextSession ∧ ∀ x ∈ e.ring, x.session ≤ s

/-- Messages left the ring, and the newest session stayed or went. -/
structure KeepsSession (e e' : Engine) : Prop where
  ring : ∀ x ∈ e'.ring, x ∈ e.ring
  nextSession : e'.nextSession = e.nextSession
  newest : ∀ s, e'.newestSession = some s → e.newestSession = some s

namespace KeepsSession

variable {e mid e' : Engine}

theorem refl (e : Engine) : KeepsSession e e := ⟨fun _ => id, rfl, fun _ => id⟩

theorem trans (first : KeepsSession e mid) (second : KeepsSession mid e') : KeepsSession e e' where
  ring := fun x member => first.ring x (second.ring x member)
  nextSession := second.nextSession.trans first.nextSession
  newest := fun s current => first.newest s (second.newest s current)

theorem of_onlyOut (only : OnlyOut e e') : KeepsSession e e' where
  ring := fun x member => by rwa [only.ring] at member
  nextSession := only.nextSession
  newest := fun s current => by rwa [newestSession, only.sessions] at current

theorem of_trimmed {n : ℕ} (trimmed : Trimmed n e e') : KeepsSession e e' where
  ring := fun _ => trimmed.mem
  nextSession := trimmed.nextSession
  newest := fun s current => by rwa [trimmed.newest] at current

theorem inSession (kept : KeepsSession e e') (sessions : e.InSession) : e'.InSession where
  ordered := fun x left y right =>
    sessions.ordered x (kept.ring x left) y (kept.ring y right)
  issued := by
    intro x member
    rw [kept.nextSession]
    exact sessions.issued x (kept.ring x member)
  newest := by
    intro s current
    obtain ⟨issued, bound⟩ := sessions.newest s (kept.newest s current)
    refine ⟨by rwa [kept.nextSession], fun x member => bound x (kept.ring x member)⟩

end KeepsSession

variable {e : Engine}

/-- A new session is opened after everything buffered. -/
theorem InSession.opened {e' : Engine} (sessions : e.InSession) (ring : ∀ x ∈ e'.ring, x ∈ e.ring)
    (nextSession : e'.nextSession = e.nextSession + 1)
    (newest : e'.newestSession = some e.nextSession) : e'.InSession where
  ordered := fun x left y right => sessions.ordered x (ring x left) y (ring y right)
  issued := by
    intro x member
    have issued := sessions.issued x (ring x member)
    omega
  newest := by
    intro s current
    rw [newest, Option.some.injEq] at current
    refine ⟨by omega, fun x member => ?_⟩
    have issued := sessions.issued x (ring x member)
    omega

private theorem dropBuffer_newest {s : ℕ} (current : e.dropBuffer.newestSession = some s) :
    e.newestSession = some s := by
  have same (mid : Engine) : mid.forgetHeaders.newestSession = mid.newestSession := by
    unfold forgetHeaders
    dsimp only
    split
    · rfl
    · simp only [newestSession, countSessions, List.getLast?_map, Option.map_map]
      rfl
  have kept : e.dropBuffer.newestSession =
      ((e.sessions.filter fun s =>
        some s.id = if e.ingestActive then e.newestSession else none).getLast?.map Session.id) :=
    same _
  rw [kept] at current
  obtain ⟨last, found, rfl⟩ := Option.map_eq_some_iff.mp current
  have chosen := (List.mem_filter.mp (List.mem_of_getLast? found)).2
  split at chosen
  · exact (of_decide_eq_true chosen).symm
  · simp at chosen

theorem dropBuffer_keepsSession (e : Engine) : KeepsSession e e.dropBuffer :=
  ⟨by simp, by simp, fun _ => dropBuffer_newest⟩

theorem evict_keepsSession (layout : e.Layout) (now : ℕ) : KeepsSession e (e.evict now) := by
  obtain ⟨n, mid, trimmed, same | same⟩ := evict_trimmed layout now
  · rw [same]
    exact .of_trimmed trimmed
  · rw [same]
    exact (KeepsSession.of_trimmed trimmed).trans (.of_onlyOut (memoryShort_hold now mid).1)

/-! ## Dumps -/

private theorem splitSession_inSession (sessions : e.InSession) (seq : ℕ) :
    (e.splitSession seq).InSession := by
  unfold splitSession
  split
  · exact sessions
  · exact sessions.opened (fun _ => id) rfl (by simp [newestSession, countSessions])

/-! ## The encoder -/

theorem classify_session (now : ℕ) (kind : Kind) (ts : ℕ) (payload : Bytes) (session : Session)
    (stats : IngestTracker) : (classify now kind ts payload session stats).session.id = session.id := by
  unfold classify
  split
  · cases Flv.inspectVideo payload <;> rfl
  · cases Flv.inspectAudio payload <;> rfl
  · rfl

theorem keepHeader_id (s : Session) (budget seq : ℕ) (kind : Kind) (config : Option UInt16)
    (payload : Bytes) : (s.keepHeader budget seq kind config payload).id = s.id := by
  unfold Session.keepHeader
  split
  · rfl
  · split <;> rfl

theorem append_inSession (layout : e.Layout) (sessions : e.InSession) {session : Session}
    (current : e.sessions.getLast? = some session) (now : ℕ) (kind : Kind) (ts : ℕ)
    (payload : Bytes) : (e.append now kind ts payload session).InSession := by
  obtain ⟨issued, bound⟩ := sessions.newest session.id (by simp [newestSession, current])
  have appended : ∀ (x : Entry), x.seq = e.nextSeq → x.session = session.id →
      ∀ e' : Engine, e'.ring = e.ring ++ [x] → e'.nextSession = e.nextSession →
      e'.newestSession = some session.id → e'.InSession := by
    intro x seq belongs e' ring nextSession newest
    refine ⟨?_, ?_, ?_⟩
    · rw [ring]
      intro y left z right before
      rcases List.mem_append.mp left with older | last
      · rcases List.mem_append.mp right with older' | last
        · exact sessions.ordered y older z older' before
        · obtain rfl := List.mem_singleton.mp last
          have earlier := bound y older
          omega
      · obtain rfl := List.mem_singleton.mp last
        rcases List.mem_append.mp right with older' | last
        · have lower := layout.upper older'
          omega
        · obtain rfl := List.mem_singleton.mp last
          exact Nat.le_refl _
    · rw [ring, nextSession]
      intro y member
      rcases List.mem_append.mp member with older | last
      · exact sessions.issued y older
      · obtain rfl := List.mem_singleton.mp last
        omega
    · intro s same
      rw [newest, Option.some.injEq] at same
      rw [ring, nextSession]
      refine ⟨by omega, fun y member => ?_⟩
      rcases List.mem_append.mp member with older | last
      · have earlier := bound y older
        omega
      · obtain rfl := List.mem_singleton.mp last
        omega
  have kept := (keepHeader_id (classify now kind ts payload session e.stats).session
    (e.config.ramCapBytes / HEADER_SHARE_OF_RAM_CAP) e.nextSeq kind
    (classify now kind ts payload session e.stats).config payload).trans
    (classify_session now kind ts payload session e.stats)
  unfold append
  dsimp only
  split <;>
    refine appended _ rfl kept _ rfl rfl ?_ <;>
    simp only [newestSession, countSessions, List.getLast?_concat, Option.map_some, kept]

private theorem ingestStart_inSession (sessions : e.InSession) (now : ℕ) : (e.ingestStart now).InSession := by
  have kept : KeepsSession e (if e.out.started then e else e.dropBuffer) := by
    split
    · exact .refl e
    · exact e.dropBuffer_keepsSession
  unfold ingestStart
  dsimp only
  generalize (if e.out.started then e else e.dropBuffer) = mid at kept
  have popped : mid.popIdleSession.nextSession = mid.nextSession := by
    unfold popIdleSession
    split
    · split <;> rfl
    · rfl
  refine (kept.inSession sessions).opened (fun x member => ?_) (by simp [countSessions, popped]) ?_
  · rw [← (popIdleSession_ring mid).1]
    exact member
  · simp [newestSession, countSessions, popped]

theorem ingestMetadata_keepsSession (e : Engine) (now : ℕ) (payload : Bytes) :
    KeepsSession e (e.ingestMetadata now payload) := by
  unfold ingestMetadata
  split
  · exact .refl e
  · split
    · exact .refl e
    · next s last =>
      refine ⟨fun _ => id, rfl, fun n current => ?_⟩
      simpa [newestSession, countSessions, last] using current

/-! ## Every operation -/

theorem Rebuffers.inSession {e' : Engine} (change : Rebuffers e e') (layout : e.Layout) (sessions : e.InSession) :
    e'.InSession := by
  have keep {mid : Engine} (kept : KeepsSession e mid) : mid.InSession := kept.inSession sessions
  cases change with
  | output only => exact keep (.of_onlyOut only)
  | settings => exact keep ⟨fun _ => id, rfl, fun _ => id⟩
  | session now => exact ingestStart_inSession sessions now
  | metadata now payload => exact keep (e.ingestMetadata_keepsSession now payload)
  | evicted now after => exact keep ((evict_keepsSession layout now).trans (.of_onlyOut after))
  | emptied before after =>
    exact keep (((KeepsSession.of_onlyOut before).trans (dropBuffer_keepsSession _)).trans (.of_onlyOut after))
  | @cut mid _ before after =>
    have truncated : KeepsSession mid (mid.truncate mid.cut) := ⟨fun _ => List.mem_of_mem_take, rfl, fun _ => id⟩
    have split := splitSession_inSession (keep ((KeepsSession.of_onlyOut before).trans truncated)) mid.cut
    exact (KeepsSession.of_onlyOut after).inSession split
  | dropped seq after =>
    exact keep ((KeepsSession.of_trimmed (dropBefore_trimmed layout seq)).trans (.of_onlyOut after))

theorem dump_inSession (layout : e.Layout) (sessions : e.InSession) (now : ℕ) (mode : DelayMode) (cover : Bool) :
    (e.dump now mode cover).1.InSession := (dump_rebuffers (.refl e) (.refl _)).inSession layout sessions

/-- An operation keeps the order of the sessions. -/
theorem step_inSession (sound : e.Sound) (sessions : e.InSession) (op : Op) :
    (e.step op).1.InSession := by
  have layout := sound.layout
  cases op with
  | ingest now kind ts payload =>
    dsimp only [step]
    rcases e.ingest_cases now kind ts payload with same | ⟨session, current, -, same⟩
    · rwa [same]
    · rw [same]
      exact (evict_keepsSession (append_layout layout now kind ts payload session) now).inSession
        (append_inSession layout sessions current now kind ts payload)
  | _ => exact (step_rebuffers layout rfl).inSession layout sessions

theorem new_inSession (config : EngineConfig) : (Engine.new config).InSession :=
  ⟨by simp [Engine.new], by simp [Engine.new], by simp [Engine.new, newestSession]⟩

/-- In every run messages are buffered session by session. -/
theorem inSession_reached (config : EngineConfig) (ops : List Op) :
    ((Engine.new config).after ops).InSession := by
  have kept := Machine.after_induct (P := fun e => e.Sound ∧ e.InSession) Engine.step
    (fun e op ⟨sound, sessions⟩ => ⟨sound.step op, step_inSession sound sessions op⟩)
    (s := Engine.new config) ⟨.new config, new_inSession config⟩ ops
  exact kept.2

end Engine

end StreamDelay
