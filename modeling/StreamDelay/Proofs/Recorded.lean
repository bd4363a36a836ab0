import Mathlib.Data.List.Induction
import Mathlib.Tactic.Common
import StreamDelay.Proofs.Pictures
import StreamDelay.Proofs.Sessions

/-! # What was recorded

Over a whole run a message is known by its session and its number in it: a dump may use a number again, but only
in a new session. In a session that starts with sound, no sound can be started from once there is video.
-/

namespace StreamDelay

open Flv (Bytes)
open Foundations

namespace Engine

variable {e mid e' : Engine}

/-- The session being received, and if it has video. -/
def current (e : Engine) : Option (ℕ × Bool) := e.sessions.getLast?.map fun s => (s.id, s.hasVideo)

/-- Messages left the ring and none came; the session being received goes on, or a new one is. -/
structure Carries (e e' : Engine) : Prop where
  ring : ∀ x ∈ e'.ring, x ∈ e.ring
  issued : e.nextSession ≤ e'.nextSession
  current : ∀ c, e'.current = some c →
    e.nextSession ≤ c.1 ∧ c.1 < e'.nextSession ∨ e.current = some c ∧ e.nextSeq ≤ e'.nextSeq

namespace Carries

theorem refl (e : Engine) : Carries e e := ⟨fun _ => id, Nat.le_refl _, fun _ same => .inr ⟨same, Nat.le_refl _⟩⟩

theorem trans (first : Carries e mid) (second : Carries mid e') : Carries e e' where
  ring := fun x member => first.ring x (second.ring x member)
  issued := Nat.le_trans first.issued second.issued
  current := by
    intro c received
    have issued := first.issued
    have issued' := second.issued
    rcases second.current c received with ⟨fresh, known⟩ | ⟨same, next⟩
    · exact .inl ⟨Nat.le_trans issued fresh, known⟩
    · rcases first.current c same with ⟨fresh, known⟩ | ⟨same', next'⟩
      · exact .inl ⟨fresh, Nat.lt_of_lt_of_le known issued'⟩
      · exact .inr ⟨same', Nat.le_trans next' next⟩

/-- The session being received is the same, or gone. -/
theorem of_same (ring : ∀ x ∈ e'.ring, x ∈ e.ring) (issued : e'.nextSession = e.nextSession)
    (next : e'.nextSeq = e.nextSeq) (current : ∀ c, e'.current = some c → e.current = some c) : Carries e e' where
  ring := ring
  issued := Nat.le_of_eq issued.symm
  current := fun c received => .inr ⟨current c received, Nat.le_of_eq next.symm⟩

theorem of_onlyOut (only : OnlyOut e e') : Carries e e' :=
  .of_same (fun x member => by rwa [only.ring] at member) only.nextSession only.nextSeq
    fun c received => by rwa [Engine.current, only.sessions] at received

/-- A new session is received. -/
theorem opened {video : Bool} (ring : ∀ x ∈ e'.ring, x ∈ e.ring) (issued : e'.nextSession = e.nextSession + 1)
    (current : e'.current = some (e.nextSession, video)) : Carries e e' where
  ring := ring
  issued := by omega
  current := by
    intro c received
    obtain rfl := Option.some.inj (current.symm.trans received)
    exact .inl ⟨Nat.le_refl _, by omega⟩

end Carries

/-! ## Operations -/

theorem getLast?_filter {α : Type*} {p : α → Bool} {l : List α} (keeps : ∀ a, l.getLast? = some a → p a = true) :
    (l.filter p).getLast? = l.getLast? := by
  rcases l.eq_nil_or_concat with rfl | ⟨init, last, rfl⟩
  · rfl
  · have kept := keeps last (by simp)
    simp [List.filter_append, kept]

@[simp] theorem forgetHeaders_current (e : Engine) : e.forgetHeaders.current = e.current := by
  unfold forgetHeaders
  dsimp only
  split
  · rfl
  · simp only [current, countSessions, List.getLast?_map, Option.map_map]
    rfl

@[simp] theorem popBefore_current (e : Engine) (stop : ℕ) : (e.popBefore stop).current = e.current := by
  rw [current, popBefore_sessions, current]

@[simp] theorem forgetSessions_current (e : Engine) : e.forgetSessions.current = e.current := by
  unfold forgetSessions
  dsimp only
  rw [← forgetHeaders_current e]
  generalize e.forgetHeaders = mid
  split
  · rfl
  · split
    · refine congrArg (Option.map _) (getLast?_filter fun s last => ?_)
      simp [last]
    · rfl

private theorem dropBefore_current (seq : ℕ) (e : Engine) : (e.dropBefore seq).current = e.current := by
  unfold dropBefore
  dsimp only
  rw [forgetHeaders_current]
  split
  · exact e.popBefore_current seq
  · exact e.popBefore_current seq

theorem evict_carries (layout : e.Layout) (now : ℕ) : Carries e (e.evict now) := by
  have kept := evict_keepsSession layout now
  have next : (e.evict now).nextSeq = e.nextSeq := by
    obtain ⟨n, mid, trimmed, same | same⟩ := evict_trimmed layout now
    · rw [same, trimmed.next]
    · rw [same, (memoryShort_hold now mid).1.nextSeq, trimmed.next]
  refine .of_same kept.ring kept.nextSession next fun c received => ?_
  have loop : (evictLoop now ((e.config.maxDelayMs + e.config.headroomMs) * MS) (e.keepFrom now) e.restartPoint
      e.ring.length e false).1.current = e.current :=
    evictLoop_preserves (P := fun mid => mid.current = e.current)
      (fun mid stop same => by rw [forgetSessions_current, popBefore_current, same]) rfl
  unfold evict at received
  dsimp only at received
  split at received
  · rw [Engine.current, (memoryShort_hold now _).1.sessions] at received
    exact loop.symm.trans received
  · exact loop.symm.trans received

theorem dropBuffer_carries (e : Engine) : Carries e e.dropBuffer := by
  refine .of_same (by simp) (by simp) (by simp) fun c received => ?_
  have kept : e.dropBuffer.current =
      ((e.sessions.filter fun s =>
        some s.id = if e.ingestActive then e.sessions.getLast?.map Session.id else none).getLast?.map fun s =>
          (s.id, s.hasVideo)) := by
    unfold dropBuffer
    exact forgetHeaders_current _
  rw [kept] at received
  cases active : e.ingestActive with
  | false => simp [active] at received
  | true =>
    rwa [active, if_pos rfl, getLast?_filter] at received
    intro s last
    simp [last]

private theorem splitSession_carries (seq : ℕ) (ring : ∀ x ∈ mid.ring, x ∈ e.ring)
    (issued : mid.nextSession = e.nextSession) :
    Carries e (mid.splitSession seq) := by
  unfold splitSession
  split
  · next none =>
    refine ⟨ring, Nat.le_of_eq issued.symm, fun c received => ?_⟩
    rw [current, none] at received
    contradiction
  · next last found =>
    have opened : (mid.splitSession seq).current = some (e.nextSession, last.hasVideo) := by
      unfold splitSession
      rw [found]
      simp [current, countSessions, issued]
    rw [splitSession, found] at opened
    exact .opened ring (by simp [countSessions, issued]) opened

private theorem ingestStart_carries (now : ℕ) (e : Engine) : Carries e (e.ingestStart now) := by
  have kept : Carries e (if e.out.started then e else e.dropBuffer) ∧
      (if e.out.started then e else e.dropBuffer).nextSession = e.nextSession := by
    split
    · exact ⟨.refl e, rfl⟩
    · exact ⟨e.dropBuffer_carries, e.dropBuffer_nextSession⟩
  unfold ingestStart
  dsimp only
  generalize (if e.out.started then e else e.dropBuffer) = mid at kept
  have popped : mid.popIdleSession.nextSession = mid.nextSession := by
    unfold popIdleSession
    split
    · split <;> rfl
    · rfl
  have opened {sessions : List Session} : ({ mid.popIdleSession with
      nextSession := mid.popIdleSession.nextSession + 1
      sessions := sessions ++ [⟨mid.popIdleSession.nextSession, [], none, false, none, 33⟩] } : Engine).current =
      some (mid.nextSession, false) := by
    simp [current, popped]
  refine kept.1.trans (.opened (fun x member => ?_) (by simp [countSessions, popped]) opened)
  rw [← (popIdleSession_ring mid).1]
  exact member

private theorem ingestMetadata_carries (now : ℕ) (payload : Bytes) (e : Engine) :
    Carries e (e.ingestMetadata now payload) := by
  unfold ingestMetadata
  split
  · exact .refl e
  · split
    · exact .refl e
    · next s last =>
      refine .of_same (fun _ => id) rfl rfl fun c received => ?_
      simpa [current, countSessions, last] using received

theorem Rebuffers.carries (change : Rebuffers e e') (layout : e.Layout) : Carries e e' := by
  cases change with
  | output only => exact .of_onlyOut only
  | settings => exact .of_same (fun _ => id) rfl rfl fun _ => id
  | session now => exact e.ingestStart_carries now
  | metadata now payload => exact e.ingestMetadata_carries now payload
  | evicted now after => exact (evict_carries layout now).trans (.of_onlyOut after)
  | emptied before after => exact ((Carries.of_onlyOut before).trans (dropBuffer_carries _)).trans (.of_onlyOut after)
  | @cut mid _ before after =>
    have split : Carries mid ((mid.truncate mid.cut).splitSession mid.cut) :=
      splitSession_carries mid.cut (fun _ => List.mem_of_mem_take) rfl
    exact ((Carries.of_onlyOut before).trans split).trans (.of_onlyOut after)
  | dropped seq after =>
    have trimmed := dropBefore_trimmed layout seq
    have dropped : Carries e (e.dropBefore seq) := by
      refine .of_same (fun _ => trimmed.mem) trimmed.nextSession trimmed.next fun c received => ?_
      rwa [dropBefore_current] at received
    exact dropped.trans (.of_onlyOut after)

/-- Every operation but taking in a message leaves what is recorded, or starts a session. -/
theorem step_carries (sound : e.Sound) {op : Op} (none : op.ingests = false) : Carries e (e.step op).1 :=
  (step_rebuffers sound.layout none).carries sound.layout

/-! ## The history of a run -/

/-- Recorded in the run `ops` from `e`: buffered at some moment of it. -/
def Recorded (e : Engine) (ops : List Op) (x : Entry) : Prop := ∃ first, first <+: ops ∧ x ∈ (e.after first).ring

/-- What was recorded up to the state `e`. -/
structure History (recorded : Entry → Prop) (e : Engine) : Prop where
  buffered : ∀ x ∈ e.ring, recorded x
  issued : ∀ x, recorded x → x.session < e.nextSession
  current : ∀ c, e.current = some c → c.1 < e.nextSession ∧
    ∀ x, recorded x → x.session = c.1 → x.seq < e.nextSeq ∧ (x.IsFrame → c.2 = true)
  read : ∀ x, recorded x → ∃ session, x.ReadIn session
  unique : ∀ x y, recorded x → recorded y → x.session = y.session → x.seq = y.seq → x = y
  /-- Sound to start from comes before the video of its session. -/
  soundFirst : ∀ x y, recorded x → recorded y → x.session = y.session → x.IsFrame → y.sync = true →
    y.kind = .audio → y.seq < x.seq

namespace History

variable {recorded fewer : Entry → Prop}

theorem restrict (history : History recorded e) (sub : ∀ x, fewer x → recorded x)
    (buffered : ∀ x ∈ e.ring, fewer x) : History fewer e where
  buffered := buffered
  issued := fun x known => history.issued x (sub x known)
  current := fun c received =>
    ⟨(history.current c received).1, fun x known => (history.current c received).2 x (sub x known)⟩
  read := fun x known => history.read x (sub x known)
  unique := fun x y left right => history.unique x y (sub x left) (sub y right)
  soundFirst := fun x y left right => history.soundFirst x y (sub x left) (sub y right)

theorem carries (history : History recorded e) (carries : Carries e e') : History recorded e' where
  buffered := fun x member => history.buffered x (carries.ring x member)
  issued := fun x known => Nat.lt_of_lt_of_le (history.issued x known) carries.issued
  current := by
    intro c received
    rcases carries.current c received with ⟨fresh, known⟩ | ⟨same, next⟩
    · refine ⟨known, fun x recorded session => ?_⟩
      have issued := history.issued x recorded
      omega
    · obtain ⟨issued, of_session⟩ := history.current c same
      refine ⟨Nat.lt_of_lt_of_le issued carries.issued, fun x recorded session => ?_⟩
      obtain ⟨below, video⟩ := of_session x recorded session
      exact ⟨Nat.lt_of_lt_of_le below next, video⟩
  read := history.read
  unique := history.unique
  soundFirst := history.soundFirst

end History

private theorem new_history (config : EngineConfig) : History (fun _ => False) (Engine.new config) where
  buffered := by simp [Engine.new]
  issued := by simp
  current := by simp [Engine.new, Engine.current]
  read := by simp
  unique := by simp
  soundFirst := by simp

private theorem classify_video (now : ℕ) (kind : Kind) (ts : ℕ) (payload : Bytes) (session : Session)
    (stats : IngestTracker) :
    (session.hasVideo = true → (classify now kind ts payload session stats).session.hasVideo = true) ∧
      (kind = .video → (Flv.inspectVideo payload).isSome = true →
        (classify now kind ts payload session stats).session.hasVideo = true) := by
  unfold classify
  cases kind with
  | video =>
    dsimp only
    cases Flv.inspectVideo payload with
    | none => exact ⟨id, nofun⟩
    | some info => exact ⟨fun _ => rfl, fun _ _ => rfl⟩
  | audio =>
    dsimp only
    cases Flv.inspectAudio payload with
    | none => exact ⟨id, nofun⟩
    | some info => exact ⟨id, nofun⟩
  | data => exact ⟨id, nofun⟩

private theorem keepHeader_video (s : Session) (budget seq : ℕ) (kind : Kind) (config : Option UInt16)
    (payload : Bytes) :
    (s.keepHeader budget seq kind config payload).hasVideo = s.hasVideo := by
  unfold Session.keepHeader
  split
  · rfl
  · split
    · rfl
    · rfl

/-- The message appended is read in the session being received. -/
theorem append_read (now : ℕ) (kind : Kind) (ts : ℕ) (payload : Bytes) (session : Session) (e : Engine) :
    ∃ x video, (e.append now kind ts payload session).ring = e.ring ++ [x] ∧ x.seq = e.nextSeq ∧
      x.session = session.id ∧ x.ReadIn session ∧
      (e.append now kind ts payload session).nextSeq = e.nextSeq + 1 ∧
      (e.append now kind ts payload session).nextSession = e.nextSession ∧
      (e.append now kind ts payload session).current = some (session.id, video) ∧
      (session.hasVideo = true → video = true) ∧ (x.IsFrame → video = true) := by
  have kept := (keepHeader_id (classify now kind ts payload session e.stats).session
    (e.config.ramCapBytes / HEADER_SHARE_OF_RAM_CAP) e.nextSeq kind
    (classify now kind ts payload session e.stats).config payload).trans
    (classify_session now kind ts payload session e.stats)
  have video := keepHeader_video (classify now kind ts payload session e.stats).session
    (e.config.ramCapBytes / HEADER_SHARE_OF_RAM_CAP) e.nextSeq kind
    (classify now kind ts payload session e.stats).config payload
  obtain ⟨stays, comes⟩ := classify_video now kind ts payload session e.stats
  have newest {s : Session} (same : s.id = session.id) (list : List Session) :
      ((list ++ [s]).getLast?.map fun s => (s.id, s.hasVideo)) = some (session.id, s.hasVideo) := by
    simp [same]
  let x : Entry :=
    { seq := e.nextSeq, kind, ts, payload
      arrival := now
      session := ((classify now kind ts payload session e.stats).session.keepHeader
        (e.config.ramCapBytes / HEADER_SHARE_OF_RAM_CAP) e.nextSeq kind
        (classify now kind ts payload session e.stats).config payload).id
      sync := (classify now kind ts payload session e.stats).sync
      config := (classify now kind ts payload session e.stats).config
      cts := (classify now kind ts payload session e.stats).cts
      hevcNal := (classify now kind ts payload session e.stats).hevcNal
      nalOffset := (classify now kind ts payload session e.stats).nalOffset
      id := e.received }
  have ring : (e.append now kind ts payload session).ring = e.ring ++ [x] := by
    unfold append
    dsimp only
    split <;> rfl
  have counts : (e.append now kind ts payload session).nextSeq = e.nextSeq + 1 ∧
      (e.append now kind ts payload session).nextSession = e.nextSession := by
    unfold append
    dsimp only
    split <;> exact ⟨rfl, rfl⟩
  have received : (e.append now kind ts payload session).current =
      some (session.id, (classify now kind ts payload session e.stats).session.hasVideo) := by
    rw [← video]
    unfold append
    dsimp only
    split <;> exact newest kept _
  exact ⟨x, _, ring, rfl, kept, ⟨now, e.stats, rfl, rfl, rfl, rfl, rfl⟩, counts.1, counts.2, received, stays,
    fun frame => comes frame.1 frame.2.2⟩

private theorem append_history {recorded : Entry → Prop} (history : History recorded e) {session' : Session}
    (last : e.sessions.getLast? = some session') (now : ℕ) (kind : Kind) (ts : ℕ) (payload : Bytes) :
    History (fun x => recorded x ∨ x ∈ (e.append now kind ts payload session').ring)
      (e.append now kind ts payload session') := by
  obtain ⟨x, video, ring, seq, belongs, read, next, issued, received, had, has⟩ :=
    append_read now kind ts payload session' e
  have current : e.current = some (session'.id, session'.hasVideo) := by rw [Engine.current, last]; rfl
  obtain ⟨known, of_session⟩ := history.current _ current
  have older {y : Entry} (held : recorded y ∨ y ∈ (e.append now kind ts payload session').ring) :
      recorded y ∨ y = x := by
    rcases held with before | buffered
    · exact .inl before
    · rw [ring] at buffered
      rcases List.mem_append.mp buffered with before | new
      · exact .inl (history.buffered y before)
      · exact .inr (List.mem_singleton.mp new)
  refine ⟨fun y member => .inr member, fun y held => ?_, fun c same => ?_, fun y held => ?_,
    fun y z left right session seq => ?_, fun y z left right session frame sync audio => ?_⟩
  · rw [issued]
    rcases older held with before | rfl
    · exact history.issued y before
    · rwa [belongs]
  · obtain rfl := Option.some.inj (received.symm.trans same)
    refine ⟨by rwa [issued], fun y held session => ?_⟩
    rw [next]
    rcases older held with before | rfl
    · obtain ⟨below, frame⟩ := of_session y before session
      exact ⟨Nat.lt_succ_of_lt below, fun isFrame => had (frame isFrame)⟩
    · exact ⟨by omega, has⟩
  · rcases older held with before | rfl
    · exact history.read y before
    · exact ⟨session', read⟩
  · rcases older left with before | rfl
    · rcases older right with before' | rfl
      · exact history.unique y z before before' session seq
      · have below := (of_session y before (session.trans belongs)).1
        omega
    · rcases older right with before' | rfl
      · have below := (of_session z before' (session.symm.trans belongs)).1
        omega
      · rfl
  · rcases older left with before | rfl
    · rcases older right with before' | rfl
      · exact history.soundFirst y z before before' session frame sync audio
      · -- With video in it, the session no longer starts from sound.
        have seen : session'.hasVideo = true := (of_session y before (session.trans belongs)).2 frame
        rcases read.of_sync sync with video | ⟨-, -, unseen⟩
        · rw [video.1] at audio
          contradiction
        · rw [seen] at unseen
          contradiction
    · rcases older right with before' | rfl
      · have below := (of_session z before' (session.symm.trans belongs)).1
        omega
      · rw [frame.1] at audio
        contradiction

private theorem step_history {recorded : Entry → Prop} (sound : e.Sound) (history : History recorded e) (op : Op) :
    History (fun x => recorded x ∨ x ∈ (e.step op).1.ring) (e.step op).1 := by
  have plain (none : op.ingests = false) :
      History (fun x => recorded x ∨ x ∈ (e.step op).1.ring) (e.step op).1 := by
    have carries := step_carries sound none
    refine (history.carries carries).restrict (fun x held => ?_) fun x member => .inr member
    rcases held with before | buffered
    · exact before
    · exact history.buffered x (carries.ring x buffered)
  cases op with
  | ingest now kind ts payload =>
    dsimp only [step]
    rcases e.ingest_cases now kind ts payload with same | ⟨session, last, -, same⟩
    · rw [same]
      refine history.restrict (fun x held => ?_) fun x member => .inr member
      rcases held with before | buffered
      · exact before
      · exact history.buffered x buffered
    · rw [same]
      have evicted := evict_carries (append_layout sound.layout now kind ts payload session) now
      refine ((append_history history last now kind ts payload).carries evicted).restrict (fun x held => ?_)
        fun x member => .inr member
      rcases held with before | buffered
      · exact .inl before
      · exact .inr (evicted.ring x buffered)
  | ingestStart | ingestEnd | ingestMetadata | outputConnected | outputDisconnected | unsend | dumpAfter
  | outputReset | discard | endAfter | cancelEnd | restartAfterEnd | command | setKeepHistory
  | setRestoreAfterReconnect | pollBudget => exact plain rfl

/-- In every run, what was recorded has its place in its session. -/
theorem history_reached (config : EngineConfig) (ops : List Op) :
    History (Recorded (Engine.new config) ops) ((Engine.new config).after ops) := by
  induction ops using List.reverseRecOn with
  | nil =>
    refine (new_history config).restrict (fun x held => ?_) nofun
    obtain ⟨first, early, member⟩ := held
    rw [List.prefix_nil.mp early] at member
    contradiction
  | append_singleton ops op ih =>
    have next := step_history (Sound.reached config ops) ih op
    rw [after, Machine.after_append]
    refine next.restrict (fun x held => ?_) fun x member => ?_
    · obtain ⟨first, early, member⟩ := held
      rcases List.prefix_concat_iff.mp early with rfl | earlier
      · rw [after, Machine.after_append] at member
        exact .inr member
      · exact .inl ⟨first, earlier, member⟩
    · exact ⟨ops ++ [op], List.prefix_rfl, by rwa [after, Machine.after_append]⟩

end Engine

end StreamDelay
