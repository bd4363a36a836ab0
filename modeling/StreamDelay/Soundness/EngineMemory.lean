import Mathlib.Tactic.Common
import StreamDelay.Proofs.Kept

/-! # The memory of the engine is bounded

The sessions kept are the current one and those with buffered messages, and what is kept is within the memory
limit or down to a single message. What empties a session without eviction going over it leaves it behind: a
dump that replays, the start of the next broadcast after an end mark, and eviction of the last message.
-/

namespace StreamDelay

open Flv (Bytes)
open Foundations

namespace Engine

variable {e mid : Engine}

/-! ## Steps that leave no session behind -/

/-- A dump replays what aired, and cuts off what has not. -/
def Replays (now : ℕ) (mode : DelayMode) (e : Engine) : Prop :=
  e.canDump = true ∧ mode = .rewind ∧ e.out.started = true ∧ e.dumpEnding = false ∧
    (e.replayFrom now e.dumpDelay).isSome = true

/-- The current session has a message before the cut. -/
def KeepsCurrent (e : Engine) : Prop := ∃ x ∈ e.ring, x.seq < e.cut ∧ e.newestSession = some x.session

/-- The last buffered message is of the current session, or a keyframe is buffered and all of it fits. -/
def Lasting (x : Entry) (e : Engine) : Prop :=
  e.newestSession = some x.session ∨ e.syncs ≠ [] ∧ e.bytes + e.sessionBytes ≤ e.config.ramCapBytes

/-- What an operation must find for no session to be left behind. -/
def Gentle (e : Engine) : Op → Prop
  | .command now (.dump mode _) => e.Replays now mode → e.KeepsCurrent
  | .dumpAfter now taken mode _ =>
    e.canDump = true → (e.unsend taken).Replays now mode → (e.unsend taken).KeepsCurrent
  | .restartAfterEnd =>
    ∀ i ∈ e.sessionIds.dropLast, ∃ x ∈ e.ring, x.session = i ∧ e.out.endMark.elim e.nextSeq (· + 1) ≤ x.seq
  | .pollBudget now _ =>
    ∀ x, e.ring.getLast? = some x →
      Emptied now ((e.config.maxDelayMs + e.config.headroomMs) * MS) e.restartPoint x → e.Lasting x
  | _ => True

instance (now capacity : ℕ) (restart : Option ℕ) (x : Entry) : Decidable (Emptied now capacity restart x) :=
  decidable_of_iff (x.sync = false ∧ x.arrival + capacity < now ∧ ∀ r ∈ restart, x.seq < r)
    ⟨fun ⟨plain, aged, aired⟩ => ⟨plain, aged, aired⟩, fun ⟨plain, aged, aired⟩ => ⟨plain, aged, aired⟩⟩

instance (now : ℕ) (mode : DelayMode) (e : Engine) : Decidable (e.Replays now mode) :=
  inferInstanceAs (Decidable (_ ∧ _))

instance (e : Engine) : Decidable e.KeepsCurrent := inferInstanceAs (Decidable (∃ x ∈ e.ring, _))

instance (x : Entry) (e : Engine) : Decidable (e.Lasting x) := inferInstanceAs (Decidable (_ ∨ _))

instance (e : Engine) : ∀ op, Decidable (e.Gentle op)
  | .command now (.dump mode _) => inferInstanceAs (Decidable (e.Replays now mode → e.KeepsCurrent))
  | .dumpAfter now taken mode _ =>
    inferInstanceAs (Decidable (e.canDump = true → (e.unsend taken).Replays now mode → (e.unsend taken).KeepsCurrent))
  | .restartAfterEnd => inferInstanceAs (Decidable (∀ i ∈ e.sessionIds.dropLast, ∃ x ∈ e.ring, _))
  | .pollBudget .. => inferInstanceAs (Decidable (∀ x ∈ e.ring.getLast?, _ → e.Lasting x))
  | .command _ (.setDelay ..) | .command _ (.goLive _) | .command _ .cancel | .command _ (.slateShown _)
  | .ingestStart _ | .ingestEnd _ | .ingestMetadata .. | .ingest .. | .outputConnected _
  | .outputDisconnected .. | .unsend _ | .outputReset | .discard | .endAfter | .cancelEnd | .setKeepHistory _
  | .setRestoreAfterReconnect _ => .isTrue trivial

/-- An operation after which the memory is looked at: a poll, or an `ingest` that takes its message. -/
def Settles (e : Engine) : Op → Prop
  | .pollBudget .. => True
  | .ingest _ _ _ payload => e.ingestActive = true ∧ payload ≠ [] ∧ e.sessions ≠ []
  | _ => False

/-! ## Each operation -/

private theorem evict_tidy (layout : e.Layout) (sessions : e.InSession) (counted : e.Counted) (tidy : e.Tidy) {now : ℕ}
    (lasting : ∀ x, e.ring.getLast? = some x →
      Emptied now ((e.config.maxDelayMs + e.config.headroomMs) * MS) e.restartPoint x → e.Lasting x) :
    (e.evict now).Tidy := by
  have loop : (evictLoop now ((e.config.maxDelayMs + e.config.headroomMs) * MS) (e.keepFrom now) e.restartPoint
      e.ring.length e false).1.Tidy := by
    rcases evictLoop_tidy false layout sessions tidy with tidy | ⟨empty, x, last, emptied, other⟩
    · exact tidy
    · rcases lasting x last emptied with current | ⟨some, fits⟩
      · exact absurd current other
      · exact absurd empty (evictLoop_nonempty false layout counted fits some)
  unfold evict
  dsimp only
  split
  · exact loop.of_onlyOut (memoryShort_hold now _).1
  · exact loop

private theorem dropBuffer_tidy (tidy : e.Tidy) : e.dropBuffer.Tidy := by
  have ids : e.dropBuffer.sessionIds =
      e.sessionIds.filter fun i => some i = if e.ingestActive then e.newestSession else none := by
    show (forgetHeaders _).sessionIds = _
    rw [forgetHeaders_ids, countSessions_ids]
    unfold sessionIds
    dsimp only
    rw [List.filter_map]
    rfl
  have increasing : e.dropBuffer.sessionIds.Pairwise (· < ·) := by
    rw [ids]
    exact tidy.increasing.filter _
  refine .of_empty increasing ?_ ?_ e.dropBuffer_ring
  · rw [ids, dropBuffer_nextSession]
    exact fun i member => tidy.issued i (List.mem_filter.mp member).1
  · -- All ids kept are the current one, so there is one at most.
    have same {i : ℕ} (member : i ∈ e.dropBuffer.sessionIds) :
        some i = if e.ingestActive then e.newestSession else none := by
      rw [ids] at member
      exact of_decide_eq_true (List.mem_filter.mp member).2
    refine List.eq_nil_iff_forall_not_mem.mpr fun i member => ?_
    obtain ⟨j, last⟩ := List.getLast?_isSome.mpr (List.ne_nil_of_mem ((List.dropLast_sublist _).subset member)) |>
      Option.isSome_iff_exists.mp
    have below := last_above increasing member ((newestSession_eq _).trans last)
    have both := (same ((List.dropLast_sublist _).subset member)).trans (same (List.mem_of_getLast? last)).symm
    rw [Option.some.inj both] at below
    exact Nat.lt_irrefl _ below

/-- What is opened after everything buffered is the only session that may have no message. -/
theorem Tidy.opened {e' : Engine} (tidy : e.Tidy)
    (nextSession : e'.nextSession = e.nextSession + 1) {ids : List ℕ} (sub : ids.Sublist e.sessionIds)
    (opened : e'.sessionIds = ids ++ [e.nextSession])
    (occupied : ∀ i ∈ ids, ∃ x ∈ e'.ring, x.session = i) (listed : ∀ x ∈ e'.ring, x.session ∈ ids) : e'.Tidy where
  increasing := by
    rw [opened]
    refine List.pairwise_append.mpr ⟨tidy.increasing.sublist sub, List.pairwise_singleton .., fun i member j new => ?_⟩
    rw [List.mem_singleton.mp new]
    exact tidy.issued i (sub.subset member)
  issued := by
    rw [opened, nextSession]
    intro i member
    rcases List.mem_append.mp member with older | new
    · exact Nat.lt_succ_of_lt (tidy.issued i (sub.subset older))
    · rw [List.mem_singleton.mp new]
      exact Nat.lt_succ_self _
  occupied := by
    rw [opened, List.dropLast_concat]
    exact occupied
  listed := by
    rw [opened]
    exact fun x member => List.mem_append_left _ (listed x member)

private theorem splitSession_tidy {seq : ℕ} (tidy : e.Tidy) (layout : e.Layout) (sessions : e.InSession)
    (low : e.baseSeq ≤ seq) (keeps : ∃ x ∈ e.ring, x.seq < seq ∧ e.newestSession = some x.session) :
    ((e.truncate seq).splitSession seq).Tidy := by
  obtain ⟨x, buffered, before, current⟩ := keeps
  have here (y : Entry) : y ∈ ((e.truncate seq).splitSession seq).ring ↔ y ∈ e.ring ∧ y.seq < seq := by
    rw [splitSession_ring, truncate_mem layout low]
  obtain ⟨last, found, same⟩ := Option.map_eq_some_iff.mp current
  have split : ((e.truncate seq).splitSession seq).sessionIds = e.sessionIds ++ [e.nextSession] ∧
      ((e.truncate seq).splitSession seq).nextSession = e.nextSession + 1 := by
    have there : (e.truncate seq).sessions.getLast? = some last := found
    unfold splitSession
    rw [there]
    dsimp only
    refine ⟨?_, rfl⟩
    rw [countSessions_ids]
    unfold sessionIds
    dsimp only
    rw [List.map_append]
    rfl
  refine tidy.opened split.2 (.refl _) split.1 (fun i member => ?_)
    fun y member => tidy.listed y ((here y).mp member).1
  -- The message of the current session that stays comes after one of every other.
  obtain ⟨init, ids⟩ := List.getLast?_eq_some_iff.mp ((newestSession_eq e).symm.trans current)
  rw [ids] at member
  rcases List.mem_append.mp member with earlier | newest
  · have inside : i ∈ e.sessionIds.dropLast := by rwa [ids, List.dropLast_concat]
    obtain ⟨y, there, rfl⟩ := tidy.occupied i inside
    have below := last_above tidy.increasing inside current
    refine ⟨y, (here y).mpr ⟨there, ?_⟩, rfl⟩
    rcases Nat.lt_or_ge y.seq seq with lt | ge
    · exact lt
    · have order := sessions.ordered x buffered y there (by omega)
      omega
  · exact ⟨x, (here x).mpr ⟨buffered, before⟩, (List.mem_singleton.mp newest).symm⟩

private theorem dump_tidy (tidy : e.Tidy) (layout : e.Layout) (sessions : e.InSession) (able : e.canDump = true)
    (now : ℕ)
    (mode : DelayMode) (cover : Bool) (gentle : e.Replays now mode → e.KeepsCurrent) :
    (e.dump now mode cover).1.Tidy := by
  have dropped := dropBuffer_tidy tidy
  unfold dump
  split
  · exact dropped
  · next up =>
    split
    · exact dropped.of_onlyOut (setPending_onlyOut _ _)
    · next running =>
      dsimp only
      have targeted := tidy.of_onlyOut (retarget_onlyOut e.dumpDelay e)
      split
      · next replays =>
        split at replays
        · next rewind =>
          obtain ⟨k, going, rfl⟩ := Option.map_eq_some_iff.mp replays
          have back : (e.replayFrom now e.dumpDelay).isSome = true := Option.isSome_iff_exists.mpr ⟨k, going⟩
          have keeps := gentle ⟨able, rewind, by simpa using up, by simpa using running, back⟩
          have only := retarget_onlyOut e.dumpDelay e
          have cut := splitSession_tidy targeted (layout.of_out layout.cursor layout.mark : (e.retarget _).Layout)
            ((KeepsSession.of_onlyOut only).inSession sessions) (Nat.le_max_right e.out.nextSeq e.baseSeq) keeps
          exact cut.of_onlyOut ((setPending_onlyOut _ _).trans (spliceTo_onlyOut k _ _))
        · contradiction
      · rw [holdInstead_eq]
        exact (dropBuffer_tidy targeted).of_onlyOut rfl

private theorem command_tidy (tidy : e.Tidy) (layout : e.Layout) (sessions : e.InSession) (now : ℕ) (cmd : Command)
    (gentle : ∀ mode cover, cmd = .dump mode cover → e.Replays now mode → e.KeepsCurrent) :
    (e.command now cmd).1.Tidy := by
  have cleared := clearNotices_inPlace layout cmd
  have layout' := cleared.layout layout
  have tidy' := tidy.of_onlyOut cleared.only
  have run {mid : Engine} (layout : mid.Layout) (tidy : mid.Tidy) : (mid.runPending now).Tidy :=
    tidy.of_onlyOut (runPending_inPlace layout now).only
  unfold command
  split
  · exact tidy
  · cases cmd with
    | setDelay ms mode => exact tidy'.of_onlyOut (setDelay_inPlace layout' now ms mode).only
    | goLive when_ =>
      have change := goLive_inPlace layout' when_
      exact run (change.layout layout') (tidy'.of_onlyOut change.only)
    | cancel =>
      have change := cancel_inPlace layout'
      exact run (change.layout layout') (tidy'.of_onlyOut change.only)
    | slateShown n =>
      have change := slateShown_inPlace layout' now n
      exact run (change.layout layout') (tidy'.of_onlyOut change.only)
    | dump mode cover =>
      unfold obey
      dsimp only
      split
      · next able =>
        have sessions' := (KeepsSession.of_onlyOut cleared.only).inSession sessions
        exact run (dump_layout layout' now mode cover)
          (dump_tidy tidy' layout' sessions' able now mode cover (gentle mode cover rfl))
      · exact tidy'

/-! ### The encoder -/

/-- The session popped is the last, and no message is of it. -/
theorem popIdleSession_ids (tidy : e.Tidy) (layout : e.Layout) (sessions : e.InSession) :
    e.popIdleSession.sessionIds.Sublist e.sessionIds ∧
      (∀ i ∈ e.popIdleSession.sessionIds, ∃ x ∈ e.ring, x.session = i) ∧
      ∀ x ∈ e.ring, x.session ∈ e.popIdleSession.sessionIds := by
  unfold popIdleSession
  cases current : e.sessions.getLast? with
  | none =>
    have empty : e.sessionIds = [] := by rw [sessionIds, List.getLast?_eq_none_iff.mp current]; rfl
    refine ⟨.refl _, ?_, tidy.listed⟩
    rw [empty]
    exact fun _ absent => absurd absent List.not_mem_nil
  | some last =>
    have newest : e.newestSession = some last.id := by rw [newestSession, current]; rfl
    obtain ⟨init, ids⟩ := List.getLast?_eq_some_iff.mp ((newestSession_eq e).symm.trans newest)
    have front : e.sessionIds.dropLast = init := by rw [ids, List.dropLast_concat]
    have occupied := tidy.occupied
    rw [front] at occupied
    dsimp only
    split
    · next idle =>
      have kept : ({ e with sessions := e.sessions.dropLast } : Engine).sessionIds = init := by
        rw [← front]
        exact List.map_dropLast ..
      rw [kept, ids]
      refine ⟨List.sublist_append_left .., occupied, fun x member => ?_⟩
      have listed := tidy.listed x member
      rw [ids] at listed
      rcases List.mem_append.mp listed with inside | same
      · exact inside
      · -- The last message buffered is of an earlier session, so this one is as well.
        obtain ⟨y, newestMsg⟩ := Option.isSome_iff_exists.mp
          (List.getLast?_isSome.mpr (List.ne_nil_of_mem member))
        rw [newestMsg] at idle
        have other : y.session ≠ last.id := by simpa using idle
        have there := tidy.listed y (List.mem_of_getLast? newestMsg)
        rw [ids] at there
        have inside := (List.mem_append.mp there).resolve_right fun same => other (List.mem_singleton.mp same)
        have below := last_above tidy.increasing (front ▸ inside) newest
        have order := sessions.ordered x member y (List.mem_of_getLast? newestMsg) (le_last layout member newestMsg)
        have at_ := List.mem_singleton.mp same
        omega
    · next busy =>
      refine ⟨.refl _, fun i member => ?_, tidy.listed⟩
      rw [ids] at member
      rcases List.mem_append.mp member with inside | same
      · exact occupied i inside
      · cases newestMsg : e.ring.getLast? with
        | none => rw [newestMsg] at busy; exact absurd rfl busy
        | some y =>
          rw [newestMsg] at busy
          refine ⟨y, List.mem_of_getLast? newestMsg, ?_⟩
          rw [List.mem_singleton.mp same]
          simpa using busy

private theorem ingestStart_tidy (tidy : e.Tidy) (layout : e.Layout) (sessions : e.InSession) (now : ℕ) :
    (e.ingestStart now).Tidy := by
  have begun : (if e.out.started then e else e.dropBuffer).Tidy ∧
      (if e.out.started then e else e.dropBuffer).Layout ∧
      (if e.out.started then e else e.dropBuffer).InSession := by
    split
    · exact ⟨tidy, layout, sessions⟩
    · exact ⟨dropBuffer_tidy tidy, dropBuffer_layout layout, e.dropBuffer_keepsSession.inSession sessions⟩
  unfold ingestStart
  dsimp only
  generalize (if e.out.started then e else e.dropBuffer) = mid at begun
  obtain ⟨tidy, layout, sessions⟩ := begun
  have next : mid.popIdleSession.nextSession = mid.nextSession := by
    unfold popIdleSession
    split
    · split <;> rfl
    · rfl
  have ring := (popIdleSession_ring mid).1
  obtain ⟨sub, occupied, listed⟩ := popIdleSession_ids tidy layout sessions
  refine tidy.opened ?_ sub ?_ (fun i member => ?_) fun x member => ?_
  · show mid.popIdleSession.nextSession + 1 = _
    rw [next]
  · show (mid.popIdleSession.sessions ++ [_]).map Session.id = _
    rw [List.map_append, next]
    rfl
  · obtain ⟨x, here, same⟩ := occupied i member
    exact ⟨x, ring ▸ here, same⟩
  · exact listed x (ring ▸ member)

private theorem append_tidy (tidy : e.Tidy) {session : Session} (current : e.sessions.getLast? = some session) (now : ℕ)
    (kind : Kind) (ts : ℕ) (payload : Bytes) : (e.append now kind ts payload session).Tidy := by
  obtain ⟨x, belongs, -, -, ring, ids, nextSession, -⟩ := append_fields current now kind ts payload
  constructor
  · rw [ids]; exact tidy.increasing
  · rw [ids, nextSession]; exact tidy.issued
  · rw [ids, ring]
    intro i member
    obtain ⟨y, there, same⟩ := tidy.occupied i member
    exact ⟨y, List.mem_append_left _ there, same⟩
  · rw [ids, ring]
    intro y member
    rcases List.mem_append.mp member with older | new
    · exact tidy.listed y older
    · rw [List.mem_singleton.mp new, belongs]
      exact List.mem_map_of_mem (List.mem_of_getLast? current)

private theorem ingestMetadata_tidy (tidy : e.Tidy) (now : ℕ) (payload : Bytes) :
    (e.ingestMetadata now payload).Tidy := by
  have ring : (e.ingestMetadata now payload).ring = e.ring := by
    unfold ingestMetadata
    split
    · rfl
    · split <;> rfl
  exact tidy.congr (e.ingestMetadata_ids now payload) ring (e.ingestMetadata_keepsSession now payload).nextSession

private theorem ingest_tidy (tidy : e.Tidy) (layout : e.Layout) (sessions : e.InSession) (counted : e.Counted) (now : ℕ)
    (kind : Kind) (ts : ℕ) (payload : Bytes) : (e.ingest now kind ts payload).Tidy := by
  rcases e.ingest_cases now kind ts payload with same | ⟨session, current, -, same⟩
  · rwa [same]
  · rw [same]
    obtain ⟨x, belongs, arrival, -, ring, -⟩ := append_fields current now kind ts payload
    refine evict_tidy (append_layout layout now kind ts payload session)
      (append_inSession layout sessions current now kind ts payload)
      (append_counted counted current now kind ts payload) (append_tidy tidy current now kind ts payload)
      fun y last emptied => ?_
    -- The message has only just arrived.
    rw [ring, List.getLast?_concat] at last
    obtain rfl := Option.some.inj last
    have aged := emptied.aged
    omega

private theorem restartAfterEnd_tidy (tidy : e.Tidy) (layout : e.Layout)
    (gentle : ∀ i ∈ e.sessionIds.dropLast, ∃ x ∈ e.ring,
      x.session = i ∧ e.out.endMark.elim e.nextSeq (· + 1) ≤ x.seq) : e.restartAfterEnd.Tidy := by
  set stop := e.out.endMark.elim e.nextSeq (· + 1)
  have trimmed := dropBefore_trimmed layout stop
  have ids := dropBefore_ids e stop
  have ring : (e.dropBefore stop).ring = (e.popBefore stop).ring := by
    rw [trimmed.ring, (popBefore_trimmed layout stop).ring]
  have dropped : (e.dropBefore stop).Tidy := by
    constructor
    · rw [ids]; exact tidy.increasing
    · rw [ids, trimmed.nextSession]; exact tidy.issued
    · rw [ids, ring]
      intro i member
      obtain ⟨x, buffered, same, stays⟩ := gentle i member
      exact ⟨x, (popBefore_mem layout).mpr ⟨buffered, stays⟩, same⟩
    · rw [ids]
      exact fun x member => tidy.listed x (trimmed.mem member)
  exact dropped.of_onlyOut rfl

/-! ## Every run -/

/-- An operation that finds what it must leaves no session behind. -/
theorem step_tidy (sound : e.Sound) (sessions : e.InSession) (counted : e.Counted) (tidy : e.Tidy) (op : Op)
    (gentle : e.Gentle op) : (e.step op).1.Tidy := by
  have layout := sound.layout
  cases op with
  | ingestStart now => exact ingestStart_tidy tidy layout sessions now
  | ingestMetadata now payload => exact ingestMetadata_tidy tidy now payload
  | ingestEnd | setKeepHistory | setRestoreAfterReconnect => exact tidy.congr rfl rfl rfl
  | cancelEnd | outputReset => exact tidy.of_onlyOut rfl
  | endAfter =>
    dsimp only [step]
    cases e.lastSeq with
    | none => exact tidy
    | some => exact tidy.of_onlyOut rfl
  | ingest now kind ts payload => exact ingest_tidy tidy layout sessions counted now kind ts payload
  | outputConnected now => exact tidy.of_onlyOut (outputConnected_inPlace layout now).only
  | outputDisconnected now lastWritten => exact tidy.of_onlyOut (outputDisconnected_inPlace layout now lastWritten).only
  | unsend taken => exact tidy.of_onlyOut (unsend_inPlace layout taken).only
  | dumpAfter now taken mode cover =>
    dsimp only [step]
    unfold dumpAfter
    split
    · next able =>
      have unsent := unsend_inPlace layout taken
      refine command_tidy (tidy.of_onlyOut unsent.only) (unsent.layout layout)
        ((KeepsSession.of_onlyOut unsent.only).inSession sessions) now _ fun mode' cover' same replays => ?_
      obtain ⟨rfl, rfl⟩ := Command.dump.inj same
      exact gentle able replays
    · split
      · exact tidy
      · exact tidy.of_onlyOut (refuseDump_inPlace layout taken).only
  | discard => exact (dropBuffer_tidy tidy).of_onlyOut rfl
  | restartAfterEnd => exact restartAfterEnd_tidy tidy layout gentle
  | command now cmd =>
    refine command_tidy tidy layout sessions now cmd fun mode cover same replays => ?_
    subst same
    exact gentle replays
  | pollBudget now maxBytes =>
    have evicted := evict_tidy layout sessions counted tidy gentle
    exact evicted.of_onlyOut (pollBudget_moves (evict_layout layout now) maxBytes).onlyOut

private theorem new_tidy (config : EngineConfig) : (Engine.new config).Tidy := .of_empty .nil nofun rfl rfl

/-- What a run has kept so far. -/
structure Orderly (e : Engine) : Prop where
  sound : e.Sound
  sessions : e.InSession
  counted : e.Counted
  tidy : e.Tidy

private theorem orderly_step {op : Op} (kept : e.Orderly) (gentle : e.Gentle op) : (e.step op).1.Orderly :=
  ⟨kept.sound.step op, step_inSession kept.sound kept.sessions op, step_counted kept.sound.layout kept.counted op,
    step_tidy kept.sound kept.sessions kept.counted kept.tidy op gentle⟩

private theorem orderly_along {config : EngineConfig} {ops : List Op}
    (gentle : Machine.Along step Gentle (Engine.new config) ops) : ((Engine.new config).after ops).Orderly :=
  Machine.preserves_along step (fun _ _ gentle kept => orderly_step kept gentle) gentle
    ⟨.new config, new_inSession config, ⟨rfl, rfl⟩, new_tidy config⟩

/-- After an operation that looks at the memory, the limit is met or a single message is left. -/
theorem step_bounded (layout : e.Layout) {op : Op} (settles : e.Settles op) : (e.step op).1.Bounded := by
  cases op with
  | pollBudget now maxBytes =>
    have only := (pollBudget_moves (evict_layout layout now) maxBytes).onlyOut
    show (e.pollBudget now maxBytes).1.Bounded
    rw [only]
    exact evict_bounded layout now
  | ingest now kind ts payload =>
    obtain ⟨active, some, begun⟩ := settles
    have taken : ∃ session, e.ingest now kind ts payload = (e.append now kind ts payload session).evict now := by
      obtain ⟨session, last⟩ := Option.isSome_iff_exists.mp (List.getLast?_isSome.mpr begun)
      refine ⟨session, ?_⟩
      unfold ingest
      rw [if_neg (by simp [active, some]), last]
    obtain ⟨session, same⟩ := taken
    show (e.ingest now kind ts payload).Bounded
    rw [same]
    exact evict_bounded (append_layout layout now kind ts payload session) now
  | _ => contradiction

/-- With one message, there are the current session and one other. -/
theorem Tidy.sessions_le (tidy : e.Tidy) (few : e.ring.length ≤ 1) : e.sessions.length ≤ 2 := by
  have length : e.sessionIds.length = e.sessions.length := List.length_map ..
  have others : e.sessionIds.dropLast.length ≤ 1 := by
    have increasing := tidy.increasing.sublist (List.dropLast_sublist _)
    have occupied := tidy.occupied
    match e.sessionIds.dropLast, increasing, occupied with
    | [], _, _ => exact Nat.zero_le _
    | [_], _, _ => exact Nat.le_refl _
    | i :: j :: _, increasing, occupied =>
      have below := (List.pairwise_cons.mp increasing).1 j (by simp)
      obtain ⟨x, left, rfl⟩ := occupied i (by simp)
      obtain ⟨y, right, rfl⟩ := occupied j (by simp)
      match ring : e.ring, few with
      | [], _ => rw [ring] at left; contradiction
      | [z], _ =>
        rw [ring, List.mem_singleton] at left right
        rw [left, right] at below
        exact absurd below (Nat.lt_irrefl _)
  rw [List.length_dropLast] at others
  omega

/-- In a run that leaves no session behind, after every poll and every message taken in: the sessions kept
other than the current are those with buffered messages, the counters are what the messages and the sessions
cost, and they are within the memory limit, or a single message and two sessions are left. -/
theorem memory_bounded (config : EngineConfig) (ops : List Op) (op : Op)
    (gentle : Machine.Along step Gentle (Engine.new config) (ops ++ [op]))
    (settles : ((Engine.new config).after ops).Settles op) :
    let e := (Engine.new config).after (ops ++ [op])
    (∀ i, e.newestSession ≠ some i → (i ∈ e.sessionIds ↔ ∃ x ∈ e.ring, x.session = i)) ∧
      e.bytes = ringCost e.ring ∧ e.sessionBytes = sessionsCost e.sessions ∧
      (e.bytes + e.sessionBytes ≤ e.config.ramCapBytes ∨ e.ring.length ≤ 1 ∧ e.sessions.length ≤ 2) := by
  have kept := orderly_along gentle
  have before := (orderly_along ((Machine.along_append step).mp gentle).1).sound.layout
  have bounded : ((Engine.new config).after (ops ++ [op])).Bounded := by
    rw [after, Machine.after_append]
    exact step_bounded before settles
  intro e
  refine ⟨fun i other => ⟨fun member => ?_, ?_⟩, kept.counted.bytes, kept.counted.sessionBytes, ?_⟩
  · refine kept.tidy.occupied i ?_
    obtain ⟨init, j, ids⟩ := e.sessionIds.eq_nil_or_concat.resolve_left (List.ne_nil_of_mem member)
    rw [List.concat_eq_append] at ids
    rw [newestSession_eq, ids, List.getLast?_concat] at other
    rw [ids] at member ⊢
    rw [List.dropLast_concat]
    exact (List.mem_append.mp member).resolve_right fun same => other (congrArg some (List.mem_singleton.mp same).symm)
  · rintro ⟨x, member, rfl⟩
    exact kept.tidy.listed x member
  · rcases bounded with fits | few
    · exact .inl fits
    · exact .inr ⟨few, kept.tidy.sessions_le few⟩

/-- A broadcast that is dumped back to what aired, while the encoder has sent more. -/
def replayed : List Op :=
  [.ingestStart 0, .outputConnected 0, .command 0 (.setDelay 1000 .rewind), .ingest 0 .video 0 keyframe,
    .ingest SEC .video 1000 keyframe, .ingest (2 * SEC) .video 2000 keyframe, .pollBudget (2 * SEC) 1000,
    .command (2 * SEC) (.dump .rewind false)]

theorem memory_bounded_replayed :
    let e := (Engine.new {}).after (replayed ++ [.pollBudget (2 * SEC) 1000])
    e.bytes + e.sessionBytes ≤ e.config.ramCapBytes ∨ e.ring.length ≤ 1 ∧ e.sessions.length ≤ 2 :=
  (memory_bounded {} replayed (.pollBudget (2 * SEC) 1000) (by decide +kernel) trivial).2.2.2

/-- The encoder has sent more in a new session of its own: the dump leaves that session behind, empty. -/
theorem session_left_behind :
    let e := (Engine.new {}).after
      [.ingestStart 0, .outputConnected 0, .command 0 (.setDelay 1000 .rewind), .ingest 0 .video 0 keyframe,
        .ingest SEC .video 1000 keyframe, .ingest (2 * SEC) .video 2000 keyframe, .pollBudget (2 * SEC) 1000,
        .ingestEnd (2 * SEC), .ingestStart (2 * SEC), .ingest (2 * SEC) .video 0 keyframe,
        .command (2 * SEC) (.dump .rewind false), .pollBudget (2 * SEC) 1000]
    e.sessionIds = [1, 2, 3] ∧ e.ring.map Entry.session = [1, 1] := by
  decide +kernel

end Engine

end StreamDelay
