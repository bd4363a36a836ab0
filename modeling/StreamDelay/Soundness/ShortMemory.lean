import Mathlib.Tactic.Common
import StreamDelay.Proofs.Eviction
import StreamDelay.Proofs.Reductions

/-! # When the memory is short

What eviction does about content the memory limit takes before it airs: it says so, as long as a keyframe is
left, and comes down to a delay the buffer holds, unless the change under way waits for a keyframe to become as
old as a delay of its own.
-/

namespace StreamDelay

open Foundations

/-- The delay a pending change waits for a keyframe to reach. -/
def Pending.waitsFor : Pending → Option ℕ
  | mask m => some m.delay
  | dump d .. | hold _ d | replay _ d => some d
  | _ => Option.none

/-- A command or a reset takes notices away. -/
def Op.clearsNotices : Op → Bool
  | .command .. | .dumpAfter .. | .outputReset | .discard | .restartAfterEnd => true
  | _ => false

namespace Engine

variable {e mid : Engine} {now : ℕ}

/-- An operation that evicts: when, and from what. -/
def evicting (e : Engine) : Op → Option (ℕ × Engine)
  | .ingest now kind ts payload =>
    if !e.ingestActive || payload.isEmpty then none
    else e.sessions.getLast?.map fun session => (now, e.append now kind ts payload session)
  | .pollBudget now _ => some (now, e)
  | _ => none

/-- How far back the buffer reaches at most. -/
def reachBack (e : Engine) : ℕ := (e.config.maxDelayMs + e.config.headroomMs) * MS

/-- What eviction leaves where the memory limit took what was still to air. -/
def overrun (now : ℕ) (e : Engine) : Option Engine :=
  let (next, lost) := evictLoop now e.reachBack (e.keepFrom now) e.restartPoint e.ring.length e false
  if lost then some next else none

def oldestKeyframe (e : Engine) : Option Entry := e.syncs.head?.bind e.entry

theorem evict_eq (now : ℕ) (e : Engine) :
    e.evict now =
      if (evictLoop now e.reachBack (e.keepFrom now) e.restartPoint e.ring.length e false).2 then
        (evictLoop now e.reachBack (e.keepFrom now) e.restartPoint e.ring.length e false).1.memoryShort now
      else (evictLoop now e.reachBack (e.keepFrom now) e.restartPoint e.ring.length e false).1 := rfl

private theorem evict_overrun (lost : e.overrun now = some mid) : e.evict now = mid.memoryShort now := by
  unfold overrun at lost
  dsimp only at lost
  split at lost
  · next short =>
    obtain rfl := Option.some.inj lost
    rw [evict_eq, if_pos short]
  · contradiction

private theorem overrun_trimmed (layout : e.Layout) (lost : e.overrun now = some mid) : ∃ n, Trimmed n e mid := by
  unfold overrun at lost
  dsimp only at lost
  split at lost
  · obtain rfl := Option.some.inj lost
    exact evictLoop_trimmed layout now _ _ _ _ _
  · contradiction

/-- The engine an operation evicts from is sound, and a reduction pending there leads down. -/
theorem evicting_sound {op : Op} {before : Engine} (sound : before.Sound) (lowers : before.out.Lowers)
    (evicts : before.evicting op = some (now, e)) : e.Sound ∧ e.out.Lowers := by
  cases op with
  | pollBudget =>
    obtain ⟨rfl, rfl⟩ := Prod.mk.inj (Option.some.inj evicts)
    exact ⟨sound, lowers⟩
  | ingest t kind ts payload =>
    unfold evicting at evicts
    dsimp only at evicts
    split at evicts
    · contradiction
    · obtain ⟨session, -, same⟩ := Option.map_eq_some_iff.mp evicts
      obtain ⟨rfl, rfl⟩ := Prod.mk.inj same
      have out := append_out before t kind ts payload session
      exact ⟨⟨append_layout sound.layout t kind ts payload session, out ▸ sound.coherent⟩, out ▸ lowers⟩
  | _ => contradiction

/-- Evicting, and what the operation does after it, leaves the notices alone. -/
theorem evicting_notices {op : Op} {before : Engine} (sound : before.Sound)
    (evicts : before.evicting op = some (now, e)) :
    (before.step op).1.out.memoryShort = (e.evict now).out.memoryShort := by
  cases op with
  | pollBudget t maxBytes =>
    obtain ⟨rfl, rfl⟩ := Prod.mk.inj (Option.some.inj evicts)
    have evicted := evict_layout sound.layout t
    exact (Moves.notices (pollBudget_moves evicted maxBytes) evicted).2
  | ingest t kind ts payload =>
    unfold evicting at evicts
    dsimp only at evicts
    split at evicts
    · contradiction
    · next taken =>
      obtain ⟨session, last, same⟩ := Option.map_eq_some_iff.mp evicts
      obtain ⟨rfl, rfl⟩ := Prod.mk.inj same
      dsimp only [step]
      unfold ingest
      rw [if_neg taken, last]
  | _ => contradiction

/-! ## Why a message goes -/

/-- The message is to stay: it is at or after the restart point, or without history at or after the anchor of
a pending mask. -/
def Stays (e : Engine) (x : Entry) : Prop :=
  (∃ r, e.restartPoint = some r ∧ r ≤ x.seq) ∨
    e.config.keepHistory = false ∧ ∃ m a, e.out.pending = .mask m ∧ m.anchor = some a ∧ a ≤ x.seq

/-- Without history, nothing from the anchor of a pending mask on has aired and aged out. -/
def AnchorYoung (now : ℕ) (e : Engine) : Prop :=
  e.config.keepHistory = false → ∀ m a, e.out.pending = .mask m → m.anchor = some a →
    ∀ x ∈ e.ring, a ≤ x.seq → e.expired now e.reachBack e.restartPoint x = false

private theorem anchorYoung_of_pending {p : Pending} (pending : e.out.pending = p) (other : ∀ m, p ≠ .mask m) :
    e.AnchorYoung now :=
  fun _ m _ masked => absurd (pending.symm.trans masked) (other m)

/-- From its newest keyframe on (or without one, from the cursor on), what is buffered fits the memory with what
is kept for the sessions, or is a single message; or the shortage is reported already. -/
def LastGroupFits (e : Engine) : Prop :=
  e.out.memoryShort = true ∨ (evictBefore e.lastGroup e.ring.length e).Bounded

private theorem keepFrom_le_anchor {m : MaskChange} {a k : ℕ} (masked : e.out.pending = .mask m)
    (anchor : m.anchor = some a)
    (kept : e.keepFrom now = some k) : k ≤ a := by
  unfold keepFrom at kept
  split at kept
  · contradiction
  · simp only [masked, anchor, Option.elim_some] at kept
    obtain ⟨k', -, rfl⟩ := Option.map_eq_some_iff.mp kept
    exact Nat.min_le_right _ _

/-- A message that is to stay goes in a round with the memory full. -/
theorem stays_reason {x : Entry} {round : EvictRound} (buffered : x ∈ e.ring) (stays : e.Stays x)
    (young : e.AnchorYoung now)
    (taken : TakenIn now e.reachBack (e.keepFrom now) e.restartPoint e x round) : round.before.overRam := by
  have ahead := e.lt_groupEnd x
  rcases taken.reason with full | aged | free
  · exact full
  · rcases stays with ⟨r, restart, late⟩ | ⟨bare, m, a, masked, anchor, late⟩
    · rw [restart] at aged
      have aired := (Bool.and_eq_true_iff.mp aged).1
      simp only [Option.all_some, decide_eq_true_eq] at aired
      omega
    · rw [young bare m a masked anchor x buffered late] at aged
      contradiction
  · obtain ⟨k, kept, ends⟩ := needless_le free
    rcases stays with ⟨r, restart, late⟩ | ⟨-, m, a, masked, anchor, late⟩
    · have bound := keepFrom_le restart kept
      omega
    · have bound := keepFrom_le_anchor masked anchor kept
      omega

/-! ## What is said about it -/

private theorem memoryShort_says (now : ℕ) (said : e.out.memoryShort = true ∨ e.oldestKeyframe.isSome = true) :
    (e.memoryShort now).out.memoryShort = true := by
  unfold memoryShort
  unfold oldestKeyframe at said
  split
  · next none =>
    rw [none] at said
    exact said.resolve_right nofun
  · dsimp only
    split
    · rfl
    · split
      · rfl
      · rfl

/-- What goes, one of the rounds takes. -/
theorem evict_takes (layout : e.Layout) {x : Entry} (buffered : x ∈ e.ring) (gone : x ∉ (e.evict now).ring) :
    ∃ round ∈ evictRounds now e.reachBack (e.keepFrom now) e.restartPoint e.ring.length e,
      TakenIn now e.reachBack (e.keepFrom now) e.restartPoint e x round := by
  refine evictLoop_takes layout (.refl layout) false buffered fun stays => gone ?_
  rw [evict_eq]
  split
  · rwa [(memoryShort_hold now _).1.ring]
  · exact stays

/-- With a keyframe buffered, the oldest is found. -/
theorem oldestKeyframe_isSome (layout : e.Layout) {k : ℕ} (member : k ∈ e.syncs) :
    e.oldestKeyframe.isSome = true := by
  unfold oldestKeyframe
  cases syncs : e.syncs with
  | nil =>
    rw [syncs] at member
    contradiction
  | cons s rest =>
    obtain ⟨x, found, -⟩ := layout.sync_entry (by rw [syncs]; exact List.mem_cons_self : s ∈ e.syncs)
    rw [List.head?_cons, Option.bind_some, found]
    rfl

/-- Where the newest group fits, losing what is still to air leaves a keyframe. -/
theorem evict_tells (layout : e.Layout) {r : ℕ} (restart : e.restartPoint = some r) (fits : e.LastGroupFits)
    {x : Entry} (buffered : x ∈ e.ring) (gone : x ∉ (e.evict now).ring) (beyond : r < e.groupEnd x) :
    (e.evict now).out.memoryShort = true := by
  have below : ∀ k, e.keepFrom now = some k → k ≤ r := fun k kept => keepFrom_le restart kept
  obtain ⟨n, trimmed⟩ :=
    evictLoop_trimmed layout now e.reachBack e.ring.length (e.keepFrom now) e.restartPoint false
  obtain ⟨round, inside, taken⟩ := evict_takes layout buffered gone
  have lost : (evictLoop now e.reachBack (e.keepFrom now) e.restartPoint e.ring.length e false).2 = true := by
    by_contra quiet
    have unaired := taken.lost r restart beyond below
    rw [evictLoop_quiet (by simpa using quiet) inside] at unaired
    contradiction
  rw [evict_eq, if_pos lost] at gone ⊢
  rw [(memoryShort_hold now _).1.ring] at gone
  refine memoryShort_says now ?_
  rcases fits with said | fits
  · exact .inl (by rw [trimmed.out]; exact said)
  · right
    have upTo := restartPoint_le_lastGroup layout restart
    have stay {y : Entry} (member : y ∈ e.ring) (late : e.lastGroup ≤ y.seq) :
        y ∈ (evictLoop now e.reachBack (e.keepFrom now) e.restartPoint e.ring.length e false).1.ring := by
      rw [restart]
      exact evictLoop_spares layout (.refl layout) false upTo below
        (fun _ _ early => groupEnd_le_lastGroup layout early) fits member late
    cases last : e.syncs.getLast? with
    | some k =>
      obtain ⟨y, -, member, sync, rfl⟩ := layout.sync_entry (List.mem_of_getLast? last)
      have left := stay member (by rw [lastGroup, last]; exact Nat.le_refl _)
      exact oldestKeyframe_isSome (trimmed.layout layout)
        ((trimmed.layout layout).mem_syncs.mpr ⟨y, left, sync, rfl⟩)
    | none =>
      -- Without a keyframe only what is before the cursor goes.
      have nothing := List.getLast?_eq_none_iff.mp last
      refine absurd (stay buffered ?_) gone
      have alone : e.groupEnd x = x.seq + 1 := by rw [groupEnd, syncAfter, nothing]; rfl
      have cursor : r = e.out.nextSeq := by
        unfold restartPoint at restart
        split at restart
        · rw [syncAtOrBefore, newestSync, nothing] at restart
          exact (Option.some.inj restart).symm
        · contradiction
      rw [lastGroup, last, Option.getD_none]
      omega

private theorem evict_memoryShort (layout : e.Layout) (said : e.out.memoryShort = true) (now : ℕ) :
    (e.evict now).out.memoryShort = true := by
  rcases evict_cases layout now with ⟨n, trimmed⟩ | short
  · rw [trimmed.out]
    exact said
  · exact short

/-- The notice stays until a command or a reset. -/
theorem step_says (sound : e.Sound) (said : e.out.memoryShort = true) {op : Op} (quiet : op.clearsNotices = false) :
    (e.step op).1.out.memoryShort = true := by
  have layout := sound.layout
  cases op with
  | command | dumpAfter | outputReset | discard | restartAfterEnd => contradiction
  | ingestEnd | setKeepHistory | setRestoreAfterReconnect | cancelEnd => exact said
  | ingestStart now =>
    show (e.ingestStart now).out.memoryShort = true
    rw [ingestStart_out]
    split
    · exact said
    · rw [dropBuffer_out]
      exact said
  | endAfter =>
    dsimp only [step]
    cases e.lastSeq with
    | none => exact said
    | some => exact said
  | ingestMetadata now payload =>
    show (e.ingestMetadata now payload).out.memoryShort = true
    rwa [ingestMetadata_out]
  | ingest now kind ts payload =>
    dsimp only [step]
    rcases e.ingest_cases now kind ts payload with same | ⟨session, -, -, same⟩
    · rwa [same]
    · rw [same]
      exact evict_memoryShort (append_layout layout now kind ts payload session) (by rwa [append_out]) now
  | outputConnected now => exact (outputConnected_slows now e).memoryShort.trans said
  | outputDisconnected now lastWritten =>
    obtain ⟨seq, resumed, -⟩ := resumeAfter_eq lastWritten { e with out := { e.out with connected := false } }
    dsimp only [step, outputDisconnected]
    rw [resumed]
    exact said
  | unsend taken =>
    obtain ⟨seq, headers, metadata, unsent⟩ := e.unsend_eq taken
    dsimp only [step]
    rw [unsent]
    exact said
  | pollBudget now maxBytes =>
    have evicted := evict_layout layout now
    exact (Moves.notices (pollBudget_moves evicted maxBytes) evicted).2.trans (evict_memoryShort layout said now)

/-- In every run, whenever the engine evicts with nothing from the anchor of a pending mask on aged out, and its
newest group fitting the memory: a message that is to stay goes in a round with the memory full; and when one
of a group not wholly before the restart point goes, the shortage is reported, until a command or a reset. -/
theorem still_to_air (config : EngineConfig) (ops rest : List Op) (op : Op)
    (evicts : ((Engine.new config).after ops).evicting op = some (now, e)) (young : e.AnchorYoung now)
    (fits : e.out.started = true → e.LastGroupFits) (quiet : ∀ op ∈ rest, op.clearsNotices = false) {x : Entry}
    (buffered : x ∈ e.ring) (gone : x ∉ (e.evict now).ring) :
    (e.Stays x →
      ∃ round ∈ evictRounds now e.reachBack (e.keepFrom now) e.restartPoint e.ring.length e,
        x ∈ round.before.ring ∧ x.seq < round.plan.stop ∧ round.before.overRam) ∧
      ∀ r, e.restartPoint = some r → r < e.groupEnd x →
        ((Engine.new config).after (ops ++ op :: rest)).out.memoryShort = true := by
  have before := Sound.reached config ops
  have layout := (evicting_sound before (lowers_reached config ops) evicts).1.layout
  refine ⟨fun stays => ?_, fun r restart beyond => ?_⟩
  · obtain ⟨round, inside, taken⟩ := evict_takes layout buffered gone
    exact ⟨round, inside, taken.buffered, taken.before, stays_reason buffered stays young taken⟩
  · have started : e.out.started = true := by
      unfold restartPoint at restart
      split at restart
      · next up => exact up
      · contradiction
    rw [after, Machine.after_append]
    have said := (evicting_notices before evicts).trans (evict_tells layout restart (fits started) buffered gone beyond)
    refine (Machine.after_preserves step (P := fun mid => mid.Sound ∧ mid.out.memoryShort = true) ?_ quiet
      ⟨before.step op, said⟩).2
    rintro mid op quiet ⟨sound, said⟩
    exact ⟨sound.step op, step_says sound said quiet⟩

/-- Four keyframes fill the memory, and metadata no longer fits beside them. -/
def crowding : List Op :=
  [.ingestStart 0, .outputConnected 0, .command 0 (.setDelay 3000 .rewind), .ingest 0 .video 0 keyframe,
    .ingest SEC .video 1000 keyframe, .ingest (2 * SEC) .video 2000 keyframe,
    .ingest (3 * SEC) .video 3000 keyframe, .pollBudget (3 * SEC) 1000,
    .ingestMetadata (3 * SEC) (List.replicate 300 0)]

def crowded : Engine := (Engine.new { ramCapBytes := 800 }).after crowding

theorem still_to_air_crowded :
    ((Engine.new { ramCapBytes := 800 }).after (crowding ++ .pollBudget (3 * SEC) 1000 ::
      [.ingest (4 * SEC) .video 4000 keyframe])).out.memoryShort = true := by
  obtain ⟨x, buffered, gone, beyond⟩ :
      ∃ x ∈ crowded.ring, x ∉ (crowded.evict (3 * SEC)).ring ∧ 1 < crowded.groupEnd x := by
    decide +kernel
  have fits : (evictBefore crowded.lastGroup crowded.ring.length crowded).ring.length ≤ 1 := by decide +kernel
  have none : crowded.out.pending = .none := by decide +kernel
  have evicts : crowded.evicting (.pollBudget (3 * SEC) 1000) = some (3 * SEC, crowded) := rfl
  exact (still_to_air { ramCapBytes := 800 } crowding [.ingest (4 * SEC) .video 4000 keyframe]
    (.pollBudget (3 * SEC) 1000) evicts (anchorYoung_of_pending none nofun) (fun _ => .inr (.inr fits)) (by decide)
    buffered gone).2 1 (by decide +kernel) beyond

/-- A mask without history has its anchor, and then nobody polls. -/
def stalled : Engine :=
  (Engine.new { maxDelayMs := 10000, keepHistory := false }).after
    (masking ++ [.command 0 (.slateShown 1), .ingest (2 * SEC) .video 2000 keyframe, .pollBudget (2 * SEC) 1000,
      .ingest (4 * SEC) .video 4000 keyframe, .pollBudget (4 * SEC) 1000])

/-- The one keyframe there is airs, and no longer fits beside what was received after it. -/
def overlong : Engine :=
  (Engine.new { ramCapBytes := 500 }).after
    [.ingestStart 0, .outputConnected 0, .ingest 0 .video 0 keyframe, .pollBudget 0 1000,
      .ingest SEC .video 1000 [0x27, 1, 0, 0, 0], .ingestMetadata SEC (List.replicate 300 0)]

/-- The anchor of a mask ages out, with memory to spare; and a group over the limit goes without a word. -/
theorem still_to_air_lost :
    (stalled.out.pending = .mask ⟨10 * SEC, 0, some 1, false, some 0, false⟩ ∧
        stalled.bytes + stalled.sessionBytes ≤ stalled.config.ramCapBytes ∧ stalled.ring.map Entry.seq = [1, 2] ∧
        (stalled.evict (30 * SEC)).ring.map Entry.seq = [2]) ∧
      overlong.restartPoint = some 0 ∧ overlong.ring.map Entry.seq = [0, 1] ∧
        (overlong.evict (2 * SEC)).ring.map Entry.seq = [1] ∧
        (overlong.evict (2 * SEC)).out.memoryShort = false := by
  decide +kernel

/-! ## Where the output is heading -/

private theorem memoryShort_oldest (now : ℕ) (e : Engine) : (e.memoryShort now).oldestKeyframe = e.oldestKeyframe := by
  have only := (memoryShort_hold now e).1
  unfold oldestKeyframe
  rw [only.syncs, funext only.entry]

/-- A delay that is not waited for comes down to what the buffer holds. -/
theorem memoryShort_heading {x : Entry} (lowers : e.out.Lowers) (started : e.out.started = true)
    (oldest : e.oldestKeyframe = some x) (free : e.out.pending.waitsFor = none) :
    (e.memoryShort now).out.heading ≤ now - x.arrival := by
  unfold memoryShort
  unfold oldestKeyframe at oldest
  rw [oldest]
  dsimp only
  rw [if_neg (by simp [started])]
  split
  · exact Nat.sub_le _ _
  · next stays =>
    cases pending : e.out.pending with
    | none =>
      simp only [pending, Bool.true_and, decide_eq_true_eq] at stays
      simp only [Output.heading]
      omega
    | reduce d =>
      have below := lowers d pending
      simp only [pending, Bool.and_eq_true, decide_eq_true_eq] at stays
      simp only [Output.heading]
      omega
    | goLiveNow | afterAir => simp [Output.heading]
    | mask | dump | hold | replay =>
      rw [pending] at free
      contradiction

/-- A change that waits for a keyframe keeps its delay. -/
theorem memoryShort_waiting {x : Entry} {d : ℕ} (started : e.out.started = true)
    (oldest : e.oldestKeyframe = some x) (waits : e.out.pending.waitsFor = some d) :
    (e.memoryShort now).out.heading = d := by
  have kept : (e.memoryShort now).out.pending = e.out.pending := by
    unfold memoryShort
    unfold oldestKeyframe at oldest
    rw [oldest]
    dsimp only
    rw [if_neg (by simp [started])]
    cases pending : e.out.pending with
    | none | goLiveNow | afterAir | reduce =>
      rw [pending] at waits
      contradiction
    | mask | dump | hold | replay => simp
  unfold Output.heading
  rw [kept]
  cases pending : e.out.pending with
  | none | goLiveNow | afterAir | reduce =>
    rw [pending] at waits
    contradiction
  | mask | dump | hold | replay =>
    rw [pending] at waits
    exact Option.some.inj waits

/-- In every run, whenever eviction from a started broadcast takes what was still to air and leaves a
keyframe: the delay the output is heading to is at most the age of the oldest keyframe left, if and only if no
change under way waits for a keyframe to reach a longer one. -/
theorem heading_held (config : EngineConfig) (ops : List Op) (op : Op) {x : Entry}
    (evicts : ((Engine.new config).after ops).evicting op = some (now, e)) (started : e.out.started = true)
    (lost : e.overrun now = some mid) (oldest : mid.oldestKeyframe = some x) :
    (e.evict now).oldestKeyframe = some x ∧
      ((e.evict now).out.heading ≤ now - x.arrival ↔
        ∀ d, e.out.pending.waitsFor = some d → d ≤ now - x.arrival) := by
  have ⟨sound, lowers⟩ := evicting_sound (Sound.reached config ops) (lowers_reached config ops) evicts
  obtain ⟨n, trimmed⟩ := overrun_trimmed sound.layout lost
  rw [evict_overrun lost]
  refine ⟨(memoryShort_oldest now mid).trans oldest, ?_⟩
  rw [← trimmed.out] at started lowers ⊢
  cases waits : mid.out.pending.waitsFor with
  | none => exact ⟨nofun, fun _ => memoryShort_heading lowers started oldest waits⟩
  | some d =>
    rw [memoryShort_waiting started oldest waits]
    refine ⟨fun held d' same => ?_, fun held => held d rfl⟩
    obtain rfl := Option.some.inj same
    exact held

theorem heading_held_crowded :
    ∃ x, (crowded.evict (3 * SEC)).oldestKeyframe = some x ∧
      (crowded.evict (3 * SEC)).out.heading ≤ 3 * SEC - x.arrival := by
  obtain ⟨mid, lost⟩ := Option.isSome_iff_exists.mp (by decide +kernel : (crowded.overrun (3 * SEC)).isSome = true)
  have left : ((crowded.overrun (3 * SEC)).bind oldestKeyframe).isSome = true := by decide +kernel
  rw [lost] at left
  obtain ⟨x, oldest⟩ := Option.isSome_iff_exists.mp left
  have free : crowded.out.pending.waitsFor = none := by decide +kernel
  have evicts : crowded.evicting (.pollBudget (3 * SEC) 1000) = some (3 * SEC, crowded) := rfl
  obtain ⟨same, fits⟩ := heading_held { ramCapBytes := 800 } crowding (.pollBudget (3 * SEC) 1000) evicts
    (by decide +kernel) lost oldest
  exact ⟨x, same, fits.mpr (by rw [free]; nofun)⟩

/-- A hold of ten seconds, with memory for four keyframes a second apart: the keyframe it waits for is always
gone before it is old enough. -/
theorem hold_outlasts_buffer :
    let e := (Engine.new { ramCapBytes := 800 }).after
      [.ingestStart 0, .outputConnected 0, .command 0 (.setDelay 10000 .rewind), .ingest 0 .video 0 keyframe,
        .pollBudget (10 * SEC) 1000, .command (10 * SEC) (.dump .mask false),
        .ingest (11 * SEC) .video 11000 keyframe, .ingest (12 * SEC) .video 12000 keyframe,
        .ingest (13 * SEC) .video 13000 keyframe, .ingest (14 * SEC) .video 14000 keyframe]
    (e.evicting (.ingest (15 * SEC) .video 15000 keyframe)).any fun (now, e) =>
      e.out.started && (e.overrun now).any fun mid => mid.oldestKeyframe.any fun x =>
        now - x.arrival < (e.evict now).out.heading := by
  decide +kernel

end Engine

end StreamDelay
