import Mathlib.Tactic.Common
import StreamDelay.Foundations.Custody
import StreamDelay.Proofs.Coherent

/-! # The engine keeps custody of what it received

Everything an operation shows is buffered, or held, before it; everything buffered or held after it
was so before it, or has been received by it.
-/

namespace StreamDelay

open Flv (Bytes)
open Foundations

/-- The operation takes in a message. -/
def Op.ingests : Op → Bool
  | .ingest .. => true
  | _ => false

namespace Engine

private theorem retains_of_subset {e e' : Engine} (ring : ∀ x ∈ e'.ring, x ∈ e.ring)
    (hold : e'.out.hold = e.out.hold ∨ e'.out.hold = none) {x : Entry} (held : e'.Retains x) :
    e.Retains x := by
  rcases held with buffered | ⟨h, frame, rfl⟩
  · exact .inl (ring x buffered)
  · rcases hold with same | none
    · rw [same] at frame
      exact .inr ⟨h, frame, rfl⟩
    · rw [none] at frame
      contradiction

/-- `e'` holds nothing that `e` did not. -/
structure Shrinks (e e' : Engine) : Prop where
  received : e'.received = e.received
  ring : ∀ x ∈ e'.ring, x ∈ e.ring
  retains : ∀ x, e'.Retains x → e.Retains x

namespace Shrinks

variable {e mid e' : Engine}

theorem refl (e : Engine) : Shrinks e e := ⟨rfl, fun _ => id, fun _ => id⟩

theorem trans (first : Shrinks e mid) (second : Shrinks mid e') : Shrinks e e' where
  received := second.received.trans first.received
  ring := fun x member => first.ring x (second.ring x member)
  retains := fun x held => first.retains x (second.retains x held)

theorem of_inPlace (change : InPlace e e') : Shrinks e e' where
  received := change.only.received
  ring := fun x member => by rwa [change.only.ring] at member
  retains := change.retains

/-- Messages left the ring, and the frame of a hold stayed or went. -/
theorem of_subset (received : e'.received = e.received) (ring : ∀ x ∈ e'.ring, x ∈ e.ring)
    (hold : e'.out.hold = e.out.hold ∨ e'.out.hold = none) : Shrinks e e' :=
  ⟨received, ring, fun _ held => retains_of_subset ring hold held⟩

end Shrinks

variable {e : Engine}

theorem dropBuffer_shrinks (e : Engine) : Shrinks e e.dropBuffer :=
  .of_subset (dropBuffer_received e) (by simp) (.inl (by simp))

private theorem airedKeyframe_below (layout : e.Layout) {now : ℕ} {h : HoldFrame}
    (frame : e.airedKeyframe now = some h) : h.entry ∈ e.ring ∧ h.entry.seq < e.out.nextSeq := by
  have member := airedKeyframe_mem frame
  obtain ⟨k, newest, frame⟩ := Option.bind_eq_some_iff.mp frame
  obtain ⟨y, found, frame⟩ := Option.bind_eq_some_iff.mp frame
  split at frame
  · obtain rfl := Option.some.inj frame
    obtain ⟨-, rfl⟩ := layout.entry_iff.mp found
    exact ⟨member, of_decide_eq_true (newestSync_mem newest).2⟩
  · contradiction

theorem holdInstead_hold (now delay : ℕ) (cover : Bool) (e : Engine) :
    (e.holdInstead now delay cover).1.out.hold = e.airedKeyframe now ∧
      (e.holdInstead now delay cover).1.ring = [] ∧
      (e.holdInstead now delay cover).1.received = e.received := by
  rw [holdInstead_eq]
  exact ⟨rfl, dropBuffer_ring e, dropBuffer_received e⟩

theorem replayAt_ring (now delay k : ℕ) (e : Engine) :
    (e.replayAt now delay k).ring = (e.truncate e.cut).ring ∧
      (e.replayAt now delay k).received = e.received ∧
      (e.replayAt now delay k).out.hold = none := by
  unfold replayAt
  dsimp only
  rw [(spliceTo_onlyOut _ _ _).ring, (spliceTo_onlyOut _ _ _).received, spliceTo_hold]
  exact ⟨splitSession_ring _ _, splitSession_received _ _, rfl⟩

/-- After a dump the engine holds what aired before it: messages numbered below the cut. -/
theorem dump_retains (layout : e.Layout) (coherent : e.out.Coherent) {now : ℕ} {mode : DelayMode}
    {cover : Bool} {x : Entry} (held : (e.dump now mode cover).1.Retains x) :
    x ∈ e.ring ∧ x.seq < e.cut := by
  rcases e.dump_cases now mode cover with
    ⟨idle, same⟩ | ⟨-, -, same⟩ | ⟨-, -, k, -, same⟩ | ⟨-, -, same⟩
  · rw [same] at held
    have airs : e.out.pending.holding = false := by rw [(coherent.idle idle).1]; rfl
    rcases held with buffered | ⟨h, frame, rfl⟩
    · simp at buffered
    · rw [dropBuffer_out, show e.out.hold = none from coherent.hold_none airs] at frame
      contradiction
  · rw [same] at held
    rcases held with buffered | ⟨h, frame, rfl⟩
    · rw [(setPending_onlyOut _ _).ring, dropBuffer_ring] at buffered
      contradiction
    · simp [Pending.isHold] at frame
  · obtain ⟨ring, -, hold⟩ := replayAt_ring now e.dumpDelay k (e.retarget e.dumpDelay)
    rw [same] at held
    rcases held with buffered | ⟨h, frame, rfl⟩
    · rw [ring] at buffered
      exact (truncate_mem layout (Nat.le_max_right _ _)).mp buffered
    · rw [hold] at frame
      contradiction
  · obtain ⟨hold, ring, -⟩ := holdInstead_hold now e.dumpDelay cover (e.retarget e.dumpDelay)
    rw [same] at held
    rcases held with buffered | ⟨h, frame, rfl⟩
    · rw [ring] at buffered
      contradiction
    · rw [hold] at frame
      obtain ⟨member, below⟩ := airedKeyframe_below layout frame
      exact ⟨member, Nat.lt_of_lt_of_le below (Nat.le_max_left _ _)⟩

private theorem dump_received (now : ℕ) (mode : DelayMode) (cover : Bool) (e : Engine) :
    (e.dump now mode cover).1.received = e.received := by
  rcases e.dump_cases now mode cover with
    ⟨-, same⟩ | ⟨-, -, same⟩ | ⟨-, -, k, -, same⟩ | ⟨-, -, same⟩
  · rw [same, dropBuffer_received]
  · rw [same, (setPending_onlyOut _ _).received, dropBuffer_received]
  · rw [same, (replayAt_ring _ _ _ _).2.1]
    rfl
  · rw [same, (holdInstead_hold _ _ _ _).2.2]
    rfl

theorem dump_ring (layout : e.Layout) {now : ℕ} {mode : DelayMode} {cover : Bool} {x : Entry}
    (member : x ∈ (e.dump now mode cover).1.ring) : x ∈ e.ring := by
  rcases e.dump_cases now mode cover with
    ⟨-, same⟩ | ⟨-, -, same⟩ | ⟨-, -, k, -, same⟩ | ⟨-, -, same⟩
  · simp [same] at member
  · simp [same, (setPending_onlyOut _ _).ring] at member
  · rw [same, (replayAt_ring _ _ _ _).1] at member
    exact ((truncate_mem layout (Nat.le_max_right _ _)).mp member).1
  · simp [same, (holdInstead_hold _ _ _ _).2.1] at member

private theorem dump_shrinks (layout : e.Layout) (coherent : e.out.Coherent) (now : ℕ) (mode : DelayMode)
    (cover : Bool) : Shrinks e (e.dump now mode cover).1 :=
  ⟨dump_received now mode cover e, fun _ member => dump_ring layout member,
    fun _ held => .inl (dump_retains layout coherent held).1⟩

private theorem obey_shrinks (layout : e.Layout) (coherent : e.out.Coherent) (now : ℕ) (cmd : Command) :
    Shrinks e (e.obey now cmd).1 := by
  have run {mid : Engine} (change : Shrinks e mid) (layout : mid.Layout) :
      Shrinks e (mid.runPending now) := change.trans (.of_inPlace (runPending_inPlace layout now))
  cases cmd with
  | setDelay ms mode => exact .of_inPlace (setDelay_inPlace layout now ms mode)
  | goLive when_ =>
    have change := goLive_inPlace layout when_
    exact run (.of_inPlace change) (change.layout layout)
  | cancel =>
    have change := cancel_inPlace layout
    exact run (.of_inPlace change) (change.layout layout)
  | slateShown n =>
    have change := slateShown_inPlace layout now n
    exact run (.of_inPlace change) (change.layout layout)
  | dump mode cover =>
    unfold obey
    dsimp only
    split
    · exact run (dump_shrinks layout coherent now mode cover) (dump_layout layout now mode cover)
    · exact .refl e

theorem command_shrinks (layout : e.Layout) (coherent : e.out.Coherent) (now : ℕ)
    (cmd : Command) : Shrinks e (e.command now cmd).1 := by
  unfold command
  split
  · exact .refl e
  · have cleared := clearNotices_inPlace layout cmd
    exact (Shrinks.of_inPlace cleared).trans
      (obey_shrinks (cleared.layout layout) (clearNotices_coherent coherent cmd) now cmd)

theorem memoryShort_hold (now : ℕ) (e : Engine) :
    OnlyOut e (e.memoryShort now) ∧
      ((e.memoryShort now).out.hold = e.out.hold ∨ (e.memoryShort now).out.hold = none) := by
  unfold memoryShort
  split
  · exact ⟨rfl, .inl rfl⟩
  · dsimp only
    split
    · exact ⟨rfl, .inl rfl⟩
    · split
      · exact ⟨rfl, .inr rfl⟩
      · exact ⟨rfl, .inl rfl⟩

theorem evict_shrinks (layout : e.Layout) (now : ℕ) : Shrinks e (e.evict now) := by
  obtain ⟨n, mid, trimmed, same | same⟩ := evict_trimmed layout now
  · rw [same]
    exact .of_subset trimmed.received (fun _ => trimmed.mem) (.inl (by rw [trimmed.out]))
  · obtain ⟨only, hold⟩ := memoryShort_hold now mid
    rw [same]
    refine .of_subset (only.received.trans trimmed.received) (fun x member => ?_) ?_
    · rw [only.ring] at member
      exact trimmed.mem member
    · rwa [trimmed.out] at hold

theorem ingestStart_shrinks (e : Engine) (now : ℕ) : Shrinks e (e.ingestStart now) := by
  have kept : Shrinks e (if e.out.started then e else e.dropBuffer) := by
    split
    · exact .refl e
    · exact e.dropBuffer_shrinks
  unfold ingestStart
  dsimp only
  generalize (if e.out.started then e else e.dropBuffer) = mid at kept
  obtain ⟨ring, -, -, -, received, out⟩ := mid.popIdleSession_ring
  refine kept.trans (.of_subset received (fun x member => ?_) (.inl ?_))
  · rw [← ring]
    exact member
  · rw [countSessions_out, out]

private theorem dumpAfter_shrinks (layout : e.Layout) (coherent : e.out.Coherent) (now : ℕ)
    (taken : Option ℕ) (mode : DelayMode) (cover : Bool) :
    Shrinks e (e.dumpAfter now taken mode cover).1 := by
  unfold dumpAfter
  split
  · have unsent := unsend_inPlace layout taken
    exact (Shrinks.of_inPlace unsent).trans
      (command_shrinks (unsent.layout layout) (unsend_coherent coherent taken) now _)
  · split
    · exact .refl e
    · exact .of_inPlace (refuseDump_inPlace layout taken)

theorem outputReset_shrinks (e : Engine) : Shrinks e e.outputReset :=
  .of_subset rfl (fun _ => id) (.inr rfl)

theorem restartAfterEnd_shrinks (layout : e.Layout) : Shrinks e e.restartAfterEnd := by
  have trimmed := dropBefore_trimmed layout (e.out.endMark.elim e.nextSeq (· + 1))
  exact .of_subset trimmed.received (fun _ => trimmed.mem) (.inr rfl)

/-- Only taking in a message adds to what the engine holds. -/
theorem step_shrinks (sound : e.Sound) {op : Op} (none : op.ingests = false) :
    Shrinks e (e.step op).1 := by
  obtain ⟨layout, coherent⟩ := sound
  cases op with
  | ingestStart now => exact e.ingestStart_shrinks now
  | ingestEnd | setKeepHistory | setRestoreAfterReconnect | cancelEnd =>
    exact .of_subset rfl (fun _ => id) (.inl rfl)
  | ingestMetadata now payload =>
    dsimp only [step]
    unfold ingestMetadata
    split
    · exact .refl e
    · split
      · exact .refl e
      · exact .of_subset rfl (fun _ => id) (.inl rfl)
  | ingest => contradiction
  | outputConnected now => exact .of_inPlace (outputConnected_inPlace layout now)
  | outputDisconnected now lastWritten => exact .of_inPlace (outputDisconnected_inPlace layout now lastWritten)
  | unsend taken => exact .of_inPlace (unsend_inPlace layout taken)
  | dumpAfter now taken mode cover => exact dumpAfter_shrinks layout coherent now taken mode cover
  | outputReset => exact e.outputReset_shrinks
  | discard => exact e.dropBuffer_shrinks.trans e.dropBuffer.outputReset_shrinks
  | endAfter =>
    dsimp only [step]
    cases e.lastSeq with
    | none => exact .refl e
    | some => exact .of_subset rfl (fun _ => id) (.inl rfl)
  | restartAfterEnd => exact restartAfterEnd_shrinks layout
  | command now cmd => exact command_shrinks layout coherent now cmd
  | pollBudget now maxBytes =>
    have evicted := evict_layout layout now
    exact (evict_shrinks layout now).trans
      (.of_inPlace (Moves.inPlace (pollBudget_moves evicted maxBytes) evicted))

/-- What taking in a message adds. -/
theorem append_mem {now : ℕ} {kind : Kind} {ts : ℕ} {payload : Bytes} {session : Session} :
    (e.append now kind ts payload session).received = e.received + 1 ∧
      (e.append now kind ts payload session).out = e.out ∧
      ∀ x ∈ (e.append now kind ts payload session).ring,
        x ∈ e.ring ∨ x.id = e.received ∧ x.seq = e.nextSeq ∧ x.arrival = now := by
  have added : ∀ (y : Entry), y.id = e.received ∧ y.seq = e.nextSeq ∧ y.arrival = now →
      ∀ x ∈ e.ring ++ [y], x ∈ e.ring ∨ x.id = e.received ∧ x.seq = e.nextSeq ∧ x.arrival = now := by
    intro y new x member
    rcases List.mem_append.mp member with older | last
    · exact .inl older
    · obtain rfl := List.mem_singleton.mp last
      exact .inr new
  unfold append
  dsimp only
  split <;> exact ⟨rfl, rfl, added _ ⟨rfl, rfl, rfl⟩⟩

/-- Taking in a message adds it, and then only takes away. -/
theorem ingest_mem (layout : e.Layout) {now : ℕ} {kind : Kind} {ts : ℕ} {payload : Bytes} {x : Entry}
    (member : x ∈ (e.ingest now kind ts payload).ring) :
    x ∈ e.ring ∨ x.id = e.received ∧ x.seq = e.nextSeq ∧ x.arrival = now := by
  rcases e.ingest_cases now kind ts payload with same | ⟨session, -, -, same⟩
  · rw [same] at member
    exact .inl member
  · rw [same] at member
    have kept := evict_shrinks (append_layout layout now kind ts payload session) now
    exact append_mem.2.2 x (kept.ring x member)

theorem step_received (sound : e.Sound) (op : Op) : e.received ≤ (e.step op).1.received := by
  cases op with
  | ingest now kind ts payload =>
    dsimp only [step]
    rcases e.ingest_cases now kind ts payload with same | ⟨session, -, -, same⟩
    · exact Nat.le_of_eq (by rw [same])
    · rw [same, (evict_shrinks (append_layout sound.layout now kind ts payload session) now).received,
        append_mem.1]
      exact Nat.le_succ _
  | ingestStart | ingestEnd | ingestMetadata | outputConnected | outputDisconnected | unsend
  | dumpAfter | outputReset | discard | endAfter | cancelEnd | restartAfterEnd | command
  | setKeepHistory | setRestoreAfterReconnect | pollBudget =>
    exact Nat.le_of_eq (step_shrinks sound rfl).received.symm

/-- What is held after an operation was held before it or has been received by it. -/
theorem step_retains (sound : e.Sound) (op : Op) {x : Entry} (held : (e.step op).1.Retains x) :
    e.Retains x ∨ e.received ≤ x.id := by
  cases op with
  | ingest now kind ts payload =>
    dsimp only [step] at held
    rcases e.ingest_cases now kind ts payload with same | ⟨session, -, -, same⟩
    · rw [same] at held
      exact .inl held
    · rw [same] at held
      have kept := evict_shrinks (append_layout sound.layout now kind ts payload session) now
      rcases kept.retains x held with buffered | frame
      · rcases append_mem.2.2 x buffered with older | ⟨id, -⟩
        · exact .inl (.inl older)
        · exact .inr (Nat.le_of_eq id.symm)
      · rw [append_mem.2.1] at frame
        exact .inl (.inr frame)
  | ingestStart | ingestEnd | ingestMetadata | outputConnected | outputDisconnected | unsend
  | dumpAfter | outputReset | discard | endAfter | cancelEnd | restartAfterEnd | command
  | setKeepHistory | setRestoreAfterReconnect | pollBudget =>
    exact .inl ((step_shrinks sound rfl).retains x held)

/-- Whatever an operation shows was held before it. -/
theorem step_shows (sound : e.Sound) {op : Op} {s : Sent} (member : s ∈ (e.step op).2) {x : Entry}
    (shows : s.content? = some x) : e.Retains x := by
  cases op with
  | pollBudget now maxBytes =>
    exact (evict_shrinks sound.layout now).retains x
      ((pollBudget_moves (evict_layout sound.layout now) maxBytes).shows member shows)
  | ingestStart | ingestEnd | ingestMetadata | ingest | outputConnected | outputDisconnected
  | unsend | dumpAfter | outputReset | discard | endAfter | cancelEnd | restartAfterEnd | command
  | setKeepHistory | setRestoreAfterReconnect => contradiction

/-- The engine keeps custody of the messages it received. -/
def custody : Custody (α := Entry) step where
  valid := Sound
  holds := Retains
  number := Entry.id
  received := Engine.received
  shows := Sent.content?
  keeps := fun _ op sound => sound.step op
  counts := fun _ op sound => step_received sound op
  inherits := fun _ op _ sound held => step_retains sound op held
  emits := fun _ _ _ _ sound member shows => step_shows sound member shows

end Engine

end StreamDelay
