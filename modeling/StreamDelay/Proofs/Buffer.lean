import Mathlib.Tactic.Common
import Mathlib.Data.List.Pairwise
import StreamDelay.Engine.Command
import StreamDelay.Foundations.Numbered

/-! # The layout of the ring buffer

The ring holds the messages numbered from `baseSeq` up to `nextSeq`, in the order received; the
list of keyframes names its sync entries, and the cursor and the end mark stay within what was
received. Here are the layout, what it says about lookups, and how the buffer's own operations
keep it.
-/

namespace StreamDelay

open Foundations

namespace Engine

structure Layout (e : Engine) : Prop where
  numbered : Numbered Entry.seq e.baseSeq e.ring
  next : e.baseSeq + e.ring.length = e.nextSeq
  syncs : e.syncs = (e.ring.filter Entry.sync).map Entry.seq
  ids : e.ring.Pairwise fun x y => x.id < y.id
  fresh : ∀ x ∈ e.ring, x.id < e.received
  cursor : e.out.nextSeq ≤ e.nextSeq
  mark : ∀ m, e.out.endMark = some m → m < e.nextSeq

namespace Layout

variable {e : Engine} {x : Entry} {k : ℕ}

theorem entry_iff (layout : e.Layout) {seq : ℕ} :
    e.entry seq = some x ↔ x ∈ e.ring ∧ x.seq = seq := by
  unfold entry
  split
  · next before =>
    simp only [reduceCtorEq, false_iff, not_and]
    intro member same
    have bound := layout.numbered.lower member
    omega
  · next bound => exact layout.numbered.getElem?_sub (by omega)

theorem entry_mem (layout : e.Layout) (member : x ∈ e.ring) : e.entry x.seq = some x :=
  layout.entry_iff.mpr ⟨member, rfl⟩

theorem lower (layout : e.Layout) (member : x ∈ e.ring) : e.baseSeq ≤ x.seq :=
  layout.numbered.lower member

theorem upper (layout : e.Layout) (member : x ∈ e.ring) : x.seq < e.nextSeq := by
  have bound := layout.numbered.upper member
  have next := layout.next
  omega

theorem eq_of_seq_eq (layout : e.Layout) {y : Entry} (left : x ∈ e.ring) (right : y ∈ e.ring)
    (same : x.seq = y.seq) : x = y := layout.numbered.eq_of_key_eq left right same

theorem eq_of_id_eq (layout : e.Layout) {y : Entry} (left : x ∈ e.ring) (right : y ∈ e.ring)
    (same : x.id = y.id) : x = y := by
  by_contra different
  have ordered : e.ring.Pairwise fun a b => a.id ≠ b.id := layout.ids.imp fun h => Nat.ne_of_lt h
  have : Std.Symm fun a b : Entry => a.id ≠ b.id := ⟨fun _ _ h => h.symm⟩
  exact ordered.forall left right different same

theorem mem_syncs (layout : e.Layout) :
    k ∈ e.syncs ↔ ∃ x, x ∈ e.ring ∧ x.sync ∧ x.seq = k := by
  rw [layout.syncs]
  simp only [List.mem_map, List.mem_filter, and_assoc]

/-- A keyframe in the list is buffered. -/
theorem sync_entry (layout : e.Layout) (member : k ∈ e.syncs) :
    ∃ x, e.entry k = some x ∧ x ∈ e.ring ∧ x.sync ∧ x.seq = k := by
  obtain ⟨x, buffered, sync, rfl⟩ := layout.mem_syncs.mp member
  exact ⟨x, layout.entry_mem buffered, buffered, sync, rfl⟩

theorem sync_lt (layout : e.Layout) (member : k ∈ e.syncs) : k < e.nextSeq := by
  obtain ⟨x, -, buffered, -, rfl⟩ := layout.sync_entry member
  exact layout.upper buffered

theorem syncs_sorted (layout : e.Layout) : e.syncs.Pairwise (· < ·) := by
  rw [layout.syncs, List.pairwise_map]
  exact layout.numbered.strict.filter _

theorem entry_of_lt (layout : e.Layout) {seq : ℕ} (low : e.baseSeq ≤ seq) (high : seq < e.nextSeq) :
    ∃ x, e.entry seq = some x := by
  have next := layout.next
  unfold entry
  rw [if_neg (by omega)]
  exact ⟨_, List.getElem?_eq_getElem (by omega)⟩

/-- Only the output changed, and its cursor and end mark stay within what was received. -/
theorem of_out (layout : e.Layout) {out : Output} (cursor : out.nextSeq ≤ e.nextSeq)
    (mark : ∀ m, out.endMark = some m → m < e.nextSeq) : Layout { e with out := out } :=
  ⟨layout.numbered, layout.next, layout.syncs, layout.ids, layout.fresh, cursor, mark⟩

end Layout

/-! ## Messages taken off the front -/

/-- The session messages are appended to. -/
def newestSession (e : Engine) : Option ℕ := e.sessions.getLast?.map Session.id

/-- A frame of some session lasts `f` ms, or that is what an unknown session's is taken to. -/
def FrameOf (e : Engine) (f : ℕ) : Prop := f = 33 ∨ ∃ s ∈ e.sessions, s.frameMs = f

theorem frameMs_frameOf (e : Engine) (session : ℕ) : e.FrameOf (e.frameMs session) := by
  unfold frameMs
  cases found : e.sessions.find? fun s => s.id = session with
  | none => exact .inl rfl
  | some s => exact .inr ⟨s, List.mem_of_find?_eq_some found, rfl⟩

theorem FrameOf.of_sessions {e e' : Engine} {f : ℕ} (lasts : e'.FrameOf f)
    (sessions : ∀ s ∈ e'.sessions, ∃ r ∈ e.sessions, r.frameMs = s.frameMs) : e.FrameOf f := by
  rcases lasts with rfl | ⟨s, member, rfl⟩
  · exact .inl rfl
  · exact .inr (sessions s member)

/-- `e'` is `e` without its first `n` messages; sessions before the newest may be forgotten too. -/
structure Trimmed (n : ℕ) (e e' : Engine) : Prop where
  bound : n ≤ e.ring.length
  ring : e'.ring = e.ring.drop n
  base : e'.baseSeq = e.baseSeq + n
  syncs : e'.syncs = (e'.ring.filter Entry.sync).map Entry.seq
  next : e'.nextSeq = e.nextSeq
  received : e'.received = e.received
  config : e'.config = e.config
  active : e'.ingestActive = e.ingestActive
  nextSession : e'.nextSession = e.nextSession
  newest : e'.newestSession = e.newestSession
  frames : ∀ f, e'.FrameOf f → e.FrameOf f
  stats : e'.stats = e.stats
  out : e'.out = e.out

namespace Trimmed

variable {e mid e' : Engine} {n m : ℕ}

theorem refl (layout : e.Layout) : Trimmed 0 e e :=
  ⟨Nat.zero_le _, rfl, rfl, layout.syncs, rfl, rfl, rfl, rfl, rfl, rfl, fun _ => id, rfl, rfl⟩

theorem trans (first : Trimmed n e mid) (second : Trimmed m mid e') : Trimmed (n + m) e e' where
  bound := by
    have bound := second.bound
    rw [first.ring, List.length_drop] at bound
    have := first.bound
    omega
  ring := by rw [second.ring, first.ring, List.drop_drop]
  base := by rw [second.base, first.base, Nat.add_assoc]
  syncs := second.syncs
  next := second.next.trans first.next
  received := second.received.trans first.received
  config := second.config.trans first.config
  active := second.active.trans first.active
  nextSession := second.nextSession.trans first.nextSession
  newest := second.newest.trans first.newest
  frames := fun f lasts => first.frames f (second.frames f lasts)
  stats := second.stats.trans first.stats
  out := second.out.trans first.out

theorem mem (trimmed : Trimmed n e e') {x : Entry} (member : x ∈ e'.ring) : x ∈ e.ring := by
  rw [trimmed.ring] at member
  exact List.mem_of_mem_drop member

theorem layout (trimmed : Trimmed n e e') (layout : e.Layout) : e'.Layout where
  numbered := by
    rw [trimmed.ring, trimmed.base]
    exact layout.numbered.drop trimmed.bound
  next := by
    have next := layout.next
    have bound := trimmed.bound
    rw [trimmed.base, trimmed.ring, trimmed.next, List.length_drop]
    omega
  syncs := trimmed.syncs
  ids := by
    rw [trimmed.ring]
    exact layout.ids.drop
  fresh := by
    intro x member
    rw [trimmed.received]
    exact layout.fresh x (trimmed.mem member)
  cursor := by
    rw [trimmed.out, trimmed.next]
    exact layout.cursor
  mark := by
    intro m marked
    rw [trimmed.out] at marked
    rw [trimmed.next]
    exact layout.mark m marked

/-- What is still numbered in the buffer is still there, unchanged. -/
theorem entry_eq (trimmed : Trimmed n e e') {seq : ℕ} (kept : e'.baseSeq ≤ seq) : e'.entry seq = e.entry seq := by
  have base := trimmed.base
  unfold entry
  rw [if_neg (by omega), if_neg (by omega), trimmed.ring, List.getElem?_drop, base]
  congr 1
  omega

/-- A message stays exactly when its number is not below the new start. -/
theorem mem_iff (trimmed : Trimmed n e e') (layout : e.Layout) {x : Entry} :
    x ∈ e'.ring ↔ x ∈ e.ring ∧ e'.baseSeq ≤ x.seq := by
  have trimmedLayout := trimmed.layout layout
  constructor
  · intro member
    exact ⟨trimmed.mem member, trimmedLayout.lower member⟩
  · rintro ⟨member, kept⟩
    have found := (trimmed.entry_eq kept).trans (layout.entry_mem member)
    exact (trimmedLayout.entry_iff.mp found).1

/-- The keyframes left are those not below the new start. -/
theorem mem_syncs (trimmed : Trimmed n e e') (layout : e.Layout) {k : ℕ} :
    k ∈ e'.syncs ↔ k ∈ e.syncs ∧ e'.baseSeq ≤ k := by
  rw [(trimmed.layout layout).mem_syncs, layout.mem_syncs]
  constructor
  · rintro ⟨x, member, sync, rfl⟩
    exact ⟨⟨x, trimmed.mem member, sync, rfl⟩, ((trimmed.mem_iff layout).mp member).2⟩
  · rintro ⟨⟨x, member, sync, rfl⟩, kept⟩
    exact ⟨x, (trimmed.mem_iff layout).mpr ⟨member, kept⟩, sync, rfl⟩

end Trimmed

/-! ## The popping loop -/

private theorem popLoop_fields (stop : ℕ) (ring : List Entry) (e : Engine) :
    (popLoop stop ring e).nextSeq = e.nextSeq ∧ (popLoop stop ring e).received = e.received ∧
      (popLoop stop ring e).config = e.config ∧
      (popLoop stop ring e).ingestActive = e.ingestActive ∧
      (popLoop stop ring e).nextSession = e.nextSession ∧ (popLoop stop ring e).stats = e.stats ∧
      (popLoop stop ring e).out = e.out ∧ (popLoop stop ring e).sessions = e.sessions := by
  induction ring generalizing e with
  | nil => simp only [popLoop, and_self]
  | cons f rest ih =>
    unfold popLoop
    split
    · exact ih _
    · simp only [and_self]

theorem popBefore_out (stop : ℕ) (e : Engine) : (e.popBefore stop).out = e.out :=
  (popLoop_fields stop e.ring e).2.2.2.2.2.2.1

private theorem popLoop_buffer (stop : ℕ) {base : ℕ} {ring : List Entry} {e : Engine}
    (numbered : Numbered Entry.seq base ring) (holds : e.ring = ring) (starts : e.baseSeq = base)
    (syncs : e.syncs = (ring.filter Entry.sync).map Entry.seq) :
    (popLoop stop ring e).ring = ring.drop (stop - base) ∧
      (popLoop stop ring e).baseSeq = base + min (stop - base) ring.length ∧
      (popLoop stop ring e).syncs =
        ((ring.drop (stop - base)).filter Entry.sync).map Entry.seq := by
  induction ring generalizing e base with
  | nil => simp [popLoop, holds, starts, syncs]
  | cons f rest ih =>
    have first : f.seq = base := numbered.1
    unfold popLoop
    split
    · next below =>
      have popped : (if e.syncs.head? = some f.seq then e.syncs.tail else e.syncs) =
          (rest.filter Entry.sync).map Entry.seq := by
        rw [syncs]
        cases marked : f.sync with
        | true => simp [marked]
        | false =>
          rw [List.filter_cons_of_neg (by simp [marked]), if_neg]
          intro head
          have member := List.mem_of_mem_head? (Option.mem_def.mpr head)
          obtain ⟨x, inRest, same⟩ := List.mem_map.mp member
          have bound := numbered.2.lower (List.mem_of_mem_filter inRest)
          omega
      have next := ih (e :=
        { e with
          ring := rest
          bytes := e.bytes - cost f.payload.length
          baseSeq := f.seq + 1
          syncs := if e.syncs.head? = some f.seq then e.syncs.tail else e.syncs })
        numbered.2 rfl (by simp [first]) popped
      obtain ⟨ringEq, baseEq, syncsEq⟩ := next
      have shift : stop - base = (stop - (base + 1)) + 1 := by omega
      refine ⟨?_, ?_, ?_⟩
      · rw [ringEq, shift, List.drop_succ_cons]
      · rw [baseEq, shift, List.length_cons]
        omega
      · rw [syncsEq, shift, List.drop_succ_cons]
    · next above =>
      have none : stop - base = 0 := by omega
      simp [none, holds, starts, syncs]

theorem popBefore_trimmed {e : Engine} (layout : e.Layout) (stop : ℕ) :
    Trimmed (min (stop - e.baseSeq) e.ring.length) e (e.popBefore stop) := by
  obtain ⟨next, received, config, active, nextSession, stats, out, sessions⟩ :=
    popLoop_fields stop e.ring e
  obtain ⟨ring, base, syncs⟩ := popLoop_buffer stop layout.numbered rfl rfl layout.syncs
  refine ⟨Nat.min_le_right _ _, ?_, base, ?_, next, received, config, active, nextSession, ?_, ?_,
    stats, out⟩
  · rw [popBefore, ring]
    rcases Nat.le_total (stop - e.baseSeq) e.ring.length with le | le
    · rw [Nat.min_eq_left le]
    · rw [Nat.min_eq_right le, List.drop_eq_nil_of_le le, List.drop_length]
  · rw [popBefore, syncs, ring]
  · rw [newestSession, popBefore, sessions, newestSession]
  · intro f lasts
    rwa [FrameOf, popBefore, sessions] at lasts

@[simp] theorem popBefore_sessions (e : Engine) (stop : ℕ) :
    (e.popBefore stop).sessions = e.sessions := (popLoop_fields stop e.ring e).2.2.2.2.2.2.2

/-- After popping up to `stop`, nothing below it is left. -/
theorem popBefore_mem {e : Engine} (layout : e.Layout) {stop : ℕ} {x : Entry} :
    x ∈ (e.popBefore stop).ring ↔ x ∈ e.ring ∧ stop ≤ x.seq := by
  have trimmed := popBefore_trimmed layout stop
  rw [trimmed.mem_iff layout, trimmed.base]
  constructor
  · rintro ⟨member, kept⟩
    have bound := layout.numbered.upper member
    exact ⟨member, by omega⟩
  · rintro ⟨member, kept⟩
    have bound := layout.lower member
    exact ⟨member, by omega⟩

/-! ## Forgetting configuration and sessions -/

private theorem Trimmed.of_sessions {n : ℕ} {e mid e' : Engine} (trimmed : Trimmed n e mid)
    (ring : e'.ring = mid.ring) (syncs : e'.syncs = mid.syncs) (base : e'.baseSeq = mid.baseSeq)
    (next : e'.nextSeq = mid.nextSeq) (received : e'.received = mid.received)
    (config : e'.config = mid.config) (active : e'.ingestActive = mid.ingestActive)
    (nextSession : e'.nextSession = mid.nextSession)
    (newest : e'.newestSession = mid.newestSession) (frames : ∀ f, e'.FrameOf f → mid.FrameOf f)
    (stats : e'.stats = mid.stats) (out : e'.out = mid.out) : Trimmed n e e' where
  bound := trimmed.bound
  ring := ring.trans trimmed.ring
  base := base.trans trimmed.base
  syncs := by rw [syncs, ring, trimmed.syncs]
  next := next.trans trimmed.next
  received := received.trans trimmed.received
  config := config.trans trimmed.config
  active := active.trans trimmed.active
  nextSession := nextSession.trans trimmed.nextSession
  newest := newest.trans trimmed.newest
  frames := fun f lasts => trimmed.frames f (frames f lasts)
  stats := stats.trans trimmed.stats
  out := out.trans trimmed.out

/-- A filter that keeps the last element keeps it last. -/
private theorem getLast?_filter_map {α : Type} (f : α → ℕ) {p : α → Bool} {l : List α}
    (keeps : ∀ a, l.getLast? = some a → p a = true) :
    (l.filter p).getLast?.map f = l.getLast?.map f := by
  rcases l.eq_nil_or_concat with rfl | ⟨init, last, rfl⟩
  · rfl
  · have kept := keeps last (by simp)
    simp [List.filter_append, kept]

theorem Trimmed.forgetHeaders {n : ℕ} {e mid : Engine} (trimmed : Trimmed n e mid) :
    Trimmed n e mid.forgetHeaders := by
  unfold Engine.forgetHeaders
  dsimp only
  split
  · exact trimmed
  · refine trimmed.of_sessions rfl rfl rfl rfl rfl rfl rfl rfl ?_ ?_ rfl rfl
    · simp only [newestSession, countSessions, List.getLast?_map, Option.map_map]
      rfl
    · refine fun f lasts => lasts.of_sessions fun s member => ?_
      obtain ⟨r, before, rfl⟩ := List.mem_map.mp member
      exact ⟨r, before, rfl⟩

theorem Trimmed.forgetSessions {n : ℕ} {e mid : Engine} (trimmed : Trimmed n e mid) :
    Trimmed n e mid.forgetSessions := by
  have headers := trimmed.forgetHeaders
  unfold Engine.forgetSessions
  dsimp only
  split
  · exact headers
  · split
    · refine headers.of_sessions rfl rfl rfl rfl rfl rfl rfl rfl ?_ ?_ rfl rfl
      · exact getLast?_filter_map Session.id fun s last => by simp [last]
      · exact fun f lasts => lasts.of_sessions fun s member => ⟨s, List.mem_of_mem_filter member, rfl⟩
    · exact headers

/-! ## Eviction -/

/-- What one round of eviction preserves, the eviction loop preserves. -/
theorem evictLoop_preserves {P : Engine → Prop} {now capacity : ℕ} {keepFrom restart : Option ℕ}
    (round : ∀ e stop, P e → P (e.popBefore stop).forgetSessions) {fuel : ℕ} {e : Engine}
    {lost : Bool} (start : P e) : P (evictLoop now capacity keepFrom restart fuel e lost).1 := by
  induction fuel generalizing e lost with
  | zero => exact start
  | succ fuel ih =>
    unfold evictLoop
    split
    · exact start
    · dsimp only
      split
      · exact ih (round _ _ start)
      · exact start

theorem evictLoop_trimmed {e : Engine} (layout : e.Layout) (now capacity fuel : ℕ)
    (keepFrom restart : Option ℕ) (lost : Bool) :
    ∃ n, Trimmed n e (evictLoop now capacity keepFrom restart fuel e lost).1 := by
  refine evictLoop_preserves (P := fun mid => ∃ n, Trimmed n e mid) ?_ ⟨0, .refl layout⟩
  rintro mid stop ⟨n, trimmed⟩
  exact ⟨_, trimmed.trans (popBefore_trimmed (trimmed.layout layout) stop).forgetSessions⟩

/-- Throwing away what was still to air changes the output's delay and pending change only. -/
theorem memoryShort_fields (now : ℕ) (e : Engine) :
    ∃ out, e.memoryShort now = { e with out := out } ∧ out.nextSeq = e.out.nextSeq ∧
      out.endMark = e.out.endMark := by
  unfold memoryShort
  split
  · exact ⟨e.out, rfl, rfl, rfl⟩
  · dsimp only [setPending]
    split
    · exact ⟨_, rfl, rfl, rfl⟩
    · split
      · exact ⟨_, rfl, rfl, rfl⟩
      · exact ⟨_, rfl, rfl, rfl⟩

/-- Eviction takes messages off the front, and may say that the memory is short. -/
theorem evict_trimmed {e : Engine} (layout : e.Layout) (now : ℕ) :
    ∃ n mid, Trimmed n e mid ∧ (e.evict now = mid ∨ e.evict now = mid.memoryShort now) := by
  obtain ⟨n, trimmed⟩ := evictLoop_trimmed layout now
    ((e.config.maxDelayMs + e.config.headroomMs) * MS) e.ring.length (e.keepFrom now)
    e.restartPoint false
  refine ⟨n, _, trimmed, ?_⟩
  unfold evict
  dsimp only
  split
  · exact .inr rfl
  · exact .inl rfl

/-! ## Clearing, cutting and appending -/

@[simp] theorem countSessions_out (e : Engine) : e.countSessions.out = e.out := rfl

private theorem forgetHeaders_fields (e : Engine) :
    e.forgetHeaders.ring = e.ring ∧ e.forgetHeaders.syncs = e.syncs ∧
      e.forgetHeaders.baseSeq = e.baseSeq ∧ e.forgetHeaders.nextSeq = e.nextSeq ∧
      e.forgetHeaders.received = e.received ∧ e.forgetHeaders.out = e.out ∧
      e.forgetHeaders.config = e.config ∧ e.forgetHeaders.ingestActive = e.ingestActive ∧
      e.forgetHeaders.nextSession = e.nextSession := by
  unfold forgetHeaders
  dsimp only
  split <;> exact ⟨rfl, rfl, rfl, rfl, rfl, rfl, rfl, rfl, rfl⟩

section Fields

variable (e : Engine)

@[simp] theorem forgetHeaders_ring : e.forgetHeaders.ring = e.ring := (forgetHeaders_fields e).1
@[simp] theorem forgetHeaders_syncs : e.forgetHeaders.syncs = e.syncs :=
  (forgetHeaders_fields e).2.1
@[simp] theorem forgetHeaders_baseSeq : e.forgetHeaders.baseSeq = e.baseSeq :=
  (forgetHeaders_fields e).2.2.1
@[simp] theorem forgetHeaders_nextSeq : e.forgetHeaders.nextSeq = e.nextSeq :=
  (forgetHeaders_fields e).2.2.2.1
@[simp] theorem forgetHeaders_received : e.forgetHeaders.received = e.received :=
  (forgetHeaders_fields e).2.2.2.2.1
@[simp] theorem forgetHeaders_out : e.forgetHeaders.out = e.out :=
  (forgetHeaders_fields e).2.2.2.2.2.1
@[simp] theorem forgetHeaders_config : e.forgetHeaders.config = e.config :=
  (forgetHeaders_fields e).2.2.2.2.2.2.1
@[simp] theorem forgetHeaders_ingestActive : e.forgetHeaders.ingestActive = e.ingestActive :=
  (forgetHeaders_fields e).2.2.2.2.2.2.2.1
@[simp] theorem forgetHeaders_nextSession : e.forgetHeaders.nextSession = e.nextSession :=
  (forgetHeaders_fields e).2.2.2.2.2.2.2.2

@[simp] theorem dropBuffer_ring : e.dropBuffer.ring = [] := by simp [dropBuffer, countSessions]
@[simp] theorem dropBuffer_syncs : e.dropBuffer.syncs = [] := by simp [dropBuffer, countSessions]
@[simp] theorem dropBuffer_baseSeq : e.dropBuffer.baseSeq = e.nextSeq := by
  simp [dropBuffer, countSessions]
@[simp] theorem dropBuffer_nextSeq : e.dropBuffer.nextSeq = e.nextSeq := by
  simp [dropBuffer, countSessions]
@[simp] theorem dropBuffer_received : e.dropBuffer.received = e.received := by
  simp [dropBuffer, countSessions]
@[simp] theorem dropBuffer_config : e.dropBuffer.config = e.config := by
  simp [dropBuffer, countSessions]
@[simp] theorem dropBuffer_ingestActive : e.dropBuffer.ingestActive = e.ingestActive := by
  simp [dropBuffer, countSessions]
@[simp] theorem dropBuffer_nextSession : e.dropBuffer.nextSession = e.nextSession := by
  simp [dropBuffer, countSessions]
@[simp] theorem dropBuffer_out :
    e.dropBuffer.out = { e.out with nextSeq := e.nextSeq, needSync := true } := by
  simp [dropBuffer, countSessions]

end Fields

theorem dropBuffer_layout {e : Engine} (layout : e.Layout) : e.dropBuffer.Layout where
  numbered := by simp
  next := by simp
  syncs := by simp
  ids := by simp
  fresh := by simp
  cursor := by simp
  mark := by simpa using layout.mark

/-- A cut keeps the messages numbered below it. -/
theorem truncate_layout {e : Engine} (layout : e.Layout) (cut : ℕ) (low : e.baseSeq ≤ cut)
    (high : cut ≤ e.nextSeq) (cursor : e.out.nextSeq ≤ cut) (noMark : e.out.endMark = none) :
    (e.truncate cut).Layout where
  numbered := layout.numbered.take _
  next := by
    have next := layout.next
    simp only [truncate, List.length_take]
    omega
  syncs := by
    simp only [truncate]
    rw [layout.syncs, List.filter_map, List.filter_filter]
    have kept := layout.numbered.filter_lt (cut - e.baseSeq)
    rw [Nat.add_sub_cancel' low] at kept
    rw [← kept, List.filter_filter]
    congr 1
    refine List.filter_congr fun x _ => ?_
    simp only [Function.comp_apply, Bool.and_comm]
  ids := layout.ids.take
  fresh := fun x member => layout.fresh x (List.mem_of_mem_take member)
  cursor := cursor
  mark := by simp [truncate, noMark]

theorem truncate_mem {e : Engine} (layout : e.Layout) {cut : ℕ} (low : e.baseSeq ≤ cut) {x : Entry} :
    x ∈ (e.truncate cut).ring ↔ x ∈ e.ring ∧ x.seq < cut := by
  have kept := layout.numbered.filter_lt (cut - e.baseSeq)
  rw [Nat.add_sub_cancel' low] at kept
  simp only [truncate, ← kept, List.mem_filter, decide_eq_true_eq]

end Engine

end StreamDelay
