import Mathlib.Tactic.Common
import StreamDelay.Proofs.Owing
import StreamDelay.Proofs.Retention

/-! # Eviction, group by group

Each round of eviction takes the group of pictures at the front. What a message's group ends at does not
change while the message is buffered, so that why a message goes can be said of the buffer before the first
round.
-/

namespace StreamDelay

open Foundations

namespace Engine

variable {e mid : Engine} {now capacity fuel n : ℕ} {keepFrom restart : Option ℕ}

/-- A round of eviction that takes something: the engine before it, and what it decides. -/
structure EvictRound where
  before : Engine
  plan : EvictPlan

/-- The rounds of the eviction loop. -/
def evictRounds (now capacity : ℕ) (keepFrom restart : Option ℕ) : ℕ → Engine → List EvictRound
  | 0, _ => []
  | fuel + 1, e =>
    match e.ring with
    | [] => []
    | front :: _ =>
      let plan := e.evictPlan now capacity keepFrom restart front
      if plan.evict then
        ⟨e, plan⟩ :: evictRounds now capacity keepFrom restart fuel (e.popBefore plan.stop).forgetSessions
      else []

/-- The first keyframe after a message. -/
def syncAfter (e : Engine) (x : Entry) : Option ℕ := e.syncs.find? fun s => x.seq < s

/-- Where the group of pictures of a message ends: without a keyframe after it, the message is all of it. -/
def groupEnd (e : Engine) (x : Entry) : ℕ := (e.syncAfter x).getD (x.seq + 1)

/-- The group of a message is older than the buffer is to reach back. -/
def agedOut (now capacity : ℕ) (e : Engine) (x : Entry) : Bool :=
  match e.syncAfter x with
  | some s => (e.entry s).any fun y => y.arrival + capacity < now
  | none => !x.sync && x.arrival + capacity < now

def overRam (e : Engine) : Prop := e.config.ramCapBytes < e.bytes + e.sessionBytes

theorem lt_groupEnd (e : Engine) (x : Entry) : x.seq < e.groupEnd x := plan_stop 0 0 none none x e

/-! ## The groups of pictures -/

private theorem syncs_split (layout : e.Layout) (trimmed : Trimmed n e mid) :
    ∃ older, e.syncs = older ++ mid.syncs ∧ ∀ s ∈ older, s < mid.baseSeq := by
  refine ⟨((e.ring.take n).filter Entry.sync).map Entry.seq, ?_, fun s member => ?_⟩
  · rw [layout.syncs, trimmed.syncs, trimmed.ring, ← List.map_append, ← List.filter_append, List.take_append_drop]
  · obtain ⟨x, inside, rfl⟩ := List.mem_map.mp member
    have before := (layout.numbered.take n).upper (List.mem_of_mem_filter inside)
    have length := List.length_take_le n e.ring
    have base := trimmed.base
    omega

/-- What goes before a message leaves the next keyframe the same. -/
theorem syncAfter_trimmed (layout : e.Layout) (trimmed : Trimmed n e mid) {x : Entry} (member : x ∈ mid.ring) :
    mid.syncAfter x = e.syncAfter x := by
  obtain ⟨older, syncs, below⟩ := syncs_split layout trimmed
  have lower := (trimmed.layout layout).lower member
  have none : older.find? (fun s => decide (x.seq < s)) = none := by
    refine List.find?_eq_none.mpr fun s early => ?_
    have before := below s early
    simp only [decide_eq_true_eq]
    omega
  unfold syncAfter
  rw [syncs, List.find?_append, none, Option.none_or]

theorem groupEnd_trimmed (layout : e.Layout) (trimmed : Trimmed n e mid) {x : Entry} (member : x ∈ mid.ring) :
    mid.groupEnd x = e.groupEnd x := by
  rw [groupEnd, groupEnd, syncAfter_trimmed layout trimmed member]

private theorem agedOut_trimmed (layout : e.Layout) (trimmed : Trimmed n e mid) {x : Entry} (member : x ∈ mid.ring) :
    mid.agedOut now capacity x = e.agedOut now capacity x := by
  have after := syncAfter_trimmed layout trimmed member
  have lower := (trimmed.layout layout).lower member
  unfold agedOut
  rw [← after]
  cases found : mid.syncAfter x with
  | none => rfl
  | some s =>
    have later : x.seq < s := by simpa using List.find?_some found
    dsimp only
    rw [trimmed.entry_eq (by omega)]

/-- The messages a round takes are of the group in front. -/
theorem syncAfter_front (layout : e.Layout) {front x : Entry} {rest : List Entry} (ring : e.ring = front :: rest)
    (member : x ∈ e.ring) (early : x.seq < e.groupEnd front) :
    e.syncAfter x = e.syncAfter front ∧ (e.syncAfter front = none → x = front) := by
  have numbered := layout.numbered
  rw [ring] at numbered member
  have lower := Numbered.lower numbered member
  have first := numbered.1
  unfold groupEnd at early
  cases found : e.syncAfter front with
  | none =>
    rw [found, Option.getD_none] at early
    have same : x = front := Numbered.eq_of_key_eq numbered member List.mem_cons_self (by omega)
    rw [same, found]
    exact ⟨rfl, fun _ => rfl⟩
  | some s =>
    rw [found, Option.getD_some] at early
    refine ⟨?_, nofun⟩
    obtain ⟨-, before, after, split, none⟩ := List.find?_eq_some_iff_append.mp found
    refine List.find?_eq_some_iff_append.mpr ⟨by simpa using early, before, after, split, fun b inside => ?_⟩
    have refused := none b inside
    simp only [Bool.not_eq_true', decide_eq_false_iff_not] at refused ⊢
    omega

private theorem groupEnd_front (layout : e.Layout) {front x : Entry} {rest : List Entry} (ring : e.ring = front :: rest)
    (member : x ∈ e.ring) (early : x.seq < e.groupEnd front) : e.groupEnd x = e.groupEnd front := by
  obtain ⟨same, alone⟩ := syncAfter_front layout ring member early
  unfold groupEnd
  rw [same]
  cases found : e.syncAfter front with
  | none => rw [alone found]
  | some s => rfl

private theorem agedOut_front (layout : e.Layout) {front x : Entry} {rest : List Entry} (ring : e.ring = front :: rest)
    (member : x ∈ e.ring) (early : x.seq < e.groupEnd front) :
    e.agedOut now capacity x = e.agedOut now capacity front := by
  obtain ⟨same, alone⟩ := syncAfter_front layout ring member early
  unfold agedOut
  rw [same]
  cases found : e.syncAfter front with
  | none => rw [alone found]
  | some s => rfl

/-! ## Why a message goes -/

/-- Without history, nothing needs the group of a message. -/
def needless (keepFrom : Option ℕ) (e : Engine) (x : Entry) : Bool :=
  match keepFrom, e.syncAfter x with
  | some k, some s => s ≤ k
  | _, _ => false

/-- The group of a message has aired and aged out. -/
def expired (now capacity : ℕ) (restart : Option ℕ) (e : Engine) (x : Entry) : Bool :=
  (restart.all fun r => e.groupEnd x ≤ r) && e.agedOut now capacity x

theorem evictPlan_eq (front : Entry) :
    e.evictPlan now capacity keepFrom restart front =
      { stop := e.groupEnd front
        evict := (e.config.ramCapBytes < e.bytes + e.sessionBytes && 1 < e.ring.length) ||
          e.expired now capacity restart front || e.needless keepFrom front
        lostUnaired :=
          (match restart with
            | some r => !decide (e.groupEnd front ≤ r)
            | none => now < front.arrival + e.out.delay) &&
          !e.expired now capacity restart front && !e.needless keepFrom front } := by
  cases restart <;> rfl

/-- A group nothing needs ends at or before what must stay. -/
theorem needless_le {x : Entry} (needless : e.needless keepFrom x = true) :
    ∃ k, keepFrom = some k ∧ e.groupEnd x ≤ k := by
  unfold Engine.needless at needless
  unfold groupEnd
  split at needless
  · next k s after =>
    rw [after]
    exact ⟨k, rfl, of_decide_eq_true needless⟩
  · contradiction

/-- A round took the message, and why. -/
structure TakenIn (now capacity : ℕ) (keepFrom restart : Option ℕ) (e : Engine) (x : Entry) (round : EvictRound) :
    Prop where
  buffered : x ∈ round.before.ring
  before : x.seq < round.plan.stop
  stop : round.plan.stop = e.groupEnd x
  config : round.before.config = e.config
  reason : round.before.overRam ∨ e.expired now capacity restart x = true ∨ e.needless keepFrom x = true
  lost : ∀ r, restart = some r → r < e.groupEnd x → (∀ k, keepFrom = some k → k ≤ r) →
    round.plan.lostUnaired = true

private theorem round_takes (layout : e.Layout) (trimmed : Trimmed n e mid) {front x : Entry} {rest : List Entry}
    (ring : mid.ring = front :: rest) (member : x ∈ mid.ring)
    (evicts : (mid.evictPlan now capacity keepFrom restart front).evict = true)
    (taken : x.seq < (mid.evictPlan now capacity keepFrom restart front).stop) :
    TakenIn now capacity keepFrom restart e x ⟨mid, mid.evictPlan now capacity keepFrom restart front⟩ := by
  have layout' := trimmed.layout layout
  rw [evictPlan_eq] at evicts taken ⊢
  dsimp only at evicts taken
  have stop : mid.groupEnd front = e.groupEnd x :=
    (groupEnd_front layout' ring member taken).symm.trans (groupEnd_trimmed layout trimmed member)
  have expired : mid.expired now capacity restart front = e.expired now capacity restart x := by
    unfold Engine.expired
    rw [stop, ← agedOut_front layout' ring member taken, agedOut_trimmed layout trimmed member]
  have needless : mid.needless keepFrom front = e.needless keepFrom x := by
    unfold Engine.needless
    rw [← (syncAfter_front layout' ring member taken).1, syncAfter_trimmed layout trimmed member]
  refine ⟨member, taken, stop, trimmed.config, ?_, fun r same beyond below => ?_⟩
  · rw [expired, needless] at evicts
    simp only [Bool.or_eq_true, Bool.and_eq_true, decide_eq_true_eq] at evicts
    rcases evicts with (full | aged) | free
    · exact .inl full.1
    · exact .inr (.inl aged)
    · exact .inr (.inr free)
  · subst same
    dsimp only
    rw [expired, needless, stop]
    have stays : e.expired now capacity (some r) x = false := by
      unfold Engine.expired
      simp only [Option.all_some, decide_eq_false (Nat.not_le.mpr beyond), Bool.false_and]
    have needed : e.needless keepFrom x = false := by
      by_contra free
      obtain ⟨k, same, ends⟩ := needless_le (by simpa using free)
      have bound := below k same
      omega
    simp [stays, needed, beyond]

/-- What eviction takes, one of its rounds takes. -/
theorem evictLoop_takes {base : Engine} (layout : base.Layout) (trimmed : Trimmed n base e) (lost : Bool) {x : Entry}
    (member : x ∈ e.ring) (gone : x ∉ (evictLoop now capacity keepFrom restart fuel e lost).1.ring) :
    ∃ round ∈ evictRounds now capacity keepFrom restart fuel e,
      TakenIn now capacity keepFrom restart base x round := by
  induction fuel generalizing e n lost with
  | zero => exact absurd member gone
  | succ fuel ih =>
    unfold evictLoop at gone
    unfold evictRounds
    cases ring : e.ring with
    | nil =>
      rw [ring] at member
      contradiction
    | cons front rest =>
      rw [ring] at gone
      dsimp only at gone ⊢
      split at gone
      · next evicts =>
        rw [if_pos evicts]
        have popped := popBefore_trimmed (trimmed.layout layout) (e.evictPlan now capacity keepFrom restart front).stop
        by_cases taken : x.seq < (e.evictPlan now capacity keepFrom restart front).stop
        · exact ⟨_, List.mem_cons_self, round_takes layout trimmed ring member evicts taken⟩
        · have stays :
              x ∈ (e.popBefore (e.evictPlan now capacity keepFrom restart front).stop).forgetSessions.ring := by
            rw [forgetSessions_ring]
            exact (popBefore_mem (trimmed.layout layout)).mpr ⟨member, Nat.not_lt.mp taken⟩
          obtain ⟨round, inside, takes⟩ := ih (trimmed.trans popped.forgetSessions) _ stays gone
          exact ⟨round, List.mem_cons_of_mem _ inside, takes⟩
      · exact absurd (ring ▸ member) gone

/-- Where nothing is reported, no round lost what was still to air. -/
theorem evictLoop_quiet {lost : Bool} (quiet : (evictLoop now capacity keepFrom restart fuel e lost).2 = false)
    {round : EvictRound} (inside : round ∈ evictRounds now capacity keepFrom restart fuel e) :
    round.plan.lostUnaired = false := by
  induction fuel generalizing e lost with
  | zero => contradiction
  | succ fuel ih =>
    unfold evictLoop at quiet
    unfold evictRounds at inside
    cases ring : e.ring with
    | nil =>
      rw [ring] at inside
      contradiction
    | cons front rest =>
      rw [ring] at inside quiet
      dsimp only at inside quiet
      split at inside
      · next evicts =>
        rw [if_pos evicts] at quiet
        rcases List.mem_cons.mp inside with rfl | later
        · exact (Bool.or_eq_false_iff.mp (evictLoop_lost quiet)).2
        · exact ih quiet later
      · contradiction

/-! ## The newest group -/

/-- Where the group begins that eviction takes last: at the newest keyframe, or without one at the cursor. -/
def lastGroup (e : Engine) : ℕ := e.syncs.getLast?.getD e.out.nextSeq

/-- The groups of pictures before `p` evicted, one after the other. -/
def evictBefore (p : ℕ) : ℕ → Engine → Engine
  | 0, e => e
  | fuel + 1, e =>
    match e.ring with
    | [] => e
    | front :: _ =>
      if front.seq < p then evictBefore p fuel (e.popBefore (e.groupEnd front)).forgetSessions else e

/-- From a group boundary `p` at or after the restart point on nothing goes, if the memory limit is met there. -/
theorem evictLoop_spares {p r : ℕ} {base : Engine} (layout : base.Layout) (trimmed : Trimmed n base e) (lost : Bool)
    (upTo : r ≤ p) (below : ∀ k, keepFrom = some k → k ≤ r)
    (ends : ∀ x ∈ base.ring, x.seq < p → base.groupEnd x ≤ p) (fits : (evictBefore p fuel e).Bounded)
    {x : Entry} (member : x ∈ e.ring) (late : p ≤ x.seq) :
    x ∈ (evictLoop now capacity keepFrom (some r) fuel e lost).1.ring := by
  induction fuel generalizing e n lost with
  | zero => exact member
  | succ fuel ih =>
    have layout' := trimmed.layout layout
    unfold evictBefore at fits
    unfold evictLoop
    cases ring : e.ring with
    | nil =>
      rw [ring] at member
      contradiction
    | cons front rest =>
      have first : front ∈ e.ring := by rw [ring]; exact List.mem_cons_self
      rw [ring] at fits
      dsimp only at fits ⊢
      split
      · next evicts =>
        rw [evictPlan_eq] at evicts ⊢
        dsimp only at evicts ⊢
        split at fits
        · next early =>
          have stop : e.groupEnd front ≤ p := by
            rw [groupEnd_trimmed layout trimmed first]
            exact ends front (trimmed.mem first) early
          have popped := popBefore_trimmed layout' (e.groupEnd front)
          refine ih (trimmed.trans popped.forgetSessions) _ fits ?_
          rw [forgetSessions_ring]
          exact (popBefore_mem layout').mpr ⟨member, Nat.le_trans stop late⟩
        · next reached =>
          have ahead := e.lt_groupEnd front
          simp only [Bool.or_eq_true, Bool.and_eq_true, decide_eq_true_eq] at evicts
          rcases evicts with (⟨full, many⟩ | aged) | free
          · rcases fits with within | few
            · omega
            · omega
          · have aired := (Bool.and_eq_true_iff.mp aged).1
            simp only [Option.all_some, decide_eq_true_eq] at aired
            omega
          · obtain ⟨k, same, bound⟩ := needless_le free
            have inside := below k same
            omega
      · exact ring ▸ member

/-- The restart point is not after the beginning of the newest group. -/
theorem restartPoint_le_lastGroup (layout : e.Layout) {r : ℕ} (restart : e.restartPoint = some r) :
    r ≤ e.lastGroup := by
  have bound := restartPoint_le restart
  unfold lastGroup
  cases last : e.syncs.getLast? with
  | none => exact bound
  | some k =>
    unfold restartPoint at restart
    split at restart
    · obtain rfl := Option.some.inj restart
      cases found : e.syncAtOrBefore e.out.nextSeq with
      | some s => exact syncs_le_last layout last (newestSync_mem found).1
      | none =>
        -- The cursor is before every keyframe.
        have refused := List.find?_eq_none.mp found k (List.mem_reverse.mpr (List.mem_of_getLast? last))
        simp only [decide_eq_true_eq] at refused
        simp only [Option.getD_none, Option.getD_some]
        omega
    · contradiction

/-- It is a boundary between groups. -/
theorem groupEnd_le_lastGroup (layout : e.Layout) {x : Entry} (early : x.seq < e.lastGroup) :
    e.groupEnd x ≤ e.lastGroup := by
  unfold lastGroup at early ⊢
  unfold groupEnd syncAfter
  cases last : e.syncs.getLast? with
  | none =>
    rw [List.getLast?_eq_none_iff.mp last]
    rw [last] at early
    exact early
  | some k =>
    rw [last, Option.getD_some] at early
    rw [Option.getD_some]
    have member : k ∈ e.syncs := List.mem_of_getLast? last
    cases found : e.syncs.find? fun s => decide (x.seq < s) with
    | none =>
      have refused := List.find?_eq_none.mp found k member
      simp only [decide_eq_true_eq] at refused
      omega
    | some s =>
      obtain ⟨-, before, after, split, refused⟩ := List.find?_eq_some_iff_append.mp found
      have sorted := layout.syncs_sorted
      rw [split] at member sorted
      rcases List.mem_append.mp member with inside | behind
      · have passed := refused k inside
        simp only [Bool.not_eq_true', decide_eq_false_iff_not] at passed
        omega
      · rcases List.mem_cons.mp behind with rfl | later
        · exact Nat.le_refl _
        · have order := (List.pairwise_cons.mp (List.pairwise_append.mp sorted).2.1).1 k later
          exact Nat.le_of_lt order

end Engine

end StreamDelay
