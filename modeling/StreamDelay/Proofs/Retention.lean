import Mathlib.Tactic.Common
import Mathlib.Algebra.Order.BigOperators.Group.List
import Mathlib.Algebra.Order.Group.Nat
import StreamDelay.Proofs.Sessions

/-! # What the engine keeps

The sessions kept against the messages buffered, and what both cost. Eviction brings the sessions along with
the messages it takes, unless it takes the last one.
-/

namespace StreamDelay

open Flv (Bytes)
open Foundations

namespace Engine

variable {e mid e' : Engine}

/-! ## Sessions by their ids -/

def sessionIds (e : Engine) : List ℕ := e.sessions.map Session.id

/-- Every session but the current one has a buffered message, and every buffered message its session. -/
structure Tidy (e : Engine) : Prop where
  increasing : e.sessionIds.Pairwise (· < ·)
  issued : ∀ i ∈ e.sessionIds, i < e.nextSession
  occupied : ∀ i ∈ e.sessionIds.dropLast, ∃ x ∈ e.ring, x.session = i
  listed : ∀ x ∈ e.ring, x.session ∈ e.sessionIds

theorem newestSession_eq (e : Engine) : e.newestSession = e.sessionIds.getLast? := (List.getLast?_map ..).symm

@[simp] theorem countSessions_ids (e : Engine) : e.countSessions.sessionIds = e.sessionIds := rfl

@[simp] theorem popBefore_ids (e : Engine) (stop : ℕ) : (e.popBefore stop).sessionIds = e.sessionIds := by
  unfold sessionIds
  rw [popBefore_sessions]

@[simp] theorem forgetHeaders_ids (e : Engine) : e.forgetHeaders.sessionIds = e.sessionIds := by
  unfold forgetHeaders
  dsimp only
  split
  · rfl
  · rw [countSessions_ids]
    unfold sessionIds
    dsimp only
    rw [List.map_map]
    rfl

private theorem forgetHeaders_newest (e : Engine) : e.forgetHeaders.newestSession = e.newestSession := by
  rw [newestSession_eq, newestSession_eq, forgetHeaders_ids]

/-- The ids that stay when the messages before those of session `oldest` are gone. -/
def remaining (oldest : ℕ) (e : Engine) : List ℕ :=
  e.sessionIds.filter fun i => oldest ≤ i || some i = e.newestSession

private theorem forgetSessions_ids {front : Entry} {rest : List Entry} (increasing : e.sessionIds.Pairwise (· < ·))
    (ring : e.ring = front :: rest) : e.forgetSessions.sessionIds = e.remaining front.session := by
  unfold forgetSessions remaining
  dsimp only
  rw [forgetHeaders_ring, ring, ← forgetHeaders_ids e, ← forgetHeaders_newest e]
  rw [← forgetHeaders_ids e] at increasing
  generalize e.forgetHeaders = mid at increasing
  dsimp only
  split
  · rw [countSessions_ids]
    unfold sessionIds
    dsimp only
    rw [List.filter_map]
    rfl
  · next none =>
    refine (List.filter_eq_self.mpr fun i member => ?_).symm
    cases sessions : mid.sessions with
    | nil =>
      rw [sessionIds, sessions] at member
      contradiction
    | cons s later =>
      rw [sessions] at none
      have first : front.session ≤ s.id := by simpa using none
      rw [sessionIds, sessions, List.map_cons] at member increasing
      rcases List.mem_cons.mp member with rfl | behind
      · simp [first]
      · have above := (List.pairwise_cons.mp increasing).1 i behind
        simp only [Bool.or_eq_true, decide_eq_true_eq]
        omega

private theorem forgetSessions_ids_of_nil (empty : e.ring = []) : e.forgetSessions.sessionIds = e.sessionIds := by
  unfold forgetSessions
  dsimp only
  rw [forgetHeaders_ring, empty]
  exact e.forgetHeaders_ids

private theorem dropLast_filter {p : ℕ → Bool} {l : List ℕ} (keeps : ∀ i, l.getLast? = some i → p i = true) :
    (l.filter p).dropLast = l.dropLast.filter p := by
  rcases l.eq_nil_or_concat with rfl | ⟨init, last, rfl⟩
  · rfl
  · have kept := keeps last (by simp)
    simp [List.filter_append, kept]

theorem last_above {i j : ℕ} (increasing : e.sessionIds.Pairwise (· < ·)) (member : i ∈ e.sessionIds.dropLast)
    (last : e.newestSession = some j) : i < j := by
  rw [newestSession_eq] at last
  obtain ⟨init, same⟩ := List.getLast?_eq_some_iff.mp last
  rw [same, List.dropLast_concat] at member
  rw [same] at increasing
  exact (List.pairwise_append.mp increasing).2.2 i member j (List.mem_singleton_self j)

namespace Tidy

/-- A change of the sessions' contents, or of what else there is. -/
theorem congr (tidy : e.Tidy) (ids : e'.sessionIds = e.sessionIds) (ring : e'.ring = e.ring)
    (nextSession : e'.nextSession = e.nextSession) : e'.Tidy := by
  obtain ⟨increasing, issued, occupied, listed⟩ := tidy
  constructor
  · rwa [ids]
  · rwa [ids, nextSession]
  · rwa [ids, ring]
  · rwa [ids, ring]

theorem of_onlyOut (tidy : e.Tidy) (only : OnlyOut e e') : e'.Tidy :=
  tidy.congr (by rw [sessionIds, only.sessions]; rfl) only.ring only.nextSession

/-- No session but the current one, and nothing buffered. -/
theorem of_empty (increasing : e.sessionIds.Pairwise (· < ·)) (issued : ∀ i ∈ e.sessionIds, i < e.nextSession)
    (alone : e.sessionIds.dropLast = []) (empty : e.ring = []) : e.Tidy where
  increasing := increasing
  issued := issued
  occupied := by rw [alone]; nofun
  listed := by rw [empty]; nofun

end Tidy

/-! ## Eviction -/

theorem popBefore_keepsSession (layout : e.Layout) (stop : ℕ) :
    KeepsSession e (e.popBefore stop).forgetSessions :=
  .of_trimmed (popBefore_trimmed layout stop).forgetSessions

theorem forgetSessions_ring (e : Engine) : e.forgetSessions.ring = e.ring := by
  unfold forgetSessions
  dsimp only
  split
  · exact e.forgetHeaders_ring
  · split
    · exact e.forgetHeaders_ring
    · exact e.forgetHeaders_ring

/-- A round of eviction that leaves messages takes the sessions that have none with it. -/
theorem Tidy.popped (tidy : e.Tidy) (layout : e.Layout) (sessions : e.InSession) {stop : ℕ}
    (left : (e.popBefore stop).ring ≠ []) : (e.popBefore stop).forgetSessions.Tidy := by
  have kept := popBefore_keepsSession layout stop
  cases ring : (e.popBefore stop).ring with
  | nil => contradiction
  | cons front rest =>
    have mem (x : Entry) : x ∈ (e.popBefore stop).forgetSessions.ring ↔ x ∈ e.ring ∧ stop ≤ x.seq := by
      rw [forgetSessions_ring, popBefore_mem layout]
    obtain ⟨here, above⟩ := (popBefore_mem layout).mp (ring ▸ List.mem_cons_self : front ∈ (e.popBefore stop).ring)
    have first : ∀ x ∈ (e.popBefore stop).ring, front.seq ≤ x.seq := by
      have numbered := ((popBefore_trimmed layout stop).layout layout).numbered
      rw [ring] at numbered ⊢
      intro x member
      have lower := Numbered.lower numbered member
      exact numbered.1 ▸ lower
    have ids := forgetSessions_ids (e := e.popBefore stop) (by rw [popBefore_ids]; exact tidy.increasing) ring
    unfold remaining at ids
    rw [popBefore_ids, newestSession_eq, popBefore_ids] at ids
    constructor
    · rw [ids]
      exact tidy.increasing.filter _
    · rw [ids, kept.nextSession]
      exact fun i member => tidy.issued i (List.mem_filter.mp member).1
    · rw [ids, dropLast_filter fun i last => by simp [last]]
      intro i member
      obtain ⟨inside, chosen⟩ := List.mem_filter.mp member
      obtain ⟨x, buffered, rfl⟩ := tidy.occupied i inside
      have later : front.session ≤ x.session := by
        rcases Bool.or_eq_true_iff.mp chosen with le | last
        · exact of_decide_eq_true le
        · have last := of_decide_eq_true last
          exact absurd (last_above tidy.increasing inside (newestSession_eq e ▸ last.symm)) (Nat.lt_irrefl _)
      rcases Nat.lt_or_ge x.seq stop with gone | stays
      · have earlier := sessions.ordered x buffered front here (by omega)
        exact ⟨front, (mem front).mpr ⟨here, above⟩, Nat.le_antisymm later earlier⟩
      · exact ⟨x, (mem x).mpr ⟨buffered, stays⟩, rfl⟩
    · intro x member
      obtain ⟨buffered, stays⟩ := (mem x).mp member
      have after := sessions.ordered front here x buffered (first x ((popBefore_mem layout).mpr ⟨buffered, stays⟩))
      rw [ids]
      exact List.mem_filter.mpr ⟨tidy.listed x buffered, by simp [after]⟩

/-- What is buffered is in order of arrival, and the group in front ends behind its first message. -/
theorem plan_stop (now capacity : ℕ) (keepFrom restart : Option ℕ) (front : Entry) (e : Engine) :
    front.seq < (e.evictPlan now capacity keepFrom restart front).stop := by
  unfold evictPlan
  dsimp only
  cases found : e.syncs.find? fun s => decide (front.seq < s) with
  | none => exact Nat.lt_succ_self _
  | some s => simpa using List.find?_some found

/-- A round that leaves nothing takes a single message, which is no keyframe, aged out and has aired. -/
theorem round_emptied (layout : e.Layout) {now capacity : ℕ} {keepFrom restart : Option ℕ} {front : Entry}
    {rest : List Entry} (ring : e.ring = front :: rest)
    (evicts : (e.evictPlan now capacity keepFrom restart front).evict = true)
    (emptied : (e.popBefore (e.evictPlan now capacity keepFrom restart front).stop).ring = []) :
    rest = [] ∧ front.sync = false ∧ front.arrival + capacity < now ∧
      ∀ r, restart = some r → front.seq < r := by
  have gone : ∀ x ∈ e.ring, x.seq < (e.evictPlan now capacity keepFrom restart front).stop := by
    intro x member
    rcases Nat.lt_or_ge x.seq (e.evictPlan now capacity keepFrom restart front).stop with lt | ge
    · exact lt
    · have stays := (popBefore_mem layout).mpr ⟨member, ge⟩
      rw [emptied] at stays
      contradiction
  have last : (e.syncs.find? fun s => decide (front.seq < s)) = none := by
    cases found : e.syncs.find? fun s => decide (front.seq < s) with
    | none => rfl
    | some s =>
      obtain ⟨x, entry, -⟩ := layout.sync_entry (List.mem_of_find?_eq_some found)
      obtain ⟨member, seq⟩ := layout.entry_iff.mp entry
      have before := gone x member
      unfold evictPlan at before
      rw [found] at before
      exact absurd before (by simp [seq])
  unfold evictPlan at evicts gone
  rw [last] at evicts gone
  dsimp only [Option.getD_none] at evicts gone
  have single : rest = [] := by
    cases rest with
    | nil => rfl
    | cons y more =>
      have numbered := layout.numbered
      rw [ring] at numbered
      have before := gone y (by rw [ring]; simp)
      have first := numbered.1
      have second := numbered.2.1
      omega
  have alone : e.ring.length = 1 := by rw [ring, single]; rfl
  rw [alone] at evicts
  have aged : ((restart.all fun r => front.seq + 1 ≤ r) &&
      (!front.sync && decide (front.arrival + capacity < now))) = true := by
    cases keepFrom <;> simpa using evicts
  simp only [Bool.and_eq_true, Bool.not_eq_true', decide_eq_true_eq] at aged
  refine ⟨single, aged.2.1, aged.2.2, fun r some => ?_⟩
  have bound := aged.1
  rw [some] at bound
  exact of_decide_eq_true bound

/-- What it takes for the last message to be evicted: it is no keyframe, has aged out and has aired. -/
structure Emptied (now capacity : ℕ) (restart : Option ℕ) (x : Entry) : Prop where
  plain : x.sync = false
  aged : x.arrival + capacity < now
  aired : ∀ r, restart = some r → x.seq < r

/-- Eviction leaves the sessions tidy, unless it takes the last message and that is of an earlier session. -/
theorem evictLoop_tidy {now capacity fuel : ℕ} {keepFrom restart : Option ℕ} (lost : Bool) (layout : e.Layout)
    (sessions : e.InSession) (tidy : e.Tidy) :
    (evictLoop now capacity keepFrom restart fuel e lost).1.Tidy ∨
      (evictLoop now capacity keepFrom restart fuel e lost).1.ring = [] ∧
        ∃ x, e.ring.getLast? = some x ∧ Emptied now capacity restart x ∧ e.newestSession ≠ some x.session := by
  induction fuel generalizing e lost with
  | zero => exact .inl tidy
  | succ fuel ih =>
    unfold evictLoop
    cases ring : e.ring with
    | nil => exact .inl tidy
    | cons front rest =>
      dsimp only
      split
      · next evicts =>
        set stop := (e.evictPlan now capacity keepFrom restart front).stop with known
        have trimmed := (popBefore_trimmed layout stop).forgetSessions
        by_cases left : (e.popBefore stop).ring = []
        · obtain ⟨single, plain, aged, aired⟩ := round_emptied layout ring evicts left
          subst single
          have empty : (e.popBefore stop).forgetSessions.ring = [] := by rw [forgetSessions_ring, left]
          have done (lost : Bool) : (evictLoop now capacity keepFrom restart fuel
              (e.popBefore stop).forgetSessions lost).1 = (e.popBefore stop).forgetSessions := by
            cases fuel with
            | zero => rfl
            | succ fuel =>
              unfold evictLoop
              rw [empty]
          rw [done]
          by_cases current : e.newestSession = some front.session
          · have alone : e.sessionIds.dropLast = [] := by
              refine List.eq_nil_iff_forall_not_mem.mpr fun i member => ?_
              obtain ⟨x, buffered, same⟩ := tidy.occupied i member
              rw [ring, List.mem_singleton] at buffered
              have below := last_above tidy.increasing member current
              rw [← same, buffered] at below
              exact Nat.lt_irrefl _ below
            have ids := (forgetSessions_ids_of_nil left).trans (popBefore_ids e stop)
            refine .inl (.of_empty ?_ ?_ ?_ empty)
            · rw [ids]; exact tidy.increasing
            · rw [ids, trimmed.nextSession]; exact tidy.issued
            · rw [ids]; exact alone
          · exact .inr ⟨empty, front, rfl, ⟨plain, aged, aired⟩, current⟩
        · have kept := popBefore_keepsSession layout stop
          have going := tidy.popped layout sessions left
          rcases ih (lost || (e.evictPlan now capacity keepFrom restart front).lostUnaired)
            (trimmed.layout layout) (kept.inSession sessions) going with tidy | ⟨empty, x, last, emptied, other⟩
          · exact .inl tidy
          · refine .inr ⟨empty, x, ?_, emptied, by rwa [trimmed.newest] at other⟩
            rw [trimmed.ring, List.getLast?_drop] at last
            split at last
            · contradiction
            · rwa [← ring]
      · exact .inl tidy

/-! ## What it costs -/

def ringCost (ring : List Entry) : ℕ := (ring.map fun x => cost x.payload.length).sum

def sessionsCost (sessions : List Session) : ℕ := (sessions.map Session.cost).sum

/-- The two counters are the cost of what is buffered and of what is kept for the sessions. -/
structure Counted (e : Engine) : Prop where
  bytes : e.bytes = ringCost e.ring
  sessionBytes : e.sessionBytes = sessionsCost e.sessions

private theorem popLoop_counted {ring : List Entry} (holds : e.ring = ring) (counted : e.bytes = ringCost ring)
    (stop : ℕ) :
    (popLoop stop ring e).bytes = ringCost (popLoop stop ring e).ring := by
  induction ring generalizing e with
  | nil => rwa [popLoop, holds]
  | cons f rest ih =>
    unfold popLoop
    split
    · refine ih rfl ?_
      show e.bytes - cost f.payload.length = ringCost rest
      rw [counted]
      exact Nat.add_sub_cancel_left ..
    · rwa [holds]

theorem popLoop_sessionBytes (stop : ℕ) (ring : List Entry) (e : Engine) :
    (popLoop stop ring e).sessionBytes = e.sessionBytes := by
  induction ring generalizing e with
  | nil => rfl
  | cons f rest ih =>
    unfold popLoop
    split
    · exact ih _
    · rfl

namespace Counted

theorem popBefore (counted : e.Counted) (stop : ℕ) : (e.popBefore stop).Counted where
  bytes := popLoop_counted rfl counted.bytes stop
  sessionBytes := by
    rw [popBefore_sessions]
    exact (popLoop_sessionBytes ..).trans counted.sessionBytes

theorem of_onlyOut (counted : e.Counted) (only : OnlyOut e e') : e'.Counted := by
  rw [only]
  exact ⟨counted.bytes, counted.sessionBytes⟩

theorem forgetHeaders (counted : e.Counted) : e.forgetHeaders.Counted := by
  unfold Engine.forgetHeaders
  dsimp only
  split
  · exact counted
  · exact ⟨counted.bytes, rfl⟩

theorem forgetSessions (counted : e.Counted) : e.forgetSessions.Counted := by
  have headers := counted.forgetHeaders
  unfold Engine.forgetSessions
  dsimp only
  split
  · exact headers
  · split
    · exact ⟨headers.bytes, rfl⟩
    · exact headers

theorem evict (counted : e.Counted) (now : ℕ) : (e.evict now).Counted := by
  have loop : (evictLoop now ((e.config.maxDelayMs + e.config.headroomMs) * MS) (e.keepFrom now) e.restartPoint
      e.ring.length e false).1.Counted :=
    evictLoop_preserves (P := Counted) (fun _ stop counted => (counted.popBefore stop).forgetSessions) counted
  unfold Engine.evict
  dsimp only
  split
  · exact loop.of_onlyOut (memoryShort_hold now _).1
  · exact loop

theorem dropBuffer (e : Engine) : e.dropBuffer.Counted := by
  unfold Engine.dropBuffer
  dsimp only
  refine of_onlyOut (e := Engine.forgetHeaders _) (forgetHeaders ?_) rfl
  exact ⟨rfl, rfl⟩

theorem truncate (counted : e.Counted) (cut : ℕ) : (e.truncate cut).Counted where
  bytes := by
    show e.bytes - ringCost (e.ring.drop (cut - e.baseSeq)) = ringCost (e.ring.take (cut - e.baseSeq))
    have split := congrArg ringCost (List.take_append_drop (cut - e.baseSeq) e.ring)
    unfold ringCost at split ⊢
    rw [List.map_append, List.sum_append] at split
    rw [counted.bytes]
    unfold ringCost
    omega
  sessionBytes := counted.sessionBytes

theorem splitSession (counted : e.Counted) (seq : ℕ) : (e.splitSession seq).Counted := by
  unfold Engine.splitSession
  split
  · exact counted
  · exact ⟨counted.bytes, rfl⟩

theorem dropBefore (counted : e.Counted) (seq : ℕ) : (e.dropBefore seq).Counted := by
  have popped := counted.popBefore seq
  unfold Engine.dropBefore
  dsimp only
  refine forgetHeaders ?_
  split
  · exact ⟨popped.bytes, popped.sessionBytes⟩
  · exact popped

end Counted

/-! ## The memory limit -/

/-- The memory limit is met, or a single message is over it. -/
def Bounded (e : Engine) : Prop := e.bytes + e.sessionBytes ≤ e.config.ramCapBytes ∨ e.ring.length ≤ 1

theorem round_length (layout : e.Layout) {front : Entry} {rest : List Entry} (ring : e.ring = front :: rest)
    {stop : ℕ} (behind : front.seq < stop) : (e.popBefore stop).forgetSessions.ring.length ≤ rest.length := by
  have trimmed := popBefore_trimmed layout stop
  have numbered := layout.numbered
  rw [ring] at numbered
  have first : front.seq = e.baseSeq := numbered.1
  have size : e.ring.length = rest.length + 1 := by rw [ring]; rfl
  rw [forgetSessions_ring, trimmed.ring, List.length_drop]
  omega

private theorem evictLoop_bounded {now capacity fuel : ℕ} {keepFrom restart : Option ℕ} (lost : Bool)
    (layout : e.Layout)
    (enough : e.ring.length ≤ fuel) : (evictLoop now capacity keepFrom restart fuel e lost).1.Bounded := by
  induction fuel generalizing e lost with
  | zero => exact .inr (Nat.le_trans enough (Nat.zero_le _))
  | succ fuel ih =>
    unfold evictLoop
    cases ring : e.ring with
    | nil => exact .inr (by rw [ring]; exact Nat.zero_le _)
    | cons front rest =>
      dsimp only
      split
      · have trimmed := (popBefore_trimmed layout (e.evictPlan now capacity keepFrom restart front).stop).forgetSessions
        have shorter := round_length layout ring (plan_stop now capacity keepFrom restart front e)
        have size : e.ring.length = rest.length + 1 := by rw [ring]; rfl
        exact ih _ (trimmed.layout layout) (by omega)
      · next keeps =>
        have fits : ¬(e.config.ramCapBytes < e.bytes + e.sessionBytes ∧ 1 < e.ring.length) := by
          rintro ⟨over_, many⟩
          refine keeps ?_
          unfold evictPlan
          simp [over_, many]
        show e.Bounded
        unfold Bounded
        omega

theorem evict_bounded (layout : e.Layout) (now : ℕ) : (e.evict now).Bounded := by
  have loop : (evictLoop now ((e.config.maxDelayMs + e.config.headroomMs) * MS) (e.keepFrom now) e.restartPoint
      e.ring.length e false).1.Bounded := evictLoop_bounded false layout (Nat.le_refl _)
  unfold evict
  dsimp only
  split
  · rw [(memoryShort_hold now _).1]
    exact loop
  · exact loop

/-! ## The newest keyframe -/

private theorem forgetReplaced_cost (base : ℕ) (headers : List HeaderRec) :
    headersCost (forgetReplaced base headers) ≤ headersCost headers := by
  induction headers with
  | nil => exact Nat.le_refl _
  | cons h rest ih =>
    unfold forgetReplaced
    unfold headersCost at ih ⊢
    split
    · exact Nat.le_trans ih (by simp)
    · simpa using ih

private theorem sessionsCost_map {f : Session → Session} (less : ∀ s, (f s).cost ≤ s.cost) (sessions : List Session) :
    sessionsCost (sessions.map f) ≤ sessionsCost sessions := by
  unfold sessionsCost
  rw [List.map_map]
  exact List.sum_le_sum fun s _ => less s

private theorem sessionsCost_filter (p : Session → Bool) (sessions : List Session) :
    sessionsCost (sessions.filter p) ≤ sessionsCost sessions :=
  (List.filter_sublist.map _).sum_le_sum fun _ _ => Nat.zero_le _

/-- Forgetting only makes the sessions cheaper. -/
theorem forgetSessions_cost (counted : e.Counted) : e.forgetSessions.sessionBytes ≤ e.sessionBytes := by
  have headers : sessionsCost e.forgetHeaders.sessions ≤ sessionsCost e.sessions := by
    unfold forgetHeaders
    dsimp only
    split
    · exact Nat.le_refl _
    · exact sessionsCost_map (fun s => Nat.add_le_add_left (forgetReplaced_cost ..) _) _
  rw [counted.forgetSessions.sessionBytes, counted.sessionBytes]
  refine Nat.le_trans ?_ headers
  unfold forgetSessions
  dsimp only
  split
  · exact Nat.le_refl _
  · split
    · exact sessionsCost_filter _ _
    · exact Nat.le_refl _

private theorem popBefore_cost (layout : e.Layout) (counted : e.Counted) (stop : ℕ) :
    (e.popBefore stop).bytes ≤ e.bytes := by
  rw [(counted.popBefore stop).bytes, counted.bytes, (popBefore_trimmed layout stop).ring]
  exact ((List.drop_sublist ..).map _).sum_le_sum fun _ _ => Nat.zero_le _

theorem syncs_le_last (layout : e.Layout) {k s : ℕ} (last : e.syncs.getLast? = some k) (member : s ∈ e.syncs) :
    s ≤ k := by
  obtain ⟨init, syncs⟩ := List.getLast?_eq_some_iff.mp last
  have sorted := layout.syncs_sorted
  rw [syncs] at sorted member
  rcases List.mem_append.mp member with earlier | same
  · exact Nat.le_of_lt ((List.pairwise_append.mp sorted).2.2 s earlier k (List.mem_singleton_self k))
  · exact Nat.le_of_eq (List.mem_singleton.mp same)

/-- Within the memory limit, the newest keyframe is not evicted. -/
theorem evictLoop_keyframe {now capacity fuel k : ℕ} {keepFrom restart : Option ℕ} (lost : Bool)
    (layout : e.Layout) (counted : e.Counted) (within : e.bytes + e.sessionBytes ≤ e.config.ramCapBytes)
    (member : k ∈ e.syncs) (newest : ∀ s ∈ e.syncs, s ≤ k) :
    k ∈ (evictLoop now capacity keepFrom restart fuel e lost).1.syncs := by
  induction fuel generalizing e lost with
  | zero => exact member
  | succ fuel ih =>
    unfold evictLoop
    cases ring : e.ring with
    | nil => exact member
    | cons front rest =>
      dsimp only
      split
      · next evicts =>
        set stop := (e.evictPlan now capacity keepFrom restart front).stop with known
        have trimmed := (popBefore_trimmed layout stop).forgetSessions
        have early : stop ≤ k := by
          rw [known]
          unfold evictPlan at evicts ⊢
          dsimp only at evicts ⊢
          cases found : e.syncs.find? fun s => decide (front.seq < s) with
          | some s => exact newest s (List.mem_of_find?_eq_some found)
          | none =>
            -- No keyframe is behind the first message, so it is the newest itself, and not to go.
            rw [found] at evicts
            obtain ⟨x, -, buffered, sync, rfl⟩ := layout.sync_entry member
            have behind := List.find?_eq_none.mp found x.seq member
            have numbered := layout.numbered
            rw [ring] at numbered buffered
            have first := Numbered.lower numbered buffered
            have front_eq : x = front := by
              refine layout.eq_of_seq_eq (by rw [ring]; exact buffered) (by rw [ring]; simp) ?_
              have base := numbered.1
              simp only [decide_eq_true_eq] at behind
              omega
            rw [← front_eq, sync] at evicts
            cases keepFrom <;> simp at evicts <;> omega
        have stays : k ∈ (e.popBefore stop).forgetSessions.syncs := by
          obtain ⟨x, -, buffered, sync, rfl⟩ := layout.sync_entry member
          refine (trimmed.layout layout).mem_syncs.mpr ⟨x, ?_, sync, rfl⟩
          rw [forgetSessions_ring]
          exact (popBefore_mem layout).mpr ⟨buffered, early⟩
        refine ih _ (trimmed.layout layout) (counted.popBefore stop).forgetSessions ?_ stays fun s kept => ?_
        · have bytes := popBefore_cost layout counted stop
          have kept := forgetSessions_cost (counted.popBefore stop)
          have same : (e.popBefore stop).forgetSessions.bytes = (e.popBefore stop).bytes := by
            rw [(counted.popBefore stop).forgetSessions.bytes, (counted.popBefore stop).bytes, forgetSessions_ring]
          have held : (e.popBefore stop).sessionBytes = e.sessionBytes := popLoop_sessionBytes ..
          rw [trimmed.config]
          omega
        · exact newest s ((trimmed.mem_syncs layout).mp kept).1
      · exact member

theorem evictLoop_nonempty {now capacity fuel : ℕ} {keepFrom restart : Option ℕ} (lost : Bool)
    (layout : e.Layout) (counted : e.Counted) (within : e.bytes + e.sessionBytes ≤ e.config.ramCapBytes)
    (some : e.syncs ≠ []) : (evictLoop now capacity keepFrom restart fuel e lost).1.ring ≠ [] := by
  obtain ⟨k, last⟩ := Option.isSome_iff_exists.mp (List.getLast?_isSome.mpr some)
  have stays : k ∈ (evictLoop now capacity keepFrom restart fuel e lost).1.syncs :=
    evictLoop_keyframe lost layout counted within (List.mem_of_getLast? last) fun s member =>
      syncs_le_last layout last member
  obtain ⟨n, trimmed⟩ := evictLoop_trimmed layout now capacity fuel keepFrom restart lost
  intro empty
  rw [trimmed.syncs, empty] at stays
  contradiction

end Engine

end StreamDelay
