import Mathlib.Tactic.Common
import StreamDelay.Foundations.Machine
import StreamDelay.Relay.Ingest

/-! # Guessing stream keys is slow

Each address gets a few quick answers to wrong keys in any cooldown, and while the program counts itself under
attack, one in any of the longer cooldowns. The record of an address counts at least the quick answers of the
window looked at, as long as the table keeps it.
-/

namespace StreamDelay.Relay.BadKeyLog

open Foundations

variable {pick : List Tries → Option IpAddr} {log : BadKeyLog} {a addr ip : IpAddr} {now t k : ℕ} {e : Tries}

/-! ## The record of an address -/

theorem find?_filter_of_pos {α : Type*} {p q : α → Bool} {l : List α} {x : α} (found : l.find? q = some x)
    (keeps : p x = true) : (l.filter p).find? q = some x := by
  induction l with
  | nil => contradiction
  | cons y rest ih =>
    by_cases here : q y = true
    · rw [List.find?_cons_of_pos here] at found
      obtain rfl := Option.some.inj found
      rw [List.filter_cons_of_pos keeps, List.find?_cons_of_pos here]
    · rw [List.find?_cons_of_neg here] at found
      by_cases kept : p y = true
      · rw [List.filter_cons_of_pos kept, List.find?_cons_of_neg here, ih found]
      · rw [List.filter_cons_of_neg kept, ih found]

theorem get?_addr (found : log.get? a = some e) : e.addr = a := by
  simpa using List.find?_some found

theorem get?_retain (found : log.get? a = some e) (recent : now - e.last < ATTACK_COOLDOWN) :
    (log.retain now).get? a = some e :=
  find?_filter_of_pos found (by simpa using recent)

theorem get?_remove {gone : Option IpAddr} (found : log.get? a = some e) (stays : gone ≠ some a) :
    (log.remove gone).get? a = some e :=
  find?_filter_of_pos found (by simpa [get?_addr found] using Ne.symm stays)

theorem get?_count_other (found : log.get? a = some e) (other : addr ≠ a) :
    (log.count addr now).get? a = some e := by
  have kept : (log.perAddr.filter fun e => e.addr ≠ addr).find? (fun e => e.addr = a) = some e :=
    find?_filter_of_pos found (by simpa [get?_addr found] using Ne.symm other)
  simp only [get?, count, List.find?_append, kept, Option.some_or]

/-- After a wrong key that counts, the record says so, and when. -/
theorem get?_count_same (log : BadKeyLog) (a : IpAddr) (now : ℕ) :
    ∃ e, (log.count a now).get? a = some e ∧ 1 ≤ e.count ∧ e.last = now ∧
      ∀ old, log.get? a = some old → now - old.last < BAD_KEY_COOLDOWN → e.count = old.count + 1 := by
  have gone : (log.perAddr.filter fun e => e.addr ≠ a).find? (fun e => e.addr = a) = none := by
    refine List.find?_eq_none.mpr fun x member => ?_
    simpa using (List.mem_filter.mp member).2
  let before := (log.get? a).getD ⟨a, 0, now⟩
  refine ⟨⟨a, (if BAD_KEY_COOLDOWN ≤ now - before.last then 0 else before.count) + 1, now⟩, ?_,
    Nat.le_add_left 1 _, rfl, fun old found recent => ?_⟩
  · simp only [get?, count, List.find?_append, gone, Option.none_or]
    rw [List.find?_cons_of_pos (by simp)]
    rfl
  · have same : before = old := by simp only [before, found, Option.getD_some]
    rw [same, if_neg (by omega)]

/-! ## One wrong key -/

private theorem attack_pos : 0 < ATTACK_COOLDOWN := by decide

private theorem limits_pos (log : BadKeyLog) (now : ℕ) : 0 < (log.limits now).2 := by
  unfold limits
  split <;> decide

/-- Since `t`, the address got `k` quick answers, and its record counts them. -/
def Counted (a : IpAddr) (t k : ℕ) (log : BadKeyLog) : Prop :=
  k = 0 ∨ ∃ e, log.get? a = some e ∧ k ≤ e.count ∧ t ≤ e.last

/-- The answer is a quick one for the address. -/
def Answer.quickFor (a : IpAddr) (r : Answer) : Bool := r.addr = some a && r.wait = REJECT_DELAY

/-- The answer falls in the window of length `w` from `t` on. -/
def Answer.within (t w : ℕ) (r : Answer) : Bool := t ≤ r.now && r.now < t + w

private theorem record_now (pick : List Tries → Option IpAddr) (ip : IpAddr) (now : ℕ) (log : BadKeyLog) :
    (log.record pick ip now).2.now = now := by
  unfold record
  split
  · rfl
  · split <;> rfl

/-- An answer that is no quick one for the address leaves what its record counts. -/
theorem record_other (counted : Counted a t k log) (soon : now < t + ATTACK_COOLDOWN)
    (stays : (log.record pick ip now).2.gone ≠ some a)
    (slow : (log.record pick ip now).2.quickFor a = false) : Counted a t k (log.record pick ip now).1 := by
  rcases counted with zero | ⟨e, found, most, since⟩
  · exact .inl zero
  have positive := attack_pos
  refine .inr ⟨e, ?_, most, since⟩
  revert stays slow
  unfold record
  split
  · exact fun _ _ => found
  · next addr peer =>
    split
    · exact fun _ _ => found
    · intro stays slow
      have other : addr ≠ a := by simpa [recordQuick, Answer.quickFor] using slow
      have kept : ((((log.prune now).noteTime now).prune now).retain now).get? a = some e :=
        get?_retain found (by omega)
      exact get?_count_other (get?_remove kept stays) other

/-- A quick answer for the address is counted in its record. -/
theorem record_quick (counted : Counted a t k log) (after : t ≤ now)
    (soon : now < t + ATTACK_COOLDOWN) (stays : (log.record pick ip now).2.gone ≠ some a)
    (quick : (log.record pick ip now).2.quickFor a = true) :
    log.usedUp a now = false ∧ Counted a t 1 (log.record pick ip now).1 ∧
      (now < t + BAD_KEY_COOLDOWN → Counted a t (k + 1) (log.record pick ip now).1) := by
  have positive := attack_pos
  revert stays quick
  unfold record
  split
  · exact fun _ quick => by simp [Answer.quickFor] at quick
  · next addr peer =>
    split
    · intro _ quick
      simp only [Answer.quickFor, Bool.and_eq_true, decide_eq_true_eq] at quick
      split at quick
      · exact absurd quick.2 (by decide)
      · exact absurd quick.2 (by decide)
    · next fresh =>
      intro stays quick
      obtain rfl : addr = a := by simpa [recordQuick, Answer.quickFor] using quick
      have same := get?_count_same (((((log.prune now).noteTime now).prune now).retain now).remove
        (log.recordQuick pick addr now).2.gone) addr now
      obtain ⟨e, found, one, last, more⟩ := same
      refine ⟨by simpa using fresh, .inr ⟨e, found, one, by omega⟩, fun near => .inr ⟨e, found, ?_, by omega⟩⟩
      rcases counted with zero | ⟨old, before, most, since⟩
      · omega
      · have kept : ((((log.prune now).noteTime now).prune now).retain now).get? addr = some old :=
          get?_retain before (by omega)
        have count := more old (get?_remove kept stays) (by omega)
        omega

/-- Once the record counts the tries allowed, no quick answer comes within the cooldown. -/
theorem usedUp_of_counted (counted : Counted a t k log) (positive : 0 < k) (tries : (log.limits now).1 ≤ k)
    (near : now < t + (log.limits now).2) : log.usedUp a now = true := by
  rcases counted with zero | ⟨e, found, most, since⟩
  · omega
  · have cooldown := log.limits_pos now
    simp only [usedUp, found, Option.any_some, Bool.and_eq_true, decide_eq_true_eq]
    omega

/-! ## A window of time -/

/-- The quick answers for the address in the window of length `w` from `t` on. -/
def quickAnswers (a : IpAddr) (t w : ℕ) (answers : List Answer) : ℕ :=
  answers.countP fun r => r.quickFor a && r.within t w

/-- In the window, the table never gave up the record of the address. -/
def Kept (a : IpAddr) (t w : ℕ) (answers : List Answer) : Prop :=
  ∀ r ∈ answers, r.within t w = true → r.gone ≠ some a

variable {w m : ℕ} {attempts : List (IpAddr × ℕ)}

/-- Every answer is given at the time of its attempt. -/
theorem outputs_now {r : Answer} (member : r ∈ Machine.outputs (step pick) log attempts) :
    ∃ attempt ∈ attempts, r.now = attempt.2 := by
  obtain ⟨before, attempt, rest, rfl, emitted⟩ := Machine.mem_outputs _ member
  obtain rfl := List.mem_singleton.mp emitted
  exact ⟨attempt, by simp, record_now ..⟩

/-- Past the window, nothing counts any more. -/
theorem quickAnswers_late (late : ∀ attempt ∈ attempts, t + w ≤ attempt.2) :
    quickAnswers a t w (Machine.outputs (step pick) log attempts) = 0 := by
  refine List.countP_eq_zero.mpr fun r member => ?_
  obtain ⟨attempt, among, time⟩ := outputs_now member
  have := late attempt among
  simp only [Answer.within, Bool.and_eq_true, decide_eq_true_eq, not_and]
  omega

/-- At most `m` quick answers come in a window, if a quick answer in it finds fewer counted, and counts itself. -/
theorem quickAnswers_le (ok : BadKeyLog → IpAddr × ℕ → Prop) (short : w ≤ ATTACK_COOLDOWN)
    (counts : ∀ log ip now k, ok log (ip, now) → Counted a t k log → t ≤ now → now < t + w →
      (record pick ip now log).2.gone ≠ some a → (record pick ip now log).2.quickFor a = true →
      k < m ∧ Counted a t (k + 1) (record pick ip now log).1)
    (sorted : attempts.Pairwise (·.2 ≤ ·.2)) (along : Machine.Along (step pick) ok log attempts)
    (kept : Kept a t w (Machine.outputs (step pick) log attempts)) (counted : Counted a t k log) (few : k ≤ m)
    (begun : k = 0 ∨ ∀ attempt ∈ attempts, t ≤ attempt.2) :
    k + quickAnswers a t w (Machine.outputs (step pick) log attempts) ≤ m := by
  induction attempts generalizing log k with
  | nil => exact few
  | cons attempt rest ih =>
    obtain ⟨ip, now⟩ := attempt
    obtain ⟨first, later⟩ := List.pairwise_cons.mp sorted
    have time : (record pick ip now log).2.now = now := record_now ..
    have keptLater : Kept a t w (Machine.outputs (step pick) (step pick log (ip, now)).1 rest) :=
      fun r member => kept r (List.mem_append_right _ member)
    have split : quickAnswers a t w (Machine.outputs (step pick) log ((ip, now) :: rest)) =
        quickAnswers a t w [(record pick ip now log).2] +
          quickAnswers a t w (Machine.outputs (step pick) (record pick ip now log).1 rest) := by
      exact List.countP_append ..
    rcases Nat.lt_or_ge now t with early | arrived
    · -- before the window nothing is counted yet
      have zero : k = 0 := begun.resolve_right fun all => by
        have := all _ List.mem_cons_self
        omega
      have outside : quickAnswers a t w [(record pick ip now log).2] = 0 := by
        simp only [quickAnswers, List.countP_eq_zero, List.mem_singleton, forall_eq, Answer.within, time,
          Bool.and_eq_true, decide_eq_true_eq, not_and]
        omega
      have rest' := ih later along.2 keptLater (k := 0) (.inl rfl) (Nat.zero_le _) (.inl rfl)
      simp only [step] at rest'
      omega
    · have begunLater : ∀ attempt ∈ rest, t ≤ attempt.2 := fun attempt member =>
        Nat.le_trans arrived (first attempt member)
      rcases Nat.lt_or_ge now (t + w) with inside | late
      · have here : (record pick ip now log).2.within t w = true := by
          simp only [Answer.within, time, Bool.and_eq_true, decide_eq_true_eq]
          omega
        have stays := kept _ (List.mem_append_left _ (List.mem_singleton_self _)) here
        by_cases quick : (record pick ip now log).2.quickFor a = true
        · obtain ⟨fewer, more⟩ := counts log ip now k along.1 counted arrived inside stays quick
          have rest' := ih later along.2 keptLater more fewer (.inr begunLater)
          have one : quickAnswers a t w [(record pick ip now log).2] = 1 := by
            simp only [quickAnswers, List.countP_singleton, quick, here, Bool.and_self, if_true]
          simp only [step] at rest'
          omega
        · have same := record_other counted (by omega) stays (by simpa using quick)
          have rest' := ih later along.2 keptLater same few (.inr begunLater)
          have none : quickAnswers a t w [(record pick ip now log).2] = 0 := by
            simp only [quickAnswers, List.countP_singleton, quick, Bool.false_and, if_false, Bool.false_eq_true]
          simp only [step] at rest'
          omega
      · have nothing : quickAnswers a t w (Machine.outputs (step pick) log ((ip, now) :: rest)) = 0 := by
          refine quickAnswers_late fun attempt member => ?_
          rcases List.mem_cons.mp member with rfl | member
          · exact late
          · exact Nat.le_trans late (first attempt member)
        omega

/-! ## The limits -/

private theorem limits_le (log : BadKeyLog) (now : ℕ) :
    (log.limits now).1 ≤ MAX_BAD_KEYS ∧ BAD_KEY_COOLDOWN ≤ (log.limits now).2 := by
  unfold limits
  split <;> decide

private theorem limits_attack (attacked : log.underAttack now = true) : log.limits now = (1, ATTACK_COOLDOWN) :=
  if_pos attacked

/-- Whoever guesses stream keys gets few quick answers: in any cooldown as many as an address may have wrong
keys, and during a stretch under attack one in any attack cooldown, as long as the record of the address is kept. -/
theorem guessing_limited (pick : List Tries → Option IpAddr) (attempts : List (IpAddr × ℕ))
    (sorted : attempts.Pairwise (·.2 ≤ ·.2)) (a : IpAddr) :
    (∀ t, Kept a t BAD_KEY_COOLDOWN (Machine.outputs (step pick) new attempts) →
      quickAnswers a t BAD_KEY_COOLDOWN (Machine.outputs (step pick) new attempts) ≤ MAX_BAD_KEYS) ∧
    ∀ before stretch rest, attempts = before ++ stretch ++ rest →
      Machine.Along (step pick) (fun log attempt => log.underAttack attempt.2 = true)
        (Machine.after (step pick) new before) stretch →
      ∀ t, Kept a t ATTACK_COOLDOWN (Machine.outputs (step pick) (Machine.after (step pick) new before) stretch) →
        quickAnswers a t ATTACK_COOLDOWN
          (Machine.outputs (step pick) (Machine.after (step pick) new before) stretch) ≤ 1 := by
  constructor
  · intro t kept
    have bound := quickAnswers_le (m := MAX_BAD_KEYS) (k := 0) (fun _ _ => True) (by decide)
      (fun log ip now k _ counted after inside stays quick => ?_) sorted
      (Machine.along_of_forall _ (fun _ _ => trivial) ..) kept (.inl rfl) (Nat.zero_le _) (.inl rfl)
    · omega
    · obtain ⟨fresh, -, more⟩ := record_quick counted after
        (Nat.lt_of_lt_of_le inside (Nat.add_le_add_left (by decide) t)) stays quick
      refine ⟨Nat.lt_of_not_le fun full => ?_, more inside⟩
      have limits := log.limits_le now
      have used := usedUp_of_counted counted (Nat.lt_of_lt_of_le (by decide) full) (Nat.le_trans limits.1 full)
        (Nat.lt_of_lt_of_le inside (Nat.add_le_add_left limits.2 t))
      exact Bool.false_ne_true (fresh.symm.trans used)
  · rintro before stretch rest rfl attacked t kept
    have part : stretch.Pairwise (·.2 ≤ ·.2) :=
      (List.pairwise_append.mp (List.pairwise_append.mp sorted).1).2.1
    have bound := quickAnswers_le (m := 1) (k := 0) _ Nat.le.refl
      (fun log ip now k attacked counted after inside stays quick => ?_) part attacked kept
      (.inl rfl) (Nat.zero_le _) (.inl rfl)
    · omega
    · obtain ⟨fresh, one, -⟩ := record_quick counted after inside stays quick
      have none : k = 0 := by
        by_contra some
        have limits := limits_attack attacked
        have used := usedUp_of_counted counted (Nat.pos_of_ne_zero some) (by rw [limits]; exact Nat.pos_of_ne_zero some)
          (by rw [limits]; exact inside)
        exact Bool.false_ne_true (fresh.symm.trans used)
      subst none
      exact ⟨Nat.one_pos, one⟩

/-- Seven wrong keys from one address, one each second: five are answered quickly. -/
theorem guessing_limited_seven :
    let guesses := (List.range 7).map fun second => (IpAddr.v4 8 8 8 8, second * SECOND)
    let answers := Machine.outputs (step fun _ => none) new guesses
    quickAnswers (.v4 8 8 8 8) 0 BAD_KEY_COOLDOWN answers ≤ MAX_BAD_KEYS ∧
      quickAnswers (.v4 8 8 8 8) 0 BAD_KEY_COOLDOWN answers = 5 :=
  ⟨(guessing_limited _ _ (by decide) _).1 0 (by unfold Kept; decide +kernel), by decide +kernel⟩

end StreamDelay.Relay.BadKeyLog
