import Mathlib.Data.List.Count
import Mathlib.Data.List.Induction
import Mathlib.Data.List.Perm.Basic
import StreamDelay.Relay.Connect

/-! # Every address is tried before a destination counts as unreachable

However attempts fail, answer or hang, one more address is being tried after every wait and every failure, the two
families in turn, until one answers or all have failed.
-/

namespace StreamDelay.Relay

open Foundations

variable {α ε : Type}

/-! ## The order -/

private theorem alternate_perm (a b : List α) : (alternate a b).Perm (a ++ b) := by
  induction a, b using alternate.induct with
  | case1 b => exact .refl _
  | case2 x a => rw [alternate, List.append_nil]
  | case3 x a y b ih =>
    rw [alternate, List.cons_append]
    refine .cons x ((ih.cons y).trans ?_)
    exact List.perm_middle.symm

/-- Each family keeps its own order. -/
theorem alternate_filter {p : α → Bool} {a b : List α} (first : ∀ x ∈ a, p x = true) (second : ∀ y ∈ b, p y = false) :
    (alternate a b).filter p = a ∧ (alternate a b).filter (fun x => !p x) = b := by
  induction a, b using alternate.induct with
  | case1 b =>
    rw [alternate]
    refine ⟨List.filter_eq_nil_iff.mpr fun y member => ?_, List.filter_eq_self.mpr fun y member => ?_⟩
    · rw [second y member]
      exact Bool.false_ne_true
    · rw [second y member]
      rfl
  | case2 x a =>
    rw [alternate]
    refine ⟨List.filter_eq_self.mpr first, List.filter_eq_nil_iff.mpr fun y member => ?_⟩
    rw [first y member]
    exact Bool.false_ne_true
  | case3 x a y b ih =>
    obtain ⟨left, right⟩ := ih (fun z member => first z (List.mem_cons_of_mem _ member))
      fun z member => second z (List.mem_cons_of_mem _ member)
    have own := first x (List.mem_cons_self ..)
    have other := second y (List.mem_cons_self ..)
    rw [alternate]
    constructor
    · rw [List.filter_cons_of_pos own, List.filter_cons_of_neg (by rw [other]; exact Bool.false_ne_true), left]
    · rw [List.filter_cons_of_neg (by rw [own]; exact Bool.false_ne_true), List.filter_cons_of_pos (by rw [other]; rfl),
        right]

/-- Neither family waits for the other. -/
theorem alternate_take {p : α → Bool} {a b : List α} (first : ∀ x ∈ a, p x = true) (second : ∀ y ∈ b, p y = false)
    (k : ℕ) : min a.length ((k + 1) / 2) ≤ ((alternate a b).take k).countP p ∧
      min b.length (k / 2) ≤ ((alternate a b).take k).countP fun x => !p x := by
  induction a, b using alternate.induct generalizing k with
  | case1 b =>
    rw [alternate]
    have all : (b.take k).countP (fun x => !p x) = (b.take k).length := by
      refine List.countP_eq_length.mpr fun y member => ?_
      rw [second y (List.mem_of_mem_take member)]
      rfl
    rw [all, List.length_take, List.length_nil]
    omega
  | case2 x a =>
    rw [alternate]
    have all : ((x :: a).take k).countP p = ((x :: a).take k).length :=
      List.countP_eq_length.mpr fun y member => first y (List.mem_of_mem_take member)
    rw [all, List.length_take, List.length_nil]
    omega
  | case3 x a y b ih =>
    have own := first x (List.mem_cons_self ..)
    have other := second y (List.mem_cons_self ..)
    rw [alternate]
    match k with
    | 0 => exact ⟨Nat.min_le_right .., Nat.min_le_right ..⟩
    | 1 =>
      rw [List.take_succ_cons, List.countP_cons_of_pos own]
      omega
    | k + 2 =>
      obtain ⟨left, right⟩ := ih (fun z member => first z (List.mem_cons_of_mem _ member))
        (fun z member => second z (List.mem_cons_of_mem _ member)) k
      rw [List.take_succ_cons, List.take_succ_cons, List.countP_cons_of_pos own,
        List.countP_cons_of_neg (by rw [other]; exact Bool.false_ne_true),
        List.countP_cons_of_neg (by rw [own]; exact Bool.false_ne_true),
        List.countP_cons_of_pos (by rw [other]; rfl), List.length_cons, List.length_cons]
      omega

/-- Whether an address is of the family of the first one. -/
def firstFamily (isIpv6 : α → Bool) (addrs : List α) (x : α) : Bool := isIpv6 x == addrs.head?.any isIpv6

/-- The order is of all the addresses; each family keeps its own order; and of the first addresses every other one is of
a family, as long as there are any. -/
structure Balanced (p : α → Bool) (addrs tried : List α) : Prop where
  all : tried.Perm addrs
  first : tried.filter p = addrs.filter p
  second : tried.filter (fun x => !p x) = addrs.filter fun x => !p x
  turns : ∀ k, min (addrs.countP p) ((k + 1) / 2) ≤ (tried.take k).countP p ∧
    min (addrs.countP fun x => !p x) (k / 2) ≤ (tried.take k).countP fun x => !p x

private theorem order_fair (isIpv6 : α → Bool) (addrs : List α) :
    Balanced (firstFamily isIpv6 addrs) addrs (order isIpv6 addrs) := by
  let p := firstFamily isIpv6 addrs
  have same : order isIpv6 addrs = alternate (addrs.filter p) (addrs.filter fun x => !p x) := by
    unfold order
    dsimp only
    rw [List.partition_eq_filter_filter]
    rfl
  have first : ∀ x ∈ addrs.filter p, p x = true := fun x member => (List.mem_filter.mp member).2
  have second : ∀ y ∈ addrs.filter fun x => !p x, p y = false := by
    intro y member
    have other := (List.mem_filter.mp member).2
    rwa [Bool.not_eq_true'] at other
  rw [same]
  obtain ⟨left, right⟩ := alternate_filter first second
  refine ⟨(alternate_perm ..).trans (List.filter_append_perm p addrs), left, right, fun k => ?_⟩
  have turns := alternate_take first second k
  rwa [← List.countP_eq_length_filter, ← List.countP_eq_length_filter] at turns

/-! ## The attempts -/

namespace Dial

variable {noAddress : ε} {tried : List α} {told : List (Except ε α)} {d : Dial α ε} {m : ℕ}

/-- The first `m` addresses have been started, and those that are not being tried have failed. -/
structure Started (tried : List α) (m : ℕ) (fails : List ε) (d : Dial α ε) : Prop where
  left : d.addrs = tried.drop m
  started : ∃ gone, (d.attempts ++ gone).Perm (tried.take m) ∧ gone.length = fails.length
  last : d.lastError = fails.getLast?
  open_ : d.result = none

/-- How far it has come, when `m` addresses would have been started by now. -/
inductive Stage (noAddress : ε) (tried : List α) (waits : ℕ) (told : List (Except ε α)) (d : Dial α ε) : Prop
  | trying (fails : List ε) (failed : told = fails.map .error)
      (started : Started tried (1 + waits + fails.length) fails d)
      (some : d.attempts ≠ [])
  | connected (fails : List ε) (a : α) (ended : told = fails.map .error ++ [.ok a])
      (started : a ∈ tried.take (1 + waits + fails.length)) (result : d.result = some (.ok a))
  | gaveUp (fails : List ε) (failed : told = fails.map .error) (all : fails.length = tried.length)
      (result : d.result = some (.error (fails.getLast?.getD noAddress)))

theorem Started.round {waits : ℕ} {fails : List ε} (started : Started tried (waits + fails.length) fails d)
    (noAddress : ε) :
    Stage noAddress tried waits (fails.map .error) (d.round noAddress) := by
  obtain ⟨gone, perm, length⟩ := started.started
  have next : 1 + waits + fails.length = waits + fails.length + 1 := by omega
  unfold Dial.round
  split
  · next a rest more =>
    have left := started.left.symm.trans more
    refine .trying fails rfl ⟨?_, ⟨gone, ?_, length⟩, started.last, started.open_⟩
      (List.append_ne_nil_of_right_ne_nil _ (List.cons_ne_nil _ _))
    · show rest = _
      rw [next, ← List.tail_drop, left]
      rfl
    · show (d.attempts ++ [a] ++ gone).Perm _
      have here : tried[waits + fails.length]? = some a := by
        rw [← List.head?_drop, left]
        rfl
      rw [next, List.take_add_one, here, Option.toList_some]
      refine List.Perm.trans ?_ (perm.append_right [a])
      rw [List.append_assoc, List.append_assoc]
      exact List.perm_append_comm.append_left d.attempts
  · next none =>
    have all := List.drop_eq_nil_iff.mp (started.left.symm.trans none)
    rw [List.take_of_length_le all] at perm
    split
    · next nothing =>
      have nothing := List.isEmpty_iff.mp nothing
      rw [nothing, List.nil_append] at perm
      refine .gaveUp fails rfl (length.symm.trans perm.length_eq) ?_
      rw [← started.last]
    · next running =>
      refine .trying fails rfl ⟨?_, ⟨gone, ?_, length⟩, started.last, started.open_⟩ fun none => running ?_
      · rw [none, List.drop_of_length_le (by omega)]
      · rwa [List.take_of_length_le (by omega)]
      · rw [none]
        rfl

private theorem start_stage (noAddress : ε) (isIpv6 : α → Bool) (addrs : List α) :
    Stage noAddress (order isIpv6 addrs) 0 [] (start noAddress isIpv6 addrs) := by
  have started : Started (order isIpv6 addrs) (0 + ([] : List ε).length) []
      (⟨order isIpv6 addrs, [], none, none⟩ : Dial α ε) := ⟨rfl, ⟨[], .refl _, rfl⟩, rfl, rfl⟩
  exact started.round noAddress

/-- Events after which the next address is started though nothing has failed. -/
def waits (events : List (DialEvent ε)) : ℕ :=
  events.countP fun
    | .stagger => true
    | _ => false

theorem Stage.later {waits : ℕ} (stage : Stage noAddress tried waits told d) (done : d.result.isSome = true) :
    Stage noAddress tried (waits + 1) told d := by
  cases stage with
  | trying fails failed started =>
    rw [started.open_] at done
    contradiction
  | connected fails a ended started result =>
    refine .connected fails a ended (List.mem_of_mem_take (i := 1 + waits + fails.length) ?_) result
    rw [List.take_take, Nat.min_eq_left (by omega)]
    exact started
  | gaveUp fails failed all result => exact .gaveUp fails failed all result

theorem Stage.step {w : ℕ} (stage : Stage noAddress tried w told d) (event : DialEvent ε) :
    Stage noAddress tried (w + waits [event]) (told ++ (d.step noAddress event).2) (d.step noAddress event).1 := by
  unfold Dial.step
  split
  · next done =>
    rw [List.append_nil]
    cases event with
    | stagger => exact stage.later done
    | answered | failed => exact stage
  · next going =>
    cases stage with
    | connected _ _ _ _ result =>
      rw [result] at going
      contradiction
    | gaveUp _ _ _ result =>
      rw [result] at going
      contradiction
    | trying fails failed started some =>
      subst failed
      obtain ⟨gone, perm, length⟩ := started.started
      cases event with
      | stagger =>
        dsimp only
        split
        · next none =>
          have none := List.isEmpty_iff.mp none
          have all := List.drop_eq_nil_iff.mp (started.left.symm.trans none)
          rw [List.take_of_length_le all] at perm
          rw [List.append_nil]
          refine .trying fails rfl ⟨?_, ⟨gone, ?_, length⟩, started.last, started.open_⟩ some
          · rw [none, List.drop_of_length_le (by omega)]
          · rwa [List.take_of_length_le (by omega)]
        · rw [List.append_nil]
          have next : 1 + w + fails.length = (w + 1) + fails.length := by omega
          exact (next ▸ started).round noAddress
      | answered index =>
        dsimp only
        split
        · rw [List.append_nil]
          exact .trying fails rfl started some
        · next a there =>
          refine .connected fails a rfl ?_ rfl
          exact perm.subset (List.mem_append_left _ (List.mem_of_getElem? there))
      | failed index why =>
        dsimp only
        split
        · rw [List.append_nil]
          exact .trying fails rfl started some
        · next a there =>
          have more : Started tried (w + (fails ++ [why]).length) (fails ++ [why])
              { d with attempts := d.attempts.eraseIdx index, lastError := Option.some why } := by
            have next : w + (fails ++ [why]).length = 1 + w + fails.length := by
              rw [List.length_append, List.length_singleton]
              omega
            rw [next]
            refine ⟨started.left, ⟨a :: gone, ?_, ?_⟩, ?_, started.open_⟩
            · obtain ⟨bound, rfl⟩ := List.getElem?_eq_some_iff.mp there
              refine List.perm_middle.trans (List.Perm.trans ?_ perm)
              exact (List.getElem_cons_eraseIdx_perm bound).append_right gone
            · rw [List.length_cons, List.length_append, length]
              rfl
            · rw [List.getLast?_append, List.getLast?_singleton, Option.some_or]
          have rounded := more.round noAddress
          rwa [List.map_append] at rounded

theorem stage (noAddress : ε) (isIpv6 : α → Bool) (addrs : List α) (events : List (DialEvent ε)) :
    Stage noAddress (order isIpv6 addrs) (waits events)
      (Machine.outputs (step noAddress) (start noAddress isIpv6 addrs) events)
      (Machine.after (step noAddress) (start noAddress isIpv6 addrs) events) := by
  induction events using List.reverseRecOn with
  | nil => exact start_stage noAddress isIpv6 addrs
  | append_singleton events event ih =>
    rw [Machine.after_append, Machine.outputs_append]
    have next := ih.step event
    have counted : waits (events ++ [event]) = waits events + waits [event] := List.countP_append ..
    rw [counted]
    simpa only [Machine.outputs_cons, Machine.outputs_nil, List.append_nil, Machine.after_cons, Machine.after_nil]
      using next

/-- Whatever becomes of the attempts, and when: while none has answered, one is running, and one address more has been
started than there were waits and failures, until all are; what answers is one of them; and only when every address has
failed is the last failure the result. The addresses are started in turns. -/
theorem connects_fairly (noAddress : ε) (isIpv6 : α → Bool) (addrs : List α) (events : List (DialEvent ε)) :
    let tried := order isIpv6 addrs
    let d := Machine.after (step noAddress) (start noAddress isIpv6 addrs) events
    let told := Machine.outputs (step noAddress) (start noAddress isIpv6 addrs) events
    Balanced (firstFamily isIpv6 addrs) addrs tried ∧
      (d.result = none → d.attempts ≠ [] ∧ d.addrs = tried.drop (1 + waits events + told.length) ∧
        d.attempts.length + told.length = min addrs.length (1 + waits events + told.length)) ∧
      (∀ a, d.result = some (.ok a) → a ∈ tried.take (waits events + told.length) ∧ told.getLast? = some (.ok a)) ∧
      ∀ e, d.result = some (.error e) → ∃ fails : List ε, told = fails.map .error ∧ fails.length = addrs.length ∧
        e = fails.getLast?.getD noAddress := by
  intro tried d told
  have fair := order_fair isIpv6 addrs
  refine ⟨fair, ?_⟩
  cases stage noAddress isIpv6 addrs events with
  | trying fails failed started some =>
    have length : told.length = fails.length := (congrArg List.length failed).trans (List.length_map ..)
    refine ⟨fun _ => ⟨some, ?_, ?_⟩, fun a ended => ?_, fun e ended => ?_⟩
    · rw [length]
      exact started.left
    · obtain ⟨gone, perm, same⟩ := started.started
      have all := perm.length_eq
      rw [List.length_append, List.length_take, fair.all.length_eq, same] at all
      rw [length, all, Nat.min_comm]
    · have contrary := started.open_.symm.trans ended
      contradiction
    · have contrary := started.open_.symm.trans ended
      contradiction
  | connected fails a ended started result =>
    have length : told.length = fails.length + 1 := by
      refine (congrArg List.length ended).trans ?_
      rw [List.length_append, List.length_map, List.length_singleton]
    refine ⟨fun open_ => ?_, fun b same => ?_, fun e same => ?_⟩
    · have contrary := open_.symm.trans result
      contradiction
    · obtain rfl := Except.ok.inj (Option.some.inj (result.symm.trans same))
      refine ⟨?_, ?_⟩
      · have next : waits events + told.length = 1 + waits events + fails.length := by omega
        rw [next]
        exact started
      · refine (congrArg List.getLast? ended).trans ?_
        rw [List.getLast?_append, List.getLast?_singleton, Option.some_or]
    · have contrary := Option.some.inj (result.symm.trans same)
      contradiction
  | gaveUp fails failed all result =>
    refine ⟨fun open_ => ?_, fun b same => ?_, fun e same => ?_⟩
    · have contrary := open_.symm.trans result
      contradiction
    · have contrary := Option.some.inj (result.symm.trans same)
      contradiction
    · have same := Except.error.inj (Option.some.inj (result.symm.trans same))
      exact ⟨fails, failed, all.trans fair.all.length_eq, same.symm⟩

end Dial

end StreamDelay.Relay
