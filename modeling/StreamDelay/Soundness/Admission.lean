import Mathlib.Data.List.Count
import Mathlib.Data.List.Induction
import Mathlib.Tactic.Common
import StreamDelay.Foundations.Machine
import StreamDelay.Relay.Ingest

/-! # Encoder connections get in

Whatever connections come and go, the limits hold, and one is closed to make room only if that does make room,
never one that publishes. A connection is turned away only where all that could make room are publishing.
-/

namespace StreamDelay.Relay

open Foundations

variable {v v' first rest : Conns} {old e : ConnEntry} {among : ConnEntry → Bool} {addr : Option IpAddr} {id : ℕ}

/-! ## The connection closed -/

/-- Neither of those to close, or publishing. -/
def Idle (among : ConnEntry → Bool) (e : ConnEntry) : Prop := among e = true ∧ e.publishing = false

private theorem idle_iff : (among e && !e.publishing) = true ↔ Idle among e := by
  simp [Idle]

/-- The one closed is idle; it was refused, or none of the idle ones was; and it is the oldest of its kind. -/
structure Oldest (among : ConnEntry → Bool) (first : Conns) (old : ConnEntry) (rest : Conns) : Prop where
  idle : Idle among old
  refused : ∀ e ∈ first ++ old :: rest, Idle among e → e.refused = true → old.refused = true
  oldest : ∀ e ∈ first, Idle among e → e.refused ≠ old.refused

private theorem closeOldestIdle_some (closed : closeOldestIdle among v = some (old, v')) :
    ∃ first rest, v = first ++ old :: rest ∧ v' = first ++ rest ∧ Oldest among first old rest := by
  obtain ⟨i, found, taken⟩ := Option.bind_eq_some_iff.mp closed
  obtain ⟨e, at_, same⟩ := Option.map_eq_some_iff.mp taken
  obtain ⟨rfl, rfl⟩ := Prod.mk.inj same
  obtain ⟨small, here⟩ := List.getElem?_eq_some_iff.mp at_
  have split : v = v.take i ++ e :: v.drop (i + 1) := by
    rw [← here, ← List.drop_eq_getElem_cons small, List.take_append_drop]
  have left : v.eraseIdx i = v.take i ++ v.drop (i + 1) := List.eraseIdx_eq_take_drop_succ ..
  refine ⟨v.take i, v.drop (i + 1), split, left, ?_⟩
  have before {x : ConnEntry} (member : x ∈ v.take i) : ∃ j, ∃ small : j < v.length, j < i ∧ v[j] = x := by
    obtain ⟨j, low, rfl⟩ := List.mem_take_iff_getElem.mp member
    exact ⟨j, by omega, by omega, rfl⟩
  rw [Option.or_eq_some_iff] at found
  rcases found with refused | ⟨none, idle⟩
  · obtain ⟨_, stops, earlier⟩ := List.findIdx?_eq_some_iff_getElem.mp refused
    rw [here, Bool.and_eq_true, idle_iff] at stops
    refine ⟨stops.1, fun _ _ _ _ => stops.2, fun x member idle same => ?_⟩
    obtain ⟨j, low, less, rfl⟩ := before member
    have unlike := earlier j less
    rw [Bool.and_eq_true, idle_iff, not_and] at unlike
    exact unlike idle (same.trans stops.2)
  · obtain ⟨_, stops, earlier⟩ := List.findIdx?_eq_some_iff_getElem.mp idle
    rw [here, idle_iff] at stops
    refine ⟨stops, fun x member other refused => ?_, fun x member other _ => ?_⟩
    · rw [← split] at member
      have unlike := List.findIdx?_eq_none_iff.mp none x member
      rw [refused, Bool.and_true] at unlike
      have busy : (among x && !x.publishing) = false := unlike
      rw [idle_iff.mpr other] at busy
      contradiction
    · obtain ⟨j, low, less, rfl⟩ := before member
      have unlike := earlier j less
      rw [idle_iff] at unlike
      exact unlike other

private theorem closeOldestIdle_none (closed : closeOldestIdle among v = none) (member : e ∈ v)
    (here : among e = true) :
    e.publishing = true := by
  by_contra idle
  have some : (v.findIdx? fun e => among e && !e.publishing).isSome = true := by
    rw [List.findIdx?_isSome, List.any_eq_true]
    exact ⟨e, member, by simp [here, idle]⟩
  obtain ⟨i, found⟩ : ∃ i, ((v.findIdx? fun e => (among e && !e.publishing) && e.refused).or
      (v.findIdx? fun e => among e && !e.publishing)) = Option.some i := by
    refine Option.isSome_iff_exists.mp ?_
    rw [Option.isSome_or, some, Bool.or_true]
  have small : i < v.length := by
    rcases Option.or_eq_some_iff.mp found with refused | ⟨-, idle⟩
    · exact (List.findIdx?_eq_some_iff_getElem.mp refused).1
    · exact (List.findIdx?_eq_some_iff_getElem.mp idle).1
  simp only [closeOldestIdle, found, Option.bind_some, List.getElem?_eq_getElem small, Option.map_some] at closed
  contradiction

/-! ## Room for one more -/

/-- The connections of an address. -/
def countOf (addr : Option IpAddr) (v : Conns) : ℕ := v.countP fun e => e.addr = addr

/-- One more connection from `addr` is within the limits. -/
def Room (addr : Option IpAddr) (v : Conns) : Prop :=
  v.length < MAX_CONNECTIONS ∧ (addr.isSome = true → countOf addr v < MAX_CONNECTIONS_PER_IP)

/-- Without `e` there is room. -/
def MakesRoom (addr : Option IpAddr) (v : Conns) (e : ConnEntry) : Prop := e ∈ v ∧ Room addr (v.erase e)

/-- The limits hold. -/
structure Limited (v : Conns) : Prop where
  all : v.length ≤ MAX_CONNECTIONS
  each : ∀ addr, addr.isSome = true → countOf addr v ≤ MAX_CONNECTIONS_PER_IP

private theorem addrFull_iff :
    addrFull addr v = true ↔ addr.isSome = true ∧ MAX_CONNECTIONS_PER_IP ≤ countOf addr v := by
  simp [addrFull, countOf]

private theorem countOf_erase (addr : Option IpAddr) (member : e ∈ v) :
    countOf addr (v.erase e) = countOf addr v - if e.addr = addr then 1 else 0 := by
  rw [countOf, List.countP_erase, countOf]
  simp [member]

/-- Where the address is at its limit, its own connections make room. -/
theorem makesRoom_addr (limited : Limited v) (full : addrFull addr v = true) :
    MakesRoom addr v e ↔ e ∈ v ∧ e.addr = addr := by
  obtain ⟨some, full⟩ := addrFull_iff.mp full
  have most := limited.each addr some
  have total := limited.all
  refine and_congr_right fun member => ?_
  have count := countOf_erase addr member
  have length := List.length_erase_of_mem member
  have pos := List.length_pos_of_mem member
  rw [Room, count, length]
  split
  · next same =>
    simp only [same, iff_true, MAX_CONNECTIONS, MAX_CONNECTIONS_PER_IP] at *
    omega
  · next other =>
    simp only [other, iff_false, not_and, MAX_CONNECTIONS, MAX_CONNECTIONS_PER_IP] at *
    intro _ below
    have less := below some
    omega

/-- Where only the connections in all are at their limit, any of them makes room. -/
theorem makesRoom_all (limited : Limited v) (full : ¬addrFull addr v = true) : e ∈ v → MakesRoom addr v e := by
  intro member
  have count := countOf_erase addr member
  have length := List.length_erase_of_mem member
  have pos := List.length_pos_of_mem member
  have total := limited.all
  refine ⟨member, by simp only [MAX_CONNECTIONS] at *; omega, fun some => ?_⟩
  have below : countOf addr v < MAX_CONNECTIONS_PER_IP := by
    by_contra reached
    exact full (addrFull_iff.mpr ⟨some, by omega⟩)
  omega

/-- What an admission from `addr` does is fair: it closes a connection only to make room, one that does not
publish, was refused if any of those that make room was, and is the oldest of these; it turns a connection away
only where nothing can make room. -/
structure Fair (addr : Option IpAddr) (v : Conns) (outcome : Admission) : Prop where
  few : outcome.closed.length ≤ 1
  roomy : Room addr v → outcome = ⟨[], true⟩
  idle : ∀ c ∈ outcome.closed, c.publishing = false ∧ MakesRoom addr v c
  refused : ∀ c ∈ outcome.closed, ∀ e, MakesRoom addr v e → e.publishing = false → e.refused = true →
    c.refused = true
  oldest : ∀ c ∈ outcome.closed, ∀ e, MakesRoom addr v e → e.publishing = false → e.refused = c.refused →
    c.id ≤ e.id
  away : outcome.admitted = false → outcome.closed = [] ∧ ∀ e, MakesRoom addr v e → e.publishing = true

/-- The connections after it: the new one last, those closed gone, the others still there. -/
def Admitted (id : ℕ) (addr : Option IpAddr) (v v' : Conns) (outcome : Admission) : Prop :=
  v' = if outcome.admitted then (v.filter fun e => e ∉ outcome.closed) ++ [⟨id, addr, false, false⟩] else v

/-- Numbers are given in order. -/
structure InOrder (next : ℕ) (v : Conns) : Prop where
  sorted : v.Pairwise fun a b => a.id < b.id
  issued : ∀ e ∈ v, e.id < next

variable {next : ℕ}

theorem InOrder.sublist (ordered : InOrder next v) (fewer : v'.Sublist v) : InOrder next v' :=
  ⟨ordered.sorted.sublist fewer, fun e member => ordered.issued e (fewer.subset member)⟩

/-- Closing the oldest idle one of those that make room is fair, and makes room. -/
theorem fair_of_closed (ordered : InOrder next v) (closed : closeOldestIdle among v = some (old, v'))
    (makes : ∀ e, MakesRoom addr v e ↔ e ∈ v ∧ among e = true) (full : ¬Room addr v) :
    Fair addr v ⟨[old], true⟩ ∧ v' = v.filter (fun e => e ∉ [old]) ∧ Room addr v' := by
  obtain ⟨first, rest, rfl, rfl, oldest⟩ := closeOldestIdle_some closed
  obtain ⟨-, later, across⟩ := List.pairwise_append.mp ordered.sorted
  have after := (List.pairwise_cons.mp later).1
  have notFirst : old ∉ first := fun member =>
    Nat.lt_irrefl _ (across old member old (List.mem_cons_self ..))
  have notRest : old ∉ rest := fun member => Nat.lt_irrefl _ (after old member)
  have member : old ∈ first ++ old :: rest := List.mem_append_right _ (List.mem_cons_self ..)
  have here := (makes old).mpr ⟨member, oldest.idle.1⟩
  have erased : (first ++ old :: rest).erase old = first ++ rest := by
    rw [List.erase_append_right _ notFirst, List.erase_cons_head]
  refine ⟨?_, ?_, ?_⟩
  · exact
      { few := Nat.le_refl 1
        roomy := fun room => absurd room full
        idle := by
          intro c closed
          obtain rfl := List.mem_singleton.mp closed
          exact ⟨oldest.idle.2, here⟩
        refused := by
          intro c closed e room quiet refused
          obtain rfl := List.mem_singleton.mp closed
          obtain ⟨there, chosen⟩ := (makes e).mp room
          exact oldest.refused e there ⟨chosen, quiet⟩ refused
        oldest := by
          intro c closed e room quiet same
          obtain rfl := List.mem_singleton.mp closed
          obtain ⟨there, chosen⟩ := (makes e).mp room
          rcases List.mem_append.mp there with early | late
          · exact absurd same (oldest.oldest e early ⟨chosen, quiet⟩)
          · rcases List.mem_cons.mp late with rfl | behind
            · exact Nat.le_refl _
            · exact Nat.le_of_lt (after e behind)
        away := nofun }
  · rw [List.filter_append, List.filter_cons_of_neg (by simp)]
    have all {l : Conns} (absent : old ∉ l) : l.filter (fun e => e ∉ [old]) = l :=
      List.filter_eq_self.mpr fun e member => by
        simp only [List.mem_singleton, decide_not, Bool.not_eq_true', decide_eq_false_iff_not]
        exact fun same => absent (same ▸ member)
    rw [all notFirst, all notRest]
  · rw [← erased]
    exact here.2

/-- Nothing to close where room is needed: the new connection is turned away. -/
theorem fair_of_none (closed : closeOldestIdle among v = none)
    (makes : ∀ e, MakesRoom addr v e ↔ e ∈ v ∧ among e = true) (full : ¬Room addr v) :
    Fair addr v ⟨[], false⟩ where
  few := Nat.zero_le 1
  roomy := fun room => absurd room full
  idle := nofun
  refused := nofun
  oldest := nofun
  away := fun _ => ⟨rfl, fun e room =>
    closeOldestIdle_none closed ((makes e).mp room).1 ((makes e).mp room).2⟩

/-- Nothing is closed for a connection that gets in as it is. -/
theorem fair_of_open : Fair addr v ⟨[], true⟩ where
  few := Nat.zero_le 1
  roomy := fun _ => rfl
  idle := nofun
  refused := nofun
  oldest := nofun
  away := nofun

/-- With room for it, a new connection keeps the limits. -/
theorem Limited.add (limited : Limited v) (room : Room addr v) : Limited (v ++ [⟨id, addr, false, false⟩]) where
  all := by
    rw [List.length_append, List.length_singleton]
    exact room.1
  each := by
    intro other some
    rw [countOf, List.countP_append]
    have count := limited.each other some
    by_cases same : addr = other
    · have below := room.2 (same ▸ some)
      subst same
      simp only [countOf, List.countP_singleton, decide_true, if_true] at *
      omega
    · simpa [same, countOf] using count

theorem Limited.filter (limited : Limited v) (p : ConnEntry → Bool) : Limited (v.filter p) where
  all := Nat.le_trans (List.length_filter_le ..) limited.all
  each := fun addr some =>
    Nat.le_trans (List.filter_sublist.countP_le) (limited.each addr some)

/-- Admitting a connection is fair, and keeps the limits. -/
theorem admit_fair (limited : Limited v) (ordered : InOrder next v) (id : ℕ) (addr : Option IpAddr) :
    Fair addr v (admitConn id addr v).2 ∧ Admitted id addr v (admitConn id addr v).1 (admitConn id addr v).2 ∧
      Limited (admitConn id addr v).1 := by
  have total := limited.all
  unfold admitConn
  split
  · next full =>
    have makes (e : ConnEntry) : MakesRoom addr v e ↔ e ∈ v ∧ decide (e.addr = addr) = true := by
      rw [makesRoom_addr limited full, decide_eq_true_eq]
    have none : ¬Room addr v := fun room => by
      obtain ⟨some, reached⟩ := addrFull_iff.mp full
      exact absurd (room.2 some) (by omega)
    split
    · next closed => exact ⟨fair_of_none closed makes none, rfl, limited⟩
    · next old v' closed =>
      obtain ⟨fair, left, room⟩ := fair_of_closed ordered closed makes none
      rw [admitAmongAll, if_neg (Nat.not_le.mpr room.1)]
      refine ⟨fair, ?_, Limited.add ?_ room⟩
      · rw [Admitted, if_pos rfl, ← left]
      · rw [left]
        exact limited.filter _
  · next below =>
    have each : addr.isSome = true → countOf addr v < MAX_CONNECTIONS_PER_IP := fun some => by
      by_contra reached
      exact below (addrFull_iff.mpr ⟨some, by omega⟩)
    rw [admitAmongAll]
    split
    · next full =>
      have makes (e : ConnEntry) : MakesRoom addr v e ↔ e ∈ v ∧ (fun _ => true) e = true :=
        ⟨fun room => ⟨room.1, rfl⟩, fun there => makesRoom_all limited below there.1⟩
      have none : ¬Room addr v := fun room => absurd room.1 (by omega)
      split
      · next closed => exact ⟨fair_of_none closed makes none, rfl, limited⟩
      · next old v' closed =>
        obtain ⟨fair, left, room⟩ := fair_of_closed ordered closed makes none
        refine ⟨fair, ?_, Limited.add ?_ room⟩
        · rw [List.nil_append, Admitted, if_pos rfl, ← left]
        · rw [left]
          exact limited.filter _
    · next some =>
      have room : Room addr v := ⟨Nat.lt_of_not_le some, each⟩
      refine ⟨fair_of_open, ?_, limited.add room⟩
      rw [Admitted, if_pos rfl]
      simp

/-! ## Runs -/

namespace Listener

/-- What holds whatever connections came and went. -/
structure Sound (l : Listener) : Prop where
  limited : Limited l.conns
  ordered : InOrder l.nextId l.conns

private theorem setFlags_sound {l : Listener} (sound : l.Sound) {id : ℕ} {set : ConnEntry → ConnEntry}
    (same : ∀ e, (set e).id = e.id ∧ (set e).addr = e.addr) : Sound { l with conns := setFlags id set l.conns } where
  limited :=
    { all := by
        rw [setFlags, List.length_map]
        exact sound.limited.all
      each := fun addr some => by
        have count := sound.limited.each addr some
        rw [countOf, setFlags, List.countP_map]
        rw [countOf] at count
        refine Nat.le_trans (Nat.le_of_eq (List.countP_congr fun e _ => ?_)) count
        dsimp only [Function.comp]
        split
        · rw [(same e).2]
        · rfl }
  ordered :=
    { sorted := by
        refine List.pairwise_map.mpr (sound.ordered.sorted.imp fun {a b} less => ?_)
        have kept (e : ConnEntry) : (if e.id = id then set e else e).id = e.id := by
          split
          · exact (same e).1
          · rfl
        rw [kept, kept]
        exact less
      issued := by
        intro e member
        obtain ⟨x, there, rfl⟩ := List.mem_map.mp member
        have issued := sound.ordered.issued x there
        split
        · rw [(same x).1]
          exact issued
        · exact issued }

theorem step_sound {l : Listener} (sound : l.Sound) (op : ConnOp) : (l.step op).1.Sound := by
  cases op with
  | accept peer =>
    obtain ⟨-, admitted, limited⟩ := admit_fair sound.limited sound.ordered l.nextId (peerKey peer)
    refine ⟨limited, ?_⟩
    show InOrder (l.nextId + 1) (admitConn l.nextId (peerKey peer) l.conns).1
    have later : InOrder (l.nextId + 1) l.conns :=
      ⟨sound.ordered.sorted, fun e member => Nat.lt_succ_of_lt (sound.ordered.issued e member)⟩
    rw [admitted]
    split
    · have kept := sound.ordered.sublist (List.filter_sublist (p := fun e =>
        e ∉ (admitConn l.nextId (peerKey peer) l.conns).2.closed))
      refine ⟨List.pairwise_append.mpr ⟨kept.sorted, List.pairwise_singleton _ _, fun a member b new => ?_⟩,
        fun e member => ?_⟩
      · obtain rfl := List.mem_singleton.mp new
        exact kept.issued a member
      · rcases List.mem_append.mp member with old | new
        · exact Nat.lt_succ_of_lt (kept.issued e old)
        · obtain rfl := List.mem_singleton.mp new
          exact Nat.lt_succ_self _
    · exact later
  | publish id => exact setFlags_sound sound fun e => ⟨rfl, rfl⟩
  | refuse id => exact setFlags_sound sound fun e => ⟨rfl, rfl⟩
  | unpublish id => exact setFlags_sound sound fun e => ⟨rfl, rfl⟩
  | leave id => exact ⟨sound.limited.filter _, sound.ordered.sublist List.filter_sublist⟩

private theorem new_sound : Sound new :=
  ⟨⟨Nat.zero_le _, fun _ _ => Nat.zero_le _⟩, ⟨.nil, nofun⟩⟩

private theorem reached_sound (ops : List ConnOp) : Sound (Machine.after step new ops) :=
  Machine.after_induct (P := Sound) step (fun _ op sound => step_sound sound op) new_sound ops

/-- Whether the connection `id` publishes and whether it was refused, after one more thing that happens. -/
def flagsAfter (id : ℕ) : Bool × Bool → ConnOp → Bool × Bool
  | (publishing, refused), .publish other => if other = id then (true, refused) else (publishing, refused)
  | (publishing, refused), .refuse other => if other = id then (false, true) else (publishing, refused)
  | (publishing, refused), .unpublish other => if other = id then (false, refused) else (publishing, refused)
  | flags, .accept _ | flags, .leave _ => flags

/-- What happened since an entry was made: its connection has not left, and its flags are what was said of it. -/
structure Standing (e : ConnEntry) (since : List ConnOp) : Prop where
  stays : .leave e.id ∉ since
  flags : since.foldl (flagsAfter e.id) (false, false) = (e.publishing, e.refused)

theorem Standing.concat {since : List ConnOp} {e' : ConnEntry} {op : ConnOp} (standing : Standing e since)
    (same : e'.id = e.id)
    (stays : op ≠ .leave e.id) (flags : flagsAfter e.id (e.publishing, e.refused) op = (e'.publishing, e'.refused)) :
    Standing e' (since ++ [op]) where
  stays := by
    rw [same, List.mem_append, List.mem_singleton]
    exact fun left => left.elim standing.stays fun here => stays here.symm
  flags := by rw [same, List.foldl_concat, standing.flags, flags]

/-- An entry was made when its connection was admitted, and follows what happened to it since. -/
theorem entry_standing {ops : List ConnOp} (member : e ∈ (Machine.after step new ops).conns) :
    ∃ before peer since, ops = before ++ .accept peer :: since ∧ (Machine.after step new before).nextId = e.id ∧
      e.addr = peerKey peer ∧ Standing e since := by
  induction ops using List.reverseRecOn generalizing e with
  | nil => contradiction
  | append_singleton ops op ih =>
    have goes {x : ConnEntry} (old : x ∈ (Machine.after step new ops).conns) (same : e.id = x.id)
        (addr : e.addr = x.addr)
        (stays : op ≠ .leave x.id) (flags : flagsAfter x.id (x.publishing, x.refused) op = (e.publishing, e.refused)) :
        ∃ before peer since, ops ++ [op] = before ++ .accept peer :: since ∧
          (Machine.after step new before).nextId = e.id ∧ e.addr = peerKey peer ∧ Standing e since := by
      obtain ⟨before, peer, since, rfl, number, from_, standing⟩ := ih old
      exact ⟨before, peer, since ++ [op], by rw [List.append_assoc, List.cons_append], number.trans same.symm,
        addr.trans from_, standing.concat same stays flags⟩
    have sets {id : ℕ} {set : ConnEntry → ConnEntry} (inside : e ∈ setFlags id set (Machine.after step new ops).conns) :
        ∃ x ∈ (Machine.after step new ops).conns, e = if x.id = id then set x else x := by
      obtain ⟨x, old, same⟩ := List.mem_map.mp inside
      exact ⟨x, old, same.symm⟩
    rw [Machine.after_append] at member
    cases op with
    | accept peer =>
      obtain ⟨-, admitted, -⟩ := admit_fair (reached_sound ops).limited (reached_sound ops).ordered
        (Machine.after step new ops).nextId (peerKey peer)
      have inside :
          e ∈ (admitConn (Machine.after step new ops).nextId (peerKey peer) (Machine.after step new ops).conns).1 :=
        member
      rw [admitted] at inside
      split at inside
      · rcases List.mem_append.mp inside with old | fresh
        · exact goes (List.mem_of_mem_filter old) rfl rfl nofun rfl
        · obtain rfl := List.mem_singleton.mp fresh
          exact ⟨ops, peer, [], rfl, rfl, rfl, ⟨List.not_mem_nil, rfl⟩⟩
      · exact goes inside rfl rfl nofun rfl
    | publish id | refuse id | unpublish id =>
      obtain ⟨x, old, rfl⟩ := sets member
      by_cases same : x.id = id
      · rw [if_pos same] at goes ⊢
        exact goes old rfl rfl nofun (if_pos same.symm)
      · rw [if_neg same] at goes ⊢
        exact goes old rfl rfl nofun (if_neg fun other => same other.symm)
    | leave id =>
      obtain ⟨old, other⟩ := List.mem_filter.mp member
      refine goes old rfl rfl (fun left => ?_) rfl
      rw [ConnOp.leave.inj left] at other
      simp at other

/-- Whatever connections came and went, from whatever addresses: the limits hold, and the next connection is
admitted fairly. -/
theorem admission_fair (ops : List ConnOp) (peer : IpAddr) :
    let l := Machine.after step new ops
    let next := admitConn l.nextId (peerKey peer) l.conns
    Limited l.conns ∧ Fair (peerKey peer) l.conns next.2 ∧ Admitted l.nextId (peerKey peer) l.conns next.1 next.2 := by
  obtain ⟨fair, admitted, -⟩ := admit_fair (reached_sound ops).limited (reached_sound ops).ordered
    (Machine.after step new ops).nextId (peerKey peer)
  exact ⟨(reached_sound ops).limited, fair, admitted⟩

/-- Four from one address: the oldest publishes, and of the others the one that was refused makes room. -/
example : (Machine.after step new
    ([.accept (.v4 192 0 2 7), .accept (.v4 192 0 2 7), .accept (.v4 192 0 2 7), .accept (.v4 192 0 2 7),
      .publish 1, .refuse 3, .accept (.v4 192 0 2 7)] : List ConnOp)).conns.map
      (fun e => (e.id, e.publishing)) = [(1, true), (2, false), (4, false), (5, false)] := by decide

end Listener

end StreamDelay.Relay
