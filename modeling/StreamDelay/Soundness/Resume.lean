import Mathlib.Tactic.Common
import StreamDelay.Soundness.Progress

/-! # Resuming after a lost connection

A connection takes messages in the order they were sent, and what it did not take before it was lost is to be sent
again. The cursor goes back to what is numbered after the last message taken. That is what was sent after it as long as
the output was not spliced back to or before it in between, and then the connections after that send all of it again.
-/

namespace StreamDelay

open Foundations

/-- The last buffered message of what was sent. -/
def lastEntry (sent : List Sent) : Option Entry := (sent.filterMap Sent.entry?).getLast?

/-- The number of the last buffered message a connection took, of those it was sent. -/
def lastTaken (took : List Sent) : Option ℕ := (lastEntry took).map Entry.seq

/-- While `lost` is sent after `took`, the output goes back only to messages that `P` holds of: a message numbered no
higher than the buffered message sent before it is one of them, and so is the first of all. -/
def GoesBackTo (P : Entry → Prop) (took lost : List Sent) : Prop :=
  Each (fun before s => ∀ x ∈ s.entry?, (∀ y ∈ lastEntry before, x.seq ≤ y.seq) → P x) took lost

instance {P : Entry → Prop} [DecidablePred P] {took lost : List Sent} : Decidable (GoesBackTo P took lost) :=
  inferInstanceAs (Decidable (Each _ _ _))

private theorem lastEntry_append {sent : List Sent} {s : Sent} :
    lastEntry (sent ++ [s]) = s.entry?.or (lastEntry sent) := by
  unfold lastEntry
  rw [List.filterMap_append, List.getLast?_append]
  cases entry : s.entry? <;> simp [entry]

/-- Where the output goes back only to what `P` holds of, `P` holds of everything sent. -/
private theorem GoesBackTo.all {P : Entry → Prop} {took lost : List Sent}
    (up : ∀ x y : Entry, x.seq ≤ y.seq → P x → P y)
    (behind : ∀ y ∈ lastEntry took, ∀ x, y.seq < x.seq → P x) (back : GoesBackTo P took lost) :
    ∀ x ∈ lost.filterMap Sent.entry?, P x := by
  induction lost generalizing took with
  | nil => exact fun x none => absurd none List.not_mem_nil
  | cons s rest ih =>
    obtain ⟨here, later⟩ := back
    cases entry : s.entry? with
    | none =>
      rw [List.filterMap_cons_none entry]
      refine ih (fun y last => behind y ?_) later
      rwa [lastEntry_append, entry, Option.none_or] at last
    | some x =>
      have own : P x := by
        by_cases back : ∀ y ∈ lastEntry took, x.seq ≤ y.seq
        · exact here x entry back
        · simp only [not_forall, Nat.not_le] at back
          obtain ⟨y, last, after⟩ := back
          exact behind y last x after
      rw [List.filterMap_cons_some entry]
      refine List.forall_mem_cons.mpr ⟨own, ih (fun y last z after => ?_) later⟩
      rw [lastEntry_append, entry, Option.some_or] at last
      obtain rfl := Option.some.inj last
      exact up x z (Nat.le_of_lt after) own

namespace Engine

variable {e : Engine} {x : Entry} {op : Op}

/-- What the operation says the connection took last, if it says that the rest will not get there. -/
def losesAfter (e : Engine) : Op → Option (Option ℕ)
  | .outputDisconnected _ lastWritten => some lastWritten
  | .unsend taken => if e.out.connected then some taken else none
  | _ => none

/-- `x` is numbered after the last message taken, or where none was, from the first passed on the
connection on. -/
def NumberedAfter (e : Engine) : Option ℕ → Entry → Prop
  | some z, x => z < x.seq
  | none, x => ∀ first, e.out.firstEmitted = some first → first ≤ x.seq

instance : ∀ {last : Option ℕ}, Decidable (e.NumberedAfter last x)
  | some _ => inferInstanceAs (Decidable (_ < _))
  | none => inferInstanceAs (Decidable (∀ first ∈ e.out.firstEmitted, first ≤ x.seq))

variable {last : Option ℕ}

/-- Where the output goes on when what was sent after `last` is lost. -/
theorem step_loses (loses : e.losesAfter op = some last) :
    (e.step op).1.ring = e.ring ∧ (e.step op).1.out.started = e.out.started ∧
      (e.step op).1.out.pending = e.out.pending ∧ (e.step op).1.out.nextSeq =
        (last.elim e.out.firstEmitted fun z => some (z + 1)).elim e.out.nextSeq (min e.out.nextSeq) := by
  have resumed (e : Engine) : (e.resumeAfter last).ring = e.ring ∧ (e.resumeAfter last).out.started = e.out.started ∧
      (e.resumeAfter last).out.pending = e.out.pending ∧ (e.resumeAfter last).out.nextSeq =
        (last.elim e.out.firstEmitted fun z => some (z + 1)).elim e.out.nextSeq (min e.out.nextSeq) := by
    unfold resumeAfter
    cases last.elim e.out.firstEmitted fun z => some (z + 1) <;> exact ⟨rfl, rfl, rfl, rfl⟩
  cases op with
  | outputDisconnected now lastWritten =>
    obtain rfl := Option.some.inj loses
    exact resumed { e with out := { e.out with connected := false } }
  | unsend taken =>
    simp only [losesAfter, Option.ite_none_right_eq_some, Option.some.injEq] at loses
    obtain ⟨connected, rfl⟩ := loses
    dsimp only [step, unsend]
    rw [connected]
    exact resumed e
  | _ => contradiction

private theorem NumberedAfter.later {y : Entry} (after : e.NumberedAfter last x) (le : x.seq ≤ y.seq) :
    e.NumberedAfter last y := by
  cases last with
  | some z => exact Nat.lt_of_lt_of_le after le
  | none => exact fun first known => Nat.le_trans (after first known) le

/-- Where the output goes on is not after a message numbered after the last one taken. -/
private theorem NumberedAfter.reached (after : e.NumberedAfter last x) (begun : e.out.firstEmitted.isSome = true) :
    (last.elim e.out.firstEmitted fun z => some (z + 1)).elim e.out.nextSeq (min e.out.nextSeq) ≤ x.seq := by
  cases last with
  | some z => exact Nat.le_trans (Nat.min_le_right ..) after
  | none =>
    obtain ⟨first, known⟩ := Option.isSome_iff_exists.mp begun
    simp only [Option.elim_none, known, Option.elim_some]
    exact Nat.le_trans (Nat.min_le_right ..) (after first known)

private theorem allRounds_append (e : Engine) (first second : List Op) :
    e.allRounds (first ++ second) = e.allRounds first ++ (e.after first).allRounds second := by
  induction first generalizing e with
  | nil => rfl
  | cons op rest ih => simp only [List.cons_append, allRounds, ih, Machine.after_cons, List.append_assoc]

/-- The output does not get past `x` in `ops` but by sending it, or leaving it out for what it is. A poll that ends
before it ends so for a reason. -/
def ResentIn (e : Engine) (ops : List Op) (x : Entry) : Prop :=
  (∃ round ∈ e.allRounds ops, Passed x round) ∨ (e.after ops).out.nextSeq ≤ x.seq ∧
    ∀ first now maxBytes, ops = first ++ [.pollBudget now maxBytes] → (e.after ops).out.connected = true →
      Excused now maxBytes (payloadBytes ((e.after first).step (.pollBudget now maxBytes)).2) (e.after ops) x

private theorem ComesTo.resent {t : ℕ} {ops : List Op} (comes : e.ComesTo x) (regular : Regular t e)
    (ordered : Chronological Op.now? t ops) (steady : Machine.Along step Steady e ops) : e.ResentIn ops x := by
  rcases run_meets regular ordered comes steady with passed | comes'
  · exact .inl passed
  by_cases done : ∃ round ∈ e.allRounds ops, Passed x round
  · exact .inl done
  refine .inr ⟨comes'.due.ahead, ?_⟩
  rintro first now maxBytes rfl up
  obtain ⟨soFar, le, -⟩ := Chronological.append.mp ordered
  obtain ⟨early, last, -⟩ := Machine.along_append step |>.mp steady
  have after : e.after (first ++ [.pollBudget now maxBytes]) = ((e.after first).step (.pollBudget now maxBytes)).1 :=
    Machine.after_append ..
  rw [after] at up ⊢
  rw [allRounds_append] at done
  rcases run_meets regular soFar comes early with ⟨round, member, passed⟩ | there
  · exact absurd ⟨round, List.mem_append_left _ member, passed⟩ done
  · rcases step_meets (regular.after soFar) le there last with ⟨round, member, passed⟩ | ⟨-, excused⟩
    · refine absurd ⟨round, List.mem_append_right _ ?_, passed⟩ done
      rw [allRounds, allRounds, List.append_nil]
      exact member
    · exact excused now maxBytes rfl up

/-- Another operation comes first. -/
private theorem ResentIn.cons {ops : List Op} (resent : (e.step op).1.ResentIn ops x)
    (between : ∀ now maxBytes, op ≠ .pollBudget now maxBytes) : e.ResentIn (op :: ops) x := by
  refine resent.imp (fun ⟨round, member, passed⟩ => ⟨round, List.mem_append_right _ member, passed⟩) ?_
  rintro ⟨ahead, excused⟩
  refine ⟨ahead, fun first now maxBytes whole up => ?_⟩
  cases first with
  | nil => exact absurd (List.cons.inj whole).1 (between now maxBytes)
  | cons other first =>
    obtain ⟨rfl, rfl⟩ := List.cons.inj whole
    exact excused first now maxBytes rfl up

/-- A connection that starts again from the keyframe at or before the cursor comes to everything after that. -/
private theorem outputConnected_comes {t : ℕ} (layout : e.Layout) (sessions : e.InSession)
    (started : e.out.started = true)
    (idle : e.out.pending = .none) (member : x ∈ e.ring) (ahead : e.out.nextSeq ≤ x.seq)
    (keyframe : ∃ y ∈ e.ring, y.sync = true ∧ y.session = x.session ∧ y.seq ≤ x.seq)
    (idle' : (e.outputConnected t).out.pending = .none) : (e.outputConnected t).ComesTo x := by
  have airs : e.out.pending.holding = false := by
    rw [idle]
    rfl
  refine ⟨(outputConnected_starts t layout started airs).1, idle', ?_⟩
  obtain ⟨y, buffered, sync, same, before⟩ := keyframe
  let down : Engine := { e with out := { e.out with connected := false } }
  have due : down.Due x := ⟨member, ahead, y, buffered, sync, same, before, .inr (.inl rfl)⟩
  exact due.outputConnected (e := down) (layout.of_out layout.cursor layout.mark)
    ((KeepsSession.of_onlyOut (by rfl)).inSession sessions) started airs

/-- When what a connection did not take is lost, and since the last message taken was sent the output was spliced back
only to what is numbered after that message, then the output goes back to every message lost that is still buffered.
And on the connections after that it gets past such a message only by sending it again, or leaving it out for what it
is, as long as it carries on, nothing that is still to air is evicted and the delay stays as it is below the maximum. -/
theorem goes_back_to_lost (config : EngineConfig) (before after rest : List Op) (now : ℕ) (op : Op)
    (took lost : List Sent)
    (ordered : Chronological Op.now? 0 (before ++ .outputConnected now :: (after ++ op :: rest)))
    (connection : ∀ op ∈ after, op.opens = false) :
    let opened := ((Engine.new config).after before).outputConnected now
    let e := opened.after after
    let e' := (e.step op).1
    opened.sends after = took ++ lost → e.losesAfter op = some (lastTaken took) →
      GoesBackTo (e.NumberedAfter (lastTaken took)) took lost →
        ∀ x ∈ lost.filterMap Sent.entry?, x ∈ e'.ring → e'.out.nextSeq ≤ x.seq ∧
          (e.out.started = true → e.out.pending = .none →
            (∃ y ∈ e'.ring, y.sync = true ∧ y.session = x.session ∧ y.seq ≤ x.seq) →
              (e'.out.connected = false ∨ ∃ t later, rest = .outputConnected t :: later) →
                Machine.Along step Steady e' rest → ∀ first, first <+: rest → e'.ResentIn first x) := by
  intro opened e e' sent loses back x member buffered
  have whole : before ++ .outputConnected now :: (after ++ op :: rest) =
      (before ++ .outputConnected now :: after) ++ (op :: rest) := by simp
  rw [whole] at ordered
  obtain ⟨soFar, le, later⟩ := Chronological.append.mp ordered
  have paced : e.out.clock.Paced (took ++ lost) := sent ▸ (connection_goes config 0 soFar connection).paced
  obtain ⟨ring, running, pending, cursor⟩ := step_loses loses
  have ahead : e'.out.nextSeq ≤ x.seq := by
    obtain ⟨s, among, entry⟩ := List.mem_filterMap.mp member
    have begun := paced.begun s (List.mem_append_right took among) x entry
    refine Nat.le_trans (Nat.le_of_eq cursor) (NumberedAfter.reached ?_ begun)
    refine back.all (fun _ _ le after => after.later le) (fun y last z after => ?_) x member
    rw [lastTaken, Option.mem_def.mp last]
    exact after
  refine ⟨ahead, fun started idle keyframe resumes steady first early => ?_⟩
  have reached : e = (Engine.new config).after (before ++ .outputConnected now :: after) := by
    show Machine.after .. = Machine.after ..
    rw [Machine.after_append]
    rfl
  have regular := Regular.step (reached ▸ Regular.reached config soFar) op le
  obtain ⟨tail, rfl⟩ := early
  obtain ⟨soon, -⟩ := Chronological.append.mp later
  obtain ⟨steady, -⟩ := Machine.along_append step |>.mp steady
  rcases resumes with down | ⟨t, next, same⟩
  · refine ComesTo.resent ⟨running.trans started, pending.trans idle, buffered, ahead, ?_⟩ regular soon steady
    obtain ⟨y, held, sync, session, upTo⟩ := keyframe
    exact ⟨y, held, sync, session, upTo, .inr (.inl down)⟩
  · cases first with
    | nil =>
      refine .inr ⟨ahead, fun first now maxBytes none => ?_⟩
      exact absurd none (by simp)
    | cons connects first =>
      obtain ⟨rfl, -⟩ := List.cons.inj same
      refine ResentIn.cons ?_ fun _ _ => by simp
      have comes := outputConnected_comes (t := t) regular.layout regular.sessions (running.trans started)
        (pending.trans idle) buffered ahead keyframe steady.1.2.2.1
      exact ComesTo.resent comes (regular.step (.outputConnected t) soon.1) soon.2 steady.2

/-- Three keyframes air, a second apart; then a delay of two seconds is rewound into. -/
def rewinding : List Op :=
  [.ingest 0 .video 0 keyframe, .pollBudget 0 1000, .ingest SEC .video 1000 keyframe,
    .pollBudget SEC 1000, .ingest (2 * SEC) .video 2000 keyframe, .pollBudget (2 * SEC) 1000,
    .command (3 * SEC) (.setDelay 2000 .rewind), .pollBudget (3 * SEC) 1000]

/-- The output connects again, at once, and is asked for everything due two seconds later. -/
def reconnecting : List Op := [.outputConnected (3 * SEC), .pollBudget (5 * SEC) 1000]

/-- The connection took the first keyframe. The rewind after that went back to the second, so both others are sent
again. -/
theorem goes_back_to_lost_rewinding :
    let opened := ((Engine.new {}).after [.ingestStart 0]).outputConnected 0
    let sent := opened.sends rewinding
    let e' := ((opened.after rewinding).step (.outputDisconnected (3 * SEC) (some 0))).1
    ((sent.drop 1).filterMap Sent.entry?).map Entry.seq = [1, 2, 1] ∧ e'.out.nextSeq = 1 ∧
      ∀ x ∈ (sent.drop 1).filterMap Sent.entry?, x ∈ e'.ring →
        e'.out.nextSeq ≤ x.seq ∧ e'.ResentIn reconnecting x := by
  refine ⟨by decide +kernel, by decide +kernel, fun x member buffered => ?_⟩
  have keyframe : x.sync = true := by
    revert x
    decide +kernel
  obtain ⟨ahead, resent⟩ := goes_back_to_lost {} [.ingestStart 0] rewinding reconnecting 0
    (.outputDisconnected (3 * SEC) (some 0)) _ _ (by decide) (by decide) (List.take_append_drop 1 _).symm
    (by decide +kernel) (by decide +kernel) x member buffered
  exact ⟨ahead, resent (by decide +kernel) (by decide +kernel)
    ⟨x, buffered, keyframe, rfl, Nat.le_refl _⟩ (.inl (by decide +kernel)) (by decide +kernel) _
    (List.prefix_refl _)⟩

/-- The connection took everything but the keyframe sent again after the rewind. The cursor stays past
it: it is numbered before the last one taken. -/
theorem rewound_not_sent_again :
    let opened := ((Engine.new {}).after [.ingestStart 0]).outputConnected 0
    let e := opened.after rewinding
    let sent := opened.sends rewinding
    e.losesAfter (.outputDisconnected (3 * SEC) (some 2)) = some (lastTaken (sent.take 3)) ∧
      ∃ x ∈ (sent.drop 3).filterMap Sent.entry?,
        x ∈ (e.step (.outputDisconnected (3 * SEC) (some 2))).1.ring ∧
          ¬ (e.step (.outputDisconnected (3 * SEC) (some 2))).1.out.nextSeq ≤ x.seq := by
  decide +kernel

end Engine

end StreamDelay
