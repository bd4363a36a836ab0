import Mathlib.Data.Finset.Card
import Mathlib.Data.List.Induction
import Mathlib.Data.List.Nodup
import StreamDelay.Control.Overlays
import StreamDelay.Soundness.Slate

/-! # Who may say that the slate covers the stream

The control server and the core as one system. In every run, a change that counts as confirmed was confirmed by an
overlay page that was connected then, and not said to be off stream; and the slate covers a dump only where the dump
was asked for while OBS showed a page on stream, or the caller took that on.
-/

namespace StreamDelay

open Flv (Bytes)
open Foundations

/-! ## What the core does to the engine -/

namespace Core

variable {c : Core}

/-- The same command, but for the mode of a dump. -/
def SameButMode (given cmd : Command) : Prop :=
  cmd = given ∨ ∃ mode mode' cover, given = .dump mode cover ∧ cmd = .dump mode' cover

/-- What an event of the core does to the engine. -/
inductive Driven (c : Core) (event : CoreEvent) (e : Engine) : Prop
  | quiet (ops : List Op) (none : ∀ op ∈ ops, op.control = false) (same : e = c.engine.after ops)
  | command (now : ℕ) (given cmd : Command) (asked : event = .command now given) (agrees : SameButMode given cmd)
      (same : e = (c.engine.step (.command now cmd)).1)
  | dumped (pending : PendingDump) (waits : c.dump = some pending) (now : ℕ) (taken : Option ℕ) (mode : DelayMode)
      (same : e = (c.engine.step (.dumpAfter now taken mode pending.cover)).1)

theorem Driven.unmoved {event : CoreEvent} : Driven c event c.engine := .quiet [] (fun _ none => by contradiction) rfl

theorem Driven.one {event : CoreEvent} {op : Op} (quiet : op.control = false) :
    Driven c event (c.engine.step op).1 :=
  .quiet [op] (fun _ here => List.mem_singleton.mp here ▸ quiet) rfl

/-- The operation an effect is. -/
theorem applyEffect_op (e : Engine) (effect : Effect) :
    ∃ ops : List Op, (∀ op ∈ ops, op.control = false) ∧ applyEffect e effect = e.after ops := by
  have one {op : Op} (quiet : op.control = false) : ∀ o ∈ [op], o.control = false :=
    fun o here => List.mem_singleton.mp here ▸ quiet
  cases effect with
  | discard => exact ⟨[.discard], one rfl, rfl⟩
  | markEnd => exact ⟨[.endAfter], one rfl, rfl⟩
  | cancelEnd => exact ⟨[.cancelEnd], one rfl, rfl⟩
  | restartAfterEnd => exact ⟨[.restartAfterEnd], one rfl, rfl⟩
  | stopEgress | abortEgress | explain => exact ⟨[], fun _ none => by contradiction, rfl⟩

private theorem applyEffects_ops (effects : List Effect) (e : Engine) :
    ∃ ops : List Op, (∀ op ∈ ops, op.control = false) ∧ effects.foldl applyEffect e = e.after ops := by
  induction effects generalizing e with
  | nil => exact ⟨[], fun _ none => by contradiction, rfl⟩
  | cons effect rest ih =>
    obtain ⟨first, quiet, same⟩ := applyEffect_op e effect
    obtain ⟨later, quiet', same'⟩ := ih (applyEffect e effect)
    refine ⟨first ++ later, fun op member => ?_, ?_⟩
    · exact (List.mem_append.mp member).elim (quiet op) (quiet' op)
    · calc rest.foldl applyEffect (applyEffect e effect)
        _ = (applyEffect e effect).after later := same'
        _ = (e.after first).after later := by rw [same]
        _ = e.after (first ++ later) := (Machine.after_append ..).symm

private theorem apply_driven (event : CoreEvent) (decided : Lifecycle × List Effect) {c' : Core}
    (start : c'.engine = c.engine) : Driven c event (c'.apply decided).1.engine := by
  obtain ⟨ops, quiet, same⟩ := applyEffects_ops decided.2 c'.engine
  exact .quiet ops quiet (start ▸ same)

/-- More operations follow. -/
theorem Driven.then {event : CoreEvent} {ops later : List Op} {e : Engine} (quiet : ∀ op ∈ ops, op.control = false)
    (same : e = c.engine.after ops) (quiet' : ∀ op ∈ later, op.control = false) : Driven c event (e.after later) := by
  refine .quiet (ops ++ later) (fun op member => ?_) ?_
  · exact (List.mem_append.mp member).elim (quiet op) (quiet' op)
  · rw [same]
    exact (Machine.after_append ..).symm

private theorem control_driven (now : ℕ) (cmd : Command) (c : Core) :
    Driven c (.command now cmd) (c.control now cmd).1.engine := by
  unfold control
  split
  · next mode cover =>
    split
    · exact .unmoved
    · exact .command now _ _ rfl (.inr ⟨mode, _, cover, rfl, rfl⟩) rfl
  · exact .command now _ _ rfl (.inl rfl) rfl

private theorem finishDump_driven (event : CoreEvent) (now : ℕ) (delivered : Option ℕ) (overdue : Bool) (c : Core) :
    Driven c event (c.finishDump now delivered overdue).1.engine := by
  unfold finishDump
  split
  · exact .unmoved
  · next pending waits => exact .dumped pending waits now delivered _ rfl

private theorem step_driven (c : Core) (event : CoreEvent) : Driven c event (c.step event).1.engine := by
  cases event with
  | ingestPublish now backlogEmpty =>
    obtain ⟨ops, quiet, same⟩ := applyEffects_ops
      (c.life.publishing now c.publisher (c.facts now backlogEmpty)).2 c.engine
    dsimp only [step, accept]
    cases c.publisher with
    | true =>
      have silent : ∀ op ∈ [Op.ingestEnd now, .ingestStart now], op.control = false := by
        intro op member
        rcases List.mem_cons.mp member with rfl | last
        · rfl
        · exact List.mem_singleton.mp last ▸ rfl
      exact .then quiet same silent
    | false =>
      have silent : ∀ op ∈ [Op.ingestStart now], op.control = false :=
        fun op member => List.mem_singleton.mp member ▸ rfl
      exact .then quiet same silent
  | ingestMedia | ingestMetadata | ingestClosed =>
    dsimp only [step]
    split
    · exact .one rfl
    · exact .unmoved
  | egressConnected | egressDisconnected | setKeepHistory | setRestoreAfterReconnect => exact .one rfl
  | cutDone now delivered => exact finishDump_driven _ now delivered false c
  | dumpOverdue now => exact finishDump_driven _ now none true c
  | command now cmd => exact control_driven now cmd c
  | setDestination | endStream | endAfterAir | resume => exact apply_driven _ _ rfl
  | pump now room backlogEmpty settings =>
    dsimp only [step, pump]
    let polled := (c.onEngine (.pollBudget now (if c.dump.isSome then 0 else room))).1
    obtain ⟨ops, quiet, same⟩ := applyEffects_ops
      (polled.life.manageEgress now (polled.facts now backlogEmpty) settings).2 polled.engine
    refine .quiet (.pollBudget now (if c.dump.isSome then 0 else room) :: ops) (fun op member => ?_) same
    rcases List.mem_cons.mp member with rfl | later
    · rfl
    · exact quiet op later

theorem Driven.layout {event : CoreEvent} {e : Engine} (driven : Driven c event e) (layout : c.engine.Layout) :
    e.Layout := by
  cases driven with
  | quiet ops none same =>
    rw [same]
    exact Machine.after_induct (P := Engine.Layout) Engine.step (fun _ op kept => Engine.step_layout kept op) layout
      ops
  | command now given cmd asked agrees same => exact same ▸ Engine.step_layout layout _
  | dumped pending waits now taken mode same => exact same ▸ Engine.step_layout layout _

/-- A dump that the slate is to cover is given to the core, or waits there. -/
def Covers (c : Core) (event : CoreEvent) : Prop :=
  (∃ now mode, event = .command now (.dump mode true)) ∨ ∃ pending, c.dump = some pending ∧ pending.cover = true

/-- What an event of the core does to the slate. -/
inductive SlateStep (c : Core) (event : CoreEvent) (e : Engine) : Prop
  | kept (same : SlateKept c.engine.out e.out)
  | raised (cover : Bool) (asked : cover = true → Covers c event) (up : SlateRaised cover c.engine.out e.out)
  | confirmed (now : ℕ) (own : event = .command now (.slateShown c.engine.out.slateChange))
      (shown : SlateConfirmed now c.engine.out e.out)

private theorem quiet_slate {ops : List Op} (quiet : ∀ op ∈ ops, op.control = false) {e : Engine} (layout : e.Layout) :
    SlateKept e.out (e.after ops).out := by
  induction ops generalizing e with
  | nil => exact .refl _
  | cons op rest ih =>
    have first := Engine.step_kept layout (quiet op (List.mem_cons_self ..))
    have later := ih (fun o member => quiet o (List.mem_cons_of_mem _ member)) (Engine.step_layout layout op)
    exact first.trans later

theorem Driven.slate {event : CoreEvent} {e : Engine} (driven : Driven c event e) (layout : c.engine.Layout) :
    SlateStep c event e := by
  cases driven with
  | quiet ops none same =>
    rw [same]
    exact .kept (quiet_slate none layout)
  | command now given cmd asked agrees same =>
    rw [same]
    cases Engine.step_slate layout (.command now cmd) with
    | kept kept => exact .kept kept
    | raised up =>
      refine .raised _ (fun covers => .inl ?_) up
      rcases agrees with rfl | ⟨mode, mode', cover, rfl, rfl⟩
      · cases cmd with
        | dump mode cover =>
          obtain rfl : cover = true := covers
          exact ⟨now, mode, asked⟩
        | _ => contradiction
      · obtain rfl : cover = true := covers
        exact ⟨now, mode, asked⟩
    | confirmed now' own shown =>
      obtain ⟨rfl, confirms⟩ := Op.command.inj own
      rcases agrees with rfl | ⟨mode, mode', cover, rfl, rfl⟩
      · exact .confirmed now (confirms ▸ asked) shown
      · contradiction
  | dumped pending waits now taken mode same =>
    rw [same]
    cases Engine.step_slate layout (.dumpAfter now taken mode pending.cover) with
    | kept kept => exact .kept kept
    | raised up => exact .raised _ (fun covers => .inr ⟨pending, waits, covers⟩) up
    | confirmed now' own => contradiction

/-- A dump waits only where one was asked for. -/
theorem step_dump (c : Core) (event : CoreEvent) {pending : PendingDump}
    (waits : (c.step event).1.dump = some pending) :
    c.dump = some pending ∨ ∃ now, event = .command now (.dump pending.mode pending.cover) := by
  have finished (now : ℕ) (delivered : Option ℕ) (overdue : Bool)
      (later : (c.finishDump now delivered overdue).1.dump = some pending) : c.dump = some pending := by
    revert later
    unfold finishDump
    split
    · exact id
    · exact fun none => by contradiction
  cases event with
  | ingestMedia | ingestMetadata | ingestClosed =>
    revert waits
    dsimp only [step]
    split
    · exact .inl
    · exact .inl
  | cutDone now delivered => exact .inl (finished now delivered false waits)
  | dumpOverdue now => exact .inl (finished now none true waits)
  | command now cmd =>
    revert waits
    dsimp only [step]
    unfold control
    split
    · next mode cover =>
      split
      · intro waits
        cases before : c.dump with
        | none =>
          rw [show (c.dump.orElse fun _ => some ⟨mode, cover⟩) = some ⟨mode, cover⟩ by rw [before]; rfl] at waits
          obtain rfl := Option.some.inj waits
          exact .inr ⟨now, rfl⟩
        | some first =>
          rw [show (c.dump.orElse fun _ => some ⟨mode, cover⟩) = some first by rw [before]; rfl] at waits
          exact .inl waits
      · exact .inl
    · exact .inl
  | ingestPublish | egressConnected | egressDisconnected | setKeepHistory | setRestoreAfterReconnect
  | setDestination | endStream | endAfterAir | resume | pump => exact .inl waits

/-- What the core passes on is what one operation of the engine sends. -/
private theorem step_media {event : CoreEvent} {m : Sent} (passed : .media m ∈ (c.step event).2) :
    ∃ op, m ∈ (c.engine.step op).2 := by
  have own {op : Op} (passed : CoreOutput.media m ∈ (c.engine.step op).2.map .media) :
      ∃ op, m ∈ (c.engine.step op).2 := by
    obtain ⟨sent, here, same⟩ := List.mem_map.mp passed
    exact ⟨op, CoreOutput.media.inj same ▸ here⟩
  have effects {list : List Effect} : CoreOutput.media m ∉ list.map .effect := by
    intro passed
    obtain ⟨effect, -, other⟩ := List.mem_map.mp passed
    contradiction
  have finished {now : ℕ} {delivered : Option ℕ} {overdue : Bool}
      (passed : .media m ∈ (c.finishDump now delivered overdue).2) : ∃ op, m ∈ (c.engine.step op).2 := by
    unfold finishDump at passed
    split at passed
    · contradiction
    · exact own passed
  cases event with
  | ingestMedia | ingestMetadata | ingestClosed =>
    dsimp only [step] at passed
    split at passed
    · exact own passed
    · contradiction
  | egressConnected | egressDisconnected | setKeepHistory | setRestoreAfterReconnect => exact own passed
  | cutDone | dumpOverdue => exact finished passed
  | command now cmd =>
    dsimp only [step] at passed
    unfold control at passed
    split at passed
    · split at passed
      · contradiction
      · exact own passed
    · exact own passed
  | ingestPublish | setDestination | endStream | endAfterAir | resume => exact absurd passed effects
  | pump =>
    rcases List.mem_append.mp passed with sent | effect
    · exact own sent
    · exact absurd effect effects

end Core

/-- Whether the page is on stream, where it says so. -/
def Control.FromOverlay.onStream? : FromOverlay → Option Bool
  | overlay active => some active
  | slateShown _ => none

namespace Control.Studio

variable {read : Bytes → Option FromOverlay} {core : Core} {events : List StudioEvent} {event : StudioEvent}

/-! ## What a message does -/

variable {s : Studio} {now id : ℕ} {text : Bytes} {c : Connection}

private theorem withConnection_again (page : Option ℕ) (command : Command) (first last : Option Connection)
    (s : Studio) :
    ((s.withConnection id first).send page command).withConnection id last =
      (s.send page command).withConnection id last := by
  unfold withConnection send
  dsimp only
  rw [Function.update_idem]

/-- Whether a message of page `id` is let through. -/
def letsThrough (id : ℕ) (s : Studio) : StudioEvent → Bool
  | .say now id' _ => id' = id && ((s.connection id').filter fun c => !c.waiting).any fun c => (c.limit.allow now).2
  | _ => false

/-- What page `id` says, where it is let through. -/
def utters (read : Bytes → Option FromOverlay) (id : ℕ) (s : Studio) (event : StudioEvent) : Option FromOverlay :=
  match event with
  | .say _ _ text => if s.letsThrough id event ∧ text.length ≤ MAX_OVERLAY_MESSAGE then read text else none
  | _ => none

private theorem letsThrough_own (listens : (s.connection id).filter (fun c => !c.waiting) = some c) :
    s.letsThrough id (.say now id text) = (c.limit.allow now).2 := by
  dsimp only [letsThrough]
  rw [listens, Option.any_some, decide_eq_true rfl, Bool.true_and]

private theorem letsThrough_unheard {other : ℕ} (deaf : (s.connection other).filter (fun c => !c.waiting) = none) :
    s.letsThrough id (.say now other text) = false := by
  dsimp only [letsThrough]
  rw [deaf, Option.any_none, Bool.and_false]

private theorem letsThrough_other {other : ℕ} (elsewhere : other ≠ id) :
    s.letsThrough id (.say now other text) = false := by
  dsimp only [letsThrough]
  rw [decide_eq_false elsewhere, Bool.false_and]

private theorem utters_none (silent : s.letsThrough id event = false) : s.utters read id event = none := by
  cases event with
  | say => exact if_neg fun heard => Bool.false_ne_true (silent.symm.trans heard.1)
  | _ => rfl

/-- A page's message is counted. What it says counts if it is let through: whether the page is on stream, or the change
it confirms, unless it is off stream. -/
theorem hear_cases (read : Bytes → Option FromOverlay) (now : ℕ) (text : Bytes)
    (listens : (s.connection id).filter (fun c => !c.waiting) = some c) :
    let limit := (c.limit.allow now).1
    let said := s.utters read id (.say now id text)
    said.bind FromOverlay.onStream? = none ∧
        s.hear read now id text c = s.withConnection id (some { c with limit }) ∨
      (∃ active, said = some (.overlay active) ∧ s.hear read now id text c =
        { s with overlays := s.overlays.setActive id active }.withConnection id (some { c with limit })) ∨
      ∃ change, said = some (.slateShown change) ∧ s.overlays.mayConfirm id = true ∧
        s.hear read now id text c =
          (s.send (some id) (.slateShown change)).withConnection id (some { limit, waiting := true }) := by
  intro limit said
  have through : said =
      if (c.limit.allow now).2 = true ∧ text.length ≤ MAX_OVERLAY_MESSAGE then read text else none := by
    show s.utters read id (.say now id text) = _
    unfold utters
    rw [letsThrough_own listens]
  unfold hear
  dsimp only
  split
  · next allowed =>
    unfold fromOverlay
    split
    · next long =>
      rw [through, if_neg fun short => Nat.not_le_of_lt long short.2]
      exact .inl ⟨rfl, rfl⟩
    · next short =>
      rw [through, if_pos ⟨allowed, Nat.le_of_not_lt short⟩]
      split
      · next active told => exact .inr (.inl ⟨active, told, rfl⟩)
      · next change told =>
        split
        · next may => exact .inr (.inr ⟨change, told, may, withConnection_again ..⟩)
        · exact .inl ⟨by rw [told]; rfl, rfl⟩
      · next told => exact .inl ⟨by rw [told]; rfl, rfl⟩
  · next refused =>
    rw [through, if_neg fun allowed => refused allowed.1]
    exact .inl ⟨rfl, rfl⟩

/-! ## Pages and their connections -/

/-- Each connection has its page, each page is counted, and each confirmation on the way is waited for. -/
structure Tracked (s : Studio) : Prop where
  joined : ∀ id, id ∈ s.overlays.pages ↔ (s.connection id).isSome = true
  exact : s.overlays.counts = s.overlays.pages.counted
  fresh : ∀ id ∈ s.overlays.pages, id < s.overlays.next
  waits : ∀ id, s.control.countP (fun sending => sending.page = some id) =
    if (s.connection id).any (·.waiting) then 1 else 0

private theorem connection_self (id : ℕ) (c : Option Connection) (s : Studio) :
    (s.withConnection id c).connection id = c := Function.update_self ..

private theorem connection_other {id other : ℕ} (ne : other ≠ id) (c : Option Connection) (s : Studio) :
    (s.withConnection id c).connection other = s.connection other := Function.update_of_ne ne ..

namespace Tracked

theorem unknown (tracked : s.Tracked) {id : ℕ} (gone : s.connection id = none) :
    s.control.countP (fun sending => sending.page = some id) = 0 := by
  rw [tracked.waits id, gone]
  rfl

/-- The next page's number is not taken. -/
theorem unused (tracked : s.Tracked) : s.connection s.overlays.next = none := by
  refine Option.not_isSome_iff_eq_none.mp fun used => ?_
  exact lt_irrefl _ (tracked.fresh _ ((tracked.joined _).mpr used))

theorem known (tracked : s.Tracked) {id : ℕ} {c : Connection} (here : s.connection id = some c) :
    id ∈ s.overlays.pages := (tracked.joined id).mpr (here ▸ rfl)

theorem new (core : Core) : (Studio.new core).Tracked where
  joined := fun id => iff_of_false (AList.notMem_empty id) (by exact Bool.false_ne_true)
  exact := rfl
  fresh := fun id here => absurd here (AList.notMem_empty id)
  waits := fun _ => rfl

/-- A connection's limit changes. -/
theorem reconnect (tracked : s.Tracked) {c c' : Connection} (here : s.connection id = some c)
    (same : c'.waiting = c.waiting) : (s.withConnection id (some c')).Tracked where
  joined := by
    intro other
    rw [show (s.withConnection id (some c')).overlays = s.overlays from rfl, tracked.joined other]
    by_cases own : other = id
    · subst own
      rw [here, connection_self]
      rfl
    · rw [connection_other own]
  exact := tracked.exact
  fresh := tracked.fresh
  waits := by
    intro other
    rw [show (s.withConnection id (some c')).control = s.control from rfl, tracked.waits other]
    by_cases own : other = id
    · subst own
      rw [here, connection_self]
      show (if c.waiting = true then 1 else 0) = if c'.waiting = true then 1 else 0
      rw [same]
    · rw [connection_other own]

theorem setActive (tracked : s.Tracked) (here : id ∈ s.overlays.pages) (active : Bool) :
    ({ s with overlays := s.overlays.setActive id active } : Studio).Tracked where
  joined := by
    intro other
    rw [← tracked.joined other]
    refine (AList.mem_insert ..).trans (or_iff_right_of_imp ?_)
    rintro rfl
    exact here
  exact := rfl
  fresh := by
    intro other member
    rcases (AList.mem_insert ..).mp member with rfl | old
    · exact tracked.fresh other here
    · exact tracked.fresh other old
  waits := tracked.waits

theorem inside (tracked : s.Tracked) (dumps : List PendingDump) (core : Core) :
    ({ s with dumps, core } : Studio).Tracked :=
  ⟨tracked.joined, tracked.exact, tracked.fresh, tracked.waits⟩

/-- A command no page waits for is given to the relay. -/
theorem send (tracked : s.Tracked) (command : Command) : (s.send none command).Tracked where
  joined := tracked.joined
  exact := tracked.exact
  fresh := tracked.fresh
  waits := by
    intro id
    show (s.control ++ [Sending.mk none command]).countP _ = _
    rw [List.countP_append, List.countP_singleton]
    exact tracked.waits id

/-- A page confirms a change, and waits. -/
theorem confirm (tracked : s.Tracked) {c : Connection} (here : s.connection id = some c) (idle : c.waiting = false)
    (limit : RateLimit) (command : Command) :
    ((s.send (some id) command).withConnection id (some { limit, waiting := true })).Tracked where
  joined := by
    intro other
    by_cases own : other = id
    · subst own
      rw [connection_self]
      refine iff_of_true ((tracked.joined other).mpr ?_) rfl
      rw [here]
      rfl
    · rw [connection_other own]
      exact tracked.joined other
  exact := tracked.exact
  fresh := tracked.fresh
  waits := by
    intro other
    show (s.control ++ [Sending.mk (some id) command]).countP _ = _
    rw [List.countP_append, List.countP_singleton]
    by_cases own : other = id
    · subst own
      rw [connection_self, tracked.waits other, here]
      show (if c.waiting = true then 1 else 0) + _ = 1
      rw [idle]
      simp only [decide_true, if_true, Bool.false_eq_true, if_false]
    · rw [connection_other own, if_neg, Nat.add_zero]
      · exact tracked.waits other
      · exact fun same => own (Option.some.inj (of_decide_eq_true same)).symm

/-- The oldest command is answered. -/
theorem answer (tracked : s.Tracked) {sending : Sending} {rest : List Sending} (queue : s.control = sending :: rest) :
    ({ s with control := rest }.answer sending.page : Studio).Tracked := by
  have waits (id : ℕ) := queue ▸ tracked.waits id
  obtain ⟨page, command⟩ := sending
  cases page with
  | none =>
    refine ⟨tracked.joined, tracked.exact, tracked.fresh, fun id => ?_⟩
    refine Eq.trans ?_ (waits id)
    exact (List.countP_cons_of_neg (by exact Bool.false_ne_true)).symm
  | some id =>
    have own : rest.countP (fun sending => sending.page = some id) + 1 =
        if (s.connection id).any (·.waiting) then 1 else 0 := by
      rw [← waits id, List.countP_cons_of_pos]
      exact decide_eq_true rfl
    obtain ⟨c, here⟩ : ∃ c, s.connection id = some c := by
      cases here : s.connection id with
      | none =>
        rw [here] at own
        contradiction
      | some c => exact ⟨c, rfl⟩
    have left : rest.countP (fun sending => sending.page = some id) = 0 := by
      split at own
      · exact Nat.succ.inj own
      · contradiction
    refine ⟨fun other => ?_, tracked.exact, tracked.fresh, fun other => ?_⟩
    · by_cases same : other = id
      · subst same
        refine (tracked.joined other).trans ?_
        show _ ↔ ((Studio.withConnection _ _ _).connection _).isSome = true
        rw [connection_self, here]
        rfl
      · refine (tracked.joined other).trans ?_
        show _ ↔ ((Studio.withConnection _ _ _).connection _).isSome = true
        rw [connection_other same]
    · by_cases same : other = id
      · subst same
        show rest.countP _ = if ((Studio.withConnection _ _ _).connection _).any _ then _ else _
        rw [connection_self, here]
        exact left
      · show rest.countP _ = if ((Studio.withConnection _ _ _).connection _).any _ then _ else _
        rw [connection_other same, ← waits other, List.countP_cons_of_neg]
        exact fun eq => same (Option.some.inj (of_decide_eq_true eq)).symm

theorem step (read : Bytes → Option FromOverlay) (event : StudioEvent) (tracked : s.Tracked) :
    (s.step read event).1.Tracked := by
  have listening (id : ℕ) {c : Connection} (found : (s.connection id).filter (fun c => !c.waiting) = some c) :
      s.connection id = some c ∧ c.waiting = false := by
    obtain ⟨here, idle⟩ := Option.filter_eq_some_iff.mp found
    exact ⟨here, by simpa using idle⟩
  cases event with
  | join now =>
    refine ⟨fun id => ?_, rfl, fun id member => ?_, fun id => ?_⟩
    · refine (AList.mem_insert ..).trans ?_
      by_cases own : id = s.overlays.next
      · subst own
        exact iff_of_true (.inl rfl) (by rw [Studio.step, connection_self]; rfl)
      · rw [Studio.step, connection_other own]
        exact (or_iff_right own).trans (tracked.joined id)
    · show id < s.overlays.next + 1
      rcases (AList.mem_insert ..).mp member with rfl | old
      · exact Nat.lt_succ_self _
      · exact Nat.lt_succ_of_lt (tracked.fresh id old)
    · by_cases own : id = s.overlays.next
      · subst own
        rw [Studio.step, connection_self]
        exact tracked.unknown tracked.unused
      · rw [Studio.step, connection_other own]
        exact tracked.waits id
  | say now id text =>
    dsimp only [Studio.step]
    split
    · exact tracked
    · next c found =>
      obtain ⟨here, idle⟩ := listening id found
      rcases hear_cases read now text found with ⟨-, same⟩ | ⟨active, -, same⟩ | ⟨change, -, -, same⟩
      · rw [same]
        exact tracked.reconnect here rfl
      · rw [same]
        exact (tracked.setActive (tracked.known here) active).reconnect here rfl
      · rw [same]
        exact tracked.confirm here idle _ _
  | leave id =>
    dsimp only [Studio.step]
    split
    · exact tracked
    · next c found =>
      obtain ⟨here, idle⟩ := listening id found
      refine ⟨fun other => ?_, rfl, fun other member => ?_, fun other => ?_⟩
      · refine AList.mem_erase.trans ?_
        by_cases own : other = id
        · subst own
          rw [connection_self]
          exact iff_of_false (fun gone => gone.1 rfl) Bool.false_ne_true
        · rw [connection_other own]
          exact (and_iff_right own).trans (tracked.joined other)
      · exact tracked.fresh other (AList.mem_erase.mp member).2
      · by_cases own : other = id
        · subst own
          rw [connection_self]
          have none := tracked.waits other
          rw [here] at none
          exact none.trans (if_neg (by rw [Option.any_some, idle]; exact Bool.false_ne_true))
        · rw [connection_other own]
          exact tracked.waits other
  | request asked => exact tracked.send _
  | askDump => exact tracked.inside _ _
  | sendDump index =>
    dsimp only [Studio.step]
    split
    · exact tracked
    · next dump found =>
      exact (tracked.inside (s.dumps.eraseIdx index) s.core).send _
  | deliver now =>
    dsimp only [Studio.step]
    split
    · exact tracked
    · next sending rest queue =>
      exact (tracked.inside s.dumps (s.core.step (.command now sending.command)).1).answer queue
  | other => exact tracked.inside _ _

end Tracked

theorem Tracked.after (read : Bytes → Option FromOverlay) (core : Core) (events : List StudioEvent) :
    ((Studio.new core).after read events).Tracked :=
  Machine.after_induct (P := Tracked) (Studio.step read) (fun _ event tracked => tracked.step read event) (.new core)
    events

/-! ## What is known of a page -/

/-- What page `id` last said of its being on stream, in a message let through. -/
def heard (read : Bytes → Option FromOverlay) (core : Core) (id : ℕ) (events : List StudioEvent) : Option Bool :=
  latest (fun before event => (((new core).after read before).utters read id event).bind FromOverlay.onStream?)
    [] events

/-- What is known of page `id` is `said`. -/
structure Known (id : ℕ) (said : Option Bool) (s : Studio) : Prop where
  told : (s.connection id).isSome = true → s.overlays.pages.lookup id = some said
  fresh : s.overlays.next ≤ id → said = none

theorem Known.keep {said : Option Bool} {s' : Studio} (known : s.Known id said)
    (connected : (s'.connection id).isSome = true → (s.connection id).isSome = true)
    (page : s'.overlays.pages.lookup id = s.overlays.pages.lookup id) (next : s'.overlays.next = s.overlays.next) :
    s'.Known id said :=
  ⟨fun here => page.trans (known.told (connected here)), fun late => known.fresh (next ▸ late)⟩

/-- Another page's connection changes. -/
theorem Known.elsewhere {said : Option Bool} {other : ℕ} (known : s.Known id said) (elsewhere : id ≠ other)
    (c : Option Connection) : (s.withConnection other c).Known id said :=
  ⟨fun here => known.told (connection_other elsewhere c s ▸ here), known.fresh⟩

theorem Known.answer {said : Option Bool} (page : Option ℕ) (known : s.Known id said) :
    (s.answer page).Known id said := by
  cases page with
  | none => exact known
  | some other =>
    by_cases own : id = other
    · subst own
      refine known.keep (fun here => ?_) rfl rfl
      rw [Studio.answer, connection_self, Option.isSome_map] at here
      exact here
    · exact known.elsewhere own _

theorem Known.step (read : Bytes → Option FromOverlay) {said : Option Bool} (event : StudioEvent) (tracked : s.Tracked)
    (known : s.Known id said) :
    (s.step read event).1.Known id (((s.utters read id event).bind FromOverlay.onStream?).or said) := by
  cases event with
  | join now =>
    by_cases own : id = s.overlays.next
    · subst own
      obtain rfl := known.fresh (Nat.le_refl _)
      exact ⟨fun _ => AList.lookup_insert _, fun _ => rfl⟩
    · refine ⟨fun here => ?_, fun late => known.fresh (Nat.le_of_succ_le late)⟩
      have before : (s.step read (.join now)).1.connection id = s.connection id := connection_other own ..
      exact (AList.lookup_insert_ne own).trans (known.told (before ▸ here))
  | say now other text =>
    dsimp only [Studio.step]
    split
    · next deaf =>
      rw [utters_none (letsThrough_unheard deaf)]
      exact known
    · next c listens =>
      have here : (s.connection other).isSome = true := by
        rw [(Option.filter_eq_some_iff.mp listens).1]
        rfl
      by_cases own : other = id
      · subst own
        rcases hear_cases read now text listens with ⟨quiet, same⟩ | ⟨active, told, same⟩ | ⟨change, told, -, same⟩
        · rw [same, quiet]
          exact known.keep (fun _ => here) rfl rfl
        · rw [same, told]
          have joined := tracked.fresh other ((tracked.joined other).mpr here)
          exact ⟨fun _ => AList.lookup_insert _, fun late => absurd joined (Nat.not_lt_of_le late)⟩
        · rw [same, told]
          exact known.keep (fun _ => here) rfl rfl
      · rw [utters_none (letsThrough_other own)]
        have elsewhere := Ne.symm own
        rcases hear_cases read now text listens with ⟨-, same⟩ | ⟨active, -, same⟩ | ⟨change, -, -, same⟩
        · rw [same]
          exact known.elsewhere elsewhere _
        · rw [same]
          have set : ({ s with overlays := s.overlays.setActive other active } : Studio).Known id said :=
            known.keep (fun here => here) (AList.lookup_insert_ne elsewhere) rfl
          exact set.elsewhere elsewhere _
        · rw [same]
          have sent : (s.send (some other) (.slateShown change)).Known id said := known.keep (fun here => here) rfl rfl
          exact sent.elsewhere elsewhere _
  | leave other =>
    dsimp only [Studio.step]
    split
    · exact known
    · by_cases own : other = id
      · subst own
        refine ⟨fun here => ?_, known.fresh⟩
        rw [connection_self] at here
        contradiction
      · have elsewhere := Ne.symm own
        have left : ({ s with overlays := s.overlays.leave other } : Studio).Known id said :=
          known.keep (fun here => here) (AList.lookup_erase_ne elsewhere) rfl
        exact left.elsewhere elsewhere _
  | deliver now =>
    dsimp only [Studio.step]
    split
    · exact known
    · next sending rest queue =>
      have taken (core : Core) : ({ s with control := rest, core } : Studio).Known id said :=
        known.keep (fun here => here) rfl rfl
      exact (taken _).answer sending.page
  | sendDump index =>
    dsimp only [Studio.step]
    split
    · exact known
    · exact known.keep (fun here => here) rfl rfl
  | request | askDump | other => exact known.keep (fun here => here) rfl rfl

/-- In every run, what is known of a page is what it last said in a message let through. -/
theorem known (read : Bytes → Option FromOverlay) (core : Core) (id : ℕ) (events : List StudioEvent) :
    ((new core).after read events).Known id (heard read core id events) := by
  induction events using List.reverseRecOn with
  | nil => exact ⟨fun none => by contradiction, fun _ => rfl⟩
  | append_singleton events event ih =>
    rw [show (new core).after read (events ++ [event]) = (((new core).after read events).step read event).1 from
      Machine.after_append .., show heard read core id (events ++ [event]) = _ from latest_append ..]
    exact ih.step read event (.after ..)

/-! ## How much a page can say -/

/-- How many more messages a limit lets through before `stop`, when no message comes before `start`. -/
def limitRoom (start stop : ℕ) (limit : RateLimit) : ℕ :=
  (OVERLAY_MESSAGES_PER_SECOND - limit.taken) +
    OVERLAY_MESSAGES_PER_SECOND * ((stop + SEC - 1 - max (limit.since + SEC) start) / SEC)

private theorem SEC_pos : 0 < SEC := Nat.succ_pos _

/-- A second more of room is a round more. -/
theorem rounds {a b : ℕ} (more : b + SEC ≤ a) : b / SEC + 1 ≤ a / SEC := by
  rw [← Nat.add_div_right b SEC_pos]
  exact Nat.div_le_div_right more

private theorem allow_room {start stop now : ℕ} (limit : RateLimit) (late : start ≤ now) (early : now < stop) :
    (limit.allow now).2.toNat + limitRoom start stop (limit.allow now).1 ≤ limitRoom start stop limit := by
  unfold RateLimit.allow RateLimit.renew limitRoom OVERLAY_MESSAGES_PER_SECOND
  dsimp only
  split
  · next renewed =>
    have second := SEC_pos
    have one : (stop + SEC - 1 - max (now + SEC) start) / SEC + 1 ≤
        (stop + SEC - 1 - max (limit.since + SEC) start) / SEC := rounds (by omega)
    show 1 + _ ≤ _
    dsimp only
    omega
  · by_cases fits : limit.taken + 1 ≤ 10
    · rw [decide_eq_true fits, Bool.toNat_true]
      omega
    · rw [decide_eq_false fits, Bool.toNat_false]
      omega

/-- The same for page `id`, which may still connect. -/
def room (start stop id : ℕ) (s : Studio) : ℕ :=
  match s.connection id with
  | some c => limitRoom start stop c.limit
  | none =>
    if id < s.overlays.next then 0 else OVERLAY_MESSAGES_PER_SECOND * ((stop + SEC - 1 - start) / SEC)

private theorem room_some {start stop id : ℕ} {s : Studio} {c : Connection} (here : s.connection id = some c) :
    s.room start stop id = limitRoom start stop c.limit := by
  unfold room
  rw [here]

private theorem room_congr {start stop id : ℕ} {s s' : Studio} (connection : s'.connection id = s.connection id)
    (next : s'.overlays.next = s.overlays.next) : s'.room start stop id = s.room start stop id := by
  unfold room
  rw [connection, next]

private theorem hear_room {start stop now id : ℕ} (text : Bytes) {c : Connection}
    (listens : (s.connection id).filter (fun c => !c.waiting) = some c) (late : start ≤ now) (early : now < stop) :
    (c.limit.allow now).2.toNat + (s.hear read now id text c).room start stop id ≤ s.room start stop id := by
  have counted : ∃ c' : Connection, (s.hear read now id text c).connection id = some c' ∧
      c'.limit = (c.limit.allow now).1 := by
    rcases hear_cases read now text listens with ⟨-, same⟩ | ⟨active, -, same⟩ | ⟨change, -, -, same⟩
    all_goals
      rw [same]
      exact ⟨_, connection_self .., rfl⟩
  obtain ⟨c', there, limit⟩ := counted
  rw [room_some there, room_some (Option.filter_eq_some_iff.mp listens).1, limit]
  exact allow_room c.limit late early

private theorem hear_elsewhere {start stop now id other : ℕ} (text : Bytes) {c : Connection}
    (listens : (s.connection id).filter (fun c => !c.waiting) = some c) (elsewhere : other ≠ id) :
    (s.hear read now id text c).room start stop other = s.room start stop other := by
  rcases hear_cases read now text listens with ⟨-, same⟩ | ⟨active, -, same⟩ | ⟨change, -, -, same⟩
  all_goals
    rw [same]
    exact room_congr (connection_other elsewhere ..) rfl

private theorem answer_room (start stop id : ℕ) (page : Option ℕ) (s : Studio) :
    (s.answer page).room start stop id = s.room start stop id := by
  cases page with
  | none => rfl
  | some other =>
    by_cases own : id = other
    · subst own
      cases here : s.connection id with
      | none =>
        refine room_congr ?_ rfl
        rw [answer, connection_self, here]
        rfl
      | some c =>
        rw [room_some here]
        refine room_some (c := { c with waiting := false }) ?_
        rw [answer, connection_self, here]
        rfl
    · exact room_congr (connection_other own ..) rfl

/-- What a page says counts against its room. -/
theorem step_room (read : Bytes → Option FromOverlay) {start stop : ℕ} {event : StudioEvent} (tracked : s.Tracked)
    (timed : ∀ t, event.now? = some t → start ≤ t ∧ t < stop) (id : ℕ) :
    (s.letsThrough id event).toNat + (s.step read event).1.room start stop id ≤ s.room start stop id := by
  have silent {s' : Studio} (same : s'.room start stop id = s.room start stop id) :
      false.toNat + s'.room start stop id ≤ s.room start stop id := by
    rw [same]
    exact Nat.le_of_eq (Nat.zero_add _)
  cases event with
  | join now =>
    obtain ⟨late, early⟩ := timed now rfl
    by_cases own : id = s.overlays.next
    · subst own
      have second := SEC_pos
      have one : (stop + SEC - 1 - max (now + SEC) start) / SEC + 1 ≤ (stop + SEC - 1 - start) / SEC :=
        rounds (by omega)
      have before : s.room start stop s.overlays.next =
          OVERLAY_MESSAGES_PER_SECOND * ((stop + SEC - 1 - start) / SEC) := by
        unfold room
        rw [tracked.unused]
        exact if_neg (lt_irrefl _)
      have later : (s.step read (.join now)).1.room start stop s.overlays.next =
          limitRoom start stop (.new now) := room_some (connection_self ..)
      have quiet : (s.letsThrough s.overlays.next (.join now)).toNat = 0 := rfl
      rw [before, later, quiet, Nat.zero_add]
      unfold limitRoom RateLimit.new OVERLAY_MESSAGES_PER_SECOND
      dsimp only
      omega
    · refine silent ?_
      unfold room
      rw [show (s.step read (.join now)).1.connection id = s.connection id from connection_other own ..]
      cases s.connection id with
      | some c => rfl
      | none =>
        show (if id < s.overlays.next + 1 then _ else _) = _
        have same : (id < s.overlays.next + 1) = (id < s.overlays.next) := propext (by omega)
        simp only [same]
  | say now other text =>
    obtain ⟨late, early⟩ := timed now rfl
    dsimp only [Studio.step]
    split
    · next deaf =>
      rw [letsThrough_unheard deaf]
      exact silent rfl
    · next c listens =>
      by_cases own : other = id
      · subst own
        rw [letsThrough_own listens]
        exact hear_room text listens late early
      · rw [letsThrough_other own]
        exact silent (hear_elsewhere text listens (Ne.symm own))
  | leave other =>
    dsimp only [letsThrough, Studio.step]
    split
    · exact silent (room_congr rfl rfl)
    · next c found =>
      by_cases own : id = other
      · subst own
        have here := (Option.filter_eq_some_iff.mp found).1
        have gone : room start stop id
            ({ s with overlays := s.overlays.leave id }.withConnection id none : Studio) = 0 := by
          unfold room
          rw [connection_self]
          exact if_pos (tracked.fresh id (tracked.known here))
        rw [gone]
        exact Nat.zero_le _
      · exact silent (room_congr (connection_other own ..) rfl)
  | deliver now =>
    dsimp only [letsThrough, Studio.step]
    split
    · exact silent (room_congr rfl rfl)
    · exact silent (answer_room ..)
  | sendDump index =>
    dsimp only [letsThrough, Studio.step]
    split
    · exact silent (room_congr rfl rfl)
    · exact silent (room_congr rfl rfl)
  | request | askDump | other => exact silent (room_congr rfl rfl)

/-- How many messages of page `id` are let through. -/
def passed (read : Bytes → Option FromOverlay) (id : ℕ) : Studio → List StudioEvent → ℕ
  | _, [] => 0
  | s, event :: rest => (s.letsThrough id event).toNat + passed read id (s.step read event).1 rest

private theorem passed_room {start stop : ℕ} {events : List StudioEvent} (tracked : s.Tracked)
    (timed : ∀ event ∈ events, ∀ t, event.now? = some t → start ≤ t ∧ t < stop) (id : ℕ) :
    s.passed read id events ≤ s.room start stop id := by
  induction events generalizing s with
  | nil => exact Nat.zero_le _
  | cons event rest ih =>
    have first := step_room read tracked (timed event (List.mem_cons_self ..)) id
    have later := ih (tracked.step read event) fun e member => timed e (List.mem_cons_of_mem _ member)
    exact Nat.le_trans (Nat.add_le_add_left later _) first

private theorem room_seconds (start n id : ℕ) (s : Studio) :
    s.room start (start + n * SEC) id ≤ OVERLAY_MESSAGES_PER_SECOND * (n + 1) := by
  unfold room
  split
  · unfold limitRoom OVERLAY_MESSAGES_PER_SECOND SEC
    omega
  · split
    · exact Nat.zero_le _
    · unfold OVERLAY_MESSAGES_PER_SECOND SEC
      omega

theorem Tracked.counted (tracked : s.Tracked) (said : ℕ → Option Bool) (known : ∀ id, s.Known id (said id)) :
    ∃ pages : Finset ℕ, (∀ id, id ∈ pages ↔ (s.connection id).isSome = true) ∧
      s.overlays.counts.count = pages.card ∧
      s.overlays.counts.active = {id ∈ pages | said id = some true}.card := by
  have nodup := s.overlays.pages.keys_nodup
  refine ⟨s.overlays.pages.keys.toFinset, fun id => ?_, ?_, ?_⟩
  · rw [List.mem_toFinset, ← AList.mem_keys]
    exact tracked.joined id
  · rw [tracked.exact, List.toFinset_card_of_nodup nodup]
    exact (List.length_map ..).symm
  · let onStream (id : ℕ) : Bool := said id = some true
    have kept : {id ∈ s.overlays.pages.keys.toFinset | said id = some true} =
        (s.overlays.pages.keys.filter onStream).toFinset := by
      ext id
      rw [Finset.mem_filter, List.mem_toFinset, List.mem_toFinset, List.mem_filter, decide_eq_true_iff]
    rw [tracked.exact, kept, List.toFinset_card_of_nodup (nodup.filter _), ← List.countP_eq_length_filter]
    show _ = List.countP _ (s.overlays.pages.entries.map Sigma.fst)
    rw [List.countP_map]
    refine List.countP_congr fun page member => ?_
    have here : page.1 ∈ s.overlays.pages := AList.mem_keys.mpr (List.mem_map_of_mem member)
    have stored : s.overlays.pages.lookup page.1 = some page.2 := AList.mem_lookup_iff.mpr member
    have same : page.2 = said page.1 :=
      Option.some.inj (stored.symm.trans ((known page.1).told ((tracked.joined _).mp here)))
    show decide (page.2 = some true) = true ↔ decide (said page.1 = some true) = true
    rw [same]

/-- In every run: the pages counted are those connected, and of them those that last said that OBS put them on stream;
a page has at most one confirmation on the way to the core; and in a stretch of `n` seconds at most `n + 1` times as
many of its messages are let through as in one. -/
theorem pages_counted (read : Bytes → Option FromOverlay) (core : Core) (before during : List StudioEvent)
    (start n id : ℕ)
    (timed : ∀ event ∈ during, ∀ t, event.now? = some t → start ≤ t ∧ t < start + n * SEC) :
    let s := (new core).after read before
    (∃ pages : Finset ℕ, (∀ id, id ∈ pages ↔ (s.connection id).isSome = true) ∧
        s.overlays.counts.count = pages.card ∧
        s.overlays.counts.active = {id ∈ pages | heard read core id before = some true}.card) ∧
      s.control.countP (fun sending => sending.page = some id) ≤ 1 ∧
      s.passed read id during ≤ OVERLAY_MESSAGES_PER_SECOND * (n + 1) := by
  intro s
  have tracked : s.Tracked := .after ..
  have pages := tracked.counted (fun id => heard read core id before) fun id => known read core id before
  refine ⟨pages, ?_, Nat.le_trans (passed_room tracked timed id) (room_seconds ..)⟩
  rw [tracked.waits id]
  split
  · exact Nat.le_refl _
  · exact Nat.zero_le _

/-- A page that talks too much in the second after it connects. -/
def chatter : List StudioEvent := (List.range 12).map fun t => .say t 0 []

theorem pages_counted_chatter :
    let s := (new (.new {} 0 false)).after (fun _ => none) [.join 0]
    s.passed (fun _ => none) 0 chatter = 10 ∧ s.passed (fun _ => none) 0 chatter ≤ 20 := by
  have timed : ∀ event ∈ chatter, ∀ t, event.now? = some t → 0 ≤ t ∧ t < 0 + 1 * SEC := by
    intro event member t own
    obtain ⟨t', range, rfl⟩ := List.mem_map.mp member
    obtain rfl := Option.some.inj own
    have early := List.mem_range.mp range
    unfold SEC
    omega
  exact ⟨by decide +kernel, (pages_counted (fun _ => none) (.new {} 0 false) [.join 0] chatter 0 1 0 timed).2.2⟩

/-! ## Where confirmations and covers come from -/

variable {core : Core} {events : List StudioEvent}

/-- A connected page, which had not last said that it is off stream, said that it shows the slate for the change. -/
def Said (read : Bytes → Option FromOverlay) (core : Core) (events : List StudioEvent) (id change : ℕ) : Prop :=
  Sometime (fun before event =>
    let s := (new core).after read before
    (s.connection id).isSome = true ∧ s.utters read id event = some (.slateShown change) ∧
      heard read core id before ≠ some false) events

/-- A dump was asked for while a connected page had last said that OBS put it on stream, or by a caller that took it
on. -/
def CoverTaken (read : Bytes → Option FromOverlay) (core : Core) (events : List StudioEvent) : Prop :=
  Sometime (fun before event => ∃ mode allowUncovered, event = .askDump mode allowUncovered ∧
    (allowUncovered = true ∨ ∃ id, (((new core).after read before).connection id).isSome = true ∧
      heard read core id before = some true)) events

/-- What a page said of a change reached the core at `t`, while the slate was up for it. -/
def Vouched (read : Bytes → Option FromOverlay) (core : Core) (events : List StudioEvent) (change t : ℕ) : Prop :=
  Sometime (fun before event =>
    let s := (new core).after read before
    event = .deliver t ∧ s.core.engine.out.slateChange = change ∧ s.core.engine.out.maskVisible = true ∧
      ∃ id, s.control.head? = some ⟨some id, .slateShown change⟩ ∧ Said read core before id change) events

/-- A command on the way comes from where it may. -/
structure Sourced (read : Bytes → Option FromOverlay) (core : Core) (events : List StudioEvent)
    (sending : Sending) : Prop where
  shown : ∀ change, sending.command = .slateShown change →
    ∃ id, sending.page = some id ∧ Said read core events id change
  dump : ∀ mode, sending.command = .dump mode true → CoverTaken read core events

/-- The same of the core: the slate is up, confirmed and put up for a dump only where it may be. -/
structure Answerable (read : Bytes → Option FromOverlay) (start : Core) (events : List StudioEvent) (c : Core) :
    Prop where
  layout : c.engine.Layout
  up : c.engine.out.SlateUp
  confirmed : ∀ t, c.engine.out.pending.shownAt = some t → Vouched read start events c.engine.out.slateChange t
  covered : c.engine.out.pending.coversDump = true → CoverTaken read start events
  backed : c.engine.out.pending.Backed
  dump : ∀ pending, c.dump = some pending → pending.cover = true → CoverTaken read start events

theorem Sourced.later {sending : Sending} (sourced : Sourced read core events sending) (event : StudioEvent) :
    Sourced read core (events ++ [event]) sending where
  shown := by
    intro change own
    obtain ⟨id, page, said⟩ := sourced.shown change own
    exact ⟨id, page, said.append [event]⟩
  dump := fun mode own => (sourced.dump mode own).append [event]

theorem Answerable.later {c : Core} (answerable : Answerable read core events c) (event : StudioEvent) :
    Answerable read core (events ++ [event]) c where
  layout := answerable.layout
  up := answerable.up
  confirmed := fun t shown => (answerable.confirmed t shown).append [event]
  covered := fun dump => (answerable.covered dump).append [event]
  backed := answerable.backed
  dump := fun pending waits cover => (answerable.dump pending waits cover).append [event]

/-- An event of the core that comes from where it may. -/
theorem Answerable.step {c : Core} {event : StudioEvent} {inner : CoreEvent}
    (answerable : Answerable read core events c)
    (shown : ∀ t, inner = .command t (.slateShown c.engine.out.slateChange) → c.engine.out.maskVisible = true →
      Vouched read core (events ++ [event]) c.engine.out.slateChange t)
    (dump : ∀ now mode, inner = .command now (.dump mode true) → CoverTaken read core (events ++ [event])) :
    Answerable read core (events ++ [event]) (c.step inner).1 := by
  have driven := c.step_driven inner
  have later := answerable.later event
  have waiting : ∀ pending, (c.step inner).1.dump = some pending → pending.cover = true →
      CoverTaken read core (events ++ [event]) := by
    intro pending waits cover
    rcases c.step_dump inner waits with before | ⟨now, own⟩
    · exact later.dump pending before cover
    · exact dump now pending.mode (cover ▸ own)
  have covers (asked : c.Covers inner) : CoverTaken read core (events ++ [event]) := by
    rcases asked with ⟨now, mode, own⟩ | ⟨pending, waits, cover⟩
    · exact dump now mode own
    · exact later.dump pending waits cover
  refine ⟨driven.layout answerable.layout, ?_, fun t counted => ?_, fun under => ?_, ?_, waiting⟩
  all_goals cases driven.slate answerable.layout with
    | kept same => ?_
    | raised cover asked up => ?_
    | confirmed now own confirms => ?_
  · exact same.visible answerable.up
  · exact up.visible
  · exact confirms.visible answerable.up
  · rw [same.change]
    exact later.confirmed t (same.shown t counted)
  · rw [up.unconfirmed] at counted
    contradiction
  · rw [confirms.change]
    rcases confirms.shown t counted with earlier | ⟨rfl, open_⟩
    · exact later.confirmed t earlier
    · exact shown t own (answerable.up.trans open_)
  · exact later.covered (same.dump under)
  · exact covers (asked (up.dump under))
  · exact later.covered (confirms.dump under)
  · exact same.backed answerable.backed
  · exact up.backed
  · exact confirms.backed answerable.backed

/-- What holds of the control server and the core after a run. -/
structure Accounted (read : Bytes → Option FromOverlay) (core : Core) (events : List StudioEvent) (s : Studio) :
    Prop where
  control : ∀ sending ∈ s.control, Sourced read core events sending
  dumps : ∀ dump ∈ s.dumps, dump.cover = true → CoverTaken read core events
  core : Answerable read core events s.core

namespace Accounted

variable {s : Studio}

theorem later (accounted : Accounted read core events s) (event : StudioEvent) :
    Accounted read core (events ++ [event]) s where
  control := fun sending queued => (accounted.control sending queued).later event
  dumps := fun dump asked cover => (accounted.dumps dump asked cover).append [event]
  core := accounted.core.later event

/-- A command is given to the relay. -/
theorem send (accounted : Accounted read core events s) {page : Option ℕ} {command : Command}
    (sourced : Sourced read core events ⟨page, command⟩) : Accounted read core events (s.send page command) where
  control := by
    intro sending queued
    rcases List.mem_append.mp queued with old | own
    · exact accounted.control sending old
    · exact List.mem_singleton.mp own ▸ sourced
  dumps := accounted.dumps
  core := accounted.core

theorem request (asked : Request) : Sourced read core events ⟨none, asked.command⟩ := by
  constructor
  · intro change own
    cases asked <;> contradiction
  · intro mode own
    cases asked <;> contradiction

theorem said {before : List StudioEvent} {now id change : ℕ} {text : Bytes}
    (here : (((new core).after read before).connection id).isSome = true)
    (told : ((new core).after read before).utters read id (.say now id text) = some (.slateShown change))
    (may : ((new core).after read before).overlays.mayConfirm id = true) :
    Said read core (before ++ [.say now id text]) id change := by
  refine .last ⟨here, told, fun off => ?_⟩
  exact of_decide_eq_true may (off ▸ (known read core id before).told here)

private theorem coverTaken {before : List StudioEvent} {mode : DelayMode} {allowUncovered : Bool}
    (tracked : ((new core).after read before).Tracked)
    (covered : ((new core).after read before).covered allowUncovered = true) :
    CoverTaken read core (before ++ [.askDump mode allowUncovered]) := by
  refine .last ⟨mode, allowUncovered, rfl, ?_⟩
  refine (Bool.or_eq_true_iff.mp covered).imp id fun active => ?_
  have active := of_decide_eq_true active
  rw [tracked.exact] at active
  obtain ⟨⟨id, said⟩, member, on⟩ := List.countP_pos_iff.mp active
  have here := (tracked.joined id).mp (AList.mem_keys.mpr (List.mem_map_of_mem (f := Sigma.fst) member))
  have stored := (known read core id before).told here
  refine ⟨id, here, ?_⟩
  rw [← Option.some.inj ((AList.mem_lookup_iff.mpr member).symm.trans stored)]
  exact of_decide_eq_true on

theorem step (tracked : s.Tracked) (reached : s = (new core).after read events)
    (accounted : Accounted read core events s) (event : StudioEvent) :
    Accounted read core (events ++ [event]) (s.step read event).1 := by
  have later := accounted.later event
  cases event with
  | join => exact ⟨later.control, later.dumps, later.core⟩
  | say now id text =>
    dsimp only [Studio.step]
    split
    · exact later
    · next c found =>
      have here : (s.connection id).isSome = true := by
        rw [(Option.filter_eq_some_iff.mp found).1]
        rfl
      rcases hear_cases read now text found with ⟨-, same⟩ | ⟨active, -, same⟩ | ⟨change, told, may, same⟩
      · rw [same]
        exact ⟨later.control, later.dumps, later.core⟩
      · rw [same]
        exact ⟨later.control, later.dumps, later.core⟩
      · rw [same]
        have said : Said read core (events ++ [.say now id text]) id change := by
          subst reached
          exact said here told may
        have own : Sourced read core (events ++ [.say now id text]) ⟨some id, .slateShown change⟩ := by
          refine ⟨fun other own => ?_, fun _ own => by contradiction⟩
          obtain rfl := Command.slateShown.inj own
          exact ⟨id, rfl, said⟩
        have sent := later.send own
        exact ⟨sent.control, sent.dumps, sent.core⟩
  | leave id =>
    dsimp only [Studio.step]
    split
    · exact later
    · exact ⟨later.control, later.dumps, later.core⟩
  | request asked => exact later.send (request asked)
  | askDump mode allowUncovered =>
    refine ⟨later.control, fun dump asked cover => ?_, later.core⟩
    rcases List.mem_append.mp asked with old | own
    · exact later.dumps dump old cover
    · obtain rfl := List.mem_singleton.mp own
      subst reached
      exact coverTaken tracked cover
  | sendDump index =>
    dsimp only [Studio.step]
    split
    · exact later
    · next dump found =>
      have taken := later.dumps dump (List.mem_of_getElem? found)
      have rest : Accounted read core (events ++ [.sendDump index]) { s with dumps := s.dumps.eraseIdx index } :=
        ⟨later.control, fun d asked => later.dumps d (List.mem_of_mem_eraseIdx asked), later.core⟩
      refine rest.send ⟨fun _ own => by contradiction, fun mode own => ?_⟩
      exact taken (Command.dump.inj own).2
  | deliver now =>
    dsimp only [Studio.step]
    split
    · exact later
    · next sending rest queue =>
      have own := accounted.control sending (queue ▸ List.mem_cons_self ..)
      have answered : Answerable read core (events ++ [.deliver now])
          (s.core.step (.command now sending.command)).1 := by
        refine accounted.core.step (fun t same visible => ?_) fun t mode same => ?_
        · obtain ⟨rfl, told⟩ := CoreEvent.command.inj same
          obtain ⟨id, page, said⟩ := own.shown _ told
          subst reached
          refine .last ⟨rfl, rfl, visible, id, ?_, said⟩
          rw [queue, List.head?_cons, ← page, ← told]
        · exact (own.dump mode (CoreEvent.command.inj same).2).append _
      have queued : ∀ sending ∈ rest, Sourced read core (events ++ [.deliver now]) sending :=
        fun x member => later.control x (queue ▸ List.mem_cons_of_mem _ member)
      cases sending.page with
      | none => exact ⟨queued, later.dumps, answered⟩
      | some id => exact ⟨queued, later.dumps, answered⟩
  | other inner =>
    refine ⟨later.control, later.dumps, ?_⟩
    have plain (now : ℕ) (cmd : Command) (same : inner.1 = .command now cmd) : False := by
      have not := inner.2
      rw [same] at not
      contradiction
    exact accounted.core.step (fun t same => (plain t _ same).elim) fun t _ same => (plain t _ same).elim

end Accounted

theorem accounted (read : Bytes → Option FromOverlay) (config : EngineConfig) (grace : ℕ) (destination : Bool)
    (events : List StudioEvent) :
    Accounted read (.new config grace destination) events
      ((new (.new config grace destination)).after read events) := by
  induction events using List.reverseRecOn with
  | nil =>
    refine ⟨fun _ none => by contradiction, fun _ none => by contradiction, ?_⟩
    have start := (Engine.Sound.reached config []).layout
    exact ⟨start, rfl, fun _ none => by contradiction, fun none => by contradiction, trivial,
      fun _ none => by contradiction⟩
  | append_singleton events event ih =>
    have next : (new (.new config grace destination)).after read (events ++ [event]) =
        (((new (.new config grace destination)).after read events).step read event).1 := Machine.after_append ..
    rw [next]
    exact ih.step (.after ..) rfl event

private theorem step_media {s : Studio} {event : StudioEvent} {m : Sent} (passed : .media m ∈ (s.step read event).2) :
    ∃ op, m ∈ (s.core.engine.step op).2 := by
  cases event with
  | say | leave | sendDump =>
    dsimp only [Studio.step] at passed
    split at passed
    all_goals contradiction
  | deliver =>
    dsimp only [Studio.step] at passed
    split at passed
    · contradiction
    · exact Core.step_media passed
  | other => exact Core.step_media passed
  | join | request | askDump => contradiction

/-- In every run of the control server and the core, however requests, messages, deliveries and media interleave: a
pending change that counts as confirmed at `t` is one that a page said it shows the slate for, connected and not last
heard to be off stream, in a message that reached the core at `t` while the slate was up for that very change. And a
slate over a dump means that a dump was asked for while a connected page was last heard to be on stream, or with the
caller's word for it; until the change is so confirmed, nothing is sent under it but the frame that is held, and the
headers this frame needs. -/
theorem slate_vouched (read : Bytes → Option FromOverlay) (config : EngineConfig) (grace : ℕ) (destination : Bool)
    (events : List StudioEvent) :
    let core := Core.new config grace destination
    let s := (new core).after read events
    let out := s.core.engine.out
    (∀ t, out.pending.shownAt = some t → Vouched read core events out.slateChange t) ∧
      (out.pending.coversDump = true → CoverTaken read core events ∧
        (out.pending.shownAt = none → ∀ event m, .media m ∈ (s.step read event).2 → m.masked = true →
          ∃ h, out.hold = some h ∧ h.Shows m)) := by
  intro core s out
  have answerable := (accounted read config grace destination events).core
  refine ⟨answerable.confirmed, fun under => ⟨answerable.covered under, fun open_ event m passed masked => ?_⟩⟩
  obtain ⟨op, sent⟩ := step_media passed
  rcases Engine.step_heldOrShown answerable.layout answerable.up answerable.backed op m sent masked under with
    held | confirmed
  · exact held
  · rw [show s.core.engine.out.pending.shownAt = none from open_] at confirmed
    contradiction

end Control.Studio

end StreamDelay
