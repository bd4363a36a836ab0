import Mathlib.Data.List.Induction
import Mathlib.Tactic.Common
import StreamDelay.Proofs.Coherent

/-! # What the overlay confirms is the slate that is up

The engine numbers each change that the slate covers, and an overlay confirms a number. In every run the slate is up
exactly while such a change is pending, every time it goes up it has a new number, and a pending change counts as
confirmed only after a confirmation of its own number that came while it was up.
-/

namespace StreamDelay

open Flv (Bytes)
open Foundations

/-- When an overlay confirmed that the slate shows for the change. -/
def Pending.shownAt : Pending → Option ℕ
  | mask m => m.shown
  | dump _ _ _ shown => shown
  | _ => Option.none

private theorem Pending.shownAt_open {p : Pending} (uncovered : p.covers = false) : p.shownAt = Option.none := by
  cases p with
  | mask => contradiction
  | dump => contradiction
  | _ => rfl

/-- The slate covers a dump: the stretch after it waits for the slate, or airs under it. -/
def Pending.coversDump : Pending → Bool
  | mask m => m.dump
  | dump .. => true
  | _ => false

/-- What airs under the slate after a dump airs only once the slate is confirmed. -/
def Pending.Backed : Pending → Prop
  | mask m => m.dump = true → m.shown.isSome = true
  | _ => True

private theorem Pending.coversDump_open {p : Pending} (uncovered : p.covers = false) : p.coversDump = false := by
  cases p with
  | mask => contradiction
  | dump => contradiction
  | _ => rfl

private theorem Pending.backed_open {p : Pending} (uncovered : p.covers = false) : p.Backed := by
  cases p with
  | mask => contradiction
  | _ => exact trivial

private theorem Pending.airs_backed {p : Pending} (backed : p.Backed) (dump : p.coversDump = true)
    (airs : p.holding = false) : p.shownAt.isSome = true := by
  cases p with
  | mask m => exact backed dump
  | _ => contradiction

/-- It is the held frame, or one of the headers that the frame needs. -/
def HoldFrame.Shows (h : HoldFrame) (s : Sent) : Prop :=
  s.origin = .held h.entry h.cts ∧ s.msg.payload = h.payload ∨
    s.origin = .metadata ∧ h.headers.metadata = some s.msg.payload ∨
      ∃ class_, s.origin = .config class_ ∧ (s.msg.kind, class_, s.msg.payload) ∈ h.headers.config

/-- A command, or a dump that had to wait. -/
def Op.control : Op → Bool
  | command .. | dumpAfter .. => true
  | _ => false

/-- A dump that the slate is to cover. -/
def Op.covers : Op → Bool
  | command _ (.dump _ cover) | dumpAfter _ _ _ cover => cover
  | _ => false

/-- The slate is up exactly while a change it covers is pending. -/
def Output.SlateUp (o : Output) : Prop := o.maskVisible = o.pending.covers

/-- The slate does not go up, and no confirmation comes. -/
structure SlateKept (o o' : Output) : Prop where
  change : o'.slateChange = o.slateChange
  visible : o.SlateUp → o'.SlateUp
  covers : o'.pending.covers = true → o.pending.covers = true
  shown : ∀ t, o'.pending.shownAt = some t → o.pending.shownAt = some t
  dump : o'.pending.coversDump = true → o.pending.coversDump = true
  still : o'.pending.covers = true → o.pending.coversDump = true → o'.pending.coversDump = true
  backed : o.pending.Backed → o'.pending.Backed

/-- The slate goes up for a new change; to cover a dump, where `cover` is asked for. -/
structure SlateRaised (cover : Bool) (o o' : Output) : Prop where
  change : o'.slateChange = o.slateChange + 1
  visible : o'.SlateUp
  unconfirmed : o'.pending.shownAt = none
  dump : o'.pending.coversDump = true → cover = true
  backed : o'.pending.Backed

/-- The change that is up may be confirmed at `now`. -/
structure SlateConfirmed (now : ℕ) (o o' : Output) : Prop where
  change : o'.slateChange = o.slateChange
  visible : o.SlateUp → o'.SlateUp
  covers : o'.pending.covers = true → o.pending.covers = true
  shown : ∀ t, o'.pending.shownAt = some t → o.pending.shownAt = some t ∨ t = now ∧ o.pending.covers = true
  dump : o'.pending.coversDump = true → o.pending.coversDump = true
  backed : o.pending.Backed → o'.pending.Backed

namespace SlateKept

variable {o mid o' : Output}

theorem refl (o : Output) : SlateKept o o := ⟨rfl, id, id, fun _ => id, id, fun _ => id, id⟩

theorem trans (first : SlateKept o mid) (second : SlateKept mid o') : SlateKept o o' where
  change := second.change.trans first.change
  visible := second.visible ∘ first.visible
  covers := first.covers ∘ second.covers
  shown := fun t => first.shown t ∘ second.shown t
  dump := first.dump ∘ second.dump
  still := fun up under => second.still up (first.still (second.covers up) under)
  backed := second.backed ∘ first.backed

/-- What is pending is the same. -/
theorem same (pending : o'.pending = o.pending) (visible : o'.maskVisible = o.maskVisible)
    (change : o'.slateChange = o.slateChange) : SlateKept o o' where
  change := change
  visible := by
    intro up
    unfold Output.SlateUp
    rw [visible, pending]
    exact up
  covers := by
    rw [pending]
    exact id
  shown := by
    rw [pending]
    exact fun _ => id
  dump := by
    rw [pending]
    exact id
  still := by
    rw [pending]
    exact fun _ => id
  backed := by
    rw [pending]
    exact id

/-- Another stage of the same change is pending. -/
theorem stage {p : Pending} (covers : p.covers = o.pending.covers) (shown : p.shownAt = o.pending.shownAt)
    (dump : p.coversDump = o.pending.coversDump) (backed : o.pending.Backed → p.Backed) :
    SlateKept o { o with pending := p } where
  change := rfl
  visible := fun up => up.trans covers.symm
  covers := covers.symm.trans
  shown := fun _ later => shown.symm.trans later
  dump := dump.symm.trans
  still := fun _ under => dump.trans under
  backed := backed

end SlateKept

theorem SlateRaised.kept {cover : Bool} {o mid o' : Output} (raised : SlateRaised cover o mid)
    (kept : SlateKept mid o') : SlateRaised cover o o' where
  change := kept.change.trans raised.change
  visible := kept.visible raised.visible
  unconfirmed := by
    refine Option.eq_none_iff_forall_ne_some.mpr fun t later => ?_
    have earlier := kept.shown t later
    rw [raised.unconfirmed] at earlier
    contradiction
  dump := raised.dump ∘ kept.dump
  backed := kept.backed raised.backed

theorem SlateKept.raised {cover : Bool} {o mid o' : Output} (kept : SlateKept o mid)
    (raised : SlateRaised cover mid o') : SlateRaised cover o o' :=
  { raised with change := raised.change.trans (congrArg (· + 1) kept.change) }

theorem SlateConfirmed.kept {now : ℕ} {o mid o' : Output} (confirmed : SlateConfirmed now o mid)
    (kept : SlateKept mid o') : SlateConfirmed now o o' where
  change := kept.change.trans confirmed.change
  visible := kept.visible ∘ confirmed.visible
  covers := confirmed.covers ∘ kept.covers
  shown := fun t later => confirmed.shown t (kept.shown t later)
  dump := confirmed.dump ∘ kept.dump
  backed := kept.backed ∘ confirmed.backed

namespace Engine

variable {e e' : Engine} {now : ℕ}

private theorem setPending_slate {p : Pending} (uncovered : p.covers = false) :
    SlateKept e.out (e.setPending p).out where
  change := rfl
  visible := by
    intro up
    show (if e.out.pending.covers then false else e.out.maskVisible) = p.covers
    rw [uncovered]
    split
    · rfl
    · next down => exact up.trans (eq_false_of_ne_true down)
  covers := by
    intro covers
    rw [show p.covers = true from covers] at uncovered
    contradiction
  shown := by
    intro t shown
    have none := Pending.shownAt_open uncovered
    rw [show p.shownAt = some t from shown] at none
    contradiction
  dump := by
    intro dump
    have none := Pending.coversDump_open uncovered
    rw [show p.coversDump = true from dump] at none
    contradiction
  still := by
    intro covers
    rw [show p.covers = true from covers] at uncovered
    contradiction
  backed := fun _ => Pending.backed_open uncovered

/-- The same after what does not touch the slate. -/
theorem setPending_after {o : Output} {p : Pending} (kept : SlateKept e.out o) (uncovered : p.covers = false) :
    SlateKept e.out ({ e with out := o }.setPending p).out :=
  kept.trans (setPending_slate (e := { e with out := o }) uncovered)

private theorem spliceTo_slate (k delay : ℕ) (e : Engine) : SlateKept e.out (e.spliceTo k delay).out :=
  .same (spliceTo_pending ..) (spliceTo_maskVisible ..) (spliceTo_slateChange ..)

private theorem endHold_slate (now : ℕ) (e : Engine) : SlateKept e.out (e.endHold now).out := by
  rw [endHold_out]
  exact .same rfl rfl rfl

private theorem backUnderMax_slate (e : Engine) : SlateKept e.out e.backUnderMax.out := by
  rcases e.backUnderMax_out with same | ⟨-, -, same⟩
  · rw [same]
    exact .refl _
  · rw [same]
    exact setPending_after (.same rfl rfl rfl) rfl

private theorem backToTarget_slate (e : Engine) : SlateKept e.out e.backToTarget.out := by
  rcases e.backToTarget_cases with same | ⟨-, -, same⟩
  · rw [same]
    exact .refl _
  · rw [same]
    refine setPending_slate ?_
    split <;> rfl

private theorem startAt_slate (now k arrival : ℕ) (e : Engine) : SlateKept e.out (e.startAt now k arrival).out := by
  have spliced := e.spliceTo_slate k (max e.out.delay (now - arrival))
  rcases e.startAt_cases now k arrival with same | ⟨-, -, -, same⟩ | ⟨-, -, same⟩
  · rw [same]
    exact spliced
  · rw [same]
    exact spliced.trans (setPending_slate rfl)
  · rw [same]
    exact spliced.trans (setPending_after (.same rfl rfl rfl) rfl)

/-! ## Moves of the output -/

/-- A change the slate does not cover is replaced by another, or ends. -/
theorem finished_slate {p : Pending} (uncovered : e.out.pending.covers = false) (plain : p.covers = false) :
    SlateKept e.out (e.withPending p).out :=
  .stage (plain.trans uncovered.symm) ((Pending.shownAt_open plain).trans (Pending.shownAt_open uncovered).symm)
    ((Pending.coversDump_open plain).trans (Pending.coversDump_open uncovered).symm)
    fun _ => Pending.backed_open plain

theorem Move.slate {sent : List Sent} (move : Move now e e' sent) : SlateKept e.out e'.out := by
  cases move with
  | liveSplice pending | reduceSplice pending | replayDone pending =>
    refine (spliceTo_slate _ _ e).trans (finished_slate ?_ rfl)
    rw [spliceTo_pending, pending]
    rfl
  | liveEdge pending =>
    have lowered : SlateKept e.out { e.out with delay := min e.out.delay e.out.target } := .same rfl rfl rfl
    refine lowered.trans (finished_slate (e := { e with out := _ }) ?_ rfl)
    show e.out.pending.covers = false
    rw [pending]
    rfl
  | airedMark pending | reduceDone pending =>
    refine finished_slate ?_ rfl
    rw [pending]
    rfl
  | unconfirmed => exact .same rfl rfl rfl
  | anchored pending =>
    refine .stage ?_ ?_ ?_ ?_
    · rw [pending]
      rfl
    · rw [pending]
      rfl
    · rw [pending]
      rfl
    · rw [pending]
      exact id
  | maskGone => exact setPending_slate rfl
  | maskDone => exact (spliceTo_slate _ _ e).trans (setPending_slate rfl)
  | coverLost => exact setPending_after (.same rfl rfl rfl) rfl
  | @covered _ _ a _ _ pending _ _ spliced =>
    subst spliced
    have same : ((e.endHold now).spliceTo a (now - e.arrivalOr a now)).out.pending = e.out.pending := by
      rw [spliceTo_pending, endHold_out]
    refine ((endHold_slate now e).trans (spliceTo_slate ..)).trans (.stage ?_ ?_ ?_ ?_)
    · rw [same, pending]
      rfl
    · rw [same, pending]
      rfl
    · rw [same, pending]
      rfl
    · exact fun _ _ => rfl
  | holdEnded pending =>
    have finished : SlateKept e.out (e.withPending .none).out := by
      refine finished_slate ?_ rfl
      rw [pending]
      rfl
    exact finished.trans (.same rfl rfl rfl)
  | @holdDone _ _ k pending _ _ _ spliced =>
    subst spliced
    have same : ((e.endHold now).spliceTo k (now - e.arrivalOr k now)).out.pending = e.out.pending := by
      rw [spliceTo_pending, endHold_out]
    refine (((endHold_slate now e).trans (spliceTo_slate ..)).trans (finished_slate ?_ rfl)).trans (.same rfl rfl rfl)
    rw [same, pending]
    rfl
  | @heldFrame h =>
    have course := showFrame_course e now h
    exact .same course.pending course.maskVisible (course.out (·.slateChange))
  | @replayHeld fromSeq delay =>
    have held : SlateKept e.out (e.setPending (.hold fromSeq delay)).out := setPending_slate rfl
    exact held.trans (.same rfl rfl rfl)
  | started => exact startAt_slate ..
  | sent =>
    have course := sendEntry_course e
    exact .same course.pending course.maskVisible (course.out (·.slateChange))
  | caughtUp | newSession | sessionSkipped | markSkipped | silenced => exact .same rfl rfl rfl

theorem Moves.slate {sent : List Sent} (moves : Moves now e e' sent) : SlateKept e.out e'.out :=
  Steps.relates (T := fun e e' => SlateKept e.out e'.out) (fun e => .refl e.out) (fun _ _ _ => .trans)
    (fun _ _ _ move => move.slate) moves

private theorem runPending_slate (now : ℕ) (e : Engine) : SlateKept e.out (e.runPending now).out :=
  (runPending_moves now e).slate

/-! ## Connections and the buffer -/

private theorem dropBuffer_slate (e : Engine) : SlateKept e.out e.dropBuffer.out := by
  rw [dropBuffer_out]
  exact .same rfl rfl rfl

private theorem resumeAfter_slate (last : Option ℕ) (e : Engine) : SlateKept e.out (e.resumeAfter last).out := by
  unfold resumeAfter
  split
  · exact .refl _
  · exact .same rfl rfl rfl

private theorem unsend_slate (taken : Option ℕ) (e : Engine) : SlateKept e.out (e.unsend taken).out := by
  unfold unsend
  split
  · exact .refl _
  · exact (resumeAfter_slate taken e).trans (.same rfl rfl rfl)

private theorem outputReset_slate (e : Engine) : SlateKept e.out e.outputReset.out := by
  have cleared : SlateKept e.out (e.setPending .none).out := setPending_slate rfl
  exact cleared.trans (.same rfl rfl rfl)

private theorem restartFrom_slate (now k : ℕ) (e : Engine) : SlateKept e.out (e.restartFrom now k).out := by
  unfold restartFrom
  dsimp only
  refine SlateKept.trans ?_ (backUnderMax_slate _)
  refine SlateKept.trans ?_ (spliceTo_slate ..)
  exact .same rfl rfl rfl

private theorem outputConnected_slate (now : ℕ) (e : Engine) : SlateKept e.out (e.outputConnected now).out := by
  have fresh : SlateKept e.out (e.freshConnection now).out := .same rfl rfl rfl
  unfold outputConnected
  dsimp only
  split
  · exact fresh.trans (.same rfl rfl rfl)
  · split
    · refine fresh.trans ?_
      unfold reconnect
      split
      · exact .same rfl rfl rfl
      · dsimp only
        split
        · exact (restartFrom_slate ..).trans (backToTarget_slate _)
        · exact restartFrom_slate ..
    · exact fresh

private theorem memoryShort_slate (now : ℕ) (e : Engine) : SlateKept e.out (e.memoryShort now).out := by
  have noted : SlateKept e.out { e.out with memoryShort := true } := .same rfl rfl rfl
  unfold memoryShort
  split
  · exact .refl _
  · dsimp only
    split
    · exact .same rfl rfl rfl
    · split
      · exact setPending_after noted rfl
      · exact noted

private theorem evict_slate (layout : e.Layout) (now : ℕ) : SlateKept e.out (e.evict now).out := by
  obtain ⟨n, mid, trimmed, same | same⟩ := evict_trimmed layout now
  · rw [same, trimmed.out]
    exact .refl _
  · rw [same, ← trimmed.out]
    exact memoryShort_slate now mid

/-! ## Commands -/

private theorem goLive_slate (when_ : GoLiveWhen) (e : Engine) : SlateKept e.out (e.goLive when_).out := by
  have targeted : SlateKept e.out (e.retarget 0).out := .same rfl rfl rfl
  unfold goLive
  dsimp only
  split
  · exact targeted.trans (setPending_after (.same rfl rfl rfl) rfl)
  · cases when_ with
    | now => exact targeted.trans (setPending_slate rfl)
    | afterAir => exact targeted.trans (setPending_slate rfl)

private theorem cancel_slate (e : Engine) : SlateKept e.out e.cancel.out := by
  unfold cancel
  split
  · exact .refl _
  · have cleared : SlateKept e.out (e.setPending .none).out := setPending_slate rfl
    dsimp only
    split
    · refine SlateKept.trans ?_ (backUnderMax_slate _)
      exact cleared.trans (.same rfl rfl rfl)
    · exact cleared.trans (.same rfl rfl rfl)

private theorem rewindTo_slate (now d k : ℕ) (known : Bool) (e : Engine) :
    SlateKept e.out (e.rewindTo now d k known).out := by
  unfold rewindTo
  dsimp only
  split
  · split
    · exact (spliceTo_slate ..).trans (setPending_slate rfl)
    · exact spliceTo_slate ..
  · exact .refl _

private theorem rewind_slate (now d : ℕ) (e : Engine) : SlateKept e.out (e.rewind now d).out := by
  have short : SlateKept e.out (e.noteShort now).out := .same rfl rfl rfl
  unfold rewind
  split
  · exact rewindTo_slate ..
  · split
    · exact short
    · exact short.trans (rewindTo_slate ..)

/-- A mask raises the slate, and nothing else of a new delay does. -/
theorem changeDelay_slate (now d : ℕ) (mode : DelayMode) (e : Engine) :
    SlateKept e.out (e.changeDelay now d mode).out ∨ SlateRaised false e.out (e.changeDelay now d mode).out := by
  have cleared : SlateKept e.out ((e.retarget d).setPending .none).out := setPending_after (.same rfl rfl rfl) rfl
  unfold changeDelay
  dsimp only
  split
  · exact .inl (cleared.trans (.same rfl rfl rfl))
  · split
    · exact .inl (cleared.trans (goLive_slate ..))
    · split
      · split
        · exact .inl (cleared.trans (rewind_slate ..))
        · exact .inr ⟨rfl, rfl, rfl, id, fun dump => by contradiction⟩
      · split
        · exact .inl (cleared.trans (setPending_slate rfl))
        · exact .inl cleared

private theorem withDumpDelay_slate {d : ℕ} {p q : Pending} (same : p.withDumpDelay d = some q) :
    q.covers = p.covers ∧ q.shownAt = p.shownAt ∧ q.coversDump = p.coversDump ∧ (p.Backed → q.Backed) := by
  cases p with
  | mask m =>
    unfold Pending.withDumpDelay at same
    dsimp only at same
    split at same
    · obtain rfl := Option.some.inj same
      exact ⟨rfl, rfl, rfl, id⟩
    · contradiction
  | dump | hold | replay =>
    obtain rfl := Option.some.inj same
    exact ⟨rfl, rfl, rfl, id⟩
  | none | goLiveNow | afterAir | reduce => contradiction

private theorem setDelay_slate (now ms : ℕ) (mode : DelayMode) (e : Engine) :
    SlateKept e.out (e.setDelay now ms mode).out ∨ SlateRaised false e.out (e.setDelay now ms mode).out := by
  unfold setDelay
  dsimp only
  split
  · next p changed =>
    split at changed
    · obtain ⟨covers, shown, dump, backed⟩ := withDumpDelay_slate changed
      have staged : SlateKept e.out (e.withPending p).out := .stage covers shown dump backed
      have adjusted : SlateKept e.out (e.setDumpDelay (ms * MS) p).out := staged.trans (.same rfl rfl rfl)
      exact .inl (adjusted.trans (runPending_slate ..))
    · contradiction
  · split
    · exact .inl (.refl _)
    · exact (changeDelay_slate ..).imp (fun kept => kept.trans (runPending_slate ..)) fun raised =>
        raised.kept (runPending_slate ..)

private theorem replayAt_slate (now delay k : ℕ) (e : Engine) : SlateKept e.out (e.replayAt now delay k).out := by
  unfold replayAt
  dsimp only
  refine SlateKept.trans ?_ (spliceTo_slate ..)
  refine SlateKept.trans ?_ (setPending_slate rfl)
  rw [splitSession_out]
  exact .same rfl rfl rfl

/-- A dump raises the slate where it is to cover it. -/
theorem holdInstead_slate (now delay : ℕ) (cover : Bool) (e : Engine) :
    SlateKept e.out (e.holdInstead now delay cover).1.out ∨
      SlateRaised cover e.out (e.holdInstead now delay cover).1.out := by
  unfold holdInstead
  dsimp only
  split
  · next covered =>
    refine .inr ⟨?_, rfl, rfl, fun _ => covered, trivial⟩
    show e.dropBuffer.out.slateChange + 1 = _
    rw [(dropBuffer_slate e).change]
  · have held : SlateKept e.dropBuffer.out (e.dropBuffer.setPending (.hold e.dropBuffer.nextSeq delay)).out :=
      setPending_slate rfl
    exact .inl (((dropBuffer_slate e).trans held).trans (.same rfl rfl rfl))

private theorem dump_slate (now : ℕ) (mode : DelayMode) (cover : Bool) (e : Engine) :
    SlateKept e.out (e.dump now mode cover).1.out ∨ SlateRaised cover e.out (e.dump now mode cover).1.out := by
  have targeted : SlateKept e.out (e.retarget e.dumpDelay).out := .same rfl rfl rfl
  rcases e.dump_cases now mode cover with ⟨-, same⟩ | ⟨-, -, same⟩ | ⟨-, -, k, -, same⟩ | ⟨-, -, same⟩
  · rw [same]
    exact .inl (dropBuffer_slate e)
  · rw [same]
    exact .inl ((dropBuffer_slate e).trans (setPending_slate rfl))
  · rw [same]
    exact .inl (targeted.trans (replayAt_slate ..))
  · rw [same]
    exact (holdInstead_slate ..).imp targeted.trans targeted.raised

/-- A confirmation counts for the change that is up, and no other. -/
theorem slateShown_slate (now change : ℕ) (e : Engine) :
    SlateKept e.out (e.slateShown now change).out ∨
      change = e.out.slateChange ∧ SlateConfirmed now e.out (e.slateShown now change).out := by
  unfold slateShown
  split
  · exact .inl (.refl _)
  · next current =>
    have current : change = e.out.slateChange := not_ne_iff.mp current
    split
    · next m pending =>
      split
      · have covers : e.out.pending.covers = true := by rw [pending]; rfl
        refine .inr ⟨current, rfl, fun up => up.trans covers, fun _ => covers, fun t shown => ?_, ?_, fun _ _ => rfl⟩
        · exact .inr ⟨(Option.some.inj shown).symm, covers⟩
        · rw [pending]
          exact id
      · exact .inl (.refl _)
    · next pending =>
      have covers : e.out.pending.covers = true := by rw [pending]; rfl
      refine .inr ⟨current, rfl, fun up => up.trans covers, fun _ => covers, fun t shown => ?_, ?_, fun _ => trivial⟩
      · exact .inr ⟨(Option.some.inj shown).symm, covers⟩
      · rw [pending]
        exact id
    · exact .inl (.refl _)

/-! ## Every operation -/

/-- What an operation does to the slate. -/
inductive SlateStep (e : Engine) (op : Op) (e' : Engine) : Prop
  | kept (same : SlateKept e.out e'.out)
  | raised (up : SlateRaised op.covers e.out e'.out)
  | confirmed (now : ℕ) (own : op = .command now (.slateShown e.out.slateChange))
      (shown : SlateConfirmed now e.out e'.out)

private theorem command_slate (now : ℕ) (cmd : Command) (e : Engine) :
    SlateStep e (.command now cmd) (e.command now cmd).1 := by
  unfold command
  split
  · exact .kept (.refl _)
  · have cleared : SlateKept e.out (e.clearNotices cmd).out := by
      cases cmd <;> exact .same rfl rfl rfl
    cases cmd with
    | setDelay ms mode =>
      rcases (e.clearNotices (.setDelay ms mode)).setDelay_slate now ms mode with kept | raised
      · exact .kept (cleared.trans kept)
      · exact .raised (cleared.raised raised)
    | goLive when_ => exact .kept (cleared.trans ((goLive_slate ..).trans (runPending_slate ..)))
    | cancel => exact .kept (cleared.trans ((cancel_slate _).trans (runPending_slate ..)))
    | slateShown change =>
      rcases e.slateShown_slate now change with kept | ⟨rfl, confirmed⟩
      · exact .kept (kept.trans (runPending_slate ..))
      · exact .confirmed now rfl (confirmed.kept (runPending_slate ..))
    | dump mode cover =>
      unfold obey
      dsimp only
      split
      · rcases (e.clearNotices (.dump mode cover)).dump_slate now mode cover with kept | raised
        · exact .kept ((cleared.trans kept).trans (runPending_slate ..))
        · exact .raised ((cleared.raised raised).kept (runPending_slate ..))
      · exact .kept cleared

private theorem dumpAfter_slate (now : ℕ) (taken : Option ℕ) (mode : DelayMode) (cover : Bool) (e : Engine) :
    SlateStep e (.dumpAfter now taken mode cover) (e.dumpAfter now taken mode cover).1 := by
  unfold dumpAfter
  split
  · have taken' := unsend_slate taken e
    cases command_slate now (.dump mode cover) (e.unsend taken) with
    | kept same => exact .kept (taken'.trans same)
    | raised up => exact .raised (taken'.raised up)
    | confirmed now' own =>
      obtain ⟨-, other⟩ := Op.command.inj own
      contradiction
  · split
    · exact .kept (.refl _)
    · unfold refuseDump
      dsimp only
      split
      · exact .kept (.same rfl rfl rfl)
      · exact .kept (.same rfl rfl rfl)

/-- Only commands and dumps put the slate up, or confirm it. -/
theorem step_kept (layout : e.Layout) {op : Op} (quiet : op.control = false) : SlateKept e.out (e.step op).1.out := by
  cases op with
  | ingestStart now =>
    rw [show (e.step (.ingestStart now)).1 = e.ingestStart now from rfl, ingestStart_out]
    split
    · exact .refl _
    · exact dropBuffer_slate e
  | ingestMetadata now payload =>
    rw [show (e.step (.ingestMetadata now payload)).1 = e.ingestMetadata now payload from rfl, ingestMetadata_out]
    exact .refl _
  | ingest now kind ts payload =>
    dsimp only [step]
    rcases e.ingest_cases now kind ts payload with same | ⟨session, -, -, same⟩
    · rw [same]
      exact .refl _
    · have evicted := evict_slate (append_layout layout now kind ts payload session) now
      rw [append_out] at evicted
      rw [same]
      exact evicted
  | outputConnected now => exact outputConnected_slate now e
  | outputDisconnected now lastWritten =>
    have down : SlateKept e.out { e.out with connected := false } := .same rfl rfl rfl
    exact down.trans (resumeAfter_slate lastWritten { e with out := { e.out with connected := false } })
  | unsend taken => exact unsend_slate taken e
  | outputReset => exact outputReset_slate e
  | discard => exact (dropBuffer_slate e).trans (outputReset_slate _)
  | endAfter =>
    dsimp only [step]
    cases e.lastSeq with
    | none => exact .refl _
    | some seq => exact .same rfl rfl rfl
  | restartAfterEnd =>
    have trimmed := dropBefore_trimmed layout (e.out.endMark.elim e.nextSeq (· + 1))
    have reset := outputReset_slate (e.dropBefore (e.out.endMark.elim e.nextSeq (· + 1)))
    rw [trimmed.out] at reset
    exact reset.trans (.same rfl rfl rfl)
  | pollBudget now maxBytes =>
    have evicted := evict_layout layout now
    exact (evict_slate layout now).trans (pollBudget_moves evicted maxBytes).slate
  | ingestEnd | cancelEnd | setKeepHistory | setRestoreAfterReconnect => exact .same rfl rfl rfl
  | command | dumpAfter => contradiction

theorem step_slate (layout : e.Layout) (op : Op) : SlateStep e op (e.step op).1 := by
  cases quiet : op.control with
  | false => exact .kept (step_kept layout quiet)
  | true =>
    cases op with
    | command now cmd => exact command_slate now cmd e
    | dumpAfter now taken mode cover => exact dumpAfter_slate now taken mode cover e
    | _ => contradiction

/-! ## What airs under the slate -/

section Airing

variable {s : Sent} {sent : List Sent}

private theorem emitHoldConfigs_shows {t : ℕ} {configs : List (Kind × UInt16 × Bytes)}
    (member : s ∈ (e.emitHoldConfigs t configs).2) :
    (∃ class_, s.origin = .config class_ ∧ (s.msg.kind, class_, s.msg.payload) ∈ configs) ∧
      s.masked = e.out.maskVisible := by
  induction configs generalizing e with
  | nil => contradiction
  | cons c rest ih =>
    obtain ⟨kind, class_, payload⟩ := c
    unfold emitHoldConfigs at member
    split at member
    · obtain ⟨⟨class_, origin, config⟩, masked⟩ := ih member
      exact ⟨⟨class_, origin, List.mem_cons_of_mem _ config⟩, masked⟩
    · rcases List.mem_cons.mp member with rfl | later
      · exact ⟨⟨class_, rfl, List.mem_cons_self ..⟩, rfl⟩
      · obtain ⟨⟨class_, origin, config⟩, masked⟩ := ih later
        exact ⟨⟨class_, origin, List.mem_cons_of_mem _ config⟩, masked⟩

private theorem frameHeaders_shows {h : HoldFrame} {t : ℕ} (member : s ∈ (e.frameHeaders h t).2) :
    h.Shows s ∧ s.masked = e.out.maskVisible := by
  unfold frameHeaders at member
  split at member
  · rcases List.mem_append.mp member with metadata | config
    · split at metadata
      · contradiction
      · next m there =>
        obtain rfl := List.mem_singleton.mp metadata
        exact ⟨.inr (.inl ⟨rfl, there⟩), rfl⟩
    · obtain ⟨shows, masked⟩ := emitHoldConfigs_shows config
      refine ⟨.inr (.inr shows), masked.trans ?_⟩
      split <;> rfl
  · contradiction

private theorem showFrame_shows {h : HoldFrame} (member : s ∈ (e.showFrame now h).2) :
    h.Shows s ∧ s.masked = e.out.maskVisible := by
  unfold showFrame at member
  rcases List.mem_append.mp member with header | message
  · exact frameHeaders_shows (e := e.frameShown now h) header
  · obtain rfl := List.mem_singleton.mp message
    have course := (e.frameShown now h).frameHeaders_course h (e.holdTs now h)
    exact ⟨.inl ⟨rfl, rfl⟩, course.maskVisible⟩

/-- While the slate stays up, no other frame is held than before. -/
def SameFrame (e e' : Engine) : Prop :=
  e'.out.pending.covers = true → ∀ h', e'.out.hold = some h' → ∃ h, e.out.hold = some h ∧ ∀ s, h'.Shows s → h.Shows s

private theorem SameFrame.of_hold (hold : e'.out.hold = e.out.hold ∨ e'.out.hold = none) : SameFrame e e' := by
  intro _ h frame
  rcases hold with same | gone
  · exact ⟨h, same ▸ frame, fun _ => id⟩
  · rw [gone] at frame
    contradiction

private theorem Move.sameFrame (move : Move now e e' sent) : SameFrame e e' := by
  cases move with
  | liveSplice | reduceSplice | replayDone => exact .of_hold (.inl (spliceTo_hold ..))
  | maskGone | maskDone | coverLost | replayHeld => exact fun covers => by contradiction
  | covered _ _ spliced | holdDone _ _ _ spliced =>
    subst spliced
    refine .of_hold (.inr ?_)
    show ((e.endHold now).spliceTo _ _).out.hold = none
    rw [spliceTo_hold, endHold_out]
  | holdEnded => exact .of_hold (.inr rfl)
  | @heldFrame h _ _ frame =>
    intro _ h' shown
    rw [(showFrame_course e now h).hold] at shown
    obtain rfl := Option.some.inj shown
    exact ⟨h, frame, fun _ => id⟩
  | started => exact fun _ h' frame => ⟨h', startAt_hold frame, fun _ => id⟩
  | sent => exact .of_hold (.inl (by rw [(sendEntry_course e).hold]; rfl))
  | liveEdge | airedMark | reduceDone | unconfirmed | anchored | caughtUp | newSession | sessionSkipped
  | markSkipped | silenced => exact .of_hold (.inl rfl)

/-- Under a slate over a dump, a move sends what is held, unless the slate is confirmed. -/
private theorem Move.underSlate (move : Move now e e' sent) (up : e.out.SlateUp) (backed : e.out.pending.Backed)
    (member : s ∈ sent) (masked : s.masked = true) :
    e.out.pending.covers = true ∧ ((∃ h, e.out.hold = some h ∧ h.Shows s) ∨
      (e.out.pending.coversDump = true → e.out.pending.shownAt.isSome = true)) := by
  cases move with
  | @heldFrame h _ _ frame =>
    obtain ⟨shows, same⟩ := showFrame_shows member
    exact ⟨up.symm.trans (same.symm.trans masked), .inl ⟨h, frame, shows⟩⟩
  | sent _ airs _ _ found =>
    have covers := up.symm.trans ((sendEntry_sent found member).2.symm.trans masked)
    exact ⟨covers, .inr fun under => Pending.airs_backed backed under airs⟩
  | _ => contradiction

/-- What a sequence of moves keeps of the slate, and of the frame that is held under it. -/
structure SlateStays (e e' : Engine) : Prop where
  kept : SlateKept e.out e'.out
  frame : SameFrame e e'

private theorem SlateStays.trans {mid : Engine} (first : SlateStays e mid) (second : SlateStays mid e') :
    SlateStays e e' where
  kept := first.kept.trans second.kept
  frame := by
    intro covers h' frame
    obtain ⟨h, held, shows⟩ := second.frame covers h' frame
    obtain ⟨start, there, earlier⟩ := first.frame (second.kept.covers covers) h held
    exact ⟨start, there, fun s => earlier s ∘ shows s⟩

/-- What is sent while the slate covers a dump is the frame held then, unless the slate is confirmed. -/
def HeldOrShown (e : Engine) (s : Sent) : Prop :=
  s.masked = true → e.out.pending.coversDump = true →
    (∃ h, e.out.hold = some h ∧ h.Shows s) ∨ e.out.pending.shownAt.isSome = true

private theorem Moves.heldOrShown {mid : Engine} (stays : SlateStays e mid) (moves : Moves now mid e' sent)
    (up : e.out.SlateUp) (backed : e.out.pending.Backed) : ∀ s ∈ sent, HeldOrShown e s := by
  refine Steps.emits (P := SlateStays e) (fun _ _ _ move stays => stays.trans ⟨move.slate, move.sameFrame⟩) ?_ moves
    stays
  intro mid next out move stays s member masked under
  obtain ⟨covers, ⟨h', frame, shows⟩ | confirmed⟩ :=
    move.underSlate (stays.kept.visible up) (stays.kept.backed backed) member masked
  · obtain ⟨h, held, same⟩ := stays.frame covers h' frame
    exact .inl ⟨h, held, same s shows⟩
  · obtain ⟨t, shown⟩ := Option.isSome_iff_exists.mp (confirmed (stays.kept.still covers under))
    exact .inr (stays.kept.shown t shown ▸ rfl)

private theorem memoryShort_frame (now : ℕ) (e : Engine) : SameFrame e (e.memoryShort now) := by
  unfold memoryShort
  split
  · exact .of_hold (.inl rfl)
  · dsimp only
    split
    · exact .of_hold (.inl rfl)
    · split
      · exact fun covers => by contradiction
      · exact .of_hold (.inl rfl)

private theorem evict_stays (layout : e.Layout) (now : ℕ) : SlateStays e (e.evict now) := by
  refine ⟨evict_slate layout now, ?_⟩
  obtain ⟨n, mid, trimmed, same | same⟩ := evict_trimmed layout now
  · rw [same]
    exact .of_hold (.inl (by rw [trimmed.out]))
  · have frame := memoryShort_frame now mid
    rw [same]
    unfold SameFrame at frame ⊢
    rwa [trimmed.out] at frame

theorem step_heldOrShown (layout : e.Layout) (up : e.out.SlateUp) (backed : e.out.pending.Backed) (op : Op) :
    ∀ s ∈ (e.step op).2, HeldOrShown e s := by
  cases op with
  | pollBudget now maxBytes =>
    exact Moves.heldOrShown (evict_stays layout now) (pollBudget_moves (evict_layout layout now) maxBytes) up backed
  | _ =>
    intro s none
    contradiction

end Airing

/-! ## Runs -/

/-- The confirmation a run's pending change counts as confirmed by: of its own number, while the slate was up. -/
def ConfirmedBy (config : EngineConfig) (ops : List Op) (change t : ℕ) : Prop :=
  Sometime (fun before op => op = .command t (.slateShown change) ∧
    ((new config).after before).out.slateChange = change ∧ ((new config).after before).out.maskVisible = true) ops

/-- The dump that asked for the slate that a run's pending change has. -/
def CoverAsked (config : EngineConfig) (ops : List Op) (change : ℕ) : Prop :=
  Sometime (fun before op => op.covers = true ∧
    ((new config).after (before ++ [op])).out.slateChange = change) ops

/-- What holds of the slate after a run. -/
structure SlateSound (config : EngineConfig) (ops : List Op) : Prop where
  up : ((new config).after ops).out.SlateUp
  confirmed : ∀ t, ((new config).after ops).out.pending.shownAt = some t →
    ConfirmedBy config ops ((new config).after ops).out.slateChange t
  asked : ((new config).after ops).out.pending.coversDump = true →
    CoverAsked config ops ((new config).after ops).out.slateChange
  backed : ((new config).after ops).out.pending.Backed

theorem SlateSound.step {config : EngineConfig} {ops : List Op} (sound : SlateSound config ops) (op : Op) :
    SlateSound config (ops ++ [op]) := by
  have next : (new config).after (ops ++ [op]) = (((new config).after ops).step op).1 := Machine.after_append ..
  have layout := (Sound.reached config ops).layout
  have step := step_slate layout op
  rw [← next] at step
  cases step with
  | kept same =>
    refine ⟨same.visible sound.up, fun t shown => ?_, fun dump => ?_, same.backed sound.backed⟩
    · rw [same.change]
      exact (sound.confirmed t (same.shown t shown)).append [op]
    · rw [same.change]
      exact (sound.asked (same.dump dump)).append [op]
  | raised up =>
    refine ⟨up.visible, fun t shown => ?_, fun dump => ?_, up.backed⟩
    · rw [up.unconfirmed] at shown
      contradiction
    · exact .last ⟨up.dump dump, rfl⟩
  | confirmed now own shown =>
    refine ⟨shown.visible sound.up, fun t counted => ?_, fun dump => ?_, shown.backed sound.backed⟩
    · rw [shown.change]
      rcases shown.shown t counted with earlier | ⟨rfl, covers⟩
      · exact (sound.confirmed t earlier).append [op]
      · exact .last ⟨own, rfl, sound.up.trans covers⟩
    · rw [shown.change]
      exact (sound.asked (shown.dump dump)).append [op]

private theorem slateSound (config : EngineConfig) (ops : List Op) : SlateSound config ops := by
  induction ops using List.reverseRecOn with
  | nil => exact ⟨rfl, fun _ none => by contradiction, fun none => by contradiction, trivial⟩
  | append_singleton ops op ih => exact ih.step op

/-- In every run: the slate is up exactly while a change it covers is pending; the next operation keeps its number
or takes the next one, and must take the next one to put it up; a pending change that counts as confirmed at `t` was
confirmed at `t` under its own number, while it was up; and a slate over a dump was put up by a dump that asked for
one, and until it is confirmed the next operation sends nothing under it but the frame that is held, and the headers
this frame needs. -/
theorem slate_confirmed (config : EngineConfig) (ops : List Op) :
    let e := (new config).after ops
    (e.out.maskVisible = e.out.pending.covers) ∧
      (∀ op, let e' := (e.step op).1
        e'.out.slateChange = e.out.slateChange ∧ (e'.out.maskVisible = true → e.out.maskVisible = true) ∨
          e'.out.slateChange = e.out.slateChange + 1) ∧
      (∀ t, e.out.pending.shownAt = some t → ConfirmedBy config ops e.out.slateChange t) ∧
      (e.out.pending.coversDump = true → CoverAsked config ops e.out.slateChange ∧
        (e.out.pending.shownAt = none → ∀ op, ∀ s ∈ (e.step op).2, s.masked = true →
          ∃ h, e.out.hold = some h ∧ h.Shows s)) := by
  intro e
  have sound := slateSound config ops
  have layout := (Sound.reached config ops).layout
  refine ⟨sound.up, fun op => ?_, sound.confirmed, fun dump => ⟨sound.asked dump, fun open_ op s sent masked => ?_⟩⟩
  · have later : (e.step op).1.out.SlateUp := by
      have up := (slateSound config (ops ++ [op])).up
      rwa [show (new config).after (ops ++ [op]) = (e.step op).1 from Machine.after_append ..] at up
    have visible (covers : (e.step op).1.out.pending.covers = true → e.out.pending.covers = true) :
        (e.step op).1.out.maskVisible = true → e.out.maskVisible = true := by
      intro up
      exact sound.up.trans (covers (later.symm.trans up))
    cases step_slate layout op with
    | kept same => exact .inl ⟨same.change, visible same.covers⟩
    | raised up => exact .inr up.change
    | confirmed now own shown => exact .inl ⟨shown.change, visible shown.covers⟩
  · rcases step_heldOrShown layout sound.up sound.backed op s sent masked dump with held | confirmed
    · exact held
    · rw [open_] at confirmed
      contradiction

end Engine

end StreamDelay
