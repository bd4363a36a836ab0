import Mathlib.Tactic.Common
import StreamDelay.Proofs.Custody

/-! # Broadcasts are kept apart

An end mark stands until it is taken back or replaced, and nothing numbered above it is sent
meanwhile. A discard forgets everything received; a restart after the end forgets everything up to
the mark and keeps the rest.
-/

namespace StreamDelay

open Foundations

/-- The operation leaves the end mark alone. -/
def Op.keepsMark : Op → Bool
  | .endAfter | .cancelEnd | .restartAfterEnd | .discard | .outputReset => false
  | _ => true

namespace Engine

variable {e : Engine}

private theorem dump_endMark (now : ℕ) (mode : DelayMode) (cover : Bool) (e : Engine) :
    (e.dump now mode cover).1.out.endMark = e.out.endMark := by
  rcases e.dump_cases now mode cover with
    ⟨-, same⟩ | ⟨-, -, same⟩ | ⟨-, -, k, -, same⟩ | ⟨-, -, same⟩
  · rw [same, dropBuffer_out]
  · rw [same, setPending_out, dropBuffer_out]
  · rw [same]
    unfold replayAt
    rw [spliceTo_endMark, setPending_out, splitSession_out]
    rfl
  · rw [same, holdInstead_eq, dropBuffer_out]
    rfl

private theorem command_endMark (layout : e.Layout) (now : ℕ) (cmd : Command) :
    (e.command now cmd).1.out.endMark = e.out.endMark := by
  unfold command
  split
  · rfl
  · have cleared := clearNotices_inPlace layout cmd
    have layout := cleared.layout layout
    refine Eq.trans ?_ cleared.mark
    generalize e.clearNotices cmd = e at layout
    have run {mid : Engine} (layout : mid.Layout) (mark : mid.out.endMark = e.out.endMark) :
        (mid.runPending now).out.endMark = e.out.endMark :=
      (runPending_inPlace layout now).mark.trans mark
    cases cmd with
    | setDelay ms mode => exact (setDelay_inPlace layout now ms mode).mark
    | goLive when_ =>
      have change := goLive_inPlace layout when_
      exact run (change.layout layout) change.mark
    | cancel =>
      have change := cancel_inPlace layout
      exact run (change.layout layout) change.mark
    | slateShown n =>
      have change := slateShown_inPlace layout now n
      exact run (change.layout layout) change.mark
    | dump mode cover =>
      unfold obey
      dsimp only
      split
      · exact run (dump_layout layout now mode cover) (e.dump_endMark now mode cover)
      · rfl

private theorem evict_endMark (layout : e.Layout) (now : ℕ) : (e.evict now).out.endMark = e.out.endMark := by
  obtain ⟨n, mid, trimmed, same | same⟩ := evict_trimmed layout now
  · rw [same, trimmed.out]
  · obtain ⟨out, short, -, mark⟩ := memoryShort_fields now mid
    rw [same, short]
    exact mark.trans (by rw [trimmed.out])

/-- The end mark stands until it is taken back or replaced, or the broadcast ends. -/
theorem step_endMark (sound : e.Sound) {op : Op} (keeps : op.keepsMark) :
    (e.step op).1.out.endMark = e.out.endMark := by
  have layout := sound.layout
  cases op with
  | ingestStart now =>
    rw [show (e.step (.ingestStart now)).1 = e.ingestStart now from rfl, ingestStart_out]
    split
    · rfl
    · rw [dropBuffer_out]
  | ingestEnd | setKeepHistory | setRestoreAfterReconnect => rfl
  | ingestMetadata now payload => exact congrArg Output.endMark (ingestMetadata_out e now payload)
  | ingest now kind ts payload =>
    dsimp only [step]
    rcases e.ingest_cases now kind ts payload with same | ⟨session, -, -, same⟩
    · rw [same]
    · rw [same, evict_endMark (append_layout layout now kind ts payload session), append_out]
  | outputConnected now => exact (outputConnected_inPlace layout now).mark
  | outputDisconnected now lastWritten => exact (outputDisconnected_inPlace layout now lastWritten).mark
  | unsend taken => exact (unsend_inPlace layout taken).mark
  | dumpAfter now taken mode cover =>
    dsimp only [step]
    unfold dumpAfter
    split
    · have unsent := unsend_inPlace layout taken
      exact (command_endMark (unsent.layout layout) now _).trans unsent.mark
    · split
      · rfl
      · exact (refuseDump_inPlace layout taken).mark
  | command now cmd => exact command_endMark layout now cmd
  | pollBudget now maxBytes =>
    have evicted := evict_layout layout now
    exact (Moves.endMark (pollBudget_moves evicted maxBytes)).trans (evict_endMark layout now)
  | endAfter | cancelEnd | restartAfterEnd | discard | outputReset => contradiction

/-- A move sends nothing numbered above the end mark. -/
theorem Move.within {now : ℕ} {e' : Engine} {out : List Sent} (move : Move now e e' out)
    (layout : e.Layout) {mark : ℕ} (marked : e.out.endMark = some mark) {s : Sent}
    (member : s ∈ out) {n : ℕ} (numbered : s.msg.seq = some n) : n ≤ mark := by
  cases move with
  | heldFrame =>
    rcases showFrame_sent member with ⟨-, none⟩ | ⟨-, none⟩
    · rw [none] at numbered
      contradiction
    · rw [none] at numbered
      contradiction
  | sent _ _ before _ found =>
    rcases (sendEntry_sent found member).1 with ⟨-, none⟩ | ⟨-, seq⟩
    · rw [none] at numbered
      contradiction
    · have cursor := (layout.entry_iff.mp found).2
      have inside : e.out.nextSeq ≤ mark := by
        simpa [pastMark, endReached, marked] using before
      have same := Option.some.inj (seq.symm.trans numbered)
      omega
  | liveSplice | liveEdge | airedMark | reduceDone | reduceSplice | unconfirmed | anchored
  | maskGone | maskDone | coverLost | covered | holdEnded | holdDone | replayDone | replayHeld
  | caughtUp | newSession | sessionSkipped | markSkipped | started | silenced => contradiction

private theorem step_within (sound : e.Sound) {op : Op} {mark : ℕ} (marked : e.out.endMark = some mark)
    {s : Sent} (member : s ∈ (e.step op).2) {n : ℕ} (numbered : s.msg.seq = some n) : n ≤ mark := by
  cases op with
  | pollBudget now maxBytes =>
    have evicted := evict_layout sound.layout now
    exact Steps.emits (P := fun e => e.Layout ∧ e.out.endMark = some mark)
      (Q := fun s => ∀ n, s.msg.seq = some n → n ≤ mark)
      (fun _ _ _ move both => ⟨move.layout both.1, move.endMark.trans both.2⟩)
      (fun _ _ _ move both _ member _ numbered => move.within both.1 both.2 member numbered)
      (pollBudget_moves evicted maxBytes)
      ⟨evicted, (evict_endMark sound.layout now).trans marked⟩ s member n numbered
  | ingestStart | ingestEnd | ingestMetadata | ingest | outputConnected | outputDisconnected
  | unsend | dumpAfter | outputReset | discard | endAfter | cancelEnd | restartAfterEnd | command
  | setKeepHistory | setRestoreAfterReconnect => contradiction

/-- While the end mark stands, nothing numbered above it is sent. -/
theorem sends_within (sound : e.Sound) {mark : ℕ} (marked : e.out.endMark = some mark)
    {ops : List Op} (keeps : ∀ op ∈ ops, op.keepsMark) :
    ∀ s ∈ e.sends ops, ∀ n, s.msg.seq = some n → n ≤ mark := by
  induction ops generalizing e with
  | nil => simp
  | cons op rest ih =>
    intro s member n numbered
    rcases List.mem_append.mp member with now | later
    · exact step_within sound marked now numbered
    · have next := (step_endMark sound (keeps op (List.mem_cons_self ..))).trans marked
      exact ih (sound.step op) next (fun op member => keeps op (List.mem_cons_of_mem _ member)) s
        later n numbered

/-- After a discard the engine holds nothing. -/
theorem discard_retains (e : Engine) (x : Entry) : ¬(e.discard).Retains x := by
  rintro (buffered | ⟨h, frame, -⟩)
  · rw [show e.discard.ring = e.dropBuffer.ring from rfl, dropBuffer_ring] at buffered
    contradiction
  · contradiction

/-- After a restart the engine holds what was buffered above the mark. -/
theorem restartAfterEnd_retains (layout : e.Layout) {mark : ℕ} (marked : e.out.endMark = some mark)
    (x : Entry) : e.restartAfterEnd.Retains x ↔ x ∈ e.ring ∧ mark < x.seq := by
  have ring : e.restartAfterEnd.ring = (e.popBefore (mark + 1)).ring := by
    unfold restartAfterEnd dropBefore
    rw [marked]
    dsimp only [outputReset]
    rw [forgetHeaders_ring]
    split <;> rfl
  have hold : e.restartAfterEnd.out.hold = none := rfl
  constructor
  · rintro (buffered | ⟨h, frame, -⟩)
    · rw [ring] at buffered
      exact (popBefore_mem layout).mp buffered
    · rw [hold] at frame
      contradiction
  · intro kept
    left
    rw [ring]
    exact (popBefore_mem layout).mpr kept

/-- In any run: nothing numbered above an end mark is sent while it stands; nothing received before a
discard is shown after it; and a restart after the end forgets what was received up to the mark, and
keeps what was buffered after it. -/
theorem broadcast_isolation (config : EngineConfig) (before : List Op) :
    let e := (Engine.new config).after before
    (∀ mark ops, e.lastSeq = some mark → (∀ op ∈ ops, op.keepsMark) →
      ∀ s ∈ e.sends (.endAfter :: ops), ∀ n, s.msg.seq = some n → n ≤ mark) ∧
    (∀ ops, ∀ s ∈ e.sends (.discard :: ops), ∀ x, s.content? = some x → e.received ≤ x.id) ∧
    ∀ mark, e.out.endMark = some mark →
      (∀ ops, ∀ s ∈ e.sends (.restartAfterEnd :: ops), ∀ x, s.content? = some x →
        e.received ≤ x.id ∨ x ∈ e.ring ∧ mark < x.seq) ∧
      ∀ x ∈ e.ring, mark < x.seq → x ∈ (e.after [.restartAfterEnd]).ring := by
  intro e
  have sound : e.Sound := Sound.reached config before
  refine ⟨?_, ?_, ?_⟩
  · intro mark ops last keeps s member n numbered
    have marked : (e.step .endAfter).1.out.endMark = some mark := by
      simp only [step, last, Option.elim_some]
      rfl
    exact sends_within (sound.step .endAfter) marked keeps s member n numbered
  · intro ops s member x shows
    rcases custody.shown (sound.step .discard) member shows with held | later
    · exact absurd held (e.discard_retains x)
    · exact Nat.le_trans (Nat.le_of_eq e.dropBuffer_received.symm) later
  · intro mark marked
    constructor
    · intro ops s member x shows
      rcases custody.shown (sound.step .restartAfterEnd) member shows with held | later
      · exact .inr ((restartAfterEnd_retains sound.layout marked x).mp held)
      · refine .inl (Nat.le_trans (Nat.le_of_eq ?_) later)
        exact (dropBefore_trimmed sound.layout _).received.symm
    · intro x member above
      rcases (restartAfterEnd_retains sound.layout marked x).mpr ⟨member, above⟩ with kept | frame
      · exact kept
      · obtain ⟨h, frame, -⟩ := frame
        contradiction

/-- A keyframe that is sent after the end of the broadcast, and another keyframe behind the mark, which is not. -/
theorem broadcast_isolation_keyframes :
    let ops := [Op.ingestStart 0, .outputConnected 0, .ingest 0 .video 0 [0x17, 1, 0, 0, 0]]
    let more := [Op.pollBudget 0 1000, .ingest SEC .video 1000 [0x17, 1, 0, 0, 0], .pollBudget SEC 1000]
    let sent := ((Engine.new {}).after ops).sends (.endAfter :: more)
    sent.map (·.msg.seq) = [some 0] ∧ (∀ s ∈ sent, ∀ n, s.msg.seq = some n → n ≤ 0) ∧
    (∀ s ∈ ((Engine.new {}).after ops).sends (.discard :: more), ∀ x, s.content? = some x →
      1 ≤ x.id) ∧
    ∀ x ∈ ((Engine.new {}).after (ops ++ .endAfter :: more)).ring, 0 < x.seq →
      x ∈ (((Engine.new {}).after (ops ++ .endAfter :: more)).after [.restartAfterEnd]).ring := by
  intro ops more sent
  obtain ⟨mark, discard, -⟩ := broadcast_isolation {} ops
  obtain ⟨-, -, restart⟩ := broadcast_isolation {} (ops ++ .endAfter :: more)
  exact ⟨by decide +kernel, mark 0 more (by decide) (by decide), discard more, (restart 0 (by decide +kernel)).2⟩

/-- A second end moves the mark: what arrived after the first one is sent, and nothing took that mark
back. -/
theorem second_end_moves_mark :
    let e := (Engine.new {}).after
      [.ingestStart 0, .outputConnected 0, .ingest 0 .video 0 [0x17, 1, 0, 0, 0]]
    e.lastSeq = some 0 ∧
      (e.sends [.endAfter, .ingest SEC .video 1000 [0x17, 1, 0, 0, 0], .endAfter,
        .pollBudget SEC 1000]).map (·.msg.seq) = [some 1] := by
  decide +kernel

end Engine

end StreamDelay
