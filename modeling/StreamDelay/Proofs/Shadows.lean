import Mathlib.Tactic.Common
import StreamDelay.Proofs.Beats
import StreamDelay.Proofs.Coherent
import StreamDelay.Proofs.Twins

/-! # Two outputs in step

Polls of an engine that forgot which headers the destination has send the same messages of the buffer, at the same
timestamps, as long as the headers that go out again move none.
-/

namespace StreamDelay

open Foundations

namespace Engine

variable {e e' : Engine} {rest : List Beat} {now : ℕ}

/-- The frame of a hold is held by what is pending, and on a new connection no configuration goes out before it. -/
def Unshown (e : Engine) : Prop :=
  ∀ h, e.out.hold = some h → e.out.pending.holding = true ∧ (h.needsHeaders = true → e.out.sentHeaders = [])

theorem Unshown.of_none (none : e.out.hold = none) : e.Unshown := fun h held => by
  rw [none] at held
  contradiction

theorem Unshown.none (unshown : e.Unshown) (airs : e.out.pending.holding = false) : e.out.hold = none := by
  cases held : e.out.hold with
  | none => rfl
  | some h =>
    rw [(unshown h held).1] at airs
    contradiction

theorem Unshown.runPending (unshown : e.Unshown) (now : ℕ) : (e.runPending now).Unshown := by
  cases holding : e.out.pending.holding with
  | false => exact .of_none ((Stands.runPending now e).held (unshown.none holding))
  | true =>
    have runHold (e : Engine) (unshown : e.Unshown) (fromSeq delay : ℕ) : (e.runHold now fromSeq delay).Unshown := by
      unfold Engine.runHold
      split
      · split
        · exact unshown
        · exact .of_none rfl
      · dsimp only
        split
        · refine .of_none ((Stands.finishPending _).held ((Stands.spliceTo ..).held ?_))
          rw [endHold_out]
        · exact unshown
    unfold Engine.runPending
    cases pending : e.out.pending with
    | hold fromSeq delay => exact runHold e unshown fromSeq delay
    | dump delay started fromSeq shown =>
      dsimp only
      unfold Engine.runDump
      split
      · split
        · have lost : Unshown ({ e with out := { e.out with coverLost := true } }.setPending (.hold fromSeq delay)) :=
            fun h held => ⟨rfl, (unshown h held).2⟩
          exact runHold _ lost fromSeq delay
        · exact unshown
      · split
        · exact unshown
        · refine .of_none ((Stands.runMask ..).held ((Stands.withPending ..).held ((Stands.spliceTo ..).held ?_)))
          rw [endHold_out]
    | none | goLiveNow | afterAir | reduce | mask | replay =>
      rw [pending] at holding
      contradiction

theorem SearchAlike.engine {clocked : Bool} {a b : Search} (alike : SearchAlike clocked a b) :
    Twin clocked (Search.engine a) (Search.engine b) := by
  cases a <;> cases b <;> try contradiction
  · exact alike
  · exact alike
  · exact alike

/-- `e'` does what `e` does, and its timestamps are those of `e`, or ahead by what is reached in what is to come. -/
structure Shadow (rest : List Beat) (e e' : Engine) : Prop where
  twin : Twin false e e'
  close : Stamps.Close rest e.stamps e'.stamps
  started : e.out.started = true
  unshown : e.Unshown

namespace Shadow

variable {next next' : Engine}

/-- Nothing is sent, and no timestamp changes. -/
theorem still (shadow : Shadow rest e e') (twin : Twin false next next') (stamps : next.stamps = e.stamps)
    (stamps' : next'.stamps = e'.stamps) (started : next.out.started = e.out.started) (unshown : next.Unshown) :
    Shadow rest next next' :=
  ⟨twin, stamps ▸ stamps' ▸ shadow.close, started.trans shadow.started, unshown⟩

/-- A splice starts after the same last timestamp. -/
theorem splice {f : Engine → Engine} (shadow : Shadow (spliceBeats e (f e) ++ rest) e e')
    (stands : ∀ e, Stands e (f e)) (twin : ∀ {clocked e e'}, Twin clocked e e' → Twin clocked (f e) (f e'))
    (unshown : (f e).Unshown) : Shadow rest (f e) (f e') := by
  have twins := shadow.twin
  have close := shadow.close
  have splices : e'.out.splices = e.out.splices := twins.same (·.out.splices)
  have splices' : (f e').out.splices = (f e).out.splices := (twin twins).same (·.out.splices)
  have hold : (f e').out.hold = (f e).out.hold := (twin twins).same (·.out.hold)
  refine ⟨twin twins, ?_, (stands e).started shadow.started, unshown⟩
  unfold spliceBeats at close
  split at close
  · next same =>
    obtain ⟨offset, last, pts⟩ := (stands e).clock shadow.started same.1 same.2
    obtain ⟨offset', last', pts'⟩ := (stands e').clock (twins.started.trans shadow.started)
      (splices'.trans (same.1.trans splices.symm)) (by rw [hold, twins.hold]; exact same.2)
    have same : (f e).stamps = e.stamps := by
      unfold Engine.stamps
      rw [offset, last, pts, (stands e).lastKindTs, (stands e).sentHeaders, (stands e).sentMetadata]
    have same' : (f e').stamps = e'.stamps := by
      unfold Engine.stamps
      rw [offset', last', pts', (stands e').lastKindTs, (stands e').sentHeaders, (stands e').sentMetadata]
    rw [same, same']
    exact close
  · have ahead : e.stamps.times.Ahead (.restart e.stamps.times.last :: rest) e'.stamps.times := close.ahead
    have last := ahead.restart
    have level := twin (twins.clock close.ahead.offset last close.ahead.pts)
    refine ⟨⟨level.same (·.out.tsOffset), level.same (·.out.lastPts), fun kind => ?_,
      .inl (level.same (·.out.lastOutTs))⟩, ?_, ?_, ?_⟩
    · have kinds : (f e).stamps.times.kinds = e.stamps.times.kinds := (stands e).lastKindTs
      have kinds' : (f e').stamps.times.kinds = e'.stamps.times.kinds := (stands e').lastKindTs
      rw [kinds, kinds']
      exact ahead.tail.kinds kind
    · show ∀ mark ∈ (f e').out.sentHeaders, mark ∈ (f e).out.sentHeaders
      rw [(stands e').sentHeaders, (stands e).sentHeaders]
      exact close.marks
    · show (f e').out.sentMetadata = Option.none ∨ (f e').out.sentMetadata = (f e).out.sentMetadata
      rw [(stands e').sentMetadata, (stands e).sentMetadata]
      exact close.metadata
    · show Overtaken (f e').out.sentHeaders (f e').out.sentMetadata rest
      rw [(stands e').sentMetadata, (stands e').sentHeaders]
      exact close.overtaken

private theorem skipLeading_congr {x : Entry} (skips : e'.out.skipLeadingAfter = e.out.skipLeadingAfter) :
    (e'.skipLeading x).2 = (e.skipLeading x).2 := by
  unfold Engine.skipLeading
  rw [skips]
  split
  · split <;> rfl
  · rfl

private theorem skipLeading_gated (x : Entry) (e : Engine) : (e.skipLeading x).1.gated x = e.gated x := by
  unfold Engine.skipLeading
  split
  · split <;> rfl
  · rfl

/-- The headers of a splice leave the message behind them as it is. -/
private theorem sendHeaders_entryBeats {x : Entry} (found : e.entry e.out.nextSeq = some x) :
    e.sendHeaders.1.noteFirst.entryBeats x = e.entryBeats x := by
  have first := Twin.of_sendHeaders e
  have skips : (e.sendHeaders.1.noteFirst.skipLeading x).2 = (e.skipLeading x).2 :=
    skipLeading_congr (first.same (·.out.skipLeadingAfter))
  have gated : e.sendHeaders.1.noteFirst.gated x = e.gated x := first.same (Engine.gated · x)
  have at_ : e.sendHeaders.1.noteFirst.outTsValue x.kind x.ts = e.outTsValue x.kind x.ts := by
    show e.sendHeaders.1.stamps.times.at_ x.kind x.ts = e.stamps.times.at_ x.kind x.ts
    rw [sendHeaders_stamps found]
    split
    · exact Stamps.at_meetHeaders ..
    · rfl
  unfold entryBeats
  rw [skips, gated, at_]

/-- Both come to the message at the cursor. -/
theorem emitEntry {x : Entry} (twin : Twin false e e') (found : e.entry e.out.nextSeq = some x)
    (close : Stamps.Close (e.entryBeats x ++ rest) e.stamps e'.stamps) :
    Stamps.Close rest e.emitEntry.1.stamps e'.emitEntry.1.stamps ∧ media e'.emitEntry.2 = media e.emitEntry.2 := by
  have found' : e'.entry e'.out.nextSeq = some x := by
    rw [twin.nextSeq, twin.entry]
    exact found
  unfold entryBeats at close
  unfold Engine.emitEntry
  rw [found, found']
  dsimp only
  cases config : x.config with
  | some class_ =>
    rw [config] at close
    dsimp only
    rw [emitConfigEntry_stamps, emitConfigEntry_stamps, media_emitConfigEntry config, media_emitConfigEntry config]
    exact ⟨Stamps.Close.meet close, rfl⟩
  | none =>
    rw [config] at close
    dsimp only at close ⊢
    obtain ⟨skipped, left⟩ := twin.skipLeading x
    have stamps := skipLeading_stamps x e
    have stamps' := skipLeading_stamps x e'
    have gate := skipLeading_gated x e
    generalize e.skipLeading x = p at close skipped left stamps gate
    generalize e'.skipLeading x = p' at skipped left stamps'
    obtain ⟨mid, out⟩ := p
    obtain ⟨mid', out'⟩ := p'
    obtain rfl : out' = out := left
    dsimp only at stamps stamps' gate close
    cases out' with
    | true =>
      refine ⟨?_, rfl⟩
      show Stamps.Close rest mid.stamps mid'.stamps
      rw [stamps, stamps']
      exact close
    | false =>
      have gated : mid'.gated x = mid.gated x := skipped.same (Engine.gated · x)
      have payload : mid'.mediaPayload x = mid.mediaPayload x := skipped.same (Engine.mediaPayload · x)
      dsimp only
      rw [gated, gate]
      split
      · next closed =>
        rw [closed, Bool.or_true, if_pos rfl] at close
        refine ⟨?_, rfl⟩
        show Stamps.Close rest mid.stamps mid'.stamps
        rw [stamps, stamps']
        exact close
      · next open_ =>
        rw [eq_false_of_ne_true open_, Bool.or_false, if_neg Bool.false_ne_true] at close
        have close : Stamps.Close
            (.message x.kind (mid.stamps.times.at_ x.kind x.ts) :: rest) mid.stamps mid'.stamps := by
          rw [stamps, stamps']
          exact close
        obtain ⟨same, later⟩ := Stamps.Close.sent close
        rw [emitMedia_stamps, emitMedia_stamps, media_emitMedia config, media_emitMedia config, payload,
          show mid'.outTsValue x.kind x.ts = mid.outTsValue x.kind x.ts from same]
        exact ⟨later, rfl⟩

/-- Both send the message at the cursor, at the same timestamp. -/
theorem sendEntry {x : Entry} (shadow : Shadow (e.sendBeats ++ rest) e e') (found : e.entry e.out.nextSeq = some x)
    (none : e.out.hold = Option.none) :
    Shadow rest e.sendEntry.1 e'.sendEntry.1 ∧ media e'.sendEntry.2 = media e.sendEntry.2 := by
  have twin := shadow.twin
  have close := shadow.close
  have found' : e'.entry e'.out.nextSeq = some x := by
    rw [twin.nextSeq, twin.entry]
    exact found
  have course := sendEntry_course e
  have pending : e'.out.pendingHeaders = e.out.pendingHeaders := twin.same (·.out.pendingHeaders)
  have headers : e'.headersAt x.session x.seq = e.headersAt x.session x.seq := twin.same (·.headersAt x.session x.seq)
  have first := Twin.of_sendHeaders e
  have begun : Stamps.Close (e.entryBeats x ++ rest) e.sendHeaders.1.stamps e'.sendHeaders.1.stamps := by
    rw [sendHeaders_stamps found, sendHeaders_stamps found', pending, headers]
    unfold sendBeats at close
    rw [found] at close
    dsimp only at close
    rw [List.append_assoc] at close
    split
    · next spliced =>
      rw [if_pos spliced] at close
      exact Stamps.Close.meetHeaders close
    · next spliced =>
      rw [if_neg spliced] at close
      exact close
  have noted : Twin false e.sendHeaders.1.noteFirst e'.sendHeaders.1.noteFirst := twin.sendHeaders.map noteFirst
  have there : e.sendHeaders.1.noteFirst.entry e.sendHeaders.1.noteFirst.out.nextSeq = some x := by
    show e.sendHeaders.1.entry e.sendHeaders.1.out.nextSeq = some x
    rw [first.nextSeq, first.entry]
    exact found
  rw [← sendHeaders_entryBeats found] at begun
  obtain ⟨later, sent⟩ := emitEntry noted there begun
  refine ⟨⟨twin.sendEntry, later, course.started.trans shadow.started, .of_none (course.hold.trans none)⟩, ?_⟩
  show media (e'.sendHeaders.2 ++ _) = media (e.sendHeaders.2 ++ _)
  rw [media_append, media_append, media_headers fun s member => (sendHeaders_sent member).1,
    media_headers fun s member => (sendHeaders_sent member).1]
  exact sent

/-- A held frame starts after the same last timestamp. -/
private theorem holdTs_eq (now : ℕ) (h : HoldFrame)
    (ahead : e.stamps.times.Ahead (.restart e.stamps.times.last :: rest) e'.stamps.times) :
    e'.holdTs now h = e.holdTs now h := by
  have last : e'.out.lastOutTs = e.out.lastOutTs := ahead.restart
  have pts : e'.out.lastPts = e.out.lastPts := ahead.pts
  have video : max e.out.lastOutTs ((e'.out.lastKindTs.get .video).getD 0) =
      max e.out.lastOutTs ((e.out.lastKindTs.get .video).getD 0) := by
    rcases ahead.kinds .video with same | ⟨t, sent, behind, reached⟩
    · rw [show e'.out.lastKindTs.get .video = e.out.lastKindTs.get .video from same]
    · have reached : t ≤ e.out.lastOutTs := reached _ (List.mem_cons_self ..)
      have behind : ∀ u ∈ e.out.lastKindTs.get .video, u ≤ t := behind
      rw [show e'.out.lastKindTs.get .video = some t from sent, Option.getD_some]
      cases before : e.out.lastKindTs.get .video with
      | none =>
        rw [Option.getD_none]
        omega
      | some u =>
        have := behind u before
        rw [Option.getD_some]
        omega
  unfold holdTs afterSent
  dsimp only
  rw [last, pts, video]

private theorem media_showFrame (now : ℕ) (h : HoldFrame) (e : Engine) : media (e.showFrame now h).2 = [] := by
  refine List.filterMap_eq_nil_iff.mpr fun s member => ?_
  rcases showFrame_sent member with header | ⟨origin, -⟩
  · rw [header.entry?]
    rfl
  · simp [Sent.entry?, origin]

/-- Both show the frame of a hold, where it is due. -/
theorem emitHoldFrame (shadow : Shadow (e.holdBeats now ++ rest) e e') :
    Shadow rest (e.emitHoldFrame now).1 (e'.emitHoldFrame now).1 ∧
      media (e'.emitHoldFrame now).2.1 = media (e.emitHoldFrame now).2.1 := by
  have twin := shadow.twin.emitHoldFrame now
  have close := shadow.close
  have unshown := shadow.unshown
  revert twin
  unfold holdBeats at close
  unfold Engine.emitHoldFrame
  rw [shadow.twin.hold]
  cases frame : e.out.hold with
  | none =>
    rw [frame] at close
    exact fun twin => ⟨⟨twin, close, shadow.started, unshown⟩, rfl⟩
  | some h =>
    rw [frame] at close
    dsimp only at close ⊢
    split
    · next early =>
      rw [if_pos early] at close
      exact fun twin => ⟨⟨twin, close, shadow.started, unshown⟩, rfl⟩
    · next due =>
      rw [if_neg due, List.cons_append] at close
      intro twin
      have course := showFrame_course e now h
      have ahead : e.stamps.times.Ahead (.restart e.stamps.times.last :: _) e'.stamps.times := close.ahead
      have same := holdTs_eq now h ahead
      have last := ahead.restart
      have later : Stamps.Close (_ ++ rest) e.stamps e'.stamps :=
        ⟨ahead.tail, close.marks, close.metadata, close.overtaken⟩
      refine ⟨⟨twin, ?_, course.started.trans shadow.started, fun h' held => ?_⟩, ?_⟩
      · have headers : Stamps.Close rest
            (if h.needsHeaders then e.stamps.holdHeaders h.headers (e.holdTs now h) else e.stamps)
            (if h.needsHeaders then e'.stamps.holdHeaders h.headers (e.holdTs now h) else e'.stamps) ∧
            (if h.needsHeaders then e'.stamps.holdHeaders h.headers (e.holdTs now h) else e'.stamps).times.last =
              (if h.needsHeaders then e.stamps.holdHeaders h.headers (e.holdTs now h) else e.stamps).times.last := by
          split
          · next owed =>
            rw [if_pos owed] at later
            have none : e.stamps.marks = [] := (unshown h frame).2 owed
            have none' : e'.stamps.marks = [] := List.eq_nil_iff_forall_not_mem.mpr fun mark member => by
              have := close.marks mark member
              rw [none] at this
              contradiction
            exact Stamps.Close.holdHeaders (none'.trans none.symm) last later
          · next done =>
            rw [if_neg done] at later
            exact ⟨later, last⟩
        rw [showFrame_stamps, showFrame_stamps, same]
        exact headers.1.shown h.cts headers.2
      · rw [course.hold] at held
        obtain rfl := Option.some.inj held
        refine ⟨course.pending ▸ (unshown h frame).1, fun owed => absurd owed Bool.false_ne_true⟩
      · exact (media_showFrame now h e').trans (media_showFrame now h e).symm

theorem runPending (shadow : Shadow (spliceBeats e (e.runPending now) ++ rest) e e') :
    Shadow rest (e.runPending now) (e'.runPending now) :=
  shadow.splice (Stands.runPending now) (fun twin => twin.runPending now) (shadow.unshown.runPending now)

theorem findSync (shadow : Shadow (spliceBeats e (Search.engine (e.findSync now)) ++ rest) e e')
    (none : e.out.hold = none) :
    Shadow rest (Search.engine (e.findSync now)) (Search.engine (e'.findSync now)) :=
  splice (f := fun e => Search.engine (e.findSync now)) shadow (Stands.findSync now)
    (fun twin => (twin.findSync now).engine) (.of_none ((Stands.findSync now e).held none))

end Shadow

/-- The two rounds end alike, and send the same messages of the buffer. -/
def RoundShadow (rest : List Beat) : Round → Round → Prop
  | .again e sent, .again e' sent' | .stop e sent _, .stop e' sent' _ => Shadow rest e e' ∧ media sent' = media sent
  | _, _ => False

namespace Shadow

theorem sendDue (shadow : Shadow (e.dueBeats now ++ rest) e e') (none : e.out.hold = none) :
    RoundShadow rest (e.sendDue now 1 0) (e'.sendDue now 1 0) := by
  have twin := shadow.twin
  unfold dueBeats at shadow
  unfold Engine.sendDue
  rw [twin.nextSeq, twin.entry]
  cases found : e.entry e.out.nextSeq with
  | none =>
    rw [found] at shadow
    exact ⟨shadow, rfl⟩
  | some x =>
    rw [found] at shadow
    have muted : e'.muted x = e.muted x := twin.same (Engine.muted · x)
    dsimp only at shadow ⊢
    rw [twin.delay, muted]
    split
    · next early =>
      rw [if_pos early] at shadow
      exact ⟨shadow, rfl⟩
    · next due =>
      rw [if_neg due] at shadow
      have room : ¬1 ≤ 0 := by decide
      rw [if_neg room, if_neg room]
      split
      · next silenced =>
        rw [if_pos silenced] at shadow
        have left : Shadow _ e.muteEntry e'.muteEntry :=
          shadow.still (twin.map Engine.muteEntry) rfl rfl rfl shadow.unshown
        exact ⟨left.runPending, rfl⟩
      · next heard =>
        rw [if_neg heard, List.append_assoc] at shadow
        obtain ⟨sent, same⟩ := shadow.sendEntry found none
        exact ⟨sent.runPending, same⟩

theorem sendFrom (shadow : Shadow (e.fromBeats now ++ rest) e e') (none : e.out.hold = none) :
    RoundShadow rest (e.sendFrom now 1 0) (e'.sendFrom now 1 0) := by
  have alike := shadow.twin.findSync now
  have needs := shadow.twin.needSync
  unfold fromBeats at shadow
  unfold Engine.sendFrom
  rw [needs]
  split
  · next seeks =>
    rw [if_pos seeks] at shadow
    have kept := (Stands.findSync now e).held none
    have search (rest : List Beat) (shadow : Shadow (spliceBeats e (Search.engine (e.findSync now)) ++ rest) e e') :=
      shadow.findSync none
    generalize e.findSync now = a at alike shadow kept search
    generalize e'.findSync now = b at alike search
    cases a <;> cases b <;> try contradiction
    · exact ⟨search rest shadow, rfl⟩
    · exact ⟨search rest shadow, rfl⟩
    · dsimp only at shadow
      rw [List.append_assoc] at shadow
      exact (search _ shadow).sendDue kept
  · next synced =>
    rw [if_neg synced] at shadow
    exact shadow.sendDue none

theorem advance (shadow : Shadow (e.advanceBeats now ++ rest) e e') (none : e.out.hold = none) :
    RoundShadow rest (e.advance now 1 0) (e'.advance now 1 0) := by
  have twin := shadow.twin.catchUp
  have past : e'.catchUp.pastMark = e.catchUp.pastMark := twin.same Engine.pastMark
  have caught (e : Engine) : e.catchUp.stamps = e.stamps ∧ e.catchUp.out.started = e.out.started ∧
      e.catchUp.out.hold = e.out.hold := by
    unfold Engine.catchUp
    split <;> exact ⟨rfl, rfl, rfl⟩
  have noticed (e : Engine) : e.noticeSession.stamps = e.stamps ∧ e.noticeSession.out.started = e.out.started ∧
      e.noticeSession.out.hold = e.out.hold := by
    unfold Engine.noticeSession
    split
    · split <;> exact ⟨rfl, rfl, rfl⟩
    · exact ⟨rfl, rfl, rfl⟩
  have shadow : Shadow (e.advanceBeats now ++ rest) e.catchUp e'.catchUp :=
    shadow.still twin (caught e).1 (caught e').1 (caught e).2.1 (.of_none ((caught e).2.2.trans none))
  unfold advanceBeats at shadow
  unfold Engine.advance
  dsimp only at shadow ⊢
  rw [past]
  split
  · next beyond =>
    rw [if_pos beyond] at shadow
    exact ⟨shadow, rfl⟩
  · next open_ =>
    rw [if_neg open_] at shadow
    have none : e.catchUp.noticeSession.out.hold = Option.none :=
      (noticed _).2.2.trans ((caught e).2.2.trans none)
    exact sendFrom (shadow.still twin.noticeSession (noticed _).1 (noticed _).1 (noticed _).2.1 (.of_none none)) none

theorem pollRound (shadow : Shadow (e.roundBeats now ++ rest) e e') :
    RoundShadow rest (e.pollRound now 1 0) (e'.pollRound now 1 0) := by
  have twin := shadow.twin
  unfold roundBeats at shadow
  unfold Engine.pollRound
  rw [twin.pending]
  cases pending : e.out.pending with
  | dump | hold =>
    rw [pending] at shadow
    exact shadow.emitHoldFrame
  | replay fromSeq delay =>
    have none := shadow.unshown.none (by rw [pending]; rfl)
    have due : e'.replayDue now fromSeq delay = e.replayDue now fromSeq delay :=
      twin.same (Engine.replayDue now fromSeq delay)
    rw [pending] at shadow
    dsimp only at shadow ⊢
    rw [twin.nextSeq, due]
    split
    · next ran =>
      rw [if_pos ran] at shadow
      split
      · refine ⟨shadow.still (twin.map (Engine.holdReplay now fromSeq delay)) rfl rfl rfl ?_, rfl⟩
        refine fun h held => ⟨rfl, fun owed => ?_⟩
        rw [(airedKeyframe_new held).2] at owed
        contradiction
      · exact ⟨shadow, rfl⟩
    · next airs =>
      rw [if_neg airs] at shadow
      exact shadow.advance none
  | none | goLiveNow | afterAir | reduce | mask =>
    have none := shadow.unshown.none (by rw [pending]; rfl)
    rw [pending] at shadow
    exact shadow.advance none

theorem evict (shadow : Shadow rest e e') (now : ℕ) : Shadow rest (e.evict now) (e'.evict now) := by
  have popped (e : Engine) (fuel : ℕ) (keepFrom restart : Option ℕ) (capacity : ℕ) :
      (Engine.evictLoop now capacity keepFrom restart fuel e false).1.out = e.out :=
    evictLoop_preserves (P := fun mid => mid.out = e.out)
      (fun mid stop same => (forgetSessions_out _).trans ((popBefore_out stop mid).trans same)) rfl
  have short (e : Engine) (unshown : e.Unshown) : (e.memoryShort now).stamps = e.stamps ∧
      (e.memoryShort now).out.started = e.out.started ∧ (e.memoryShort now).Unshown := by
    unfold Engine.memoryShort
    split
    · exact ⟨rfl, rfl, unshown⟩
    · dsimp only
      split
      · exact ⟨rfl, rfl, unshown⟩
      · split
        · exact ⟨rfl, rfl, .of_none rfl⟩
        · exact ⟨rfl, rfl, unshown⟩
  have evicted (e : Engine) (unshown : e.Unshown) : (e.evict now).stamps = e.stamps ∧
      (e.evict now).out.started = e.out.started ∧ (e.evict now).Unshown := by
    have out := popped e e.ring.length (e.keepFrom now) e.restartPoint
      ((e.config.maxDelayMs + e.config.headroomMs) * MS)
    unfold Engine.evict
    dsimp only
    generalize (Engine.evictLoop now _ (e.keepFrom now) e.restartPoint e.ring.length e false) = loop at out
    have same : loop.1.stamps = e.stamps := by
      unfold stamps
      rw [out]
    have unshown : loop.1.Unshown := by
      unfold Unshown
      rw [out]
      exact unshown
    split
    · obtain ⟨stamps, started, still⟩ := short loop.1 unshown
      exact ⟨stamps.trans same, started.trans (by rw [out]), still⟩
    · exact ⟨same, by rw [out], unshown⟩
  have unshown' : e'.Unshown := by
    intro h held
    rw [shadow.twin.hold] at held
    obtain ⟨holding, owed⟩ := shadow.unshown h held
    refine ⟨shadow.twin.pending ▸ holding, fun owes => List.eq_nil_iff_forall_not_mem.mpr fun mark member => ?_⟩
    have there : mark ∈ e.out.sentHeaders := shadow.close.marks mark member
    rw [owed owes] at there
    contradiction
  exact shadow.still (shadow.twin.evict now) (evicted e shadow.unshown).1 (evicted e' unshown').1
    (evicted e shadow.unshown).2.1 (evicted e shadow.unshown).2.2

theorem freeLoop (fuel : ℕ) (shadow : Shadow (loopBeats now fuel e ++ rest) e e') :
    Shadow rest (Engine.freeLoop now fuel e).1 (Engine.freeLoop now fuel e').1 ∧
      media (Engine.freeLoop now fuel e').2 = media (Engine.freeLoop now fuel e).2 := by
  induction fuel generalizing e e' with
  | zero => exact ⟨shadow, rfl⟩
  | succ fuel ih =>
    unfold loopBeats at shadow
    rw [List.append_assoc] at shadow
    have round := shadow.pollRound
    unfold Engine.freeLoop
    generalize e.pollRound now 1 0 = r at round
    generalize e'.pollRound now 1 0 = r' at round
    cases r <;> cases r' <;> try contradiction
    · obtain ⟨next, sent⟩ := round
      obtain ⟨last, later⟩ := ih next
      refine ⟨last, ?_⟩
      dsimp only
      rw [media_append, media_append, sent, later]
    · exact round

theorem pollFree (now : ℕ)
    (shadow : Shadow (spliceBeats (e.evict now) ((e.evict now).runPending now) ++
      ((if ((e.evict now).runPending now).out.connected then
        loopBeats now ((e.evict now).runPending now).pollFuel ((e.evict now).runPending now) else []) ++ rest)) e e') :
    Shadow rest (e.pollFree now).1 (e'.pollFree now).1 ∧ media (e'.pollFree now).2 = media (e.pollFree now).2 := by
  have begun := (shadow.evict now).runPending
  have connected : ((e'.evict now).runPending now).out.connected = ((e.evict now).runPending now).out.connected :=
    begun.twin.same (·.out.connected)
  have length : ((e'.evict now).runPending now).pollFuel = ((e.evict now).runPending now).pollFuel :=
    begun.twin.same Engine.pollFuel
  unfold Engine.pollFree
  dsimp only
  rw [length, connected]
  generalize (e.evict now).runPending now = mid at begun
  generalize (e'.evict now).runPending now = mid' at begun
  cases up : mid.out.connected with
  | false =>
    rw [up, if_neg Bool.false_ne_true] at begun
    exact ⟨begun, rfl⟩
  | true =>
    rw [up, if_pos rfl] at begun
    exact begun.freeLoop _

theorem freeSends (times : List ℕ) (shadow : Shadow (beats times e) e e') :
    media (Engine.freeSends times e') = media (Engine.freeSends times e) := by
  induction times generalizing e e' with
  | nil => rfl
  | cons now times ih =>
    unfold beats at shadow
    dsimp only at shadow
    rw [List.append_assoc] at shadow
    obtain ⟨next, sent⟩ := shadow.pollFree
    unfold Engine.freeSends
    rw [media_append, media_append, sent, ih next]

/-- They send the same messages of the buffer, at the same timestamps, in every sequence of polls. -/
theorem sends (times : List ℕ) (shadow : Shadow (beats times e) e e') :
    ∃ bytes, ∀ maxBytes, bytes ≤ maxBytes →
      media (e'.sends (times.map fun now => .pollBudget now maxBytes)) =
        media (e.sends (times.map fun now => .pollBudget now maxBytes)) := by
  obtain ⟨bytes, free⟩ := sends_free times e
  obtain ⟨bytes', free'⟩ := sends_free times e'
  refine ⟨max bytes bytes', fun maxBytes enough => ?_⟩
  rw [free maxBytes (by omega), free' maxBytes (by omega), shadow.freeSends]

end Shadow

end Engine

end StreamDelay
