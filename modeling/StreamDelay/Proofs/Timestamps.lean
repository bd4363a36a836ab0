import Mathlib.Algebra.Group.Int.Defs
import Mathlib.Tactic.Common
import StreamDelay.Proofs.Sending

/-! # Timestamps go forward

On one connection the timestamps of each kind do not go back, and what follows a splice, or is held,
comes after everything sent before, as long as what was sent leaves the words they are counted in room. The
invariant ties what was sent on the connection to the output's clock, and every tick of the clock keeps it.
-/

namespace StreamDelay

open Foundations

/-- After `before`, what a splice lands on and a held frame come later than everything up to the splice
or the held frame's headers, in decode order and in presentation order. -/
def Lands (before : List Sent) (s : Sent) : Prop :=
  ∀ n, s.jump = some n →
    n ≤ before.length ∧ (∀ a ∈ before.take n, a.ts < s.ts) ∧ (∀ a ∈ before.drop n, a.IsHeader) ∧
      ∀ a ∈ before, ∀ p q, a.pts? = some p → s.pts? = some q → p < q

/-- A message that follows no splice lands as it should. -/
theorem lands_of_plain {before : List Sent} {s : Sent} (plain : s.jump = none) : Lands before s := by
  intro n jump
  rw [plain] at jump
  contradiction

theorem Sent.IsHeader.pts? {s : Sent} (header : s.IsHeader) : s.pts? = none := by
  have none := header.1
  unfold Sent.content? at none
  unfold Sent.pts?
  cases origin : s.origin with
  | buffered x | held x cts =>
    rw [origin] at none
    contradiction
  | config | metadata => rfl

/-- After `before`, `s` is not earlier than what was sent of its kind, and lands as it should. -/
def InTurn (before : List Sent) (s : Sent) : Prop :=
  (∀ a ∈ before, a.msg.kind = s.msg.kind → a.ts ≤ s.ts) ∧ Lands before s

/-- A number that fits a signed word is the word. -/
theorem signed_of_fits {n : ℤ} (low : -2 ^ 63 ≤ n) (high : n < 2 ^ 63) : Engine.signed n = n :=
  Int.bmod_eq_of_le_mul_two (by omega) (by omega)

/-- Timestamps up to `top`, after `now`, leave room to count on from. -/
def Room (top now : ℕ) : Prop := top + now / MS + 2 ^ 25 ≤ 2 ^ 63

theorem Room.sooner {top now t : ℕ} (room : Room top now) (le : t ≤ now) : Room top t := by
  have elapsed : t / MS ≤ now / MS := Nat.div_le_div_right le
  unfold Room at room ⊢
  omega

namespace Clock

/-- Each kind was sent up to what the clock says was sent last, and frames presented up to what it says,
which is not far past `top`. -/
structure Orders (top : ℕ) (c : Clock) (log : List Sent) : Prop where
  last : ∀ s ∈ log, ∃ t, c.lastKindTs.get s.msg.kind = some t ∧ s.ts ≤ t
  behind : ∀ kind t, c.lastKindTs.get kind = some t → t ≤ c.lastOutTs
  shown : ∀ s ∈ log, ∀ p, s.pts? = some p → p ≤ c.lastPts
  pts : 0 ≤ c.lastPts ∧ c.lastPts < top + 2 ^ 23

/-- The clock of the connection on which `log` was sent. -/
structure Paced (c : Clock) (log : List Sent) : Prop where
  blank : c.fresh = true → log = [] ∧ ∀ kind, c.lastKindTs.get kind = none
  count : c.sent = log.length
  /-- What was passed first is known once a buffered message was sent. -/
  begun : ∀ s ∈ log, ∀ x, s.entry? = some x → c.firstEmitted.isSome
  /-- Nothing was sent since the last splice, while the cursor has not passed what it landed on. -/
  landed : c.connected = true → c.needSync = false → ∀ l, c.landing = some l → l.2 = log.length

/-- The clock while nothing sent is past `top`: what it counts on from stays near that. -/
structure Near (top : ℕ) (c : Clock) (log : List Sent) : Prop where
  orders : c.Orders top log
  /-- What the last splice landed on gets a later timestamp than everything sent. -/
  landed : c.connected = true → c.needSync = false → ∀ l, c.landing = some l →
    ∃ base : ℕ, base < 2 ^ 63 ∧ c.tsOffset = Engine.signed ((base : ℤ) - l.1.ts) ∧ (∀ a ∈ log, a.ts < base) ∧
      ∀ a ∈ log, ∀ p, a.pts? = some p → p < base + l.1.cts

variable {top now : ℕ} {c c' : Clock} {log out : List Sent} {s : Sent}

theorem le_outTs {kind : Kind} {t : ℕ} (last : c.lastKindTs.get kind = some t) (ts : ℕ) :
    t ≤ c.outTs kind ts := by
  simp only [outTs, last, Option.elim_some]
  omega

private theorem toNat_le_outTs (c : Clock) (kind : Kind) (ts : ℕ) :
    (max (Engine.signed (ts + c.tsOffset)) 0).toNat ≤ c.outTs kind ts := by
  unfold outTs
  cases c.lastKindTs.get kind with
  | none => exact Nat.le_refl _
  | some t => exact Nat.le_max_left _ _

/-- A splice's shift takes the timestamp it lands on to the one it gets, whatever wraps on the way. -/
theorem signed_shift {base ts : ℕ} (fits : base < 2 ^ 63) :
    Engine.signed (ts + Engine.signed ((base : ℤ) - ts)) = base := by
  unfold Engine.signed
  rw [Int.add_bmod_bmod, show (ts : ℤ) + (base - ts) = base by omega]
  exact signed_of_fits (by omega) (by exact_mod_cast fits)

/-- What comes after everything sent comes later, and does not wrap. -/
theorem afterSent_fits {frame : ℕ} {cts : ℤ} (room : Room top now) (last : c.lastOutTs ≤ top + now / MS)
    (pts : 0 ≤ c.lastPts ∧ c.lastPts < top + 2 ^ 23) (frames : frame ≤ 200) (shift : Flv.Shift cts) :
    c.afterSent frame cts < 2 ^ 63 ∧ c.lastOutTs < c.afterSent frame cts ∧
      c.lastPts < c.afterSent frame cts + cts := by
  unfold Room at room
  obtain ⟨low, high⟩ := shift
  generalize now / MS = elapsed at room last
  have near : Engine.signed (c.lastPts + (max frame 1 : ℕ) - cts) = c.lastPts + (max frame 1 : ℕ) - cts :=
    signed_of_fits (by omega) (by omega)
  have small : (c.lastOutTs + max frame 1) % 2 ^ 64 = c.lastOutTs + max frame 1 := Nat.mod_eq_of_lt (by omega)
  rw [afterSent, near, small]
  omega

namespace Orders

theorem note (orders : c.Orders top log)
    (later : ∀ t, c.lastKindTs.get s.msg.kind = some t → t ≤ s.ts)
    (fits : ∀ p, s.pts? = some p → Engine.signed p = p ∧ p < top + 2 ^ 23) : (c.note s).Orders top (log ++ [s]) where
  last := by
    intro a member
    simp only [Clock.note, PerKind.get_set]
    rcases List.mem_append.mp member with older | new
    · obtain ⟨t, last, le⟩ := orders.last a older
      split
      · next same =>
        rw [same] at last
        exact ⟨s.ts, rfl, Nat.le_trans le (later t last)⟩
      · exact ⟨t, last, le⟩
    · obtain rfl := List.mem_singleton.mp new
      exact ⟨a.ts, by rw [if_pos rfl], Nat.le_refl _⟩
  behind := by
    intro kind t last
    simp only [Clock.note, PerKind.get_set] at last ⊢
    split at last
    · obtain rfl := Option.some.inj last
      exact Nat.le_max_right _ _
    · have bound := orders.behind kind t last
      omega
  shown := by
    intro a member p pts
    simp only [Clock.note]
    rcases List.mem_append.mp member with older | new
    · have bound := orders.shown a older p pts
      cases s.pts? with
      | none => exact bound
      | some q => exact Int.le_trans bound (Int.le_max_left _ _)
    · obtain rfl := List.mem_singleton.mp new
      rw [pts, Option.elim_some, (fits p pts).1]
      exact Int.le_max_right _ _
  pts := by
    have bounds := orders.pts
    simp only [Clock.note]
    cases presented : s.pts? with
    | none => exact bounds
    | some p =>
      obtain ⟨same, less⟩ := fits p presented
      rw [Option.elim_some, same]
      omega

/-- Messages that show nothing, each sent no earlier than its kind was. -/
theorem notes {P : Clock → Sent → Prop} (orders : c.Orders top log) (sends : Sends P c out)
    (later : ∀ c s, P c s → ∀ t, c.lastKindTs.get s.msg.kind = some t → t ≤ s.ts)
    (unseen : ∀ c s, P c s → s.pts? = none) : (c.notes out).Orders top (log ++ out) := by
  induction out generalizing c log with
  | nil => simpa using orders
  | cons s rest ih =>
    have shown := unseen c s sends.1
    have next := ih (orders.note (later c s sends.1) fun p pts => by rw [shown] at pts; contradiction) sends.2
    rwa [List.append_assoc, List.singleton_append] at next

/-- Each of them follows what was sent. -/
theorem follows {P : Clock → Sent → Prop} (orders : c.Orders top log) (sends : Sends P c out)
    (later : ∀ c s, P c s → ∀ t, c.lastKindTs.get s.msg.kind = some t → t ≤ s.ts)
    (unseen : ∀ c s, P c s → s.pts? = none) (plain : ∀ c s, P c s → s.jump = none) : Each InTurn log out := by
  induction out generalizing c log with
  | nil => exact trivial
  | cons s rest ih =>
    have shown := unseen c s sends.1
    have next := orders.note (later c s sends.1) fun p pts => by rw [shown] at pts; contradiction
    refine ⟨⟨fun a member same => ?_, lands_of_plain (plain c s sends.1)⟩, ih next sends.2⟩
    obtain ⟨t, last, le⟩ := orders.last a member
    exact Nat.le_trans le (later c s sends.1 t (same ▸ last))

/-- Messages sent at one timestamp, no kind having been sent after it. -/
theorem notes_at {t : ℕ} (orders : c.Orders top log) (same : ∀ s ∈ out, s.ts = t)
    (past : ∀ kind last, c.lastKindTs.get kind = some last → last ≤ t)
    (fits : ∀ s ∈ out, ∀ p, s.pts? = some p → Engine.signed p = p ∧ p < top + 2 ^ 23) :
    (c.notes out).Orders top (log ++ out) := by
  induction out generalizing c log with
  | nil => simpa using orders
  | cons s rest ih =>
    have here := same s (List.mem_cons_self ..)
    have next := ih
      (orders.note (s := s) (fun last known => by rw [here]; exact past _ last known)
        (fits s (List.mem_cons_self ..)))
      (fun r member => same r (List.mem_cons_of_mem _ member)) (fun kind last known => by
        simp only [Clock.note, PerKind.get_set] at known
        split at known
        · obtain rfl := Option.some.inj known
          omega
        · exact past kind last known)
      (fun r member => fits r (List.mem_cons_of_mem _ member))
    rwa [List.append_assoc, List.singleton_append] at next

theorem congr (orders : c.Orders top log) (kinds : c'.lastKindTs = c.lastKindTs)
    (out : c.lastOutTs ≤ c'.lastOutTs) (pts : c'.lastPts = c.lastPts) : c'.Orders top log where
  last := by rw [kinds]; exact orders.last
  behind := by
    intro kind t last
    rw [kinds] at last
    exact Nat.le_trans (orders.behind kind t last) out
  shown := by rw [pts]; exact orders.shown
  pts := by rw [pts]; exact orders.pts

theorem before (orders : c.Orders top log) {a : Sent} (member : a ∈ log) : a.ts ≤ c.lastOutTs := by
  obtain ⟨t, last, le⟩ := orders.last a member
  exact Nat.le_trans le (orders.behind _ t last)

end Orders

namespace Paced

/-- What was sent is the same, and the output has not landed anywhere. -/
theorem congr (paced : c.Paced log) (fresh : c'.fresh = c.fresh)
    (kinds : c'.lastKindTs = c.lastKindTs) (sent : c'.sent = c.sent)
    (first : c'.firstEmitted = c.firstEmitted)
    (landed : c'.connected = true → c'.needSync = false →
      c.connected = true ∧ c.needSync = false ∧ c'.landing = c.landing) : c'.Paced log where
  blank := by
    intro unused
    rw [kinds]
    exact paced.blank (fresh ▸ unused)
  count := sent.trans paced.count
  begun := by
    rw [first]
    exact paced.begun
  landed := by
    intro up synced l landing
    obtain ⟨up', synced', same⟩ := landed up synced
    exact paced.landed up' synced' l (same ▸ landing)

theorem seek (paced : c.Paced log) (cursor : ℕ) : (c.seek cursor).Paced log :=
  paced.congr rfl rfl rfl rfl (by simp [Clock.seek])

theorem land (paced : c.Paced log) (x : Entry) (base : ℕ) : (c.land x base).Paced log where
  blank := by simp [Clock.land]
  count := paced.count
  begun := paced.begun
  landed := by
    rintro - - l landing
    obtain rfl : (x, c.sent) = l := Option.some.inj landing
    exact paced.count

/-- A connection on which nothing was sent. -/
theorem connect (c : Clock) : c.connect.Paced [] where
  blank := by simp [Clock.connect]
  count := rfl
  begun := by simp
  landed := by simp [Clock.connect]

end Paced

namespace Near

/-- What the timestamps depend on is the same, except for the cursor. -/
theorem congr (near : c.Near top log) (orders : c'.Orders top log)
    (landed : c'.connected = true → c'.needSync = false →
      c.connected = true ∧ c.needSync = false ∧ c'.landing = c.landing ∧ c'.tsOffset = c.tsOffset) :
    c'.Near top log where
  orders := orders
  landed := by
    intro up synced l landing
    obtain ⟨up', synced', same, offset⟩ := landed up synced
    rw [offset]
    exact near.landed up' synced' l (same ▸ landing)

theorem seek (near : c.Near top log) (cursor : ℕ) : (c.seek cursor).Near top log :=
  near.congr (near.orders.congr rfl (Nat.le_refl _) rfl) (by simp [Clock.seek])

theorem land {frame : ℕ} {x : Entry} {base : ℕ} (near : c.Near top log) (paced : c.Paced log)
    (fits : c.Fits frame x base) (room : Room top now) (last : c.lastOutTs ≤ top + now / MS)
    (frames : frame ≤ 200) (shift : Flv.Shift x.cts) : (c.land x base).Near top log where
  orders := near.orders.congr rfl (Nat.le_refl _) rfl
  landed := by
    rintro - - l landing
    obtain rfl : (x, c.sent) = l := Option.some.inj landing
    obtain ⟨small, later, shown⟩ := afterSent_fits room last near.orders.pts frames shift
    unfold Fits at fits
    split at fits
    · next unused =>
      obtain ⟨rfl, -⟩ := paced.blank unused
      exact ⟨base, by omega, rfl, by simp, by simp⟩
    · rw [← fits] at small later shown
      refine ⟨base, small, rfl, fun a member => Nat.lt_of_le_of_lt (near.orders.before member) later, ?_⟩
      exact fun a member p pts => Int.lt_of_le_of_lt (near.orders.shown a member p pts) shown

theorem connect (top : ℕ) (c : Clock) : c.connect.Near top [] where
  orders := ⟨fun _ none => (nomatch none), by simp [Clock.connect], fun _ none => (nomatch none),
    Int.le_refl _, by simp only [Clock.connect]; omega⟩
  landed := by simp [Clock.connect]

end Near

end Clock

/-- The operation opens a connection. -/
def Op.opens : Op → Bool
  | .outputConnected _ => true
  | _ => false

namespace Engine

open Clock

variable {top now : ℕ} {e e' : Engine} {log out : List Sent}

/-! ## Frames and composition times -/

/-- Frames last 200 ms at most, composition times have 24 bits, and a held frame was shown by `now`. -/
structure Calm (now : ℕ) (e : Engine) : Prop where
  frames : ∀ f, e.FrameOf f → f ≤ 200
  shifts : ∀ x ∈ e.ring, Flv.Shift x.cts
  held : ∀ h, e.out.hold = some h → h.last ≤ now ∧ h.frameMs ≤ 200 ∧ Flv.Shift h.cts

/-- Timestamps have gone no further past `top` than the clock; a held frame's, since it was last shown. -/
structure Slow (top now : ℕ) (e : Engine) : Prop where
  last : e.out.lastOutTs ≤ top + now / MS
  held : ∀ h, e.out.hold = some h → e.out.lastOutTs ≤ top + h.last / MS

theorem Kept.calm (kept : Kept now e e') (calm : e.Calm now) : e'.Calm now where
  frames := fun f lasts => calm.frames f (kept.frames f lasts)
  shifts := fun x member => calm.shifts x (kept.ring x member)
  held := by
    intro h held
    obtain ⟨last, frame⟩ := kept.hold h held
    constructor
    · rcases last with taken | ⟨g, there, same⟩
      · exact Nat.le_of_eq taken
      · exact same ▸ (calm.held g there).1
    · rcases frame with ⟨g, there, frame, cts⟩ | ⟨lasts, x, member, cts⟩
      · exact frame ▸ cts ▸ (calm.held g there).2
      · exact ⟨calm.frames _ lasts, cts ▸ calm.shifts x member⟩

theorem Kept.slow (kept : Kept now e e') (slow : e.Slow top now)
    (same : e'.out.lastOutTs = e.out.lastOutTs) : e'.Slow top now where
  last := by
    rw [same]
    exact slow.last
  held := by
    intro h held
    rw [same]
    rcases (kept.hold h held).last with taken | ⟨g, there, last⟩
    · rw [taken]
      exact slow.last
    · exact last ▸ slow.held g there

theorem Tick.calm (tick : Tick now e e' out) (calm : e.Calm now) : e'.Calm now := by
  cases tick with
  | still kept | seeks kept | lands kept | resumes kept | drops kept => exact kept.calm calm
  | receives _ x ring _ _ _ _ _ same shift frames =>
    refine ⟨fun f lasts => ?_, fun y member => ?_, fun h held => ?_⟩
    · rcases frames f lasts with before | measured
      · exact calm.frames f before
      · exact measured
    · rw [ring] at member
      rcases List.mem_append.mp member with older | new
      · exact calm.shifts y older
      · obtain rfl := List.mem_singleton.mp new
        exact shift
    · rw [same] at held
      exact calm.held h held
  | shows h held => exact (showFrame_kept held).calm calm
  | sends => exact (sendEntry_kept now e).calm calm
  | mutes =>
    have muted : Kept now e e.muteEntry := .of_out rfl rfl (.inl rfl)
    exact muted.calm calm

theorem Ticks.calm (ticks : Ticks now e e' out) (calm : e.Calm now) : e'.Calm now :=
  Steps.preserves (fun _ _ _ tick => tick.calm) ticks calm

theorem Calm.later {t : ℕ} (calm : e.Calm t) (le : t ≤ now) : e.Calm now :=
  ⟨calm.frames, calm.shifts, fun h held => ⟨Nat.le_trans (calm.held h held).1 le, (calm.held h held).2⟩⟩

theorem Slow.later {t : ℕ} (slow : e.Slow top t) (le : t ≤ now) : e.Slow top now where
  last := Nat.le_trans slow.last (Nat.add_le_add_left (Nat.div_le_div_right le) top)
  held := slow.held

theorem step_calm {t : ℕ} (sound : e.Sound) (timed : Timed t e) (anchored : e.Anchored) (op : Op)
    (le : t ≤ op.now?.getD t) (calm : e.Calm t) : (e.step op).1.Calm (op.now?.getD t) := by
  cases flows : op.flows with
  | true => exact Ticks.calm (step_ticks sound timed anchored flows le) (calm.later le)
  | false =>
    cases op with
    | unsend taken =>
      obtain ⟨-, -, kept⟩ := e.unsend_clock t taken
      exact kept.calm calm
    | outputConnected now =>
      obtain ⟨waits, kept, -, ticks⟩ := outputConnected_ticks sound now
      exact Ticks.calm ticks (kept.calm (calm.later le))
    | _ => contradiction

/-! ## The message at the cursor -/

/-- The message at the cursor lands later than what was sent before the splice. -/
theorem airs_lands {y : Entry} {headers : List Sent} {s : Sent} (paced : e.out.clock.Paced log)
    (near : e.out.clock.Near top log) (connected : e.out.connected = true) (synced : e.out.needSync = false)
    (outgoing : Sends (Header y.ts) e.out.clock.settle headers)
    (airs : (e.out.clock.settle.notes headers).Airs y s) : Lands (log ++ headers) s := by
  intro n jump
  have fields := notes_fields e.out.clock.settle headers
  have offset : (e.out.clock.settle.notes headers).tsOffset = e.out.clock.tsOffset := by rw [fields]; rfl
  have landing : (e.out.clock.settle.notes headers).landing = e.out.clock.landing := by rw [fields]; rfl
  rw [airs.jump, landing] at jump
  split at jump
  · next media =>
    obtain ⟨l, landed, rfl⟩ := Option.map_eq_some_iff.mp jump
    obtain ⟨here, same⟩ := Option.filter_eq_some_iff.mp landed
    have count := paced.landed connected synced l here
    obtain ⟨base, small, shift, earlier, shown⟩ := near.landed connected synced l here
    obtain rfl : l.1 = y := by simpa using same
    have reach : base ≤ s.ts := by
      have le := toNat_le_outTs (e.out.clock.settle.notes headers) s.msg.kind l.1.ts
      rw [← airs.stamp, offset, shift, signed_shift small] at le
      omega
    rw [count, List.take_left, List.drop_left]
    refine ⟨by simp, fun a member => Nat.lt_of_lt_of_le (earlier a member) reach,
      outgoing.all fun c s header => header.header, fun a member p q pts pts' => ?_⟩
    have shows : q = s.ts + l.1.cts := by
      simp only [Sent.pts?, airs.origin] at pts'
      split at pts'
      · exact (Option.some.inj pts').symm
      · contradiction
    rcases List.mem_append.mp member with older | header
    · have before := shown a older p pts
      omega
    · rw [outgoing.all (fun c s header => header.unseen) a header] at pts
      contradiction
  · contradiction

/-- A frame sent at `t`, presented by a composition time of 24 bits, is presented at a time that does not
wrap. -/
theorem pts_fits {t : ℕ} {cts : ℤ} (room : Room top now) (sent : t ≤ top) (shift : Flv.Shift cts) :
    signed (t + cts) = t + cts ∧ t + cts < top + 2 ^ 23 := by
  unfold Room at room
  generalize now / MS = elapsed at room
  obtain ⟨low, high⟩ := shift
  exact ⟨signed_of_fits (by omega) (by omega), by omega⟩

private theorem sendEntry_paced {y : Entry} (paced : e.out.clock.Paced log) (begun : e.out.fresh = false)
    (found : e.entry e.out.nextSeq = some y) : e.sendEntry.1.out.clock.Paced (log ++ e.sendEntry.2) := by
  obtain ⟨headers, message, skip, sent, outgoing, clock⟩ := sendEntry_clock found
  rw [clock, sent]
  exact
    { blank := by
        intro unused
        rw [passed, notes_fields] at unused
        rw [show e.out.clock.fresh = e.out.fresh from rfl, begun] at unused
        contradiction
      count := by
        simp only [passed, List.length_append]
        rw [paced.count]
      begun := by
        intro s _ x _
        show (e.out.firstEmitted.or (some e.out.nextSeq)).isSome = true
        cases e.out.firstEmitted <;> rfl
      landed := by simp [passed] }

/-- The message at the cursor is sent after its headers. -/
theorem sendEntry_near {y : Entry} (paced : e.out.clock.Paced log) (near : e.out.clock.Near top log)
    (room : Room top now) (connected : e.out.connected = true) (synced : e.out.needSync = false)
    (found : e.entry e.out.nextSeq = some y) (shift : Flv.Shift y.cts) :
    Each InTurn log e.sendEntry.2 ∧
      ((∀ s ∈ e.sendEntry.2, s.ts ≤ top) → e.sendEntry.1.out.clock.Near top (log ++ e.sendEntry.2)) := by
  obtain ⟨headers, message, skip, sent, outgoing, clock⟩ := sendEntry_clock found
  have start : e.out.clock.settle.Orders top log := near.orders.congr rfl (Nat.le_refl _) rfl
  have later (c : Clock) (s : Sent) (header : Header y.ts c s) (t : ℕ)
      (last : c.lastKindTs.get s.msg.kind = some t) : t ≤ s.ts := by
    rw [header.stamp]
    exact le_outTs last _
  have headed := start.notes outgoing.stamped later fun c s header => header.unseen
  have each := start.follows outgoing.stamped later (fun c s header => header.unseen)
    fun c s header => header.plain
  have pass (message : List Sent)
      (orders : (e.out.clock.settle.notes (headers ++ message)).Orders top (log ++ (headers ++ message))) :
      (passed e.out.clock skip (headers ++ message)).Near top (log ++ (headers ++ message)) := by
    rw [notes_settle] at orders
    exact ⟨orders.congr rfl (Nat.le_refl _) rfl, by simp [passed]⟩
  rw [clock, sent]
  rcases outgoing.last with ⟨rfl, -⟩ | ⟨s, rfl, airs⟩
  · exact ⟨by rwa [List.append_nil], fun _ => pass [] (by rwa [List.append_nil])⟩
  · have next (t : ℕ) (last : (e.out.clock.settle.notes headers).lastKindTs.get s.msg.kind = some t) :
        t ≤ s.ts := by
      rw [airs.stamp]
      exact le_outTs last _
    refine ⟨Each.append.mpr ⟨each, ⟨fun a member same => ?_, ?_⟩, trivial⟩, fun small => pass [s] ?_⟩
    · obtain ⟨t, last, le⟩ := headed.last a member
      exact Nat.le_trans le (next t (same ▸ last))
    · exact airs_lands paced near connected synced outgoing.stamped airs
    · rw [notes_append, ← List.append_assoc]
      refine headed.note next fun p shown => ?_
      have fits := pts_fits room (small s (by simp)) shift
      simp only [Sent.pts?, airs.origin] at shown
      split at shown
      · obtain rfl := Option.some.inj shown
        exact fits
      · contradiction

/-! ## The held frame -/

/-- The timestamp of a held frame comes after everything sent on the connection. -/
theorem holdTs_late {h : HoldFrame} (near : e.out.clock.Near top log) (calm : e.Calm now)
    (slow : e.Slow top now) (room : Room top now) (held : e.out.hold = some h) :
    e.out.lastOutTs < e.holdTs now h ∧ e.out.lastPts < e.holdTs now h + h.cts := by
  obtain ⟨-, frames, shift⟩ := calm.held h held
  obtain ⟨-, later, shown⟩ := afterSent_fits room slow.last near.orders.pts frames shift
  have reach : e.out.clock.afterSent h.frameMs h.cts ≤ e.holdTs now h := Nat.le_max_right _ _
  have pts : e.out.clock.lastPts = e.out.lastPts := rfl
  exact ⟨Nat.lt_of_lt_of_le later reach, by omega⟩

/-- A held frame comes later than everything sent on the connection. -/
theorem Held.lands {h : HoldFrame} {headers : List Sent} {frame : Sent} (held : Held now h e headers frame)
    (paced : e.out.clock.Paced log) (near : e.out.clock.Near top log)
    (past : e.out.lastOutTs < e.holdTs now h ∧ e.out.lastPts < e.holdTs now h + h.cts) :
    Lands (log ++ headers) frame := by
  intro n jump
  have count : e.out.sent = log.length := paced.count
  obtain rfl : e.out.sent = n := Option.some.inj (held.jump.symm.trans jump)
  rw [count, List.take_left, List.drop_left, held.stamp]
  refine ⟨by simp, fun a member => Nat.lt_of_le_of_lt (near.orders.before member) past.1,
    fun s header => (held.headers s header).header, fun a member p q pts pts' => ?_⟩
  have shows : q = e.holdTs now h + h.cts := by
    simp only [Sent.pts?, held.origin, held.stamp] at pts'
    exact (Option.some.inj pts').symm
  rcases List.mem_append.mp member with older | header
  · have before := near.orders.shown a older p pts
    have last : e.out.clock.lastPts = e.out.lastPts := rfl
    omega
  · rw [(held.headers a header).unseen] at pts
    contradiction

/-- Neither a held frame nor its headers are buffered messages. -/
theorem Held.entry? {h : HoldFrame} {headers : List Sent} {frame : Sent}
    (held : Held now h e headers frame) : ∀ s ∈ headers ++ [frame], s.entry? = none := by
  intro s member
  rcases List.mem_append.mp member with header | last
  · exact (held.headers s header).header.entry?
  · obtain rfl := List.mem_singleton.mp last
    simp only [Sent.entry?, held.origin]

theorem Held.stamps {h : HoldFrame} {headers : List Sent} {frame : Sent} (held : Held now h e headers frame) :
    ∀ s ∈ headers ++ [frame], s.ts = e.holdTs now h := by
  intro s member
  rcases List.mem_append.mp member with header | last
  · exact (held.headers s header).stamp
  · obtain rfl := List.mem_singleton.mp last
    exact held.stamp

private theorem showFrame_paced {h : HoldFrame} (paced : e.out.clock.Paced log) (needs : e.out.needSync = true) :
    (e.showFrame now h).1.out.clock.Paced (log ++ (e.showFrame now h).2) := by
  obtain ⟨headers, frame, sent, held, clock⟩ := showFrame_clock now h e
  rw [clock, sent]
  exact
    { blank := by
        intro unused
        rw [notes_fields] at unused
        contradiction
      count := by
        show e.out.sent + _ = _
        rw [show e.out.sent = log.length from paced.count, ← List.length_append]
      begun := by
        intro s member x entry
        rw [notes_fields]
        rcases List.mem_append.mp member with older | shown
        · exact paced.begun s older x entry
        · rw [held.entry? s shown] at entry
          contradiction
      landed := by
        intro up synced
        rw [notes_fields] at synced
        rw [show e.out.clock.needSync = e.out.needSync from rfl, needs] at synced
        contradiction }

/-- Messages sent at one timestamp, no earlier than what was sent before, follow it. -/
theorem each_at {t : ℕ} (past : ∀ a ∈ log, a.ts ≤ t) (same : ∀ s ∈ out, s.ts = t) :
    Each (fun before s => ∀ a ∈ before, a.ts ≤ s.ts) log out := by
  induction out generalizing log with
  | nil => exact trivial
  | cons s rest ih =>
    have here := same s (List.mem_cons_self ..)
    refine ⟨fun a member => here ▸ past a member, ih (fun a member => ?_) fun r later =>
      same r (List.mem_cons_of_mem _ later)⟩
    rcases List.mem_append.mp member with older | new
    · exact past a older
    · obtain rfl := List.mem_singleton.mp new
      exact Nat.le_of_eq here

/-- A held frame is sent after its headers. -/
theorem showFrame_near {h : HoldFrame} (paced : e.out.clock.Paced log) (near : e.out.clock.Near top log)
    (calm : e.Calm now) (slow : e.Slow top now) (room : Room top now) (here : e.out.hold = some h)
    (needs : e.out.needSync = true) :
    Each InTurn log (e.showFrame now h).2 ∧
      ((∀ s ∈ (e.showFrame now h).2, s.ts ≤ top) →
        (e.showFrame now h).1.out.clock.Near top (log ++ (e.showFrame now h).2)) := by
  obtain ⟨headers, frame, sent, held, clock⟩ := showFrame_clock now h e
  have past := holdTs_late near calm slow room here
  have start : Clock.Orders top { e.out.clock with fresh := false } log :=
    near.orders.congr rfl (Nat.le_refl _) rfl
  have each := each_at (fun a member => Nat.le_of_lt (Nat.lt_of_le_of_lt (near.orders.before member) past.1))
    held.stamps
  have lands : Each Lands log (headers ++ [frame]) := Each.append.mpr
    ⟨Each.of_forall fun s header _ => lands_of_plain (held.headers s header).plain,
      held.lands paced near past, trivial⟩
  rw [clock, sent]
  refine ⟨?_, fun small => ⟨?_, fun up synced => ?_⟩⟩
  · exact (each.and lands).mono fun before s both => ⟨fun a member _ => both.1 a member, both.2⟩
  · refine Orders.congr (start.notes_at held.stamps (fun kind last known => ?_) fun s member p pts => ?_)
      rfl (Nat.le_refl _) rfl
    · exact Nat.le_trans (near.orders.behind kind last known) (Nat.le_of_lt past.1)
    · have fits := pts_fits room (small s member) (calm.held h here).2.2
      rw [held.stamps s member] at fits
      rcases List.mem_append.mp member with header | last
      · rw [(held.headers s header).unseen] at pts
        contradiction
      · obtain rfl := List.mem_singleton.mp last
        simp only [Sent.pts?, held.origin, held.stamp] at pts
        obtain rfl := Option.some.inj pts
        exact fits
  · rw [notes_fields] at synced
    rw [show e.out.clock.needSync = e.out.needSync from rfl, needs] at synced
    contradiction

/-! ## Ticks -/

theorem notes_within {bound : ℕ} {c : Clock} (start : c.lastOutTs ≤ bound) (small : ∀ s ∈ out, s.ts ≤ bound) :
    (c.notes out).lastOutTs ≤ bound := by
  induction out generalizing c with
  | nil => exact start
  | cons s rest ih =>
    exact ih (Nat.max_le.mpr ⟨start, small s (List.mem_cons_self ..)⟩) fun r later =>
      small r (List.mem_cons_of_mem _ later)

private theorem sendEntry_slow {y : Entry} (slow : e.Slow top now) (found : e.entry e.out.nextSeq = some y)
    (small : ∀ s ∈ e.sendEntry.2, s.ts ≤ top) : e.sendEntry.1.Slow top now := by
  obtain ⟨headers, message, skip, sent, -, clock⟩ := sendEntry_clock found
  have last : e.sendEntry.1.out.lastOutTs = (e.out.clock.notes e.sendEntry.2).lastOutTs := by
    rw [sent]
    exact congrArg Clock.lastOutTs clock
  have hold : e.sendEntry.1.out.hold = e.out.hold := (sendEntry_course e).hold
  have within {t : ℕ} (bound : e.out.lastOutTs ≤ top + t / MS) : e.sendEntry.1.out.lastOutTs ≤ top + t / MS := by
    rw [last]
    exact notes_within bound fun s member => Nat.le_trans (small s member) (Nat.le_add_right _ _)
  exact ⟨within slow.last, fun h there => within (slow.held h (hold ▸ there))⟩

private theorem showFrame_slow {h : HoldFrame} (slow : e.Slow top now)
    (small : ∀ s ∈ (e.showFrame now h).2, s.ts ≤ top) :
    (e.showFrame now h).1.Slow top now := by
  obtain ⟨headers, frame, sent, -, clock⟩ := showFrame_clock now h e
  have last : (e.showFrame now h).1.out.lastOutTs ≤ top + now / MS := by
    rw [show (e.showFrame now h).1.out.lastOutTs = _ from congrArg Clock.lastOutTs clock, ← sent]
    exact notes_within slow.last fun s member => Nat.le_trans (small s member) (Nat.le_add_right _ _)
  refine ⟨last, fun g there => ?_⟩
  rw [(showFrame_course e now h).hold] at there
  obtain rfl := Option.some.inj there
  exact last

/-- Every tick of the clock keeps what was sent counted. -/
theorem Tick.paced (tick : Tick now e e' out) (paced : e.out.clock.Paced log) :
    e'.out.clock.Paced (log ++ out) := by
  cases tick with
  | still _ _ same | receives _ _ _ _ _ _ _ _ same =>
    rw [same, List.append_nil]
    exact paced
  | seeks _ cursor same =>
    rw [same, List.append_nil]
    exact paced.seek cursor
  | lands _ _ x base _ _ _ same =>
    rw [same, List.append_nil]
    exact paced.land x base
  | resumes _ h _ needs _ same =>
    rw [same, List.append_nil]
    exact paced.congr rfl rfl rfl rfl fun up synced => ⟨up, synced, rfl⟩
  | drops _ down same =>
    obtain ⟨fresh, first, lastOut, kinds, pts, sent⟩ := same
    rw [List.append_nil]
    refine paced.congr fresh kinds sent first fun up => ?_
    rw [show e'.out.clock.connected = false from down] at up
    contradiction
  | shows h _ needs => exact showFrame_paced paced needs
  | sends _ y _ begun _ found => exact sendEntry_paced paced begun found
  | mutes =>
    rw [List.append_nil]
    exact ⟨paced.blank, paced.count, paced.begun, by simp [muteEntry, pass, Output.clock]⟩

/-- Every tick of the clock keeps the order of what was sent, while nothing sent is past `top`. -/
theorem Tick.near (tick : Tick now e e' out) (paced : e.out.clock.Paced log)
    (near : e.out.clock.Near top log) (calm : e.Calm now) (slow : e.Slow top now) (room : Room top now) :
    Each InTurn log out ∧
      ((∀ s ∈ out, s.ts ≤ top) → e'.out.clock.Near top (log ++ out) ∧ e'.Slow top now) := by
  cases tick with
  | still kept _ same =>
    rw [List.append_nil, same]
    exact ⟨trivial, fun _ => ⟨near, kept.slow slow (congrArg Clock.lastOutTs same)⟩⟩
  | receives _ _ _ _ _ _ _ _ same =>
    rw [List.append_nil, same]
    exact ⟨trivial, fun _ => ⟨near, by rw [same]; exact slow.last, by rw [same]; exact slow.held⟩⟩
  | seeks kept cursor same =>
    rw [List.append_nil, same]
    exact ⟨trivial, fun _ => ⟨near.seek cursor, kept.slow slow (congrArg Clock.lastOutTs same)⟩⟩
  | lands kept _ x base member _ fits same =>
    rw [List.append_nil, same]
    have calm' := kept.calm calm
    have frames := calm'.frames _ (frameMs_frameOf _ x.session)
    exact ⟨trivial, fun _ => ⟨near.land paced fits room slow.last frames (calm'.shifts x member),
      kept.slow slow (congrArg Clock.lastOutTs same)⟩⟩
  | resumes _ h held _ gone same =>
    rw [List.append_nil]
    have bound := slow.held h held
    have before := (calm.held h held).1
    have elapsed : h.last / MS + (now - h.last) / MS ≤ now / MS :=
      calc h.last / MS + (now - h.last) / MS
      _ ≤ (h.last + (now - h.last)) / MS := (Nat.le_div_iff_mul_le (by decide)).mpr (by
          have := Nat.div_mul_le_self h.last MS
          have := Nat.div_mul_le_self (now - h.last) MS
          rw [Nat.add_mul]
          omega)
      _ = now / MS := by rw [Nat.add_sub_cancel' before]
    unfold Room at room
    have fits : (e.out.lastOutTs + (now - h.last) / MS) % 2 ^ 64 = e.out.lastOutTs + (now - h.last) / MS :=
      Nat.mod_eq_of_lt (by omega)
    rw [fits] at same
    refine ⟨trivial, fun _ => ⟨?_, ?_, fun g there => ?_⟩⟩
    · rw [same]
      exact near.congr (near.orders.congr rfl (Nat.le_add_right _ _) rfl) fun up synced => ⟨up, synced, rfl, rfl⟩
    · rw [show e'.out.lastOutTs = _ from congrArg Clock.lastOutTs same]
      show e.out.lastOutTs + (now - h.last) / MS ≤ _
      omega
    · rw [gone] at there
      contradiction
  | drops kept down same =>
    obtain ⟨fresh, first, lastOut, kinds, pts, sent⟩ := same
    rw [List.append_nil]
    refine ⟨trivial, fun _ => ⟨?_, kept.slow slow lastOut⟩⟩
    refine near.congr (near.orders.congr kinds (Nat.le_of_eq lastOut.symm) pts) fun up => ?_
    rw [show e'.out.clock.connected = false from down] at up
    contradiction
  | shows h held needs =>
    obtain ⟨each, next⟩ := showFrame_near paced near calm slow room held needs
    exact ⟨each, fun small => ⟨next small, showFrame_slow slow small⟩⟩
  | sends layout y connected begun synced found =>
    obtain ⟨each, next⟩ := sendEntry_near paced near room connected synced found
      (calm.shifts y (layout.entry_iff.mp found).1)
    exact ⟨each, fun small => ⟨next small, sendEntry_slow slow found small⟩⟩
  | mutes =>
    rw [List.append_nil]
    exact ⟨trivial, fun _ => ⟨⟨near.orders.congr rfl (Nat.le_refl _) rfl, by simp [muteEntry, pass, Output.clock]⟩,
      slow.last, slow.held⟩⟩

/-- What was sent on a connection, and where the clock is: all in order while there is room for what is
sent. -/
structure Goes (top now : ℕ) (e : Engine) (log : List Sent) : Prop where
  paced : e.out.clock.Paced log
  follows : Room top now → Each (fun before s => (∀ a ∈ before, a.ts ≤ top) → InTurn before s) [] log
  near : Room top now → (∀ a ∈ log, a.ts ≤ top) → e.out.clock.Near top log ∧ e.Slow top now

theorem Tick.goes (tick : Tick now e e' out) (calm : e.Calm now) (goes : e.Goes top now log) :
    e'.Goes top now (log ++ out) where
  paced := tick.paced goes.paced
  follows := by
    intro room
    refine Each.append.mpr ⟨goes.follows room, ?_⟩
    rw [List.nil_append]
    by_cases small : ∀ a ∈ log, a.ts ≤ top
    · obtain ⟨near, slow⟩ := goes.near room small
      exact (tick.near goes.paced near calm slow room).1.mono fun before s follows _ => follows
    · exact Each.of_extends fun later before _ past =>
        absurd (fun a member => past a (before.subset member)) small
  near := by
    intro room small
    obtain ⟨near, slow⟩ := goes.near room fun a member => small a (List.mem_append_left _ member)
    exact (tick.near goes.paced near calm slow room).2 fun s member => small s (List.mem_append_right _ member)

theorem Ticks.goes (ticks : Ticks now e e' out) (calm : e.Calm now) (goes : e.Goes top now log) :
    e'.Goes top now (log ++ out) := by
  have kept := Steps.preserves_log (P := fun e log => e.Calm now ∧ e.Goes top now log)
    (fun _ _ _ _ tick kept => ⟨tick.calm kept.1, tick.goes kept.1 kept.2⟩) ticks ⟨calm, goes⟩
  exact kept.2

theorem Goes.later {t : ℕ} (goes : e.Goes top t log) (le : t ≤ now) : e.Goes top now log where
  paced := goes.paced
  follows := fun room => goes.follows (room.sooner le)
  near := by
    intro room small
    obtain ⟨near, slow⟩ := goes.near (room.sooner le) small
    exact ⟨near, slow.later le⟩

/-- On one connection every operation keeps the order of what was sent. -/
theorem step_goes {t : ℕ} (sound : e.Sound) (timed : Timed t e) (anchored : e.Anchored) (calm : e.Calm t) {op : Op}
    (le : t ≤ op.now?.getD t) (same : op.opens = false) (goes : e.Goes top t log) :
    (e.step op).1.Goes top (op.now?.getD t) (log ++ (e.step op).2) := by
  cases flows : op.flows with
  | true => exact Ticks.goes (step_ticks sound timed anchored flows le) (calm.later le) (goes.later le)
  | false =>
    cases op with
    | unsend taken =>
      obtain ⟨cursor, same, kept⟩ := e.unsend_clock t taken
      dsimp only [step]
      rw [List.append_nil]
      refine ⟨?_, goes.follows, fun room small => ?_⟩
      · rw [same]
        exact goes.paced.congr rfl rfl rfl rfl fun up synced => ⟨up, synced, rfl⟩
      · obtain ⟨near, slow⟩ := goes.near room small
        rw [same]
        exact ⟨near.congr (near.orders.congr rfl (Nat.le_refl _) rfl) fun up synced => ⟨up, synced, rfl, rfl⟩,
          kept.slow slow (congrArg Clock.lastOutTs same)⟩
    | outputConnected => contradiction
    | _ => contradiction

/-- A new connection starts the timestamps over. -/
theorem outputConnected_goes (sound : e.Sound) {t : ℕ} (calm : e.Calm t) (le : t ≤ now) :
    (e.outputConnected now).Goes top now [] := by
  obtain ⟨waits, kept, same, ticks⟩ := outputConnected_ticks sound now
  have nothing : waits.out.lastOutTs = 0 := congrArg Clock.lastOutTs same
  have start : waits.Goes top now [] := by
    refine ⟨?_, fun _ => trivial, fun _ _ => ⟨?_, nothing ▸ Nat.zero_le _, fun h _ => nothing ▸ Nat.zero_le _⟩⟩
    · rw [same]
      exact .connect _
    · rw [same]
      exact .connect top _
  exact Ticks.goes ticks (kept.calm (calm.later le)) start

/-! ## Runs -/

/-- What a mask waits for is a keyframe in every state a run reaches, and frames and composition times are
as they are measured. -/
theorem anchored_reached (config : EngineConfig) {ops : List Op}
    (ordered : Chronological Op.now? 0 ops) :
    ((Engine.new config).after ops).Anchored ∧ ((Engine.new config).after ops).Calm (clockAfter Op.now? 0 ops) := by
  have start : Regular 0 (Engine.new config) ∧ (Engine.new config).Anchored ∧ (Engine.new config).Calm 0 := by
    refine ⟨⟨.new config, new_inSession config, .new config⟩, by simp [Anchored, anchor?, Engine.new], ?_, ?_, ?_⟩
    · rintro f (rfl | ⟨s, member, -⟩)
      · decide
      · contradiction
    · exact fun _ none => absurd none List.not_mem_nil
    · exact fun _ none => absurd none.symm (Option.some_ne_none _)
  have keep (t : ℕ) (e : Engine) (op : Op) (le : t ≤ op.now?.getD t)
      (kept : Regular t e ∧ e.Anchored ∧ e.Calm t) :
      Regular (op.now?.getD t) (e.step op).1 ∧ (e.step op).1.Anchored ∧ (e.step op).1.Calm (op.now?.getD t) :=
    ⟨kept.1.step op le, step_anchored kept.1.sound kept.1.timed kept.2.1 op le,
      step_calm kept.1.sound kept.1.timed kept.2.1 op le kept.2.2⟩
  exact (ordered.preserves Engine.step keep start).2

/-- What the connection opened at `now` sends in the operations after it. -/
theorem connection_goes (config : EngineConfig) {before after : List Op} {now : ℕ} (top : ℕ)
    (ordered : Chronological Op.now? 0 (before ++ .outputConnected now :: after))
    (connection : ∀ op ∈ after, op.opens = false) :
    let e := ((Engine.new config).after before).outputConnected now
    (e.after after).Goes top (clockAfter Op.now? now after) (e.sends after) := by
  obtain ⟨earlier, le, later⟩ := Chronological.append.mp ordered
  have regular := Regular.reached config earlier
  obtain ⟨anchored, calm⟩ := anchored_reached config earlier
  have keep (t : ℕ) (e : Engine) (op : Op) (log : List Sent) (le : t ≤ op.now?.getD t)
      (same : op.opens = false) (kept : Regular t e ∧ e.Anchored ∧ e.Calm t ∧ e.Goes top t log) :
      Regular (op.now?.getD t) (e.step op).1 ∧ (e.step op).1.Anchored ∧ (e.step op).1.Calm (op.now?.getD t) ∧
        (e.step op).1.Goes top (op.now?.getD t) (log ++ (e.step op).2) := by
    obtain ⟨regular, anchored, calm, goes⟩ := kept
    exact ⟨regular.step op le, step_anchored regular.sound regular.timed anchored op le,
      step_calm regular.sound regular.timed anchored op le calm,
      step_goes regular.sound regular.timed anchored calm le same goes⟩
  have opened := regular.step (.outputConnected now) le
  have waiting := step_anchored regular.sound regular.timed anchored (.outputConnected now) le
  have settled := step_calm regular.sound regular.timed anchored (.outputConnected now) le calm
  have kept := later.preserves_log Engine.step keep connection
    ⟨opened, waiting, settled, outputConnected_goes regular.sound calm le⟩
  exact kept.2.2.2

end Engine

end StreamDelay
