import Mathlib.Tactic.Common
import StreamDelay.Proofs.Recorded
import StreamDelay.Proofs.Timestamps

/-! # Between splices nothing is missing

On a connection, whatever follows a splice is sent in the order it was recorded, from the keyframe the splice
landed on, and what is not sent of it was left out for a reason. The invariant ties the messages sent since the
last splice to the cursor, and every tick of the output's clock keeps it.
-/

namespace StreamDelay

open Foundations

namespace Entry

/-- A leading picture. -/
def leading (x : Entry) : Bool := x.hevcNal.any Flv.Hevc.isLeading

/-- A trailing or random access picture: the leading pictures of a keyframe come before it. -/
def endsLeading (x : Entry) : Bool := x.hevcNal.any fun t => Flv.Hevc.isTrailing t || Flv.Hevc.isIrap t

def isCra (x : Entry) : Bool := x.hevcNal = some Flv.Hevc.CRA

/-- The splice whose leading pictures are left out, once `x` is passed. -/
def skipAfter (x : Entry) (skip : Option ℕ) : Option ℕ :=
  if x.kind = .video && x.endsLeading && skip.any (· < x.seq) then none else skip

/-- The CRA marked as a broken link. -/
def marked (x : Entry) : Flv.Bytes :=
  (x.nalOffset.bind fun offset => Flv.Hevc.craToBla x.payload offset).getD x.payload

variable {x y : Entry}

theorem not_both (leads : x.leading = true) : x.endsLeading = false := by
  unfold leading at leads
  unfold endsLeading
  cases slice : x.hevcNal with
  | none => rfl
  | some t =>
    rw [slice] at leads
    simp only [Option.any_some, Flv.Hevc.isLeading, Bool.and_eq_true, decide_eq_true_eq] at leads
    simp only [Option.any_some, Flv.Hevc.isTrailing, Flv.Hevc.isIrap, Bool.or_eq_false_iff,
      Bool.and_eq_false_iff, decide_eq_false_iff_not]
    obtain ⟨low, high⟩ := leads
    rw [UInt8.le_iff_toNat_le] at low high
    refine ⟨?_, .inl ?_⟩
    · rw [UInt8.le_iff_toNat_le]
      simp only [UInt8.reduceToNat] at *
      omega
    · rw [UInt8.le_iff_toNat_le]
      simp only [UInt8.reduceToNat] at *
      omega

theorem isCra_ends (cra : x.isCra = true) : x.endsLeading = true := by
  unfold endsLeading
  rw [of_decide_eq_true cra]
  decide

theorem isCra_not_leading (cra : x.isCra = true) : x.leading = false := by
  unfold leading
  rw [of_decide_eq_true cra]
  decide

/-- Only a video frame is part of a leading group, or ends one. -/
theorem ReadIn.plain {session : Session} (read : x.ReadIn session) (other : ¬x.IsFrame) :
    x.leading = false ∧ x.endsLeading = false := by
  cases slice : x.hevcNal with
  | none => simp [leading, endsLeading, slice]
  | some t => exact absurd (read.of_slice slice).1 other

end Entry

/-- The keyframe a splice landed on, where this is it. -/
def Sent.landing? (s : Sent) : Option Entry := if s.jump.isSome then s.entry? else none

/-! ## What follows a splice -/

/-- Why the recorded message `y` is missing after a splice to `x`: configuration is sent where the destination
lacks it, sound is muted or older than the splice, and a leading picture of a CRA would not decode. -/
def LeftOut (recorded : Entry → Prop) (x y : Entry) : Prop :=
  y.config.isSome = true ∨ (y.kind ≠ .video ∧ (y.kind = .audio ∨ y.ts < x.ts)) ∨
    x.isCra = true ∧ y.leading = true ∧
      ∀ z, recorded z → z.session = x.session → x.seq < z.seq → z.seq < y.seq → z.endsLeading = false

/-- Leading pictures are left out: the splice was to a CRA, and what was sent since did not end them. -/
def skipping (x : Entry) (since : List Sent) : Bool :=
  x.isCra && since.all fun s => s.entry?.all fun y => y.seq = x.seq || !y.endsLeading

/-- Of what was sent, `since` is what follows a splice to `x`: everything recorded from there up to `cursor`,
in order, that is not left out. -/
structure Stretch (recorded : Entry → Prop) (log : List Sent) (x : Entry) (cursor : ℕ)
    (before since : List Sent) : Prop where
  split : log = before ++ since
  known : recorded x
  sync : x.sync = true
  reached : x.seq ≤ cursor
  sent : ∀ s ∈ since, ∀ y, s.entry? = some y →
    recorded y ∧ y.session = x.session ∧ x.seq ≤ y.seq ∧ y.seq < cursor
  shown : ∀ s ∈ since, s.content? = s.entry?
  ordered : since.Pairwise fun a b => ∀ y z, a.entry? = some y → b.entry? = some z → y.seq < z.seq
  /-- The keyframe was sent, unless it is sound that was muted. -/
  landed : x.seq < cursor → x.kind = .video → ∃ s ∈ since, s.landing? = some x
  alone : ∀ s ∈ since, ∀ z, s.landing? = some z → z = x
  settled : ∀ y, recorded y → y.session = x.session → x.seq ≤ y.seq → y.seq < cursor →
    (∃ s ∈ since, s.entry? = some y) ∨ LeftOut recorded x y

variable {recorded : Entry → Prop} {x y : Entry} {log before since out : List Sent} {cursor : ℕ} {s : Sent}

/-- What is left out, configuration or sound apart, is a leading picture. -/
theorem LeftOut.of_frame (left : LeftOut recorded x y) (frame : y.IsFrame) :
    x.isCra = true ∧ y.leading = true ∧
      ∀ z, recorded z → z.session = x.session → x.seq < z.seq → z.seq < y.seq → z.endsLeading = false := by
  rcases left with config | ⟨other, -⟩ | leading
  · rw [frame.2.1] at config
    contradiction
  · exact absurd frame.1 other
  · exact leading

theorem LeftOut.not_ends (left : LeftOut recorded x y) {session : Session} (read : y.ReadIn session) :
    y.endsLeading = false := by
  by_cases frame : y.IsFrame
  · exact Entry.not_both (left.of_frame frame).2.1
  · exact (read.plain frame).2

theorem skipping_append : skipping x (since ++ out) =
    (skipping x since && out.all fun s => s.entry?.all fun y => y.seq = x.seq || !y.endsLeading) := by
  unfold skipping
  rw [List.all_append, Bool.and_assoc]

theorem skipping_headers (headers : ∀ s ∈ out, s.IsHeader) : skipping x (since ++ out) = skipping x since := by
  rw [skipping_append, List.all_eq_true.mpr, Bool.and_true]
  intro s member
  rw [Sent.IsHeader.entry? (headers s member)]
  rfl

namespace Stretch

/-- A splice lands on a recorded keyframe. -/
theorem start (known : recorded x) (sync : x.sync = true) (log : List Sent) :
    Stretch recorded log x x.seq log [] where
  split := (List.append_nil log).symm
  known := known
  sync := sync
  reached := Nat.le_refl _
  sent := fun _ none => nomatch none
  shown := fun _ none => nomatch none
  ordered := .nil
  landed := by omega
  alone := fun _ none => nomatch none
  settled := by omega

/-- Headers are no part of what was recorded. -/
theorem headed (stretch : Stretch recorded log x cursor before since) (headers : ∀ s ∈ out, s.IsHeader) :
    Stretch recorded (log ++ out) x cursor before (since ++ out) where
  split := by rw [stretch.split, List.append_assoc]
  known := stretch.known
  sync := stretch.sync
  reached := stretch.reached
  sent := by
    intro s member y shows
    rcases List.mem_append.mp member with older | header
    · exact stretch.sent s older y shows
    · rw [Sent.IsHeader.entry? (headers s header)] at shows
      contradiction
  shown := by
    intro s member
    rcases List.mem_append.mp member with older | header
    · exact stretch.shown s older
    · rw [Sent.IsHeader.entry? (headers s header), (headers s header).1]
  ordered := by
    refine List.pairwise_append.mpr ⟨stretch.ordered, ?_, ?_⟩
    · refine List.Pairwise.imp_of_mem (R := fun _ _ => True) (fun {a b} member _ _ y z shows => ?_)
        (List.pairwise_of_forall fun _ _ => trivial)
      rw [Sent.IsHeader.entry? (headers a member)] at shows
      contradiction
    · intro a _ b header y z _ shows
      rw [Sent.IsHeader.entry? (headers b header)] at shows
      contradiction
  landed := by
    intro passed video
    obtain ⟨s, member, lands⟩ := stretch.landed passed video
    exact ⟨s, List.mem_append_left _ member, lands⟩
  alone := by
    intro s member z lands
    rcases List.mem_append.mp member with older | header
    · exact stretch.alone s older z lands
    · rw [Sent.landing?, Sent.IsHeader.entry? (headers s header), ite_self] at lands
      contradiction
  settled := by
    intro y known session reached passed
    rcases stretch.settled y known session reached passed with ⟨s, member, shows⟩ | left
    · exact .inl ⟨s, List.mem_append_left _ member, shows⟩
    · exact .inr left

/-- Nothing that ends the leading pictures is recorded between the CRA and the cursor. -/
theorem none_ends (stretch : Stretch recorded log x cursor before since)
    (read : ∀ z, recorded z → ∃ session, z.ReadIn session) (skips : skipping x since = true) {z : Entry}
    (known : recorded z) (session : z.session = x.session) (after : x.seq < z.seq) (passed : z.seq < cursor) :
    z.endsLeading = false := by
  rcases stretch.settled z known session (Nat.le_of_lt after) passed with ⟨s, member, shows⟩ | left
  · simp only [skipping, Bool.and_eq_true, List.all_eq_true] at skips
    have ends := skips.2 s member
    rw [shows, Option.all_some] at ends
    simpa [Nat.ne_of_gt after] using ends
  · obtain ⟨session, read⟩ := read z known
    exact left.not_ends read

/-- The cursor passes a message that is left out. -/
theorem omits (stretch : Stretch recorded log x cursor before since) (here : y.seq = cursor)
    (unique : ∀ z, recorded z → z.session = x.session → z.seq = y.seq → z = y) (left : LeftOut recorded x y)
    (unlanded : x.seq = cursor → x.kind ≠ .video) : Stretch recorded log x (cursor + 1) before since where
  split := stretch.split
  known := stretch.known
  sync := stretch.sync
  reached := Nat.le_succ_of_le stretch.reached
  sent := by
    intro s member z shows
    obtain ⟨known, session, low, high⟩ := stretch.sent s member z shows
    exact ⟨known, session, low, Nat.lt_succ_of_lt high⟩
  shown := stretch.shown
  ordered := stretch.ordered
  landed := by
    intro passed video
    rcases Nat.lt_or_eq_of_le (Nat.le_of_lt_succ passed) with before_ | at_
    · exact stretch.landed before_ video
    · exact absurd video (unlanded at_)
  alone := stretch.alone
  settled := by
    intro z known session reached passed
    rcases Nat.lt_or_eq_of_le (Nat.le_of_lt_succ passed) with before_ | at_
    · exact stretch.settled z known session reached before_
    · rw [unique z known session (at_.trans here.symm)]
      exact .inr left

/-- The message at the cursor is sent. -/
theorem sends (stretch : Stretch recorded log x cursor before since) (here : y.seq = cursor)
    (unique : ∀ z, recorded z → z.session = x.session → z.seq = y.seq → z = y) (known : recorded y)
    (session : y.session = x.session) (origin : s.origin = .buffered y)
    (lands : y = x ∧ s.landing? = some x ∨ x.seq < y.seq ∧ s.landing? = none) :
    Stretch recorded (log ++ [s]) x (cursor + 1) before (since ++ [s]) := by
  have shows : s.entry? = some y := by simp only [Sent.entry?, origin]
  exact
    { split := by rw [stretch.split, List.append_assoc]
      known := stretch.known
      sync := stretch.sync
      reached := Nat.le_succ_of_le stretch.reached
      sent := by
        intro a member z same
        rcases List.mem_append.mp member with older | new
        · obtain ⟨known, session, low, high⟩ := stretch.sent a older z same
          exact ⟨known, session, low, Nat.lt_succ_of_lt high⟩
        · obtain rfl := List.mem_singleton.mp new
          obtain rfl := Option.some.inj (shows.symm.trans same)
          exact ⟨known, session, here ▸ stretch.reached, by omega⟩
      shown := by
        intro a member
        rcases List.mem_append.mp member with older | new
        · exact stretch.shown a older
        · obtain rfl := List.mem_singleton.mp new
          simp only [Sent.content?, Sent.entry?, origin]
      ordered := by
        refine List.pairwise_append.mpr ⟨stretch.ordered, List.pairwise_singleton _ _, ?_⟩
        intro a member b new z w left right
        obtain rfl := List.mem_singleton.mp new
        obtain rfl := Option.some.inj (shows.symm.trans right)
        obtain ⟨-, -, -, high⟩ := stretch.sent a member z left
        omega
      landed := by
        intro passed video
        rcases Nat.lt_or_eq_of_le (Nat.le_of_lt_succ passed) with before_ | at_
        · obtain ⟨a, member, landed⟩ := stretch.landed before_ video
          exact ⟨a, List.mem_append_left _ member, landed⟩
        · rcases lands with ⟨-, landed⟩ | ⟨after, -⟩
          · exact ⟨s, List.mem_append_right _ (List.mem_singleton_self s), landed⟩
          · omega
      alone := by
        intro a member z landed
        rcases List.mem_append.mp member with older | new
        · exact stretch.alone a older z landed
        · obtain rfl := List.mem_singleton.mp new
          rcases lands with ⟨-, here_⟩ | ⟨-, none⟩
          · exact (Option.some.inj (here_.symm.trans landed)).symm
          · rw [none] at landed
            contradiction
      settled := by
        intro z known session reached passed
        rcases Nat.lt_or_eq_of_le (Nat.le_of_lt_succ passed) with before_ | at_
        · rcases stretch.settled z known session reached before_ with ⟨a, member, same⟩ | left
          · exact .inl ⟨a, List.mem_append_left _ member, same⟩
          · exact .inr left
        · rw [unique z known session (at_.trans here.symm)]
          exact .inl ⟨s, List.mem_append_right _ (List.mem_singleton_self s), shows⟩ }

end Stretch

theorem Entry.skipAfter_of_not_ends (none : y.endsLeading = false) (skip : Option ℕ) : y.skipAfter skip = skip := by
  unfold Entry.skipAfter
  rw [none, Bool.and_false, Bool.false_and, if_neg (by simp)]

/-- A picture sent that ends the leading pictures of the CRA spliced to ends what is left out. -/
theorem skipAfter_sent {session : Session} (read : y.ReadIn session) (reached : x.seq ≤ y.seq)
    (shows : s.entry? = some y) :
    y.skipAfter (if skipping x since then some x.seq else none) =
      if skipping x (since ++ [s]) then some x.seq else none := by
  have kept : skipping x (since ++ [s]) = (skipping x since && (decide (y.seq = x.seq) || !y.endsLeading)) := by
    rw [skipping_append]
    simp [shows]
  rw [kept]
  cases ends : y.endsLeading with
  | false => rw [Entry.skipAfter_of_not_ends ends, Bool.not_false, Bool.or_true, Bool.and_true]
  | true =>
    have video : y.kind = .video := by
      by_contra other
      have plain := (read.plain fun frame => other frame.1).2
      rw [ends] at plain
      contradiction
    rw [Bool.not_true, Bool.or_false]
    unfold Entry.skipAfter
    cases skipping x since with
    | false => simp
    | true =>
      by_cases at_ : y.seq = x.seq
      · simp [at_]
      · simp [video, ends, at_, Nat.lt_of_le_of_ne reached (Ne.symm at_)]

/-- The output follows a splice to `x`, with `since` sent of it. -/
structure Runs (recorded : Entry → Prop) (c : Clock) (log : List Sent) (x : Entry) (before since : List Sent) :
    Prop where
  stretch : Stretch recorded log x c.nextSeq before since
  session : c.currentSession = some x.session
  gate : c.gate = some (x.session, x.ts)
  place : c.landing.map Prod.fst = some x ∧ since = [] ∧ c.nextSeq = x.seq ∨
    c.landing = none ∧ x.seq < c.nextSeq
  skip : c.skipLeadingAfter = if skipping x since then some x.seq else none

/-- Unless it waits for a keyframe, the output of a connection follows a splice. -/
def Unbroken (recorded : Entry → Prop) (c : Clock) (log : List Sent) : Prop :=
  c.connected = true → c.needSync = false → ∃ x before since, Runs recorded c log x before since

/-- The cursor has passed `y`. -/
structure Clock.Past (c : Clock) (y : Entry) (c' : Clock) : Prop where
  next : c'.nextSeq = c.nextSeq + 1
  landing : c'.landing = none
  session : c'.currentSession = c.currentSession
  gate : c'.gate = c.gate
  skip : c'.skipLeadingAfter = y.skipAfter c.skipLeadingAfter

/-- The recorded message `y` is the one at the cursor. -/
structure AtCursor (recorded : Entry → Prop) (c : Clock) (x y : Entry) : Prop where
  here : y.seq = c.nextSeq
  known : recorded y
  session : y.session = x.session
  only : ∀ z, recorded z → z.session = x.session → z.seq = y.seq → z = y
  read : ∃ session, y.ReadIn session

namespace Runs

variable {c c' : Clock} {headers : List Sent}

/-- The message at the cursor is what the splice landed on, or comes after it. -/
theorem at_cursor (runs : Runs recorded c log x before since) (cursor : AtCursor recorded c x y) :
    y = x ∧ c.landing.map Prod.fst = some x ∧ since = [] ∨ x.seq < y.seq ∧ c.landing = none := by
  have here := cursor.here
  rcases runs.place with ⟨landing, empty, at_⟩ | ⟨landing, after⟩
  · exact .inl ⟨(cursor.only x runs.stretch.known rfl (by omega)).symm, landing, empty⟩
  · exact .inr ⟨by omega, landing⟩

theorem omitted (runs : Runs recorded c log x before since) (cursor : AtCursor recorded c x y) (past : c.Past y c')
    (none : ∀ s ∈ headers, s.IsHeader) (left : LeftOut recorded x y) (unlanded : y = x → x.kind ≠ .video) :
    Runs recorded c' (log ++ headers) x before (since ++ headers) where
  stretch := by
    rw [past.next]
    refine (runs.stretch.headed none).omits cursor.here cursor.only left fun at_ => unlanded ?_
    exact (cursor.only x runs.stretch.known rfl (at_.trans cursor.here.symm)).symm
  session := past.session.trans runs.session
  gate := past.gate.trans runs.gate
  place := .inr ⟨past.landing, by
    rw [past.next]
    exact Nat.lt_succ_of_le runs.stretch.reached⟩
  skip := by
    obtain ⟨session, read⟩ := cursor.read
    rw [past.skip, Entry.skipAfter_of_not_ends (left.not_ends read), runs.skip, skipping_headers none]

theorem sent (runs : Runs recorded c log x before since) (cursor : AtCursor recorded c x y) (past : c.Past y c')
    (none : ∀ s ∈ headers, s.IsHeader) (origin : s.origin = .buffered y)
    (lands : y = x ∧ s.landing? = some x ∨ x.seq < y.seq ∧ s.landing? = Option.none) :
    Runs recorded c' (log ++ headers ++ [s]) x before (since ++ headers ++ [s]) where
  stretch := by
    rw [past.next]
    exact (runs.stretch.headed none).sends cursor.here cursor.only cursor.known cursor.session origin lands
  session := past.session.trans runs.session
  gate := past.gate.trans runs.gate
  place := .inr ⟨past.landing, by
    rw [past.next]
    exact Nat.lt_succ_of_le runs.stretch.reached⟩
  skip := by
    obtain ⟨session, read⟩ := cursor.read
    have reached : x.seq ≤ y.seq := cursor.here ▸ runs.stretch.reached
    rw [past.skip, runs.skip, ← skipping_headers none]
    exact skipAfter_sent read reached (by simp only [Sent.entry?, origin])

end Runs

/-- The buffered message `y` is sent where it belongs after the last splice, which was to `x`. -/
structure Follows (recorded : Entry → Prop) (log : List Sent) (s : Sent) (x y : Entry)
    (before since : List Sent) : Prop where
  stretch : Stretch recorded log x y.seq before since
  known : recorded y
  session : y.session = x.session
  /-- It is what the splice landed on, or comes after it. -/
  place : y = x ∧ s.landing? = some x ∨ x.seq < y.seq ∧ s.landing? = none
  payload : y.config = none → s.msg.payload = if y = x ∧ x.isCra = true then x.marked else y.payload
  leading : y.leading = true → skipping x since = false

/-- Each buffered message sent follows a splice. -/
def InPlaceOf (recorded : Entry → Prop) (log : List Sent) (s : Sent) : Prop :=
  ∀ y, s.entry? = some y → ∃ x before since, Follows recorded log s x y before since

namespace Engine

open Clock

variable {e e' : Engine} {y : Entry}

/-! ## What leaves pictures out, and what is sent -/

/-- A leading picture is left out after a splice to a CRA, until a picture ends the leading ones. -/
theorem skipLeading_eq (y : Entry) (e : Engine) :
    e.skipLeading y =
      ({ e with out := { e.out with skipLeadingAfter := y.skipAfter e.out.skipLeadingAfter } },
        y.kind = .video && e.out.skipLeadingAfter.isSome && y.leading) := by
  unfold skipLeading
  split
  · next k t video skip slice =>
    have ends : y.endsLeading = (Flv.Hevc.isTrailing t || Flv.Hevc.isIrap t) := by
      simp only [Entry.endsLeading, slice, Option.any_some]
    have leads : y.leading = Flv.Hevc.isLeading t := by simp only [Entry.leading, slice, Option.any_some]
    rw [← ends, ← leads]
    simp only [Entry.skipAfter, video, skip, Option.any_some, Option.isSome_some, decide_true, Bool.true_and]
    cases beyond : decide (k < y.seq) with
    | false =>
      rw [Bool.false_and, Bool.and_false, if_neg (by simp), if_neg (by simp), ← skip]
    | true =>
      rw [Bool.true_and, Bool.and_true]
      cases ending : y.endsLeading with
      | false => rw [if_neg (by simp), if_neg (by simp), ← skip]
      | true =>
        rw [if_pos rfl, if_pos rfl]
        cases leading : y.leading with
        | false => rfl
        | true =>
          rw [Entry.not_both leading] at ending
          contradiction
  · next other =>
    have nothing : (decide (y.kind = .video) && e.out.skipLeadingAfter.isSome && y.leading) = false ∧
        y.skipAfter e.out.skipLeadingAfter = e.out.skipLeadingAfter := by
      unfold Entry.skipAfter Entry.endsLeading Entry.leading
      cases kind : y.kind with
      | video =>
        cases skip : e.out.skipLeadingAfter with
        | none => simp
        | some k =>
          cases slice : y.hevcNal with
          | none => simp
          | some t => exact absurd slice (other k t kind skip)
      | audio | data => simp
    rw [nothing.1, nothing.2]

private theorem skipAfter_at {skip : Option ℕ} : y.skipAfter skip = some y.seq ↔ skip = some y.seq := by
  unfold Entry.skipAfter
  cases skip with
  | none => simp
  | some k =>
    simp only [Option.any_some, Option.some.injEq]
    split
    · next passes =>
      simp only [Bool.and_eq_true, decide_eq_true_eq] at passes
      simp only [reduceCtorEq, false_iff]
      omega
    · simp only [Option.some.injEq]

/-- Passing `y` ends what is left out if `y` ends the leading pictures; what is sent of it is its payload,
marked where the splice landed on it, and it is not left out. -/
theorem emitEntry_airs (found : e.entry e.out.nextSeq = some y) :
    (e.emitEntry.1.out.skipLeadingAfter =
        if y.config = none then y.skipAfter e.out.skipLeadingAfter else e.out.skipLeadingAfter) ∧
      ∀ s ∈ e.emitEntry.2, y.config = none →
        (s.msg.payload = if e.out.skipLeadingAfter = some y.seq then y.marked else y.payload) ∧
          (y.kind = .video → e.out.skipLeadingAfter.isSome = true → y.leading = false) := by
  unfold emitEntry
  simp only [found]
  cases config : y.config with
  | some class_ =>
    dsimp only
    unfold emitConfigEntry
    split
    · exact ⟨rfl, fun _ _ media => nomatch media⟩
    · exact ⟨rfl, fun _ _ media => nomatch media⟩
  | none =>
    rw [skipLeading_eq y e]
    dsimp only
    cases drops : (decide (y.kind = .video) && e.out.skipLeadingAfter.isSome && y.leading) with
    | true => exact ⟨rfl, fun _ none => nomatch none⟩
    | false =>
      dsimp only
      split
      · exact ⟨rfl, fun _ none => nomatch none⟩
      · refine ⟨?_, fun s member _ => ?_⟩
        · unfold emitMedia
          dsimp only
          split <;> rfl
        · simp only [emitMedia, List.mem_singleton] at member
          subst member
          refine ⟨?_, fun video skips => ?_⟩
          · simp only [Sent.make, mediaPayload, skipAfter_at, Entry.marked]
          · simpa [video, skips] using drops

/-- The same of the message at the cursor with the headers before it. -/
theorem sendEntry_airs (found : e.entry e.out.nextSeq = some y) :
    (e.sendEntry.1.out.skipLeadingAfter =
        if y.config = none then y.skipAfter e.out.skipLeadingAfter else e.out.skipLeadingAfter) ∧
      ∀ s ∈ e.sendEntry.2, s.entry?.isSome = true → y.config = none →
        (s.msg.payload = if e.out.skipLeadingAfter = some y.seq then y.marked else y.payload) ∧
          (y.kind = .video → e.out.skipLeadingAfter.isSome = true → y.leading = false) := by
  obtain ⟨clock, stamped, -⟩ := sendHeaders_clock found
  have course := e.sendHeaders_course
  have found' : e.sendHeaders.1.noteFirst.entry e.sendHeaders.1.noteFirst.out.nextSeq = some y := by
    rw [← found, ← course.nextSeq, ← course.onlyOut.entry]
    rfl
  have skip : e.sendHeaders.1.noteFirst.out.skipLeadingAfter = e.out.skipLeadingAfter :=
    congrArg Clock.skipLeadingAfter (clock.trans (notes_fields _ _))
  obtain ⟨after, airs⟩ := emitEntry_airs found'
  rw [skip] at after airs
  refine ⟨after, fun s member shows => ?_⟩
  rcases List.mem_append.mp member with header | last
  · have none := Sent.IsHeader.entry? (stamped.all (fun c s header => header.header) s header)
    rw [none] at shows
    contradiction
  · exact airs s last

/-- Sending the message at the cursor passes it. -/
theorem sendEntry_past (found : e.entry e.out.nextSeq = some y) {session : Session} (read : y.ReadIn session) :
    e.out.clock.Past y e.sendEntry.1.out.clock := by
  obtain ⟨headers, message, skip, -, -, clock⟩ := sendEntry_clock found
  have after := (sendEntry_airs found).1
  have fields := notes_fields e.out.clock (headers ++ message)
  refine ⟨by rw [clock]; rfl, by rw [clock]; rfl, ?_, ?_, ?_⟩
  · rw [clock, passed, fields]
    rfl
  · rw [clock, passed, fields]
    rfl
  · show e.sendEntry.1.out.skipLeadingAfter = y.skipAfter e.out.skipLeadingAfter
    rw [after]
    split
    · rfl
    · next config => rw [Entry.skipAfter_of_not_ends (read.plain fun frame => config frame.2.1).2]

section AtCursor

variable {log before since : List Sent} {x : Entry}

theorem sync_media (readings : ∀ z, recorded z → ∃ session, z.ReadIn session) (known : recorded x)
    (sync : x.sync = true) : x.config = none := by
  obtain ⟨session, read⟩ := readings x known
  rcases read.of_sync sync with frame | sound
  · exact frame.2.1
  · exact sound.2.1

/-- What the output leaves out at the cursor is left out for a reason, and is no keyframe of video. -/
theorem leftOut_of_emit (readings : ∀ z, recorded z → ∃ session, z.ReadIn session)
    (runs : Runs recorded e.out.clock log x before since) (cursor : AtCursor recorded e.out.clock x y)
    (why : y.config = none → (e.skipLeading y).2 = true ∨ e.gated y = true) :
    LeftOut recorded x y ∧ (y = x → x.kind ≠ .video) := by
  have skips : e.out.skipLeadingAfter = if skipping x since then some x.seq else none := runs.skip
  have gate : e.out.gate = some (x.session, x.ts) := runs.gate
  have here : y.seq = e.out.nextSeq := cursor.here
  cases config : y.config with
  | some class_ =>
    refine ⟨.inl (by simp [config]), fun same => ?_⟩
    have media := sync_media readings runs.stretch.known runs.stretch.sync
    rw [← same, config] at media
    contradiction
  | none =>
    rcases why config with drops | early
    · rw [skipLeading_eq] at drops
      simp only [Bool.and_eq_true, decide_eq_true_eq] at drops
      obtain ⟨⟨video, flag⟩, leads⟩ := drops
      have still : skipping x since = true := by
        by_contra ended
        rw [skips, if_neg ended] at flag
        contradiction
      have cra : x.isCra = true := by
        simp only [skipping, Bool.and_eq_true] at still
        exact still.1
      refine ⟨.inr (.inr ⟨cra, leads, fun z known session after before_ => ?_⟩), fun same => ?_⟩
      · refine runs.stretch.none_ends readings still known session after ?_
        rw [show e.out.clock.nextSeq = e.out.nextSeq from rfl, ← here]
        exact before_
      · rw [same, Entry.isCra_not_leading cra] at leads
        contradiction
    · simp only [gated, gate, Option.any_some, Bool.and_eq_true, decide_eq_true_eq] at early
      obtain ⟨other, -, older⟩ := early
      exact ⟨.inr (.inl ⟨other, .inr older⟩), fun same => same ▸ other⟩

/-- What is sent is what the splice landed on, while nothing was sent since, or comes after it. -/
theorem airs_landing (readings : ∀ z, recorded z → ∃ session, z.ReadIn session)
    (runs : Runs recorded e.out.clock log x before since) (cursor : AtCursor recorded e.out.clock x y)
    {headers : List Sent} (sends : (e.out.clock.settle.notes headers).Airs y s) :
    y = x ∧ s.landing? = some x ∧ since = [] ∨ x.seq < y.seq ∧ s.landing? = none := by
  have jump := sends.jump
  have landing : (e.out.clock.settle.notes headers).landing = e.out.clock.landing := by
    rw [notes_fields]
    rfl
  rw [landing] at jump
  rcases runs.at_cursor cursor with ⟨same, landed, empty⟩ | ⟨after, none⟩
  · obtain ⟨l, there, first⟩ := Option.map_eq_some_iff.mp landed
    have media : y.config = none := same ▸ sync_media readings runs.stretch.known runs.stretch.sync
    rw [if_pos media, there, same] at jump
    refine .inl ⟨same, ?_, empty⟩
    rw [Sent.landing?, jump, sends.entry?, same]
    simp [first]
  · rw [none] at jump
    have plain : s.jump = Option.none := by rw [jump]; simp
    exact .inr ⟨after, by rw [Sent.landing?, plain]; rfl⟩

end AtCursor

/-- The message at the cursor goes out where it belongs. -/
theorem sendEntry_unbroken {log : List Sent} {x : Entry} {before since : List Sent}
    (readings : ∀ z, recorded z → ∃ session, z.ReadIn session)
    (runs : Runs recorded e.out.clock log x before since) (cursor : AtCursor recorded e.out.clock x y)
    (found : e.entry e.out.nextSeq = some y) :
    (∃ since', Runs recorded e.sendEntry.1.out.clock (log ++ e.sendEntry.2) x before since') ∧
      Each (InPlaceOf recorded) log e.sendEntry.2 := by
  obtain ⟨headers, message, skip, sent, outgoing, -⟩ := sendEntry_clock found
  obtain ⟨-, airs⟩ := sendEntry_airs found
  obtain ⟨session, read⟩ := cursor.read
  have past := sendEntry_past found read
  have none : ∀ s ∈ headers, s.IsHeader := outgoing.stamped.all fun c s header => header.header
  have unseen : Each (InPlaceOf recorded) log headers := Each.of_forall fun s member _ y shows => by
    rw [Sent.IsHeader.entry? (none s member)] at shows
    contradiction
  have skips : e.out.skipLeadingAfter = if skipping x since then some x.seq else Option.none := runs.skip
  rw [sent] at airs ⊢
  rcases outgoing.last with ⟨rfl, why⟩ | ⟨s, rfl, sends⟩
  · obtain ⟨left, unlanded⟩ := leftOut_of_emit readings runs cursor why
    rw [List.append_nil]
    exact ⟨⟨_, runs.omitted cursor past none left unlanded⟩, unseen⟩
  · have member : s ∈ headers ++ [s] := List.mem_append_right _ (List.mem_singleton_self s)
    have airing := airs s member (by rw [sends.entry?]; rfl)
    have lands := airs_landing readings runs cursor sends
    refine ⟨⟨since ++ headers ++ [s], ?_⟩, Each.append.mpr ⟨unseen, ⟨fun z shows => ?_, trivial⟩⟩⟩
    · rw [← List.append_assoc]
      refine runs.sent cursor past none sends.origin ?_
      rcases lands with ⟨same, landed, -⟩ | after
      · exact .inl ⟨same, landed⟩
      · exact .inr after
    · obtain rfl := Option.some.inj (sends.entry?.symm.trans shows)
      refine ⟨x, before, since ++ headers, ?_⟩
      exact
        { stretch := by
            rw [cursor.here]
            exact runs.stretch.headed none
          known := cursor.known
          session := cursor.session
          place := by
            rcases lands with ⟨same, landed, -⟩ | after
            · exact .inl ⟨same, landed⟩
            · exact .inr after
          payload := by
            intro media
            rw [(airing media).1, skips]
            rcases lands with ⟨rfl, -, rfl⟩ | ⟨after, -⟩
            · cases cra : y.isCra <;> simp [skipping, cra]
            · have other : y ≠ x := fun same => Nat.lt_irrefl _ (same ▸ after)
              have unmarked : ¬(if skipping x since then some x.seq else Option.none) = some y.seq := by
                split
                · simpa using Nat.ne_of_lt after
                · simp
              rw [if_neg unmarked, if_neg fun marks => other marks.1]
          leading := by
            intro leads
            have frame : y.IsFrame := by
              by_contra other
              rw [(read.plain other).1] at leads
              contradiction
            rw [skipping_headers none]
            by_contra still
            have shown := (airing frame.2.1).2 frame.1 (by
              rw [skips, if_pos (by simpa using still)]
              rfl)
            rw [leads] at shown
            contradiction }

/-! ## Ticks -/

section Ticks

variable {now : ℕ} {log : List Sent}

theorem Tick.received_le {out : List Sent} (tick : Tick now e e' out) : e.received ≤ e'.received := by
  cases tick with
  | still kept | seeks kept | lands kept | resumes kept | drops kept => exact Nat.le_of_eq kept.received.symm
  | receives _ _ _ _ _ received => omega
  | shows h held => exact Nat.le_of_eq (showFrame_kept held).received.symm
  | sends => exact Nat.le_of_eq (sendEntry_kept now e).received.symm
  | mutes => exact Nat.le_refl _

/-- Ticks by which nothing is received leave no new message in the buffer. -/
theorem Ticks.quiet {out : List Sent} (ticks : Ticks now e e' out) (same : e'.received = e.received) :
    Steps (fun e e' out => Tick now e e' out ∧ ∀ x ∈ e'.ring, x ∈ e.ring) e e' out := by
  have grows {e e' : Engine} {out : List Sent} (ticks : Ticks now e e' out) : e.received ≤ e'.received :=
    Steps.relates (T := fun e e' => e.received ≤ e'.received) (fun _ => Nat.le_refl _)
      (fun _ _ _ => Nat.le_trans) (fun _ _ _ tick => Tick.received_le tick) ticks
  induction ticks with
  | refl => exact .refl _
  | head tick rest ih =>
    have first := tick.received_le
    have later := grows rest
    refine .head ⟨tick, ?_⟩ (ih (by omega))
    cases tick with
    | still kept | seeks kept | lands kept | resumes kept | drops kept => exact kept.ring
    | receives _ _ _ _ _ received => omega
    | shows h held => exact (showFrame_kept held).ring
    | sends => exact (sendEntry_kept now _).ring
    | mutes => exact fun _ => id

/-- What is buffered was recorded, and what was sent on the connection follows its splices. -/
structure Linked (recorded : Entry → Prop) (e : Engine) (log : List Sent) : Prop where
  buffered : ∀ x ∈ e.ring, recorded x
  unbroken : Unbroken recorded e.out.clock log
  each : Each (InPlaceOf recorded) [] log

variable {last : Engine}

/-- The message buffered at the cursor is one recorded in the session the output follows. -/
theorem cursor_of_found {x : Entry} {before since : List Sent} (history : History recorded last) (layout : e.Layout)
    (buffered : ∀ x ∈ e.ring, recorded x) (found : e.entry e.out.nextSeq = some y)
    (session : ∀ cs, e.out.currentSession = some cs → y.session = cs)
    (runs : Runs recorded e.out.clock log x before since) : AtCursor recorded e.out.clock x y := by
  obtain ⟨member, here⟩ := layout.entry_iff.mp found
  have known := buffered y member
  have belongs : y.session = x.session := session _ runs.session
  exact
    { here := here
      known := known
      session := belongs
      only := fun z other same number => history.unique z y other known (same.trans belongs.symm) number
      read := history.read y known }

/-- Every tick of the clock keeps what is sent in its place, where no message comes in. -/
theorem Tick.linked {out : List Sent} (history : History recorded last) (tick : Tick now e e' out)
    (ring : ∀ x ∈ e'.ring, x ∈ e.ring) (linked : Linked recorded e log) : Linked recorded e' (log ++ out) := by
  have buffered : ∀ x ∈ e'.ring, recorded x := fun x member => linked.buffered x (ring x member)
  cases tick with
  | still _ _ same =>
    rw [List.append_nil]
    exact ⟨buffered, same ▸ linked.unbroken, linked.each⟩
  | seeks _ cursor same =>
    rw [List.append_nil]
    refine ⟨buffered, fun _ synced => ?_, linked.each⟩
    rw [same] at synced
    contradiction
  | lands _ _ x base member sync fits same =>
    rw [List.append_nil]
    refine ⟨buffered, fun _ _ => ⟨x, log, [], ?_⟩, linked.each⟩
    rw [same]
    refine ⟨.start (buffered x member) sync log, rfl, rfl, .inl ⟨rfl, rfl, rfl⟩, ?_⟩
    simp [Clock.land, skipping, Entry.isCra]
  | resumes _ h _ needs _ same =>
    rw [List.append_nil]
    refine ⟨buffered, fun _ synced => ?_, linked.each⟩
    rw [same] at synced
    exact absurd (needs.symm.trans synced) (by simp)
  | drops _ down same =>
    rw [List.append_nil]
    refine ⟨buffered, fun up _ => ?_, linked.each⟩
    rw [show e'.out.clock.connected = false from down] at up
    contradiction
  | receives _ _ _ _ _ _ _ _ same =>
    rw [List.append_nil]
    refine ⟨buffered, ?_, linked.each⟩
    rw [same]
    exact linked.unbroken
  | shows h _ needs =>
    obtain ⟨headers, frame, sent, held, clock⟩ := showFrame_clock now h e
    refine ⟨buffered, fun _ synced => ?_, Each.append.mpr ⟨linked.each, Each.of_forall fun s member _ y shows => ?_⟩⟩
    · rw [clock, notes_fields] at synced
      exact absurd (needs.symm.trans synced) (by simp)
    · rw [sent] at member
      rw [held.entry? s member] at shows
      contradiction
  | sends layout y connected begun synced found session =>
    obtain ⟨x, before, since, runs⟩ := linked.unbroken connected synced
    have cursor := cursor_of_found history layout linked.buffered found session runs
    obtain ⟨⟨since', next⟩, each⟩ := sendEntry_unbroken history.read runs cursor found
    exact ⟨buffered, fun _ _ => ⟨x, before, since', next⟩, Each.append.mpr ⟨linked.each, each⟩⟩
  | mutes layout y found session muted =>
    rw [List.append_nil]
    refine ⟨buffered, fun up synced => ?_, linked.each⟩
    obtain ⟨x, before, since, runs⟩ := linked.unbroken up synced
    have cursor := cursor_of_found history layout linked.buffered found session runs
    simp only [Engine.muted, Bool.and_eq_true, decide_eq_true_eq] at muted
    obtain ⟨⟨-, sound⟩, -⟩ := muted
    have left : LeftOut recorded x y := .inr (.inl ⟨by simp [sound], .inl sound⟩)
    obtain ⟨session', read⟩ := cursor.read
    have past : e.out.clock.Past y e.muteEntry.out.clock :=
      ⟨rfl, rfl, rfl, rfl, (Entry.skipAfter_of_not_ends (left.not_ends read) _).symm⟩
    have next : Runs recorded e.muteEntry.out.clock (log ++ []) x before (since ++ []) :=
      runs.omitted cursor past (fun _ none => absurd none List.not_mem_nil) left fun same => by simp [← same, sound]
    rw [List.append_nil, List.append_nil] at next
    exact ⟨x, before, since, next⟩

theorem Ticks.linked {out : List Sent} (history : History recorded last) (ticks : Ticks now e e' out)
    (same : e'.received = e.received) (linked : Linked recorded e log) : Linked recorded e' (log ++ out) :=
  Steps.preserves_log (P := fun e log => Linked recorded e log)
    (fun _ _ _ _ tick linked => tick.1.linked history tick.2 linked) (Ticks.quiet ticks same) linked

/-- Taking a message in does nothing to the output. -/
theorem ingest_clock (layout : e.Layout) (now : ℕ) (kind : Kind) (ts : ℕ) (payload : Flv.Bytes) :
    (e.ingest now kind ts payload).out.clock = e.out.clock := by
  have short (mid : Engine) : (mid.memoryShort now).out.clock = mid.out.clock := by
    unfold memoryShort
    split
    · rfl
    · dsimp only
      split
      · rfl
      · split <;> rfl
  rcases e.ingest_cases now kind ts payload with same | ⟨session, -, -, same⟩
  · rw [same]
  · have appended : (e.append now kind ts payload session).out = e.out := by
      unfold append
      dsimp only
      split <;> rfl
    rw [same]
    obtain ⟨n, mid, trimmed, same | same⟩ := evict_trimmed (append_layout layout now kind ts payload session) now
    · rw [same, trimmed.out, appended]
    · rw [same, short, trimmed.out, appended]

/-- On one connection every operation keeps what is sent in its place. -/
theorem step_linked {t : ℕ} (history : History recorded last) (sound : e.Sound) (timed : Timed t e)
    (anchored : e.Anchored) {op : Op} (flows : op.flows = true) (le : t ≤ op.now?.getD t)
    (buffered : ∀ x ∈ (e.step op).1.ring, recorded x) (linked : Linked recorded e log) :
    Linked recorded (e.step op).1 (log ++ (e.step op).2) := by
  have plain (none : op.ingests = false) : Linked recorded (e.step op).1 (log ++ (e.step op).2) :=
    Ticks.linked history (step_ticks sound timed anchored flows le) (step_shrinks sound none).received linked
  cases op with
  | ingest now kind ts payload =>
    dsimp only [step]
    rw [List.append_nil]
    refine ⟨buffered, ?_, linked.each⟩
    rw [ingest_clock sound.layout]
    exact linked.unbroken
  | ingestStart | ingestEnd | ingestMetadata | outputConnected | outputDisconnected | unsend | dumpAfter
  | outputReset | discard | endAfter | cancelEnd | restartAfterEnd | command | setKeepHistory
  | setRestoreAfterReconnect | pollBudget => exact plain rfl

/-- On a new connection nothing was sent, and the output lands on a keyframe first. -/
theorem outputConnected_linked (history : History recorded last) (sound : e.Sound) (now : ℕ)
    (buffered : ∀ x ∈ (e.outputConnected now).ring, recorded x) : Linked recorded (e.outputConnected now) [] := by
  obtain ⟨waits, kept, same, ticks⟩ := outputConnected_ticks sound now
  have only := (outputConnected_inPlace sound.layout now).only
  have start : Linked recorded waits [] := by
    refine ⟨fun x member => buffered x (only.ring ▸ kept.ring x member), fun _ synced => ?_, trivial⟩
    rw [same] at synced
    contradiction
  have received : (e.outputConnected now).received = waits.received :=
    only.received.trans kept.received.symm
  exact Ticks.linked history ticks received start

/-- What the connection opened at `now` sends, in the operations after it, follows its splices. -/
theorem connection_linked (config : EngineConfig) {before rest : List Op} {now : ℕ}
    (ordered : Chronological Op.now? 0 (before ++ .outputConnected now :: rest))
    (flows : ∀ op ∈ rest, op.flows = true) :
    let e := ((Engine.new config).after before).outputConnected now
    let recorded := Recorded (Engine.new config) (before ++ .outputConnected now :: rest)
    History recorded (e.after rest) ∧ Linked recorded (e.after rest) (e.sends rest) := by
  intro e recorded
  have reached (done : List Op) :
      e.after done = (Engine.new config).after (before ++ .outputConnected now :: done) := by
    rw [after, after, Machine.after_append]
    rfl
  have history : History recorded (e.after rest) := reached rest ▸ history_reached config _
  have kept (done : List Op) (early : done <+: rest) : ∀ x ∈ (e.after done).ring, recorded x := by
    intro x member
    refine ⟨before ++ .outputConnected now :: done, ?_, reached done ▸ member⟩
    exact (List.prefix_append_right_inj before).mpr ((List.prefix_cons_inj _).mpr early)
  obtain ⟨earlier, -, later⟩ := Chronological.append.mp ordered
  refine ⟨history, ?_⟩
  suffices linked : ∀ done, done <+: rest → Linked recorded (e.after done) (e.sends done) from
    linked rest List.prefix_rfl
  intro done
  induction done using List.reverseRecOn with
  | nil =>
    intro early
    exact outputConnected_linked history (Regular.reached config earlier).sound now (kept [] early)
  | append_singleton done op ih =>
    intro early
    have shorter : done <+: rest := (List.prefix_append done [op]).trans early
    obtain ⟨tail, whole⟩ := early
    have ordered' : Chronological Op.now? 0 ((before ++ .outputConnected now :: done) ++ op :: tail) := by
      rw [← whole] at ordered
      simpa using ordered
    obtain ⟨soFar, le, -⟩ := Chronological.append.mp ordered'
    have regular := Regular.reached config soFar
    obtain ⟨anchored, -⟩ := anchored_reached config soFar
    rw [← reached done] at regular anchored
    have next := step_linked history regular.sound regular.timed anchored
      (flows op (by rw [← whole]; simp)) le (by
        have member := kept (done ++ [op]) ⟨tail, whole⟩
        rwa [after, Machine.after_append] at member) (ih shorter)
    rw [after, sends, Machine.after_append, Machine.outputs_append]
    simpa using next

end Ticks

end Engine

end StreamDelay
