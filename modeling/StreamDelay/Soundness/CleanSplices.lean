import Mathlib.Tactic.Common
import StreamDelay.Proofs.Unbroken

/-! # Splices to HEVC are clean

The CRA a splice lands on is marked as a broken link and its leading pictures are left out, up to the next
trailing or random access picture. A CRA sent as it is follows what was recorded before it.
-/

namespace StreamDelay

open Foundations

/-- The last frame recorded before `y` in its session. -/
structure RightBefore (recorded : Entry → Prop) (p y : Entry) : Prop where
  known : recorded p
  frame : p.IsFrame
  session : p.session = y.session
  earlier : p.seq < y.seq
  last : ∀ z, recorded z → z.IsFrame → z.session = y.session → p.seq < z.seq → y.seq ≤ z.seq

/-- The frame `p` was sent, and no frame since. -/
def LastSent (sent : List Sent) (p : Entry) : Prop :=
  ∃ earlier r later, sent = earlier ++ r :: later ∧ r.entry? = some p ∧
    ∀ m ∈ later, ∀ z, m.content? = some z → ¬z.IsFrame

/-- The leading picture `p` was left out after a splice to the CRA before it. -/
def LeftOutSince (recorded : Entry → Prop) (sent : List Sent) (p : Entry) : Prop :=
  p.leading = true ∧ ∃ r ∈ sent, ∃ x, r.landing? = some x ∧ x.isCra = true ∧ x.session = p.session ∧
    x.seq < p.seq ∧ ∀ z, recorded z → z.session = p.session → x.seq < z.seq → z.seq < p.seq →
      z.endsLeading = false

/-- The message `s`, sent after `sent`, leaves a decoder with what it needs. -/
structure Clean (recorded : Entry → Prop) (sent : List Sent) (s : Sent) : Prop where
  marked : ∀ x, s.landing? = some x → x.isCra = true →
    ∃ offset, x.nalOffset = some offset ∧ Flv.Hevc.craToBla x.payload offset = some s.msg.payload ∧
      Flv.firstHevcVcl (s.msg.payload.drop offset) = some Flv.Hevc.BLA_W_LP
  leading : ∀ earlier r between x y, sent = earlier ++ r :: between → r.landing? = some x → x.isCra = true →
    (∀ m ∈ between, m.landing? = none) → s.entry? = some y → s.landing? = none → y.leading = true →
    y.session = x.session → x.seq < y.seq → ∃ m ∈ between, ∃ z, m.entry? = some z ∧ z.endsLeading = true
  unchanged : ∀ y p, s.entry? = some y → y.isCra = true → s.msg.payload = y.payload →
    RightBefore recorded p y → LastSent sent p ∨ LeftOutSince recorded sent p

namespace Engine

variable {recorded : Entry → Prop} {last : Engine} {sent before since : List Sent} {s : Sent} {x y p : Entry}

private theorem landing_entry (lands : s.landing? = some x) : s.entry? = some x := by
  unfold Sent.landing? at lands
  split at lands
  · exact lands
  · contradiction

/-- A recorded CRA is a frame that can be marked. -/
theorem cra_marked (history : History recorded last) (known : recorded x) (cra : x.isCra = true) :
    x.IsFrame ∧ ∃ offset, x.nalOffset = some offset ∧ Flv.Hevc.craToBla x.payload offset = some x.marked ∧
      Flv.firstHevcVcl (x.marked.drop offset) = some Flv.Hevc.BLA_W_LP ∧
      Flv.firstHevcVcl (x.payload.drop offset) = some Flv.Hevc.CRA := by
  obtain ⟨session, read⟩ := history.read x known
  obtain ⟨frame, offset, nal, first⟩ := read.of_slice (of_decide_eq_true cra)
  obtain ⟨out, marks, reads⟩ := Flv.Hevc.craToBla_marks first
  have same : x.marked = out := by simp [Entry.marked, nal, marks]
  exact ⟨frame, offset, nal, same ▸ marks, same ▸ reads, first⟩

/-- Where the output follows a splice to `x`, a frame right before what it sends is no older than `x`. -/
theorem right_before_reached (history : History recorded last) (follows : Follows recorded sent s x y before since)
    (after : x.seq < y.seq) (right : RightBefore recorded p y) : x.seq ≤ p.seq := by
  obtain ⟨session, read⟩ := history.read x follows.stretch.known
  rcases read.of_sync follows.stretch.sync with frame | ⟨audio, -, -⟩
  · by_contra below
    have reached := right.last x follows.stretch.known frame follows.session.symm (by omega)
    omega
  · refine Nat.le_of_lt (history.soundFirst p x right.known follows.stretch.known ?_ right.frame
      follows.stretch.sync audio)
    exact right.session.trans follows.session

private theorem clean_marked (history : History recorded last) (follows : Follows recorded sent s x y before since)
    (lands : s.landing? = some x) (cra : x.isCra = true) (same : y = x) :
    ∃ offset, x.nalOffset = some offset ∧ Flv.Hevc.craToBla x.payload offset = some s.msg.payload ∧
      Flv.firstHevcVcl (s.msg.payload.drop offset) = some Flv.Hevc.BLA_W_LP := by
  subst same
  obtain ⟨frame, offset, nal, marks, reads, -⟩ := cra_marked history follows.stretch.known cra
  have payload := follows.payload frame.2.1
  rw [if_pos ⟨rfl, cra⟩] at payload
  exact ⟨offset, nal, payload ▸ marks, payload ▸ reads⟩

/-- Since the splice to a CRA that is followed now, what ends its leading pictures was sent before one is. -/
theorem ends_within (follows : Follows recorded sent s x y before since) {earlier between : List Sent} {r : Sent}
    (split : since = earlier ++ r :: between) (lands : r.landing? = some x) (cra : x.isCra = true)
    (leads : y.leading = true) : ∃ m ∈ between, ∃ z, m.entry? = some z ∧ z.endsLeading = true := by
  have stretch := follows.stretch
  have ended := follows.leading leads
  rw [skipping, cra, Bool.true_and, List.all_eq_false] at ended
  obtain ⟨m, member, ends⟩ := ended
  obtain ⟨z, shows, other, ending⟩ : ∃ z, m.entry? = some z ∧ z.seq ≠ x.seq ∧ z.endsLeading = true := by
    cases shows : m.entry? with
    | none => simp [shows] at ends
    | some z =>
      simp only [shows, Option.all_some, Bool.or_eq_true, decide_eq_true_eq, Bool.not_eq_true', not_or,
        Bool.not_eq_false] at ends
      exact ⟨z, rfl, ends⟩
  obtain ⟨-, -, reached, -⟩ := stretch.sent m member z shows
  have ordered := stretch.ordered
  rw [split] at member ordered
  obtain ⟨-, -, across⟩ := List.pairwise_append.mp ordered
  rcases List.mem_append.mp member with older | later
  · have behind := across m older r (List.mem_cons_self ..) z x shows (landing_entry lands)
    omega
  · rcases List.mem_cons.mp later with rfl | after
    · obtain rfl := Option.some.inj ((landing_entry lands).symm.trans shows)
      exact absurd rfl other
    · exact ⟨m, after, z, shows, ending⟩

/-- A leading picture recorded after the CRA of the last splice is sent only once a picture that ends them was. -/
theorem clean_leading (history : History recorded last) {x' : Entry}
    (follows : Follows recorded sent s x' y before since) {earlier between : List Sent} {r : Sent}
    (split : sent = earlier ++ r :: between) (lands : r.landing? = some x) (known : recorded x)
    (cra : x.isCra = true) (alone : ∀ m ∈ between, m.landing? = none) (plain : s.landing? = none)
    (leads : y.leading = true) (session : y.session = x.session) (after : x.seq < y.seq) :
    ∃ m ∈ between, ∃ z, m.entry? = some z ∧ z.endsLeading = true := by
  have stretch := follows.stretch
  have reached : x'.seq < y.seq := by
    rcases follows.place with ⟨-, landed⟩ | ⟨reached, -⟩
    · rw [plain] at landed
      contradiction
    · exact reached
  have within (tail : List Sent) (here : since = tail ++ r :: between) :
      ∃ m ∈ between, ∃ z, m.entry? = some z ∧ z.endsLeading = true := by
    have same := stretch.alone r (by rw [here]; simp) x lands
    subst same
    exact ends_within follows here lands cra leads
  -- All that followed the later splice came after the landing, and none of it landed on a keyframe.
  have beyond {tail : List Sent} (here : between = tail ++ since) :
      ∃ m ∈ between, ∃ z, m.entry? = some z ∧ z.endsLeading = true := by
    have frame := (cra_marked history known cra).1
    have silent : x'.kind ≠ .video := fun video => by
      obtain ⟨m, member, landed⟩ := stretch.landed reached video
      rw [alone m (by rw [here]; exact List.mem_append_right _ member)] at landed
      contradiction
    obtain ⟨session', read⟩ := history.read x' stretch.known
    have audio : x'.kind = .audio := by
      rcases read.of_sync stretch.sync with picture | sound
      · exact absurd picture.1 silent
      · exact sound.1
    have belongs : x.session = x'.session := session.symm.trans follows.session
    have first := history.soundFirst x x' known stretch.known belongs frame stretch.sync audio
    rcases stretch.settled x known belongs (Nat.le_of_lt first) after with ⟨m, member, shows⟩ | left
    · exact ⟨m, by rw [here]; exact List.mem_append_right _ member, x, shows, Entry.isCra_ends cra⟩
    · have picture := (cra_marked history stretch.known (left.of_frame frame).1).1
      exact absurd picture.1 silent
  rcases List.append_eq_append_iff.mp (split.symm.trans stretch.split) with
    ⟨tail, -, rest⟩ | ⟨tail, -, rest⟩
  · cases tail with
    | nil => exact within [] rest.symm
    | cons first tail => exact beyond (List.cons.inj rest).2
  · exact within tail rest

/-- A CRA sent as it is comes right after the frame recorded right before it, unless that one was left out. -/
theorem clean_unchanged (history : History recorded last) (follows : Follows recorded sent s x y before since)
    (cra : y.isCra = true) (same : s.msg.payload = y.payload) (right : RightBefore recorded p y) :
    LastSent sent p ∨ LeftOutSince recorded sent p := by
  have stretch := follows.stretch
  obtain ⟨frame, offset, -, -, reads, first⟩ := cra_marked history follows.known cra
  have after : x.seq < y.seq := by
    rcases follows.place with ⟨rfl, -⟩ | ⟨after, -⟩
    · have payload := follows.payload frame.2.1
      rw [if_pos ⟨rfl, cra⟩] at payload
      rw [← payload, same, first] at reads
      exact absurd reads (by decide)
    · exact after
  have reached := right_before_reached history follows after right
  have belongs : p.session = x.session := right.session.trans follows.session
  rcases stretch.settled p right.known belongs reached right.earlier with ⟨m, member, shows⟩ | left
  · obtain ⟨older, newer, split⟩ := List.append_of_mem member
    have ordered := stretch.ordered
    rw [split] at ordered
    obtain ⟨-, within, -⟩ := List.pairwise_append.mp ordered
    refine .inl ⟨before ++ older, m, newer, by rw [stretch.split, split, List.append_assoc], shows, ?_⟩
    intro n later z content picture
    have inside : n ∈ since := by rw [split]; exact List.mem_append_right _ (List.mem_cons_of_mem _ later)
    rw [stretch.shown n inside] at content
    obtain ⟨known, session, -, below⟩ := stretch.sent n inside z content
    have order := (List.pairwise_cons.mp within).1 n later p z shows content
    have next := right.last z known picture (session.trans follows.session.symm) order
    omega
  · obtain ⟨craX, leads, none⟩ := left.of_frame right.frame
    have video := (cra_marked history stretch.known craX).1.1
    obtain ⟨r, member, lands⟩ := stretch.landed after video
    have behind : x.seq < p.seq := by
      refine Nat.lt_of_le_of_ne reached fun at_ => ?_
      have one := history.unique x p stretch.known right.known belongs.symm at_
      rw [← one, Entry.isCra_not_leading craX] at leads
      contradiction
    refine .inr ⟨leads, r, by rw [stretch.split]; exact List.mem_append_right _ member, x, lands, craX,
      belongs.symm, behind, fun z known session => ?_⟩
    exact none z known (session.trans belongs)

/-- On the connection opened at `now`, whatever splices follow each other: a CRA landed on is sent marked; no
leading picture recorded after it is sent before a trailing or random access picture; and a CRA sent unchanged
comes right after the frame recorded right before it, or that one was left out since the splice. -/
theorem clean_splices (config : EngineConfig) (before rest : List Op) (now : ℕ)
    (ordered : Chronological Op.now? 0 (before ++ .outputConnected now :: rest))
    (flows : ∀ op ∈ rest, op.flows = true) :
    ∀ sent s later, (((Engine.new config).after before).outputConnected now).sends rest = sent ++ s :: later →
      Clean (Recorded (Engine.new config) (before ++ .outputConnected now :: rest)) sent s := by
  intro sent s later split
  obtain ⟨history, linked⟩ := connection_linked config ordered flows
  have each := linked.each
  rw [split] at each
  have here := each.at_split
  refine ⟨fun x lands cra => ?_, fun earlier r between x y parts lands cra alone shows plain leads session after => ?_,
    fun y p shows cra same right => ?_⟩
  · obtain ⟨x', first, since, follows⟩ := here x (landing_entry lands)
    have at_ : x = x' := by
      rcases follows.place with ⟨same, -⟩ | ⟨-, none⟩
      · exact same
      · rw [none] at lands
        contradiction
    subst at_
    exact clean_marked history follows lands cra rfl
  · obtain ⟨x', first, since, follows⟩ := here y shows
    rw [parts, List.append_assoc] at each
    obtain ⟨_, _, _, landed⟩ := each.at_split x (landing_entry lands)
    exact clean_leading history follows parts lands landed.known cra alone plain leads session after
  · obtain ⟨x, first, since, follows⟩ := here y shows
    exact clean_unchanged history follows cra same right

/-- A HEVC picture of NAL type `nal`, in a keyframe's tag or not, presented `cts` after it is decoded. -/
def picture (key : Bool) (nal cts : UInt8) : Flv.Bytes :=
  [if key then 0x1c else 0x2c, 1, 0, 0, cts, 0, 0, 0, 2, nal <<< 1, 1]

/-- A CRA, a leading picture of it, and the next CRA. -/
def openGop : List Op :=
  [.ingest 0 .video 0 (picture true 21 80), .pollBudget 0 1000,
    .ingest (40 * MS) .video 40 (picture false 9 0), .ingest (80 * MS) .video 80 (picture true 21 0),
    .pollBudget (80 * MS) 1000]

/-- After a picture presented late, a new session starts from an IDR picture with a leading picture. -/
def decodable : List Op :=
  [.ingest 0 .video 0 (picture true 19 0), .pollBudget 0 1000,
    .ingest (40 * MS) .video 40 (picture false 1 160), .pollBudget (40 * MS) 1000, .ingestStart (80 * MS),
    .ingest (80 * MS) .video 0 (picture true 19 120), .ingest (120 * MS) .video 40 (picture false 7 0),
    .pollBudget (120 * MS) 1000, .pollBudget (200 * MS) 1000]

/-- A new session starts from its sound, before its first CRA. -/
def soundAhead : List Op :=
  [.ingest 0 .video 0 (picture true 21 0), .pollBudget 0 1000, .ingestStart (40 * MS),
    .ingest (40 * MS) .audio 0 [0xaf, 1, 0], .ingest (80 * MS) .video 40 (picture true 21 0),
    .pollBudget (80 * MS) 1000, .pollBudget (200 * MS) 1000]

/-- What the first connection sends in `ops`: number, presentation time and NAL type of each, and if a splice
landed on it. -/
def pictures (ops : List Op) : List (Option ℕ × Option ℤ × Option UInt8 × Bool) :=
  ((((Engine.new {}).after [.ingestStart 0]).outputConnected 0).sends ops).map fun s =>
    (s.entry?.map Entry.seq, s.pts?, Flv.firstHevcVcl (s.msg.payload.drop 5), s.landing?.isSome)

theorem clean_splices_openGop :
    pictures openGop = [(some 0, some 80, some Flv.Hevc.BLA_W_LP, true), (some 2, some 80, some Flv.Hevc.CRA, false)] ∧
      ∀ sent s later, (((Engine.new {}).after [.ingestStart 0]).outputConnected 0).sends openGop = sent ++ s :: later →
        Clean (Recorded (Engine.new {}) ([.ingestStart 0] ++ .outputConnected 0 :: openGop)) sent s :=
  ⟨by decide +kernel, clean_splices {} [.ingestStart 0] openGop 0 (by decide) (by decide)⟩

/-- Three runs that are not clean. A CRA (2) is sent unchanged though the leading picture recorded right before
it (1) was left out. The leading picture (3) of an IDR picture landed on is presented at 160, before a picture sent
ahead of the splice (1, at 200). And the first CRA (2) of a session that starts from its sound (1) is sent
unchanged, with no frame of its session before it. -/
theorem clean_splices_fails :
    pictures openGop =
        [(some 0, some 80, some Flv.Hevc.BLA_W_LP, true), (some 2, some 80, some Flv.Hevc.CRA, false)] ∧
      ((((Engine.new {}).after [.ingestStart 0]).outputConnected 0).after openGop).ring.map
        (fun y => (y.session, y.seq, y.hevcNal)) =
        [(1, 0, some Flv.Hevc.CRA), (1, 1, some 9), (1, 2, some Flv.Hevc.CRA)] ∧
      pictures decodable =
        [(some 0, some 0, some 19, true), (some 1, some 200, some 1, false), (some 2, some 240, some 19, true),
          (some 3, some 160, some 7, false)] ∧
      pictures soundAhead =
        [(some 0, some 0, some Flv.Hevc.BLA_W_LP, true), (some 1, none, none, true),
          (some 2, some 73, some Flv.Hevc.CRA, false)] ∧
      ((((Engine.new {}).after [.ingestStart 0]).outputConnected 0).after soundAhead).ring.map
        (fun y => (y.session, y.seq, y.hevcNal)) =
        [(1, 0, some Flv.Hevc.CRA), (2, 1, none), (2, 2, some Flv.Hevc.CRA)] :=
  ⟨by decide +kernel, by decide +kernel, by decide +kernel, by decide +kernel, by decide +kernel⟩

end Engine

end StreamDelay
