import Mathlib.Tactic.Common
import StreamDelay.Engine.Run

/-! # Timestamps that a header moves

What goes out gets no earlier timestamp than what went out before of its kind, and a splice starts after everything
sent. So a header that one output sends and another leaves out can move the timestamps after it. It does not when the
next message of its kind is no earlier, and something no earlier was sent before the next splice.
-/

namespace StreamDelay

open Flv (Bytes)
open Foundations

/-- What the destination knows a configuration by: its kind, its class and its fingerprint. -/
abbrev ConfigMark := Kind × UInt16 × UInt64

/-- What the timestamps of the output depend on, in the order the output comes to it. -/
inductive Beat where
  /-- Decoder configuration, with the timestamp it goes out at where the destination lacks it. -/
  | config (mark : ConfigMark) (t : ℕ)
  | metadata (payload : Bytes) (t : ℕ)
  | message (kind : Kind) (t : ℕ)
  /-- The output starts again after `last`, the last timestamp sent. -/
  | restart (last : ℕ)
deriving DecidableEq

/-- What went out of `kind` at `t` does not move the timestamp of this. -/
def Beat.Reaches (kind : Kind) (t : ℕ) : Beat → Prop
  | .message k u => k = kind → t ≤ u
  | .restart last => t ≤ last
  | _ => True

instance {kind : Kind} {t : ℕ} : DecidablePred (Beat.Reaches kind t)
  | .message .. => inferInstanceAs (Decidable (_ → _))
  | .restart _ => inferInstanceAs (Decidable (_ ≤ _))
  | .config .. => isTrue trivial
  | .metadata .. => isTrue trivial

/-- The configurations the destination has, with this one. -/
def noteMark (mark : ConfigMark) (marks : List ConfigMark) : List ConfigMark :=
  marks.filter (fun c => !(c.1 = mark.1 ∧ c.2.1 = mark.2.1)) ++ [mark]

theorem mem_noteMark {mark other : ConfigMark} {marks : List ConfigMark} : other ∈ noteMark mark marks ↔
    other ∈ marks ∧ ¬(other.1 = mark.1 ∧ other.2.1 = mark.2.1) ∨ other = mark := by
  simp [noteMark, or_iff_not_imp_left]

/-- What the destination knows a configuration by. -/
def configMark (c : Kind × UInt16 × Bytes) : ConfigMark := (c.1, c.2.1, fingerprint c.2.2)

/-- The headers of a splice, which go out at `at_` for their kind. -/
def Headers.beats (at_ : Kind → ℕ) (headers : Headers) : List Beat :=
  (headers.metadata.map fun payload => Beat.metadata payload (at_ .data)).toList ++
    headers.config.map fun c => .config (configMark c) (at_ c.1)

/-- Whether the destination has a configuration: each it has is compared. -/
local instance (mark : ConfigMark) (marks : List ConfigMark) : Decidable (mark ∈ marks) :=
  decidable_of_iff (marks.any fun c => c = mark) (by simp)

/-- Sending what the destination lacks of the configuration and metadata, when it has `marks` and `metadata` at first,
moves no timestamp: what comes next reaches each of them. -/
def Overtaken : List ConfigMark → Option Bytes → List Beat → Prop
  | _, _, [] => True
  | marks, metadata, .config mark t :: rest =>
    if mark ∈ marks then Overtaken marks metadata rest
    else (∀ b ∈ rest, b.Reaches mark.1 t) ∧ Overtaken (noteMark mark marks) metadata rest
  | marks, metadata, .metadata payload t :: rest =>
    if metadata = some payload then Overtaken marks metadata rest
    else (∀ b ∈ rest, b.Reaches .data t) ∧ Overtaken marks (some payload) rest
  | marks, metadata, .message .. :: rest | marks, metadata, .restart _ :: rest => Overtaken marks metadata rest

instance decidableOvertaken : ∀ marks metadata beats, Decidable (Overtaken marks metadata beats)
  | _, _, [] => isTrue trivial
  | marks, metadata, .config mark t :: rest =>
    have := decidableOvertaken marks metadata rest
    have := decidableOvertaken (noteMark mark marks) metadata rest
    inferInstanceAs (Decidable (if mark ∈ marks then Overtaken marks metadata rest
      else (∀ b ∈ rest, b.Reaches mark.1 t) ∧ Overtaken (noteMark mark marks) metadata rest))
  | marks, metadata, .metadata payload t :: rest =>
    have := decidableOvertaken marks metadata rest
    have := decidableOvertaken marks (some payload) rest
    inferInstanceAs (Decidable (if metadata = some payload then Overtaken marks metadata rest
      else (∀ b ∈ rest, b.Reaches .data t) ∧ Overtaken marks (some payload) rest))
  | marks, metadata, .message .. :: rest | marks, metadata, .restart _ :: rest => decidableOvertaken marks metadata rest

/-- The timestamps of the output: those of what is sent next follow from them. -/
structure Times where
  offset : ℤ
  last : ℕ
  kinds : PerKind (Option ℕ)
  pts : ℤ

namespace Times

variable {s s' : Times} {kind : Kind} {t ts : ℕ} {rest : List Beat}

/-- The output timestamp of a message of `kind` with input timestamp `ts`. -/
def at_ (s : Times) (kind : Kind) (ts : ℕ) : ℕ :=
  let t := (max (Engine.signed (ts + s.offset)) 0).toNat
  (s.kinds.get kind).elim t (max t)

/-- A message of `kind` goes out at `t`. -/
def out (kind : Kind) (t : ℕ) (s : Times) : Times :=
  { s with kinds := s.kinds.set kind (some t), last := max s.last t }

/-- The timestamps of `s'` are those of `s`, or ahead by what is reached in what is to come. -/
structure Ahead (rest : List Beat) (s s' : Times) : Prop where
  offset : s'.offset = s.offset
  pts : s'.pts = s.pts
  kinds : ∀ kind, s'.kinds.get kind = s.kinds.get kind ∨
    ∃ t, s'.kinds.get kind = some t ∧ (∀ u ∈ s.kinds.get kind, u ≤ t) ∧ ∀ b ∈ rest, b.Reaches kind t
  last : s'.last = s.last ∨ s.last ≤ s'.last ∧ ∀ l, .restart l ∈ rest → s'.last ≤ l

@[simp] theorem out_kinds (s : Times) (kind other : Kind) (t : ℕ) :
    (s.out kind t).kinds.get other = if other = kind then some t else s.kinds.get other := PerKind.get_set ..

@[simp] theorem out_last (s : Times) (kind : Kind) (t : ℕ) : (s.out kind t).last = max s.last t := rfl

theorem at_eq (offset : s'.offset = s.offset) (kinds : s'.kinds.get kind = s.kinds.get kind) :
    s'.at_ kind ts = s.at_ kind ts := by
  unfold at_
  rw [offset, kinds]

private theorem le_at {u : ℕ} (last : s.kinds.get kind = some u) : u ≤ s.at_ kind ts := by
  unfold at_
  rw [last]
  exact Nat.le_max_right ..

/-- Where `s'` is at or before `t`, and `s` gives `t`, they give the same. -/
theorem at_reached {u : ℕ} (offset : s'.offset = s.offset) (ahead : s'.kinds.get kind = some u)
    (behind : ∀ v ∈ s.kinds.get kind, v ≤ u) : s'.at_ kind ts = max u (s.at_ kind ts) := by
  unfold at_
  rw [offset, ahead]
  dsimp only [Option.elim_some]
  cases before : s.kinds.get kind with
  | none => exact Nat.max_comm ..
  | some v =>
    have le := behind v before
    simp only [Option.elim_some]
    omega

@[simp] theorem at_out (s : Times) (kind other : Kind) (ts : ℕ) :
    (s.out kind (s.at_ kind ts)).at_ other ts = s.at_ other ts := by
  unfold out
  by_cases same : other = kind
  · subst same
    unfold at_
    rw [PerKind.get_set, if_pos rfl]
    cases s.kinds.get other with
    | none => exact Nat.max_self _
    | some u =>
      simp only [Option.elim_some]
      omega
  · exact at_eq (s := s) rfl (by rw [PerKind.get_set, if_neg same])

private theorem reaches_max {u : ℕ} {b : Beat} : b.Reaches kind (max t u) ↔ b.Reaches kind t ∧ b.Reaches kind u := by
  cases b with
  | message k v =>
    simp only [Beat.Reaches, Nat.max_le]
    exact forall_and
  | restart l => exact Nat.max_le
  | config | metadata => simp only [Beat.Reaches, and_self]

namespace Ahead

theorem mono {rest' : List Beat} (ahead : Ahead rest' s s') (less : ∀ b ∈ rest, b ∈ rest') : Ahead rest s s' where
  offset := ahead.offset
  pts := ahead.pts
  kinds kind := (ahead.kinds kind).imp_right fun ⟨t, at_, behind, reached⟩ =>
    ⟨t, at_, behind, fun b member => reached b (less b member)⟩
  last := ahead.last.imp_right fun ⟨le, reached⟩ => ⟨le, fun l member => reached l (less _ member)⟩

theorem tail {b : Beat} (ahead : Ahead (b :: rest) s s') : Ahead rest s s' :=
  ahead.mono fun _ => List.mem_cons_of_mem _

/-- A timestamp of the one that is ahead is the other's, or reached. -/
theorem at_cases (ahead : Ahead rest s s') (kind : Kind) (ts : ℕ) :
    s.at_ kind ts ≤ s'.at_ kind ts ∧ (s'.at_ kind ts = s.at_ kind ts ∨
      ∃ t, s'.at_ kind ts = max t (s.at_ kind ts) ∧ ∀ b ∈ rest, b.Reaches kind t) := by
  rcases ahead.kinds kind with same | ⟨t, ahead', behind, reached⟩
  · have same : s'.at_ kind ts = s.at_ kind ts := at_eq ahead.offset same
    exact ⟨Nat.le_of_eq same.symm, .inl same⟩
  · have same : s'.at_ kind ts = max t (s.at_ kind ts) := at_reached ahead.offset ahead' behind
    exact ⟨same ▸ Nat.le_max_right .., .inr ⟨t, same, reached⟩⟩

/-- What the other sends reached, the one that is ahead does. -/
theorem reached (ahead : Ahead rest s s') {kind : Kind} {ts : ℕ}
    (reached : ∀ b ∈ rest, b.Reaches kind (s.at_ kind ts)) : ∀ b ∈ rest, b.Reaches kind (s'.at_ kind ts) := by
  obtain ⟨-, same | ⟨t, same, own⟩⟩ := ahead.at_cases kind ts
  · rwa [same]
  · rw [same]
    exact fun b member => reaches_max.mpr ⟨own b member, reached b member⟩

/-- The one that is ahead sends a header that is reached. -/
theorem sends (ahead : Ahead rest s s') (kind : Kind) (ts : ℕ)
    (reached : ∀ b ∈ rest, b.Reaches kind (s.at_ kind ts)) : Ahead rest s (s'.out kind (s'.at_ kind ts)) := by
  obtain ⟨le, -⟩ := ahead.at_cases kind ts
  have reached' := ahead.reached reached
  generalize s'.at_ kind ts = t at le reached'
  refine ⟨ahead.offset, ahead.pts, fun other => ?_, ?_⟩
  · rw [out_kinds]
    split
    · next same =>
      subst same
      exact .inr ⟨_, rfl, fun u last => Nat.le_trans (le_at last) le, reached'⟩
    · exact ahead.kinds other
  · rw [out_last]
    rcases ahead.last with same | ⟨le, after⟩
    · rw [same]
      by_cases before : t ≤ s.last
      · exact .inl (Nat.max_eq_left before)
      · refine .inr ⟨Nat.le_max_left .., fun l member => ?_⟩
        have reached : t ≤ l := reached' _ member
        omega
    · exact .inr ⟨Nat.le_trans le (Nat.le_max_left ..), fun l member =>
        Nat.max_le.mpr ⟨after l member, reached' _ member⟩⟩

/-- The other sends it too. -/
theorem both (ahead : Ahead rest s s') (kind : Kind) (ts : ℕ)
    (reached : ∀ b ∈ rest, b.Reaches kind (s.at_ kind ts)) :
    Ahead rest (s.out kind (s.at_ kind ts)) (s'.out kind (s'.at_ kind ts)) := by
  obtain ⟨le, -⟩ := ahead.at_cases kind ts
  refine ⟨ahead.offset, ahead.pts, fun other => ?_, ?_⟩
  · rw [out_kinds, out_kinds]
    split
    · next same =>
      subst same
      exact .inr ⟨_, rfl, fun u last => Option.some.inj last ▸ le, ahead.reached reached⟩
    · exact ahead.kinds other
  · have own := (ahead.sends kind ts reached).last
    rw [out_last] at own
    rw [out_last, out_last]
    generalize s'.at_ kind ts = t' at le own
    generalize s.at_ kind ts = t at le
    rcases own with same | ⟨before, after⟩
    · exact .inl (by omega)
    · rcases Nat.lt_or_ge (max s.last t) (max s'.last t') with beyond | within
      · exact .inr ⟨Nat.le_of_lt beyond, after⟩
      · exact .inl (by omega)

/-- A message goes out at the same timestamp, and then nothing of its kind is ahead. -/
theorem message {kind : Kind} {ts : ℕ} (ahead : Ahead (.message kind (s.at_ kind ts) :: rest) s s') :
    s'.at_ kind ts = s.at_ kind ts ∧
      Ahead rest (s.out kind (s.at_ kind ts)) (s'.out kind (s'.at_ kind ts)) := by
  have same : s'.at_ kind ts = s.at_ kind ts := by
    rcases ahead.at_cases kind ts with ⟨-, same | ⟨t, same, reached⟩⟩
    · exact same
    · rw [same]
      exact Nat.max_eq_right (reached _ (List.mem_cons_self ..) rfl)
  have later := ahead.tail
  rw [same]
  refine ⟨rfl, ahead.offset, ahead.pts, fun other => ?_, ?_⟩
  · rw [out_kinds, out_kinds]
    split
    · exact .inl rfl
    · exact later.kinds other
  · rw [out_last, out_last]
    generalize s.at_ kind ts = t
    rcases later.last with same | ⟨before, after⟩
    · exact .inl (by rw [same])
    · by_cases past : s'.last ≤ t
      · exact .inl (by omega)
      · refine .inr ⟨by omega, fun l member => ?_⟩
        have := after l member
        omega

/-- What goes out in front of a held frame goes out at its timestamp. -/
theorem set (ahead : Ahead rest s s') (kind : Kind) (t : ℕ) :
    Ahead rest { s with kinds := s.kinds.set kind (some t) } { s' with kinds := s'.kinds.set kind (some t) } := by
  refine ⟨ahead.offset, ahead.pts, fun other => ?_, ahead.last⟩
  dsimp only
  rw [PerKind.get_set, PerKind.get_set]
  split
  · exact .inl rfl
  · exact ahead.kinds other

/-- Nothing is ahead of what goes out at the same timestamp, after the same last one. -/
theorem outSame (ahead : Ahead rest s s') (last : s'.last = s.last) (kind : Kind) (t : ℕ) :
    Ahead rest (s.out kind t) (s'.out kind t) := by
  refine ⟨ahead.offset, ahead.pts, fun other => ?_, .inl (by rw [out_last, out_last, last])⟩
  rw [out_kinds, out_kinds]
  split
  · exact .inl rfl
  · exact ahead.kinds other

theorem past (ahead : Ahead rest s s') (last : s'.last = s.last) (t : ℕ) :
    Ahead rest { s with last := max s.last t } { s' with last := max s'.last t } :=
  ⟨ahead.offset, ahead.pts, ahead.kinds, .inl (by rw [last])⟩

/-- The presentation time goes on alike. -/
theorem present (ahead : Ahead rest s s') (f : ℤ → ℤ) :
    Ahead rest { s with pts := f s.pts } { s' with pts := f s'.pts } :=
  ⟨ahead.offset, congrArg f ahead.pts, ahead.kinds, ahead.last⟩

/-- The output starts again after the same last timestamp. -/
theorem restart (ahead : Ahead (.restart s.last :: rest) s s') : s'.last = s.last := by
  rcases ahead.last with same | ⟨le, reached⟩
  · exact same
  · exact Nat.le_antisymm (reached _ (List.mem_cons_self ..)) le

end Ahead

end Times

/-- The timestamps of the output, and what the destination has of its headers. -/
structure Stamps where
  times : Times
  marks : List ConfigMark
  metadata : Option Bytes

namespace Stamps

variable {s s' : Stamps} {kind : Kind} {ts : ℕ} {rest : List Beat}

/-- The output comes to a configuration. -/
def meet (mark : ConfigMark) (ts : ℕ) (s : Stamps) : Stamps :=
  if mark ∈ s.marks then s
  else { s with times := s.times.out mark.1 (s.times.at_ mark.1 ts), marks := noteMark mark s.marks }

/-- The output comes to metadata. -/
def meetMetadata (payload : Bytes) (ts : ℕ) (s : Stamps) : Stamps :=
  if s.metadata = some payload then s
  else { s with times := s.times.out .data (s.times.at_ .data ts), metadata := some payload }

@[simp] theorem at_meet (s : Stamps) (mark : ConfigMark) (kind : Kind) (ts : ℕ) :
    (s.meet mark ts).times.at_ kind ts = s.times.at_ kind ts := by
  unfold meet
  split
  · rfl
  · exact Times.at_out ..

@[simp] theorem at_meetMetadata (s : Stamps) (payload : Bytes) (kind : Kind) (ts : ℕ) :
    (s.meetMetadata payload ts).times.at_ kind ts = s.times.at_ kind ts := by
  unfold meetMetadata
  split
  · rfl
  · exact Times.at_out ..

/-- The output comes to configurations, one after the other. -/
def meetAll (configs : List (Kind × UInt16 × Bytes)) (ts : ℕ) (s : Stamps) : Stamps :=
  configs.foldl (fun s c => s.meet (configMark c) ts) s

/-- The output comes to metadata, where there is any, and configurations. -/
def meetHeaders (headers : Headers) (ts : ℕ) (s : Stamps) : Stamps :=
  (headers.metadata.elim s fun payload => s.meetMetadata payload ts).meetAll headers.config ts

@[simp] theorem at_meetAll (s : Stamps) (configs : List (Kind × UInt16 × Bytes)) (kind : Kind) (ts : ℕ) :
    (s.meetAll configs ts).times.at_ kind ts = s.times.at_ kind ts := by
  induction configs generalizing s with
  | nil => rfl
  | cons c configs ih => exact (ih _).trans (at_meet ..)

@[simp] theorem at_meetHeaders (s : Stamps) (headers : Headers) (kind : Kind) (ts : ℕ) :
    (s.meetHeaders headers ts).times.at_ kind ts = s.times.at_ kind ts := by
  unfold meetHeaders
  cases headers.metadata with
  | none => exact at_meetAll ..
  | some payload => exact (at_meetAll ..).trans (at_meetMetadata ..)

/-- Configuration in front of a held frame, at its timestamp `t`. -/
def holdConfig (t : ℕ) (s : Stamps) (c : Kind × UInt16 × Bytes) : Stamps :=
  if configMark c ∈ s.marks then s
  else
    { s with
      times := { s.times with kinds := s.times.kinds.set c.1 (some t) }
      marks := noteMark (configMark c) s.marks }

/-- The headers in front of a held frame, at its timestamp `t`. -/
def holdHeaders (headers : Headers) (t : ℕ) (s : Stamps) : Stamps :=
  let s := headers.metadata.elim s fun payload =>
    { s with
      times := { s.times with kinds := s.times.kinds.set .data (some t) }
      metadata := some payload }
  let s := headers.config.foldl (holdConfig t) s
  { s with times := { s.times with last := max s.times.last t } }

/-- The timestamps once a media message is sent. -/
def sent (x : Entry) (s : Stamps) : Stamps :=
  let t := s.times.at_ x.kind x.ts
  let pts := if x.kind = .video then max s.times.pts (Engine.signed (t + x.cts)) else s.times.pts
  { s with times := { s.times.out x.kind t with pts } }

/-- The timestamps once a held frame is sent. -/
def shown (t : ℕ) (cts : ℤ) (s : Stamps) : Stamps :=
  { s with times := { s.times.out .video t with pts := max s.times.pts (Engine.signed (t + cts)) } }

/-- The timestamps of `s'` are those of `s`, or ahead by what is reached; it has sent no header that `s` has not, and
sending the others moves nothing. -/
structure Close (rest : List Beat) (s s' : Stamps) : Prop where
  ahead : s.times.Ahead rest s'.times
  marks : ∀ mark ∈ s'.marks, mark ∈ s.marks
  metadata : s'.metadata = none ∨ s'.metadata = s.metadata
  overtaken : Overtaken s'.marks s'.metadata rest

namespace Close

/-- Both come to a configuration: what only one of them sends is reached. -/
theorem meet {mark : ConfigMark} {ts : ℕ} (close : Close (.config mark (s.times.at_ mark.1 ts) :: rest) s s') :
    Close rest (s.meet mark ts) (s'.meet mark ts) := by
  have later := close.ahead.tail
  have overtaken := close.overtaken
  unfold Overtaken at overtaken
  unfold Stamps.meet
  by_cases has' : mark ∈ s'.marks
  · rw [if_pos has'] at overtaken ⊢
    rw [if_pos (close.marks mark has')]
    exact ⟨later, close.marks, close.metadata, overtaken⟩
  · rw [if_neg has'] at overtaken ⊢
    obtain ⟨reached, overtaken⟩ := overtaken
    split
    · next has =>
      refine ⟨later.sends mark.1 ts reached, fun other member => ?_, close.metadata, overtaken⟩
      rcases mem_noteMark.mp member with ⟨before, -⟩ | rfl
      · exact close.marks other before
      · exact has
    · refine ⟨later.both mark.1 ts reached, fun other member => ?_, close.metadata, overtaken⟩
      rcases mem_noteMark.mp member with ⟨before, replaced⟩ | rfl
      · exact mem_noteMark.mpr (.inl ⟨close.marks other before, replaced⟩)
      · exact mem_noteMark.mpr (.inr rfl)

/-- Both come to metadata. -/
theorem meetMetadata {payload : Bytes} {ts : ℕ}
    (close : Close (.metadata payload (s.times.at_ .data ts) :: rest) s s') :
    Close rest (s.meetMetadata payload ts) (s'.meetMetadata payload ts) := by
  have later := close.ahead.tail
  have overtaken := close.overtaken
  unfold Overtaken at overtaken
  unfold Stamps.meetMetadata
  by_cases has' : s'.metadata = some payload
  · rw [if_pos has'] at overtaken ⊢
    rcases close.metadata with none | same
    · rw [none] at has'
      contradiction
    · rw [if_pos (same ▸ has')]
      exact ⟨later, close.marks, .inr same, overtaken⟩
  · rw [if_neg has'] at overtaken ⊢
    obtain ⟨reached, overtaken⟩ := overtaken
    split
    · next has => exact ⟨later.sends .data ts reached, close.marks, .inr has.symm, overtaken⟩
    · exact ⟨later.both .data ts reached, close.marks, .inr rfl, overtaken⟩

/-- Both come to configurations, one after the other. -/
theorem meetAll {ts : ℕ} (configs : List (Kind × UInt16 × Bytes))
    (close : Close (configs.map (fun c => .config (configMark c) (s.times.at_ c.1 ts)) ++ rest) s s') :
    Close rest (s.meetAll configs ts) (s'.meetAll configs ts) := by
  induction configs generalizing s s' with
  | nil => exact close
  | cons c configs ih =>
    refine ih ?_
    have met : Close (configs.map (fun c => .config (configMark c) (s.times.at_ c.1 ts)) ++ rest)
        (s.meet (configMark c) ts) (s'.meet (configMark c) ts) := meet close
    simpa only [at_meet] using met

/-- Both come to the headers of a splice. -/
theorem meetHeaders {ts : ℕ} {headers : Headers} (close : Close (headers.beats (s.times.at_ · ts) ++ rest) s s') :
    Close rest (s.meetHeaders headers ts) (s'.meetHeaders headers ts) := by
  unfold Headers.beats at close
  unfold Stamps.meetHeaders
  cases metadata : headers.metadata with
  | none =>
    rw [metadata] at close
    exact meetAll headers.config close
  | some payload =>
    rw [metadata] at close
    refine meetAll headers.config ?_
    simp only [Option.elim_some, at_meetMetadata]
    exact meetMetadata close

theorem holdConfigs {t : ℕ} (configs : List (Kind × UInt16 × Bytes)) (same : s'.marks = s.marks)
    (last : s'.times.last = s.times.last)
    (close : Close (configs.map (fun c => .config (configMark c) t) ++ rest) s s') :
    Close rest (configs.foldl (holdConfig t) s) (configs.foldl (holdConfig t) s') ∧
      (configs.foldl (holdConfig t) s').times.last = (configs.foldl (holdConfig t) s).times.last := by
  induction configs generalizing s s' with
  | nil => exact ⟨close, last⟩
  | cons c configs ih =>
    have later := close.ahead.tail
    have overtaken := close.overtaken
    simp only [List.map_cons, List.cons_append, Overtaken] at overtaken
    simp only [List.foldl_cons]
    by_cases has : configMark c ∈ s.marks
    · rw [same, if_pos has] at overtaken
      rw [holdConfig, holdConfig, same, if_pos has, if_pos has]
      exact ih same last ⟨later, close.marks, close.metadata, by rw [same]; exact overtaken⟩
    · rw [same, if_neg has] at overtaken
      rw [holdConfig, holdConfig, same, if_neg has, if_neg has]
      exact ih rfl last ⟨later.set c.1 t, fun _ => id, close.metadata, overtaken.2⟩

/-- Both come to a held frame's headers, with the same configuration sent. -/
theorem holdHeaders {headers : Headers} {t : ℕ} (same : s'.marks = s.marks) (last : s'.times.last = s.times.last)
    (close : Close (headers.beats (fun _ => t) ++ rest) s s') :
    Close rest (s.holdHeaders headers t) (s'.holdHeaders headers t) ∧
      (s'.holdHeaders headers t).times.last = (s.holdHeaders headers t).times.last := by
  unfold Headers.beats at close
  unfold Stamps.holdHeaders
  dsimp only
  have ends {s s' : Stamps} (configs : Close rest s s' ∧ s'.times.last = s.times.last) :
      Close rest { s with times := { s.times with last := max s.times.last t } }
          { s' with times := { s'.times with last := max s'.times.last t } } ∧
        max s'.times.last t = max s.times.last t := by
    obtain ⟨close, last⟩ := configs
    exact ⟨⟨close.ahead.past last t, close.marks, close.metadata, close.overtaken⟩, by rw [last]⟩
  cases metadata : headers.metadata with
  | none =>
    rw [metadata] at close
    exact ends (holdConfigs headers.config same last close)
  | some payload =>
    rw [metadata] at close
    have overtaken := close.overtaken
    simp only [Option.map_some, Option.toList_some, List.cons_append, List.nil_append, Overtaken] at overtaken
    refine ends (holdConfigs headers.config same last ⟨close.ahead.tail.set .data t, close.marks, .inr rfl, ?_⟩)
    split at overtaken
    · next has => rwa [has] at overtaken
    · exact overtaken.2

/-- Both send a message, at the same timestamp. -/
theorem sent {x : Entry} (close : Close (.message x.kind (s.times.at_ x.kind x.ts) :: rest) s s') :
    s'.times.at_ x.kind x.ts = s.times.at_ x.kind x.ts ∧ Close rest (s.sent x) (s'.sent x) := by
  obtain ⟨same, later⟩ := close.ahead.message
  refine ⟨same, ⟨?_, close.marks, close.metadata, close.overtaken⟩⟩
  unfold Stamps.sent
  dsimp only
  rw [same] at later ⊢
  exact later.present fun pts =>
    if x.kind = .video then max pts (Engine.signed (s.times.at_ x.kind x.ts + x.cts)) else pts

/-- Both send a held frame, after the same last timestamp. -/
theorem shown {t : ℕ} (cts : ℤ) (close : Close rest s s') (last : s'.times.last = s.times.last) :
    Close rest (s.shown t cts) (s'.shown t cts) :=
  ⟨(close.ahead.outSame last .video t).present fun pts => max pts (Engine.signed (t + cts)), close.marks,
    close.metadata, close.overtaken⟩

end Close

end Stamps

end StreamDelay
