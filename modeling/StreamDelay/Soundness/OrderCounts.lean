import StreamDelay.Proofs.Mirror

/-! # No count twice, and every picture as far from the others

What a decoder makes of the messages that are written, beside what one makes of those that came: a new sequence never
starts on a count that is held, and within a sequence all counts are moved by the same amount.
-/

namespace StreamDelay.Flv.Hevc

open Foundations

variable {g g' : PocGuard} {i i' o o' : Decoder} {es es' fs fs' : List Seen} {c c' c'' : ℤ}

/-- What a decoder makes of messages. -/
def seen (messages : List Bytes) : List Seen := Machine.outputs Decoder.video .new messages

/-- The pictures among what a decoder makes of messages. -/
def pictures (es : List Seen) : List Picture :=
  es.filterMap fun
    | .picture p => some p
    | .slice _ => none

private theorem mem_pictures {p : Picture} : p ∈ pictures es ↔ .picture p ∈ es := by
  unfold pictures
  rw [List.mem_filterMap]
  constructor
  · rintro ⟨e, member, same⟩
    cases e with
    | picture q =>
      obtain rfl := Option.some.inj same
      exact member
    | slice same => contradiction
  · exact fun member => ⟨_, member, rfl⟩

/-- The messages that are written for those that come. -/
def written (messages : List Bytes) : List Bytes := Machine.outputs PocGuard.write .new messages

/-- The guard can follow every message. -/
def Followed (messages : List Bytes) : Prop := Machine.Along PocGuard.write PocGuard.Follows .new messages

instance (messages : List Bytes) : Decidable (Followed messages) :=
  inferInstanceAs (Decidable (Machine.Along ..))

private theorem seen_effects {messages : List Bytes} (followed : Followed messages) :
    ∃ g i o, Effects .new g .new i .new o (seen messages) (seen (written messages)) :=
  run_mirrored new_mirrors followed

/-! ## No count twice -/

theorem Effects.fresh (effects : Effects g g' i i' o o' es fs) : ∀ p, .picture p ∈ fs → p.Fresh := by
  induction effects with
  | nil => exact nofun
  | cons here later ih =>
    intro p member
    rcases List.mem_append.mp member with now | then_
    · cases here with
      | quiet => contradiction
      | slice => simp at now
      | picture numbered =>
        obtain rfl := Seen.picture.inj (List.mem_singleton.mp now)
        exact numbered.fresh
    · exact ih p then_

/-- A sequence that a BLA picture starts, or a CRA picture after an end of sequence, starts on a count that the decoder
does not hold. -/
theorem counts_never_repeat (messages : List Bytes) (followed : Followed messages) :
    ∀ p ∈ pictures (seen (written messages)), p.Fresh := by
  obtain ⟨g, i, o, effects⟩ := seen_effects followed
  exact fun p member => effects.fresh p (mem_pictures.mp member)

/-- A picture, the same again, and one that goes on from it. -/
def again : List Bytes :=
  [configuration4, frame [[32, 1, 176, 124, 5]], frame [[32, 1, 176, 124, 5]], frame [[2, 1, 226, 248, 5]]]

theorem counts_never_repeat_again :
    (pictures (seen (written again))).map (fun p => (p.held, p.poc)) = [([], 0), ([0], 1), ([1], 2)] ∧
      ∀ p ∈ pictures (seen (written again)), p.Fresh :=
  ⟨by decide +kernel, counts_never_repeat again (by decide +kernel)⟩

/-! ## Every picture as far from the others -/

/-- The pictures of the second list are those of the first with their counts moved by an amount (`c` at the start) that
changes only where a sequence starts, and its further slices carry the counts of their pictures where those of the first
do. -/
inductive Translated : ℤ → List Seen → List Seen → Prop
  | nil {c : ℤ} : Translated c [] []
  | picture {c c' : ℤ} {p q : Picture} {es fs : List Seen} (alike : q = { p with held := q.held, poc := q.poc })
      (moved : q.poc = p.poc + c') (constant : p.starts = false → c' = c) (later : Translated c' es fs) :
      Translated c (.picture p :: es) (.picture q :: fs)
  | slice {c : ℤ} {same same' : Bool} {es fs : List Seen} (carried : same = true → same' = true)
      (later : Translated c es fs) : Translated c (.slice same :: es) (.slice same' :: fs)

/-- The previous counts of the two decoders are `c` apart, and so is everything the guard moves. -/
structure Apart (c : ℤ) (g : PocGuard) (i o : Decoder) : Prop where
  prev : o.prevTid0 = i.prevTid0 + c
  nonneg : 0 ≤ i.prevTid0
  nonneg' : 0 ≤ o.prevTid0
  residue : ∀ id version entry sps, g.active = some (id, version) → g.sps id = some (version, entry, sps) →
    c % 2 ^ sps.log2MaxPocLsb = g.shift % 2 ^ sps.log2MaxPocLsb

private theorem mem_pictures_right {p : Picture} (member : p ∈ pictures es') : p ∈ pictures (es ++ es') :=
  mem_pictures.mpr (List.mem_append_right _ (mem_pictures.mp member))

/-- Every sequence starts with a picture that the next ones are numbered from. -/
def Led (es : List Seen) : Prop := ∀ p ∈ pictures es, p.starts = true → p.anchor = true

/-- No picture that the next ones are numbered from has a negative count. -/
def Nonneg (es : List Seen) : Prop := ∀ p ∈ pictures es, p.anchor = true → 0 ≤ p.poc

instance (es : List Seen) : Decidable (Led es) := inferInstanceAs (Decidable (∀ _ ∈ _, _))

instance (es : List Seen) : Decidable (Nonneg es) := inferInstanceAs (Decidable (∀ _ ∈ _, _))

private theorem numbered_apart {p q : Picture} (numbered : Numbered g g' i i' o o' p q) (apart : Apart c g i o)
    (starts : p.starts = true → p.anchor = true) (nonneg : p.anchor = true → 0 ≤ p.poc)
    (nonneg' : p.anchor = true → 0 ≤ q.poc) :
    ∃ c', q.poc = p.poc + c' ∧ (p.starts = false → c' = c) ∧ Apart c' g' i' o' := by
  obtain ⟨id, version, entry, sps, active, found, width⟩ := numbered.width
  have unique {P : Sps → Prop} (here : P sps) :
      ∀ id version entry sps, g'.active = some (id, version) → g'.sps id = some (version, entry, sps) → P sps := by
    intro id' version' entry' sps' active' found'
    obtain ⟨rfl, rfl⟩ := Prod.mk.inj (Option.some.inj (active.symm.trans active'))
    obtain ⟨-, same⟩ := Prod.mk.inj (Option.some.inj (found.symm.trans found'))
    exact (Prod.mk.inj same).2 ▸ here
  cases first : p.starts with
  | true =>
    have anchor := starts first
    refine ⟨q.poc - p.poc, by omega, nofun, ?_, ?_, ?_, unique ?_⟩
    · rw [numbered.anchorIn, numbered.anchorOut, if_pos anchor, if_pos anchor]
      omega
    · rw [numbered.anchorIn, if_pos anchor]
      exact nonneg anchor
    · rw [numbered.anchorOut, if_pos anchor]
      exact nonneg' anchor
    · rw [width]
      have moved := Int.ModEq.sub_right p.poc numbered.residue
      rwa [add_sub_cancel_left] at moved
  | false =>
    obtain ⟨still, shift⟩ := numbered.same first
    have residue : c % 2 ^ p.log2MaxPocLsb = g.shift % 2 ^ p.log2MaxPocLsb := by
      rw [← width]
      exact apart.residue id version entry sps (still.symm.trans active) (numbered.sets ▸ found)
    have moved := numbered.moves first c apart.prev apart.nonneg apart.nonneg' residue
    refine ⟨c, moved, fun _ => rfl, ?_, ?_, ?_, unique ?_⟩
    · rw [numbered.anchorIn, numbered.anchorOut]
      split
      · exact moved
      · exact apart.prev
    · rw [numbered.anchorIn]
      split
      · next anchor => exact nonneg anchor
      · exact apart.nonneg
    · rw [numbered.anchorOut]
      split
      · next anchor => exact nonneg' anchor
      · exact apart.nonneg'
    · rw [width, shift]
      exact residue

private theorem Effects.translated (effects : Effects g g' i i' o o' es fs) (apart : Apart c g i o) (led : Led es)
    (nonneg : Nonneg es) (nonneg' : Nonneg fs) : Translated c es fs := by
  induction effects generalizing c with
  | nil => exact .nil
  | cons here later ih =>
    have rest {c : ℤ} (apart : Apart c _ _ _) := ih apart (fun p member => led p (mem_pictures_right member))
      (fun p member => nonneg p (mem_pictures_right member)) fun p member => nonneg' p (mem_pictures_right member)
    cases here with
    | quiet kept active shift prevIn prevOut =>
      refine rest ⟨?_, ?_, ?_, fun id version entry sps given found => ?_⟩
      · rw [prevIn, prevOut]
        exact apart.prev
      · rw [prevIn]
        exact apart.nonneg
      · rw [prevOut]
        exact apart.nonneg'
      · rw [active] at given
        rw [shift]
        exact apart.residue id version entry sps given (kept id version entry sps given found)
    | slice carried guard input output =>
      subst guard input output
      exact .slice carried (rest apart)
    | @picture p q numbered =>
      have anchors : q.anchor = p.anchor := by rw [numbered.alike]
      obtain ⟨c', moved, constant, apart'⟩ := numbered_apart numbered apart
        (led p (mem_pictures.mpr (List.mem_cons_self ..))) (nonneg p (mem_pictures.mpr (List.mem_cons_self ..)))
        (anchors ▸ nonneg' q (mem_pictures.mpr (List.mem_cons_self ..)))
      exact .picture numbered.alike moved constant (rest apart')

/-- Where every sequence starts with a picture that the next ones are numbered from, renumbering moves all counts of a
sequence by the same amount. -/
theorem renumbering_translates (messages : List Bytes) (followed : Followed messages) (led : Led (seen messages))
    (nonneg : Nonneg (seen messages)) (nonneg' : Nonneg (seen (written messages))) :
    Translated 0 (seen messages) (seen (written messages)) := by
  obtain ⟨g, i, o, effects⟩ := seen_effects followed
  exact effects.translated ⟨rfl, le_rfl, le_rfl, nofun⟩ led nonneg nonneg'

theorem renumbering_translates_again :
    (pictures (seen again)).map Picture.poc = [0, 0, 1] ∧
      (pictures (seen (written again))).map Picture.poc = [0, 1, 2] ∧
      Translated 0 (seen again) (seen (written again)) :=
  ⟨by decide +kernel, by decide +kernel,
    renumbering_translates again (by decide +kernel) (by decide +kernel) (by decide +kernel) (by decide +kernel)⟩

/-- How far every picture that goes on with a sequence is from the one before. -/
def gaps : List Picture → List ℤ
  | p :: q :: rest => if q.starts then gaps (q :: rest) else (q.poc - p.poc) :: gaps (q :: rest)
  | _ => []

private theorem Translated.gaps_after (translated : Translated c es fs) {p q : Picture} (moved : q.poc = p.poc + c) :
    gaps (p :: pictures es) = gaps (q :: pictures fs) := by
  induction translated generalizing p q with
  | nil => rfl
  | slice carried later ih => exact ih moved
  | @picture c c' p' q' es fs alike moved' constant later ih =>
    have starts : q'.starts = p'.starts := by rw [alike]; rfl
    show gaps (p :: p' :: pictures es) = gaps (q :: q' :: pictures fs)
    unfold gaps
    rw [starts, ih moved']
    cases first : p'.starts with
    | true => rfl
    | false =>
      obtain rfl := constant first
      rw [if_neg Bool.false_ne_true, if_neg Bool.false_ne_true]
      congr 1
      omega

/-- Pictures of a sequence are as far from each other after renumbering as before. -/
theorem Translated.gaps (translated : Translated c es fs) : gaps (pictures es) = gaps (pictures fs) := by
  induction translated with
  | nil => rfl
  | slice carried later ih => exact ih
  | picture alike moved constant later ih => exact later.gaps_after moved

/-- After an end of sequence comes a picture that the next ones are not numbered from. -/
def torn : List Bytes :=
  [configuration4, frame [[32, 1, 176, 124, 5]], frame [[32, 1, 176, 124, 5]], frame [[72, 1], [0, 1, 242, 248, 5]],
    frame [[0, 1, 244, 248, 5]]]

/-- Its count is -7, reckoned from 0, and 9 where the count before it was moved to 1; that of the next picture is -6
both times. -/
theorem torn_apart :
    Followed torn ∧ Nonneg (seen torn) ∧ Nonneg (seen (written torn)) ∧
      (pictures (seen torn)).map Picture.poc = [0, 0, -7, -6] ∧
      (pictures (seen (written torn))).map Picture.poc = [0, 1, 9, -6] ∧
      ¬Translated 0 (seen torn) (seen (written torn)) := by
  refine ⟨by decide +kernel, by decide +kernel, by decide +kernel, by decide +kernel, by decide +kernel, ?_⟩
  intro translated
  have different : gaps (pictures (seen torn)) ≠ gaps (pictures (seen (written torn))) := by decide +kernel
  exact different translated.gaps

end StreamDelay.Flv.Hevc
