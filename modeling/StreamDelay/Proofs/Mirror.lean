import StreamDelay.Flv.Decoder
import StreamDelay.Proofs.Framing
import StreamDelay.Proofs.Headers
import StreamDelay.Proofs.OrderCounts
import StreamDelay.Soundness.ReferenceSets

/-! # The guard, and decoders of what it takes and of what it writes

Both decoders keep the parameter sets that the guard keeps, and the decoder of what is written holds what the guard has
it hold. Whatever a NAL unit does to the three is said once, as an `Effect`.
-/

namespace StreamDelay.Flv.Hevc

open Foundations Bits

variable {p p' p'' : ParameterSets} {g g' : PocGuard} {i i' o o' : Decoder} {s : Slice} {t : UInt8} {tid n : ℕ}
  {eos : Bool}  {rbsp nal : Bytes} {c : ℤ}

/-! ## Parameter sets -/

/-- No version is later than the last one given, and order counts have from 4 to 16 bits. -/
def ParameterSets.Kept (p : ParameterSets) : Prop :=
  ∀ id version rbsp sps, p.sps id = some (version, rbsp, sps) →
    version ≤ p.versions ∧ 4 ≤ sps.log2MaxPocLsb ∧ sps.log2MaxPocLsb ≤ 16

/-- What is kept later under a version already given was kept under it before. -/
structure ParameterSets.Grows (p p' : ParameterSets) : Prop where
  versions : p.versions ≤ p'.versions
  before : ∀ id version rbsp sps, p'.sps id = some (version, rbsp, sps) → version ≤ p.versions →
    p.sps id = some (version, rbsp, sps)

namespace ParameterSets.Grows

theorem refl (p : ParameterSets) : p.Grows p := ⟨le_rfl, fun _ _ _ _ found _ => found⟩

theorem trans (first : p.Grows p') (second : p'.Grows p'') : p.Grows p'' :=
  ⟨Nat.le_trans first.versions second.versions, fun id version rbsp sps found early =>
    first.before id version rbsp sps
      (second.before id version rbsp sps found (Nat.le_trans early first.versions)) early⟩

end ParameterSets.Grows

private theorem spsRest_bits (subLayers : ℕ) :
    Yields (spsRest subLayers) fun sps => 4 ≤ sps.log2MaxPocLsb ∧ sps.log2MaxPocLsb ≤ 16 := by
  unfold spsRest
  iterate 9 refine (Yields.any _).bind fun _ _ => ?_
  refine (Rps.require_yields _).bind fun _ small => ?_
  iterate 14 refine (Yields.any _).bind fun _ _ => ?_
  exact Yields.pure ⟨Nat.le_add_left 4 _, small⟩

private theorem parseSps_bits {id : ℕ} {sps : Sps} (read : parseSps rbsp = some (id, some sps)) :
    4 ≤ sps.log2MaxPocLsb ∧ sps.log2MaxPocLsb ≤ 16 := by
  obtain ⟨⟨⟨_, subLayers⟩, r⟩, -, same⟩ := Option.map_eq_some_iff.mp read
  obtain ⟨⟨_, r'⟩, found, rfl⟩ := Option.map_eq_some_iff.mp (Prod.mk.inj same).2
  exact spsRest_bits subLayers r _ r' found

private theorem setSps_grows {id : ℕ} {sps : Option Sps} (kept : p.Kept)
    (bits : ∀ s ∈ sps, 4 ≤ s.log2MaxPocLsb ∧ s.log2MaxPocLsb ≤ 16) :
    (p.setSps id rbsp sps).Kept ∧ p.Grows (p.setSps id rbsp sps) := by
  unfold ParameterSets.setSps
  split
  · exact ⟨kept, .refl p⟩
  · refine ⟨fun id' version rbsp' sps' found => ?_, Nat.le_succ _, fun id' version rbsp' sps' found early => ?_⟩
    · dsimp only at found ⊢
      by_cases here : id' = id
      · rw [here, Function.update_self] at found
        obtain ⟨s, given, same⟩ := Option.map_eq_some_iff.mp found
        obtain ⟨rfl, -, rfl⟩ : p.versions + 1 = version ∧ rbsp = rbsp' ∧ s = sps' := by simpa using same
        exact ⟨le_rfl, bits s given⟩
      · rw [Function.update_of_ne here] at found
        obtain ⟨early, small⟩ := kept id' version rbsp' sps' found
        exact ⟨Nat.le_succ_of_le early, small⟩
    · dsimp only at found
      by_cases here : id' = id
      · rw [here, Function.update_self] at found
        obtain ⟨s, given, same⟩ := Option.map_eq_some_iff.mp found
        obtain ⟨rfl, -, rfl⟩ : p.versions + 1 = version ∧ rbsp = rbsp' ∧ s = sps' := by simpa using same
        omega
      · rwa [Function.update_of_ne here] at found

theorem parameterSet_grows (kept : p.Kept) (nal : Bytes) :
    (p.parameterSet nal).Kept ∧ p.Grows (p.parameterSet nal) := by
  unfold ParameterSets.parameterSet
  split
  · split
    · exact ⟨kept, .refl p⟩
    · split
      · split
        · next id sps read => exact setSps_grows kept fun s given => parseSps_bits (by rw [read, given])
        · exact ⟨kept, .refl p⟩
      · split
        · split
          · exact ⟨kept, le_rfl, fun _ _ _ _ found _ => found⟩
          · exact ⟨kept, .refl p⟩
        · exact ⟨kept, .refl p⟩
  · exact ⟨kept, .refl p⟩

private theorem array_grows (kept : p.Kept) (count : ℕ) (record : Bytes) :
    (p.array count record).1.Kept ∧ p.Grows (p.array count record).1 := by
  induction count generalizing record p with
  | zero => exact ⟨kept, .refl p⟩
  | succ n ih =>
    rcases record with _ | ⟨high, _ | ⟨low, rest⟩⟩
    · exact ⟨kept, .refl p⟩
    · exact ⟨kept, .refl p⟩
    · unfold ParameterSets.array
      dsimp only
      split
      · obtain ⟨kept', grows⟩ := parameterSet_grows kept (rest.take (high.toNat * 256 + low.toNat))
        obtain ⟨kept'', grows'⟩ := ih kept' (rest.drop (high.toNat * 256 + low.toNat))
        exact ⟨kept'', grows.trans grows'⟩
      · exact ⟨kept, .refl p⟩

private theorem arrays_grows (kept : p.Kept) (count : ℕ) (record : Bytes) :
    (p.arrays count record).Kept ∧ p.Grows (p.arrays count record) := by
  induction count generalizing record p with
  | zero => exact ⟨kept, .refl p⟩
  | succ n ih =>
    rcases record with _ | ⟨type, _ | ⟨high, _ | ⟨low, rest⟩⟩⟩
    iterate 3 exact ⟨kept, .refl p⟩
    obtain ⟨kept', grows⟩ := array_grows kept (high.toNat * 256 + low.toNat) rest
    unfold ParameterSets.arrays
    split
    · next p' rest' found =>
      rw [found] at kept' grows
      obtain ⟨kept'', grows'⟩ := ih kept' rest'
      exact ⟨kept'', grows.trans grows'⟩
    · next p' found =>
      rw [found] at kept' grows
      exact ⟨kept', grows⟩

private theorem configuration_grows (kept : p.Kept) (record : Bytes) :
    (p.configuration record).Kept ∧ p.Grows (p.configuration record) := by
  unfold ParameterSets.configuration
  split
  · next lengths count _ _ =>
    have kept' : { p with lengthsOk := lengths &&& (3 : UInt8) = 3 }.Kept := kept
    obtain ⟨kept'', grows⟩ := arrays_grows kept' count.toNat (record.drop 23)
    exact ⟨kept'', grows.versions, grows.before⟩
  · exact ⟨kept, .refl p⟩

/-! ## The three together -/

/-- What a decoder has in common with the guard, whichever of the two streams it is sent. -/
structure Keeps (g : PocGuard) (d : Decoder) : Prop where
  sets : d.toParameterSets = g.toParameterSets
  active : d.active = g.active
  ended : d.ended = g.ended
  noRaslOutput : d.noRaslOutput = g.noRaslOutput

/-- The decoder `i` of what comes and the decoder `o` of what is written. -/
structure Mirrors (g : PocGuard) (i o : Decoder) : Prop where
  input : Keeps g i
  output : Keeps g o
  held : g.held = some o.held
  prevTid0 : o.prevTid0 = g.prevTid0
  lsb : o.lsb = i.lsb.map fun (width, v) => (width, (v + g.shift) % 2 ^ width)
  kept : g.Kept
  active : ∀ id version, g.active = some (id, version) → version ≤ g.versions

/-- The sequence parameter set of the last picture does not change under its version. -/
theorem Mirrors.keeps {sets : ParameterSets} (mirrors : Mirrors g i o) (grows : g.Grows sets) :
    ∀ id version entry sps, g.active = some (id, version) → sets.sps id = some (version, entry, sps) →
      g.sps id = some (version, entry, sps) :=
  fun id version entry sps given found => grows.before id version entry sps found (mirrors.active id version given)

/-- The count of a picture that starts a sequence where the decoder lets go of what it holds after it is checked is
none of those held. -/
def Picture.Fresh (p : Picture) : Prop :=
  (isBla p.type = true ∨ (p.type = CRA ∧ p.eos = true)) → p.changed = false →
    p.held.toFinset.card < 2 ^ p.log2MaxPocLsb → p.poc ∉ p.held

/-- A picture `p` of what comes, and `q` as it is written. -/
structure Numbered (g g' : PocGuard) (i i' o o' : Decoder) (p q : Picture) : Prop where
  alike : q = { p with held := q.held, poc := q.poc }
  sets : g'.toParameterSets = g.toParameterSets
  anchorIn : i'.prevTid0 = if p.anchor then p.poc else i.prevTid0
  anchorOut : o'.prevTid0 = if p.anchor then q.poc else o.prevTid0
  width : ∃ id version rbsp sps, g'.active = some (id, version) ∧ g'.sps id = some (version, rbsp, sps) ∧
    sps.log2MaxPocLsb = p.log2MaxPocLsb
  residue : q.poc % 2 ^ p.log2MaxPocLsb = (p.poc + g'.shift) % 2 ^ p.log2MaxPocLsb
  fresh : q.Fresh
  /-- Within a sequence nothing moves but with the previous counts. -/
  same : p.starts = false → g'.active = g.active ∧ g'.shift = g.shift
  moves : p.starts = false → ∀ c, o.prevTid0 = i.prevTid0 + c → 0 ≤ i.prevTid0 → 0 ≤ o.prevTid0 →
    c % 2 ^ p.log2MaxPocLsb = g.shift % 2 ^ p.log2MaxPocLsb → q.poc = p.poc + c

/-- What a NAL unit does, and what either decoder sees of it. -/
inductive Effect (g g' : PocGuard) (i i' o o' : Decoder) : List Seen → List Seen → Prop
  | quiet (kept : ∀ id version entry sps, g.active = some (id, version) → g'.sps id = some (version, entry, sps) →
        g.sps id = some (version, entry, sps))
      (active : g'.active = g.active) (shift : g'.shift = g.shift) (prevIn : i'.prevTid0 = i.prevTid0)
      (prevOut : o'.prevTid0 = o.prevTid0) : Effect g g' i i' o o' [] []
  | slice {same same' : Bool} (carried : same = true → same' = true) (guard : g' = g) (input : i' = i)
      (output : o' = o) : Effect g g' i i' o o' [.slice same] [.slice same']
  | picture {p q : Picture} (numbered : Numbered g g' i i' o o' p q) :
      Effect g g' i i' o o' [.picture p] [.picture q]

/-! ## A picture -/

/-- What the counts move by from a picture on. -/
def PocGuard.nextShift (t : UInt8) (s : Slice) (eos : Bool) (active : ℕ × ℕ) (log2 : ℕ) (g : PocGuard) : ℕ :=
  if isIdr t || isBla t || eos || decide (g.active ≠ some active) then
    PocGuard.shiftFor s log2 t
      { g with active := some active, held := if isIdr t || decide (g.active ≠ some active) then some [] else g.held }
  else g.shift

theorem decoded_eq (active : ℕ × ℕ) :
    g.decoded t tid s eos active n =
      let shift := g.nextShift t s eos active n
      let poc := { g with shift }.poc s n t
      { g with
        active := some active
        shift
        prevTid0 := if tid = 0 ∧ isAnchor t then poc else g.prevTid0
        held := some (poc :: (s.rps.before ++ s.rps.after).map (poc + ·)) } := by
  unfold PocGuard.decoded PocGuard.nextShift
  dsimp only
  split <;> rfl

section

variable (active : ℕ × ℕ)

theorem decoded_shift : (g.decoded t tid s eos active n).shift = g.nextShift t s eos active n := by
  rw [decoded_eq]

theorem decoded_active : (g.decoded t tid s eos active n).active = some active := by
  rw [decoded_eq]

private theorem decoded_sets : (g.decoded t tid s eos active n).toParameterSets = g.toParameterSets := by
  rw [decoded_eq]

theorem decoded_ended : (g.decoded t tid s eos active n).ended = g.ended := by
  rw [decoded_eq]

theorem decoded_noRaslOutput : (g.decoded t tid s eos active n).noRaslOutput = g.noRaslOutput := by
  rw [decoded_eq]

private theorem decoded_held : (g.decoded t tid s eos active n).held =
    some ({ g with shift := (g.decoded t tid s eos active n).shift }.poc s n t ::
      (s.rps.before ++ s.rps.after).map
        ({ g with shift := (g.decoded t tid s eos active n).shift }.poc s n t + ·)) := by
  rw [decoded_shift, decoded_eq]

private theorem decoded_prevTid0 : (g.decoded t tid s eos active n).prevTid0 =
    if tid = 0 ∧ isAnchor t then { g with shift := (g.decoded t tid s eos active n).shift }.poc s n t
    else g.prevTid0 := by
  rw [decoded_shift, decoded_eq]

end

private theorem nextShift_goesOn {active : ℕ × ℕ}
    (later : (isIdr t || isBla t || eos || decide (g.active ≠ some active)) = false) :
    g.nextShift t s eos active n = g.shift := by
  unfold PocGuard.nextShift
  rw [later, if_neg Bool.false_ne_true]

private theorem nextShift_idr {active : ℕ × ℕ} (idr : isIdr t = true) (none_ : s.lsb = none) :
    g.nextShift t s eos active n = 0 := by
  unfold PocGuard.nextShift PocGuard.shiftFor
  rw [idr, none_, Bool.true_or, Bool.true_or, Bool.true_or, if_pos rfl]

theorem not_idr (other : isBla t = true ∨ t = CRA) : isIdr t = false := by
  rw [← Bool.not_eq_true]
  intro idr
  unfold isIdr at idr
  rcases Bool.or_eq_true _ _ ▸ idr with w_radl | n_lp
  · obtain rfl := of_decide_eq_true w_radl
    revert other
    decide
  · obtain rfl := of_decide_eq_true n_lp
    revert other
    decide

/-- Where the decoder holds its pictures still, the first amount that is free was taken. -/
theorem nextShift_free {active : ℕ × ℕ} {held : List ℤ} (holds : g.held = some held) (some_ : s.lsb ≠ none)
    (starts : isBla t = true ∨ (t = CRA ∧ eos = true)) (same : g.active = some active)
    (few : held.toFinset.card < 2 ^ n) :
    { g with shift := g.nextShift t s eos active n }.poc s n t ∉ held := by
  have other := not_idr (starts.imp_right And.left)
  have starts' : (isIdr t || isBla t || eos || decide (g.active ≠ some active)) = true := by
    rcases starts with bla | ⟨-, ended⟩
    · rw [bla, Bool.or_true, Bool.true_or, Bool.true_or]
    · rw [ended, Bool.or_true, Bool.true_or]
  have kept : (isIdr t || decide (g.active ≠ some active)) = false := by
    rw [other, same, Bool.false_or]
    exact decide_eq_false fun differs => differs rfl
  unfold PocGuard.nextShift PocGuard.shiftFor PocGuard.poc
  rw [starts', if_pos rfl, kept, if_neg Bool.false_ne_true, holds]
  cases count : s.lsb with
  | none => exact absurd count some_
  | some field => exact freeShift_free few

private theorem poc_residue {shift : ℕ} (zero : s.lsb = none → shift = 0) :
    { g with shift }.poc s n t % 2 ^ n = (i.poc s n t + shift) % 2 ^ n := by
  unfold PocGuard.poc Decoder.poc
  cases count : s.lsb with
  | none =>
    rw [zero count]
    rfl
  | some field =>
    dsimp only
    rw [computePoc_emod, Int.add_emod, computePoc_emod, ← Int.add_emod]
    push_cast
    rw [Int.emod_emod_of_dvd _ (dvd_refl _)]

/-- The decoder of what is written numbers a picture as the guard has it. -/
theorem poc_moved (prev : o.prevTid0 = g.prevTid0)
    (width : ∀ start width lsb, s.lsb = some (start, width, lsb) → width = n) :
    o.poc (s.moved g.shift) n t = g.poc s n t := by
  unfold Decoder.poc PocGuard.poc Slice.moved
  rw [prev]
  cases count : s.lsb with
  | none => rfl
  | some field =>
    obtain ⟨start, width', lsb⟩ := field
    obtain rfl := width start width' lsb count
    rfl

private theorem poc_moves (fits : ∀ start width lsb, s.lsb = some (start, width, lsb) → lsb < 2 ^ n)
    (some_ : s.lsb ≠ none)
    (bits : 1 ≤ n) (later : isBla t = false) (prev : g.prevTid0 = i.prevTid0 + c) (nonneg : 0 ≤ i.prevTid0)
    (nonneg' : 0 ≤ g.prevTid0) (moved : c % 2 ^ n = g.shift % 2 ^ n) : g.poc s n t = i.poc s n t + c := by
  unfold PocGuard.poc Decoder.poc
  cases count : s.lsb with
  | none => exact absurd count some_
  | some field =>
    obtain ⟨start, width, lsb⟩ := field
    have below := fits start width lsb count
    dsimp only
    rw [prev] at nonneg' ⊢
    refine computePoc_add bits below (Nat.mod_lt _ (Nat.two_pow_pos n)) later nonneg nonneg' ?_
    push_cast
    rw [Int.emod_emod_of_dvd _ (dvd_refl _), Int.add_emod, ← moved, ← Int.add_emod]

section

variable {version : ℕ} {entry : Bytes} {sps : Sps} {d : Decoder}

private theorem guard_skips (found : g.sps s.spsId = some (version, entry, sps))
    (skipped : (isRasl t && PocGuard.raslOutput t eos g.noRaslOutput) = true) :
    g.picture t tid s eos = { g with noRaslOutput := PocGuard.raslOutput t eos g.noRaslOutput } := by
  unfold PocGuard.picture
  rw [found]
  exact if_pos skipped

private theorem guard_decodes (found : g.sps s.spsId = some (version, entry, sps))
    (decoded : (isRasl t && PocGuard.raslOutput t eos g.noRaslOutput) = false) :
    g.picture t tid s eos = { g with noRaslOutput := PocGuard.raslOutput t eos g.noRaslOutput }.decoded t tid s eos
      (s.spsId, version) sps.log2MaxPocLsb := by
  unfold PocGuard.picture
  rw [found]
  exact if_neg (Bool.eq_false_iff.mp decoded)

theorem decoder_skips (found : d.sps s.spsId = some (version, entry, sps))
    (skipped : (isRasl t && PocGuard.raslOutput t eos d.noRaslOutput) = true) :
    d.picture t tid s eos =
      ({ d with lsb := s.lsb.map Prod.snd, noRaslOutput := PocGuard.raslOutput t eos d.noRaslOutput }, []) := by
  unfold Decoder.picture
  dsimp only
  rw [found]
  exact if_pos skipped

theorem decoder_decodes (found : d.sps s.spsId = some (version, entry, sps))
    (decoded : (isRasl t && PocGuard.raslOutput t eos d.noRaslOutput) = false) :
    d.picture t tid s eos =
      { d with lsb := s.lsb.map Prod.snd, noRaslOutput := PocGuard.raslOutput t eos d.noRaslOutput }.decoded t tid s eos
        (s.spsId, version) sps.log2MaxPocLsb := by
  unfold Decoder.picture
  dsimp only
  rw [found]
  exact if_neg (Bool.eq_false_iff.mp decoded)

end

theorem moved_count (shift : ℕ) (s : Slice) : (s.moved shift).lsb.map Prod.snd =
    (s.lsb.map Prod.snd).map fun (width, v) => (width, (v + shift) % 2 ^ width) := by
  unfold Slice.moved
  rw [Option.map_map, Option.map_map]
  rfl

/-- A picture that is decoded is numbered by both decoders, and by that of what is written as the guard has it. -/
theorem decoded_mirrored (input : Keeps g i) (output : Keeps g o) (held : g.held = some o.held)
    (prev : o.prevTid0 = g.prevTid0) (kept : g.Kept) (first : s.first = true) {version : ℕ} {entry : Bytes} {sps : Sps}
    (idr : s.first = true → s.lsb = none → isIdr t = true) (found : g.sps s.spsId = some (version, entry, sps))
    (count : ∀ start width lsb, s.lsb = some (start, width, lsb) → width = sps.log2MaxPocLsb ∧ lsb < 2 ^ width)
    (counted : o.lsb = i.lsb.map fun (width, v) =>
      (width, (v + (g.decoded t tid s eos (s.spsId, version) sps.log2MaxPocLsb).shift) % 2 ^ width)) :
    let g' := g.decoded t tid s eos (s.spsId, version) sps.log2MaxPocLsb
    let i' := i.decoded t tid s eos (s.spsId, version) sps.log2MaxPocLsb
    let o' := o.decoded t tid (s.moved g'.shift) eos (s.spsId, version) sps.log2MaxPocLsb
    Mirrors g' i'.1 o'.1 ∧ ∃ p q, i'.2 = [.picture p] ∧ o'.2 = [.picture q] ∧ Numbered g g' i i'.1 o o'.1 p q := by
  intro g' i' o'
  obtain ⟨early, bits, -⟩ := kept _ _ _ _ found
  have shifted : g'.shift = g.nextShift t s eos (s.spsId, version) sps.log2MaxPocLsb := decoded_shift _
  have written :
      o.poc (s.moved g'.shift) sps.log2MaxPocLsb t = { g with shift := g'.shift }.poc s sps.log2MaxPocLsb t :=
    @poc_moved { g with shift := g'.shift } _ _ _ _ prev fun start width lsb given => (count start width lsb given).1
  have some_ (other : isIdr t = false) : s.lsb ≠ none := fun none_ =>
    absurd (idr first none_) (Bool.eq_false_iff.mp other)
  have sets : g'.toParameterSets = g.toParameterSets := decoded_sets _
  have later (goesOn : (isIdr t || isBla t || eos || decide (i.active ≠ some (s.spsId, version))) = false) :
      g'.active = g.active ∧ g'.shift = g.shift := by
    obtain ⟨-, same⟩ := Bool.or_eq_false_iff.mp goesOn
    rw [decide_eq_false_iff_not, not_not, input.active] at same
    refine ⟨(decoded_active _).trans same.symm, shifted.trans (nextShift_goesOn ?_)⟩
    rw [input.active] at goesOn
    exact goesOn
  constructor
  · refine ⟨⟨input.sets.trans sets.symm, (decoded_active _).symm, ?_, ?_⟩,
      ⟨output.sets.trans sets.symm, (decoded_active _).symm, ?_, ?_⟩, ?_, ?_, ?_, ?_, ?_⟩
    · exact input.ended.trans (decoded_ended _).symm
    · exact input.noRaslOutput.trans (decoded_noRaslOutput _).symm
    · exact output.ended.trans (decoded_ended _).symm
    · exact output.noRaslOutput.trans (decoded_noRaslOutput _).symm
    · refine (decoded_held _).trans ?_
      rw [← written]
      rfl
    · refine Eq.trans ?_ (decoded_prevTid0 _).symm
      rw [← written, ← prev]
      show (if decide (tid = 0 ∧ isAnchor t = true) = true then _ else _) = _
      simp only [decide_eq_true_eq]
    · exact counted
    · rw [sets]
      exact kept
    · intro id v given
      obtain ⟨-, rfl⟩ := Prod.mk.inj (Option.some.inj ((decoded_active _).symm.trans given))
      rw [sets]
      exact early
  · refine ⟨_, _, rfl, rfl, ?_, sets, rfl, rfl, ?_, ?_, ?_, later, ?_⟩
    · dsimp only
      rw [input.active, output.active]
      rfl
    · exact ⟨s.spsId, version, entry, sps, decoded_active _, sets ▸ found, rfl⟩
    · refine Eq.trans (congrArg (· % _) written) (poc_residue fun none_ => ?_)
      exact shifted.trans (nextShift_idr (idr first none_) none_)
    · intro starts same few
      have other := not_idr (starts.imp_right And.left)
      have still : decide (o.active ≠ some (s.spsId, version)) = false := same
      have active : g.active = some (s.spsId, version) := by
        rw [← output.active]
        exact of_not_not (decide_eq_false_iff_not.mp still)
      have all : (if (isIdr t || decide (o.active ≠ some (s.spsId, version))) = true then [] else o.held) = o.held := by
        rw [other, still]
        rfl
      dsimp only at few ⊢
      rw [all] at few ⊢
      rw [written, shifted]
      exact nextShift_free held (some_ other) starts active few
    · intro goesOn c moved nonneg nonneg' residue
      obtain ⟨-, still⟩ := later goesOn
      obtain ⟨started, -⟩ := Bool.or_eq_false_iff.mp goesOn
      obtain ⟨started, -⟩ := Bool.or_eq_false_iff.mp started
      obtain ⟨other, later⟩ := Bool.or_eq_false_iff.mp started
      dsimp only
      rw [written]
      refine @poc_moves { g with shift := g'.shift } _ _ _ _ _ (fun start width lsb given => ?_) (some_ other)
        (by omega) later (prev.symm.trans moved) nonneg (prev ▸ nonneg') ?_
      · exact (count start width lsb given).1 ▸ (count start width lsb given).2
      · dsimp only
        rw [still]
        exact residue

/-- The guard and both decoders take the first slice of a picture together. -/
theorem picture_mirrored (mirrors : Mirrors g i o) (first : s.first = true) (fits : s.Fits g.toParameterSets t) :
    Mirrors (g.picture t tid s eos) (i.picture t tid s eos).1
        (o.picture t tid (s.moved (g.picture t tid s eos).shift) eos).1 ∧
      Effect g (g.picture t tid s eos) i (i.picture t tid s eos).1 o
        (o.picture t tid (s.moved (g.picture t tid s eos).shift) eos).1 (i.picture t tid s eos).2
        (o.picture t tid (s.moved (g.picture t tid s eos).shift) eos).2 := by
  obtain ⟨idr, version, entry, sps, found, count⟩ := fits
  obtain ⟨input, output, held, prev, -, kept, active⟩ := mirrors
  obtain ⟨early, bits, -⟩ := kept _ _ _ _ found
  have foundIn : i.sps s.spsId = some (version, entry, sps) := by rw [input.sets, found]
  have foundOut (shift : ℕ) : o.sps (s.moved shift).spsId = some (version, entry, sps) := by
    rw [output.sets]
    exact found
  have raslIn : PocGuard.raslOutput t eos i.noRaslOutput = PocGuard.raslOutput t eos g.noRaslOutput := by
    rw [input.noRaslOutput]
  have raslOut : PocGuard.raslOutput t eos o.noRaslOutput = PocGuard.raslOutput t eos g.noRaslOutput := by
    rw [output.noRaslOutput]
  cases skipped : isRasl t && PocGuard.raslOutput t eos g.noRaslOutput with
  | true =>
    rw [guard_skips found skipped, decoder_skips foundIn (raslIn ▸ skipped),
      decoder_skips (foundOut _) (raslOut ▸ skipped)]
    refine ⟨⟨⟨input.sets, input.active, input.ended, raslIn⟩, ⟨output.sets, output.active, output.ended, raslOut⟩,
      held, prev, moved_count _ s, kept, active⟩, .quiet (fun _ _ _ _ _ found => found) rfl rfl rfl rfl⟩
  | false =>
    rw [guard_decodes found skipped, decoder_decodes foundIn (raslIn ▸ skipped),
      decoder_decodes (foundOut _) (raslOut ▸ skipped)]
    obtain ⟨mirrors, p, q, seenIn, seenOut, numbered⟩ := @decoded_mirrored
      { g with noRaslOutput := PocGuard.raslOutput t eos g.noRaslOutput }
      { i with lsb := s.lsb.map Prod.snd, noRaslOutput := PocGuard.raslOutput t eos i.noRaslOutput }
      { o with lsb := _, noRaslOutput := PocGuard.raslOutput t eos o.noRaslOutput } s t tid eos
      ⟨input.sets, input.active, input.ended, raslIn⟩ ⟨output.sets, output.active, output.ended, raslOut⟩ held prev kept
      first version entry sps idr found count (moved_count _ s)
    refine ⟨mirrors, Eq.mpr (congrArg₂ (Effect _ _ _ _ _ _) seenIn seenOut) ?_⟩
    exact .picture ⟨numbered.alike, numbered.sets, numbered.anchorIn, numbered.anchorOut, numbered.width,
      numbered.residue, numbered.fresh, numbered.same, numbered.moves⟩

/-! ## A NAL unit -/

/-- A NAL unit that holds a slice is of the base layer, and the slice can be read. -/
def Packet.Follows (p : Packet) (nal : Bytes) : Prop :=
  match nal with
  | b0 :: b1 :: _ => nalType b0 < 32 →
    layerId b0 b1 = 0 ∧ (p.guard.slice (unescape (nal.take SLICE_HEADER_BYTES)) (nalType b0)).isSome
  | _ => True

instance (p : Packet) (nal : Bytes) : Decidable (p.Follows nal) :=
  match nal with
  | b0 :: b1 :: rest => inferInstanceAs (Decidable (nalType b0 < 32 → layerId b0 b1 = 0 ∧
      (p.guard.slice (unescape ((b0 :: b1 :: rest).take SLICE_HEADER_BYTES)) (nalType b0)).isSome))
  | [] => .isTrue trivial
  | [_] => .isTrue trivial

/-- At a NAL unit of a packet. -/
structure PacketMirrors (p : Packet) (i o : Reading) : Prop where
  guard : Mirrors p.guard i.decoder o.decoder
  eosIn : i.eos = p.eos
  eosOut : o.eos = p.eos
  atStartIn : i.atStart = p.atStart
  atStartOut : o.atStart = p.atStart

variable {packet : Packet} {input output : Reading} {b0 b1 : UInt8} {rest : Bytes}

private theorem agrees_moved (mirrors : Mirrors g i o) (same : i.agrees s = true) :
    o.agrees (s.moved g.shift) = true := by
  unfold Decoder.agrees Slice.moved at *
  rw [mirrors.lsb]
  cases count : s.lsb with
  | none => rfl
  | some field =>
    rw [count, Option.all_some, decide_eq_true_eq] at same
    rw [Option.map_some, Option.all_some, decide_eq_true_eq, same]
    rfl

private theorem packet_slice (read : packet.guard.slice (unescape (nal.take SLICE_HEADER_BYTES)) t = some s) :
    packet.slice t tid nal =
      ({ packet with guard := if s.first then packet.guard.picture t tid s packet.eos else packet.guard },
        [PocGuard.moved (if s.first then packet.guard.picture t tid s packet.eos else packet.guard).shift s nal]) := by
  unfold Packet.slice
  rw [read]

theorem reading_slice (read : input.decoder.slice (unescape nal) t = some s) :
    input.slice t tid nal =
      if s.first then
        ({ input with decoder := (input.decoder.picture t tid s input.eos).1 },
          (input.decoder.picture t tid s input.eos).2)
      else (input, [.slice (input.decoder.agrees s)]) := by
  unfold Reading.slice
  rw [read]

/-- The guard and both decoders take a slice together. -/
theorem slice_mirrored (mirrors : PacketMirrors packet input output) (read :
      packet.guard.slice (unescape ((b0 :: b1 :: rest).take SLICE_HEADER_BYTES)) t = some s) :
    ∃ new more, (packet.slice t tid (b0 :: b1 :: rest)).2 = [new] ∧ new.getD (b0 :: b1 :: rest) = b0 :: b1 :: more ∧
      PacketMirrors (packet.slice t tid (b0 :: b1 :: rest)).1 (input.slice t tid (b0 :: b1 :: rest)).1
        (output.slice t tid (b0 :: b1 :: more)).1 ∧
      Effect packet.guard (packet.slice t tid (b0 :: b1 :: rest)).1.guard input.decoder
        (input.slice t tid (b0 :: b1 :: rest)).1.decoder output.decoder
        (output.slice t tid (b0 :: b1 :: more)).1.decoder
        (input.slice t tid (b0 :: b1 :: rest)).2 (output.slice t tid (b0 :: b1 :: more)).2 := by
  obtain ⟨guard, eosIn, eosOut, startIn, startOut⟩ := mirrors
  have fits := slice_fits read
  have narrow : ∀ start width lsb, s.lsb = some (start, width, lsb) → width ≤ 32 := by
    intro start width lsb count
    obtain ⟨-, version, entry, sps, found, small⟩ := fits
    have := (guard.kept _ _ _ _ found).2.2
    have := (small start width lsb count).1
    omega
  rw [packet_slice read]
  generalize after : (if s.first then packet.guard.picture t tid s packet.eos else packet.guard) = g'
  obtain ⟨more, written⟩ := moved_header g'.shift read
  have readIn : input.decoder.slice (unescape (b0 :: b1 :: rest)) t = some s := by
    rw [guard.input.sets]
    exact slice_whole read
  have readOut : output.decoder.slice (unescape (b0 :: b1 :: more)) t = some (s.moved g'.shift) := by
    rw [guard.output.sets, ← written]
    exact slice_moved read narrow
  refine ⟨_, more, rfl, written, ?_⟩
  rw [reading_slice readIn, reading_slice readOut, Slice.moved_first]
  cases first : s.first with
  | true =>
    obtain rfl : packet.guard.picture t tid s packet.eos = g' := by rw [← after, first, if_pos rfl]
    rw [if_pos rfl, if_pos rfl, eosIn, eosOut]
    obtain ⟨mirrors, effect⟩ := @picture_mirrored _ _ _ s t tid packet.eos guard first fits
    exact ⟨⟨mirrors, rfl, rfl, startIn, startOut⟩, effect⟩
  | false =>
    obtain rfl : packet.guard = g' := by rw [← after, first, if_neg Bool.false_ne_true]
    rw [if_neg Bool.false_ne_true, if_neg Bool.false_ne_true]
    exact ⟨⟨guard, eosIn, eosOut, startIn, startOut⟩, .slice (agrees_moved guard) rfl rfl rfl⟩

private theorem ended_mirrored (mirrors : Mirrors g i o) :
    Mirrors { g with ended := true } { i with ended := true } { o with ended := true } :=
  ⟨⟨mirrors.input.sets, mirrors.input.active, rfl, mirrors.input.noRaslOutput⟩,
    ⟨mirrors.output.sets, mirrors.output.active, rfl, mirrors.output.noRaslOutput⟩, mirrors.held, mirrors.prevTid0,
    mirrors.lsb, mirrors.kept, mirrors.active⟩

theorem sets_mirrored (mirrors : Mirrors g i o) {sets : ParameterSets} (kept : sets.Kept) (grows : g.Grows sets) :
    Mirrors { g with toParameterSets := sets } { i with toParameterSets := sets } { o with toParameterSets := sets } :=
  ⟨⟨rfl, mirrors.input.active, mirrors.input.ended, mirrors.input.noRaslOutput⟩,
    ⟨rfl, mirrors.output.active, mirrors.output.ended, mirrors.output.noRaslOutput⟩, mirrors.held, mirrors.prevTid0,
    mirrors.lsb, kept, fun id version given => Nat.le_trans (mirrors.active id version given) grows.versions⟩

/-- The guard and both decoders take a NAL unit together. -/
theorem unit_mirrored (mirrors : PacketMirrors packet input output) (follows : packet.Follows nal) :
    ∃ new, (packet.unit nal).2 = [new] ∧
      PacketMirrors (packet.unit nal).1 (input.unit nal).1 (output.unit (new.getD nal)).1 ∧
      Effect packet.guard (packet.unit nal).1.guard input.decoder (input.unit nal).1.decoder output.decoder
        (output.unit (new.getD nal)).1.decoder (input.unit nal).2 (output.unit (new.getD nal)).2 := by
  rcases nal with _ | ⟨b0, _ | ⟨b1, rest⟩⟩
  · exact ⟨none, rfl, mirrors, .quiet (fun _ _ _ _ _ found => found) rfl rfl rfl rfl⟩
  · exact ⟨none, rfl, mirrors, .quiet (fun _ _ _ _ _ found => found) rfl rfl rfl rfl⟩
  · obtain ⟨guard, eosIn, eosOut, startIn, startOut⟩ := mirrors
    by_cases ends : nalType b0 = EOS_NUT ∨ nalType b0 = EOB_NUT
    · unfold Packet.unit Reading.unit
      dsimp only
      rw [if_pos ends, if_pos ends, startIn]
      refine ⟨none, rfl, ?_⟩
      rw [Option.getD_none]
      dsimp only
      rw [if_pos ends, startOut]
      split
      · exact ⟨⟨guard, rfl, rfl, rfl, rfl⟩, .quiet (fun _ _ _ _ _ found => found) rfl rfl rfl rfl⟩
      · exact ⟨⟨ended_mirrored guard, eosIn, eosOut, rfl, rfl⟩, .quiet (fun _ _ _ _ _ found => found) rfl rfl rfl rfl⟩
    by_cases base : layerId b0 b1 ≠ 0 ∨ 32 ≤ nalType b0
    · unfold Packet.unit Reading.unit
      dsimp only
      rw [if_neg ends, if_neg ends, if_pos base, if_pos base]
      by_cases layer : layerId b0 b1 = 0
      · rw [if_pos layer, if_pos layer]
        refine ⟨none, rfl, ?_⟩
        rw [Option.getD_none]
        dsimp only
        rw [if_neg ends, if_pos base, if_pos layer, guard.input.sets, guard.output.sets]
        obtain ⟨kept, grows⟩ := parameterSet_grows guard.kept (b0 :: b1 :: rest)
        exact ⟨⟨sets_mirrored guard kept grows, eosIn, eosOut, rfl, rfl⟩, .quiet (guard.keeps grows) rfl rfl rfl rfl⟩
      · have high : ¬nalType b0 < 32 := fun low => layer (follows low).1
        rw [if_neg layer, if_neg layer, if_neg high]
        refine ⟨none, rfl, ?_⟩
        rw [Option.getD_none]
        dsimp only
        rw [if_neg ends, if_pos base, if_neg layer]
        exact ⟨⟨guard, eosIn, eosOut, rfl, rfl⟩, .quiet (fun _ _ _ _ _ found => found) rfl rfl rfl rfl⟩
    · obtain ⟨-, low⟩ := not_or.mp base
      obtain ⟨s, read⟩ := Option.isSome_iff_exists.mp (follows (UInt8.not_le.mp low)).2
      cases temporal : temporalId b1 with
      | none =>
        unfold Packet.unit Reading.unit
        dsimp only
        rw [if_neg ends, if_neg ends, if_neg base, if_neg base, temporal]
        refine ⟨none, rfl, ?_⟩
        rw [Option.getD_none]
        dsimp only
        rw [if_neg ends, if_neg base, temporal]
        exact ⟨⟨guard, eosIn, eosOut, rfl, rfl⟩, .quiet (fun _ _ _ _ _ found => found) rfl rfl rfl rfl⟩
      | some tid =>
        have mirrors : PacketMirrors { packet with atStart := false } { input with atStart := false }
            { output with atStart := false } := ⟨guard, eosIn, eosOut, rfl, rfl⟩
        obtain ⟨new, more, emitted, header, both⟩ := @slice_mirrored _ _ tid _ _ _ _ _ _ mirrors read
        unfold Packet.unit Reading.unit
        dsimp only
        rw [if_neg ends, if_neg ends, if_neg base, if_neg base, temporal]
        refine ⟨new, emitted, ?_⟩
        rw [header]
        dsimp only
        rw [if_neg ends, if_neg base, temporal]
        exact both

/-! ## Packets, messages and runs -/

/-- One effect after the other. -/
inductive Effects : PocGuard → PocGuard → Decoder → Decoder → Decoder → Decoder → List Seen → List Seen → Prop
  | nil {g : PocGuard} {i o : Decoder} : Effects g g i i o o [] []
  | cons {g g' g'' : PocGuard} {i i' i'' o o' o'' : Decoder} {es es' fs fs' : List Seen}
      (here : Effect g g' i i' o o' es fs) (later : Effects g' g'' i' i'' o' o'' es' fs') :
      Effects g g'' i i'' o o'' (es ++ es') (fs ++ fs')

theorem Effects.append {g g' g'' : PocGuard} {i i' i'' o o' o'' : Decoder} {es es' fs fs' : List Seen}
    (first : Effects g g' i i' o o' es fs) (second : Effects g' g'' i' i'' o' o'' es' fs') :
    Effects g g'' i i'' o o'' (es ++ es') (fs ++ fs') := by
  induction first with
  | nil => exact second
  | cons here later ih =>
    rw [List.append_assoc, List.append_assoc]
    exact .cons here (ih second)

theorem Effects.single {g g' : PocGuard} {i i' o o' : Decoder} {es fs : List Seen}
    (here : Effect g g' i i' o o' es fs) :
    Effects g g' i i' o o' es fs := by
  have once := Effects.cons here .nil
  rwa [List.append_nil, List.append_nil] at once

private theorem units_mirrored {nals : List Bytes} (mirrors : PacketMirrors packet input output)
    (follows : Machine.Along Packet.unit Packet.Follows packet nals) :
    PacketMirrors (Machine.after Packet.unit packet nals) (Machine.after Reading.unit input nals)
        (Machine.after Reading.unit output (packet.written nals)) ∧
      Effects packet.guard (Machine.after Packet.unit packet nals).guard input.decoder
        (Machine.after Reading.unit input nals).decoder output.decoder
        (Machine.after Reading.unit output (packet.written nals)).decoder (Machine.outputs Reading.unit input nals)
        (Machine.outputs Reading.unit output (packet.written nals)) := by
  induction nals generalizing packet input output with
  | nil => exact ⟨mirrors, .nil⟩
  | cons nal nals ih =>
    obtain ⟨new, emitted, mirrors', effect⟩ := unit_mirrored mirrors follows.1
    obtain ⟨mirrors'', effects⟩ := ih mirrors' follows.2
    rw [written_cons emitted]
    exact ⟨mirrors'', .cons effect effects⟩

/-- Every slice of a message can be read, and its NAL units have 4-byte lengths. The length of an RTMP message has 24
bits. -/
def PocGuard.Follows (g : PocGuard) (payload : Bytes) : Prop :=
  payload.length < 2 ^ 31 ∧ ∀ info ∈ inspectVideo payload, ∀ offset ∈ info.nalOffset,
    g.lengthsOk = true ∧ Machine.Along Packet.unit Packet.Follows g.packet (units (payload.drop offset)).1

instance (g : PocGuard) (payload : Bytes) : Decidable (g.Follows payload) :=
  inferInstanceAs (Decidable (_ ∧ _))

private theorem coded_mirrored {payload out : Bytes} {offset : ℕ} (mirrors : Mirrors g i o)
    (follows : Machine.Along Packet.unit Packet.Follows g.packet (units (payload.drop offset)).1)
    (lengthsOk : g.lengthsOk = true)
    (written : (units (out.drop offset)).1 = g.packet.written (units (payload.drop offset)).1) :
    Mirrors (g.coded payload offset).1 (i.coded payload offset).1 (o.coded out offset).1 ∧
      Effects g (g.coded payload offset).1 i (i.coded payload offset).1 o (o.coded out offset).1
        (i.coded payload offset).2 (o.coded out offset).2 := by
  have start : PacketMirrors g.packet i.packet o.packet :=
    ⟨⟨⟨mirrors.input.sets, mirrors.input.active, rfl, mirrors.input.noRaslOutput⟩,
      ⟨mirrors.output.sets, mirrors.output.active, rfl, mirrors.output.noRaslOutput⟩, mirrors.held, mirrors.prevTid0,
      mirrors.lsb, mirrors.kept, mirrors.active⟩, mirrors.input.ended, mirrors.output.ended, rfl, rfl⟩
  have opening : Effect g g.packet.guard i i.packet.decoder o o.packet.decoder [] [] :=
    .quiet (fun _ _ _ _ _ found => found) rfl rfl rfl rfl
  obtain ⟨ending, effects⟩ := units_mirrored start follows
  unfold PocGuard.coded Decoder.coded
  rw [if_pos lengthsOk]
  dsimp only
  rw [written]
  exact ⟨ending.guard, .cons opening effects⟩

/-- The guard and both decoders take a message together. -/
theorem video_mirrored (mirrors : Mirrors g i o) {payload : Bytes} (follows : g.Follows payload) :
    Mirrors (g.video payload).1 (i.video payload).1 (o.video ((g.video payload).2.getD payload)).1 ∧
      Effects g (g.video payload).1 i (i.video payload).1 o (o.video ((g.video payload).2.getD payload)).1
        (i.video payload).2 (o.video ((g.video payload).2.getD payload)).2 := by
  obtain ⟨short, follows⟩ := follows
  unfold PocGuard.video
  cases read : inspectVideo payload with
  | none =>
    unfold Decoder.video
    dsimp only
    rw [Option.getD_none, read]
    exact ⟨mirrors, .nil⟩
  | some info =>
    dsimp only
    by_cases other : info.codec ≠ .hevc ∨ info.multitrack = true
    · rw [if_pos other, Option.getD_none]
      unfold Decoder.video
      rw [read]
      dsimp only
      rw [if_pos other, if_pos other]
      exact ⟨mirrors, .nil⟩
    rw [if_neg other]
    cases config : info.configOffset with
    | some offset =>
      dsimp only
      rw [Option.getD_none]
      unfold Decoder.video
      rw [read]
      dsimp only
      rw [if_neg other, if_neg other, config]
      dsimp only
      rw [mirrors.input.sets, mirrors.output.sets]
      obtain ⟨kept, grows⟩ := configuration_grows mirrors.kept (payload.drop offset)
      exact ⟨sets_mirrored mirrors kept grows, .single (.quiet (mirrors.keeps grows) rfl rfl rfl rfl)⟩
    | none =>
      cases data : info.nalOffset with
      | none =>
        dsimp only
        rw [Option.getD_none]
        unfold Decoder.video
        rw [read]
        dsimp only
        rw [if_neg other, if_neg other, config, data]
        exact ⟨mirrors, .nil⟩
      | some offset =>
        obtain ⟨lengthsOk, follows⟩ := follows info read offset data
        obtain ⟨⟨info', read', alike⟩, written⟩ := coded_written short lengthsOk read data
        dsimp only
        have other' : ¬(info'.codec ≠ .hevc ∨ info'.multitrack = true) := by
          rw [alike.codec, alike.multitrack]
          exact other
        unfold Decoder.video
        rw [read, read']
        dsimp only
        rw [if_neg other, if_neg other', config, data, alike.configOffset, alike.nalOffset, config, data]
        exact coded_mirrored mirrors follows lengthsOk written

theorem run_mirrored {messages : List Bytes} (mirrors : Mirrors g i o)
    (follows : Machine.Along PocGuard.write PocGuard.Follows g messages) :
    ∃ g' i' o', Effects g g' i i' o o' (Machine.outputs Decoder.video i messages)
      (Machine.outputs Decoder.video o (Machine.outputs PocGuard.write g messages)) := by
  induction messages generalizing g i o with
  | nil => exact ⟨g, i, o, .nil⟩
  | cons payload messages ih =>
    obtain ⟨mirrors', first⟩ := video_mirrored mirrors follows.1
    obtain ⟨g', i', o', second⟩ := ih mirrors' follows.2
    exact ⟨g', i', o', first.append second⟩

theorem new_mirrors : Mirrors .new .new .new :=
  ⟨⟨rfl, rfl, rfl, rfl⟩, ⟨rfl, rfl, rfl, rfl⟩, rfl, rfl, rfl, nofun, nofun⟩

end StreamDelay.Flv.Hevc
