import Mathlib.Data.List.Pairwise
import StreamDelay.Flv.ParameterSets

/-! # Reference picture sets are well formed

A set of its own counts away from the picture in both directions. A predicted one is another set moved, with the
picture that set was for put between its two halves: both lists stay in order, and no difference grows by more than
the distance moved.
-/

namespace StreamDelay.Flv.Hevc

open Foundations Bits

namespace Rps

/-- The nearest picture comes first on both sides, and there are at most 30. -/
structure WellFormed (set : Rps) : Prop where
  before : set.before.Pairwise (· > ·)
  negative : ∀ d ∈ set.before, d < 0
  after : set.after.Pairwise (· < ·)
  positive : ∀ d ∈ set.after, 0 < d
  few : set.before.length + set.after.length ≤ 30

/-- No difference is more than `m` steps of a delta. -/
def Within (m : ℕ) (set : Rps) : Prop := ∀ d ∈ set.before ++ set.after, -(m * 32768) ≤ d ∧ d ≤ m * 32768

/-- Sets parsed one after the other, each from those before it. -/
inductive Parsed : List Rps → Prop
  | nil : Parsed []
  | snoc {sets : List Rps} {set : Rps} {inSlice : Bool} {r r' : Bits} (before : Parsed sets)
      (read : (stRefPicSet sets sets.length inSlice).run r = some (set, r')) : Parsed (sets ++ [set])

variable {sets : List Rps} {set base : Rps} {delta d : ℤ} {m count : ℕ} {entries : List (ℤ × Bool)} {kept : List Bool}
  {wanted : ℤ → Bool}

/-! ## Sets of their own -/

/-- Each difference is further from the picture than the one before, by at most a step. -/
theorem deltas_yields {sign : ℤ} (unit : sign = 1 ∨ sign = -1) (count : ℕ) (prev : ℤ) :
    Yields (deltas sign count prev) fun ds =>
      ds.length = count ∧ ds.Pairwise (fun a b => sign * a < sign * b) ∧
        ∀ d ∈ ds, sign * prev < sign * d ∧ sign * d ≤ sign * prev + 32768 * count := by
  induction count generalizing prev with
  | zero => exact Yields.pure ⟨rfl, .nil, nofun⟩
  | succ count ih =>
    refine (Yields.any _).bind fun d _ => ?_
    split
    · exact Yields.failure
    · next small =>
      refine (Yields.any _).bind fun _ _ => (ih _).bind fun rest later => Yields.pure ?_
      obtain ⟨length, sorted, bounds⟩ := later
      have step : sign * (prev + sign * (d + 1)) = sign * prev + (d + 1) := by
        rcases unit with rfl | rfl <;> omega
      rw [step] at bounds
      refine ⟨by rw [List.length_cons, length], List.pairwise_cons.mpr ⟨fun e member => ?_, sorted⟩, ?_⟩
      · rw [step]
        exact (bounds e member).1
      · rintro e member
        rcases List.mem_cons.mp member with rfl | member
        · rw [step]
          omega
        · have bound := bounds e member
          omega

private theorem explicit_yields : Yields explicit fun set => set.WellFormed ∧ set.Within 15 := by
  refine (Yields.any _).bind fun negative _ => (Yields.any _).bind fun positive _ => ?_
  split
  · exact Yields.failure
  · next few =>
    refine (deltas_yields (.inr rfl) negative 0).bind fun before first => ?_
    refine (deltas_yields (.inl rfl) positive 0).bind fun after second => Yields.pure ⟨⟨?_, ?_, ?_, ?_, ?_⟩, ?_⟩
    · exact first.2.1.imp fun further => by omega
    · intro d member
      have bound := first.2.2 d member
      omega
    · exact second.2.1.imp fun further => by omega
    · intro d member
      have bound := second.2.2 d member
      omega
    · have negative := first.1
      have positive := second.1
      unfold MAX at few
      dsimp only
      omega
    · unfold MAX at few
      intro d member
      rcases List.mem_append.mp member with member | member
      · have bound := first.2.2 d member
        omega
      · have bound := second.2.2 d member
        omega

/-! ## Predicted sets -/

private theorem shifted_cons (d : ℤ) (kept : Bool) (rest : List (ℤ × Bool)) :
    shifted delta wanted ((d, kept) :: rest) =
      if wanted (d + delta) && kept then (d + delta) :: shifted delta wanted rest else shifted delta wanted rest := by
  unfold shifted
  rw [List.filterMap_cons]
  dsimp only
  cases wanted (d + delta) && kept <;> rfl

private theorem mem_shifted : d ∈ shifted delta wanted entries ↔ wanted d = true ∧ (d - delta, true) ∈ entries := by
  unfold shifted
  rw [List.mem_filterMap]
  constructor
  · rintro ⟨⟨e, kept⟩, member, found⟩
    dsimp only at found
    split at found
    · next both =>
      obtain rfl := Option.some.inj found
      obtain ⟨wants, rfl⟩ := Bool.and_eq_true_iff.mp both
      exact ⟨wants, by rwa [Int.add_sub_cancel]⟩
    · contradiction
  · rintro ⟨wants, member⟩
    exact ⟨_, member, by simp [wants]⟩

/-- What is in order stays so. -/
theorem shifted_pairwise {r : ℤ → ℤ → Prop} (moves : ∀ a b, r a b → r (a + delta) (b + delta))
    (sorted : entries.Pairwise fun a b => r a.1 b.1) : (shifted delta wanted entries).Pairwise r := by
  refine List.Pairwise.filterMap _ ?_ sorted
  rintro ⟨a, keptA⟩ ⟨b, keptB⟩ before c left d right
  dsimp only at before left right
  split at left
  · split at right
    · obtain rfl := Option.some.inj left
      obtain rfl := Option.some.inj right
      exact moves _ _ before
    · contradiction
  · contradiction

private theorem zip_pairwise {r : ℤ → ℤ → Prop} {ds : List ℤ} (sorted : ds.Pairwise r) (flags : List Bool) :
    (ds.zip flags).Pairwise fun a b => r a.1 b.1 := by
  induction ds generalizing flags with
  | nil => exact .nil
  | cons d ds ih =>
    cases flags with
    | nil => exact .nil
    | cons flag flags =>
      obtain ⟨first, rest⟩ := List.pairwise_cons.mp sorted
      exact List.pairwise_cons.mpr ⟨fun e member => first e.1 (List.of_mem_zip member).1, ih rest flags⟩

private theorem mem_own {wanted kept : Bool} (member : d ∈ own delta wanted kept) : d = delta ∧ wanted = true := by
  unfold own at member
  split at member
  · next both => exact ⟨List.mem_singleton.mp member, (Bool.and_eq_true_iff.mp both).1⟩
  · contradiction

private theorem own_pairwise {r : ℤ → ℤ → Prop} {wanted kept : Bool} : (own delta wanted kept).Pairwise r := by
  unfold own
  split
  · exact List.pairwise_singleton ..
  · exact .nil

/-- One half moved, the picture itself, and the other half: in order if each part is nearer than the next. -/
theorem halves_pairwise {r : ℤ → ℤ → Prop} {first last : List (ℤ × Bool)} {ownWanted ownKept : Bool}
    (moves : ∀ a b, r a b → r (a + delta) (b + delta)) (left : first.Pairwise fun a b => r a.1 b.1)
    (right : last.Pairwise fun a b => r a.1 b.1) (nearer : ∀ e ∈ first, r e.1 0) (further : ∀ e ∈ last, r 0 e.1)
    (trans : ∀ a b, r a 0 → r 0 b → r a b) :
    (shifted delta wanted first ++ own delta ownWanted ownKept ++ shifted delta wanted last).Pairwise r := by
  have moved (a : ℤ) (b : ℤ) : r (a - delta) (b - delta) → r a b := fun before => by
    have after := moves _ _ before
    rwa [Int.sub_add_cancel, Int.sub_add_cancel] at after
  refine List.pairwise_append.mpr ⟨List.pairwise_append.mpr ⟨shifted_pairwise moves left, own_pairwise, ?_⟩,
    shifted_pairwise moves right, ?_⟩
  · intro a before b here
    obtain ⟨rfl, -⟩ := mem_own here
    refine moved a b ?_
    rw [Int.sub_self]
    exact nearer _ (mem_shifted.mp before).2
  · intro a before b after
    have far := further _ (mem_shifted.mp after).2
    rcases List.mem_append.mp before with before | here
    · exact moved a b (trans _ _ (nearer _ (mem_shifted.mp before).2) far)
    · obtain ⟨rfl, -⟩ := mem_own here
      refine moved a b ?_
      rw [Int.sub_self]
      exact far

private theorem mem_zip_fst {ds : List ℤ} {flags : List Bool} {e : ℤ × Bool} (member : e ∈ ds.zip flags) : e.1 ∈ ds :=
  (List.of_mem_zip member).1

private theorem predicted_wellFormed (well : base.WellFormed) (delta : ℤ) (kept : List Bool)
    (few : (base.predicted delta kept).before.length + (base.predicted delta kept).after.length ≤ MAX) :
    (base.predicted delta kept).WellFormed where
  before := by
    refine halves_pairwise (fun a b before => by omega) ?_ (zip_pairwise well.before _) ?_ ?_ fun a b _ _ => by omega
    · exact List.pairwise_reverse.mpr (zip_pairwise well.after _)
    · exact fun e member => well.positive _ (mem_zip_fst (List.mem_reverse.mp member))
    · exact fun e member => well.negative _ (mem_zip_fst member)
  negative := by
    intro d member
    rcases List.mem_append.mp member with member | member
    · rcases List.mem_append.mp member with member | member
      · exact of_decide_eq_true (mem_shifted.mp member).1
      · obtain ⟨rfl, negative⟩ := mem_own member
        exact of_decide_eq_true negative
    · exact of_decide_eq_true (mem_shifted.mp member).1
  after := by
    refine halves_pairwise (fun a b before => by omega) ?_ (zip_pairwise well.after _) ?_ ?_ fun a b _ _ => by omega
    · exact List.pairwise_reverse.mpr (zip_pairwise well.before _)
    · exact fun e member => well.negative _ (mem_zip_fst (List.mem_reverse.mp member))
    · exact fun e member => well.positive _ (mem_zip_fst member)
  positive := by
    intro d member
    rcases List.mem_append.mp member with member | member
    · rcases List.mem_append.mp member with member | member
      · exact of_decide_eq_true (mem_shifted.mp member).1
      · obtain ⟨rfl, positive⟩ := mem_own member
        exact of_decide_eq_true positive
    · exact of_decide_eq_true (mem_shifted.mp member).1
  few := Nat.le_trans few (by decide)

/-- A difference of a predicted set is one of the set it was predicted from, moved, or the distance. -/
theorem mem_predicted (member : d ∈ (base.predicted delta kept).before ++ (base.predicted delta kept).after) :
    d = delta ∨ d - delta ∈ base.before ++ base.after := by
  have moved {ds : List ℤ} {flags : List Bool} {wanted : ℤ → Bool} (part : ds ⊆ base.before ++ base.after)
      (member : d ∈ shifted delta wanted (ds.zip flags)) : d - delta ∈ base.before ++ base.after :=
    part (mem_zip_fst (mem_shifted.mp member).2)
  have turned {ds : List ℤ} {flags : List Bool} {wanted : ℤ → Bool} (part : ds ⊆ base.before ++ base.after)
      (member : d ∈ shifted delta wanted (ds.zip flags).reverse) : d - delta ∈ base.before ++ base.after :=
    part (mem_zip_fst (List.mem_reverse.mp (mem_shifted.mp member).2))
  have left : base.before ⊆ base.before ++ base.after := List.subset_append_left ..
  have right : base.after ⊆ base.before ++ base.after := List.subset_append_right ..
  unfold predicted at member
  simp only [List.mem_append, or_assoc] at member
  rcases member with far | own | near | far | own | near
  · exact .inr (turned right far)
  · exact .inl (mem_own own).1
  · exact .inr (moved left near)
  · exact .inr (turned left far)
  · exact .inl (mem_own own).1
  · exact .inr (moved right near)

/-- No difference grows by more than the distance moved. -/
theorem predicted_within (near : base.Within m) (low : -32768 ≤ delta) (high : delta ≤ 32768) (kept : List Bool) :
    (base.predicted delta kept).Within (m + 1) := by
  intro d member
  push_cast
  rcases mem_predicted member with rfl | moved
  · omega
  · have bound := near _ moved
    omega

private theorem readDelta_yields : Yields readDelta fun delta => -32768 ≤ delta ∧ delta ≤ 32768 := by
  refine (Yields.any _).bind fun negative _ => (Yields.any _).bind fun abs _ => ?_
  split
  · exact Yields.failure
  · refine Yields.pure ?_
    split <;> omega

/-- Every set of a chain is well formed, and within a step more than the one before may be. -/
def Chain (sets : List Rps) : Prop := ∀ (i : ℕ) set, sets[i]? = some set → set.WellFormed ∧ set.Within (15 + i)

private theorem interSet_yields (chain : Chain sets) (idx : ℕ) (inSlice : Bool) :
    Yields (interSet sets idx inSlice) fun set => set.WellFormed ∧ set.Within (15 + sets.length) := by
  refine (Yields.any _).bind fun deltaIdx _ => ?_
  split
  · exact Yields.failure
  · split
    · exact Yields.failure
    · next base found =>
      obtain ⟨well, near⟩ := chain _ base found
      have there : idx - deltaIdx < sets.length := (List.getElem?_eq_some_iff.mp found).1
      refine readDelta_yields.bind fun delta range => (Yields.any _).bind fun kept _ => ?_
      dsimp only
      split
      · next few =>
        refine Yields.pure ⟨predicted_wellFormed well delta kept few, fun d member => ?_⟩
        have bound := predicted_within near range.1 range.2 kept d member
        push_cast at bound ⊢
        omega
      · exact Yields.failure

private theorem stRefPicSet_yields (chain : Chain sets) (idx : ℕ) (inSlice : Bool) :
    Yields (stRefPicSet sets idx inSlice) fun set => set.WellFormed ∧ set.Within (15 + sets.length) := by
  refine (Yields.any _).bind fun inter _ => ?_
  split
  · exact interSet_yields chain idx inSlice
  · refine explicit_yields.mono fun set given => ⟨given.1, fun d member => ?_⟩
    have bound := given.2 d member
    push_cast at bound ⊢
    omega

theorem Parsed.chain (parsed : Parsed sets) : Chain sets := by
  induction parsed with
  | nil => exact nofun
  | @snoc sets last inSlice r r' before read ih =>
    intro i set found
    rcases Nat.lt_trichotomy i sets.length with early | rfl | late
    · rw [List.getElem?_append_left early] at found
      exact ih i set found
    · rw [List.getElem?_concat_length] at found
      obtain rfl := Option.some.inj found
      exact stRefPicSet_yields ih _ _ _ _ _ read
    · rw [List.getElem?_eq_none (by rw [List.length_append]; exact late)] at found
      contradiction

/-! ## No sum is out of range -/

private theorem addSigned_small {a b : ℤ} (low : -2 ^ 30 ≤ a + b) (high : a + b ≤ 2 ^ 30) :
    Foundations.Checked.addSigned 32 a b = some (a + b) :=
  Foundations.Checked.addSigned_of_lt (by omega) (by omega)

private theorem checked_shifted (small : ∀ e ∈ entries, -2 ^ 30 ≤ e.1 + delta ∧ e.1 + delta ≤ 2 ^ 30) :
    Checked.shifted delta wanted entries = some (shifted delta wanted entries) := by
  induction entries with
  | nil => rfl
  | cons e rest ih =>
    obtain ⟨d, kept⟩ := e
    obtain ⟨low, high⟩ := small _ (List.mem_cons_self ..)
    rw [Checked.shifted, addSigned_small low high, ih fun e member => small e (List.mem_cons_of_mem _ member)]
    rw [shifted_cons]
    rfl

private theorem checked_predicted (near : base.Within m) (few : m ≤ 1000) (low : -32768 ≤ delta) (high : delta ≤ 32768)
    (kept : List Bool) : Checked.predicted base delta kept = some (base.predicted delta kept) := by
  have small {ds : List ℤ} {flags : List Bool} (part : ds ⊆ base.before ++ base.after) :
      ∀ e ∈ ds.zip flags, -2 ^ 30 ≤ e.1 + delta ∧ e.1 + delta ≤ 2 ^ 30 := by
    intro e member
    have bound := near _ (part (mem_zip_fst member))
    omega
  have turned {ds : List ℤ} {flags : List Bool} (part : ds ⊆ base.before ++ base.after) :
      ∀ e ∈ (ds.zip flags).reverse, -2 ^ 30 ≤ e.1 + delta ∧ e.1 + delta ≤ 2 ^ 30 :=
    fun e member => small part e (List.mem_reverse.mp member)
  have left : base.before ⊆ base.before ++ base.after := List.subset_append_left ..
  have right : base.after ⊆ base.before ++ base.after := List.subset_append_right ..
  unfold Checked.predicted
  dsimp only
  rw [checked_shifted (turned right), checked_shifted (small left), checked_shifted (turned left),
    checked_shifted (small right)]
  rfl

private theorem checked_deltas {sign : ℤ} (unit : sign = 1 ∨ sign = -1) (count : ℕ) (prev : ℤ)
    (low : -2 ^ 30 ≤ prev - 32768 * count) (high : prev + 32768 * count ≤ 2 ^ 30) :
    Checking.Sound (Checked.deltas sign count prev) (deltas sign count prev) := by
  induction count generalizing prev with
  | zero => exact Checking.Sound.pure _
  | succ count ih =>
    refine (Checking.Sound.plain ue).bind (Yields.any _) fun d _ => ?_
    split
    · exact Checking.Sound.failure
    · next small =>
      have range : -(32768 : ℤ) ≤ sign * (d + 1) ∧ sign * (d + 1) ≤ 32768 := by
        rcases unit with rfl | rfl <;> omega
      push_cast at low high
      have next := addSigned_small (a := prev) (b := sign * (d + 1)) (by omega) (by omega)
      intro s
      have later := (Checking.Sound.plain (skip 1)).bind (Yields.any _) fun _ _ =>
        (ih (prev + sign * (d + 1)) (by omega) (by omega)).bind (Yields.any _) fun rest _ =>
          Checking.Sound.pure ((prev + sign * (d + 1)) :: rest)
      rw [next]
      exact later s

private theorem checked_explicit : Checking.Sound Checked.explicit explicit := by
  refine (Checking.Sound.plain ue).bind (Yields.any _) fun negative _ => ?_
  refine (Checking.Sound.plain ue).bind (Yields.any _) fun positive _ => ?_
  split
  · exact Checking.Sound.failure
  · next few =>
    unfold MAX at few
    refine (checked_deltas (.inr rfl) negative 0 (by omega) (by omega)).bind (Yields.any _) fun before _ => ?_
    refine (checked_deltas (.inl rfl) positive 0 (by omega) (by omega)).bind (Yields.any _) fun after _ => ?_
    exact Checking.Sound.pure _

private theorem checked_interSet (chain : Chain sets) (few : sets.length ≤ 64) (idx : ℕ) (inSlice : Bool) :
    Checking.Sound (Checked.interSet sets idx inSlice) (interSet sets idx inSlice) := by
  refine (Checking.Sound.plain _).bind (Yields.any _) fun deltaIdx _ => ?_
  split
  · exact Checking.Sound.failure
  · split
    · exact Checking.Sound.failure
    · next base found =>
      obtain ⟨-, near⟩ := chain _ base found
      have there : idx - deltaIdx < sets.length := (List.getElem?_eq_some_iff.mp found).1
      refine (Checking.Sound.plain _).bind readDelta_yields fun delta range => ?_
      refine (Checking.Sound.plain _).bind (Yields.any _) fun kept _ => ?_
      have inRange := checked_predicted near (by omega) range.1 range.2 kept
      have small (set : Rps) :
          Checking.Sound (σ := Bits) (if set.before.length + set.after.length ≤ MAX then pure set else failure)
            (if set.before.length + set.after.length ≤ MAX then pure set else failure) := by
        split
        · exact Checking.Sound.pure _
        · exact Checking.Sound.failure
      exact (Checking.Sound.check inRange).bind (Yields.any _) fun set _ => small set

private theorem checked_stRefPicSet (chain : Chain sets) (few : sets.length ≤ 64) (idx : ℕ) (inSlice : Bool) :
    Checking.Sound (Checked.stRefPicSet sets idx inSlice) (stRefPicSet sets idx inSlice) := by
  refine (Checking.Sound.plain _).bind (Yields.any _) fun inter _ => ?_
  split
  · exact checked_interSet chain few idx inSlice
  · exact checked_explicit

/-! ## Parameter sets -/

private theorem readSets_yields (left : ℕ) (parsed : Parsed sets) :
    Yields (readSets left sets) fun all => Parsed all ∧ all.length = sets.length + left := by
  induction left generalizing sets with
  | zero => exact Yields.pure ⟨parsed, rfl⟩
  | succ left ih =>
    intro r all r' given
    obtain ⟨⟨set, middle⟩, read, rest⟩ := Option.bind_eq_some_iff.mp given
    have later := ih (.snoc parsed read) middle all r' rest
    rw [List.length_append, List.length_singleton] at later
    exact ⟨later.1, by omega⟩

theorem require_yields (c : Prop) [Decidable c] : Yields (require c) fun _ => c := by
  unfold require
  split
  · next holds => exact Yields.pure holds
  · exact Yields.failure

/-- What a parameter set holds has been parsed set by set. -/
theorem spsRest_yields (subLayers : ℕ) :
    Yields (spsRest subLayers) fun sps => Parsed sps.sets ∧ sps.sets.length ≤ 64 := by
  have ending (count : ℕ) (few : count ≤ 64) {f : List Rps → Partial Bits Sps}
      (keeps : ∀ sets, Yields (f sets) fun sps => sps.sets = sets) :
      Yields (readSets count [] >>= f) fun sps => Parsed sps.sets ∧ sps.sets.length ≤ 64 := by
    refine (readSets_yields count .nil).bind fun sets given => (keeps sets).mono fun sps same => ?_
    rw [same, given.2]
    exact ⟨given.1, by simpa using few⟩
  unfold spsRest
  iterate 20 refine (Yields.any _).bind fun _ _ => ?_
  refine (require_yields _).bind fun _ few => ending _ few fun sets => ?_
  refine (Yields.any _).bind fun _ _ => (Yields.any _).bind fun _ _ => Yields.pure rfl

/-- The sets of a parsed sequence parameter set are such a chain. -/
theorem parseSps_parsed {rbsp : Bytes} {id : ℕ} {sps : Sps} (given : parseSps rbsp = some (id, some sps)) :
    Parsed sps.sets ∧ sps.sets.length ≤ 64 := by
  obtain ⟨⟨⟨_, subLayers⟩, r⟩, -, same⟩ := Option.map_eq_some_iff.mp given
  obtain ⟨⟨_, r'⟩, read, rfl⟩ := Option.map_eq_some_iff.mp (Prod.mk.inj same).2
  exact spsRest_yields subLayers r _ r' read

/-- From up to 64 sets, each parsed from those before it, a set is parsed whose differences before the picture fall
and those after it rise, at most 30 in all; and no sum on the way is out of range. The sets of a sequence parameter
set are parsed so. -/
theorem reference_sets (parsed : Parsed sets) (few : sets.length ≤ 64) (idx : ℕ) (inSlice : Bool) :
    Checking.Sound (Checked.stRefPicSet sets idx inSlice) (stRefPicSet sets idx inSlice) ∧
      (∀ set ∈ sets, set.WellFormed) ∧
      (∀ r set r', (stRefPicSet sets idx inSlice).run r = some (set, r') → set.WellFormed) ∧
      ∀ rbsp id sps, parseSps rbsp = some (id, some sps) → Parsed sps.sets ∧ sps.sets.length ≤ 64 := by
  have chain := parsed.chain
  refine ⟨checked_stRefPicSet chain few idx inSlice, fun set member => ?_, fun r set r' read => ?_,
    fun _ _ _ given => parseSps_parsed given⟩
  · obtain ⟨i, there, rfl⟩ := List.getElem_of_mem member
    exact (chain i _ (List.getElem?_eq_getElem there)).1
  · exact (stRefPicSet_yields chain idx inSlice r set r' read).1

/-- A set of its own, and one predicted from it. -/
theorem reference_sets_two :
    let first : Rps := ⟨[-1], [2]⟩
    (stRefPicSet [first] 1 true).run ⟨[0b11101111, 0], 0⟩ = some (⟨[-1, -4], []⟩, ⟨[0b11101111, 0], 10⟩) ∧
      (⟨[-1, -4], []⟩ : Rps).WellFormed := by
  have parsed : Parsed [⟨[-1], [2]⟩] :=
    @Parsed.snoc [] _ false ⟨[0b01001011, 0b01010000], 0⟩ ⟨[0b01001011, 0b01010000], 12⟩ .nil rfl
  have read : (stRefPicSet [⟨[-1], [2]⟩] 1 true).run ⟨[0b11101111, 0], 0⟩ =
      some (⟨[-1, -4], []⟩, ⟨[0b11101111, 0], 10⟩) := rfl
  exact ⟨read, (reference_sets parsed (by decide) 1 true).2.2.1 _ _ _ read⟩

end Rps

end StreamDelay.Flv.Hevc
