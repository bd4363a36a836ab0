import Mathlib.Data.Finset.Card
import Mathlib.Data.Int.ModEq
import Mathlib.Tactic.Positivity
import Mathlib.Tactic.Ring
import StreamDelay.Flv.PocGuard

/-! # Reckoning picture order counts

A count has the residue that its picture carries, and is the only one with it within half a period of the previous one;
so what moves the residues and the previous count moves the count.
-/

namespace StreamDelay.Flv.Hevc

variable {prev c p a b m : ℤ} {lsb lsb' n d e : ℕ} {t : UInt8} {held : List ℤ}

theorem two_dvd_pow (some_ : 1 ≤ n) : (2 : ℤ) ∣ 2 ^ n := dvd_pow_self 2 (by omega)

theorem computePoc_emod (prev : ℤ) (lsb n : ℕ) (t : UInt8) :
    computePoc prev lsb n t % 2 ^ n = (lsb : ℤ) % 2 ^ n := by
  have whole : prev - prev.tmod (2 ^ n) = 2 ^ n * prev.tdiv (2 ^ n) := by
    have := Int.mul_tdiv_add_tmod prev (2 ^ n)
    omega
  unfold computePoc
  dsimp only
  rw [whole]
  split
  · rfl
  · split_ifs
    · rw [show (2 : ℤ) ^ n * prev.tdiv (2 ^ n) + 2 ^ n + lsb = lsb + 2 ^ n * (prev.tdiv (2 ^ n) + 1) by ring,
        Int.add_mul_emod_self_left]
    · rw [show (2 : ℤ) ^ n * prev.tdiv (2 ^ n) - 2 ^ n + lsb = lsb + 2 ^ n * (prev.tdiv (2 ^ n) - 1) by ring,
        Int.add_mul_emod_self_left]
    · rw [Int.add_comm, Int.add_mul_emod_self_left]

/-- Within half a period of the previous count. -/
theorem computePoc_near (some_ : 1 ≤ n) (fits : lsb < 2 ^ n) (later : isBla t = false) (nonneg : 0 ≤ prev) :
    prev - 2 ^ n / 2 < computePoc prev lsb n t ∧ computePoc prev lsb n t ≤ prev + 2 ^ n / 2 := by
  have positive : (0 : ℤ) < 2 ^ n := by positivity
  have even := Int.mul_ediv_cancel' (two_dvd_pow some_)
  have below : (lsb : ℤ) < 2 ^ n := by exact_mod_cast fits
  have low := Int.tmod_nonneg (2 ^ n) nonneg
  have high := Int.tmod_lt_of_pos prev positive
  unfold computePoc
  dsimp only
  rw [later, if_neg Bool.false_ne_true]
  generalize (2 : ℤ) ^ n = m at *
  generalize prev.tmod m = r at *
  split_ifs <;> omega

/-- At most one number of a residue is within half a period of another. -/
theorem near_unique (even : 2 * (m / 2) = m) (same : a % m = b % m) (lowA : p - m / 2 < a) (highA : a ≤ p + m / 2)
    (lowB : p - m / 2 < b) (highB : b ≤ p + m / 2) : a = b := by
  have apart : m ∣ a - b := Int.dvd_of_emod_eq_zero (Int.emod_eq_emod_iff_emod_sub_eq_zero.mp same)
  have close : |a - b| < m := abs_lt.mpr ⟨by omega, by omega⟩
  have zero := Int.eq_zero_of_abs_lt_dvd apart close
  omega

/-- Residues moved by as much as the previous count move the count by it. -/
theorem computePoc_add (some_ : 1 ≤ n) (fits : lsb < 2 ^ n) (fits' : lsb' < 2 ^ n) (later : isBla t = false)
    (nonneg : 0 ≤ prev) (nonneg' : 0 ≤ prev + c) (moved : (lsb' : ℤ) % 2 ^ n = (lsb + c) % 2 ^ n) :
    computePoc (prev + c) lsb' n t = computePoc prev lsb n t + c := by
  obtain ⟨low, high⟩ := computePoc_near some_ fits later nonneg
  obtain ⟨low', high'⟩ := computePoc_near some_ fits' later nonneg'
  refine near_unique (p := prev + c) (Int.mul_ediv_cancel' (two_dvd_pow some_)) ?_ low' high' (by omega) (by omega)
  rw [computePoc_emod, moved, Int.add_emod, ← computePoc_emod prev lsb n t, ← Int.add_emod]

/-! ## The first amount that is free -/

private theorem computePoc_injective (small : d < 2 ^ n) (small' : e < 2 ^ n)
    (same : computePoc prev ((lsb + d) % 2 ^ n) n t = computePoc prev ((lsb + e) % 2 ^ n) n t) : d = e := by
  have residues := congrArg (· % (2 : ℤ) ^ n) same
  simp only [computePoc_emod] at residues
  norm_cast at residues
  rw [Nat.mod_mod, Nat.mod_mod] at residues
  exact (Nat.ModEq.add_left_cancel' lsb residues).eq_of_lt_of_lt small small'

/-- A decoder that holds fewer pictures than there are residues leaves an amount free. -/
theorem freeShift_free (few : held.toFinset.card < 2 ^ n) :
    computePoc prev ((lsb + PocGuard.freeShift held prev lsb n t) % 2 ^ n) n t ∉ held := by
  cases found : (List.range (2 ^ n)).find? fun d => computePoc prev ((lsb + d) % 2 ^ n) n t ∉ held with
  | some d =>
    unfold PocGuard.freeShift
    rw [found]
    simpa using List.find?_some found
  | none =>
    have all : ∀ d ∈ Finset.range (2 ^ n), computePoc prev ((lsb + d) % 2 ^ n) n t ∈ held.toFinset := by
      intro d member
      have taken := List.find?_eq_none.mp found d (List.mem_range.mpr (Finset.mem_range.mp member))
      rw [List.mem_toFinset]
      simpa using taken
    have many := Finset.card_le_card_of_injOn _ all fun d small e small' same =>
      computePoc_injective (Finset.mem_range.mp small) (Finset.mem_range.mp small') same
    rw [Finset.card_range] at many
    omega

end StreamDelay.Flv.Hevc
