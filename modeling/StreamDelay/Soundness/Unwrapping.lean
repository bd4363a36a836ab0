import Mathlib.Data.List.Range
import Mathlib.Tactic.Common
import StreamDelay.Rtmp.Ts

/-! # Timestamps are unwrapped exactly

As long as the time counted from the start fits the 64-bit counter, every timestamp comes out as the true one
less the whole rounds of the 32-bit clock before the first, whatever wraps lie between.
-/

namespace StreamDelay.Rtmp.TsUnwrapper

/-- A timestamp as RTMP carries it. -/
def wire (t : ℤ) : ℕ := (t % 2 ^ 32).toNat

/-- Consecutive timestamps are less than half a round of the 32-bit clock apart. -/
def Near (a b : ℤ) : Prop := -2 ^ 31 ≤ b - a ∧ b - a < 2 ^ 31

/-- The whole rounds of the 32-bit clock before `first`. -/
def rounds (first : ℤ) : ℤ := first - first % 2 ^ 32

/-- The time since `base` fits a signed 64-bit counter. -/
def Counts (base t : ℤ) : Prop := -2 ^ 63 ≤ t - base ∧ t - base < 2 ^ 63

instance (base t : ℤ) : Decidable (Counts base t) := inferInstanceAs (Decidable (_ ∧ _))

/-- The unwrapper stands at the true timestamp `t`, counted from `base`. -/
def At (base t : ℤ) (u : TsUnwrapper) : Prop := u.last = some (wire t) ∧ u.current = t - base

variable {base t t' : ℤ} {u : TsUnwrapper}

private theorem wire_eq (t : ℤ) : (wire t : ℤ) = t % 2 ^ 32 := Int.toNat_of_nonneg (by omega)

private theorem stepFrom_wire (near : Near t t') : stepFrom (wire t) (wire t') = t' - t := by
  obtain ⟨low, high⟩ := near
  have same : ((wire t' : ℤ) - wire t).bmod (2 ^ 32) = (t' - t).bmod (2 ^ 32) := by
    rw [wire_eq, wire_eq]
    rw [show (2 : ℤ) ^ 32 = ((2 ^ 32 : ℕ) : ℤ) from rfl, Int.emod_sub_bmod, Int.sub_emod_bmod]
  rw [stepFrom, same]
  exact Int.bmod_eq_of_le (by omega) (by omega)

/-- The first timestamp is taken as it is. -/
theorem unwrap_first (first : ℤ) : At (rounds first) first (new.unwrap (wire first)).1 :=
  ⟨rfl, by
    show (wire first : ℤ) = first - rounds first
    rw [wire_eq, rounds]
    omega⟩

/-- A near timestamp that the counter holds is followed. -/
theorem At.unwrap (at_ : At base t u) (near : Near t t') (counts : Counts base t') :
    At base t' (u.unwrap (wire t')).1 := by
  obtain ⟨last, current⟩ := at_
  obtain ⟨low, high⟩ := counts
  refine ⟨rfl, ?_⟩
  have reached : u.current + stepFrom (wire t) (wire t') = t' - base := by
    rw [current, stepFrom_wire near]
    omega
  simp only [TsUnwrapper.unwrap, last, reached]
  exact Int.bmod_eq_of_le (by omega) (by omega)

private theorem unwrap_value (ts : ℕ) (u : TsUnwrapper) : (u.unwrap ts).2 = (u.unwrap ts).1.current.toNat := by
  simp only [TsUnwrapper.unwrap]
  omega

/-- Near timestamps that the counter holds are followed, however many rounds of the clock they go through. -/
theorem At.unwrapAll (at_ : At base t u) {rest : List ℤ} (near : (t :: rest).IsChain Near)
    (counts : ∀ t' ∈ rest, Counts base t') :
    TsUnwrapper.unwrapAll (rest.map wire) u = rest.map fun t' => (t' - base).toNat := by
  induction rest generalizing t u with
  | nil => rfl
  | cons t' rest ih =>
    obtain ⟨step, later⟩ := List.isChain_cons_cons.mp near
    have next := at_.unwrap step (counts t' (List.mem_cons_self ..))
    rw [List.map_cons, List.map_cons, TsUnwrapper.unwrapAll, unwrap_value, next.2,
      ih next later fun t member => counts t (List.mem_cons_of_mem _ member)]

/-- Timestamps of which each is less than half a round of the 32-bit clock from the one before come out as the
true ones less the rounds before the first, raised to zero, as long as the counter holds them. -/
theorem unwrap_exact (first : ℤ) (rest : List ℤ) (near : (first :: rest).IsChain Near)
    (counts : ∀ t ∈ rest, Counts (rounds first) t) :
    unwrapAll ((first :: rest).map wire) new = (first :: rest).map fun t => (t - rounds first).toNat := by
  have at_ := unwrap_first first
  rw [List.map_cons, List.map_cons, unwrapAll, unwrap_value, at_.2, at_.unwrapAll near counts]

/-- Below zero after the start and up again, then across the wrap and back. -/
theorem unwrap_exact_wraps :
    unwrapAll ([5, -4, 10, 2147483657, 4294967300, 4294967290].map wire) new =
        [5, 0, 10, 2147483657, 4294967300, 4294967290] ∧
      unwrapAll ([5, -4, 10, 2147483657, 4294967300, 4294967290].map wire) new =
        ([5, -4, 10, 2147483657, 4294967300, 4294967290].map fun t => (t - rounds 5).toNat) :=
  ⟨by decide, unwrap_exact 5 [-4, 10, 2147483657, 4294967300, 4294967290] (by simp [Near]) (by decide)⟩

/-! ## Where the counter ends -/

/-- Timestamps that go as fast as they can. -/
def fast (n : ℕ) : List ℤ := (List.range (n + 1)).map fun i : ℕ => (i : ℤ) * (2 ^ 31 - 1)

def follow (ts : List ℤ) : TsUnwrapper := ts.foldl (fun u t => (u.unwrap (wire t)).1) new

private theorem unwrapAll_append (first second : List ℕ) (u : TsUnwrapper) :
    unwrapAll (first ++ second) u =
      unwrapAll first u ++ unwrapAll second (first.foldl (fun u ts => (u.unwrap ts).1) u) := by
  induction first generalizing u with
  | nil => rfl
  | cons ts rest ih => rw [List.cons_append, unwrapAll, ih, unwrapAll, List.cons_append, List.foldl_cons]

private theorem fast_succ (n : ℕ) : fast (n + 1) = fast n ++ [((n + 1 : ℕ) : ℤ) * (2 ^ 31 - 1)] := by
  rw [fast, List.range_succ, List.map_append]
  rfl

private theorem near_fast (n : ℕ) : (fast n).IsChain Near := by
  rw [fast, List.isChain_map, List.isChain_range_succ]
  intro m _
  constructor
  all_goals
    push_cast
    omega

/-- While the counter holds them, they are followed. -/
theorem follow_fast {n : ℕ} (small : n ≤ 2 ^ 32 + 2) : At 0 ((n : ℤ) * (2 ^ 31 - 1)) (follow (fast n)) := by
  induction n with
  | zero => exact unwrap_first 0
  | succ n ih =>
    rw [fast_succ, follow, List.foldl_append]
    refine At.unwrap (ih (by omega)) ⟨?_, ?_⟩ ⟨?_, ?_⟩
    all_goals
      push_cast
      omega

/-- The step that takes the time past the counter's range gives zero. -/
theorem fast_overflows {n : ℕ} (full : n = 2 ^ 32 + 2) :
    ((follow (fast n)).unwrap (wire (((n + 1 : ℕ) : ℤ) * (2 ^ 31 - 1)))).2 = 0 := by
  have big : (n : ℤ) = 2 ^ 32 + 2 := by omega
  have next : ((n + 1 : ℕ) : ℤ) = 2 ^ 32 + 3 := by omega
  obtain ⟨last, current⟩ := follow_fast (n := n) (by omega)
  have near : Near ((n : ℤ) * (2 ^ 31 - 1)) (((n + 1 : ℕ) : ℤ) * (2 ^ 31 - 1)) := by
    constructor
    all_goals
      push_cast
      omega
  have reached : (follow (fast n)).current + stepFrom (wire ((n : ℤ) * (2 ^ 31 - 1)))
      (wire (((n + 1 : ℕ) : ℤ) * (2 ^ 31 - 1))) = 2 ^ 63 + 2 ^ 31 - 3 := by
    rw [current, stepFrom_wire near, big, next]
    omega
  rw [unwrap_value]
  simp only [TsUnwrapper.unwrap, last, reached]
  decide

/-- After 2^32 + 3 steps forward of almost half a round each the counter overflows: the true time is past 2^63,
and zero comes out. -/
theorem unwrap_overflows : (fast (2 ^ 32 + 3)).IsChain Near ∧
    unwrapAll ((fast (2 ^ 32 + 3)).map wire) new ≠ (fast (2 ^ 32 + 3)).map fun t => (t - rounds 0).toNat := by
  refine ⟨near_fast _, ?_⟩
  obtain ⟨n, full⟩ : ∃ n, n = 2 ^ 32 + 2 := ⟨_, rfl⟩
  rw [show 2 ^ 32 + 3 = n + 1 by omega]
  intro exact_
  have last := congrArg List.getLast? exact_
  rw [fast_succ, List.map_append, List.map_append, unwrapAll_append, List.foldl_map] at last
  simp only [List.map_cons, List.map_nil, unwrapAll, List.getLast?_concat, Option.some.injEq] at last
  have zero := fast_overflows full
  rw [follow] at zero
  have next : ((n + 1 : ℕ) : ℤ) = 2 ^ 32 + 3 := by omega
  rw [zero, rounds, next] at last
  omega

end StreamDelay.Rtmp.TsUnwrapper
