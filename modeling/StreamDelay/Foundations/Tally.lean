import Mathlib.Algebra.GroupWithZero.Nat
import Mathlib.Data.Nat.Notation
import Mathlib.Tactic.Common

/-! # Totals kept in slots

A total of what each of several parties has, and how it moves when one of them changes.
-/

namespace StreamDelay.Foundations

variable {α : Type*} {f : α → ℕ} {l : List α} {i : ℕ} {a : α}

/-- What all of a list have together. -/
def tally (f : α → ℕ) (l : List α) : ℕ := (l.map f).sum

@[simp] theorem tally_nil (f : α → ℕ) : tally f [] = 0 := rfl

@[simp] theorem tally_cons (f : α → ℕ) (a : α) (l : List α) : tally f (a :: l) = f a + tally f l := by
  rw [tally, List.map_cons, List.sum_cons, ← tally]

@[simp] theorem tally_append (f : α → ℕ) (l m : List α) : tally f (l ++ m) = tally f l + tally f m := by
  rw [tally, List.map_append, List.sum_append, ← tally, ← tally]

theorem tally_eq_zero (none : ∀ a ∈ l, f a = 0) : tally f l = 0 := by
  induction l with
  | nil => rfl
  | cons a rest ih =>
    rw [tally_cons, none a List.mem_cons_self, ih fun b member => none b (List.mem_cons_of_mem _ member)]

/-- One changes; the total changes by as much. -/
theorem tally_set (here : l[i]? = some a) (b : α) : tally f (l.set i b) + f a = tally f l + f b := by
  induction l generalizing i with
  | nil => contradiction
  | cons c rest ih =>
    cases i with
    | zero =>
      obtain rfl : c = a := by simpa using here
      rw [List.set_cons_zero, tally_cons, tally_cons]
      omega
    | succ i =>
      have later := ih (i := i) (by simpa using here)
      rw [List.set_cons_succ, tally_cons, tally_cons]
      omega

/-- What one has is part of the total. -/
theorem le_tally (here : l[i]? = some a) : f a ≤ tally f l := by
  induction l generalizing i with
  | nil => contradiction
  | cons c rest ih =>
    rw [tally_cons]
    cases i with
    | zero =>
      obtain rfl : c = a := by simpa using here
      exact Nat.le_add_right ..
    | succ i => exact Nat.le_trans (ih (i := i) (by simpa using here)) (Nat.le_add_left ..)

theorem tally_pos (here : l[i]? = some a) (some : 0 < f a) : 0 < tally f l := Nat.lt_of_lt_of_le some (le_tally here)

theorem set_of_getElem? (here : l[i]? = some a) : l.set i a = l := by
  obtain ⟨bound, rfl⟩ := List.getElem?_eq_some_iff.mp here
  exact List.set_getElem_self bound

/-- After one changed, each is the one that changed, or as it was. -/
theorem getElem?_set_cases {j : ℕ} {b c : α} (here : (l.set i b)[j]? = some c) :
    j = i ∧ c = b ∨ j ≠ i ∧ l[j]? = some c := by
  rw [List.getElem?_set] at here
  split_ifs at here with same bound
  · exact .inl ⟨same.symm, (Option.some.inj here).symm⟩
  · exact .inr ⟨Ne.symm same, here⟩

/-- How many meet a condition is a total. -/
theorem countP_eq_tally (p : α → Bool) (l : List α) : l.countP p = tally (fun a => (p a).toNat) l := by
  induction l with
  | nil => rfl
  | cons a rest ih =>
    rw [List.countP_cons, ih, tally_cons, Nat.add_comm]
    cases p a <;> rfl

end StreamDelay.Foundations
