import Mathlib.Tactic.Common
import Mathlib.Data.List.Basic

/-! # Consecutively numbered lists

A list whose elements carry the numbers `base`, `base + 1`, … is a window on a numbered sequence:
an element is found by its number, and dropping, keeping or adding elements moves the window's
ends.
-/

namespace StreamDelay.Foundations

variable {α : Type*}

/-- The elements carry consecutive numbers, from `base` on. -/
def Numbered (key : α → ℕ) : ℕ → List α → Prop
  | _, [] => True
  | base, x :: rest => key x = base ∧ Numbered key (base + 1) rest

namespace Numbered

variable {key : α → ℕ} {base : ℕ} {xs ys : List α}

@[simp] theorem nil : Numbered key base [] := trivial

theorem append_iff :
    Numbered key base (xs ++ ys) ↔ Numbered key base xs ∧ Numbered key (base + xs.length) ys := by
  induction xs generalizing base with
  | nil => simp [Numbered]
  | cons x rest ih =>
    simp only [List.cons_append, Numbered, ih, List.length_cons, and_assoc]
    rw [show base + 1 + rest.length = base + (rest.length + 1) by omega]

theorem concat {x : α} (numbered : Numbered key base xs) (next : key x = base + xs.length) :
    Numbered key base (xs ++ [x]) := append_iff.mpr ⟨numbered, next, trivial⟩

theorem take (n : ℕ) (numbered : Numbered key base xs) : Numbered key base (xs.take n) := by
  rw [← List.take_append_drop n xs] at numbered
  exact (append_iff.mp numbered).1

theorem drop {n : ℕ} (numbered : Numbered key base xs) (bound : n ≤ xs.length) :
    Numbered key (base + n) (xs.drop n) := by
  rw [← List.take_append_drop n xs] at numbered
  have suffix := (append_iff.mp numbered).2
  rwa [List.length_take, Nat.min_eq_left bound] at suffix

theorem key_getElem? (numbered : Numbered key base xs) {i : ℕ} {x : α} (found : xs[i]? = some x) :
    key x = base + i := by
  induction xs generalizing base i with
  | nil => simp at found
  | cons y rest ih =>
    cases i with
    | zero =>
      obtain rfl : y = x := by simpa using found
      exact numbered.1
    | succ i =>
      have later := ih numbered.2 (by simpa using found)
      omega

theorem lower (numbered : Numbered key base xs) {x : α} (member : x ∈ xs) : base ≤ key x := by
  obtain ⟨i, found⟩ := List.mem_iff_getElem?.mp member
  have number := numbered.key_getElem? found
  omega

theorem upper (numbered : Numbered key base xs) {x : α} (member : x ∈ xs) :
    key x < base + xs.length := by
  obtain ⟨i, found⟩ := List.mem_iff_getElem?.mp member
  have number := numbered.key_getElem? found
  have bound := (List.getElem?_eq_some_iff.mp found).1
  omega

/-- An element is found under its number, and nothing else is. -/
theorem getElem?_sub (numbered : Numbered key base xs) {n : ℕ} {x : α} (bound : base ≤ n) :
    xs[n - base]? = some x ↔ x ∈ xs ∧ key x = n := by
  constructor
  · intro found
    have number := numbered.key_getElem? found
    exact ⟨List.mem_of_getElem? found, by omega⟩
  · rintro ⟨member, rfl⟩
    obtain ⟨i, found⟩ := List.mem_iff_getElem?.mp member
    rwa [numbered.key_getElem? found, Nat.add_sub_cancel_left]

theorem map_key (numbered : Numbered key base xs) : xs.map key = List.range' base xs.length := by
  induction xs generalizing base with
  | nil => rfl
  | cons x rest ih => rw [List.map_cons, numbered.1, ih numbered.2, List.length_cons, List.range'_succ]

theorem strict (numbered : Numbered key base xs) : xs.Pairwise fun x y => key x < key y := by
  induction xs generalizing base with
  | nil => exact .nil
  | cons x rest ih =>
    refine List.pairwise_cons.mpr ⟨?_, ih numbered.2⟩
    intro y member
    have first := numbered.1
    have bound := numbered.2.lower member
    omega

theorem eq_of_key_eq (numbered : Numbered key base xs) {x y : α} (left : x ∈ xs) (right : y ∈ xs)
    (same : key x = key y) : x = y := by
  obtain ⟨i, foundX⟩ := List.mem_iff_getElem?.mp left
  obtain ⟨j, foundY⟩ := List.mem_iff_getElem?.mp right
  have numberX := numbered.key_getElem? foundX
  have numberY := numbered.key_getElem? foundY
  obtain rfl : i = j := by omega
  exact Option.some.inj (foundX.symm.trans foundY)

/-- Keeping the elements numbered below `base + n` keeps the first `n`. -/
theorem filter_lt (numbered : Numbered key base xs) (n : ℕ) :
    xs.filter (fun x => key x < base + n) = xs.take n := by
  induction xs generalizing base n with
  | nil => simp
  | cons x rest ih =>
    have first := numbered.1
    cases n with
    | zero =>
      rw [List.take_zero, List.filter_eq_nil_iff]
      intro y member
      have bound := numbered.lower member
      simp only [decide_eq_true_eq]
      omega
    | succ n =>
      rw [List.filter_cons_of_pos (by simp only [decide_eq_true_eq]; omega), List.take_succ_cons]
      have shift : base + (n + 1) = base + 1 + n := by omega
      rw [shift, ih numbered.2]

end Numbered

end StreamDelay.Foundations
