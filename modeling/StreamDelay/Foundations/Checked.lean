import Mathlib.Tactic.Common
import Mathlib.Algebra.Group.Int.Defs
import Mathlib.Algebra.GroupWithZero.Nat
import Mathlib.Data.List.AList

/-! # Arithmetic and access that can fail, and tallies over a map

A difference, a shift, an element or a part of a list that may be out of range is `none` there, so that a
computation written with them says that none was. The tally of a map is a sum over its entries, and changes
with an entry by what the entry does.
-/

namespace StreamDelay.Foundations

/-! ## Checked operations -/

namespace Checked

variable {α : Type*}

def sub (a b : ℕ) : Option ℕ := if b ≤ a then some (a - b) else none

/-- A shift in a word, which loses no bits. -/
def shl (width a amount : ℕ) : Option ℕ :=
  if amount < width ∧ a <<< amount < 2 ^ width then some (a <<< amount) else none

/-- A sum of signed words. -/
def addSigned (width : ℕ) (a b : ℤ) : Option ℤ :=
  if -2 ^ (width - 1) ≤ a + b ∧ a + b < 2 ^ (width - 1) then some (a + b) else none

def index (l : List α) (i : ℕ) : Option α := l[i]?

/-- The elements from `i` on and before `j`. -/
def slice (l : List α) (i j : ℕ) : Option (List α) :=
  if i ≤ j ∧ j ≤ l.length then some ((l.drop i).take (j - i)) else none

/-- What is left after the first `n` elements. -/
def advance (l : List α) (n : ℕ) : Option (List α) := if n ≤ l.length then some (l.drop n) else none

/-- The element at `i`, and the list without it. -/
def remove (l : List α) (i : ℕ) : Option (α × List α) := l[i]?.map fun a => (a, l.eraseIdx i)

/-- The elements before `i`, and those from `i` on. -/
def drain (l : List α) (i : ℕ) : Option (List α × List α) := if i ≤ l.length then some (l.take i, l.drop i) else none

theorem sub_of_le {a b : ℕ} (le : b ≤ a) : sub a b = some (a - b) := if_pos le

theorem shl_of_lt {width a amount : ℕ} (fits : amount < width) (small : a <<< amount < 2 ^ width) :
    shl width a amount = some (a <<< amount) := if_pos ⟨fits, small⟩

theorem addSigned_of_lt {width : ℕ} {a b : ℤ} (low : -2 ^ (width - 1) ≤ a + b) (high : a + b < 2 ^ (width - 1)) :
    addSigned width a b = some (a + b) := if_pos ⟨low, high⟩

theorem index_of_lt {l : List α} {i : ℕ} (there : i < l.length) (default : α) :
    index l i = some (l.getD i default) := by
  rw [index, List.getD_eq_getElem?_getD, List.getElem?_eq_getElem there]
  rfl

theorem slice_of_le {l : List α} {i j : ℕ} (first : i ≤ j) (last : j ≤ l.length) :
    slice l i j = some ((l.drop i).take (j - i)) := if_pos ⟨first, last⟩

theorem advance_of_le {l : List α} {n : ℕ} (le : n ≤ l.length) : advance l n = some (l.drop n) := if_pos le

theorem drain_of_le {l : List α} {i : ℕ} (le : i ≤ l.length) : drain l i = some (l.take i, l.drop i) := if_pos le

end Checked

/-! ## Tallies -/

namespace Tally

variable {α β : Type*}

/-- The sum of `f` over the values of a map. -/
def total (f : β → ℕ) (s : AList fun _ : α => β) : ℕ := (s.entries.map fun e => f e.2).sum

@[simp] theorem total_empty (f : β → ℕ) : total f (∅ : AList fun _ : α => β) = 0 := rfl

variable [DecidableEq α]

theorem sum_kerase (f : β → ℕ) (a : α) (l : List (Σ _ : α, β)) :
    ((l.kerase a).map fun e => f e.2).sum + (l.dlookup a).elim 0 f = (l.map fun e => f e.2).sum := by
  induction l with
  | nil => rfl
  | cons e l ih =>
    by_cases same : a = e.1
    · subst same
      rw [List.kerase_cons_eq rfl, List.dlookup_cons_eq, List.map_cons, List.sum_cons]
      exact Nat.add_comm ..
    · rw [List.kerase_cons_ne same, List.dlookup_cons_ne _ _ same, List.map_cons, List.sum_cons, List.map_cons,
        List.sum_cons, ← ih, Nat.add_assoc]

/-- An entry that is replaced leaves the tally with what it had in it. -/
theorem total_insert (f : β → ℕ) (a : α) (b : β) (s : AList fun _ : α => β) :
    total f (s.insert a b) + (s.lookup a).elim 0 f = total f s + f b := by
  have rest : _ = total f s := sum_kerase f a s.entries
  rw [total, AList.entries_insert, List.map_cons, List.sum_cons, ← rest, Nat.add_assoc]
  exact Nat.add_comm ..

theorem le_total (f : β → ℕ) (a : α) (s : AList fun _ : α => β) : (s.lookup a).elim 0 f ≤ total f s := by
  have rest : _ = total f s := sum_kerase f a s.entries
  rw [← rest]
  exact Nat.le_add_left ..

theorem length_keys_insert (a : α) (b : β) (s : AList fun _ : α => β) :
    (s.insert a b).keys.length = if a ∈ s then s.keys.length else s.keys.length + 1 := by
  rw [AList.keys_insert, List.length_cons, List.length_erase]
  by_cases known : a ∈ s
  · have some : 0 < s.keys.length := List.length_pos_of_mem (AList.mem_keys.mp known)
    rw [if_pos (AList.mem_keys.mp known), if_pos known]
    omega
  · rw [if_neg fun there => known (AList.mem_keys.mpr there), if_neg known]

end Tally

end StreamDelay.Foundations
