import Mathlib.Data.List.Basic
import Mathlib.Order.Lattice
import Mathlib.Tactic.Common

/-! # Finite maps as sorted lists

A map is the list of its entries by increasing key, so that two maps with the same entries are equal.
-/

namespace StreamDelay.Foundations.Fields

variable {κ α : Type*} [LinearOrder κ] {k key : κ} {v : α} {l m : List (κ × α)}

/-- The keys increase. -/
def Sorted (l : List (κ × α)) : Prop := l.Pairwise fun a b => a.1 < b.1

instance (l : List (κ × α)) : Decidable (Sorted l) := inferInstanceAs (Decidable (List.Pairwise ..))

/-- Sets the value of a key, in its place. -/
def insert (k : κ) (v : α) : List (κ × α) → List (κ × α)
  | [] => [(k, v)]
  | e :: rest =>
    if k < e.1 then (k, v) :: e :: rest
    else if k = e.1 then (k, v) :: rest
    else e :: insert k v rest

def remove (k : κ) (l : List (κ × α)) : List (κ × α) := l.filter fun e => e.1 ≠ k

theorem lookup_cons (key : κ) (e : κ × α) (rest : List (κ × α)) :
    (e :: rest).lookup key = if key = e.1 then some e.2 else rest.lookup key := by
  obtain ⟨k, v⟩ := e
  by_cases same : key = k
  · rw [same, List.lookup_cons_self, if_pos rfl]
  · rw [List.lookup_cons, beq_false_of_ne same, if_neg same]

@[simp] theorem lookup_insert (k key : κ) (v : α) (l : List (κ × α)) :
    (insert k v l).lookup key = if key = k then some v else l.lookup key := by
  induction l with
  | nil => rw [insert, lookup_cons]
  | cons e rest ih =>
    rw [insert]
    split_ifs with before same same' same'' <;> simp_all only [lookup_cons]
    all_goals grind

@[simp] theorem lookup_remove (k key : κ) (l : List (κ × α)) :
    (remove k l).lookup key = if key = k then none else l.lookup key := by
  induction l with
  | nil => simp [remove]
  | cons e rest ih =>
    by_cases goes : e.1 = k
    · rw [remove, List.filter_cons_of_neg (by simpa using goes), lookup_cons]
      rw [remove] at ih
      split_ifs at ih ⊢ with same same'
      · exact ih
      · exact absurd (same'.trans goes) same
      · exact ih
    · rw [remove, List.filter_cons_of_pos (by simpa using goes), lookup_cons, lookup_cons]
      rw [remove] at ih
      split_ifs at ih ⊢ with here same same'
      · exact absurd (here.symm.trans same) goes
      · rfl
      · exact ih
      · exact ih

theorem mem_insert {e : κ × α} (member : e ∈ insert k v l) : e = (k, v) ∨ e ∈ l := by
  induction l with
  | nil => exact .inl (List.mem_singleton.mp member)
  | cons first rest ih =>
    rw [insert] at member
    split_ifs at member
    · exact List.mem_cons.mp member
    · exact (List.mem_cons.mp member).imp_right (List.mem_cons_of_mem _)
    · rcases List.mem_cons.mp member with rfl | later
      · exact .inr List.mem_cons_self
      · exact (ih later).imp_right (List.mem_cons_of_mem _)

theorem Sorted.insert (sorted : Sorted l) (k : κ) (v : α) : Sorted (insert k v l) := by
  induction l with
  | nil => exact List.pairwise_singleton ..
  | cons first rest ih =>
    obtain ⟨below, later⟩ := List.pairwise_cons.mp sorted
    rw [Fields.insert]
    split_ifs with before same
    · refine List.pairwise_cons.mpr ⟨fun e member => ?_, sorted⟩
      rcases List.mem_cons.mp member with rfl | member
      · exact before
      · exact before.trans (below e member)
    · exact List.pairwise_cons.mpr ⟨fun e member => same ▸ below e member, later⟩
    · refine List.pairwise_cons.mpr ⟨fun e member => ?_, ih later⟩
      rcases mem_insert member with rfl | member
      · exact lt_of_le_of_ne (not_lt.mp before) (Ne.symm same)
      · exact below e member

theorem Sorted.remove (sorted : Sorted l) (k : κ) : Sorted (remove k l) := List.Pairwise.filter _ sorted

theorem mem_of_lookup (found : l.lookup key = some v) : (key, v) ∈ l := by
  induction l with
  | nil => contradiction
  | cons e rest ih =>
    rw [lookup_cons] at found
    split_ifs at found with here
    · exact List.mem_cons.mpr (.inl (Prod.ext here (Option.some.inj found).symm))
    · exact List.mem_cons_of_mem _ (ih found)

theorem lookup_eq_none (absent : ∀ e ∈ l, e.1 ≠ key) : l.lookup key = none := by
  induction l with
  | nil => rfl
  | cons e rest ih =>
    rw [lookup_cons, if_neg (Ne.symm (absent e List.mem_cons_self))]
    exact ih fun e member => absent e (List.mem_cons_of_mem _ member)

theorem Sorted.lookup_of_mem (sorted : Sorted l) {e : κ × α} (member : e ∈ l) : l.lookup e.1 = some e.2 := by
  induction l with
  | nil => contradiction
  | cons first rest ih =>
    obtain ⟨below, later⟩ := List.pairwise_cons.mp sorted
    rw [lookup_cons]
    rcases List.mem_cons.mp member with rfl | member
    · exact if_pos rfl
    · rw [if_neg (below e member).ne']
      exact ih later member

/-! ## Taking out several -/

theorem lookup_foldl_remove {β : Type*} (gone : List (κ × β)) (l : List (κ × α)) (key : κ) :
    (gone.foldl (fun l e => remove e.1 l) l).lookup key = if ∃ e ∈ gone, e.1 = key then none else l.lookup key := by
  induction gone generalizing l with
  | nil => simp
  | cons e rest ih =>
    rw [List.foldl_cons, ih, lookup_remove]
    by_cases here : e.1 = key
    · simp [here]
    · rw [if_neg (Ne.symm here)]
      refine if_congr ?_ rfl rfl
      rw [List.exists_mem_cons_iff, or_iff_right here]

theorem Sorted.foldl_remove {β : Type*} (gone : List (κ × β)) (sorted : Sorted l) :
    Sorted (gone.foldl (fun l e => Fields.remove e.1 l) l) := by
  induction gone generalizing l with
  | nil => exact sorted
  | cons e rest ih => exact ih (sorted.remove e.1)

/-! ## Equality -/

/-- Maps that have the same at every key are the same. -/
theorem Sorted.ext (sorted : Sorted l) (other : Sorted m) (same : ∀ key, l.lookup key = m.lookup key) : l = m := by
  refine List.Perm.eq_of_pairwise (fun a b _ _ before after => absurd before after.asymm) sorted other ?_
  refine (List.perm_ext_iff_of_nodup (sorted.imp fun before => ?_) (other.imp fun before => ?_)).mpr fun e => ?_
  · exact fun same => before.ne (congrArg Prod.fst same)
  · exact fun same => before.ne (congrArg Prod.fst same)
  · constructor
    · exact fun member => mem_of_lookup ((same e.1).symm.trans (sorted.lookup_of_mem member))
    · exact fun member => mem_of_lookup ((same e.1).trans (other.lookup_of_mem member))

end StreamDelay.Foundations.Fields
