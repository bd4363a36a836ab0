import StreamDelay.Control.Changes

/-! # What a change of settings saves

Saved is what the change changed, at every path of keys, and nothing else.
-/

namespace StreamDelay.Control

open Foundations

variable {ν : Type*} [DecidableEq ν]

namespace Value

variable {target before after : Value ν} {t b a : List (String × Value ν)} {key : String}

/-! ## One key of an object -/

/-- What the merged object has at a key, by what the three have there. -/
def mergedField (target before : Option (Value ν)) : Option (Value ν) → Option (Value ν)
  | none => if before.isSome then none else target
  | some av =>
    match before, target with
    | some bv, some tv => some (copyChanges tv bv av)
    | some bv, none => if bv = av then none else some av
    | none, _ => some av

private theorem copyChanges_self (target after : Value ν) : copyChanges target after after = target := by
  rw [copyChanges.eq_def, if_pos rfl]

private theorem copyChanges_object (differ : b ≠ a) :
    copyChanges (.object t) (.object b) (.object a) = .object (removeGone b a (copyFields b a t)) := by
  rw [copyChanges, if_neg fun same => differ (Value.object.inj same)]

/-- Where one of the three is no object, the change is taken whole. -/
theorem copyChanges_whole (differ : before ≠ after)
    (whole : target.fields? = none ∨ before.fields? = none ∨ after.fields? = none) :
    copyChanges target before after = after := by
  cases after <;> cases before <;> cases target <;> simp_all [copyChanges, Value.fields?]

omit [DecidableEq ν] in
private theorem lookup_removeGone (sorted : Fields.Sorted b) (key : String) :
    (removeGone b a t).lookup key =
      if (b.lookup key).isSome ∧ (a.lookup key).isNone then none else t.lookup key := by
  rw [removeGone, Fields.lookup_foldl_remove]
  refine if_congr ⟨?_, ?_⟩ rfl rfl
  · rintro ⟨e, member, rfl⟩
    obtain ⟨among, absent⟩ := List.mem_filter.mp member
    exact ⟨by rw [sorted.lookup_of_mem among, Option.isSome_some], absent⟩
  · rintro ⟨present, absent⟩
    obtain ⟨v, found⟩ := Option.isSome_iff_exists.mp present
    exact ⟨(key, v), List.mem_filter.mpr ⟨Fields.mem_of_lookup found, absent⟩, rfl⟩

/-- The fields of `after` are merged each for itself. -/
theorem lookup_copyFields (sorted : Fields.Sorted a) (key : String) :
    (copyFields b a t).lookup key =
      if (a.lookup key).isSome then mergedField (t.lookup key) (b.lookup key) (a.lookup key) else t.lookup key := by
  induction a generalizing t with
  | nil => rfl
  | cons e rest ih =>
    obtain ⟨k, av⟩ := e
    obtain ⟨below, later⟩ := List.pairwise_cons.mp sorted
    have absent : rest.lookup k = none := Fields.lookup_eq_none fun e member => (below e member).ne'
    rw [Fields.lookup_cons]
    by_cases here : key = k
    · subst here
      have unset (t : List (String × Value ν)) : (copyFields b rest t).lookup key = t.lookup key := by
        rw [ih later, absent, Option.isSome_none, if_neg Bool.false_ne_true]
      rw [if_pos rfl, Option.isSome_some, if_pos rfl, copyFields]
      split
      · next bv tv inBefore inTarget => rw [unset, Fields.lookup_insert, if_pos rfl, inBefore, inTarget, mergedField]
      · next bv inBefore inTarget =>
        rw [unset, inBefore, inTarget, mergedField]
        split_ifs
        · exact inTarget
        · rw [Fields.lookup_insert, if_pos rfl]
      · next inBefore => rw [unset, Fields.lookup_insert, if_pos rfl, inBefore, mergedField]
    · rw [if_neg here, copyFields]
      split
      all_goals rw [ih later]
      · rw [Fields.lookup_insert, if_neg here]
      · split_ifs <;> simp [here]
      · rw [Fields.lookup_insert, if_neg here]

/-- The merged object has at each key what the three values there merge to. -/
theorem lookup_merged (sortedBefore : Fields.Sorted b) (sortedAfter : Fields.Sorted a) (key : String) :
    (removeGone b a (copyFields b a t)).lookup key =
      mergedField (t.lookup key) (b.lookup key) (a.lookup key) := by
  rw [lookup_removeGone sortedBefore, lookup_copyFields sortedAfter]
  cases a.lookup key with
  | none => simp only [mergedField, Option.isNone_none, and_true, Option.isSome_none, Bool.false_eq_true, if_false]
  | some av => simp only [Option.isNone_some, Bool.false_eq_true, and_false, if_false, Option.isSome_some, if_true]

/-! ## Maps stay maps -/

private theorem sorted_copyFields (b a : List (String × Value ν)) (sorted : Fields.Sorted t) :
    Fields.Sorted (copyFields b a t) := by
  induction a generalizing t with
  | nil => exact sorted
  | cons e rest ih =>
    rw [copyFields]
    split
    · exact ih (sorted.insert ..)
    · split_ifs
      · exact ih sorted
      · exact ih (sorted.insert ..)
    · exact ih (sorted.insert ..)

private theorem sorted_merged (b a : List (String × Value ν)) (sorted : Fields.Sorted t) :
    Fields.Sorted (removeGone b a (copyFields b a t)) :=
  Fields.Sorted.foldl_remove _ (sorted_copyFields b a sorted)

private theorem mergedField_cases {target before after : Option (Value ν)} {v : Value ν}
    (found : mergedField target before after = some v) :
    target = some v ∨ after = some v ∨
      ∃ tv bv av, target = some tv ∧ before = some bv ∧ after = some av ∧ v = copyChanges tv bv av := by
  cases after with
  | none =>
    simp only [mergedField] at found
    split_ifs at found
    exact .inl found
  | some av =>
    cases before with
    | none => exact .inr (.inl found)
    | some bv =>
      cases target with
      | none =>
        simp only [mergedField] at found
        split_ifs at found
        exact .inr (.inl found)
      | some tv => exact .inr (.inr ⟨tv, bv, av, rfl, rfl, rfl, (Option.some.inj found).symm⟩)

private theorem copyChanges_sorted (after : Value ν) :
    ∀ target before : Value ν, target.Sorted → before.Sorted → after.Sorted →
      (copyChanges target before after).Sorted := by
  have whole : ∀ after target before : Value ν, target.Sorted → after.Sorted → before = after ∨
      (target.fields? = none ∨ before.fields? = none ∨ after.fields? = none) →
      (copyChanges target before after).Sorted := by
    intro after target before kept changed cases
    by_cases same : before = after
    · rwa [same, copyChanges_self]
    · rwa [copyChanges_whole same (cases.resolve_left same)]
  induction after using Value.induct with
  | onObject a ih =>
    intro target before sortedTarget sortedBefore sortedAfter
    by_cases same : before = .object a
    · exact whole _ _ _ sortedTarget sortedAfter (.inl same)
    · cases target with
      | object t =>
        cases before with
        | object b =>
          rw [copyChanges_object fun equal => same (congrArg _ equal)]
          rw [Value.sorted_object] at sortedTarget sortedBefore sortedAfter ⊢
          refine ⟨sorted_merged b a sortedTarget.1, fun e member => ?_⟩
          have found := (sorted_merged b a sortedTarget.1).lookup_of_mem member
          rw [lookup_merged sortedBefore.1 sortedAfter.1] at found
          rcases mergedField_cases found with kept | changed | ⟨tv, bv, av, inTarget, inBefore, inAfter, merged⟩
          · exact sortedTarget.2 _ (Fields.mem_of_lookup kept)
          · exact sortedAfter.2 _ (Fields.mem_of_lookup changed)
          · have inAfter := Fields.mem_of_lookup inAfter
            rw [merged]
            exact ih _ inAfter tv bv (sortedTarget.2 _ (Fields.mem_of_lookup inTarget))
              (sortedBefore.2 _ (Fields.mem_of_lookup inBefore)) (sortedAfter.2 _ inAfter)
        | _ => exact whole _ _ _ sortedTarget sortedAfter (.inr (.inr (.inl rfl)))
      | _ => exact whole _ _ _ sortedTarget sortedAfter (.inr (.inl rfl))
  | _ => exact fun target before kept _ changed => whole _ _ _ kept changed (.inr (.inr (.inr rfl)))

/-! ## Paths -/

private theorem copyChanges_root (target before after : Value ν) :
    (before = after → copyChanges target before after = target) ∧
      (before ≠ after → ¬(target.objectAt [] ∧ before.objectAt [] ∧ after.objectAt []) →
        copyChanges target before after = after) := by
  refine ⟨fun same => by rw [same, copyChanges_self], fun differ whole => copyChanges_whole differ ?_⟩
  by_contra all
  simp only [not_or, ← Option.isSome_iff_ne_none] at all
  exact whole all

/-- A key that one of the three lacks. -/
theorem mergedField_missing {target before after : Option (Value ν)}
    (missing : ¬(target.isSome ∧ before.isSome ∧ after.isSome)) :
    (before = after → mergedField target before after = target) ∧
      (before ≠ after → mergedField target before after = after) := by
  cases target with
  | none => cases before <;> cases after <;> simp_all [mergedField]
  | some tv => cases before <;> cases after <;> simp_all [mergedField]

/-- What is merged at a path below objects is merged there. -/
theorem copyChanges_at (path : List String) :
    ∀ target before after : Value ν, before.Sorted → after.Sorted →
      (∀ above, above <+: path → above ≠ path →
        target.objectAt above ∧ before.objectAt above ∧ after.objectAt above) →
      (before.at? path = after.at? path → (copyChanges target before after).at? path = target.at? path) ∧
        (before.at? path ≠ after.at? path →
          ¬(target.objectAt path ∧ before.objectAt path ∧ after.objectAt path) →
            (copyChanges target before after).at? path = after.at? path) := by
  induction path with
  | nil =>
    intro target before after _ _ _
    obtain ⟨same, differ⟩ := copyChanges_root target before after
    exact ⟨fun equal => congrArg some (same (Option.some.inj equal)),
      fun different whole => congrArg some (differ (fun equal => different (congrArg some equal)) whole)⟩
  | cons key path ih =>
    intro target before after sortedBefore sortedAfter above
    obtain ⟨objectTarget, objectBefore, objectAfter⟩ := above [] List.nil_prefix nofun
    obtain ⟨t, rfl⟩ := Value.objectAt_nil objectTarget
    obtain ⟨b, rfl⟩ := Value.objectAt_nil objectBefore
    obtain ⟨a, rfl⟩ := Value.objectAt_nil objectAfter
    by_cases unchanged : b = a
    · rw [unchanged, copyChanges_self]
      exact ⟨fun _ => rfl, fun differ => absurd rfl differ⟩
    rw [copyChanges_object unchanged, Value.at?_cons, Value.at?_cons, Value.at?_cons, Value.at?_cons,
      lookup_merged (Value.sorted_object.mp sortedBefore).1 (Value.sorted_object.mp sortedAfter).1]
    simp only [Value.objectAt_cons] at above ⊢
    by_cases all : (t.lookup key).isSome ∧ (b.lookup key).isSome ∧ (a.lookup key).isSome
    · obtain ⟨tv, inTarget⟩ := Option.isSome_iff_exists.mp all.1
      obtain ⟨bv, inBefore⟩ := Option.isSome_iff_exists.mp all.2.1
      obtain ⟨av, inAfter⟩ := Option.isSome_iff_exists.mp all.2.2
      have below := ih tv bv av ((Value.sorted_object.mp sortedBefore).2 _ (Fields.mem_of_lookup inBefore))
        ((Value.sorted_object.mp sortedAfter).2 _ (Fields.mem_of_lookup inAfter)) fun p start proper => ?_
      · simpa only [inTarget, inBefore, inAfter, mergedField, Option.bind_some, Option.any_some] using below
      · have here := above (key :: p) (List.cons_prefix_cons.mpr ⟨rfl, start⟩)
          fun same => proper (List.cons.inj same).2
        simpa only [Value.objectAt_cons, inTarget, inBefore, inAfter, Option.any_some] using here
    · -- one of the three has nothing at the key, so that the path ends there
      have last : path = [] := by
        by_contra longer
        have here := above [key] (List.cons_prefix_cons.mpr ⟨rfl, List.nil_prefix⟩)
          fun same => longer (List.cons.inj same).2.symm
        simp only [Value.objectAt_cons] at here
        exact all ⟨Option.isSome_of_any here.1, Option.isSome_of_any here.2.1, Option.isSome_of_any here.2.2⟩
      subst last
      simp only [Value.bind_at?_nil]
      obtain ⟨same, differ⟩ := mergedField_missing all
      exact ⟨same, fun different _ => differ different⟩

private theorem copyChanges_unchanged (after : Value ν) :
    ∀ before : Value ν, before.Sorted → after.Sorted → copyChanges before before after = after := by
  have whole : ∀ before after : Value ν, before.fields? = none ∨ after.fields? = none →
      copyChanges before before after = after := by
    intro before after some
    by_cases same : before = after
    · rw [same, copyChanges_self]
    · exact copyChanges_whole same (some.elim .inl fun none => .inr (.inr none))
  induction after using Value.induct with
  | onObject a ih =>
    intro before sortedBefore sortedAfter
    cases before with
    | object b =>
      by_cases same : b = a
      · rw [same, copyChanges_self]
      rw [copyChanges_object same]
      rw [Value.sorted_object] at sortedBefore sortedAfter
      refine congrArg _ ((sorted_merged b a sortedBefore.1).ext sortedAfter.1 fun key => ?_)
      rw [lookup_merged sortedBefore.1 sortedAfter.1]
      cases inBefore : b.lookup key with
      | none => cases a.lookup key <;> rfl
      | some bv =>
        cases inAfter : a.lookup key with
        | none => rfl
        | some av =>
          have inAfter := Fields.mem_of_lookup inAfter
          exact congrArg some (ih _ inAfter bv (sortedBefore.2 _ (Fields.mem_of_lookup inBefore))
            (sortedAfter.2 _ inAfter))
    | _ => exact whole _ _ (.inl rfl)
  | _ => exact fun before _ _ => whole _ _ (.inr rfl)

end Value

/-! ## The merge -/

/-- `saved` with every setting that differs between `before` and `after` set as in `after`. -/
def copyChanges (saved before after : Json ν) : Json ν :=
  ⟨Value.copyChanges saved.value before.value after.value,
    Value.copyChanges_sorted _ _ _ saved.sorted before.sorted after.sorted⟩

/-- Nothing changed saves nothing, a file that has what is in effect gets all of the change, and below the objects
that all three share, each path keeps what the file has unless the change changed it. -/
theorem settings_merge (saved before after : Json ν) :
    (before = after → copyChanges saved before after = saved) ∧
    (saved = before → copyChanges saved before after = after) ∧
    ∀ path, (∀ above, above <+: path → above ≠ path →
        saved.objectAt above ∧ before.objectAt above ∧ after.objectAt above) →
      (before.at? path = after.at? path → (copyChanges saved before after).at? path = saved.at? path) ∧
      (before.at? path ≠ after.at? path →
        ¬(saved.objectAt path ∧ before.objectAt path ∧ after.objectAt path) →
          (copyChanges saved before after).at? path = after.at? path) := by
  refine ⟨?_, ?_, ?_⟩
  · rintro rfl
    exact Json.ext (Value.copyChanges_self ..)
  · rintro rfl
    exact Json.ext (Value.copyChanges_unchanged _ _ saved.sorted after.sorted)
  · intro path above
    exact Value.copyChanges_at path _ _ _ before.sorted after.sorted above

end StreamDelay.Control
