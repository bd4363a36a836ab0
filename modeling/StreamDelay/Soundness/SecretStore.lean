import Mathlib.Tactic.Common
import Mathlib.Logic.Function.Basic
import StreamDelay.Proofs.Secrets

/-! # Each secret is kept in one place

Whatever accesses to the keychain and the file fail, a name has one copy at most, and what an operation
answers is what later reads find. One way out is left: the keychain takes a value it could not be read
for, and the copy in the file cannot be removed.
-/

namespace StreamDelay.Config

open Foundations

namespace Secrets

/-- The file can be parsed, and no name has a copy in both places. -/
structure OneCopy (s : Secrets) : Prop where
  undamaged : ∃ map, s.file = .readable map
  single : ∀ name, s.inKeychain name = none ∨ s.inFile name = none

/-- Reads find `copy`, if they find anything out. -/
def ReadsAs (s : Secrets) (name : String) (copy : Option String) : Prop :=
  s.get {} name = .ok copy ∧ ∀ f found, s.get f name = .ok found → found = copy

/-- Reads of any name find what they found before, or fail as they did. -/
def SameReads (s s' : Secrets) : Prop := ∀ f name, s'.get f name = s.get f name

/-- What an operation's answer says about later reads. -/
def Promised (s : Secrets) : SecretOp × Faults → Prop
  | (.get name, f) => SameReads s (s.step (.get name, f)).1
  | (.set name value, f) =>
    let s' := (s.set f name value).1
    (∀ other f, other ≠ name → s'.get f other = s.get f other) ∧
      match (s.set f name value).2 with
      | .ok _ => s'.ReadsAs name (some value)
      | .error _ => SameReads s s'
  | (.delete name, f) =>
    let s' := (s.delete f name).1
    (∀ other f, other ≠ name → s'.get f other = s.get f other) ∧
      match (s.delete f name).2 with
      | .ok _ => s'.ReadsAs name none
      | .error _ => SameReads s s' ∨ s.inKeychain name ≠ none ∧ s'.inKeychain name = none ∧
          s'.ReadsAs name none

variable {s s' : Secrets} {f : Faults} {name value : String} {map : Copies}

/-! ## Reading -/

/-- Where every name has one copy, that is what reads find. -/
theorem OneCopy.reads (one : s.OneCopy) (name : String) : s.ReadsAs name (s.copy name) := by
  obtain ⟨map, file⟩ := one.undamaged
  have single := one.single name
  have inFile : s.inFile name = map name := by rw [Secrets.inFile, file]
  unfold ReadsAs copy
  rw [inFile] at single ⊢
  constructor
  · rw [get_readable file]
    cases map name with
    | some v => rfl
    | none =>
      have asked : s.fromKeychain {} name = .ok (s.inKeychain name) := by
        unfold fromKeychain inKeychain
        cases s.keychain <;> rfl
      simp only [Option.elim_none, asked, Except.bind, Option.none_or]
      cases s.inKeychain name <;> rfl
  · intro f found read
    rw [get_readable file] at read
    cases refused : f.read with
    | some why =>
      rw [refused] at read
      obtain ⟨held, something⟩ := answer_ok read
      rcases single with none | none
      · exact absurd (held.trans none) (something rfl)
      · rw [none, Option.none_or]
        exact held
    | none =>
      rw [refused] at read
      cases copy : map name with
      | some v =>
        rw [copy] at read
        exact (Except.ok.inj read).symm
      | none =>
        rw [copy] at read
        rw [Option.none_or]
        exact (answer_ok read).1

/-! ## One operation -/

/-- Everything is as it was. -/
theorem sameReads_refl (s : Secrets) : SameReads s s := fun _ _ => rfl

/-- The answer a store gives for a name nothing was done to. -/
theorem sameReads_others {keychain keychain' : Option Copies} {map map' : Copies} {name : String}
    (there : keychain'.isSome = keychain.isSome)
    (same : ∀ other, other ≠ name → map' other = map other ∧
      inKeychain ⟨keychain', .readable map'⟩ other = inKeychain ⟨keychain, .readable map⟩ other) :
    ∀ other f, other ≠ name →
      get f other ⟨keychain', .readable map'⟩ = get f other ⟨keychain, .readable map⟩ :=
  fun other f different =>
    get_congr (s := ⟨keychain, .readable map⟩) rfl rfl (same other different).1 there
      (same other different).2 f

/-- An operation that is not stuck keeps one copy of each name, and its promise. -/
theorem step_keeps {op : SecretOp × Faults} (one : s.OneCopy) (undone : op.2.undo = none)
    (free : ¬s.Stuck op) : (s.step op).1.OneCopy ∧ s.Promised op := by
  obtain ⟨action, f⟩ := op
  obtain ⟨keychain, content⟩ := s
  obtain ⟨map, rfl⟩ : ∃ map, content = .readable map := one.undamaged
  have single : ∀ name, inKeychain ⟨keychain, .readable map⟩ name = none ∨ map name = none := one.single
  cases action with
  | get name => exact ⟨one, sameReads_refl _⟩
  | set name value =>
    have keeps (s' : Secrets) (result : set f name value ⟨keychain, .readable map⟩ = (s', .ok ()))
        (kept : s'.OneCopy) (holds : s'.copy name = some value)
        (others : ∀ other f, other ≠ name → s'.get f other = get f other ⟨keychain, .readable map⟩) :
        (step ⟨keychain, .readable map⟩ (.set name value, f)).1.OneCopy ∧
          Promised ⟨keychain, .readable map⟩ (.set name value, f) := by
      unfold Promised step
      dsimp only
      rw [result]
      have reads := kept.reads name
      rw [holds] at reads
      exact ⟨kept, others, reads⟩
    rcases set_cases name value keychain map undone with
      ⟨same, e, failed⟩ | ⟨k, rfl, done⟩ | done | ⟨stuck, -⟩
    · unfold Promised step
      dsimp only
      rw [failed, same]
      exact ⟨one, fun _ _ _ => rfl, sameReads_refl _⟩
    · refine keeps _ done ⟨⟨_, rfl⟩, fun other => ?_⟩ ?_ ?_
      · by_cases same : other = name
        · exact .inr (by simp [inFile, same])
        · simpa [inKeychain, inFile, Function.update_apply, same] using single other
      · simp [copy, inFile, inKeychain]
      · exact sameReads_others rfl fun other different => by simp [inKeychain, different]
    · refine keeps _ done ⟨⟨_, rfl⟩, fun other => ?_⟩ ?_ ?_
      · rw [inKeychain_update]
        by_cases same : other = name
        · exact .inl (if_pos same)
        · simpa [inFile, Function.update_apply, same, inKeychain] using single other
      · simp [copy, inFile]
      · refine sameReads_others (by simp) fun other different => ⟨by simp [different], ?_⟩
        rw [inKeychain_update, if_neg different]
        rfl
    · exact absurd stuck free
  | delete name =>
    have others (map' : Copies) (rest : ∀ other, other ≠ name → map' other = map other) :
        ∀ other f, other ≠ name →
          get f other ⟨keychain.map fun k => Function.update k name none, .readable map'⟩ =
            get f other ⟨keychain, .readable map⟩ := by
      refine sameReads_others (by simp) fun other different => ⟨rest other different, ?_⟩
      rw [inKeychain_update, if_neg different]
      rfl
    have gone (map' : Copies) (rest : ∀ other, map' other = none ∨ map' other = map other) :
        OneCopy ⟨keychain.map fun k => Function.update k name none, .readable map'⟩ := by
      refine ⟨⟨_, rfl⟩, fun other => ?_⟩
      rw [inKeychain_update]
      by_cases same : other = name
      · exact .inl (if_pos same)
      · rw [if_neg same]
        rcases rest other with none | kept
        · exact .inr none
        · exact (single other).imp id fun none => kept.trans none
    rcases delete_cases (f := f) name keychain map with
      ⟨same, e, failed⟩ | ⟨same, e, failed⟩ | done
    · unfold Promised step
      dsimp only
      rw [failed, same]
      exact ⟨one, fun _ _ _ => rfl, .inl (sameReads_refl _)⟩
    · unfold Promised step
      dsimp only
      rw [failed, same]
      have kept := gone map fun _ => .inr rfl
      refine ⟨kept, others map fun _ _ => rfl, ?_⟩
      by_cases held : inKeychain ⟨keychain, .readable map⟩ name = none
      · refine .inl fun f other => get_congr (s := ⟨keychain, .readable map⟩) rfl rfl rfl (by simp) ?_ f
        rw [inKeychain_update]
        split
        · next same => rw [same, held]
        · rfl
      · have reads := kept.reads name
        have none : map name = none := (single name).resolve_left held
        have removed : inKeychain ⟨keychain.map fun k => Function.update k name Option.none, .readable map⟩
            name = Option.none := by rw [inKeychain_update, if_pos rfl]
        have copy : copy ⟨keychain.map fun k => Function.update k name Option.none, .readable map⟩ name =
            Option.none := by
          show (map name).or (inKeychain _ name) = _
          rw [none, removed]
          rfl
        rw [copy] at reads
        exact .inr ⟨held, removed, reads⟩
    · unfold Promised step
      dsimp only
      rw [done]
      have kept := gone (Function.update map name none) fun other => by
        by_cases same : other = name <;> simp [same]
      have reads := kept.reads name
      have copy : copy ⟨keychain.map fun k => Function.update k name none,
          .readable (Function.update map name none)⟩ name = none := by
        rw [Secrets.copy, inKeychain_update, if_pos rfl, inFile]
        simp
      rw [copy] at reads
      exact ⟨kept, others _ fun other different => by simp [different], reads⟩

/-- Stuck, the store holds two copies. -/
theorem stuck_twice {op : SecretOp × Faults} (one : s.OneCopy) (stuck : s.Stuck op) :
    ¬(s.step op).1.OneCopy := by
  obtain ⟨action, f⟩ := op
  obtain ⟨keychain, content⟩ := s
  obtain ⟨map, rfl⟩ : ∃ map, content = .readable map := one.undamaged
  cases action with
  | get | delete => contradiction
  | set name value =>
    obtain ⟨there, read, taken, unread, copy, unwritten⟩ := stuck
    obtain ⟨k, rfl⟩ := Option.isSome_iff_exists.mp there
    obtain ⟨why, unread⟩ := Option.ne_none_iff_exists'.mp unread
    obtain ⟨why', unwritten⟩ := Option.ne_none_iff_exists'.mp unwritten
    have copy : (map name).isSome := Option.isSome_iff_ne_none.mpr copy
    have result : (step ⟨some k, .readable map⟩ (.set name value, f)).1 =
        ⟨some (Function.update k name (some value)), .readable map⟩ := by
      simp only [step, set, loadForWrite, readFile, read, access, taken, bind, Except.bind, pure,
        Except.pure, copy, if_true, writeFile, unwritten, unread, undoSet, keep, Option.elim_none,
        Option.elim_some]
    intro kept
    rw [result] at kept
    rcases kept.single name with none | none
    · simp [inKeychain] at none
    · have missing : map name = Option.none := none
      rw [missing] at copy
      contradiction

/-- From a store that keeps one copy of each name, whatever fails except undoing: every operation leaves
one copy of each name and keeps its promise, exactly when none is stuck. -/
theorem one_copy (s : Secrets) (one : s.OneCopy) (ops : List (SecretOp × Faults))
    (undone : ∀ op ∈ ops, op.2.undo = none) :
    (∀ first op rest, ops = first ++ op :: rest →
        (s.after (first ++ [op])).OneCopy ∧ (s.after first).Promised op) ↔
      Machine.Along step (fun s op => ¬s.Stuck op) s ops := by
  have keeps (s : Secrets) (op : SecretOp × Faults) (undone : op.2.undo = none) (one : s.OneCopy) :
      (s.step op).1.OneCopy ↔ ¬s.Stuck op :=
    ⟨fun kept stuck => stuck_twice one stuck kept, fun free => (step_keeps one undone free).1⟩
  have throughout := Machine.throughout_iff_along step keeps one undone
  constructor
  · intro law
    refine throughout.mp fun first early => ?_
    rcases List.eq_nil_or_concat first with rfl | ⟨init, op, rfl⟩
    · exact one
    · obtain ⟨rest, rfl⟩ := early
      rw [List.concat_eq_append]
      exact (law init op rest (by simp)).1
  · intro free first op rest split
    have reached : (s.after first).OneCopy :=
      throughout.mpr free first ⟨op :: rest, split.symm⟩
    rw [split] at free
    have here := (Machine.along_append step).mp free
    have kept := step_keeps reached (undone op (by simp [split])) here.2.1
    refine ⟨?_, kept.2⟩
    rw [after, Machine.after_append]
    exact kept.1

/-- A keychain and a file that hold nothing yet. -/
def blank : Secrets := ⟨some fun _ => none, .readable fun _ => none⟩

private theorem blank_oneCopy : blank.OneCopy := ⟨⟨_, rfl⟩, fun _ => .inl rfl⟩

/-- The keychain refuses a value, which goes to the file; takes the next, and cannot be read; and the
value is deleted, but for the file. -/
def moving : List (SecretOp × Faults) :=
  [(.set "key" "old", { set := some "locked" }), (.set "key" "new", { get := some "locked" }),
    (.set "key" "newer", { write := some "full", older := some "locked" }),
    (.delete "key", { read := some "denied" })]

theorem one_copy_moving :
    Machine.Along step (fun s op => ¬s.Stuck op) blank moving ∧
      ∀ first op rest, moving = first ++ op :: rest →
        (blank.after (first ++ [op])).OneCopy ∧ (blank.after first).Promised op :=
  ⟨by decide, (one_copy blank blank_oneCopy moving (by decide)).mpr (by decide)⟩

/-- The keychain refused the old value, which went to the file. Then it takes the new one, while it cannot
be read and the file cannot be written: setting fails, both copies are kept, and the new one is read
whenever the file cannot be. -/
theorem two_copies_kept :
    let s := blank.after [(.set "key" "old", { set := some "locked" })]
    let f : Faults := { get := some "locked", write := some "full" }
    let s' := (s.set f "key" "new").1
    s.get {} "key" = .ok (some "old") ∧ (s.set f "key" "new").2 = .error (.file "full") ∧
      s'.inFile "key" = some "old" ∧ s'.inKeychain "key" = some "new" ∧ ¬s'.OneCopy ∧
      s'.get { read := some "denied" } "key" = .ok (some "new") := by
  refine ⟨rfl, rfl, rfl, rfl, fun one => ?_, rfl⟩
  rcases one.single "key" with none | none <;> contradiction

end Secrets

end StreamDelay.Config
