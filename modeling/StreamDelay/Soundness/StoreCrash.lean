import StreamDelay.Proofs.SecretProgram
import StreamDelay.Proofs.Secrets

/-! # A secret is set or deleted whole, wherever the program stops

Setting and deleting make several accesses to the keychain and the file, and each can fail. Wherever they stop, every
other secret is what it was, and the one changed is what it was or what it was to become.
-/

namespace StreamDelay.Config

open Foundations Program

namespace Secrets

variable {s t : Secrets} {name value : String} {map k : Copies} {C : Secrets → Prop}

/-! ## Accesses -/

/-- An operation leaves the store as it was, or done. -/
def Leaves {α ε : Type} (before : Secrets) (after : α → Secrets → Prop) (answer : Except ε α) (t : Secrets) : Prop :=
  match answer with
  | .ok a => after a t
  | .error _ => t = before

theorem Attempted.leaves {α : Type} {answer : Except String α} {next : Secrets} {a : α} (after : α → Secrets → Prop)
    (attempted : Attempted s t answer next a) (success : after a next) : Leaves s after answer t := by
  rcases attempted with ⟨rfl, rfl⟩ | ⟨⟨why, rfl⟩, rfl⟩
  · exact success
  · rfl

theorem Leaves.stays {α ε : Type} {after : α → Secrets → Prop} {answer : Except ε α} (leaves : Leaves s after answer t)
    (before : C s) (later : ∀ a t, after a t → C t) : C t := by
  cases answer with
  | ok a => exact later a t leaves
  | error e => exact (show t = s from leaves) ▸ before

/-- An access, whose error is one of the store's. -/
theorem fails_always {α : Type} {after : α → Secrets → Prop} {error : String → SecretError}
    {p : Program Access Access.Answer (Except String α)} (always : p.Always serve C (Leaves s after) s) (before : C s)
    (later : ∀ a t, after a t → C t) : (OnStore.fails error p).Always serve C (Leaves s after) s := by
  refine always_andThen always fun answer t leaves => ⟨leaves.stays before later, ?_⟩
  cases answer with
  | ok a => exact leaves
  | error e => exact leaves

private theorem set_leaves {turn : Turn} {answer : Except String Unit} (there : s.keychain = some k)
    (served : serve (.set turn name value) s t answer) :
    Leaves s (fun _ t => t = s.keep k name (some value)) answer t := by
  dsimp only [serve] at served
  rw [there] at served
  exact Attempted.leaves _ served rfl

private theorem delete_leaves {turn : Turn} {answer : Except String Unit} (there : s.keychain = some k)
    (served : serve (.delete turn name) s t answer) : Leaves s (fun _ t => t = s.keep k name none) answer t := by
  dsimp only [serve] at served
  rw [there] at served
  exact Attempted.leaves _ served rfl

/-- Looking a name up changes nothing. -/
theorem get_always (turn : Turn) (name : String) (before : C s) :
    (perform (Access.get turn name)).Always serve C (fun _ t => t = s) s := by
  refine always_perform before fun t answer served => ?_
  rcases served with ⟨-, rfl⟩ | ⟨-, rfl⟩
  · exact ⟨before, rfl⟩
  · exact ⟨before, rfl⟩

/-- The file's new content. -/
abbrev withFile (map : Copies) (s : Secrets) : Secrets := { s with file := .readable map }

private theorem writeFile_always (turn : Turn) (before : C s) (after : C (s.withFile map)) :
    (OnStore.writeFile turn map).Always serve C (Leaves s fun _ t => t = s.withFile map) s := by
  refine fails_always (always_perform before fun t answer served => ?_) before fun _ t same => same ▸ after
  have leaves := Attempted.leaves (fun _ t => t = s.withFile map) served rfl
  exact ⟨leaves.stays before fun _ t same => same ▸ after, leaves⟩

private theorem loadForWrite_always (before : C s) (after : C (s.withFile s.inFile)) :
    OnStore.loadForWrite.Always serve C (Leaves s fun map t => map = s.inFile ∧ t = s.withFile s.inFile) s := by
  have read : (perform Access.read).Always serve C (Leaves s fun file t => file = s.file ∧ t = s) s := by
    refine always_perform before fun t answer served => ?_
    have leaves := Attempted.leaves (fun file t => file = s.file ∧ t = s) served ⟨rfl, rfl⟩
    exact ⟨leaves.stays before fun _ t same => same.2 ▸ before, leaves⟩
  refine always_orFail (fails_always read before fun _ t same => same.2 ▸ before) (fun _ _ same => same ▸ before) ?_
    fun _ _ same => same
  rintro file t ⟨rfl, rfl⟩
  cases content : t.file with
  | readable map =>
    have own : t.inFile = map := by rw [inFile, content]
    have same : t.withFile t.inFile = t := by rw [own, withFile, ← content]
    exact ⟨before, own.symm, same.symm⟩
  | damaged why =>
    have own : t.inFile = fun _ => none := by rw [inFile, content]
    have aside : (perform Access.moveAside).Always serve C (Leaves t fun _ u => u = t.withFile t.inFile) t := by
      refine always_perform before fun u answer served => ?_
      have leaves := Attempted.leaves (fun _ u => u = t.withFile t.inFile) served (by rw [own])
      exact ⟨leaves.stays before fun _ u same => same ▸ after, leaves⟩
    refine always_orFail (fails_always aside before fun _ u same => same ▸ after) (fun _ _ same => same ▸ before) ?_
      fun _ _ same => same
    rintro ⟨⟩ u rfl
    exact ⟨after, own.symm, rfl⟩

/-! ## Setting a secret -/

/-- Of the secrets, at most `name` has changed, to `copy`. -/
structure Between (name : String) (copy : Option String) (s t : Secrets) : Prop where
  others : ∀ other, other ≠ name → t.copy other = s.copy other
  own : t.copy name = s.copy name ∨ t.copy name = copy

/-- The secret changed is `copy` where an operation is done. -/
def Becomes (name : String) (copy : Option String) (s : Secrets) (answer : Except SecretError Unit) (t : Secrets) :
    Prop :=
  Between name copy s t ∧ (answer = .ok () → t.copy name = copy)

theorem Becomes.failed {copy : Option String} {e : SecretError} (between : Between name copy s t) :
    Becomes name copy s (.error e) t := ⟨between, fun same => by contradiction⟩

/-- A state where every secret is what it was. -/
theorem Between.unchanged {copy : Option String} (same : t.copy = s.copy) : Between name copy s t :=
  ⟨fun other _ => congrFun same other, .inl (congrFun same name)⟩

/-- The file has the value, whatever the keychain has under the name. -/
theorem becomes_inFile {keychain : Option Copies} (value : String)
    (chain : ∀ other, other ≠ name → (keychain.getD fun _ => none) other = s.inKeychain other) :
    Becomes name (some value) s (.ok ()) ⟨keychain, .readable (Function.update s.inFile name (some value))⟩ := by
  have own : copy ⟨keychain, .readable (Function.update s.inFile name (some value))⟩ name = some value := by
    show (Function.update s.inFile name (some value) name).or _ = _
    rw [Function.update_self, Option.some_or]
  refine ⟨⟨fun other elsewhere => ?_, .inr own⟩, fun _ => own⟩
  show (Function.update s.inFile name (some value) other).or _ = _
  rw [Function.update_of_ne elsewhere]
  exact congrArg (Option.or _) (chain other elsewhere)

private theorem setInFile_always (name value : String) (s : Secrets) :
    (OnStore.setInFile s.keychain.isSome name value s.inFile).Always serve (Between name (some value) s)
      (Becomes name (some value) s) (s.withFile s.inFile) := by
  have before : Between name (some value) s (s.withFile s.inFile) := .unchanged rfl
  have stored : Becomes name (some value) s (.ok ()) (s.withFile (Function.update s.inFile name (some value))) :=
    becomes_inFile value fun _ _ => rfl
  refine always_orFail (writeFile_always .first before stored.1) (fun _ _ same => same ▸ before) ?_
    fun _ _ same => .failed (same ▸ before)
  rintro ⟨⟩ t rfl
  cases there : s.keychain with
  | none => exact ⟨stored.1, stored⟩
  | some k =>
    have removed : Becomes name (some value) s (.ok ())
        ((s.withFile (Function.update s.inFile name (some value))).keep k name none) := by
      refine becomes_inFile value fun other elsewhere => ?_
      show Function.update k name none other = _
      rw [Function.update_of_ne elsewhere, inKeychain, there]
      rfl
    refine always_andThen (get_always .older name stored.1) fun older t same => ?_
    subst same
    rcases older with e | _ | old
    rotate_left
    · exact ⟨stored.1, stored⟩
    -- The keychain may hold an older copy, which is deleted.
    all_goals
      refine ⟨stored.1, fun t answer served => ?_⟩
      have leaves := delete_leaves (s := s.withFile _) there served
      cases answer with
      | ok done =>
        obtain rfl : t = _ := leaves
        exact ⟨removed.1, removed⟩
      | error e =>
        obtain rfl : t = _ := leaves
        have undone : (OnStore.writeFile .undo s.inFile).Always serve (Between name (some value) s) _ _ :=
          writeFile_always .undo stored.1 before
        have gaveUp : ((OnStore.writeFile .undo s.inFile).andThen fun _ =>
            (done (.error (.staleCopy e)) : OnStore Unit)).Always serve (Between name (some value) s)
            (Becomes name (some value) s) (s.withFile (Function.update s.inFile name (some value))) := by
          refine always_andThen undone fun answer t leaves => ?_
          have between := leaves.stays (C := Between name (some value) s) stored.1 fun _ t same => same ▸ before
          exact ⟨between, .failed between⟩
        exact gaveUp

/-- A copy in the file takes precedence, whatever the keychain has under the name. -/
theorem between_keychain {copy : Option String} {keychain : Option Copies} (inFile : (s.inFile name).isSome = true)
    (chain : ∀ other, other ≠ name → (keychain.getD fun _ => none) other = s.inKeychain other) :
    Between name copy s ⟨keychain, .readable s.inFile⟩ := by
  refine ⟨fun other elsewhere => congrArg (Option.or _) (chain other elsewhere), .inl ?_⟩
  show (s.inFile name).or _ = (s.inFile name).or _
  obtain ⟨old, here⟩ := Option.isSome_iff_exists.mp inFile
  rw [here, Option.some_or, Option.some_or]

/-- The keychain has the value, and the file none under the name. -/
theorem becomes_inKeychain {copy : Option String} {map : Copies} (there : s.keychain = some k) (gone : map name = none)
    (others : ∀ other, other ≠ name → map other = s.inFile other) :
    Becomes name copy s (.ok ()) ⟨some (Function.update k name copy), .readable map⟩ := by
  have own : Secrets.copy ⟨some (Function.update k name copy), .readable map⟩ name = copy := by
    show (map name).or (Function.update k name copy name) = _
    rw [gone, Function.update_self, Option.none_or]
  refine ⟨⟨fun other elsewhere => ?_, .inr own⟩, fun _ => own⟩
  show (map other).or (Function.update k name copy other) = (s.inFile other).or (s.inKeychain other)
  rw [others other elsewhere, Function.update_of_ne elsewhere, inKeychain, there]
  rfl

/-- Undoing what was saved to the keychain, where the file keeps its copy. -/
theorem undoSet_always {copy : Option String} (name : String) (previous : Except String (Option String))
    (there : s.keychain = some k) (inFile : (s.inFile name).isSome = true) (value : String) :
    (OnStore.undoSet name previous).Always serve (Between name copy s) (fun _ t => Between name copy s t)
      ((s.withFile s.inFile).keep k name (some value)) := by
  have kept (c : Option String) (c' : Option String) : Between name copy s
      (((s.withFile s.inFile).keep k name (some value)).keep (Function.update k name c) name c') := by
    refine between_keychain inFile fun other elsewhere => ?_
    show Function.update (Function.update k name c) name c' other = _
    rw [Function.update_of_ne elsewhere, Function.update_of_ne elsewhere, Secrets.inKeychain, there]
    rfl
  have before : Between name copy s ((s.withFile s.inFile).keep k name (some value)) := by
    refine between_keychain inFile fun other elsewhere => ?_
    show Function.update k name (some value) other = _
    rw [Function.update_of_ne elsewhere, Secrets.inKeychain, there]
    rfl
  rcases previous with e | _ | old
  · exact ⟨before, before⟩
  · refine always_perform before fun t answer served => ?_
    have leaves := delete_leaves (s := (s.withFile s.inFile).keep k name (some value)) rfl served
    have between := leaves.stays (C := Between name copy s) before fun _ t same => same ▸ kept (some value) none
    exact ⟨between, between⟩
  · refine always_perform before fun t answer served => ?_
    have leaves := set_leaves (s := (s.withFile s.inFile).keep k name (some value)) rfl served
    have between := leaves.stays (C := Between name copy s) before fun _ t same => same ▸ kept (some value) (some old)
    exact ⟨between, between⟩

private theorem set_always (name value : String) (s : Secrets) :
    (OnStore.set s.keychain.isSome name value).Always serve (Between name (some value) s)
      (Becomes name (some value) s) s := by
  have start : Between name (some value) s s := .unchanged rfl
  have loaded : Between name (some value) s (s.withFile s.inFile) := .unchanged rfl
  refine always_orFail (loadForWrite_always start loaded) (fun _ _ same => same ▸ start) ?_
    fun _ _ same => .failed (same ▸ start)
  rintro map t ⟨rfl, rfl⟩
  cases there : s.keychain with
  | none =>
    have inFile := setInFile_always name value s
    rw [there] at inFile
    exact inFile
  | some k =>
    have inFile := setInFile_always name value s
    rw [there] at inFile
    refine always_andThen (get_always .first name loaded) fun previous t same => ?_
    subst same
    refine ⟨loaded, fun t answer served => ?_⟩
    have leaves := set_leaves (s := s.withFile s.inFile) there served
    cases answer with
    | error e =>
      obtain rfl : t = _ := leaves
      exact inFile
    | ok saved =>
      obtain rfl : t = _ := leaves
      change (if (s.inFile name).isSome = true then _ else _ : OnStore Unit).Always serve _ _ _
      split
      · next held =>
        have saved : Between name (some value) s ((s.withFile s.inFile).keep k name (some value)) := by
          refine between_keychain held fun other elsewhere => ?_
          show Function.update k name (some value) other = _
          rw [Function.update_of_ne elsewhere, inKeychain, there]
          rfl
        have becomes : Becomes name (some value) s (.ok ())
            (((s.withFile s.inFile).keep k name (some value)).withFile (Function.update s.inFile name none)) :=
          becomes_inKeychain there (Function.update_self ..) fun _ elsewhere => Function.update_of_ne elsewhere ..
        refine always_andThen (writeFile_always .first saved becomes.1) fun answer t leaves => ?_
        cases answer with
        | ok done =>
          obtain rfl : t = _ := leaves
          exact ⟨becomes.1, becomes⟩
        | error e =>
          obtain rfl : t = _ := leaves
          refine always_andThen (undoSet_always name previous there held value) fun _ t between => ?_
          exact ⟨between, .failed between⟩
      · next free =>
        have gone : s.inFile name = none := Option.not_isSome_iff_eq_none.mp free
        have becomes : Becomes name (some value) s (.ok ()) ((s.withFile s.inFile).keep k name (some value)) :=
          becomes_inKeychain there gone fun _ _ => rfl
        exact ⟨becomes.1, becomes⟩

/-! ## Deleting a secret -/

/-- The file has no copy, and the keychain none either. -/
theorem removeFromFile_always (name : String) {s t : Secrets} (inFile : t.inFile = s.inFile)
    (gone : t.inKeychain name = none) (chain : ∀ other, other ≠ name → t.inKeychain other = s.inKeychain other)
    (start : Between name none s t) :
    (OnStore.removeFromFile name).Always serve (Between name none s) (Becomes name none s) t := by
  have loaded : Between name none s (t.withFile t.inFile) := ⟨start.others, start.own⟩
  refine always_orFail (loadForWrite_always start loaded) (fun _ _ same => same ▸ start) ?_
    fun _ _ same => .failed (same ▸ start)
  rintro map u ⟨rfl, rfl⟩
  change (if (t.inFile name).isSome = true then _ else _ : OnStore Unit).Always serve _ _ _
  split
  · have removed : Becomes name none s (.ok ())
        ((t.withFile t.inFile).withFile (Function.update t.inFile name none)) := by
      have own : ((t.withFile t.inFile).withFile (Function.update t.inFile name none)).copy name = none := by
        show (Function.update t.inFile name none name).or (t.inKeychain name) = none
        rw [Function.update_self, gone, Option.none_or]
      refine ⟨⟨fun other elsewhere => ?_, .inr own⟩, fun _ => own⟩
      show (Function.update t.inFile name none other).or (t.inKeychain other) =
        (s.inFile other).or (s.inKeychain other)
      rw [Function.update_of_ne elsewhere, inFile, chain other elsewhere]
    refine (writeFile_always .first loaded removed.1).weaken (fun _ => id) fun answer u leaves => ?_
    cases answer with
    | ok done => exact (show u = _ from leaves) ▸ removed
    | error e => exact .failed ((show u = _ from leaves) ▸ loaded)
  · next free =>
    have none : t.inFile name = none := Option.not_isSome_iff_eq_none.mp free
    refine ⟨loaded, loaded, fun _ => ?_⟩
    show (t.inFile name).or (t.inKeychain name) = Option.none
    rw [none, gone, Option.none_or]

private theorem delete_always (name : String) (s : Secrets) :
    (OnStore.delete s.keychain.isSome name).Always serve (Between name none s) (Becomes name none s) s := by
  have start : Between name none s s := .unchanged rfl
  cases there : s.keychain with
  | none =>
    have gone (other : String) : s.inKeychain other = none := by
      rw [inKeychain, there]
      rfl
    exact removeFromFile_always name rfl (gone name) (fun _ _ => rfl) start
  | some k =>
    have left : Between name none s (s.keep k name none) := by
      refine ⟨fun other elsewhere => ?_, ?_⟩
      · show (s.inFile other).or (Function.update k name none other) = (s.inFile other).or (s.inKeychain other)
        rw [Function.update_of_ne elsewhere, inKeychain, there]
        rfl
      · have after : (s.keep k name none).copy name = s.inFile name := by
          show (s.inFile name).or (Function.update k name none name) = _
          rw [Function.update_self, Option.or_none]
        rw [after, copy]
        cases s.inFile name with
        | none => exact .inr rfl
        | some old => exact .inl rfl
    have deletes : (OnStore.fails .keychain (perform (Access.delete .first name))).Always serve (Between name none s)
        (Leaves s fun _ t => t = s.keep k name none) s := by
      refine fails_always (always_perform start fun t answer served => ?_) start fun _ t same => same ▸ left
      have leaves := delete_leaves there served
      exact ⟨leaves.stays start fun _ t same => same ▸ left, leaves⟩
    refine always_orFail deletes (fun _ _ same => same ▸ start) ?_ fun _ _ same => .failed (same ▸ start)
    rintro ⟨⟩ t rfl
    refine removeFromFile_always name rfl ?_ (fun other elsewhere => ?_) left
    · exact Function.update_self ..
    · show Function.update k name none other = _
      rw [Function.update_of_ne elsewhere, inKeychain, there]
      rfl

/-! ## Reading a secret -/

private theorem ask_always (name : String) (fileError : Option SecretError) (s : Secrets) :
    (OnStore.ask s.keychain.isSome name fileError).Always serve (fun t => t = s) (fun _ t => t = s) s := by
  unfold OnStore.ask
  split
  · have got : (OnStore.fails .keychain (perform (Access.get .first name))).Always serve (fun t => t = s)
        (fun _ t => t = s) s := by
      refine always_andThen (get_always .first name rfl) fun answer t same => ?_
      subst same
      exact ⟨rfl, rfl⟩
    exact always_orFail got (fun _ _ => id) (fun _ _ same => ⟨same, same⟩) fun _ _ => id
  · exact ⟨rfl, rfl⟩

/-- Reading changes nothing. -/
theorem read_always (name : String) (s : Secrets) :
    (OnStore.get s.keychain.isSome name).Always serve (fun t => t = s) (fun _ t => t = s) s := by
  have read : (perform Access.read).Always serve (fun t => t = s) (fun _ t => t = s) s := by
    refine always_perform rfl fun t answer served => ?_
    rcases served with ⟨-, same⟩ | ⟨-, same⟩
    · exact ⟨same, same⟩
    · exact ⟨same, same⟩
  have failing : (OnStore.fails .file (perform Access.read)).Always serve (fun t => t = s) (fun _ t => t = s) s :=
    always_andThen read fun _ _ same => ⟨same, same⟩
  refine always_andThen failing fun answer t same => ?_
  subst same
  rcases answer with e | map | why
  · exact ask_always name _ t
  · dsimp only
    split
    · exact ⟨rfl, rfl⟩
    · exact ask_always name _ t
  · exact ask_always name _ t

/-! ## Runs -/

/-- What becomes of an operation: its answer, or it is cut short. -/
abbrev Outcome := Option (Except SecretError (Option String))

/-- It says that it is done. -/
def Outcome.Done (outcome : Outcome) : Prop := ∃ found, outcome = some (.ok found)

/-- What an operation makes of the secrets. -/
def changed (secrets : Copies) : SecretOp → Copies
  | .get _ => secrets
  | .set name value => Function.update secrets name (some value)
  | .delete name => Function.update secrets name none

/-- The same operations on a plain map: one that is done has changed it, and any other may have. -/
inductive Takes (start : Copies) : List (SecretOp × Outcome) → Copies → Prop
  | nil : Takes start [] start
  | change {ops : List (SecretOp × Outcome)} {secrets : Copies} (takes : Takes start ops secrets) (op : SecretOp)
      (outcome : Outcome) : Takes start (ops ++ [(op, outcome)]) (changed secrets op)
  | missed {ops : List (SecretOp × Outcome)} {secrets : Copies} (takes : Takes start ops secrets) (op : SecretOp)
      {outcome : Outcome} (undone : ¬outcome.Done) : Takes start (ops ++ [(op, outcome)]) secrets

/-- The secrets are what they were, or what the operation makes of them. -/
theorem Between.copies {copy : Option String} (between : Between name copy s t) :
    t.copy = s.copy ∨ t.copy = Function.update s.copy name copy := by
  refine between.own.imp (fun same => ?_) fun same => ?_
  · funext other
    by_cases own : other = name
    · exact own ▸ same
    · exact between.others other own
  · funext other
    by_cases own : other = name
    · subst own
      rw [same, Function.update_self]
    · rw [between.others other own, Function.update_of_ne own]

/-- What is to hold where an operation ends. -/
def Settles (op : SecretOp) (s : Secrets) (answer : Except SecretError (Option String)) (t : Secrets) : Prop :=
  (t.copy = s.copy ∨ t.copy = changed s.copy op) ∧ (Outcome.Done (some answer) → t.copy = changed s.copy op)

private theorem program_always (op : SecretOp) (s : Secrets) :
    (OnStore.program s.keychain.isSome op).Always serve (fun t => t.copy = s.copy ∨ t.copy = changed s.copy op)
      (Settles op s) s := by
  have settles {name : String} {copy : Option String} {p : OnStore Unit}
      (always : p.Always serve (Between name copy s) (Becomes name copy s) s) :
      (p.orFail fun () => done (.ok Option.none)).Always serve
        (fun t => t.copy = s.copy ∨ t.copy = Function.update s.copy name copy)
        (fun answer t => (t.copy = s.copy ∨ t.copy = Function.update s.copy name copy) ∧
          (Outcome.Done (some answer) → t.copy = Function.update s.copy name copy)) s := by
    have weaker := always.weaken (D := fun t => t.copy = s.copy ∨ t.copy = Function.update s.copy name copy)
      (fun _ between => between.copies) fun _ _ => id
    refine always_orFail weaker (fun e t becomes => becomes.1.copies) (fun _ t becomes => ?_) fun e t becomes => ?_
    · have all : t.copy = Function.update s.copy name copy := by
        funext other
        by_cases own : other = name
        · subst own
          rw [becomes.2 rfl, Function.update_self]
        · rw [becomes.1.others other own, Function.update_of_ne own]
      exact ⟨.inr all, .inr all, fun _ => all⟩
    · refine ⟨becomes.1.copies, fun said => ?_⟩
      obtain ⟨found, same⟩ := said
      exact nomatch Option.some.inj same
  cases op with
  | get name =>
    refine (read_always name s).weaken (fun t same => .inl (same ▸ rfl)) fun answer t same => ?_
    subst same
    exact ⟨.inl rfl, fun _ => rfl⟩
  | set name value => exact settles (set_always name value s)
  | delete name => exact settles (delete_always name s)

/-- A run of operations is one on a plain map. -/
theorem Runs.takes {start s : Secrets} {ops : List (SecretOp × Outcome)} (runs : Runs start ops s) :
    Takes start.copy ops s.copy := by
  induction runs with
  | nil => exact .nil
  | @ended ops s t op answer _ ends ih =>
    have told := (program_always op s).ends ends
    rcases told.1 with same | same
    · by_cases said : Outcome.Done (some answer)
      · rw [told.2 said]
        exact .change ih op _
      · rw [same]
        exact .missed ih op said
    · rw [same]
      exact .change ih op _
  | @stopped ops s t op _ passes ih =>
    rcases (program_always op s).passes passes with same | same
    · rw [same]
      refine .missed ih op fun said => ?_
      obtain ⟨found, cut⟩ := said
      contradiction
    · rw [same]
      exact .change ih op _

/-- Where the file can be parsed, reads find the secrets. -/
theorem get_copy {s : Secrets} {map : Copies} (file : s.file = .readable map) (name : String) :
    s.get {} name = .ok (s.copy name) := by
  have inFile : s.inFile name = map name := by rw [Secrets.inFile, file]
  rw [get_readable file, copy, inFile]
  cases map name with
  | some v => rfl
  | none =>
    unfold fromKeychain inKeychain
    cases s.keychain with
    | none => rfl
    | some k =>
      show (Except.ok (k name) >>= answer none) = Except.ok (k name)
      cases k name <;> rfl

/-- Whatever accesses fail and wherever the process stops, the store is a map that changes whole: the secrets after a
run are those of a map on which every operation that said it was done took effect, and any other, one that answered an
error among them, did or did not. Where its file can be parsed, reads find them. -/
theorem stored_whole {start s : Secrets} {ops : List (SecretOp × Outcome)} (runs : Runs start ops s) :
    Takes start.copy ops s.copy ∧
      ∀ map, s.file = .readable map → ∀ name, s.get {} name = .ok (s.copy name) :=
  ⟨runs.takes, fun _ file name => get_copy file name⟩

/-- Nothing is saved yet. -/
def fresh : Secrets := ⟨some fun _ => none, .readable fun _ => none⟩

/-- The keychain refuses a value, which goes to the file; it takes the next one, and the process stops before the file
is brought up to date. -/
theorem stored_whole_stopped :
    let refused : Faults := { set := some "locked" }
    let s := (fresh.set refused "key" "old").1
    let t := s.keep (fun _ => none) "key" (some "new")
    t.copy "key" = some "old" ∧
      Takes fresh.copy [(.set "key" "old", some (.ok none)), (.set "key" "new", none)] t.copy := by
  intro refused s t
  have first : Runs fresh [(.set "key" "old", some (.ok none))] s := Runs.step (f := refused) .nil rfl
  have passes : Passes serve s (OnStore.program s.keychain.isSome (.set "key" "new")) t :=
    .call (.inl ⟨rfl, rfl⟩) (.call (.inl ⟨rfl, rfl⟩) (.call (.inl ⟨rfl, rfl⟩) .here))
  exact ⟨rfl, (stored_whole (.stopped first passes)).1⟩

end Secrets

end StreamDelay.Config
