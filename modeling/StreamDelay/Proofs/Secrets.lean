import Mathlib.Tactic.Common
import Mathlib.Logic.Function.Basic
import StreamDelay.Config.Secrets

/-! # What the secret store holds

Where the copies of a name are, what reads find of them, and what setting and deleting make of them.
-/

namespace StreamDelay.Config.Secrets

open Foundations

/-- The copies the file holds. -/
def inFile (s : Secrets) : Copies :=
  match s.file with
  | .readable map => map
  | .damaged _ => fun _ => none

/-- The copies the keychain holds. -/
def inKeychain (s : Secrets) : Copies := s.keychain.getD fun _ => none

/-- The keychain would take the value, while it cannot be read and the copy in the file cannot be
removed. -/
def Stuck (s : Secrets) : SecretOp × Faults → Prop
  | (.set name _, f) =>
    s.keychain.isSome ∧ f.read = none ∧ f.set = none ∧ f.get ≠ none ∧ s.inFile name ≠ none ∧ f.write ≠ none
  | _ => False

instance (s : Secrets) : ∀ op, Decidable (s.Stuck op)
  | (.set _ _, _) => inferInstanceAs (Decidable (_ ∧ _))
  | (.get _, _) | (.delete _, _) => inferInstanceAs (Decidable False)

variable {s s' : Secrets} {f : Faults} {name value : String} {map : Copies}

/-! ## Reading -/

/-- The copy of a name, wherever it is. -/
def copy (s : Secrets) (name : String) : Option String := (s.inFile name).or (s.inKeychain name)

/-- Reading where the file can be parsed. -/
theorem get_readable (file : s.file = .readable map) (f : Faults) (name : String) :
    s.get f name =
      match f.read with
      | none => (map name).elim ((s.fromKeychain f name).bind (answer none)) fun v => .ok (some v)
      | some why => (s.fromKeychain f name).bind (answer (some (.file why))) := by
  unfold get readFile
  rw [file]
  cases f.read with
  | none =>
    simp only [access, Option.elim_none]
    cases map name <;> rfl
  | some why => rfl

private theorem fromKeychain_congr (there : s'.keychain.isSome = s.keychain.isSome)
    (same : s'.inKeychain name = s.inKeychain name) (f : Faults) :
    s'.fromKeychain f name = s.fromKeychain f name := by
  unfold inKeychain at same
  unfold fromKeychain
  cases left : s.keychain <;> cases right : s'.keychain <;> rw [left, right] at there same
  · contradiction
  · contradiction
  · exact congrArg (access f.get .keychain) same

/-- What is read of a name depends on its copies only. -/
theorem get_congr {map' : Copies} (file : s.file = .readable map) (file' : s'.file = .readable map')
    (same : map' name = map name) (there : s'.keychain.isSome = s.keychain.isSome)
    (keychain : s'.inKeychain name = s.inKeychain name) (f : Faults) : s'.get f name = s.get f name := by
  rw [get_readable file, get_readable file', same, fromKeychain_congr there keychain]

private theorem fromKeychain_ok {found : Option String} (read : s.fromKeychain f name = .ok found) :
    found = s.inKeychain name := by
  unfold fromKeychain at read
  unfold inKeychain
  cases held : s.keychain with
  | none =>
    rw [held] at read
    exact (Except.ok.inj read).symm
  | some k =>
    rw [held] at read
    unfold access at read
    cases refused : f.get with
    | none =>
      rw [refused] at read
      exact (Except.ok.inj read).symm
    | some why =>
      rw [refused] at read
      contradiction

/-- Where the file gave nothing, reads find the keychain's copy, and fail without one if the file could
not be read. -/
theorem answer_ok {fileError : Option SecretError} {found : Option String}
    (read : (s.fromKeychain f name).bind (answer fileError) = .ok found) :
    found = s.inKeychain name ∧ (fileError.isSome → found ≠ none) := by
  cases asked : s.fromKeychain f name with
  | error e =>
    rw [asked] at read
    contradiction
  | ok held =>
    rw [← fromKeychain_ok asked]
    rw [asked] at read
    cases held with
    | some v =>
      obtain rfl := Except.ok.inj read
      exact ⟨rfl, by simp⟩
    | none =>
      cases fileError with
      | none => exact ⟨(Except.ok.inj read).symm, by simp⟩
      | some e => contradiction

/-! ## Setting and deleting -/

theorem update_none {k : Copies} (missing : k name = none) : Function.update k name none = k := by
  rw [← missing]
  exact Function.update_eq_self name k

/-- Writing the value to the file: all of it is done, or nothing. -/
theorem setInFile_cases (name value : String) (keychain : Option Copies) (map : Copies) (undone : f.undo = none) :
    (setInFile f name value map ⟨keychain, .readable map⟩).1 = ⟨keychain, .readable map⟩ ∧
        (∃ e, (setInFile f name value map ⟨keychain, .readable map⟩).2 = .error e) ∨
      setInFile f name value map ⟨keychain, .readable map⟩ =
        (⟨keychain.map fun k => Function.update k name none,
          .readable (Function.update map name (some value))⟩, .ok ()) := by
  unfold setInFile writeFile
  cases f.write with
  | some why => exact .inl ⟨rfl, _, rfl⟩
  | none =>
    cases keychain with
    | none => exact .inr rfl
    | some k =>
      simp only [access, Option.elim_none]
      split
      · next clean =>
        rw [Option.map_some, update_none clean.2]
        exact .inr rfl
      · cases f.delete with
        | none => exact .inr rfl
        | some why =>
          dsimp only
          exact .inl ⟨rfl, _, rfl⟩

/-- What `set` makes of a file that can be parsed, where nothing fails to be undone. -/
theorem set_cases (name value : String) (keychain : Option Copies) (map : Copies) (undone : f.undo = none) :
    (set f name value ⟨keychain, .readable map⟩).1 = ⟨keychain, .readable map⟩ ∧
        (∃ e, (set f name value ⟨keychain, .readable map⟩).2 = .error e) ∨
      (∃ k, keychain = some k ∧
        set f name value ⟨keychain, .readable map⟩ =
          (⟨some (Function.update k name (some value)), .readable (Function.update map name none)⟩, .ok ())) ∨
      set f name value ⟨keychain, .readable map⟩ =
        (⟨keychain.map fun k => Function.update k name none,
          .readable (Function.update map name (some value))⟩, .ok ()) ∨
      Stuck ⟨keychain, .readable map⟩ (.set name value, f) ∧ ∃ k e, keychain = some k ∧
        set f name value ⟨keychain, .readable map⟩ =
          (⟨some (Function.update k name (some value)), .readable map⟩, .error e) := by
  have inFile := setInFile_cases name value keychain map undone
  unfold set loadForWrite readFile
  cases read : f.read with
  | some why => exact .inl ⟨rfl, _, rfl⟩
  | none =>
    simp only [access, Option.elim_none, bind, Except.bind, pure, Except.pure]
    cases keychain with
    | none => exact inFile.imp_right fun done => .inr (.inl done)
    | some k =>
      cases refused : f.set with
      | some why => exact inFile.imp_right fun done => .inr (.inl done)
      | none =>
        dsimp only
        split
        · next there =>
          unfold writeFile
          cases written : f.write with
          | none => exact .inr (.inl ⟨k, rfl, rfl⟩)
          | some why =>
            simp only [access, Option.elim_some]
            cases unread : f.get with
            | none =>
              simp only [Option.elim_none, undoSet, undone, keep, Function.update_eq_self]
              exact .inl ⟨trivial, _, rfl⟩
            | some why' =>
              refine .inr (.inr (.inr ⟨⟨rfl, read, refused, by simp [unread], ?_, by simp [written]⟩,
                k, _, rfl, rfl⟩))
              exact Option.isSome_iff_ne_none.mp there
        · next absent =>
          rw [update_none (Option.not_isSome_iff_eq_none.mp absent)]
          exact .inr (.inl ⟨k, rfl, rfl⟩)

/-- What `delete` makes of a file that can be parsed. -/
theorem delete_cases (name : String) (keychain : Option Copies) (map : Copies) :
    (delete f name ⟨keychain, .readable map⟩).1 = ⟨keychain, .readable map⟩ ∧
        (∃ e, (delete f name ⟨keychain, .readable map⟩).2 = .error e) ∨
      (delete f name ⟨keychain, .readable map⟩).1 =
          ⟨keychain.map fun k => Function.update k name none, .readable map⟩ ∧
        (∃ e, (delete f name ⟨keychain, .readable map⟩).2 = .error e) ∨
      delete f name ⟨keychain, .readable map⟩ =
        (⟨keychain.map fun k => Function.update k name none, .readable (Function.update map name none)⟩,
          .ok ()) := by
  have removed (keychain : Option Copies) :
      (removeFromFile f name ⟨keychain, .readable map⟩).1 = ⟨keychain, .readable map⟩ ∧
          (∃ e, (removeFromFile f name ⟨keychain, .readable map⟩).2 = .error e) ∨
        removeFromFile f name ⟨keychain, .readable map⟩ =
          (⟨keychain, .readable (Function.update map name none)⟩, .ok ()) := by
    unfold removeFromFile loadForWrite readFile
    cases f.read with
    | some why => exact .inl ⟨rfl, _, rfl⟩
    | none =>
      simp only [access, Option.elim_none, bind, Except.bind, pure, Except.pure]
      split
      · unfold writeFile
        cases f.write with
        | none => exact .inr rfl
        | some why => exact .inl ⟨rfl, _, rfl⟩
      · next absent =>
        rw [update_none (Option.not_isSome_iff_eq_none.mp absent)]
        exact .inr rfl
  unfold delete
  cases keychain with
  | none => exact (removed none).imp_right .inr
  | some k =>
    dsimp only
    cases f.delete with
    | some why => exact .inl ⟨rfl, _, rfl⟩
    | none => exact .inr (removed (some (Function.update k name none)))

theorem inKeychain_update (keychain : Option Copies) (file : FileState) (other : String) :
    inKeychain ⟨keychain.map fun k => Function.update k name none, file⟩ other =
      if other = name then none else inKeychain ⟨keychain, file⟩ other := by
  unfold inKeychain
  cases keychain with
  | none => simp
  | some k => simp [Function.update_apply]

/-! ## The copies of any store, its file damaged or not -/

/-- Where the file cannot be read, only the keychain's copy is found. -/
theorem get_unread {found : Option String} (refused : f.read ≠ none) (read : s.get f name = .ok found) :
    found = s.inKeychain name ∧ found ≠ none := by
  obtain ⟨why, unread⟩ := Option.ne_none_iff_exists'.mp refused
  unfold get readFile at read
  rw [unread] at read
  obtain ⟨held, something⟩ := answer_ok read
  exact ⟨held, something rfl⟩

/-- Where the file can be read, its copy is found, or the keychain's if it has none. -/
theorem get_read {found : Option String} (free : f.read = none) (read : s.get f name = .ok found) :
    found = s.copy name := by
  unfold get readFile at read
  unfold copy inFile
  rw [free] at read
  cases content : s.file with
  | damaged why =>
    rw [content] at read
    exact (answer_ok read).1
  | readable map =>
    rw [content] at read
    simp only [access, Option.elim_none] at read
    cases held : map name with
    | some v =>
      rw [held] at read
      dsimp only
      rw [held, Option.some_or]
      exact (Except.ok.inj read).symm
    | none =>
      rw [held] at read
      dsimp only
      rw [held, Option.none_or]
      exact (answer_ok read).1

/-- If nothing fails, the copy is found. -/
theorem value_eq (s : Secrets) (name : String) : s.value {} name = s.copy name := by
  have asked : s.fromKeychain {} name = .ok (s.inKeychain name) := by
    unfold fromKeychain inKeychain
    cases s.keychain <;> rfl
  unfold value get readFile copy inFile
  cases s.file with
  | damaged why =>
    simp only [access, Option.elim_none, asked, Except.bind]
    cases s.inKeychain name <;> rfl
  | readable map =>
    simp only [access, Option.elim_none, asked]
    cases map name with
    | some v => rfl
    | none => cases s.inKeychain name <;> rfl

/-- What setting a name has made of the copies, by its answer. -/
inductive Sets (f : Faults) (name value : String) (s s' : Secrets) : Except SecretError Unit → Prop
  | refused (e : SecretError) (file : s'.inFile = s.inFile) (keychain : s'.inKeychain = s.inKeychain) :
    Sets f name value s s' (.error e)
  /-- The keychain has taken it, and the copy in the file is still there. -/
  | twice (e : SecretError) (there : s.inFile name ≠ none) (file : s'.inFile = s.inFile)
      (keychain : s'.inKeychain = Function.update s.inKeychain name (some value)) :
    Sets f name value s s' (.error e)
  /-- The keychain has refused it and kept an older copy, and the file could not be put back. -/
  | older (e : SecretError) (undo : f.undo ≠ none)
      (file : s'.inFile = Function.update s.inFile name (some value)) (keychain : s'.inKeychain = s.inKeychain) :
    Sets f name value s s' (.error e)
  | inKeychain (file : s'.inFile = Function.update s.inFile name none)
      (keychain : s'.inKeychain = Function.update s.inKeychain name (some value)) : Sets f name value s s' (.ok ())
  | inFile (file : s'.inFile = Function.update s.inFile name (some value))
      (keychain : s'.inKeychain = Function.update s.inKeychain name none) : Sets f name value s s' (.ok ())

/-- The file as it is changed, once a damaged one has been moved aside. -/
def mended (s : Secrets) : Secrets := { s with file := .readable s.inFile }

theorem loadForWrite_ok {loaded : Copies × Secrets} (done : s.loadForWrite f = .ok loaded) :
    loaded = (s.inFile, s.mended) := by
  obtain ⟨keychain, file⟩ := s
  unfold loadForWrite readFile at done
  cases read : f.read with
  | some why =>
    rw [read] at done
    contradiction
  | none =>
    rw [read] at done
    cases file with
    | readable map => exact (Except.ok.inj done).symm
    | damaged why =>
      simp only [access, Option.elim_none, bind, Except.bind] at done
      cases moved : f.rename with
      | some why' =>
        rw [moved] at done
        contradiction
      | none =>
        rw [moved] at done
        exact (Except.ok.inj done).symm

theorem setInFile_sets (f : Faults) (name value : String) (s : Secrets) :
    Sets f name value s (s.mended.setInFile f name value s.inFile).1 (s.mended.setInFile f name value s.inFile).2 := by
  obtain ⟨keychain, file⟩ := s
  unfold setInFile writeFile
  cases f.write with
  | some why => exact .refused _ rfl rfl
  | none =>
    cases keychain with
    | none => exact .inFile rfl (update_none rfl).symm
    | some k =>
      simp only [access, Option.elim_none, mended]
      split
      · next clean => exact .inFile rfl (update_none clean.2).symm
      · cases f.delete with
        | none => exact .inFile rfl rfl
        | some why =>
          dsimp only
          split
          · exact .refused _ rfl rfl
          · next undo => exact .older _ undo rfl rfl

theorem set_sets (f : Faults) (name value : String) (s : Secrets) :
    Sets f name value s (s.set f name value).1 (s.set f name value).2 := by
  unfold set
  cases loaded : s.loadForWrite f with
  | error e => exact .refused e rfl rfl
  | ok found =>
    obtain rfl := loadForWrite_ok loaded
    obtain ⟨keychain, file⟩ := s
    cases keychain with
    | none => exact setInFile_sets f name value _
    | some k =>
      cases f.set with
      | some why => exact setInFile_sets f name value _
      | none =>
        dsimp only [mended]
        split
        · next there =>
          have there := Option.isSome_iff_ne_none.mp there
          unfold writeFile
          cases f.write with
          | none => exact .inKeychain rfl rfl
          | some why =>
            simp only [access, Option.elim_some, undoSet]
            split
            · next copy previous undo =>
              have same : copy = k name := by
                cases unread : f.get with
                | some why' =>
                  rw [unread] at previous
                  contradiction
                | none =>
                  rw [unread] at previous
                  exact (Except.ok.inj previous).symm
              refine .refused _ rfl ?_
              rw [same]
              exact Function.update_eq_self name k
            · exact .twice _ there rfl rfl
        · next absent =>
          have absent := Option.not_isSome_iff_eq_none.mp absent
          exact .inKeychain (update_none absent).symm rfl

/-- What deleting a name has made of the copies, by its answer. -/
inductive Deletes (f : Faults) (name : String) (s s' : Secrets) : Except SecretError Unit → Prop
  | refused (e : SecretError) (file : s'.inFile = s.inFile) (keychain : s'.inKeychain = s.inKeychain) :
    Deletes f name s s' (.error e)
  /-- The keychain has let go of it, and the file could not be changed. -/
  | half (e : SecretError) (file : s'.inFile = s.inFile)
      (keychain : s'.inKeychain = Function.update s.inKeychain name none) : Deletes f name s s' (.error e)
  | done (file : s'.inFile = Function.update s.inFile name none)
      (keychain : s'.inKeychain = Function.update s.inKeychain name none) : Deletes f name s s' (.ok ())

theorem removeFromFile_deletes (f : Faults) (name : String) (s : Secrets) (gone : s.inKeychain name = none) :
    Deletes f name s (s.removeFromFile f name).1 (s.removeFromFile f name).2 := by
  unfold removeFromFile
  cases loaded : s.loadForWrite f with
  | error e => exact .refused e rfl rfl
  | ok found =>
    obtain rfl := loadForWrite_ok loaded
    dsimp only
    split
    · unfold writeFile
      cases f.write with
      | some why => exact .refused _ rfl rfl
      | none => exact .done rfl (update_none gone).symm
    · next absent => exact .done (update_none (Option.not_isSome_iff_eq_none.mp absent)).symm (update_none gone).symm

theorem delete_deletes (f : Faults) (name : String) (s : Secrets) :
    Deletes f name s (s.delete f name).1 (s.delete f name).2 := by
  obtain ⟨keychain, file⟩ := s
  unfold delete
  cases keychain with
  | none => exact removeFromFile_deletes f name _ rfl
  | some k =>
    cases f.delete with
    | some why => exact .refused _ rfl rfl
    | none =>
      let s : Secrets := ⟨some k, file⟩
      have gone : (s.keep k name none).inKeychain = Function.update s.inKeychain name none := rfl
      have left := removeFromFile_deletes f name (s.keep k name none) (by rw [gone, Function.update_self])
      show Deletes f name s (removeFromFile f name (s.keep k name none)).1
        (removeFromFile f name (s.keep k name none)).2
      generalize removeFromFile f name (s.keep k name none) = result at left ⊢
      obtain ⟨s', answer⟩ := result
      cases left with
      | refused e file keychain => exact .half e file (keychain.trans gone)
      | half e file keychain =>
        rw [gone, Function.update_idem] at keychain
        exact .half e file keychain
      | done file keychain =>
        rw [gone, Function.update_idem] at keychain
        exact .done file keychain

/-- If nothing fails, a value is set. -/
theorem set_done (s : Secrets) (name value : String) : (s.set {} name value).2 = .ok () := by
  obtain ⟨keychain, file⟩ := s
  cases file <;> cases keychain <;>
    simp only [set, loadForWrite, readFile, access, setInFile, writeFile, bind, Except.bind, pure, Except.pure,
      Option.elim_none] <;>
    (try split) <;> rfl

theorem delete_done (s : Secrets) (name : String) : (s.delete {} name).2 = .ok () := by
  obtain ⟨keychain, file⟩ := s
  cases file <;> cases keychain <;>
    simp only [delete, removeFromFile, loadForWrite, readFile, access, writeFile, keep, bind, Except.bind, pure,
      Except.pure, Option.elim_none] <;>
    (try split) <;> rfl

variable {answer : Except SecretError Unit} {other : String}

/-- The copies of the other names stay. -/
theorem Sets.others (sets : Sets f name value s s' answer) (different : other ≠ name) :
    s'.inFile other = s.inFile other ∧ s'.inKeychain other = s.inKeychain other := by
  cases sets with
  | refused e file keychain => exact ⟨congrFun file other, congrFun keychain other⟩
  | twice _ _ file keychain | older _ _ file keychain | inKeychain file keychain | inFile file keychain =>
    rw [file, keychain]
    simp [different]

theorem Sets.copy_ok (sets : Sets f name value s s' (.ok ())) : s'.copy name = some value := by
  cases sets <;> simp_all [copy]

theorem Sets.copy_error {e : SecretError} (sets : Sets f name value s s' (.error e)) (undone : f.undo = none) :
    s'.copy name = s.copy name := by
  unfold copy
  cases sets with
  | refused _ file keychain => rw [file, keychain]
  | twice _ there file _ =>
    obtain ⟨held, copy⟩ := Option.ne_none_iff_exists'.mp there
    rw [file, copy, Option.some_or, Option.some_or]
  | older _ undo => exact absurd undone undo

theorem Deletes.others (deletes : Deletes f name s s' answer) (different : other ≠ name) :
    s'.inFile other = s.inFile other ∧ s'.inKeychain other = s.inKeychain other := by
  cases deletes with
  | refused e file keychain => exact ⟨congrFun file other, congrFun keychain other⟩
  | half _ file keychain | done file keychain =>
    rw [file, keychain]
    simp [different]

theorem Deletes.copy_ok (deletes : Deletes f name s s' (.ok ())) : s'.copy name = none := by
  cases deletes with
  | done file keychain => simp [copy, file, keychain]

end StreamDelay.Config.Secrets
