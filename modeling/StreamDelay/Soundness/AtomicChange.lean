import StreamDelay.Control.AppState
import StreamDelay.Proofs.Secrets

/-! # A change of settings is made whole or not at all

Whatever fails on the way, an error that says that nothing was changed is right, and so is an answer that the
change was made. Three ways are left for it to go wrong: a key to be forgotten goes from the keychain, and the file
cannot be looked at for it; the key cannot be read for the relay, which is then given none; and of a secret that is
kept twice the other copy is put back.
-/

namespace StreamDelay.Config.Secrets

variable {secrets : Secrets} {f : Faults} {name other : String}

/-- The only copy is the keychain's, which lets go of it, and the file cannot be looked at. -/
def Slips (f : Faults) (name : String) (secrets : Secrets) : Prop :=
  secrets.inKeychain name ≠ none ∧ secrets.inFile name = none ∧ f.delete = none ∧ (secrets.loadForWrite f).isOk = false

instance : Decidable (secrets.Slips f name) := inferInstanceAs (Decidable (_ ∧ _))

/-- The file has a copy and the keychain another, and the file cannot be read. -/
def Misread (f : Faults) (name : String) (secrets : Secrets) : Prop :=
  f.read ≠ none ∧ secrets.inFile name ≠ none ∧ secrets.inKeychain name ≠ secrets.inFile name

instance : Decidable (secrets.Misread f name) := inferInstanceAs (Decidable (_ ∧ _))

private theorem get_eq_copy {found : Option String} (read : secrets.get f name = .ok found) :
    found = secrets.copy name ↔ ¬secrets.Misread f name := by
  by_cases free : f.read = none
  · exact iff_of_true (get_read free read) fun misread => misread.1 free
  · obtain ⟨held, something⟩ := get_unread free read
    constructor
    · rintro same ⟨-, there, differ⟩
      obtain ⟨v, inFile⟩ := Option.ne_none_iff_exists'.mp there
      rw [copy, inFile, Option.some_or] at same
      rw [← held, inFile] at differ
      exact differ same
    · intro clear
      by_cases there : secrets.inFile name = none
      · rw [copy, there, Option.none_or, held]
      · by_contra missed
        refine clear ⟨free, there, fun same => missed ?_⟩
        rw [held, copy, same, Option.or_self]

/-- What a reading finds: the file's copy where the file can be read, else the keychain's where that answers. -/
def found (f : Faults) (name : String) (secrets : Secrets) : Option String :=
  (if f.read = none then secrets.inFile name else none).or (if f.get = none then secrets.inKeychain name else none)

private theorem value_found (f : Faults) (name : String) (secrets : Secrets) :
    secrets.value f name = secrets.found f name := by
  have answered (e : Option SecretError) : ((secrets.fromKeychain f name).bind (answer e)).toOption.join =
      if f.get = none then secrets.inKeychain name else none := by
    unfold fromKeychain inKeychain access
    cases secrets.keychain with
    | none => cases e <;> simp [Except.bind, Except.toOption, answer]
    | some k =>
      cases f.get <;> cases copies : k name <;> cases e <;> simp [Except.bind, Except.toOption, answer, copies]
  have read : secrets.value f name = (secrets.get f name).toOption.join := by
    unfold value
    cases secrets.get f name <;> rfl
  rw [read]
  unfold get readFile found inFile access
  cases f.read with
  | some why => exact answered _
  | none =>
    simp only [Option.elim_none, if_true]
    cases secrets.file with
    | damaged why => exact answered _
    | readable map =>
      dsimp only
      cases map name with
      | some v => rfl
      | none => exact answered none

private theorem removeFromFile_error {e : SecretError} (failed : (secrets.removeFromFile f name).2 = .error e) :
    (secrets.removeFromFile f name).1.inFile = secrets.inFile ∧
      (secrets.removeFromFile f name).1.inKeychain = secrets.inKeychain ∧
      (secrets.inFile name = none → (secrets.loadForWrite f).isOk = false) := by
  unfold removeFromFile at failed ⊢
  cases loaded : secrets.loadForWrite f with
  | error e => exact ⟨rfl, rfl, fun _ => rfl⟩
  | ok found =>
    obtain rfl := loadForWrite_ok loaded
    rw [loaded] at failed
    dsimp only at failed ⊢
    split at failed
    · next there =>
      rw [if_pos there]
      unfold writeFile at failed ⊢
      cases written : f.write with
      | none =>
        rw [written] at failed
        contradiction
      | some why => exact ⟨rfl, rfl, fun none => by rw [none] at there; contradiction⟩
    · contradiction

/-- Whether the file can be changed does not depend on the keychain. -/
theorem loadForWrite_keep (k : Copies) (copy : Option String) :
    ((secrets.keep k name copy).loadForWrite f).isOk = (secrets.loadForWrite f).isOk := by
  obtain ⟨keychain, file⟩ := secrets
  unfold loadForWrite readFile keep
  cases f.read <;> cases file <;> cases f.rename <;> rfl

/-- A name that cannot be deleted keeps its copy, unless it slips. -/
theorem delete_error {e : SecretError} (failed : (secrets.delete f name).2 = .error e) :
    (secrets.delete f name).1.copy name = secrets.copy name ↔ ¬secrets.Slips f name := by
  obtain ⟨keychain, file⟩ := secrets
  unfold delete at failed ⊢
  cases keychain with
  | none =>
    obtain ⟨inFile, inKeychain, -⟩ := removeFromFile_error failed
    unfold Slips copy
    dsimp only
    rw [inFile, inKeychain]
    exact ⟨fun _ slips => slips.1 rfl, fun _ => rfl⟩
  | some k =>
    dsimp only at failed ⊢
    cases refused : f.delete with
    | some why => exact ⟨fun _ slips => absurd (refused.symm.trans slips.2.2.1) nofun, fun _ => rfl⟩
    | none =>
      rw [refused] at failed
      let s : Secrets := ⟨some k, file⟩
      obtain ⟨inFile, inKeychain, unloaded⟩ := removeFromFile_error failed
      rw [loadForWrite_keep] at unloaded
      have file : (s.keep k name none).inFile = s.inFile := rfl
      have gone : (s.keep k name none).inKeychain name = none := Function.update_self ..
      show copy (removeFromFile f name (s.keep k name none)).1 name = s.copy name ↔ ¬s.Slips f name
      unfold Slips copy
      rw [inFile, inKeychain, gone, file, Option.or_none]
      by_cases there : s.inFile name = none
      · rw [there, Option.none_or]
        refine ⟨fun same slips => slips.1 same.symm, fun kept => ?_⟩
        by_contra held
        exact kept ⟨fun none => held none.symm, rfl, refused, unloaded there⟩
      · obtain ⟨v, copy⟩ := Option.ne_none_iff_exists'.mp there
        rw [copy, Option.some_or]
        exact ⟨fun _ slips => absurd slips.2.1 nofun, fun _ => rfl⟩

theorem Slips.fails (slips : secrets.Slips f name) : ∃ e, (secrets.delete f name).2 = .error e := by
  obtain ⟨keychain, file⟩ := secrets
  obtain ⟨there, -, free, unloaded⟩ := slips
  cases keychain with
  | none => exact absurd rfl there
  | some k =>
    rw [← @loadForWrite_keep _ f name k none] at unloaded
    unfold delete removeFromFile
    dsimp only
    rw [free]
    dsimp only
    cases loaded : (keep k name none ⟨some k, file⟩).loadForWrite f with
    | error e => exact ⟨e, rfl⟩
    | ok found =>
      rw [loaded] at unloaded
      contradiction

end StreamDelay.Config.Secrets

namespace StreamDelay.Control

open Foundations Config

variable {ρ ν R : Type} [DecidableEq ν] {records : Records} {format : Format ρ ν} {s s' : AppState ρ} {a : Attempt}
  {key : KeyChange} {change : Settings ρ → Settings ρ × R} {secrets secrets' : Secrets} {f : Faults} {name : String}

/-! ## What the answers promise -/

/-- An error that says that nothing was changed. -/
def ChangeError.NothingChanged : ChangeError → Prop
  | .save _ | .key _ | .secret _ => True
  | .invalid _ | .keyNotRestored _ _ | .secretsNotRestored _ _ | .relay _ => False

/-- What a later read finds of the stream key. -/
def KeyChange.leaves (records : Records) : KeyChange → Option String → Option String
  | .keep, before => before
  | .save server key, _ => some (DestKey.record records server key)
  | .forget, _ => none

/-- The settings, every secret as it is read later, and the relay's destination are as they were. -/
structure Unchanged (s s' : AppState ρ) : Prop where
  saved : s'.saved = s.saved
  config : s'.config = s.config
  destination : s'.appliedDestination = s.appliedDestination
  secrets : ∀ name, s'.secrets.value {} name = s.secrets.value {} name

/-- The settings, the stream key, the other secrets and the relay's destination are as the change makes them. -/
structure Reflects (records : Records) (format : Format ρ ν) (key : KeyChange) (change : Settings ρ → Settings ρ × R)
    (s : AppState ρ) (others : Secrets) (s' : AppState ρ) (changed : Settings ρ × R) : Prop where
  changed : changed = change s.config
  config : s'.config = (change s.config).1
  saved : s'.saved = withChanges format s.saved s.config (change s.config).1
  key : s'.secrets.value {} DESTINATION_KEY = key.leaves records (s.secrets.value {} DESTINATION_KEY)
  others : ∀ name, name ≠ DESTINATION_KEY → s'.secrets.value {} name = others.value {} name
  destination : s'.appliedDestination = s'.destination records {}

/-- A change does nothing, or all. -/
def Atomic (records : Records) (format : Format ρ ν) (key : KeyChange) (change : Settings ρ → Settings ρ × R)
    (s : AppState ρ) (others : Secrets) : AppState ρ × Except ChangeError (Settings ρ × R) → Prop
  | (s', .error e) => e.NothingChanged → Unchanged s s'
  | (s', .ok changed) => Reflects records format key change s others s' changed

/-! ## How it can go wrong -/

/-- Why the settings cannot be saved; without a file they need not be. -/
def refusal (a : Attempt) (s : AppState ρ) : Option String := if s.configPath then a.save else none

/-- The key is to be forgotten, could be read, and slips. -/
def KeyLost (a : Attempt) (key : KeyChange) (s : AppState ρ) : Prop :=
  key = .forget ∧ (s.secrets.get a.take DESTINATION_KEY).isOk = true ∧ s.secrets.Slips a.key DESTINATION_KEY

/-- The key was misread before it was changed, and is put back as it was read. -/
structure Misplaced (records : Records) (a : Attempt) (key : KeyChange) (s : AppState ρ) : Prop where
  changes : key ≠ .keep
  taken : (s.secrets.get a.take DESTINATION_KEY).isOk = true
  misread : s.secrets.Misread a.take DESTINATION_KEY
  keyed : (AppState.changeKey records a.key key s.secrets).2.isOk = true
  refused : refusal a s ≠ none

/-- The change put in effect, and the relay not told of it. -/
def staged (records : Records) (format : Format ρ ν) (a : Attempt) (key : KeyChange)
    (change : Settings ρ → Settings ρ × R) (s : AppState ρ) : AppState ρ :=
  { s with
    secrets := (AppState.changeKey records a.key key s.secrets).1
    saved := withChanges format s.saved s.config (change s.config).1
    config := (change s.config).1 }

/-- The settings call for the saved stream key. -/
structure Needs (s : AppState ρ) (settings : Settings ρ) : Prop where
  parses : (Rtmp.RtmpUrl.parse settings.destination.url).isOk = true
  stored : settings.destination.keyMode = .stored
  own : s.keyOverrideFor settings.destination.url = none

/-- The key in a record, if it may be sent to `url`; empty, if there is none. -/
def keyIn (records : Records) (url legacyServer : Text) (record : Option String) : Text :=
  ((record.map (Saved.ofRaw records)).bind (DestKey.usedFor url legacyServer)).getD []

/-- The change is saved, and the reading for the relay does not find the key that is kept for its destination. -/
structure Unheard (records : Records) (format : Format ρ ν) (a : Attempt) (key : KeyChange)
    (change : Settings ρ → Settings ρ × R) (s : AppState ρ) : Prop where
  taken : (AppState.keyBefore a.take key s.secrets).isOk = true
  keyed : (AppState.changeKey records a.key key s.secrets).2.isOk = true
  saved : refusal a s = none
  applied : a.apply = none ∨ s.appliedDestination = (staged records format a key change s).destination records a.read
  needs : Needs s (change s.config).1
  missed :
    let asked := keyIn records (change s.config).1.destination.url
      (withChanges format s.saved s.config (change s.config).1).destination.url
    asked ((AppState.changeKey records a.key key s.secrets).1.found a.read DESTINATION_KEY) ≠
      asked (key.leaves records (s.secrets.copy DESTINATION_KEY))

/-- None of these is the case. -/
structure Sure (records : Records) (format : Format ρ ν) (a : Attempt) (key : KeyChange)
    (change : Settings ρ → Settings ρ × R) (s : AppState ρ) : Prop where
  kept : ¬KeyLost a key s
  placed : ¬Misplaced records a key s
  heard : ¬Unheard records format a key change s

/-- Some step before the settings are saved fails. -/
def Refused (records : Records) (a : Attempt) (key : KeyChange) (s : AppState ρ) : Prop :=
  (AppState.keyBefore a.take key s.secrets).isOk = false ∨
    (AppState.changeKey records a.key key s.secrets).2.isOk = false ∨ refusal a s ≠ none

/-- The last reading of one of the secrets misreads it. -/
def Misread (secrets : Secrets) : List Kept → Prop
  | [] => False
  | k :: rest => Misread secrets rest ∨ k.name ∉ rest.map Kept.name ∧ secrets.Misread k.take k.name

/-- If the key has to be put back, it is. -/
def KeyRestored (records : Records) (a : Attempt) (key : KeyChange) (s : AppState ρ) : Prop :=
  ∀ raw, AppState.keyBefore a.take key s.secrets = .ok (some raw) →
    (AppState.changeKey records a.key key s.secrets).2 = .ok () → refusal a s ≠ none →
    (SecretsBefore.putBack a.restore DESTINATION_KEY (AppState.changeKey records a.key key s.secrets).1 raw).2 = .ok ()

/-! ## The stream key -/

private theorem copy_congr
    (same : secrets'.inFile name = secrets.inFile name ∧ secrets'.inKeychain name = secrets.inKeychain name) :
    secrets'.copy name = secrets.copy name := by
  unfold Secrets.copy
  rw [same.1, same.2]

private theorem changeKey_others (f : Faults) (key : KeyChange) (secrets : Secrets)
    (different : name ≠ DESTINATION_KEY) :
    (AppState.changeKey records f key secrets).1.copy name = secrets.copy name := by
  cases key with
  | keep => rfl
  | save server key => exact copy_congr ((Secrets.set_sets f DESTINATION_KEY _ secrets).others different)
  | forget => exact copy_congr ((Secrets.delete_deletes f DESTINATION_KEY secrets).others different)

private theorem changeKey_ok (done : (AppState.changeKey records f key secrets).2 = .ok ()) :
    (AppState.changeKey records f key secrets).1.copy DESTINATION_KEY =
      key.leaves records (secrets.copy DESTINATION_KEY) := by
  cases key with
  | keep => rfl
  | save server key =>
    have sets := Secrets.set_sets f DESTINATION_KEY (DestKey.record records server key) secrets
    rw [show (secrets.set f DESTINATION_KEY _).2 = .ok () from done] at sets
    exact sets.copy_ok
  | forget =>
    have deletes := Secrets.delete_deletes f DESTINATION_KEY secrets
    rw [show (secrets.delete f DESTINATION_KEY).2 = .ok () from done] at deletes
    exact deletes.copy_ok

private theorem changeKey_error {e : SecretError} (undone : f.undo = none)
    (failed : (AppState.changeKey records f key secrets).2 = .error e) :
    (AppState.changeKey records f key secrets).1.copy DESTINATION_KEY = secrets.copy DESTINATION_KEY ↔
      ¬(key = .forget ∧ secrets.Slips f DESTINATION_KEY) := by
  cases key with
  | keep => contradiction
  | save server key =>
    have sets := Secrets.set_sets f DESTINATION_KEY (DestKey.record records server key) secrets
    rw [show (secrets.set f DESTINATION_KEY _).2 = .error e from failed] at sets
    exact ⟨fun _ slips => absurd slips.1 nofun, fun _ => sets.copy_error undone⟩
  | forget =>
    refine (Secrets.delete_error failed).trans (not_congr ?_)
    exact ⟨fun slips => ⟨rfl, slips⟩, And.right⟩

private theorem keyBefore_keep (f : Faults) (secrets : Secrets) : AppState.keyBefore f .keep secrets = .ok none := rfl

private theorem keyBefore_changes (changes : key ≠ .keep) (f : Faults) (secrets : Secrets) :
    AppState.keyBefore f key secrets = (secrets.get f DESTINATION_KEY).map some := if_neg changes

/-- Where the key is put back, it was read. -/
theorem keyBefore_some {raw : Option String} (taken : AppState.keyBefore f key secrets = .ok (some raw)) :
    key ≠ .keep ∧ secrets.get f DESTINATION_KEY = .ok raw := by
  by_cases keep : key = .keep
  · rw [keep, keyBefore_keep] at taken
    exact absurd (Except.ok.inj taken) nofun
  · rw [keyBefore_changes keep] at taken
    cases read : secrets.get f DESTINATION_KEY with
    | error e =>
      rw [read] at taken
      contradiction
    | ok found =>
      rw [read] at taken
      exact ⟨keep, congrArg _ (Option.some.inj (Except.ok.inj taken))⟩

private theorem keyBefore_none (taken : AppState.keyBefore f key secrets = .ok none) : key = .keep := by
  by_contra changes
  rw [keyBefore_changes changes] at taken
  cases read : secrets.get f DESTINATION_KEY <;> rw [read] at taken <;> cases taken

theorem KeyLost.taken (lost : KeyLost a key s) : (AppState.keyBefore a.take key s.secrets).isOk = true := by
  obtain ⟨rfl, read, -⟩ := lost
  rw [keyBefore_changes (show KeyChange.forget ≠ .keep from nofun)]
  cases found : s.secrets.get a.take DESTINATION_KEY with
  | ok raw => rfl
  | error e =>
    rw [found] at read
    contradiction

/-- A key that is lost is not deleted. -/
theorem KeyLost.fails (lost : KeyLost a key s) : (AppState.changeKey records a.key key s.secrets).2.isOk = false := by
  obtain ⟨rfl, -, slips⟩ := lost
  obtain ⟨e, failed⟩ := slips.fails
  rw [show (AppState.changeKey records a.key .forget s.secrets).2 = .error e from failed]
  rfl

/-! ## Putting secrets back -/

private theorem putBack_ok {raw : Option String} (done : (SecretsBefore.putBack f name secrets raw).2 = .ok ()) :
    (SecretsBefore.putBack f name secrets raw).1.copy name = raw := by
  cases raw with
  | some raw =>
    have sets := Secrets.set_sets f name raw secrets
    rw [show (secrets.set f name raw).2 = .ok () from done] at sets
    exact sets.copy_ok
  | none =>
    have deletes := Secrets.delete_deletes f name secrets
    rw [show (secrets.delete f name).2 = .ok () from done] at deletes
    exact deletes.copy_ok

private theorem putBack_others {other : String} (f : Faults) (secrets : Secrets) (raw : Option String)
    (different : other ≠ name) : (SecretsBefore.putBack f name secrets raw).1.copy other = secrets.copy other := by
  cases raw with
  | some raw => exact copy_congr ((Secrets.set_sets f name raw secrets).others different)
  | none => exact copy_congr ((Secrets.delete_deletes f name secrets).others different)

private theorem restore_others (secrets : Secrets) (before : List (Kept × Option String))
    (different : name ∉ before.map fun e => e.1.name) :
    (SecretsBefore.restore secrets before).1.copy name = secrets.copy name := by
  induction before generalizing secrets with
  | nil => rfl
  | cons e rest ih =>
    obtain ⟨k, raw⟩ := e
    obtain ⟨here, later⟩ := not_or.mp (List.mem_cons.not.mp different)
    exact (ih _ later).trans (putBack_others k.restore secrets raw here)

theorem take_cons {k : Kept} {rest : List Kept} {before : List (Kept × Option String)}
    (taken : SecretsBefore.take secrets (k :: rest) = .ok before) :
    ∃ raw before', before = (k, raw) :: before' ∧ secrets.get k.take k.name = .ok raw ∧
      SecretsBefore.take secrets rest = .ok before' := by
  unfold SecretsBefore.take at taken ⊢
  rw [List.mapM_cons] at taken
  cases read : secrets.get k.take k.name with
  | error e =>
    rw [read] at taken
    contradiction
  | ok raw =>
    rw [read] at taken
    cases later : rest.mapM fun k => (secrets.get k.take k.name).map fun raw => (k, raw) with
    | error e =>
      rw [later] at taken
      contradiction
    | ok before' =>
      rw [later] at taken
      exact ⟨raw, before', (Except.ok.inj taken).symm, rfl, rfl⟩

private theorem take_kept {names : List Kept} {before : List (Kept × Option String)}
    (taken : SecretsBefore.take secrets names = .ok before) : before.map Prod.fst = names := by
  induction names generalizing before with
  | nil =>
    obtain rfl := Except.ok.inj taken
    rfl
  | cons k rest ih =>
    obtain ⟨raw, before', rfl, -, later⟩ := take_cons taken
    exact congrArg (k :: ·) (ih later)

theorem take_names {names : List Kept} {before : List (Kept × Option String)}
    (taken : SecretsBefore.take secrets names = .ok before) :
    (before.map fun e => e.1.name) = names.map Kept.name := by
  rw [← take_kept taken, List.map_map]
  rfl

/-- Secrets that are put back are as they were, unless one was misread. -/
theorem restore_names {names : List Kept} {before : List (Kept × Option String)}
    (taken : SecretsBefore.take secrets names = .ok before)
    (done : (SecretsBefore.restore secrets' before).2 = .ok ()) :
    (∀ name ∈ names.map Kept.name, (SecretsBefore.restore secrets' before).1.copy name = secrets.copy name) ↔
      ¬Misread secrets names := by
  induction names generalizing secrets' before with
  | nil => exact iff_of_true (fun _ member => absurd member (List.not_mem_nil)) id
  | cons k rest ih =>
    obtain ⟨raw, before', rfl, read, later⟩ := take_cons taken
    have put : (SecretsBefore.putBack k.restore k.name secrets' raw).2 = .ok () := by
      unfold SecretsBefore.restore at done
      dsimp only at done
      split at done
      · contradiction
      · next first => exact first
    have left : (SecretsBefore.restore (SecretsBefore.putBack k.restore k.name secrets' raw).1 before').2 = .ok () := by
      unfold SecretsBefore.restore at done
      dsimp only at done
      rwa [put] at done
    have back := putBack_ok put
    have same := Secrets.get_eq_copy read
    unfold Misread
    rw [not_or, ← ih later left, List.map_cons, List.forall_mem_cons, and_comm]
    refine and_congr_right fun rest_ => ?_
    show (SecretsBefore.restore (SecretsBefore.putBack k.restore k.name secrets' raw).1 before').1.copy k.name = _ ↔ _
    by_cases again : k.name ∈ rest.map Kept.name
    · exact iff_of_true (rest_ k.name again) fun misread => misread.1 again
    · rw [restore_others _ _ (take_names later ▸ again), back, same, and_iff_right again]

/-! ## One change under the lock -/

/-- What a change comes to, by the step that fails. -/
inductive Locked (records : Records) (format : Format ρ ν) (a : Attempt) (key : KeyChange)
    (change : Settings ρ → Settings ρ × R) (s : AppState ρ) :
    AppState ρ × Except ChangeError (Settings ρ × R) → Prop
  | untaken {e} (taken : AppState.keyBefore a.take key s.secrets = .error e) :
    Locked records format a key change s (s, .error (.key e))
  | unkeyed {before e} (taken : AppState.keyBefore a.take key s.secrets = .ok before)
      (keyed : (AppState.changeKey records a.key key s.secrets).2 = .error e) :
    Locked records format a key change s
      ({ s with secrets := (AppState.changeKey records a.key key s.secrets).1 }, .error (.key e))
  | unsaved {e} (taken : AppState.keyBefore a.take key s.secrets = .ok none)
      (keyed : (AppState.changeKey records a.key key s.secrets).2 = .ok ()) (refused : refusal a s = some e) :
    Locked records format a key change s
      ({ s with secrets := (AppState.changeKey records a.key key s.secrets).1 }, .error (.save e))
  | putBack {raw e} (taken : AppState.keyBefore a.take key s.secrets = .ok (some raw))
      (keyed : (AppState.changeKey records a.key key s.secrets).2 = .ok ()) (refused : refusal a s = some e)
      (restored : (SecretsBefore.putBack a.restore DESTINATION_KEY
        (AppState.changeKey records a.key key s.secrets).1 raw).2 = .ok ()) :
    Locked records format a key change s
      ({ s with secrets := (SecretsBefore.putBack a.restore DESTINATION_KEY
          (AppState.changeKey records a.key key s.secrets).1 raw).1 }, .error (.save e))
  | notPutBack {raw e restore} (taken : AppState.keyBefore a.take key s.secrets = .ok (some raw))
      (keyed : (AppState.changeKey records a.key key s.secrets).2 = .ok ()) (refused : refusal a s = some e)
      (restored : (SecretsBefore.putBack a.restore DESTINATION_KEY
        (AppState.changeKey records a.key key s.secrets).1 raw).2 = .error restore) :
    Locked records format a key change s
      ({ s with secrets := (SecretsBefore.putBack a.restore DESTINATION_KEY
          (AppState.changeKey records a.key key s.secrets).1 raw).1 }, .error (.keyNotRestored e restore))
  | unapplied {before e} (taken : AppState.keyBefore a.take key s.secrets = .ok before)
      (keyed : (AppState.changeKey records a.key key s.secrets).2 = .ok ()) (saved : refusal a s = none)
      (refused : a.apply ≠ none)
      (differ : s.appliedDestination ≠ (staged records format a key change s).destination records a.read) :
    Locked records format a key change s (staged records format a key change s, .error (.relay e))
  | done {before} (taken : AppState.keyBefore a.take key s.secrets = .ok before)
      (keyed : (AppState.changeKey records a.key key s.secrets).2 = .ok ()) (saved : refusal a s = none)
      (applied : a.apply = none ∨
        s.appliedDestination = (staged records format a key change s).destination records a.read) :
    Locked records format a key change s
      ({ staged records format a key change s with
          appliedDestination := (staged records format a key change s).destination records a.read },
        .ok (change s.config))

private theorem syncDestination_cases (f : Faults) (fault : Option String) (s : AppState ρ) :
    (∃ e, s.syncDestination records f fault = .error e) ∧ fault ≠ none ∧
        s.appliedDestination ≠ s.destination records f ∨
      s.syncDestination records f fault = .ok { s with appliedDestination := s.destination records f } ∧
        (fault = none ∨ s.appliedDestination = s.destination records f) := by
  unfold AppState.syncDestination
  by_cases same : s.appliedDestination = s.destination records f
  · dsimp only
    rw [if_neg (not_not.mpr same)]
    refine .inr ⟨?_, .inr same⟩
    rw [← same]
  · dsimp only
    rw [if_pos same]
    cases fault with
    | none => exact .inr ⟨rfl, .inl rfl⟩
    | some e => exact .inl ⟨⟨e, rfl⟩, nofun, same⟩

private theorem staged_eq (format : Format ρ ν) (a : Attempt) (key : KeyChange) (change : Settings ρ → Settings ρ × R)
    (s : AppState ρ) :
    staged records format a key change s =
      { s with
        secrets := (AppState.changeKey records a.key key s.secrets).1
        saved := withChanges format s.saved s.config (change s.config).1
        config := (change s.config).1 } := rfl

private theorem saveSettings_eq (a : Attempt) (change : Settings ρ → Settings ρ × R) (s : AppState ρ) :
    s.saveSettings format a.save change =
      match refusal a s with
      | some e => .error e
      | none =>
        .ok ({ s with saved := withChanges format s.saved s.config (change s.config).1, config := (change s.config).1 },
          change s.config) := rfl

theorem changeSettingsLocked_locked (a : Attempt) (key : KeyChange) (change : Settings ρ → Settings ρ × R)
    (s : AppState ρ) :
    Locked records format a key change s (s.changeSettingsLocked records format a key change) := by
  unfold AppState.changeSettingsLocked
  cases taken : AppState.keyBefore a.take key s.secrets with
  | error e => exact .untaken taken
  | ok before =>
    cases keyed : AppState.changeKey records a.key key s.secrets with
    | mk secrets answer =>
    obtain rfl : (AppState.changeKey records a.key key s.secrets).1 = secrets := congrArg Prod.fst keyed
    replace keyed := congrArg Prod.snd keyed
    cases answer with
    | error e => exact .unkeyed taken keyed
    | ok _ =>
      dsimp only
      rw [saveSettings_eq]
      cases refused : refusal a s with
      | some e =>
        rw [show refusal a { s with secrets := (AppState.changeKey records a.key key s.secrets).1 } = some e
          from refused]
        cases before with
        | none => exact .unsaved taken keyed refused
        | some raw =>
          dsimp only
          cases restored : (SecretsBefore.putBack a.restore DESTINATION_KEY
            (AppState.changeKey records a.key key s.secrets).1 raw).2 with
          | ok _ => exact .putBack taken keyed refused restored
          | error restore => exact .notPutBack taken keyed refused restored
      | none =>
        rw [show refusal a { s with secrets := (AppState.changeKey records a.key key s.secrets).1 } = none from refused]
        dsimp only
        rw [← staged_eq]
        rcases syncDestination_cases a.read a.apply (staged records format a key change s) with
          ⟨⟨e, failed⟩, fault, differ⟩ | ⟨done, applied⟩
        · rw [failed]
          exact .unapplied taken keyed refused fault differ
        · rw [done]
          exact .done taken keyed refused applied

variable {answer : AppState ρ × Except ChangeError (Settings ρ × R)} {before : Option (Option String)}

/-- No other secret is touched. -/
theorem Locked.others (locked : Locked records format a key change s answer) (different : name ≠ DESTINATION_KEY) :
    answer.1.secrets.copy name = s.secrets.copy name := by
  have keyed : (AppState.changeKey records a.key key s.secrets).1.copy name = s.secrets.copy name :=
    changeKey_others a.key key s.secrets different
  cases locked with
  | untaken => rfl
  | unkeyed | unsaved | unapplied | done => exact keyed
  | putBack | notPutBack => exact (putBack_others a.restore _ _ different).trans keyed

/-- Only the stream key can have changed. -/
theorem unchanged_iff (same : ∀ name, name ≠ DESTINATION_KEY → secrets.copy name = s.secrets.copy name) :
    Unchanged s { s with secrets } ↔ secrets.copy DESTINATION_KEY = s.secrets.copy DESTINATION_KEY := by
  constructor
  · intro unchanged
    have key := unchanged.secrets DESTINATION_KEY
    rwa [Secrets.value_eq, Secrets.value_eq] at key
  · intro key
    refine ⟨rfl, rfl, rfl, fun name => ?_⟩
    rw [Secrets.value_eq, Secrets.value_eq]
    by_cases here : name = DESTINATION_KEY
    · rw [here]
      exact key
    · exact same name here

/-- The relay's destination is right if the key that is read for it finds what is kept. -/
theorem reflects_iff (keyed : (AppState.changeKey records a.key key s.secrets).2 = .ok ()) :
    Reflects records format key change s s.secrets
        { staged records format a key change s with
          appliedDestination := (staged records format a key change s).destination records a.read } (change s.config) ↔
      (staged records format a key change s).destination records a.read =
        (staged records format a key change s).destination records {} := by
  refine ⟨fun reflects => reflects.destination, fun found => ⟨rfl, rfl, rfl, ?_, fun name different => ?_, found⟩⟩
  · rw [Secrets.value_eq, Secrets.value_eq]
    exact changeKey_ok keyed
  · rw [Secrets.value_eq, Secrets.value_eq]
    exact changeKey_others a.key key s.secrets different

/-- The destination depends on the saved key where the settings call for it. -/
theorem relayDestination_iff (settings : Settings ρ) (own k k' : Option Text) :
    settings.relayDestination (own.or k) = settings.relayDestination (own.or k') ↔
      ((Rtmp.RtmpUrl.parse settings.destination.url).isOk = true → settings.destination.keyMode = .stored → own = none →
        k.getD [] = k'.getD []) := by
  unfold Settings.relayDestination
  cases parsed : Rtmp.RtmpUrl.parse settings.destination.url with
  | error e => exact iff_of_true rfl fun parses => absurd parses Bool.false_ne_true
  | ok u =>
    cases mode : settings.destination.keyMode with
    | passthrough => exact iff_of_true rfl fun _ stored => absurd stored nofun
    | stored =>
      cases own with
      | some key => exact iff_of_true rfl fun _ _ none_ => absurd none_ nofun
      | none =>
        simp only [Option.none_or, Option.some.injEq, Destination.mk.injEq, DestinationKey.fixed.injEq, true_and,
          true_implies]
        exact ⟨fun same _ => same, fun same => same rfl⟩

/-- The relay's destination is right unless another key is found than the one that is kept. -/
theorem destination_iff (keyed : (AppState.changeKey records a.key key s.secrets).2 = .ok ()) :
    (staged records format a key change s).destination records a.read =
        (staged records format a key change s).destination records {} ↔
      (Needs s (change s.config).1 →
        keyIn records (change s.config).1.destination.url
            (withChanges format s.saved s.config (change s.config).1).destination.url
            ((AppState.changeKey records a.key key s.secrets).1.found a.read DESTINATION_KEY) =
          keyIn records (change s.config).1.destination.url
            (withChanges format s.saved s.config (change s.config).1).destination.url
            (key.leaves records (s.secrets.copy DESTINATION_KEY))) := by
  rw [← changeKey_ok keyed, ← Secrets.value_found, ← Secrets.value_eq]
  refine (relayDestination_iff ..).trans ⟨?_, ?_⟩
  · exact fun same needs => same needs.parses needs.stored needs.own
  · exact fun same parses stored own => same ⟨parses, stored, own⟩

private theorem Locked.refused_iff (locked : Locked records format a key change s answer)
    (restored : KeyRestored records a key s) :
    Refused records a key s ∧ (∃ e, answer.2 = .error e ∧ e.NothingChanged) ∨
      ¬Refused records a key s ∧ ((∃ why, answer.2 = .error (.relay why)) ∨ ∃ changed, answer.2 = .ok changed) := by
  have going {before} (taken : AppState.keyBefore a.take key s.secrets = .ok before)
      (keyed : (AppState.changeKey records a.key key s.secrets).2 = .ok ()) (saved : refusal a s = none) :
      ¬Refused records a key s := by
    rintro (failed | failed | failed)
    · exact absurd (taken ▸ failed) nofun
    · exact absurd (keyed ▸ failed) nofun
    · exact failed saved
  cases locked with
  | untaken taken => exact .inl ⟨.inl (by rw [taken]; rfl), _, rfl, trivial⟩
  | unkeyed _ keyed => exact .inl ⟨.inr (.inl (by rw [keyed]; rfl)), _, rfl, trivial⟩
  | unsaved _ _ refused | putBack _ _ refused => exact .inl ⟨.inr (.inr (by rw [refused]; nofun)), _, rfl, trivial⟩
  | notPutBack taken keyed refused failed =>
    have done := restored _ taken keyed (by rw [refused]; nofun)
    exact absurd (done.symm.trans failed) nofun
  | unapplied taken keyed saved => exact .inr ⟨going taken keyed saved, .inl ⟨_, rfl⟩⟩
  | done taken keyed saved => exact .inr ⟨going taken keyed saved, .inr ⟨_, rfl⟩⟩

/-- A change is made whole or not at all, unless it goes wrong in one of the three ways. -/
theorem Locked.atomic_iff (locked : Locked records format a key change s answer) (undone : a.key.undo = none)
    (restored : KeyRestored records a key s) :
    Atomic records format key change s s.secrets answer ↔ Sure records format a key change s := by
  have others : ∀ name, name ≠ DESTINATION_KEY →
      (AppState.changeKey records a.key key s.secrets).1.copy name = s.secrets.copy name :=
    fun _ => changeKey_others a.key key s.secrets
  have notLost (keyed : (AppState.changeKey records a.key key s.secrets).2 = .ok ()) : ¬KeyLost a key s :=
    fun lost => absurd (keyed ▸ lost.fails) nofun
  have notUnheard {e} (refused : refusal a s = some e) : ¬Unheard records format a key change s :=
    fun unheard => absurd (refused.symm.trans unheard.saved) nofun
  cases locked with
  | untaken taken =>
    refine iff_of_true (fun _ => ⟨rfl, rfl, rfl, fun _ => rfl⟩) ⟨fun lost => ?_, fun misplaced => ?_, fun unheard => ?_⟩
    · exact absurd (taken ▸ lost.taken) nofun
    · rw [keyBefore_changes misplaced.changes] at taken
      have read := misplaced.taken
      cases found : s.secrets.get a.take DESTINATION_KEY with
      | ok raw =>
        rw [found] at taken
        contradiction
      | error e =>
        rw [found] at read
        contradiction
    · exact absurd (taken ▸ unheard.taken) nofun
  | unkeyed taken keyed =>
    refine Iff.trans (?_ : _ ↔ Unchanged s { s with secrets := (AppState.changeKey records a.key key s.secrets).1 })
      ((unchanged_iff others).trans ((changeKey_error undone keyed).trans ?_))
    · exact ⟨fun atomic => atomic trivial, fun unchanged _ => unchanged⟩
    · refine ⟨fun kept => ⟨fun lost => kept ⟨lost.1, lost.2.2⟩, fun misplaced => ?_, fun unheard => ?_⟩,
        fun sure lost => ?_⟩
      · exact absurd (keyed ▸ misplaced.keyed) nofun
      · exact absurd (keyed ▸ unheard.keyed) nofun
      · refine sure.kept ⟨lost.1, ?_, lost.2⟩
        rw [keyBefore_changes (by rw [lost.1]; nofun)] at taken
        cases found : s.secrets.get a.take DESTINATION_KEY with
        | ok raw => rfl
        | error e =>
          rw [found] at taken
          contradiction
  | unsaved taken keyed refused =>
    obtain rfl := keyBefore_none taken
    refine iff_of_true (fun _ => (unchanged_iff others).mpr (changeKey_ok keyed))
      ⟨notLost keyed, fun misplaced => misplaced.changes rfl, notUnheard refused⟩
  | @putBack raw e taken keyed refused restored =>
    obtain ⟨changes, read⟩ := keyBefore_some taken
    refine Iff.trans (?_ : _ ↔ Unchanged s _) ((unchanged_iff fun name different =>
      (putBack_others a.restore _ raw different).trans (others name different)).trans ?_)
    · exact ⟨fun atomic => atomic trivial, fun unchanged _ => unchanged⟩
    · rw [putBack_ok restored, Secrets.get_eq_copy read]
      refine ⟨fun clear => ⟨notLost keyed, fun misplaced => clear misplaced.misread, notUnheard refused⟩,
        fun sure misread => sure.placed ?_⟩
      exact ⟨changes, by rw [read]; rfl, misread, by rw [keyed]; rfl, by rw [refused]; nofun⟩
  | notPutBack taken keyed refused failed =>
    have done := restored _ taken keyed (by rw [refused]; nofun)
    exact absurd (done.symm.trans failed) nofun
  | unapplied taken keyed saved refused differ =>
    refine iff_of_true nofun ⟨notLost keyed, fun misplaced => misplaced.refused saved, fun unheard => ?_⟩
    exact unheard.applied.elim refused differ
  | done taken keyed saved applied =>
    refine (reflects_iff keyed).trans ⟨fun found => ⟨notLost keyed, fun misplaced => misplaced.refused saved,
      fun unheard => unheard.missed ((destination_iff keyed).mp found unheard.needs)⟩, fun sure => ?_⟩
    refine (destination_iff keyed).mpr fun needs => ?_
    by_contra missed
    exact sure.heard ⟨by rw [taken]; rfl, by rw [keyed]; rfl, saved, applied, needs, missed⟩

/-! ## Other secrets with it -/

/-- The other secrets are as `update` leaves them. -/
def updated (update : Secrets → Secrets × Except SecretError Unit) (s : AppState ρ) : AppState ρ :=
  { s with secrets := (update s.secrets).1 }

/-- Where secrets have to be put back, they are. -/
structure Restores (records : Records) (format : Format ρ ν) (names : List Kept)
    (update : Secrets → Secrets × Except SecretError Unit) (a : Attempt) (key : KeyChange)
    (change : Settings ρ → Settings ρ × R) (s : AppState ρ) : Prop where
  early : ∀ before e, SecretsBefore.take s.secrets names = .ok before → (update s.secrets).2 = .error e →
    (SecretsBefore.restore (update s.secrets).1 before).2 = .ok ()
  locked : (update s.secrets).2 = .ok () → KeyRestored records a key (updated update s)
  late : ∀ before s' e, SecretsBefore.take s.secrets names = .ok before → (update s.secrets).2 = .ok () →
    (updated update s).changeSettingsLocked records format a key change = (s', .error e) → e.NothingChanged →
    (SecretsBefore.restore s'.secrets before).2 = .ok ()

/-- Nothing goes wrong with the change, nor with the other secrets where they have to be put back. -/
def SureOfAll (records : Records) (format : Format ρ ν) (names : List Kept)
    (update : Secrets → Secrets × Except SecretError Unit) (a : Attempt) (key : KeyChange)
    (change : Settings ρ → Settings ρ × R) (s : AppState ρ) : Prop :=
  match SecretsBefore.take s.secrets names, (update s.secrets).2 with
  | .error _, _ => True
  | .ok _, .error _ => ¬Misread s.secrets names
  | .ok _, .ok _ =>
    Sure records format a key change (updated update s) ∧
      (Refused records a key (updated update s) → ¬Misread s.secrets names)

/-- Whether a change is reflected does not depend on the other secrets before it. -/
theorem reflects_with {changed : Settings ρ × R} {others : Secrets}
    (same : secrets.copy DESTINATION_KEY = s.secrets.copy DESTINATION_KEY) :
    Reflects records format key change { s with secrets } others s' changed ↔
      Reflects records format key change s others s' changed := by
  have value : secrets.value {} DESTINATION_KEY = s.secrets.value {} DESTINATION_KEY := by
    rw [Secrets.value_eq, Secrets.value_eq, same]
  constructor
  · intro reflects
    exact ⟨reflects.changed, reflects.config, reflects.saved, value ▸ reflects.key, reflects.others,
      reflects.destination⟩
  · intro reflects
    exact ⟨reflects.changed, reflects.config, reflects.saved, value.symm ▸ reflects.key, reflects.others,
      reflects.destination⟩

/-- Putting the other secrets back undoes their change, and that only. -/
theorem unchanged_restored (s' : AppState ρ) {names : List Kept} {before : List (Kept × Option String)}
    (own : DESTINATION_KEY ∉ names.map Kept.name)
    (named : ∀ name, name ∉ names.map Kept.name → secrets.copy name = s.secrets.copy name)
    (taken : SecretsBefore.take s.secrets names = .ok before)
    (others : ∀ name, name ≠ DESTINATION_KEY → s'.secrets.copy name = secrets.copy name)
    (done : (SecretsBefore.restore s'.secrets before).2 = .ok ()) :
    Unchanged s { s' with secrets := (SecretsBefore.restore s'.secrets before).1 } ↔
      Unchanged { s with secrets } s' ∧ ¬Misread s.secrets names := by
  have list := take_names taken
  have back := restore_names taken done
  constructor
  · intro unchanged
    have same (name : String) : (SecretsBefore.restore s'.secrets before).1.copy name = s.secrets.copy name := by
      rw [← Secrets.value_eq, ← Secrets.value_eq]
      exact unchanged.secrets name
    refine ⟨⟨unchanged.saved, unchanged.config, unchanged.destination, fun name => ?_⟩, back.mp fun name _ => same name⟩
    rw [Secrets.value_eq, Secrets.value_eq]
    by_cases key : name = DESTINATION_KEY
    · subst key
      exact (restore_others _ _ (list ▸ own)).symm.trans ((same _).trans (named _ own).symm)
    · exact others name key
  · rintro ⟨unchanged, clear⟩
    refine ⟨unchanged.saved, unchanged.config, unchanged.destination, fun name => ?_⟩
    have same := unchanged.secrets name
    rw [Secrets.value_eq, Secrets.value_eq] at same ⊢
    by_cases member : name ∈ names.map Kept.name
    · exact back.mpr clear name member
    · exact (restore_others _ _ (list ▸ member)).trans (same.trans (named name member))

private theorem changeSettingsAndSecrets_atomic {names : List Kept}
    {update : Secrets → Secrets × Except SecretError Unit}
    (own : DESTINATION_KEY ∉ names.map Kept.name)
    (named : ∀ name, name ∉ names.map Kept.name → (update s.secrets).1.value {} name = s.secrets.value {} name)
    (undone : a.key.undo = none) (restores : Restores records format names update a key change s) :
    Atomic records format key change s (update s.secrets).1
        (s.changeSettingsAndSecrets records format names update a key change) ↔
      SureOfAll records format names update a key change s := by
  replace named : ∀ name, name ∉ names.map Kept.name → (update s.secrets).1.copy name = s.secrets.copy name := by
    intro name absent
    rw [← Secrets.value_eq, ← Secrets.value_eq]
    exact named name absent
  unfold AppState.changeSettingsAndSecrets SureOfAll
  cases taken : SecretsBefore.take s.secrets names with
  | error e => exact iff_of_true (fun _ => ⟨rfl, rfl, rfl, fun _ => rfl⟩) trivial
  | ok before =>
    have early := restores.early before
    have late := restores.late before
    have put := restores.locked
    dsimp only
    unfold updated at late put ⊢
    cases did : update s.secrets with
    | mk secrets answer =>
    rw [did] at named early late put
    cases answer with
    | error e =>
      have restored := unchanged_restored { s with secrets } own named taken (fun _ _ => rfl) (early e taken rfl)
      refine Iff.trans ⟨fun atomic => atomic trivial, fun unchanged _ => unchanged⟩ (restored.trans ?_)
      exact and_iff_right ⟨rfl, rfl, rfl, fun _ => rfl⟩
    | ok _ =>
      dsimp only
      have locked : Locked records format a key change { s with secrets } _ :=
        changeSettingsLocked_locked a key change _
      cases result : AppState.changeSettingsLocked records format a key change { s with secrets } with
      | mk s' answer =>
      rw [result] at locked
      have whole := locked.atomic_iff undone (put rfl)
      rcases locked.refused_iff (put rfl) with ⟨refused, e, failed, nothing⟩ | ⟨going, ⟨why, failed⟩ | ⟨changed, done⟩⟩
      · obtain rfl : answer = .error e := failed
        have done := late s' e taken rfl result nothing
        have others (name) (different : name ≠ DESTINATION_KEY) : s'.secrets.copy name = secrets.copy name :=
          locked.others different
        rw [imp_iff_right refused, ← whole]
        cases e with
        | save _ | key _ | secret _ =>
          have restored := unchanged_restored s' own named taken others done
          dsimp only
          rw [show SecretsBefore.restore s'.secrets before = (_, .ok ()) from Prod.ext rfl done]
          refine Iff.trans ⟨fun atomic => atomic trivial, fun unchanged _ => unchanged⟩ (restored.trans ?_)
          exact and_congr_left' ⟨fun unchanged _ => unchanged, fun atomic => atomic trivial⟩
        | invalid | keyNotRestored | secretsNotRestored | relay => exact nothing.elim
      · obtain rfl : answer = .error (.relay why) := failed
        exact iff_of_true nofun ⟨whole.mp nofun, fun refused => absurd refused going⟩
      · obtain rfl : answer = .ok changed := done
        refine (reflects_with (named _ own)).symm.trans (whole.trans ?_)
        exact (and_iff_left fun refused => absurd refused going).symm

/-! ## Every change -/

/-- Where no access fails, a secret is put back. -/
theorem putBack_done (name : String) (secrets : Secrets) (raw : Option String) :
    (SecretsBefore.putBack {} name secrets raw).2 = .ok () := by
  cases raw with
  | some raw => exact Secrets.set_done secrets name raw
  | none => exact Secrets.delete_done secrets name

private theorem restore_done (secrets : Secrets) {before : List (Kept × Option String)}
    (free : ∀ e ∈ before, e.1.restore = {}) :
    (SecretsBefore.restore secrets before).2 = .ok () := by
  induction before generalizing secrets with
  | nil => rfl
  | cons e rest ih =>
    obtain ⟨k, raw⟩ := e
    obtain ⟨here, later⟩ := List.forall_mem_cons.mp free
    unfold SecretsBefore.restore
    dsimp only at here ⊢
    rw [here, putBack_done]
    exact ih _ later

private theorem Restores.of_free {names : List Kept} {update : Secrets → Secrets × Except SecretError Unit}
    (free : a.restore = {}) (others : ∀ k ∈ names, k.restore = {}) :
    Restores records format names update a key change s := by
  have each {before} (taken : SecretsBefore.take s.secrets names = .ok before) : ∀ e ∈ before, e.1.restore = {} :=
    fun e member => others e.1 (take_kept taken ▸ List.mem_map_of_mem member)
  refine ⟨fun before e taken _ => restore_done _ (each taken), fun _ raw _ _ _ => ?_,
    fun before s' e taken _ _ _ => restore_done _ (each taken)⟩
  rw [free]
  exact putBack_done ..

/-- Each change of the settings, with other secrets or without, is made whole or not at all, unless it goes wrong
in one of the ways above. -/
theorem settings_change_atomic (undone : a.key.undo = none) :
    (KeyRestored records a key s →
      (Atomic records format key change s s.secrets (s.changeSettingsLocked records format a key change) ↔
        Sure records format a key change s)) ∧
    ∀ (names : List Kept) (update : Secrets → Secrets × Except SecretError Unit),
      DESTINATION_KEY ∉ names.map Kept.name →
      (∀ name, name ∉ names.map Kept.name → (update s.secrets).1.value {} name = s.secrets.value {} name) →
      Restores records format names update a key change s →
      (Atomic records format key change s (update s.secrets).1
          (s.changeSettingsAndSecrets records format names update a key change) ↔
        SureOfAll records format names update a key change s) :=
  ⟨fun restored => (changeSettingsLocked_locked a key change s).atomic_iff undone restored,
    fun _ _ own named restores => changeSettingsAndSecrets_atomic own named undone restores⟩

/-- Settings that are about the destination alone. -/
def destinationFormat : Format Unit ℕ where
  toValue settings :=
    .object [("key_mode", .bool (settings.destination.keyMode = .stored)),
      ("url", .string (String.ofList settings.destination.url))]
  fromValue
    | .object [("key_mode", .bool stored), ("url", .string url)] =>
      some ⟨⟨url.toList, if stored then .stored else .passthrough⟩, ()⟩
    | _ => none

/-- A stream key and a password in the keychain, and a relay that has the key. -/
def keychained : AppState Unit where
  secrets :=
    ⟨some (Function.update (Function.update (fun _ => none) DESTINATION_KEY (some "live_1")) "obs-password"
      (some "old")), .readable fun _ => none⟩
  saved := ⟨⟨"rtmp://live.twitch.tv/app".toList, .stored⟩, ()⟩
  config := ⟨⟨"rtmp://live.twitch.tv/app".toList, .stored⟩, ()⟩
  configPath := true
  keyOverride := none
  keyOverrideUrl := []
  appliedDestination := some ⟨"rtmp://live.twitch.tv/app".toList, .fixed "live_1".toList⟩

/-- The destination is changed to another server. -/
def elsewhere (settings : Settings Unit) : Settings Unit × Unit :=
  ({ settings with destination.url := "rtmp://ingest.example.net/live".toList }, ())

/-- A password is changed and the key forgotten, and the settings cannot be saved: all is put back. -/
theorem settings_change_atomic_full_disk :
    Unchanged keychained (keychained.changeSettingsAndSecrets Records.json destinationFormat
      [⟨"obs-password", {}, {}⟩] (·.set {} "obs-password" "new") { save := some "disk full" } .forget elsewhere).1 := by
  have named (name : String) (absent : name ∉ ["obs-password"]) :
      (keychained.secrets.set {} "obs-password" "new").1.value {} name = keychained.secrets.value {} name := by
    rw [Secrets.value_eq, Secrets.value_eq]
    exact copy_congr ((Secrets.set_sets {} "obs-password" "new" keychained.secrets).others
      fun same => absent (List.mem_singleton.mpr same))
  have sure : SureOfAll Records.json destinationFormat [⟨"obs-password", {}, {}⟩] (·.set {} "obs-password" "new")
      { save := some "disk full" } .forget elsewhere keychained := by
    refine ⟨⟨fun lost => absurd lost.2.2.2.2.2 (by decide), fun misplaced => misplaced.misread.1 rfl,
      fun unheard => absurd unheard.saved nofun⟩, fun _ misread => ?_⟩
    exact misread.elim id fun last => last.2.1 rfl
  have atomic := ((settings_change_atomic rfl).2 [⟨"obs-password", {}, {}⟩] (·.set {} "obs-password" "new") (by decide)
    named (.of_free rfl (by decide))).mpr sure
  exact atomic trivial

/-- The key is forgotten although the answer is that nothing was changed. -/
theorem forgotten_unchanged :
    (keychained.changeSettingsLocked Records.json destinationFormat { key := { read := some "permission denied" } }
        .forget elsewhere).2 = .error (.key (.file "permission denied")) ∧
      keychained.secrets.value {} DESTINATION_KEY = some "live_1" ∧
      (keychained.changeSettingsLocked Records.json destinationFormat { key := { read := some "permission denied" } }
        .forget elsewhere).1.secrets.value {} DESTINATION_KEY = none := by
  refine ⟨rfl, ?_, ?_⟩
  · decide
  · decide

end StreamDelay.Control
