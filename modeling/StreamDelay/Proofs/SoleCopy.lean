import StreamDelay.Soundness.AtomicChange

/-! # Secrets through changes of the settings

What a change of the settings leaves of a secret it does not name, and of one that it saves again as it was.
-/

namespace StreamDelay.Config.Secrets

variable {s s' t : Secrets} {f : Faults} {name other value : String}

/-- Both places hold of a name what they held. -/
def Alike (name : String) (s s' : Secrets) : Prop :=
  s'.inFile name = s.inFile name ∧ s'.inKeychain name = s.inKeychain name

theorem Alike.refl (name : String) (s : Secrets) : Alike name s s := ⟨rfl, rfl⟩

theorem Alike.trans (first : Alike name s s') (second : Alike name s' t) : Alike name s t :=
  ⟨second.1.trans first.1, second.2.trans first.2⟩

/-- A name has the value in one place at least, and in none another. -/
structure Sole (name value : String) (s : Secrets) : Prop where
  held : s.copy name = some value
  file : ∀ v ∈ s.inFile name, v = value
  keychain : ∀ v ∈ s.inKeychain name, v = value

theorem Sole.alike (sole : Sole name value s) (same : Alike name s s') : Sole name value s' where
  held := by
    unfold copy
    rw [same.1, same.2]
    exact sole.held
  file := by
    rw [same.1]
    exact sole.file
  keychain := by
    rw [same.2]
    exact sole.keychain

theorem sole_of_set (done : (s.set f name value).2 = .ok ()) : Sole name value (s.set f name value).1 := by
  have sets := set_sets f name value s
  rw [done] at sets
  refine ⟨sets.copy_ok, ?_, ?_⟩
  all_goals
    intro v held
    cases sets with
    | inKeychain file keychain | inFile file keychain =>
      simp only [file, keychain, Function.update_self, Option.mem_def, reduceCtorEq] at held
      try exact (Option.some.inj held).symm

/-- A value that is saved again stays, whatever fails. -/
theorem Sole.set (sole : Sole name value s) (f : Faults) : Sole name value (s.set f name value).1 := by
  have sets := set_sets f name value s
  cases answer : (s.set f name value).2 with
  | ok done => exact sole_of_set answer
  | error e =>
    rw [answer] at sets
    cases sets with
    | refused e file keychain => exact sole.alike ⟨congrFun file name, congrFun keychain name⟩
    | twice e there file keychain =>
      have own : (s.set f name value).1.inKeychain name = some value := by rw [keychain, Function.update_self]
      refine ⟨?_, by rw [file]; exact sole.file, fun v held => ?_⟩
      · obtain ⟨v, held⟩ := Option.ne_none_iff_exists'.mp there
        unfold copy
        rw [file, held, Option.some_or, sole.file v held]
      · rw [own] at held
        exact (Option.some.inj held).symm
    | older e undo file keychain =>
      have own : (s.set f name value).1.inFile name = some value := by rw [file, Function.update_self]
      refine ⟨?_, fun v held => ?_, by rw [keychain]; exact sole.keychain⟩
      · unfold copy
        rw [own, Option.some_or]
      · rw [own] at held
        exact (Option.some.inj held).symm

theorem Sole.get (sole : Sole name value s) {found : Option String} (read : s.get f name = .ok found) :
    found = some value := by
  by_cases free : f.read = none
  · exact (get_read free read).trans sole.held
  · obtain ⟨held, something⟩ := get_unread free read
    obtain ⟨v, rfl⟩ := Option.ne_none_iff_exists'.mp something
    rw [sole.keychain v held.symm]

theorem Sole.value_cases (sole : Sole name value s) (f : Faults) :
    s.value f name = none ∨ s.value f name = some value := by
  unfold Secrets.value
  split
  · next found read => exact .inr (sole.get read)
  · exact .inl rfl

end StreamDelay.Config.Secrets

namespace StreamDelay.Control

open Config Config.Secrets

variable {ρ ν R : Type} [DecidableEq ν] {records : Records} {format : Format ρ ν} {secrets : Secrets} {f : Faults}
  {name other value : String}

theorem putBack_alike (f : Faults) (secrets : Secrets) (raw : Option String) (different : other ≠ name) :
    Alike other secrets (SecretsBefore.putBack f name secrets raw).1 := by
  cases raw with
  | some raw => exact (set_sets f name raw secrets).others different
  | none => exact (delete_deletes f name secrets).others different

private theorem restore_alike (secrets : Secrets) (before : List (Kept × Option String))
    (different : name ∉ before.map fun e => e.1.name) :
    Alike name secrets (SecretsBefore.restore secrets before).1 := by
  induction before generalizing secrets with
  | nil => exact .refl ..
  | cons e rest ih =>
    obtain ⟨k, raw⟩ := e
    obtain ⟨here, later⟩ := not_or.mp (List.mem_cons.not.mp different)
    exact (putBack_alike k.restore secrets raw here).trans (ih _ later)

/-- A value that is put back as it was stays. -/
theorem restore_sole {before : List (Kept × Option String)} (sole : Sole name value secrets)
    (own : ∀ e ∈ before, e.1.name = name → e.2 = some value) :
    Sole name value (SecretsBefore.restore secrets before).1 := by
  induction before generalizing secrets with
  | nil => exact sole
  | cons e rest ih =>
    obtain ⟨k, raw⟩ := e
    refine ih ?_ fun e member => own e (List.mem_cons_of_mem _ member)
    by_cases same : k.name = name
    · obtain rfl : raw = some value := own _ (List.mem_cons_self ..) same
      subst same
      exact sole.set _
    · exact sole.alike (putBack_alike k.restore secrets raw (Ne.symm same))

/-- What was taken of a name is what a read found. -/
theorem take_own {names : List Kept} {before : List (Kept × Option String)} (sole : Sole name value secrets)
    (taken : SecretsBefore.take secrets names = .ok before) : ∀ e ∈ before, e.1.name = name → e.2 = some value := by
  induction names generalizing before with
  | nil =>
    obtain rfl := Except.ok.inj taken
    exact fun e member => absurd member List.not_mem_nil
  | cons k rest ih =>
    obtain ⟨raw, before', rfl, read, later⟩ := take_cons taken
    rintro e member own
    rcases List.mem_cons.mp member with rfl | inside
    · obtain rfl : k.name = name := own
      exact sole.get read
    · exact ih later e inside own

private theorem changeKey_alike (f : Faults) (key : KeyChange) (secrets : Secrets)
    (different : name ≠ DESTINATION_KEY) :
    Alike name secrets (AppState.changeKey records f key secrets).1 := by
  cases key with
  | keep => exact .refl ..
  | save server key => exact (set_sets f DESTINATION_KEY _ secrets).others different
  | forget => exact (delete_deletes f DESTINATION_KEY secrets).others different

/-- The change is saved: it was made, or only the relay was not told. -/
def Stands {α : Type} : Except ChangeError α → Prop
  | .ok _ | .error (.relay _) => True
  | .error _ => False

variable (records format) in
theorem locked_cases (a : Attempt) (key : KeyChange) (change : Settings ρ → Settings ρ × R) (s : AppState ρ) :
    (∀ name, name ≠ DESTINATION_KEY →
        Alike name s.secrets (s.changeSettingsLocked records format a key change).1.secrets) ∧
      (Stands (s.changeSettingsLocked records format a key change).2 ∧
          (s.changeSettingsLocked records format a key change).1.config = (change s.config).1 ∨
        ¬Stands (s.changeSettingsLocked records format a key change).2 ∧
          (s.changeSettingsLocked records format a key change).1.config = s.config) := by
  have locked : Locked records format a key change s _ := changeSettingsLocked_locked a key change s
  have keyed (name : String) (different : name ≠ DESTINATION_KEY) :
      Alike name s.secrets (AppState.changeKey records a.key key s.secrets).1 := changeKey_alike _ _ _ different
  generalize s.changeSettingsLocked records format a key change = r at locked
  cases locked with
  | untaken taken => exact ⟨fun _ _ => .refl .., .inr ⟨id, rfl⟩⟩
  | unkeyed | unsaved => exact ⟨keyed, .inr ⟨id, rfl⟩⟩
  | putBack | notPutBack =>
    exact ⟨fun name different => (keyed name different).trans (putBack_alike _ _ _ different), .inr ⟨id, rfl⟩⟩
  | unapplied | done => exact ⟨keyed, .inl ⟨trivial, rfl⟩⟩

variable (records format) in
/-- What a change with other secrets comes to: it stands, or the settings are as they were and the secrets put back. -/
theorem all_cases (names : List Kept) (update : Secrets → Secrets × Except SecretError Unit) (a : Attempt)
    (key : KeyChange) (change : Settings ρ → Settings ρ × R) (s : AppState ρ) :
    let r := s.changeSettingsAndSecrets records format names update a key change
    (Stands r.2 ∧ r.1.config = (change s.config).1 ∧ (update s.secrets).2 = .ok () ∧
        ∀ name, name ≠ DESTINATION_KEY → Alike name (update s.secrets).1 r.1.secrets) ∨
      ¬Stands r.2 ∧ r.1.config = s.config ∧
        (r.1.secrets = s.secrets ∨ ∃ before t, SecretsBefore.take s.secrets names = .ok before ∧
          r.1.secrets = (SecretsBefore.restore t before).1 ∧
            ∀ name, name ≠ DESTINATION_KEY → Alike name (update s.secrets).1 t) := by
  intro r
  unfold r AppState.changeSettingsAndSecrets
  cases taken : SecretsBefore.take s.secrets names with
  | error e => exact .inr ⟨id, rfl, .inl rfl⟩
  | ok before =>
    cases updated : update s.secrets with
    | mk secrets answer =>
    cases answer with
    | error e => exact .inr ⟨id, rfl, .inr ⟨before, secrets, rfl, rfl, fun _ _ => .refl ..⟩⟩
    | ok done =>
      dsimp only
      obtain ⟨alike, config⟩ := locked_cases records format a key change { s with secrets }
      cases ended : AppState.changeSettingsLocked records format a key change { s with secrets } with
      | mk s' answer =>
      rw [ended] at alike config
      cases answer with
      | ok changed => exact .inl ⟨trivial, (config.resolve_right fun no => no.1 trivial).2, rfl, alike⟩
      | error e =>
        cases e with
        | relay e => exact .inl ⟨trivial, (config.resolve_right fun no => no.1 trivial).2, rfl, alike⟩
        | invalid | save | key | keyNotRestored | secret | secretsNotRestored =>
          have kept : s'.config = s.config := (config.resolve_left fun yes => yes.1).2
          dsimp only
          cases put : SecretsBefore.restore s'.secrets before with
          | mk restored answer =>
          cases answer <;>
            exact .inr ⟨id, kept, .inr ⟨before, s'.secrets, rfl, (congrArg Prod.fst put).symm, alike⟩⟩

variable {names : List Kept} {update : Secrets → Secrets × Except SecretError Unit} {a : Attempt} {key : KeyChange}
  {change : Settings ρ → Settings ρ × R} {s : AppState ρ}

/-- A change leaves a secret that it does not name. -/
theorem changeAll_alike (unnamed : name ∉ names.map Kept.name) (different : name ≠ DESTINATION_KEY)
    (updated : Alike name s.secrets (update s.secrets).1) :
    Alike name s.secrets (s.changeSettingsAndSecrets records format names update a key change).1.secrets := by
  rcases all_cases records format names update a key change s with
    ⟨-, -, -, alike⟩ | ⟨-, -, same | ⟨before, t, taken, same, alike⟩⟩
  · exact updated.trans (alike name different)
  · rw [same]
    exact .refl ..
  · rw [same]
    exact (updated.trans (alike name different)).trans (restore_alike t before (by rwa [take_names taken]))

/-- A change that saves a secret again as it is leaves it, whatever fails. -/
theorem changeAll_sole (sole : Sole name value s.secrets) (different : name ≠ DESTINATION_KEY)
    (updated : Sole name value (update s.secrets).1) :
    Sole name value (s.changeSettingsAndSecrets records format names update a key change).1.secrets := by
  rcases all_cases records format names update a key change s with
    ⟨-, -, -, alike⟩ | ⟨-, -, same | ⟨before, t, taken, same, alike⟩⟩
  · exact updated.alike (alike name different)
  · rwa [same]
  · rw [same]
    exact restore_sole (updated.alike (alike name different)) (take_own sole taken)

end StreamDelay.Control
