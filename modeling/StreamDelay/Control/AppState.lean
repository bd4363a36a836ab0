import StreamDelay.Control.Changes
import StreamDelay.Control.StreamKey

/-! # Settings changes, from the secrets to the relay

Every change to the settings, the saved stream key and the destination the relay was given is staged, saved, and
only then put in effect.
-/

namespace StreamDelay.Control

open Foundations Config Rtmp

inductive KeyMode where
  | stored
  | passthrough
deriving DecidableEq, Repr

structure DestinationConfig where
  url : Text
  keyMode : KeyMode
deriving DecidableEq, Repr

/-- The settings; what is not about the destination is of any type. -/
structure Settings (ρ : Type) where
  destination : DestinationConfig
  rest : ρ
deriving DecidableEq

/-- Settings as JSON. -/
structure Format (ρ ν : Type) where
  toValue : Settings ρ → Value ν
  fromValue : Value ν → Option (Settings ρ)

inductive DestinationKey where
  | fixed (key : Text)
  | passthrough
deriving DecidableEq, Repr

/-- Where the relay publishes, and with which key. -/
structure Destination where
  url : Text
  key : DestinationKey
deriving DecidableEq, Repr

/-- The relay's destination from settings and the stream key for it. A URL that does not parse gets none. -/
def Settings.relayDestination {ρ : Type} (c : Settings ρ) (key : Option Text) : Option Destination :=
  match RtmpUrl.parse c.destination.url with
  | .error _ => none
  | .ok _ =>
    some ⟨Text.trim c.destination.url,
      match c.destination.keyMode with
      | .passthrough => .passthrough
      | .stored => .fixed (key.getD [])⟩

inductive ChangeError where
  | invalid (why : String)
  /-- Could not save the settings, so nothing was changed. -/
  | save (e : String)
  /-- Could not update the saved stream key, so nothing was changed. -/
  | key (e : SecretError)
  /-- The saved stream key had already been changed and could not be put back. -/
  | keyNotRestored (save : String) (restore : SecretError)
  /-- Could not update the secret store, so nothing was changed. -/
  | secret (e : SecretError)
  /-- Saved passwords or settings had already been changed and could not be put back. -/
  | secretsNotRestored (save : ChangeError) (restore : SecretError)
  /-- Saved and in effect, but the relay could not be given the destination. -/
  | relay (e : String)
deriving DecidableEq, Repr

/-- The key saved here belongs to another server than the command line gave. -/
def COMMAND_LINE_KEY : String :=
  "this run's destination was given on the command line: give its stream key there too (STREAMDELAY_KEY). The key " ++
    "saved here is for the destination in the settings file, and stays as it is."

/-- What a change does to the saved stream key. -/
inductive KeyChange where
  | keep
  /-- Saves `key` for the server of the destination URL `server`. -/
  | save (server key : Text)
  | forget
deriving DecidableEq, Repr

/-- A secret as it is kept before a change, and which accesses fail when it is read and when it is put back. -/
structure Kept where
  name : String
  take : Faults := {}
  restore : Faults := {}
deriving DecidableEq, Repr

/-- Which accesses of one change fail. -/
structure Attempt where
  /-- Reading the stream key as it was. -/
  take : Faults := {}
  /-- Saving or deleting the stream key. -/
  key : Faults := {}
  /-- Saving the settings. -/
  save : Option String := none
  /-- Putting the stream key back. -/
  restore : Faults := {}
  /-- Reading the stream key for the relay. -/
  read : Faults := {}
  /-- Giving the relay its destination. -/
  apply : Option String := none
deriving DecidableEq, Repr

structure AppState (ρ : Type) where
  secrets : Secrets
  /-- The settings in the file. -/
  saved : Settings ρ
  /-- The settings in effect. -/
  config : Settings ρ
  /-- Whether there is a settings file. -/
  configPath : Bool
  /-- Destination key given on the command line, and the URL it was given for. -/
  keyOverride : Option Text
  keyOverrideUrl : Text
  /-- The destination last given to the relay. -/
  appliedDestination : Option Destination

/-- `saved` with every setting that differs between `before` and `after` set as in `after`. -/
def withChanges {ρ ν : Type} [DecidableEq ν] (format : Format ρ ν) (saved before after : Settings ρ) : Settings ρ :=
  (format.fromValue
    (Value.copyChanges (format.toValue saved) (format.toValue before) (format.toValue after))).getD after

namespace SecretsBefore

/-- Fails if one cannot be read: it could not be put back. -/
def take (secrets : Secrets) (names : List Kept) : Except SecretError (List (Kept × Option String)) :=
  names.mapM fun k => (secrets.get k.take k.name).map fun raw => (k, raw)

/-- The value a secret had, or none. -/
def putBack (f : Faults) (name : String) (secrets : Secrets) : Option String → Secrets × Except SecretError Unit
  | some raw => secrets.set f name raw
  | none => secrets.delete f name

/-- Puts back all it can; returns the first error. -/
def restore (secrets : Secrets) : List (Kept × Option String) → Secrets × Except SecretError Unit
  | [] => (secrets, .ok ())
  | (k, raw) :: rest =>
    let (secrets, first) := putBack k.restore k.name secrets raw
    let (secrets, later) := restore secrets rest
    (secrets, match first with
      | .error e => .error e
      | .ok _ => later)

end SecretsBefore

namespace AppState

variable {ρ ν R : Type} [DecidableEq ν] (records : Records) (format : Format ρ ν)

/-- The command-line destination key, unless the destination has since been changed to another server. -/
def keyOverrideFor (s : AppState ρ) (url : Text) : Option Text :=
  s.keyOverride.filter fun _ => !differentServer s.keyOverrideUrl url

/-- The stored stream key, if it may be sent to `url`. -/
def storedKey (f : Faults) (s : AppState ρ) (url : Text) : Option Text :=
  DestKey.forUrl records f url s.saved.destination.url s.secrets

/-- Where the relay should publish with the settings in effect. -/
def destination (f : Faults) (s : AppState ρ) : Option Destination :=
  let url := s.config.destination.url
  s.config.relayDestination ((s.keyOverrideFor url).or (s.storedKey records f url))

/-- Applies `change` to a copy of the settings, saves it and only then puts it in effect. Only the settings
`change` actually changed are saved. -/
def saveSettings (fault : Option String) (change : Settings ρ → Settings ρ × R) (s : AppState ρ) :
    Except String (AppState ρ × Settings ρ × R) :=
  let (after, r) := change s.config
  match if s.configPath then fault else none with
  | some e => .error e
  | none => .ok ({ s with saved := withChanges format s.saved s.config after, config := after }, after, r)

/-- Gives the relay the destination the settings and saved key now call for, if it differs from the one it
has. -/
def syncDestination (f : Faults) (fault : Option String) (s : AppState ρ) : Except String (AppState ρ) :=
  let dest := s.destination records f
  if s.appliedDestination ≠ dest then
    match fault with
    | some e => .error e
    | none => .ok { s with appliedDestination := dest }
  else .ok s

/-- The saved stream key, as `key` says. -/
def changeKey (f : Faults) (key : KeyChange) (secrets : Secrets) : Secrets × Except SecretError Unit :=
  match key with
  | .keep => (secrets, .ok ())
  | .save server key => DestKey.save records f server key secrets
  | .forget => secrets.delete f DESTINATION_KEY

/-- The saved key as it was, to put back if the settings cannot be saved. -/
def keyBefore (f : Faults) (key : KeyChange) (secrets : Secrets) : Except SecretError (Option (Option String)) :=
  if key = .keep then .ok none else (secrets.get f DESTINATION_KEY).map some

/-- Changes the saved stream key as `key` says and the settings with `change`, saves both, then gives the relay
the destination they call for. If the settings cannot be saved, the saved key is put back as it was. -/
def changeSettingsLocked (a : Attempt) (key : KeyChange) (change : Settings ρ → Settings ρ × R) (s : AppState ρ) :
    AppState ρ × Except ChangeError (Settings ρ × R) :=
  match keyBefore a.take key s.secrets with
  | .error e => (s, .error (.key e))
  | .ok before =>
    match changeKey records a.key key s.secrets with
    | (secrets, .error e) => ({ s with secrets }, .error (.key e))
    | (secrets, .ok _) =>
      match saveSettings format a.save change { s with secrets } with
      | .error save =>
        match before with
        | none => ({ s with secrets }, .error (.save save))
        | some raw =>
          let (secrets, restored) := SecretsBefore.putBack a.restore DESTINATION_KEY secrets raw
          ({ s with secrets }, .error (match restored with
            | .ok _ => .save save
            | .error restore => .keyNotRestored save restore))
      | .ok (s, changed) =>
        match syncDestination records a.read a.apply s with
        | .error e => (s, .error (.relay e))
        | .ok s => (s, .ok changed)

/-- `changeSettingsLocked`, changing other secrets too: `update` changes those named in `names` first, and they
are put back as they were if the settings cannot be saved. -/
def changeSettingsAndSecrets (names : List Kept) (update : Secrets → Secrets × Except SecretError Unit)
    (a : Attempt) (key : KeyChange) (change : Settings ρ → Settings ρ × R) (s : AppState ρ) :
    AppState ρ × Except ChangeError (Settings ρ × R) :=
  match SecretsBefore.take s.secrets names with
  | .error e => (s, .error (.secret e))
  | .ok before =>
    match update s.secrets with
    | (secrets, .error e) => ({ s with secrets := (SecretsBefore.restore secrets before).1 }, .error (.secret e))
    | (secrets, .ok _) =>
      match changeSettingsLocked records format a key change { s with secrets } with
      | (s, .ok changed) => (s, .ok changed)
      -- Saved: the change stands.
      | (s, .error (.relay e)) => (s, .error (.relay e))
      | (s, .error e) =>
        match SecretsBefore.restore s.secrets before with
        | (secrets, .ok _) => ({ s with secrets }, .error e)
        | (secrets, .error restore) => ({ s with secrets }, .error (.secretsNotRestored e restore))

end AppState

end StreamDelay.Control
