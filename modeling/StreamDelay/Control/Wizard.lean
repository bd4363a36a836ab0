import StreamDelay.Control.ObsSettings
import StreamDelay.Foundations.Session

/-! # The OBS setup wizard

It remembers an OBS, points it at stream-delay once its own stream settings are backed up, and puts those back. One
request is served at a time; between the calls of one, OBS's settings and stream-delay's can change, and a request can
be dropped where it waits. Whether a call to OBS fails, and what it answers, is given with the call. The status of OBS
that answers show is left out.
-/

namespace StreamDelay.Control

open Foundations Foundations.Program Config Rtmp

variable {ν : Type}

def OBS_PASSWORD : String := "obs-password"

def OBS_BACKUP : String := "obs-backup"

/-- The stream key of a backup that an older version made. -/
def OBS_BACKUP_KEY : String := "obs-backup-key"

def OVERLAY_SOURCE : Text := "Stream Delay Overlay".toList

def TWITCH_URL : Text := "rtmps://live.twitch.tv:443/app".toList

/-- How a backup and the OBS it belongs to are written as one text, and read back; and how settings are read that an
older version wrote on their own. -/
structure BackupFormat (ν : Type) where
  encode : Text → Value ν → String
  decode : String → Option (Text × Value ν)
  parse : String → Except String (Value ν)

/-- What does not change while stream-delay runs. -/
structure Installation where
  /-- Where encoders connect. -/
  ingest : IpAddr
  ingestPort : ℕ
  port : ℕ
  allowLan : Bool
  readToken : Text
deriving DecidableEq, Repr

/-- An address another program on this computer reaches a listener at. -/
def reachable : IpAddr → IpAddr
  | .v4 0 0 0 0 => .v4 127 0 0 1
  | .v6 0 0 0 0 0 0 0 0 => .v6 0 0 0 0 0 0 0 1
  | ip => ip

/-- The server OBS streams to, at one of this computer's addresses. -/
def Installation.server (here : Installation) (ip : IpAddr) : Text :=
  "rtmp://".toList ++ ip.withPort here.ingestPort ++ "/live".toList

def Installation.overlay (here : Installation) (ip : IpAddr) : Text :=
  "http://".toList ++ ip.withPort here.port ++ "/overlay?token=".toList ++ here.readToken

structure ObsTarget where
  host : Text
  port : ℕ
  password : Option Text
deriving DecidableEq, Repr

inductive SourceChange where
  | added
  /-- It existed with another URL. -/
  | updated
  | unchanged
deriving DecidableEq, Repr

/-! ## Calls -/

/-- What a request does between the points where it waits. -/
inductive WizardCall (ν : Type) where
  | config
  /-- The destination in the settings file. -/
  | savedUrl
  | secret (name : String)
  | isLocal (host : Text)
  /-- This computer's address as seen from a host. -/
  | localIpTowards (host : Text) (port : ℕ)
  | connect (t : ObsTarget)
  | info (obs : Text)
  | streaming (obs : Text)
  | setStream (obs : Text) (s : StreamSettings ν)
  | addBrowserSource (obs name url : Text)
  /-- `change_settings_and_secrets`; the secrets are changed by two accesses at most. -/
  | changeAll (names : List String) (update : Faults → Faults → Secrets → Secrets × Except SecretError Unit)
      (key : KeyChange) (edit : ObsAppSettings → ObsAppSettings)
  | change (edit : ObsAppSettings → ObsAppSettings)
  | deleteSecret (name : String)

abbrev WizardCall.Answer : WizardCall ν → Type
  | .config => ObsAppSettings
  | .savedUrl => Text
  | .secret _ => Option String
  | .isLocal _ => Bool
  | .localIpTowards _ _ => Option IpAddr
  | .connect _ => Except ObsError Unit
  | .info _ => Except ObsError (Bool × StreamSettings ν)
  | .streaming _ => Except ObsError Bool
  | .setStream _ _ => Except ObsError Unit
  | .addBrowserSource _ _ _ => Except ObsError SourceChange
  | .changeAll _ _ _ _ => Except ChangeError Unit
  | .change _ => Except ChangeError Unit
  | .deleteSecret _ => Except SecretError Unit

inductive WizardReply where
  | connected
  | configured (importedKey overlayAdded : Bool) (messages : List Text)
  | restored
deriving DecidableEq, Repr

abbrev Wizard (ν α : Type) := Program (WizardCall ν) WizardCall.Answer (Except WizardError α)

namespace Wizard

variable {α β ε : Type}

/-- `?`, where the error becomes one of the request's. -/
def orFailAs (p : Program (WizardCall ν) WizardCall.Answer (Except ε α)) (as : ε → WizardError)
    (k : α → Wizard ν β) : Wizard ν β :=
  p.andThen fun
    | .ok a => k a
    | .error e => done (.error (as e))

def fail (status : ℕ) (why : String) : Wizard ν α := done (.error (.refused status why.toList))

variable (records : Records) (backups : BackupFormat ν) (here : Installation)

/-- The password saved for the OBS in the settings, if any. -/
def passwordFor (c : ObsAppSettings) : Program (WizardCall ν) WizardCall.Answer (Option Text) :=
  call (.secret OBS_PASSWORD) fun raw => done <|
    ((raw.map (Saved.ofRaw records)).bind fun saved =>
      if saved.owner.getD c.rest.obs.id = c.rest.obs.id then some saved.value else none).filter fun p => p ≠ []

def connectTo (c : ObsAppSettings) (password : Option Text) (k : Wizard ν α) : Wizard ν α :=
  orFailAs (perform (WizardCall.connect ⟨c.rest.obs.host, c.rest.obs.port, password⟩)) .obs fun () => k

/-- The server the OBS in the settings should stream to. For an OBS on another computer, `127.0.0.1` would be that
computer itself. -/
def serverForObs (c : ObsAppSettings) : Wizard ν Text :=
  call (.isLocal c.rest.obs.host) fun own =>
  if own then done (.ok (here.server (reachable here.ingest)))
  else if here.ingest.isLoopback then
    fail 409 ("The OBS address on this tab belongs to another computer, but stream-delay only accepts streams from " ++
      "this one. If OBS runs on this computer, enter 127.0.0.1 as its address. If it really runs on " ++
      "another computer, start stream-delay with --ingest 0.0.0.0:1935 (see Two-PC setups in the user guide).")
  else if here.ingest.isUnspecified then
    call (.localIpTowards c.rest.obs.host c.rest.obs.port) fun
      | some ip => done (.ok (here.server ip))
      | none => done (.error (.refused 502
          ("could not find this computer's address on the way to ".toList ++ c.rest.obs.host)))
  else done (.ok (here.server here.ingest))

/-- The overlay's address for the OBS in the settings. -/
def overlayForObs (c : ObsAppSettings) : Wizard ν Text :=
  call (.isLocal c.rest.obs.host) fun own =>
  if own then call .config fun linked => done (.ok (here.overlay (reachable linked.rest.apiBind)))
  else if c.rest.apiBind.isLoopback || !here.allowLan then
    fail 409 ("OBS runs on another computer, which would load the overlay from this one, but stream-delay's web " ++
      "pages are only served to this computer. Start stream-delay with --api 0.0.0.0:7788 --allow-lan (see Two-PC " ++
      "setups in the user guide), or set up OBS without the overlay.")
  else if c.rest.apiBind.isUnspecified then
    call (.localIpTowards c.rest.obs.host c.rest.obs.port) fun
      | some ip => done (.ok (here.overlay ip))
      | none => done (.error (.refused 502
          ("could not find this computer's address on the way to ".toList ++ c.rest.obs.host)))
  else done (.ok (here.overlay c.rest.apiBind))

/-- Whether stream-delay set this OBS up before, at an earlier address or with an earlier key. -/
def setUpBefore (s : StreamSettings ν) (c : ObsAppSettings) (obsKey : Text) :
    Program (WizardCall ν) WizardCall.Answer Bool :=
  match s.liveUrl with
  | none => done false
  | some url =>
    if s.key.any fun k => ownKey k obsKey then done true
    else if backedUp c then call (.isLocal url.host) done
    else done false

/-- Sets OBS to `s`, unless it is streaming. -/
def setStream (obs : Text) (s : StreamSettings ν) (k : Wizard ν α) : Wizard ν α :=
  orFailAs (perform (WizardCall.streaming obs)) .obs fun streaming =>
  if streaming then done (.error (.obs .streaming))
  else orFailAs (perform (WizardCall.setStream obs s)) .obs fun () => k

/-- Adds the overlay if asked for, and answers. -/
def withOverlay (obs : Text) (overlay : Option Text) (importedKey : Bool) (messages : List Text) :
    Wizard ν WizardReply :=
  let next := "Next: add the dock (Docks → Custom Browser Docks) with the Dock URL below.".toList
  match overlay with
  | none => done (.ok (.configured importedKey false (messages ++ [next])))
  | some url =>
    orFailAs (perform (WizardCall.addBrowserSource obs OVERLAY_SOURCE url)) .obs fun change =>
    let said := match change with
      | .added => "Added the \"".toList ++ OVERLAY_SOURCE ++ "\" browser source to your current scene.".toList
      | .updated => "Updated the address of the \"".toList ++ OVERLAY_SOURCE ++ "\" source.".toList
      | .unchanged => "The \"".toList ++ OVERLAY_SOURCE ++ "\" source already exists.".toList
    done (.ok (.configured importedKey (change = .added) (messages ++ [said, next])))

def connect (host : Text) (port : ℕ) (password : Text) : Wizard ν WizardReply :=
  let host := Text.trim host
  if host = [] then fail 400 "enter the OBS host, usually 127.0.0.1"
  else
    call .config fun saved =>
    let id := obsId host port
    let sameObs : Bool := id = saved.rest.obs.id
    -- An empty password means to keep the saved one, which only ever goes to the OBS it was saved for.
    (if password ≠ [] then done (some password)
      else if sameObs then passwordFor records saved else done none).andThen fun given =>
    orFailAs (perform (WizardCall.connect ⟨host, port, given⟩)) .obs fun () =>
    orFailAs (perform (WizardCall.changeAll [OBS_PASSWORD]
      (fun f _ secrets =>
        if password ≠ [] then secrets.set f OBS_PASSWORD (records.encode id password)
        else if !sameObs then secrets.delete f OBS_PASSWORD
        else (secrets, .ok ()))
      .keep fun c => { c with rest := { c.rest with obs := { c.rest.obs with host, port } } })) .change fun () =>
    done (.ok .connected)

/-- Backs up OBS's own settings `s` and points it at `server`. -/
def firstTime (importKey : Bool) (s : StreamSettings ν) (server : Text) (config : ObsAppSettings) (obsKey : Text)
    (overlay : Option Text) : Wizard ν WizardReply :=
  let id := config.rest.obs.id
  -- A Twitch key, for Twitch.
  let imported := if importKey then s.twitchKey else none
  (if imported.isSome then call .savedUrl fun saved => done (differentServer saved config.destination.url)
    else done false).andThen fun elsewhere =>
  if elsewhere then
    fail 409 (COMMAND_LINE_KEY ++
      " Set OBS up without moving its stream key in, or start stream-delay without --dest.")
  else
    -- An imported key is stored, and OBS then streams with stream-delay's.
    orFailAs (done (if imported.isSome then .ok obsKey else keyForObs s config obsKey)) (fun e => e) fun key =>
    orFailAs (perform (WizardCall.changeAll [OBS_BACKUP, OBS_BACKUP_KEY]
      (fun f f' secrets =>
        match secrets.set f OBS_BACKUP (backups.encode id s.settings) with
        | (secrets, .error e) => (secrets, .error e)
        | (secrets, .ok ()) => ((secrets.delete f' OBS_BACKUP_KEY).1, .ok ()))
      (imported.elim .keep fun k => .save TWITCH_URL k)
      fun c =>
        let backup : ObsBackup := ⟨s.serviceType, some id, none⟩
        let c := { c with rest := { c.rest with obs := { c.rest.obs with backup := some backup } } }
        if imported.isSome then
          let c := { c with destination := { c.destination with keyMode := .stored } }
          -- A Twitch key only goes to Twitch.
          if (RtmpUrl.parse c.destination.url).isOk && !differentServer TWITCH_URL c.destination.url then c
          else
            { c with
              destination := { c.destination with url := TWITCH_URL }
              rest := { c.rest with service := "twitch".toList } }
        else c)) .change fun () =>
    setStream id (.custom server key) <|
    withOverlay id overlay imported.isSome <|
      (if imported.isSome then ["Your Twitch stream key was moved into stream-delay.".toList] else []) ++
        ["OBS now streams through stream-delay.".toList]

def configure (importKey addOverlay : Bool) : Wizard ν WizardReply :=
  call .config fun config =>
  -- Both addresses first: nothing changes unless OBS can reach them.
  (serverForObs here config).orFail fun server =>
  (if addOverlay then (overlayForObs here config).orFail fun url => done (.ok (some url))
    else done (.ok none)).orFail fun overlay =>
  (passwordFor records config).andThen fun password =>
  connectTo config password <|
  let id := config.rest.obs.id
  orFailAs (perform (WizardCall.info id)) .obs fun (streaming, s) =>
  if streaming then done (.error (.obs .streaming))
  else
    call .config fun linked =>
    let obsKey := linked.rest.obsKey
    if setUp s server config obsKey then
      withOverlay id overlay false ["OBS already streams through stream-delay.".toList]
    else
      (setUpBefore s config obsKey).andThen fun before =>
      if before then
        -- An earlier address or key of stream-delay: keep the backup of OBS's own settings.
        orFailAs (done (keyForObs s config obsKey)) (fun e => e) fun key =>
        setStream id (.custom server key) <|
        withOverlay id overlay false ["OBS now streams to stream-delay's current address.".toList]
      else firstTime backups importKey s server config obsKey overlay

/-- The backed-up settings of the OBS `id`, including the stream key. Refused if they belong to another. -/
def backupSettings (backup : ObsBackup) (id : Text) : Wizard ν (Value ν) :=
  call (.secret OBS_BACKUP) fun raw =>
  -- Saved by an older version, on its own: from the OBS the backup names.
  let legacyObs := backup.obs.getD id
  let saved : Option (Option Text × Value ν) := raw.bind fun raw =>
    match backups.decode raw with
    | some (owner, settings) => some (some owner, settings)
    | none => (backups.parse raw).toOption.map fun settings => (none, settings)
  let given (origin : Text) (settings : Value ν) (key : Option String) : Wizard ν (Value ν) :=
    if origin ≠ id then
      done (.error (.refused 409 ("the saved settings are from the OBS at ".toList ++ origin ++
        "; connect to that OBS to restore them".toList)))
    else done (.ok (match settings, key with
      | .object fields, some key => .object (Fields.insert "key" (.string key) fields)
      | settings, _ => settings))
  match saved, backup.settingsJson with
  | some (owner, settings), _ => given (owner.getD legacyObs) settings none
  -- Not moved yet: the secret store was unavailable at startup.
  | none, some json =>
    match backups.parse json with
    | .error why => fail 500 why
    | .ok settings => call (.secret OBS_BACKUP_KEY) fun key => given legacyObs settings key
  | none, none => fail 500 "the saved OBS settings are missing from the secret store"

def restore : Wizard ν WizardReply :=
  call .config fun config =>
  let id := config.rest.obs.id
  match config.rest.obs.backup with
  | none => fail 400 "there is no saved OBS configuration to restore"
  | some backup =>
    match backup.obs.filter fun origin => origin ≠ id with
    | some origin =>
      done (.error (.refused 409 ("the saved settings are from the OBS at ".toList ++ origin ++
        "; connect to that OBS to restore them".toList)))
    | none =>
      (backupSettings backups backup id).orFail fun settings =>
      (passwordFor records config).andThen fun password =>
      connectTo config password <|
      setStream id ⟨backup.serviceType, settings⟩ <|
      -- The settings first: if they cannot be saved, the backup stays, and restoring again is safe.
      orFailAs (perform (WizardCall.change fun c =>
          { c with rest := { c.rest with obs := { c.rest.obs with backup := none } } }))
        .backupKept fun () =>
      -- Nothing names the backup any more.
      call (.deleteSecret OBS_BACKUP) fun _ =>
      call (.deleteSecret OBS_BACKUP_KEY) fun _ =>
      done (.ok .restored)

end Wizard

/-! ## What the calls do -/

inductive WizardRequest where
  | connect (host : Text) (port : ℕ) (password : Text)
  | configure (importKey addOverlay : Bool)
  | restore
deriving DecidableEq, Repr

/-- How a call is answered, as far as stream-delay does not decide it. -/
structure Reception where
  isLocal : Text → Bool := fun _ => false
  ip : Option IpAddr := none
  streaming : Bool := false
  /-- The call to OBS fails. -/
  fault : Option ObsError := none
  /-- OBS did what a call asked that failed for stream-delay. -/
  carriedOut : Bool := false
  source : SourceChange := .unchanged
  /-- Which accesses to the secrets fail: a read or a deletion, the two of an update, and those that take a copy of a
  secret before a change and put it back. -/
  access : Faults := {}
  first : Faults := {}
  second : Faults := {}
  take : String → Faults := fun _ => {}
  restore : String → Faults := fun _ => {}
  attempt : Attempt := {}

/-- stream-delay and every OBS there is. -/
structure ObsWorld (ν : Type) where
  app : AppState ObsRest
  obs : Text → StreamSettings ν

/-- What happens besides the wizard. -/
inductive ObsHappening (ν : Type) where
  /-- The stream settings are changed in an OBS. -/
  | user (obs : Text) (s : StreamSettings ν)
  /-- The settings are changed from the dashboard. -/
  | settings (a : Attempt) (key : KeyChange) (edit : ObsAppSettings → ObsAppSettings)

namespace ObsWorld

variable {μ : Type} [DecidableEq μ] (records : Records) (format : Format ObsRest μ) (backups : BackupFormat ν)
  (here : Installation)

/-- `change_settings_and_secrets`, where the accesses fail that the reception says. -/
abbrev changeAll (c : Reception) (names : List String)
    (update : Faults → Faults → Secrets → Secrets × Except SecretError Unit) (key : KeyChange)
    (edit : ObsAppSettings → ObsAppSettings) (app : AppState ObsRest) :
    AppState ObsRest × Except ChangeError (ObsAppSettings × Unit) :=
  app.changeSettingsAndSecrets records format (names.map fun name => ⟨name, c.take name, c.restore name⟩)
    (update c.first c.second) c.attempt key fun settings => (edit settings, ())

/-- What a call does, and its answer. -/
def answer (c : Reception) (w : ObsWorld ν) : (i : WizardCall ν) → ObsWorld ν × i.Answer
  | .config => (w, w.app.config)
  | .savedUrl => (w, w.app.saved.destination.url)
  | .secret name => (w, w.app.secrets.value c.access name)
  | .isLocal host => (w, c.isLocal host)
  | .localIpTowards _ _ => (w, c.ip)
  | .connect _ => (w, c.fault.elim (.ok ()) .error)
  | .info obs => (w, c.fault.elim (.ok (c.streaming, w.obs obs)) .error)
  | .streaming _ => (w, c.fault.elim (.ok c.streaming) .error)
  | .setStream obs s =>
    let set := { w with obs := Function.update w.obs obs s }
    match c.fault with
    | none => (set, .ok ())
    | some e => (if c.carriedOut then set else w, .error e)
  | .addBrowserSource _ _ _ => (w, c.fault.elim (.ok c.source) .error)
  | .changeAll names update key edit =>
    let changed := changeAll records format c names update key edit w.app
    ({ w with app := changed.1 }, changed.2.map fun _ => ())
  | .change edit =>
    let changed := AppState.changeSettingsLocked records format c.attempt .keep
      (fun settings => (edit settings, ())) w.app
    ({ w with app := changed.1 }, changed.2.map fun _ => ())
  | .deleteSecret name =>
    let deleted := w.app.secrets.delete c.access name
    ({ w with app := { w.app with secrets := deleted.1 } }, deleted.2)

def happen (w : ObsWorld ν) : ObsHappening ν → ObsWorld ν
  | .user obs s => { w with obs := Function.update w.obs obs s }
  | .settings a key edit =>
    { w with
      app := (AppState.changeSettingsLocked records format a key (fun settings => (edit settings, ())) w.app).1 }

/-- The wizard, for one request at a time. -/
def office : Office WizardRequest Reception (ObsHappening ν) (WizardCall ν) WizardCall.Answer
    (Except WizardError WizardReply) (ObsWorld ν) where
  receive _ w := w
  program
    | .connect host port password => Wizard.connect records host port password
    | .configure importKey addOverlay => Wizard.configure records backups here importKey addOverlay
    | .restore => Wizard.restore records backups
  answer := answer records format
  happen e w := happen records format w e

end ObsWorld

end StreamDelay.Control
