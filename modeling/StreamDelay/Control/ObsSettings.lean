import StreamDelay.Control.AppState
import StreamDelay.Foundations.IpDisplay

/-! # OBS's stream settings

What they say of the server OBS streams to, and what stream-delay keeps about the OBS it set up.
-/

namespace StreamDelay.Control

open Foundations Foundations.Text Config Rtmp

variable {ν : Type}

/-! ## As OBS has them -/

/-- OBS's stream settings, with the stream key. -/
structure StreamSettings (ν : Type) where
  /-- `rtmp_common` (a listed service) or `rtmp_custom`. -/
  serviceType : Text
  settings : Value ν
deriving DecidableEq

/-- The host of a server URL as it was typed, with the port if any (`server_parts`). -/
def serverHost (server : Text) : Text :=
  let rest := (afterScheme server).getD server
  let authority := rest.takeWhile fun c => c ≠ '/' && c ≠ '?' && c ≠ '#'
  match splitOnce '@' authority.reverse with
  | some (host, _) => host.reverse
  | none => authority
where
  /-- What follows the first `://`. -/
  afterScheme : Text → Option Text
    | ':' :: '/' :: '/' :: rest => some rest
    | _ :: rest => afterScheme rest
    | [] => none

/-- Whether a server is one of Twitch's, by its host. -/
def twitchHost (server : Text) : Bool :=
  let host := match serverHost (trim server) with
    | '[' :: v6 => v6.takeWhile (· ≠ ']')
    | host => host.takeWhile (· ≠ ':')
  TWITCH_DOMAINS.any fun d => inDomain (host.rdropWhile (· = '.')) d

namespace StreamSettings

/-- A setting that is a text. -/
def field (name : String) (s : StreamSettings ν) : Option Text :=
  match s.settings.at? [name] with
  | some (.string t) => some t.toList
  | _ => none

def key (s : StreamSettings ν) : Option Text := (s.field "key").filter fun k => k ≠ []

/-- The Twitch stream key, if OBS is set up for Twitch. -/
def twitchKey (s : StreamSettings ν) : Option Text :=
  let listed := s.serviceType = "rtmp_common".toList &&
    ((s.field "service").getD []).map Char.toLower = "twitch".toList
  if listed || twitchHost ((s.field "server").getD []) then s.key else none

/-- Whether OBS already streams to `server`. -/
def pointsTo (server : Text) (s : StreamSettings ν) : Bool :=
  s.serviceType = "rtmp_custom".toList &&
    (s.field "server").any fun t => t.rdropWhile (· = '/') = server.rdropWhile (· = '/')

/-- A custom server, as stream-delay sets OBS to one. -/
def custom (server key : Text) : StreamSettings ν where
  serviceType := "rtmp_custom".toList
  settings := .object
    [("key", .string (.ofList key)), ("server", .string (.ofList server)), ("use_auth", .bool false)]

/-- The server, if it is an application of stream-delay's name on a custom server. -/
def liveUrl (s : StreamSettings ν) : Option RtmpUrl :=
  match (s.field "server").map RtmpUrl.parse with
  | some (.ok u) => if s.serviceType = "rtmp_custom".toList ∧ u.app = "live".toList then some u else none
  | _ => none

end StreamSettings

/-! ## As stream-delay keeps them -/

/-- A backup of OBS's stream settings; the settings themselves are a secret. -/
structure ObsBackup where
  serviceType : Text
  /-- The OBS they were read from; they are only put back there. -/
  obs : Option Text
  /-- Settings as older versions saved them, without the stream key. -/
  settingsJson : Option String
deriving DecidableEq, Repr

structure ObsConfig where
  host : Text
  port : ℕ
  backup : Option ObsBackup
deriving DecidableEq, Repr

/-- The settings, besides the destination, that setting up OBS has to do with. -/
structure ObsRest where
  obs : ObsConfig
  ingestKey : Option Text
  /-- The destination's service. -/
  service : Text
  /-- Where the web pages are served. -/
  apiBind : IpAddr
deriving DecidableEq, Repr

abbrev ObsAppSettings := Settings ObsRest

/-- Names an OBS, to tell whether two settings mean the same one. -/
def obsId (host : Text) (port : ℕ) : Text :=
  let host := (trim host).map Char.toLower
  if ':' ∈ host ∧ host.head? ≠ some '[' then '[' :: host ++ [']', ':'] ++ IpAddr.numeral 10 port
  else host ++ ':' :: IpAddr.numeral 10 port

/-- The OBS in the settings. -/
def ObsConfig.id (c : ObsConfig) : Text := obsId c.host c.port

/-- Stream key OBS uses towards stream-delay when no ingest key is set. -/
def LOCAL_KEY : Text := "streamdelay".toList

/-- The key stream-delay gives OBS (`urls.obs_key`). -/
def ObsRest.obsKey (c : ObsRest) : Text := (c.ingestKey.filter fun k => k ≠ []).getD LOCAL_KEY

/-- One of stream-delay's own stream keys, which OBS only has if stream-delay set it up. -/
def ownKey (key obsKey : Text) : Bool := key = LOCAL_KEY || key = obsKey

def passthrough (c : ObsAppSettings) : Bool := c.destination.keyMode = .passthrough

/-- Encoders must stream to stream-delay with its ingest key. -/
def ingestKeyRequired (c : ObsAppSettings) : Bool := c.rest.ingestKey.any fun k => k ≠ []

/-- Whether OBS streams to stream-delay at `server` with a key it takes. -/
def setUp (s : StreamSettings ν) (server : Text) (c : ObsAppSettings) (obsKey : Text) : Bool :=
  if s.pointsTo server then
    let key := s.key.getD []
    if ingestKeyRequired c then key = obsKey
    else if passthrough c then key ≠ [] && !ownKey key obsKey
    else true
  else false

/-- A backup of the OBS in the settings is kept. -/
def backedUp (c : ObsAppSettings) : Bool :=
  c.rest.obs.backup.any fun b => b.obs.all fun origin => origin = c.rest.obs.id

inductive ObsError where
  | unreachable (where_ : Text)
  | auth
  /-- OBS is streaming, and its stream settings are not changed then. -/
  | streaming
  | other (why : Text)
deriving DecidableEq, Repr

/-- An answer to a request that is an error. -/
inductive WizardError where
  | refused (status : ℕ) (why : Text)
  | obs (e : ObsError)
  | change (e : ChangeError)
  /-- OBS's own stream settings are back, but stream-delay could not save its settings, so it keeps the backup. -/
  | backupKept (e : ChangeError)
deriving DecidableEq, Repr

/-- The stream key to give OBS: stream-delay's own, unless stream-delay forwards the key OBS streams with. -/
def keyForObs (s : StreamSettings ν) (c : ObsAppSettings) (obsKey : Text) : Except WizardError Text :=
  if !passthrough c then .ok obsKey
  else if ingestKeyRequired c then
    -- Its own key would be refused, and the ingest key forwarded.
    .error (.refused 409 ("OBS must stream to stream-delay with its ingest key (shown on this tab), and with " ++
      "passthrough that is the key stream-delay forwards to the destination. Turn passthrough off on this tab and " ++
      "enter your stream key here.").toList)
  else
    match s.key.filter fun k => !ownKey k obsKey with
    | some k => .ok k
    | none =>
      .error (.refused 409 ("stream-delay forwards the stream key OBS streams with (passthrough), but OBS has no " ++
        "stream key of its own. Enter yours in OBS (Settings → Stream), or turn passthrough off on this tab and " ++
        "enter the key here.").toList)

end StreamDelay.Control
