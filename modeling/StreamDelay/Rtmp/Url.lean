import Mathlib.Tactic.Common
import StreamDelay.Foundations.Text

/-! # Parsing of destination URLs -/

namespace StreamDelay.Rtmp

open Foundations Text

inductive Scheme where
  | rtmp
  | rtmps
deriving DecidableEq, Repr

inductive UrlError where
  | scheme
  | host
  | port
  | app
  | credentials
deriving DecidableEq, Repr

/-- A parsed destination. -/
structure RtmpUrl where
  scheme : Scheme
  host : Text
  port : ℕ
  /-- The first path segment, with a query if present. -/
  app : Text
  /-- `scheme://host[:port]/app`. -/
  tcUrl : Text
  /-- Remaining path segments, if the URL embeds the stream key. -/
  streamKey : Option Text
deriving DecidableEq, Repr

namespace RtmpUrl

def hostForUrl (host : Text) : Text := if ':' ∈ host then '[' :: host ++ [']'] else host

/-- The port of a text that may have one. -/
def readPort (port : Option Text) (default : ℕ) : Except UrlError ℕ :=
  match port with
  | none => .ok default
  | some p =>
    match (parseU16 p).filter fun n => n ≠ 0 with
    | some n => .ok n
    | none => .error .port

/-- The host of an authority, and its port if it has one. -/
def hostParts (authority : Text) : Except UrlError (Text × Option Text) :=
  if authority.head? = some '[' then
    match splitOnce ']' authority.tail with
    | none => .error .host
    | some (host, []) => .ok (host, none)
    | some (host, c :: after) => if c = ':' then .ok (host, some after) else .error .host
  else
    match splitOnce ':' authority with
    | none => .ok (authority, none)
    -- More than one colon: an IPv6 address without its brackets.
    | some (host, port) => if ':' ∈ port then .error .host else .ok (host, some port)

def splitHostPort (authority : Text) (default : ℕ) : Except UrlError (Text × ℕ) :=
  match hostParts authority with
  | .error e => .error e
  | .ok (host, port) =>
    match readPort port default with
    | .error e => .error e
    | .ok port => .ok (host, port)

def schemeText : Scheme → Text
  | .rtmp => "rtmp".toList
  | .rtmps => "rtmps".toList

def defaultPort : Scheme → ℕ
  | .rtmp => 1935
  | .rtmps => 443

def authorityText (scheme : Scheme) (host : Text) (port : ℕ) : Text :=
  if port = defaultPort scheme then hostForUrl host else hostForUrl host ++ ':' :: decimal port

/-- The scheme, and what follows it. -/
def splitScheme (input : Text) : Option (Scheme × Text) :=
  match stripPrefixCi "rtmp://".toList input with
  | some rest => some (.rtmp, rest)
  | none => (stripPrefixCi "rtmps://".toList input).map fun rest => (.rtmps, rest)

/-- The application and the key after it, from the path. -/
def splitPath (path : Text) : Text × Option Text :=
  match splitOnce '/' (trimBy (· = '/') path) with
  | some (app, key) => (app, some key)
  | none => (trimBy (· = '/') path, none)

def make (scheme : Scheme) (host : Text) (port : ℕ) (app : Text) (key : Option Text) : RtmpUrl :=
  ⟨scheme, host, port, app,
    schemeText scheme ++ "://".toList ++ authorityText scheme host port ++ '/' :: app,
    key.filter fun k => k ≠ []⟩

def parse (input : Text) : Except UrlError RtmpUrl :=
  match splitScheme (trim input) with
  | none => .error .scheme
  | some (scheme, rest) =>
    let (authority, path) := (splitOnce '/' rest).getD (rest, [])
    if '@' ∈ authority then .error .credentials
    else if '?' ∈ authority ∨ '#' ∈ authority then .error .host
    else
      match splitHostPort authority (defaultPort scheme) with
      | .error e => .error e
      | .ok (host, port) =>
        if host = [] then .error .host
        else
          let (app, key) := splitPath path
          if app = [] then .error .app else .ok (make scheme host port app key)

/-- The URL without any embedded stream key, or the values of its query. -/
def redacted (u : RtmpUrl) : Text :=
  match splitOnce '?' u.tcUrl with
  | some (base, _) => base ++ "?…".toList
  | none => u.tcUrl

def encrypted (u : RtmpUrl) : Bool := u.scheme = .rtmps

end RtmpUrl

def TWITCH_DOMAINS : List Text := ["twitch.tv".toList, "live-video.net".toList]

def YOUTUBE_DOMAINS : List Text := ["youtube.com".toList]

/-- Whether a host is a domain or a name under it, whatever the case of its letters. -/
def inDomain (host domain : Text) : Bool :=
  if host.length < domain.length then false
  else
    let head := host.take (host.length - domain.length)
    let tail := host.drop (host.length - domain.length)
    tail.map Char.toLower = domain.map Char.toLower ∧ (head = [] ∨ head.getLast? = some '.')

end StreamDelay.Rtmp
