import Mathlib.Tactic.Common
import StreamDelay.Rtmp.Url

/-! # The destination's server

A stream key embedded in a destination URL is kept apart from it, and sent to no other server.
-/

namespace StreamDelay.Control

open Foundations Foundations.Text Rtmp

/-- Splits a stream key embedded in a destination URL from it. -/
def splitUrlKey (url : Text) : Text × Option Text :=
  match RtmpUrl.parse url with
  | .ok u => if u.streamKey.isSome then (u.tcUrl, u.streamKey) else (url, none)
  | .error _ => (url, none)

/-- Services whose stream keys work on several ingest hosts. -/
def SERVICE_DOMAINS : List (List Text) := [TWITCH_DOMAINS, YOUTUBE_DOMAINS]

/-- The service a host is of. -/
def service (host : Text) : Option ℕ :=
  SERVICE_DOMAINS.findIdx? fun domains => domains.any fun d => inDomain host d

/-- Whether `new` publishes to another server than `old`. -/
def differentServer (old new : Text) : Bool :=
  match RtmpUrl.parse new with
  | .error _ => false
  | .ok b =>
    match RtmpUrl.parse old with
    | .error _ => true
    | .ok a =>
      let hostA := a.host.map Char.toLower
      let hostB := b.host.map Char.toLower
      if a.encrypted && !b.encrypted then true
      else
        match service hostA with
        | some s => service hostB ≠ some s
        | none => !(a.scheme = b.scheme && hostA = hostB && a.port = b.port && a.app = b.app)

end StreamDelay.Control
