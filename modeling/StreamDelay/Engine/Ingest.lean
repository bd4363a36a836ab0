import Mathlib.Tactic.Common
import StreamDelay.Engine.Buffer

/-! # Taking in the encoder's stream

A publisher's session, its metadata and its messages. Every message is appended with the time it
arrived, classified as a keyframe or decoder configuration, and counted; then the buffer is brought
back within its limits.
-/

namespace StreamDelay

open Flv (Bytes)

namespace IngestTracker

def WINDOW : ℕ := 2 * SEC

def video (now : ℕ) (info : Flv.VideoInfo) (ts : ℕ) (s : IngestTracker) : IngestTracker where
  window := if info.config then s.window else s.window ++ [(now, 0, true)]
  videoCodec := if info.codec = .other then s.videoCodec else some info.codec
  audioCodec := s.audioCodec
  lastKeyTs := if info.keyframe then some ts else s.lastKeyTs
  gopMs := if info.keyframe then s.lastKeyTs.elim s.gopMs fun last => some (ts - last) else s.gopMs
  enhanced := s.enhanced || info.enhanced
  multitrack := s.multitrack || info.multitrack

def audio (info : Flv.AudioInfo) (s : IngestTracker) : IngestTracker :=
  { s with
    audioCodec := if info.codec = .other then s.audioCodec else some info.codec
    enhanced := s.enhanced || info.enhanced
    multitrack := s.multitrack || info.multitrack }

def bytes (now : ℕ) (n : ℕ) (s : IngestTracker) : IngestTracker :=
  { s with window := (s.window ++ [(now, n, false)]).dropWhile fun w => w.1 + WINDOW < now }

/-- The bitrate over the last couple of seconds, in bits per second. -/
def bitrateBps (s : IngestTracker) : ℕ := (s.window.map fun w => w.2.1).sum * 8 * SEC / WINDOW

end IngestTracker

/-- What `ingest` finds out about a message, with the session and the statistics it updates. -/
structure Classified where
  session : Session
  stats : IngestTracker
  sync : Bool := false
  config : Option UInt16 := none
  cts : ℤ := 0
  hevcNal : Option UInt8 := none
  nalOffset : Option ℕ := none

def classifyVideo (now : ℕ) (ts : ℕ) (info : Flv.VideoInfo) (session : Session)
    (stats : IngestTracker) : Classified where
  session :=
    { session with
      hasVideo := true
      frameMs :=
        if info.config then session.frameMs
        else session.lastVideoTs.elim session.frameMs fun last =>
          if 1 ≤ ts - last ∧ ts - last ≤ 200 then ts - last else session.frameMs
      lastVideoTs := if info.config then session.lastVideoTs else some ts }
  stats := stats.video now info ts
  sync := info.keyframe
  config := if info.config then some info.configClass else none
  cts := info.compositionTime
  hevcNal := info.hevcNalType
  nalOffset := info.nalOffset

def classifyAudio (info : Flv.AudioInfo) (session : Session) (stats : IngestTracker) :
    Classified where
  session := session
  stats := stats.audio info
  sync := !info.config && !session.hasVideo
  config := if info.config then some info.configClass else none

def classify (now : ℕ) (kind : Kind) (ts : ℕ) (payload : Bytes) (session : Session)
    (stats : IngestTracker) : Classified :=
  match kind with
  | .video => (Flv.inspectVideo payload).elim { session, stats } fun info =>
      classifyVideo now ts info session stats
  | .audio => (Flv.inspectAudio payload).elim { session, stats } fun info =>
      classifyAudio info session stats
  | .data => { session, stats }

/-- The oldest configurations go, to leave room for one that costs `need`. -/
def trimHeaders (budget need : ℕ) : List HeaderRec → List HeaderRec
  | [] => []
  | h :: rest =>
    if MAX_HEADERS ≤ (h :: rest).length ∨ budget < headersCost (h :: rest) + need then
      trimHeaders budget need rest
    else h :: rest

/-- An unchanged repeat of the newest configuration kept of its kind and class. -/
def Session.isRepeat (s : Session) (kind : Kind) (class_ : UInt16) (payload : Bytes) : Bool :=
  (s.headers.reverse.find? fun h => h.kind = kind ∧ h.class_ = class_).any fun h =>
    h.payload = payload

/-- Keeps a configuration message, unless it repeats the one kept or is too large. -/
def Session.keepHeader (s : Session) (budget seq : ℕ) (kind : Kind) (config : Option UInt16)
    (payload : Bytes) : Session :=
  match config with
  | none => s
  | some class_ =>
    if !s.isRepeat kind class_ payload ∧ payload.length ≤ MAX_HEADER_BYTES ∧
        StreamDelay.cost payload.length ≤ budget then
      { s with
        headers := trimHeaders budget (StreamDelay.cost payload.length) s.headers ++
          [⟨seq, kind, class_, payload⟩] }
    else s

namespace Engine

/-- The last session gets no more messages: if none is buffered, nothing needs it. -/
def popIdleSession (e : Engine) : Engine :=
  match e.sessions.getLast? with
  | some last =>
    if e.ring.getLast?.all fun x => x.session ≠ last.id then
      { e with sessions := e.sessions.dropLast }
    else e
  | none => e

/-- A publisher connected. -/
def ingestStart (_now : ℕ) (e : Engine) : Engine :=
  -- Unless a broadcast is still running, what is left of an earlier stream must not air.
  let e := if e.out.started then e else e.dropBuffer
  let e := e.popIdleSession
  let session : Session := ⟨e.nextSession, [], none, false, none, 33⟩
  let e :=
    { e with
      nextSession := e.nextSession + 1
      sessions := e.sessions ++ [session] }.countSessions
  { e with ingestActive := true, stats := {} }

/-- The publisher disconnected. Buffered content keeps draining. -/
def ingestEnd (_now : ℕ) (e : Engine) : Engine := { e with ingestActive := false }

/-- Stream metadata, ignored if larger than an encoder's would be. -/
def ingestMetadata (_now : ℕ) (payload : Bytes) (e : Engine) : Engine :=
  if MAX_METADATA_BYTES < payload.length then e
  else
    match e.sessions.getLast? with
    | none => e
    | some s =>
      { e with sessions := e.sessions.dropLast ++ [{ s with metadata := some payload }] }.countSessions

/-- Appends a message of the running session to the ring. -/
def append (now : ℕ) (kind : Kind) (ts : ℕ) (payload : Bytes) (session : Session)
    (e : Engine) : Engine :=
  let c := classify now kind ts payload session e.stats
  let seq := e.nextSeq
  let budget := e.config.ramCapBytes / HEADER_SHARE_OF_RAM_CAP
  let kept := c.session.keepHeader budget seq kind c.config payload
  let entry : Entry :=
    { seq, kind, ts, payload
      arrival := now
      session := kept.id
      sync := c.sync
      config := c.config
      cts := c.cts
      hevcNal := c.hevcNal
      nalOffset := c.nalOffset
      id := e.received }
  let e :=
    { e with
      nextSeq := seq + 1
      syncs := if c.sync then e.syncs ++ [seq] else e.syncs
      stats := c.stats.bytes now payload.length
      bytes := e.bytes + cost payload.length
      sessions := e.sessions.dropLast ++ [kept]
      ring := e.ring ++ [entry]
      received := e.received + 1 }
  if c.config.isSome then e.countSessions else e

/-- Appends one message from the publisher. `ts` is the unwrapped timestamp in ms. -/
def ingest (now : ℕ) (kind : Kind) (ts : ℕ) (payload : Bytes) (e : Engine) : Engine :=
  if !e.ingestActive || payload.isEmpty then e
  else
    match e.sessions.getLast? with
    | none => e
    | some session => (e.append now kind ts payload session).evict now

end Engine

end StreamDelay
