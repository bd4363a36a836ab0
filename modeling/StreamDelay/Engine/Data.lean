import Mathlib.Tactic.Common
import StreamDelay.Flv.Inspect

/-! # The engine's data

Times are microseconds and timestamps milliseconds, counted in natural numbers; signed offsets
are integers. Sequence numbers, session ids and byte counts are natural numbers too. Ghost data
follows a message through the buffer and is read by no function of the source: the `id` of an entry
(how many messages were received before it), the entry a held frame was made from, the keyframe the
last splice went to, and the provenance of everything sent.
-/

namespace StreamDelay

open Flv (Bytes)

def MS : ℕ := 1000
def SEC : ℕ := 1000000

def MAX_HEADERS : ℕ := 64
def MAX_HEADER_BYTES : ℕ := 1024 * 1024
def HEADER_SHARE_OF_RAM_CAP : ℕ := 8
def MAX_METADATA_BYTES : ℕ := 64 * 1024

/-- A replay that runs out this long before what comes next is due holds its last keyframe. -/
def REPLAY_GAP_HELD_AFTER : ℕ := 2 * SEC

/-- How long a change covered by the slate waits for an overlay to confirm it. -/
def SLATE_CONFIRM_WAIT : ℕ := 2 * SEC

structure EngineConfig where
  maxDelayMs : ℕ := 120000
  headroomMs : ℕ := 10000
  ramCapBytes : ℕ := 512 * 1024 * 1024
  maskMarginMs : ℕ := 1500
  muteUnderSlate : Bool := true
  keepHistory : Bool := true
  restoreAfterReconnect : Bool := false
deriving DecidableEq, Repr

inductive Kind where
  | audio | video | data
deriving DecidableEq, Repr

/-- One value per kind, as the source's array indexed by `Kind::index`. -/
structure PerKind (α : Type) where
  audio : α
  video : α
  data : α
deriving DecidableEq, Repr

namespace PerKind

variable {α : Type}

def const (a : α) : PerKind α := ⟨a, a, a⟩

def get (p : PerKind α) : Kind → α
  | .audio => p.audio
  | .video => p.video
  | .data => p.data

def set (p : PerKind α) (kind : Kind) (a : α) : PerKind α :=
  match kind with
  | .audio => { p with audio := a }
  | .video => { p with video := a }
  | .data => { p with data := a }

@[simp] theorem get_const (a : α) (kind : Kind) : (const a).get kind = a := by cases kind <;> rfl

@[simp] theorem get_set (p : PerKind α) (kind other : Kind) (a : α) :
    (p.set kind a).get other = if other = kind then a else p.get other := by
  cases kind <;> cases other <;> rfl

end PerKind

inductive DelayMode where
  | rewind | mask
deriving DecidableEq, Repr

inductive GoLiveWhen where
  | now | afterAir
deriving DecidableEq, Repr

inductive Command where
  | setDelay (ms : ℕ) (mode : DelayMode)
  | goLive (when : GoLiveWhen)
  | cancel
  | dump (mode : DelayMode) (cover : Bool)
  | slateShown (change : ℕ)
deriving DecidableEq, Repr

inductive DumpOutcome where
  | replay | cover | hold
deriving DecidableEq, Repr

structure Ack where
  targetMs : ℕ
  effectiveMs : ℕ
  pending : Bool
  historyShort : Bool
  dump : Option DumpOutcome
deriving DecidableEq, Repr

inductive EngineError where
  | tooLarge (requestedMs maxMs : ℕ)
  | nothingToDump
  | notEnoughMemory (neededMb capMb : ℕ)
deriving DecidableEq, Repr

/-- `size_of::<Entry>() + 64`, with the entry's size on a 64-bit target. -/
def ENTRY_OVERHEAD : ℕ := 88 + 64

/-- What a buffered message with a payload of `len` bytes counts against the RAM cap. -/
def cost (len : ℕ) : ℕ := len + ENTRY_OVERHEAD

structure Entry where
  seq : ℕ
  arrival : ℕ
  session : ℕ
  kind : Kind
  ts : ℕ
  payload : Bytes
  /-- A point the output can start from. -/
  sync : Bool
  /-- Decoder configuration class, for configuration messages. -/
  config : Option UInt16
  cts : ℤ
  hevcNal : Option UInt8
  nalOffset : Option ℕ
  /-- Ghost: how many messages were received before it. -/
  id : ℕ
deriving DecidableEq, Repr

/-- Stream metadata, and decoder configuration one per kind and class. -/
structure Headers where
  metadata : Option Bytes
  config : List (Kind × UInt16 × Bytes)
deriving DecidableEq, Repr

structure HeaderRec where
  seq : ℕ
  kind : Kind
  class_ : UInt16
  payload : Bytes
deriving DecidableEq, Repr

structure Session where
  id : ℕ
  headers : List HeaderRec
  metadata : Option Bytes
  hasVideo : Bool
  lastVideoTs : Option ℕ
  frameMs : ℕ
deriving DecidableEq, Repr

/-- What a list of retained configuration counts against the RAM cap. -/
def headersCost (headers : List HeaderRec) : ℕ :=
  (headers.map fun h => cost h.payload.length).sum

def Session.cost (s : Session) : ℕ :=
  StreamDelay.cost (s.metadata.elim 0 List.length) + headersCost s.headers

/-- The fields of `Pending::Mask`. -/
structure MaskChange where
  delay : ℕ
  started : ℕ
  anchor : Option ℕ
  mute : Bool
  shown : Option ℕ
  /-- The slate covers a dump, not a delay change. -/
  dump : Bool
deriving DecidableEq, Repr

inductive Pending where
  | none
  | goLiveNow (afterSeq : ℕ)
  | afterAir (markSeq : ℕ)
  | reduce (delay : ℕ)
  | mask (m : MaskChange)
  | dump (delay : ℕ) (started : ℕ) (fromSeq : ℕ) (shown : Option ℕ)
  | hold (fromSeq delay : ℕ)
  | replay (fromSeq delay : ℕ)
deriving DecidableEq, Repr

namespace Pending

/-- The overlay slate is up for this change. -/
def covers : Pending → Bool
  | mask _ | dump .. => true
  | _ => false

/-- A dump building the delay back up: it cannot be cancelled. -/
def afterDump : Pending → Bool
  | replay .. | hold .. | dump .. => true
  | mask m => m.dump
  | _ => false

/-- `dump_delay_mut`: for a dump building the delay back up, the same with another delay. -/
def withDumpDelay (d : ℕ) : Pending → Option Pending
  | replay fromSeq _ => some (replay fromSeq d)
  | hold fromSeq _ => some (hold fromSeq d)
  | dump _ started fromSeq shown => some (dump d started fromSeq shown)
  | mask m => if m.dump then some (mask { m with delay := d }) else Option.none
  | _ => Option.none

/-- Nothing recorded airs: a hold, or a dump waiting for its slate. -/
def holding : Pending → Bool
  | dump .. | hold .. => true
  | _ => false

def isHold : Pending → Bool
  | hold .. => true
  | _ => false

/-- The slate covers what airs almost live after a dump, without its sound. -/
def mutes : Pending → Bool
  | mask m => m.mute
  | _ => false

end Pending

/-- The last keyframe that aired before a hold, sent again about once a second. -/
structure HoldFrame where
  payload : Bytes
  cts : ℤ
  frameMs : ℕ
  headers : Headers
  last : ℕ
  next : ℕ
  needsHeaders : Bool
  /-- Ghost: the buffered keyframe it was made from. -/
  entry : Entry
deriving DecidableEq, Repr

structure Output where
  connected : Bool
  generation : ℕ
  nextSeq : ℕ
  delay : ℕ
  target : ℕ
  tsOffset : ℤ
  fresh : Bool
  needSync : Bool
  started : Bool
  currentSession : Option ℕ
  lastOutTs : ℕ
  lastKindTs : PerKind (Option ℕ)
  lastPts : ℤ
  skipLeadingAfter : Option ℕ
  gate : Option (ℕ × ℕ)
  pendingHeaders : Bool
  sentHeaders : List (Kind × UInt16 × UInt64)
  sentMetadata : Option Bytes
  pending : Pending
  maskVisible : Bool
  historyShort : Bool
  historyThen : ℕ
  memoryShort : Bool
  hold : Option HoldFrame
  slateChange : ℕ
  slateUnconfirmed : Bool
  coverLost : Bool
  grewOnReconnect : Bool
  endMark : Option ℕ
  splices : ℕ
  dropped : ℕ
  sentBytes : ℕ
  firstEmitted : Option ℕ
  /-- Ghost: how many messages were sent on the connection. -/
  sent : ℕ
  /-- Ghost: the keyframe the last splice went to, until the cursor passes it, with how many messages
  were sent before the splice. -/
  landing : Option (Entry × ℕ)
deriving DecidableEq, Repr

/-- Rolling ingest statistics. -/
structure IngestTracker where
  window : List (ℕ × ℕ × Bool) := []
  videoCodec : Option Flv.VideoCodec := none
  audioCodec : Option Flv.AudioCodec := none
  lastKeyTs : Option ℕ := none
  gopMs : Option ℕ := none
  enhanced : Bool := false
  multitrack : Bool := false
deriving DecidableEq, Repr

structure Engine where
  config : EngineConfig
  ring : List Entry
  syncs : List ℕ
  baseSeq : ℕ
  nextSeq : ℕ
  bytes : ℕ
  sessions : List Session
  sessionBytes : ℕ
  ingestActive : Bool
  nextSession : ℕ
  out : Output
  stats : IngestTracker
  /-- Ghost: messages received so far. -/
  received : ℕ
deriving DecidableEq, Repr

/-- A message ready to be sent to the destination. -/
structure OutMsg where
  kind : Kind
  /-- Output timestamp, rewritten and wrapped to 32 bits. -/
  timestamp : ℕ
  payload : Bytes
  /-- Buffer sequence number; `none` for what is sent again. -/
  seq : Option ℕ
deriving DecidableEq, Repr

/-- Ghost: where a message sent comes from. -/
inductive Origin where
  | buffered (e : Entry)
  | config (class_ : UInt16)
  | metadata
  | held (e : Entry) (cts : ℤ)
deriving DecidableEq, Repr

/-- A message moved out of the engine, with its timestamp before wrapping, its provenance and whether
the slate was up. -/
structure Sent where
  msg : OutMsg
  ts : ℕ
  origin : Origin
  masked : Bool
  /-- For the keyframe a splice landed on: how many messages were sent on the connection before the
  splice. For a held frame: before it and its headers. -/
  jump : Option ℕ
deriving DecidableEq, Repr

namespace Sent

def make (kind : Kind) (t : ℕ) (payload : Bytes) (seq : Option ℕ) (origin : Origin)
    (masked : Bool) (jump : Option ℕ := none) : Sent :=
  ⟨⟨kind, t % 2 ^ 32, payload, seq⟩, t, origin, masked, jump⟩

/-- The buffered message it is, if it is one. -/
def entry? (s : Sent) : Option Entry :=
  match s.origin with
  | .buffered e => some e
  | _ => none

/-- The message of the buffer whose content it shows: itself, or the keyframe held. -/
def content? (s : Sent) : Option Entry :=
  match s.origin with
  | .buffered e | .held e _ => some e
  | _ => none

end Sent

namespace Engine

def new (config : EngineConfig) : Engine where
  config := config
  ring := []
  syncs := []
  baseSeq := 0
  nextSeq := 0
  bytes := 0
  sessions := []
  sessionBytes := 0
  ingestActive := false
  nextSession := 1
  out :=
    { connected := false
      generation := 0
      nextSeq := 0
      delay := 0
      target := 0
      tsOffset := 0
      fresh := true
      needSync := true
      started := false
      currentSession := none
      lastOutTs := 0
      lastKindTs := .const none
      lastPts := 0
      skipLeadingAfter := none
      gate := none
      pendingHeaders := false
      sentHeaders := []
      sentMetadata := none
      pending := .none
      maskVisible := false
      historyShort := false
      historyThen := 0
      memoryShort := false
      hold := none
      slateChange := 0
      slateUnconfirmed := false
      coverLost := false
      grewOnReconnect := false
      endMark := none
      splices := 0
      dropped := 0
      sentBytes := 0
      firstEmitted := none
      sent := 0
      landing := none }
  stats := {}
  received := 0

end Engine

/-- Rust's `checked_sub`. -/
def checkedSub (a b : ℕ) : Option ℕ := if b ≤ a then some (a - b) else none

theorem checkedSub_eq_some {a b c : ℕ} : checkedSub a b = some c ↔ a = b + c := by
  unfold checkedSub
  split
  · simp only [Option.some.injEq]
    omega
  · simp only [reduceCtorEq, false_iff]
    omega

end StreamDelay
