import Mathlib.Tactic.Common
import StreamDelay.Engine.Buffer
import StreamDelay.Engine.Fingerprint

/-! # Splices, timestamps and what is sent

A splice moves the cursor to a keyframe and shifts timestamps so the output keeps counting up, in words
of 64 bits that wrap. What is sent is the buffered message at the cursor, the decoder configuration and
metadata it needs, or the frame a hold shows.
-/

namespace StreamDelay

open Flv (Bytes)

namespace Engine

/-- The low 64 bits of a number, read as a signed word: what `as i64` gives, and what signed sums and
differences wrap to. -/
def signed (n : ℤ) : ℤ := n.bmod (2 ^ 64)

/-- The earliest timestamp for a keyframe with composition time `cts` to come a frame after
everything already sent, in decode order and in presentation order both. -/
def afterSent (e : Engine) (frame : ℕ) (cts : ℤ) : ℕ :=
  max ((e.out.lastOutTs + max frame 1) % 2 ^ 64)
    (max (signed (e.out.lastPts + (max frame 1 : ℕ) - cts)) 0).toNat

def spliceTo (k delay : ℕ) (e : Engine) : Engine :=
  match e.entry k with
  | none => e
  | some x =>
    let base := if e.out.fresh then 0 else e.afterSent (e.frameMs x.session) x.cts
    { e with
      out :=
        { e.out with
          tsOffset := signed ((base : ℤ) - x.ts)
          fresh := false
          gate := some (x.session, x.ts)
          skipLeadingAfter := if x.hevcNal = some Flv.Hevc.CRA then some k else none
          splices := if e.out.started then e.out.splices + 1 else e.out.splices
          started := true
          nextSeq := k
          delay := delay
          needSync := false
          currentSession := some x.session
          pendingHeaders := true
          landing := some (x, e.out.sent) } }

/-- The output timestamp `out_ts` gives a message. -/
def outTsValue (e : Engine) (kind : Kind) (ts : ℕ) : ℕ :=
  let t := (max (signed (ts + e.out.tsOffset)) 0).toNat
  (e.out.lastKindTs.get kind).elim t (max t)

/-- Records that a message of `kind` is sent at `t`. -/
def recordTs (kind : Kind) (t : ℕ) (e : Engine) : Engine :=
  { e with
    out :=
      { e.out with
        lastKindTs := e.out.lastKindTs.set kind (some t)
        lastOutTs := max e.out.lastOutTs t } }

/-- Ghost: counts what is sent on the connection. -/
def tally (sent : List Sent) (e : Engine) : Engine :=
  { e with out := { e.out with sent := e.out.sent + sent.length } }

def countSent (payload : Bytes) (e : Engine) : Engine :=
  { e with out := { e.out with sentBytes := e.out.sentBytes + payload.length } }

/-- The metadata and decoder configuration in effect at sequence number `seq` of encoder session
`session`. Kept in order, so a later version replaces an earlier one. -/
def headersAt (e : Engine) (session seq : ℕ) : Headers :=
  match e.sessions.find? fun s => s.id = session with
  | none => ⟨none, []⟩
  | some s =>
    ⟨s.metadata,
      (s.headers.filter fun h => h.seq < seq).foldl
        (fun config h =>
          config.filter (fun c => !(c.1 = h.kind ∧ c.2.1 = h.class_)) ++
            [(h.kind, h.class_, h.payload)])
        []⟩

/-- The destination already has this configuration. -/
def hasHeader (e : Engine) (kind : Kind) (class_ : UInt16) (payload : Bytes) : Bool :=
  (kind, class_, fingerprint payload) ∈ e.out.sentHeaders

/-- `mark_header_sent` for a configuration the destination does not have. -/
def markHeader (kind : Kind) (class_ : UInt16) (payload : Bytes) (e : Engine) : Engine :=
  { e with
    out :=
      { e.out with
        sentHeaders :=
          e.out.sentHeaders.filter (fun c => !(c.1 = kind ∧ c.2.1 = class_)) ++
            [(kind, class_, fingerprint payload)] } }

/-- Sends metadata at input timestamp `ts`, if the destination has not seen it yet. -/
def emitMetadata (ts : ℕ) (metadata : Option Bytes) (e : Engine) : Engine × List Sent :=
  match metadata with
  | none => (e, [])
  | some m =>
    if e.out.sentMetadata = some m then (e, [])
    else
      let t := e.outTsValue .data ts
      let e := e.recordTs .data t
      ({ e with out := { e.out with sentMetadata := some m } },
        [.make .data t m none .metadata e.out.maskVisible])

/-- Sends decoder configuration at input timestamp `ts`, where the destination lacks it. -/
def emitConfigs (ts : ℕ) : List (Kind × UInt16 × Bytes) → Engine → Engine × List Sent
  | [], e => (e, [])
  | (kind, class_, payload) :: rest, e =>
    if e.hasHeader kind class_ payload then emitConfigs ts rest e
    else
      let e := e.markHeader kind class_ payload
      let t := e.outTsValue kind ts
      let (next, out) := emitConfigs ts rest ((e.recordTs kind t).countSent payload)
      (next, .make kind t payload none (.config class_) e.out.maskVisible :: out)

/-- Sends metadata and decoder configuration, as of input timestamp `ts`. -/
def emitHeadersOf (ts : ℕ) (headers : Headers) (e : Engine) : Engine × List Sent :=
  let (e, metadata) := e.emitMetadata ts headers.metadata
  let (e, configs) := e.emitConfigs ts headers.config
  (e, metadata ++ configs)

def headersDone (e : Engine) : Engine := { e with out := { e.out with pendingHeaders := false } }

/-- Sends metadata and decoder configuration valid at the splice point, if the destination has
not seen them yet. -/
def emitHeaders (e : Engine) : Engine × List Sent :=
  match e.entry e.out.nextSeq with
  | none => (e.headersDone, [])
  | some x => e.headersDone.emitHeadersOf x.ts (e.headersAt x.session x.seq)

/-! ## The message at the cursor -/

/-- `emit_entry` for a configuration message. -/
def emitConfigEntry (x : Entry) (class_ : UInt16) (e : Engine) : Engine × List Sent :=
  if e.hasHeader x.kind class_ x.payload then (e, [])
  else
    let e := e.markHeader x.kind class_ x.payload
    let t := e.outTsValue x.kind x.ts
    ((e.recordTs x.kind t).countSent x.payload,
      [.make x.kind t x.payload (some x.seq) (.buffered x) e.out.maskVisible])

/-- What becomes of a video message while the leading pictures of a spliced CRA are left out. -/
def skipLeading (x : Entry) (e : Engine) : Engine × Bool :=
  match x.kind, e.out.skipLeadingAfter, x.hevcNal with
  | .video, some k, some t =>
    if k < x.seq && (Flv.Hevc.isTrailing t || Flv.Hevc.isIrap t) then
      ({ e with out := { e.out with skipLeadingAfter := none } }, false)
    else (e, Flv.Hevc.isLeading t)
  | _, _, _ => (e, false)

/-- Other kinds from before the splice point are left out, so they stay in sync with video. -/
def gated (e : Engine) (x : Entry) : Bool :=
  x.kind ≠ .video && e.out.gate.any fun g => g.1 = x.session && x.ts < g.2

def drop (e : Engine) : Engine := { e with out := { e.out with dropped := e.out.dropped + 1 } }

/-- The payload of a media message: the CRA a splice lands on is marked as a broken link. -/
def mediaPayload (e : Engine) (x : Entry) : Bytes :=
  if e.out.skipLeadingAfter = some x.seq then
    (x.nalOffset.bind fun offset => Flv.Hevc.craToBla x.payload offset).getD x.payload
  else x.payload

/-- Records the presentation time of a video frame sent. -/
def recordPts (pts : ℤ) (e : Engine) : Engine :=
  { e with out := { e.out with lastPts := max e.out.lastPts pts } }

/-- Sends a media message. -/
def emitMedia (x : Entry) (e : Engine) : Engine × List Sent :=
  let payload := e.mediaPayload x
  let t := e.outTsValue x.kind x.ts
  let next := e.recordTs x.kind t
  let next := if x.kind = .video then next.recordPts (signed (t + x.cts)) else next
  (next.countSent payload,
    [.make x.kind t payload (some x.seq) (.buffered x) e.out.maskVisible
      ((e.out.landing.filter fun l => l.1 = x).map Prod.snd)])

def emitEntry (e : Engine) : Engine × List Sent :=
  match e.entry e.out.nextSeq with
  | none => (e, [])
  | some x =>
    match x.config with
    | some class_ => e.emitConfigEntry x class_
    | none =>
      match e.skipLeading x with
      | (e, true) => (e.drop, [])
      | (e, false) => if e.gated x then (e.drop, []) else e.emitMedia x

/-! ## The frame a hold shows -/

/-- The last video keyframe that aired, ready to send again during a hold. -/
def airedKeyframe (now : ℕ) (e : Engine) : Option HoldFrame :=
  (e.newestSync fun s => s < e.out.nextSeq).bind fun k =>
    (e.entry k).bind fun x =>
      if x.kind = .video then
        some
          { payload :=
              if x.hevcNal = some Flv.Hevc.CRA then
                (x.nalOffset.bind fun offset => Flv.Hevc.craToBla x.payload offset).getD x.payload
              else x.payload
            cts := x.cts
            frameMs := e.frameMs x.session
            headers := e.headersAt x.session x.seq
            last := now
            next := now
            needsHeaders := false
            entry := x }
      else none

/-- The configuration part of `emit_hold_headers`, at the held frame's timestamp `t`. -/
def emitHoldConfigs (t : ℕ) : List (Kind × UInt16 × Bytes) → Engine → Engine × List Sent
  | [], e => (e, [])
  | (kind, class_, payload) :: rest, e =>
    if e.hasHeader kind class_ payload then emitHoldConfigs t rest e
    else
      let e := (e.markHeader kind class_ payload).countSent payload
      let e := { e with out := { e.out with lastKindTs := e.out.lastKindTs.set kind (some t) } }
      let (next, out) := emitHoldConfigs t rest e
      (next, .make kind t payload none (.config class_) e.out.maskVisible :: out)

/-- Before a held frame on a new connection: the metadata and decoder configuration in effect at
it, at its timestamp `t`. -/
def emitHoldHeaders (headers : Headers) (t : ℕ) (e : Engine) : Engine × List Sent :=
  let (e, metadata) : Engine × List Sent := match headers.metadata with
    | none => (e, [])
    | some m =>
      ({ e with
          out :=
            { e.out with
              sentMetadata := some m
              lastKindTs := e.out.lastKindTs.set .data (some t) } },
        [.make .data t m none .metadata e.out.maskVisible])
  let (e, configs) := e.emitHoldConfigs t headers.config
  ({ e with out := { e.out with lastOutTs := max e.out.lastOutTs t } }, metadata ++ configs)

/-- The timestamp of a held frame sent at `now`: at the clock's pace, after everything sent. -/
def holdTs (now : ℕ) (h : HoldFrame) (e : Engine) : ℕ :=
  let lastVideo := (e.out.lastKindTs.get .video).getD 0
  max ((max e.out.lastOutTs lastVideo + max ((now - h.last) / MS) 1) % 2 ^ 64) (e.afterSent h.frameMs h.cts)

/-- The held frame is due again a second from `now`. -/
def frameShown (now : ℕ) (h : HoldFrame) (e : Engine) : Engine :=
  { e with
    out :=
      { e.out with
        hold := some { h with last := now, next := now + SEC, needsHeaders := false }
        fresh := false } }

def frameHeaders (h : HoldFrame) (t : ℕ) (e : Engine) : Engine × List Sent :=
  if h.needsHeaders then e.emitHoldHeaders h.headers t else (e, [])

/-- Sends the held frame, on a new connection after the headers it needs. -/
def showFrame (now : ℕ) (h : HoldFrame) (e : Engine) : Engine × List Sent :=
  let t := e.holdTs now h
  let before := e.out.sent
  let (e, headers) := (e.frameShown now h).frameHeaders h t
  let next := (e.recordTs .video t).recordPts (signed (t + h.cts))
  let sent := headers ++
    [.make .video t h.payload none (.held h.entry h.cts) e.out.maskVisible (some before)]
  ((next.countSent h.payload).tally sent, sent)

/-- During a hold, sends the held frame again when it is due. -/
def emitHoldFrame (now : ℕ) (e : Engine) : Engine × List Sent × Option ℕ :=
  match e.out.hold with
  | none => (e, [], none)
  | some h =>
    if now < h.next then (e, [], some h.next)
    else
      let (e, sent) := e.showFrame now h
      (e, sent, some (now + SEC))

/-- Stops sending the held frame: the output's timestamps carry on from then. -/
def endHold (now : ℕ) (e : Engine) : Engine :=
  match e.out.hold with
  | none => e
  | some h =>
    { e with
      out :=
        { e.out with hold := none, lastOutTs := (e.out.lastOutTs + (now - h.last) / MS) % 2 ^ 64 } }

end Engine

end StreamDelay
