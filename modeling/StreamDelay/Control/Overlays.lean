import Mathlib.Data.List.AList
import Mathlib.Logic.Function.Basic
import Mathlib.Tactic.Common
import StreamDelay.Relay.Core

/-! # Overlay pages, and the commands the relay is given

The overlay pages open in OBS, what each says of itself, and the queue of commands between the control server and
the core of the relay. A page is known by its number. What a message says is the JSON reader's to tell.
-/

namespace StreamDelay.Control

open Flv (Bytes)
open Foundations

/-! ## Pages -/

structure Counts where
  /-- Overlay pages connected. -/
  count : ℕ
  /-- Of them, those OBS said are on stream. -/
  active : ℕ
deriving DecidableEq, Repr

/-- For each page: on stream, off stream, or not said yet. -/
abbrev Pages := AList fun _ : ℕ => Option Bool

def Pages.counted (pages : Pages) : Counts :=
  ⟨pages.entries.length, pages.entries.countP fun page => page.2 = some true⟩

structure Overlays where
  next : ℕ
  pages : Pages
  counts : Counts

namespace Overlays

def new : Overlays := ⟨0, ∅, ⟨0, 0⟩⟩

def update (change : Pages → Pages) (o : Overlays) : Overlays :=
  { o with pages := change o.pages, counts := (change o.pages).counted }

/-- The page `o.next` connects. -/
def join (o : Overlays) : Overlays := { o with next := o.next + 1 }.update fun pages => pages.insert o.next none

/-- OBS said whether the page is on stream. -/
def setActive (id : ℕ) (active : Bool) (o : Overlays) : Overlays := o.update fun pages => pages.insert id (some active)

/-- The page is gone. -/
def leave (id : ℕ) (o : Overlays) : Overlays := o.update fun pages => pages.erase id

/-- Whether the slate the page shows may count as covering the stream. -/
def mayConfirm (id : ℕ) (o : Overlays) : Bool := o.pages.lookup id ≠ some (some false)

end Overlays

/-! ## Messages -/

/-- What the overlay page in OBS says. -/
inductive FromOverlay where
  /-- OBS put the page on stream or took it off. -/
  | overlay (active : Bool)
  /-- The page painted the slate for this change. -/
  | slateShown (change : ℕ)
deriving DecidableEq, Repr

def OVERLAY_MESSAGES_PER_SECOND : ℕ := 10

/-- Longer than any message an overlay page sends. -/
def MAX_OVERLAY_MESSAGE : ℕ := 256

/-- Lets `OVERLAY_MESSAGES_PER_SECOND` through each second. -/
structure RateLimit where
  since : ℕ
  taken : ℕ
deriving DecidableEq, Repr

namespace RateLimit

def new (now : ℕ) : RateLimit := ⟨now, 0⟩

/-- The limit a message at `now` is counted against. -/
def renew (now : ℕ) (limit : RateLimit) : RateLimit := if SEC ≤ now - limit.since then ⟨now, 0⟩ else limit

/-- Counts a message; whether it is let through. -/
def allow (now : ℕ) (limit : RateLimit) : RateLimit × Bool :=
  let limit := limit.renew now
  let limit := { limit with taken := limit.taken + 1 }
  (limit, limit.taken ≤ OVERLAY_MESSAGES_PER_SECOND)

end RateLimit

/-! ## The control server and the core -/

/-- An overlay page's connection. -/
structure Connection where
  limit : RateLimit
  /-- It waits for the core's answer, and reads nothing meanwhile. -/
  waiting : Bool
deriving DecidableEq, Repr

/-- A command on the way to the core, and the overlay page that waits for the answer. -/
structure Sending where
  page : Option ℕ
  command : Command
deriving DecidableEq, Repr

/-- The control server and the core of the relay. -/
structure Studio where
  overlays : Overlays
  connection : ℕ → Option Connection
  /-- Dumps asked for, and whether the slate covers the stream for each, not given to the relay yet. -/
  dumps : List PendingDump
  /-- `control`: commands given to the relay, oldest first. -/
  control : List Sending
  core : Core

/-- A request to the control server that changes the delay. -/
inductive Request where
  | setDelay (ms : ℕ) (mode : DelayMode)
  | goLive (when : GoLiveWhen)
  | cancel
deriving DecidableEq, Repr

def Request.command : Request → Command
  | setDelay ms mode => .setDelay ms mode
  | goLive when_ => .goLive when_
  | cancel => .cancel

def CoreEvent.isCommand : CoreEvent → Bool
  | .command .. => true
  | _ => false

/-- What happens to the core besides commands. -/
abbrev Happening := { event : CoreEvent // CoreEvent.isCommand event = false }

inductive StudioEvent where
  /-- An overlay page connects. -/
  | join (now : ℕ)
  /-- A page's message is read. -/
  | say (now id : ℕ) (text : Bytes)
  /-- A page's connection ends. -/
  | leave (id : ℕ)
  | request (asked : Request)
  /-- A dump is asked for, in a mode of its own or the default one; `allowUncovered` takes on that the slate covers
  the stream. -/
  | askDump (mode : DelayMode) (allowUncovered : Bool)
  /-- A dump asked for is given to the relay. -/
  | sendDump (index : ℕ)
  /-- The core takes the oldest command. -/
  | deliver (now : ℕ)
  | other (event : Happening)
deriving DecidableEq

/-- The time of an event that takes one. -/
def StudioEvent.now? : StudioEvent → Option ℕ
  | .join now | .say now _ _ | .deliver now => some now
  | _ => none

namespace Studio

def new (core : Core) : Studio := ⟨.new, fun _ => none, [], [], core⟩

def send (page : Option ℕ) (command : Command) (s : Studio) : Studio :=
  { s with control := s.control ++ [⟨page, command⟩] }

def withConnection (id : ℕ) (c : Option Connection) (s : Studio) : Studio :=
  { s with connection := Function.update s.connection id c }

/-- `AppState::dump`: whether the slate counts as covering the stream. -/
def covered (allowUncovered : Bool) (s : Studio) : Bool := allowUncovered || 0 < s.overlays.counts.active

/-- A message of page `id`, whose connection is `c`. -/
def fromOverlay (read : Bytes → Option FromOverlay) (id : ℕ) (text : Bytes) (c : Connection) (s : Studio) : Studio :=
  if MAX_OVERLAY_MESSAGE < text.length then s
  else
    match read text with
    | some (.overlay active) => { s with overlays := s.overlays.setActive id active }
    | some (.slateShown change) =>
      if s.overlays.mayConfirm id then
        (s.send (some id) (.slateShown change)).withConnection id (some { c with waiting := true })
      else s
    | none => s

/-- A message of page `id` is read. -/
def hear (read : Bytes → Option FromOverlay) (now id : ℕ) (text : Bytes) (c : Connection) (s : Studio) : Studio :=
  let (limit, allowed) := c.limit.allow now
  let c := { c with limit }
  let s := s.withConnection id (some c)
  if allowed then s.fromOverlay read id text c else s

/-- The core has answered a command. -/
def answer (page : Option ℕ) (s : Studio) : Studio :=
  match page with
  | none => s
  | some id => s.withConnection id ((s.connection id).map fun c => { c with waiting := false })

def step (read : Bytes → Option FromOverlay) (s : Studio) : StudioEvent → Studio × List CoreOutput
  | .join now =>
    ({ s with overlays := s.overlays.join }.withConnection s.overlays.next (some ⟨.new now, false⟩), [])
  | .say now id text =>
    match (s.connection id).filter fun c => !c.waiting with
    | none => (s, [])
    | some c => (s.hear read now id text c, [])
  | .leave id =>
    match (s.connection id).filter fun c => !c.waiting with
    | none => (s, [])
    | some _ => ({ s with overlays := s.overlays.leave id }.withConnection id none, [])
  | .request asked => (s.send none asked.command, [])
  | .askDump mode allowUncovered =>
    ({ s with dumps := s.dumps ++ [⟨mode, s.covered allowUncovered⟩] }, [])
  | .sendDump index =>
    match s.dumps[index]? with
    | none => (s, [])
    | some dump =>
      ({ s with dumps := s.dumps.eraseIdx index }.send none (.dump dump.mode dump.cover), [])
  | .deliver now =>
    match s.control with
    | [] => (s, [])
    | sending :: rest =>
      let (core, out) := s.core.step (.command now sending.command)
      ({ s with control := rest, core }.answer sending.page, out)
  | .other event =>
    let (core, out) := s.core.step event
    ({ s with core }, out)

/-- The control server and the core after a sequence of events. -/
abbrev after (read : Bytes → Option FromOverlay) (s : Studio) (events : List StudioEvent) : Studio :=
  Machine.after (step read) s events

end Studio

end StreamDelay.Control
