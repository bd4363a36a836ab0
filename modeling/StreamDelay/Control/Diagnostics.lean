import Mathlib.Tactic.Common
import StreamDelay.Foundations.IpText
import StreamDelay.Foundations.Rewrite

/-! # What a diagnostics bundle shows

Secrets, keys and tokens, the home directory and public addresses are written over before a text is given away.
-/

namespace StreamDelay.Control.Diagnostics

open Foundations Text IpText Marked

/-- What the process has of its own: the home directory, and a hash of addresses that no other process has. -/
structure Process where
  home : Option Text
  hash : IpAddr → UInt16

/-- `str::len`. -/
def byteLength (t : Text) : ℕ := (t.map Char.utf8Size).sum

def REDACTED : Text := "<redacted>".toList

/-! ## Keys and tokens -/

/-- `<digits>_<something>`: what follows `live_` in a Twitch stream key. -/
def isTwitchKeyTail (tail : Text) : Bool :=
  let digits := (tail.takeWhile isDigit).length
  0 < digits ∧ digits + 1 < tail.length ∧ tail[digits]? = some '_'

/-- What is written over what follows `start`, where that looks secret. -/
def ruleEdit (start : Text) (looksSecret : Text → Bool) : Edit := fun _ rest =>
  if start <+: rest.text then
    let tail := rest.text.drop start.length
    let value := tail.takeWhile fun c => isAlphanumeric c || c = '_' || c = '-'
    if looksSecret value then some (rest.take start.length ++ put REDACTED, start.length + value.length)
    else some (rest.take start.length, start.length)
  else none

def RULES : List (Text × (Text → Bool)) :=
  [("live_".toList, isTwitchKeyTail), ("token=".toList, fun value => value ≠ [])]

/-! ## The home directory -/

/-- A home of `/` (in a container without a user of its own) is left alone: every path would change. -/
def withoutHome (home : Option Text) (m : Marked) : Marked :=
  match home with
  | some home => if 1 < byteLength home then replace home "~".toList m else m
  | none => m

/-! ## Public addresses -/

def isPublic (ip : IpAddr) : Bool :=
  match ip.canonical with
  | .v4 a b c d =>
    !(IpAddr.isPrivate a b || IpAddr.isLoopback (.v4 a b c d) || IpAddr.isLinkLocal a b ||
      (a, b, c, d) = (0, 0, 0, 0) || (a, b, c, d) = (255, 255, 255, 255) ||
      IpAddr.isDocumentation a b c || IpAddr.isMulticast a ||
      -- Carrier-grade NAT (100.64.0.0/10).
      (a = 100 ∧ 64 ≤ b ∧ b < 128))
  | .v6 s0 _ _ _ _ _ _ _ => s0 &&& 0xe000 = 0x2000

def hexDigit (n : ℕ) : Char := .ofNat (if n < 10 then 48 + n else 87 + n)

/-- A tag that is the same for the same address. -/
def ipTag (p : Process) (ip : IpAddr) : Text :=
  let n := (p.hash ip.canonical).toNat
  "<public IP ".toList ++ [hexDigit (n / 4096), hexDigit (n / 256 % 16), hexDigit (n / 16 % 16), hexDigit (n % 16)] ++
    ">".toList

/-- One more part of a dotted quad, which ends at `i` so far. -/
def quadPart (b : Text) (i part : ℕ) : Option ℕ :=
  if 0 < part ∧ b[i]? ≠ some '.' then none
  else
    let i := if 0 < part then i + 1 else i
    let digits := (((b.drop i).take 3).takeWhile isDigit).length
    if digits = 0 then none else some (i + digits)

/-- Length of the `n.n.n.n` (one to three digits each) at the start of `b`. -/
def dottedQuad (b : Text) : Option ℕ := [0, 1, 2, 3].foldlM (quadPart b) 0

def digitAt (b : Text) (i : ℕ) : Bool := b[i]?.any isDigit

/-- A public address at the start of a text, and its length: four numbers joined by dots that are not part of a longer
dotted number. -/
def v4At (before : Option Char) (b : Text) : Option (ℕ × IpAddr) :=
  let starts := digitAt b 0 && !before.any fun c => isDigit c || c = '.'
  if starts then
    match dottedQuad b with
    | none => none
    | some len =>
      let continues := digitAt b len || (b[len]? = some '.' && digitAt b (len + 1))
      match parseIpv4 (b.take len) with
      | none => none
      | some ip => if !continues && isPublic ip then some (len, ip) else none
  else none

def v4Edit (p : Process) : Edit := fun before rest =>
  (v4At before rest.text).map fun (len, ip) => (put (ipTag p ip), len)

def maskV4 (p : Process) (m : Marked) : Marked := rewrite (v4Edit p) 0 none m

def MAX_V6_RUN : ℕ := 64

/-- The IPv6 address in a run and where it is, if it is public. -/
def publicV6 (run : Text) : Option (ℕ × ℕ × IpAddr) :=
  if MAX_V6_RUN < run.length ∨ run.count ':' < 2 then none
  else
    let stop := (run.rdropWhile fun c => c = ':' || c = '.').length
    let colons := (List.range run.length).filter fun i => run[i]? = some ':'
    let starts := (0 :: colons.map (· + 1)).filter (· < stop)
    match starts.findSome? fun start => (parseIpv6 ((run.take stop).drop start)).map fun ip => (start, ip) with
    | none => none
    | some (start, ip) => if isPublic ip then some (start, stop, ip) else none

/-- A stretch of hex digits, `:` and `.` with its public addresses masked. -/
def maskRun (p : Process) (run : Marked) : Marked :=
  match publicV6 run.text with
  | some (start, stop, ip) => maskV4 p (run.take start) ++ put (ipTag p ip) ++ maskV4 p (run.drop stop)
  | none => maskV4 p run

def isIpChar (c : Char) : Bool := (toDigit 16 c).isSome || c = ':' || c = '.'

def runEdit (p : Process) : Edit := fun _ rest =>
  let run := rest.takeWhile fun x => isIpChar x.char
  if run = [] then none else some (maskRun p run, run.length)

def maskPublicIps (p : Process) (m : Marked) : Marked := rewrite (runEdit p) 0 none m

/-! ## The whole -/

/-- Replaces every known secret, Twitch-style key and URL token. -/
def redact (p : Process) (secrets : List Text) (m : Marked) : Marked :=
  let out := (secrets.filter fun s => 4 ≤ byteLength s).foldl (fun out s => replace s REDACTED out) m
  let out := RULES.foldl (fun out (start, looksSecret) => rewrite (ruleEdit start looksSecret) 0 none out) out
  maskPublicIps p (withoutHome p.home out)

end StreamDelay.Control.Diagnostics
