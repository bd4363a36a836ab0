import Mathlib.Tactic.Common
import Mathlib.Algebra.GroupWithZero.Nat
import StreamDelay.Foundations.Ip

/-! # Encoder connections

The listener admits connections up to a limit, in all and for each address, and makes room by closing one that
does not publish. Wrong stream keys are counted for each address, and answered slowly once it used up its tries.
-/

namespace StreamDelay.Relay

open Foundations

/-- Connections handled at once. -/
def MAX_CONNECTIONS : ℕ := 16

/-- Connections from one non-loopback address (for IPv6, one /64) at once. -/
def MAX_CONNECTIONS_PER_IP : ℕ := 4

/-- The address connections are counted by: of an IPv6 address, the /64. -/
def addrKey (ip : IpAddr) : IpAddr :=
  match ip.canonical with
  | .v6 s0 s1 s2 s3 _ _ _ _ => .v6 s0 s1 s2 s3 0 0 0 0
  | v4 => v4

/-- The address a peer is counted by; none for a local program. -/
def peerKey (ip : IpAddr) : Option IpAddr :=
  if ip.canonical.isLoopback then none else some (addrKey ip.canonical)

/-! ## Open connections -/

structure ConnEntry where
  id : ℕ
  /-- None for loopback peers. -/
  addr : Option IpAddr
  publishing : Bool
  /-- Refused, and only waiting to be told. -/
  refused : Bool
deriving DecidableEq, Repr

/-- Open connections, oldest first. -/
abbrev Conns := List ConnEntry

/-- Takes out the oldest of the connections `among` that is not publishing, preferring one that was refused. -/
def closeOldestIdle (among : ConnEntry → Bool) (v : Conns) : Option (ConnEntry × Conns) :=
  let idle := fun e : ConnEntry => among e && !e.publishing
  ((v.findIdx? fun e => idle e && e.refused).or (v.findIdx? idle)).bind fun i =>
    v[i]?.map fun old => (old, v.eraseIdx i)

/-- What became of a new connection: those closed for it, and whether it got in. -/
structure Admission where
  closed : List ConnEntry
  admitted : Bool
deriving DecidableEq, Repr

/-- The connections of address `addr`, at their limit. -/
def addrFull (addr : Option IpAddr) (v : Conns) : Bool :=
  addr.isSome && MAX_CONNECTIONS_PER_IP ≤ v.countP fun e => e.addr = addr

/-- The second half of `admitConn`: room among all connections, and the new one's entry. -/
def admitAmongAll (id : ℕ) (addr : Option IpAddr) (closed : List ConnEntry) (v : Conns) : Conns × Admission :=
  if MAX_CONNECTIONS ≤ v.length then
    match closeOldestIdle (fun _ => true) v with
    | none => (v, ⟨closed, false⟩)
    | some (old, v) => (v ++ [⟨id, addr, false, false⟩], ⟨closed ++ [old], true⟩)
  else (v ++ [⟨id, addr, false, false⟩], ⟨closed, true⟩)

def admitConn (id : ℕ) (addr : Option IpAddr) (v : Conns) : Conns × Admission :=
  if addrFull addr v then
    match closeOldestIdle (fun e => e.addr = addr) v with
    | none => (v, ⟨[], false⟩)
    | some (old, v) => admitAmongAll id addr [old] v
  else admitAmongAll id addr [] v

/-- A connection's flags are set by its own task, as long as it has an entry. -/
def setFlags (id : ℕ) (set : ConnEntry → ConnEntry) (v : Conns) : Conns :=
  v.map fun e => if e.id = id then set e else e

/-- What can happen to the connections, in any order. -/
inductive ConnOp where
  /-- A peer connects. -/
  | accept (peer : IpAddr)
  /-- A connection asks to publish. -/
  | publish (id : ℕ)
  /-- It is refused. -/
  | refuse (id : ℕ)
  /-- It stops publishing. -/
  | unpublish (id : ℕ)
  /-- Its task ends, and its slot is dropped. -/
  | leave (id : ℕ)
deriving DecidableEq, Repr

/-- The listener: the next connection's number, and the connections open. -/
structure Listener where
  nextId : ℕ
  conns : Conns
deriving DecidableEq, Repr

namespace Listener

def new : Listener := ⟨1, []⟩

def step (l : Listener) : ConnOp → Listener × List Admission
  | .accept peer =>
    let (conns, outcome) := admitConn l.nextId (peerKey peer) l.conns
    (⟨l.nextId + 1, conns⟩, [outcome])
  | .publish id => ({ l with conns := setFlags id (fun e => { e with publishing := true }) l.conns }, [])
  | .refuse id =>
    ({ l with conns := setFlags id (fun e => { e with refused := true, publishing := false }) l.conns }, [])
  | .unpublish id => ({ l with conns := setFlags id (fun e => { e with publishing := false }) l.conns }, [])
  | .leave id => ({ l with conns := l.conns.filter fun e => e.id ≠ id }, [])

end Listener

/-! ## Wrong stream keys -/

/-- In nanoseconds, as the clock counts. -/
def SECOND : ℕ := 1000000000

def REJECT_DELAY : ℕ := SECOND
def SLOW_REJECT_DELAY : ℕ := 10 * SECOND
def ATTACK_REJECT_DELAY : ℕ := 30 * SECOND

/-- Wrong keys one address may send before the rest are answered slowly for the cooldown. -/
def MAX_BAD_KEYS : ℕ := 5
def BAD_KEY_COOLDOWN : ℕ := 60 * SECOND

/-- Wrong keys from all addresses within the window that mean someone is guessing from many. -/
def MAX_BAD_KEYS_OVERALL : ℕ := 20
def BAD_KEY_WINDOW : ℕ := 60 * SECOND
def ATTACK_COOLDOWN : ℕ := 600 * SECOND

/-- Addresses whose wrong keys are remembered at once. -/
def MAX_TRACKED_ADDRESSES : ℕ := 4096

/-- How many wrong keys in a row came from an address, and when the last did. -/
structure Tries where
  addr : IpAddr
  count : ℕ
  last : ℕ
deriving DecidableEq, Repr

structure BadKeyLog where
  /-- One for each address, in no order that matters. -/
  perAddr : List Tries
  /-- When the recent ones came, from any address. -/
  recent : List ℕ
deriving DecidableEq, Repr

namespace BadKeyLog

def new : BadKeyLog := ⟨[], []⟩

/-- `under_attack` lets go of what is no longer recent. -/
def prune (now : ℕ) (log : BadKeyLog) : BadKeyLog :=
  { log with recent := log.recent.dropWhile fun t => BAD_KEY_WINDOW ≤ now - t }

/-- Guessing from many addresses at once: each gets fewer tries, for longer. -/
def underAttack (now : ℕ) (log : BadKeyLog) : Bool := MAX_BAD_KEYS_OVERALL ≤ (log.prune now).recent.length

/-- Tries per address, and how long one that used them up waits. -/
def limits (now : ℕ) (log : BadKeyLog) : ℕ × ℕ :=
  if log.underAttack now then (1, ATTACK_COOLDOWN) else (MAX_BAD_KEYS, BAD_KEY_COOLDOWN)

def get? (addr : IpAddr) (log : BadKeyLog) : Option Tries := log.perAddr.find? fun e => e.addr = addr

/-- The address used up its tries, and not a cooldown ago. -/
def usedUp (addr : IpAddr) (now : ℕ) (log : BadKeyLog) : Bool :=
  (log.get? addr).any fun e => (log.limits now).1 ≤ e.count && now - e.last < (log.limits now).2

/-- The time is noted, with the latest ones, enough to tell. -/
def noteTime (now : ℕ) (log : BadKeyLog) : BadKeyLog :=
  let recent := if MAX_BAD_KEYS_OVERALL ≤ log.recent.length then log.recent.tail else log.recent
  { log with recent := recent ++ [now] }

/-- What may count no more is forgotten. -/
def retain (now : ℕ) (log : BadKeyLog) : BadKeyLog :=
  { log with perAddr := log.perAddr.filter fun e => now - e.last < ATTACK_COOLDOWN }

/-- Where the table is full, the address given up for another: one of those heard of longest ago. Which one, if
there are several, is up to the order of the hash map, here `pick`. -/
def crowdedOut (pick : List Tries → Option IpAddr) (addr : IpAddr) (log : BadKeyLog) : Option IpAddr :=
  if MAX_TRACKED_ADDRESSES ≤ log.perAddr.length ∧ log.get? addr = none then pick log.perAddr else none

def remove (gone : Option IpAddr) (log : BadKeyLog) : BadKeyLog :=
  { log with perAddr := log.perAddr.filter fun e => some e.addr ≠ gone }

/-- One more wrong key from `addr`. One that kept quiet for the cooldown starts afresh. -/
def count (addr : IpAddr) (now : ℕ) (log : BadKeyLog) : BadKeyLog :=
  let e := (log.get? addr).getD ⟨addr, 0, now⟩
  let before := if BAD_KEY_COOLDOWN ≤ now - e.last then 0 else e.count
  { log with perAddr := log.perAddr.filter (fun e => e.addr ≠ addr) ++ [⟨addr, before + 1, now⟩] }

/-- How a wrong key is answered. -/
structure Answer where
  /-- The address it counts for; none for a local program. -/
  addr : Option IpAddr
  now : ℕ
  wait : ℕ
  /-- The address the table gave up for it. -/
  gone : Option IpAddr
deriving DecidableEq, Repr

/-- `record` past the check of the tries: the wrong key counts. -/
def recordQuick (pick : List Tries → Option IpAddr) (addr : IpAddr) (now : ℕ) (log : BadKeyLog) :
    BadKeyLog × Answer :=
  let log := (((log.prune now).noteTime now).prune now).retain now
  let gone := log.crowdedOut pick addr
  ((log.remove gone).count addr now, ⟨some addr, now, REJECT_DELAY, gone⟩)

/-- Records a wrong key from `ip`, and says how long to wait before refusing it. -/
def record (pick : List Tries → Option IpAddr) (ip : IpAddr) (now : ℕ) (log : BadKeyLog) : BadKeyLog × Answer :=
  match peerKey ip with
  | none => (log, ⟨none, now, REJECT_DELAY, none⟩)
  | some addr =>
    if log.usedUp addr now then
      (log.prune now,
        ⟨some addr, now, if log.underAttack now then ATTACK_REJECT_DELAY else SLOW_REJECT_DELAY, none⟩)
    else log.recordQuick pick addr now

/-- Wrong keys one after the other, each with its address and time. -/
def step (pick : List Tries → Option IpAddr) (log : BadKeyLog) (attempt : IpAddr × ℕ) : BadKeyLog × List Answer :=
  ((log.record pick attempt.1 attempt.2).1, [(log.record pick attempt.1 attempt.2).2])

end BadKeyLog

end StreamDelay.Relay
