import Mathlib.Tactic.Common
import StreamDelay.Foundations.Machine

/-! # Connecting to the first address that answers

The addresses a destination's name stands for are tried one after another, and each goes on being tried when the next
is started. What an attempt comes to, and when, is the network's to say.
-/

namespace StreamDelay.Relay

variable {α ε : Type}

/-- One of each in turn, and then what is left of the longer. -/
def alternate : List α → List α → List α
  | [], b => b
  | x :: a, [] => x :: a
  | x :: a, y :: b => x :: y :: alternate a b

/-- The order addresses are tried in: alternating between IPv6 and IPv4, the family of the first one first. -/
def order (isIpv6 : α → Bool) (addrs : List α) : List α :=
  let firstV6 := addrs.head?.any isIpv6
  let (a, b) := addrs.partition fun x => isIpv6 x == firstV6
  alternate a b

/-- `connect_first`, between two things that happen. -/
structure Dial (α ε : Type) where
  /-- Addresses not tried yet. -/
  addrs : List α
  /-- Attempts still running, oldest first. -/
  attempts : List α
  lastError : Option ε
  /-- The address that answered, or why none did. -/
  result : Option (Except ε α)

inductive DialEvent (ε : Type) where
  /-- `CONNECT_STAGGER` has passed since the last round. -/
  | stagger
  /-- The attempt at this place answers. -/
  | answered (index : ℕ)
  /-- The attempt at this place fails. -/
  | failed (index : ℕ) (why : ε)

namespace Dial

/-- A round starts the next address; without one, and with no attempt left, the last error is the result. -/
def round (noAddress : ε) (d : Dial α ε) : Dial α ε :=
  match d.addrs with
  | a :: rest => { d with addrs := rest, attempts := d.attempts ++ [a] }
  | [] => if d.attempts.isEmpty then { d with result := some (.error (d.lastError.getD noAddress)) } else d

def start (noAddress : ε) (isIpv6 : α → Bool) (addrs : List α) : Dial α ε :=
  round noAddress ⟨order isIpv6 addrs, [], none, none⟩

/-- What happens, and which address answered. -/
def step (noAddress : ε) (d : Dial α ε) (event : DialEvent ε) : Dial α ε × List (Except ε α) :=
  if d.result.isSome then (d, [])
  else
    match event with
    | .stagger => if d.addrs.isEmpty then (d, []) else (d.round noAddress, [])
    | .answered index =>
      match d.attempts[index]? with
      | none => (d, [])
      | some a => ({ d with result := some (.ok a) }, [.ok a])
    | .failed index why =>
      match d.attempts[index]? with
      | none => (d, [])
      | some _ =>
        ({ d with attempts := d.attempts.eraseIdx index, lastError := some why }.round noAddress, [.error why])

end Dial

end StreamDelay.Relay
