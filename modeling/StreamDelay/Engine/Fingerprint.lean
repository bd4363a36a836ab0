import Mathlib.Tactic.Common
import StreamDelay.Flv.Inspect

/-! # Fingerprints of decoder configuration

The engine remembers what the destination has by a 64-bit hash of the standard library:
SipHash with one compression and three finalization rounds and a zero key, over the slice's length
and then its bytes.
-/

namespace StreamDelay

open Flv (Bytes)

namespace SipHash

structure State where
  v0 : UInt64
  v1 : UInt64
  v2 : UInt64
  v3 : UInt64

def rotl (x : UInt64) (n : UInt64) : UInt64 := (x <<< n) ||| (x >>> (64 - n))

def State.round (s : State) : State :=
  let v0 := s.v0 + s.v1
  let v2 := s.v2 + s.v3
  let v1 := rotl s.v1 13 ^^^ v0
  let v3 := rotl s.v3 16 ^^^ v2
  let v0 := rotl v0 32
  let v2 := v2 + v1
  let v0 := v0 + v3
  let v1 := rotl v1 17 ^^^ v2
  let v3 := rotl v3 21 ^^^ v0
  let v2 := rotl v2 32
  ⟨v0, v1, v2, v3⟩

def State.word (s : State) (m : UInt64) : State :=
  let s := { s with v3 := s.v3 ^^^ m }.round
  { s with v0 := s.v0 ^^^ m }

/-- The initial state for a zero key. -/
def init : State :=
  ⟨0x736f6d6570736575, 0x646f72616e646f6d, 0x6c7967656e657261, 0x7465646279746573⟩

/-- The little-endian value of up to eight bytes. -/
def leWord : Bytes → UInt64
  | [] => 0
  | b :: rest => b.toUInt64 ||| (leWord rest <<< 8)

/-- Absorbs the whole eight-byte words of `b`; every round takes eight bytes of it. -/
def absorb : ℕ → Bytes → State → Bytes × State
  | 0, b, s => (b, s)
  | fuel + 1, b, s =>
    if 8 ≤ b.length then absorb fuel (b.drop 8) (s.word (leWord (b.take 8))) else (b, s)

def hash (b : Bytes) : UInt64 :=
  let (tail, s) := absorb b.length b init
  let s := s.word ((UInt64.ofNat (b.length % 256) <<< 56) ||| leWord tail)
  let s := { s with v2 := s.v2 ^^^ 0xff }.round.round.round
  s.v0 ^^^ s.v1 ^^^ s.v2 ^^^ s.v3

end SipHash

/-- The eight little-endian bytes of a length. -/
def lengthPrefix (n : ℕ) : Bytes := (List.range 8).map fun i => UInt8.ofNat (n / 256 ^ i % 256)

/-- Tells decoder configurations apart without keeping them. -/
def fingerprint (payload : Bytes) : UInt64 :=
  SipHash.hash (lengthPrefix payload.length ++ payload)

end StreamDelay
