import Mathlib.Data.Nat.Notation
import Mathlib.Tactic.Common

/-! # Addresses of the Internet

As the standard library has them: four bytes, or eight segments of sixteen bits.
-/

namespace StreamDelay.Foundations

inductive IpAddr where
  | v4 (a b c d : UInt8)
  | v6 (s0 s1 s2 s3 s4 s5 s6 s7 : UInt16)
deriving DecidableEq, Repr

namespace IpAddr

def high (s : UInt16) : UInt8 := (s >>> 8).toUInt8

def low (s : UInt16) : UInt8 := s.toUInt8

/-- `to_canonical`: an IPv4 address mapped into IPv6 is taken as the IPv4 address. -/
def canonical : IpAddr → IpAddr
  | v6 0 0 0 0 0 0xffff s6 s7 => v4 (high s6) (low s6) (high s7) (low s7)
  | ip => ip

def isLoopback : IpAddr → Bool
  | v4 a _ _ _ => a = 127
  | v6 s0 s1 s2 s3 s4 s5 s6 s7 => [s0, s1, s2, s3, s4, s5, s6, s7] = [0, 0, 0, 0, 0, 0, 0, 1]

/-! ## Kinds of IPv4 addresses -/

def isPrivate (a b : UInt8) : Bool := a = 10 ∨ (a = 172 ∧ 16 ≤ b ∧ b ≤ 31) ∨ (a = 192 ∧ b = 168)

def isLinkLocal (a b : UInt8) : Bool := a = 169 ∧ b = 254

def isDocumentation (a b c : UInt8) : Bool :=
  (a, b, c) = (192, 0, 2) ∨ (a, b, c) = (198, 51, 100) ∨ (a, b, c) = (203, 0, 113)

def isMulticast (a : UInt8) : Bool := 224 ≤ a ∧ a ≤ 239

end IpAddr

end StreamDelay.Foundations
