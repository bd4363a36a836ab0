import Mathlib.Algebra.Group.Int.Defs
import Mathlib.Algebra.GroupWithZero.Nat
import Mathlib.Data.Int.Notation
import Mathlib.Tactic.Common

/-! # Timestamp unwrapping

RTMP timestamps are 32-bit milliseconds and wrap after about 49.7 days. Signed machine integers are
integers brought back to their range, as the hardware's arithmetic does where overflow is not checked.
-/

namespace StreamDelay.Rtmp

structure TsUnwrapper where
  last : Option ℕ
  /-- `last` unwrapped. Below zero after a step back from a start near zero. -/
  current : ℤ
deriving DecidableEq, Repr

namespace TsUnwrapper

def new : TsUnwrapper := ⟨none, 0⟩

/-- `ts.wrapping_sub(last) as i32`: the nearer of the two ways from `last` to `ts`. -/
def stepFrom (last ts : ℕ) : ℤ := ((ts : ℤ) - last).bmod (2 ^ 32)

def unwrap (ts : ℕ) (u : TsUnwrapper) : TsUnwrapper × ℕ :=
  let current := match u.last with
    | some last => (u.current + stepFrom last ts).bmod (2 ^ 64)
    | none => (ts : ℤ)
  (⟨some ts, current⟩, (max current 0).toNat)

/-- What a sequence of timestamps is unwrapped to, one after the other. -/
def unwrapAll : List ℕ → TsUnwrapper → List ℕ
  | [], _ => []
  | ts :: rest, u => (u.unwrap ts).2 :: unwrapAll rest (u.unwrap ts).1

end TsUnwrapper

end StreamDelay.Rtmp
