import StreamDelay.Foundations.Partial
import StreamDelay.Flv.Inspect

/-! # Reading an RBSP bit by bit -/

namespace StreamDelay.Flv.Hevc

open Foundations

structure Bits where
  b : Bytes
  pos : ℕ
deriving DecidableEq, Repr

/-- The bit at a position of an RBSP, the high bits of a byte first. -/
def bitAt (b : Bytes) (pos : ℕ) : Option Bool := b[pos / 8]?.map fun byte => byte.toNat.testBit (7 - pos % 8)

namespace Bits

/-- After the NAL unit header. -/
def new (rbsp : Bytes) : Bits := ⟨rbsp, 16⟩

def bit : Partial Bits Bool := fun r => (bitAt r.b r.pos).map fun b => (b, { r with pos := r.pos + 1 })

/-- `n` more bits, after those whose value is `v`. -/
def bitsLoop : ℕ → ℕ → Partial Bits ℕ
  | 0, v => pure v
  | n + 1, v => do
    let b ← bit
    bitsLoop n (2 * v + b.toNat)

def bits (n : ℕ) : Partial Bits ℕ := do
  let v ← bitsLoop n 0
  if v < 2 ^ 32 then pure v else failure

def skip (n : ℕ) : Partial Bits Unit := fun r =>
  if r.b.length * 8 < r.pos + n then none else some ((), { r with pos := r.pos + n })

/-- The zero bits before the next one, at most `left` more after `zeros`. -/
def leadingZeros : ℕ → ℕ → Partial Bits ℕ
  | left, zeros => do
    if ← bit then pure zeros
    else
      match left with
      | 0 => failure
      | left + 1 => leadingZeros left (zeros + 1)

/-- ue(v) -/
def ue : Partial Bits ℕ := do
  let zeros ← leadingZeros 31 0
  let v ← bits zeros
  let k := 2 ^ zeros - 1 + v
  if k < 2 ^ 32 then pure k else failure

/-- se(v) -/
def se : Partial Bits ℤ := do
  let k ← ue
  pure (if k % 2 = 1 then ((k : ℤ) + 1) / 2 else -((k : ℤ) / 2))

end Bits

/-- Overwrites one bit. -/
def putBit (b : Bytes) (pos : ℕ) (v : Bool) : Bytes :=
  let mask : UInt8 := 0x80 >>> UInt8.ofNat (pos % 8)
  b.modify (pos / 8) fun byte => if v then byte ||| mask else byte &&& ~~~mask

/-- Overwrites `n` bits at bit `pos` with `v`. -/
def putBits (b : Bytes) (pos n v : ℕ) : Bytes :=
  (List.range n).foldl (fun b i => putBit b (pos + i) (v.testBit (n - 1 - i))) b

/-- The least power of two that is at least `x`. -/
def ceilLog2 (x : ℕ) : ℕ := if x ≤ 1 then 0 else Nat.log2 (x - 1) + 1

end StreamDelay.Flv.Hevc
