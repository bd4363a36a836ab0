import Mathlib.Tactic.Common
import StreamDelay.Flv.Inspect

/-! # Emulation prevention

In a NAL unit two zero bytes are never followed by a byte of at most 2: a 3 is put before it.
-/

namespace StreamDelay.Flv.Hevc

/-- The rest of a NAL unit that follows `zeros` zero bytes, without its emulation prevention bytes. -/
def unescapeLoop : ℕ → Bytes → Bytes
  | _, [] => []
  | zeros, b :: rest =>
    if 2 ≤ zeros ∧ b = 3 then unescapeLoop 0 rest
    else b :: unescapeLoop (if b = 0 then zeros + 1 else 0) rest

/-- Removes emulation prevention bytes: the RBSP of a NAL unit. -/
def unescape (nal : Bytes) : Bytes := unescapeLoop 0 nal

/-- The rest of an RBSP after `zeros` zero bytes written since the last other one. -/
def escapeLoop : ℕ → Bytes → Bytes
  | _, [] => []
  | zeros, b :: rest =>
    if 2 ≤ zeros ∧ b ≤ 3 then 3 :: b :: escapeLoop (if b = 0 then 1 else 0) rest
    else b :: escapeLoop (if b = 0 then zeros + 1 else 0) rest

/-- Adds emulation prevention bytes: the NAL unit for an RBSP. -/
def escape (rbsp : Bytes) : Bytes :=
  let out := escapeLoop 0 rbsp
  -- An RBSP ending in a cabac_zero_word.
  if out.getLast? = some 0 then out ++ [3] else out

end StreamDelay.Flv.Hevc
