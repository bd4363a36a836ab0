import Mathlib.Tactic.Common
import StreamDelay.Foundations.Ip
import StreamDelay.Foundations.Text

/-! # Addresses as texts

As the standard library writes them: an IPv6 address without its longest run of zeros, and one that an IPv4 address is
mapped into with that in dots.
-/

namespace StreamDelay.Foundations

open Text

namespace IpAddr

/-- A number in decimal, or in lower-case hexadecimal. -/
def numeral (base n : ℕ) : Text :=
  if n = 0 then ['0']
  else (Nat.digits base n).reverse.map fun d => if d < 10 then digitChar d else .ofNat (87 + d)

/-- Texts joined by a character. -/
def joined (sep : Char) : List Text → Text
  | [] => []
  | [t] => t
  | t :: rest => t ++ sep :: joined sep rest

def dotted (a b c d : UInt8) : Text := joined '.' ([a, b, c, d].map fun n => numeral 10 n.toNat)

/-- Where the longest run of zeros starts, and how long it is; of two as long, the first. -/
def longestZeros (i : ℕ) (current longest : ℕ × ℕ) : List UInt16 → ℕ × ℕ
  | [] => longest
  | s :: rest =>
    if s = 0 then
      let current := (if current.2 = 0 then i else current.1, current.2 + 1)
      longestZeros (i + 1) current (if longest.2 < current.2 then current else longest) rest
    else longestZeros (i + 1) (0, 0) longest rest

def groups (segments : List UInt16) : Text := joined ':' (segments.map fun s => numeral 16 s.toNat)

def compressed (segments : List UInt16) : Text :=
  let (start, len) := longestZeros 0 (0, 0) (0, 0) segments
  if 1 < len then groups (segments.take start) ++ [':', ':'] ++ groups (segments.drop (start + len))
  else groups segments

/-- `to_string`. -/
def text : IpAddr → Text
  | v4 a b c d => dotted a b c d
  | v6 0 0 0 0 0 0xffff s6 s7 => "::ffff:".toList ++ dotted (high s6) (low s6) (high s7) (low s7)
  | v6 s0 s1 s2 s3 s4 s5 s6 s7 => compressed [s0, s1, s2, s3, s4, s5, s6, s7]

/-- `SocketAddr`'s `to_string`. -/
def withPort (ip : IpAddr) (port : ℕ) : Text :=
  match ip with
  | v4 _ _ _ _ => ip.text ++ ':' :: numeral 10 port
  | v6 .. => '[' :: ip.text ++ [']'] ++ ':' :: numeral 10 port

example : (v6 0xfe80 0 0 0 0x1 0 0 0xab12).withPort 1935 = "[fe80::1:0:0:ab12]:1935".toList := by decide

def isUnspecified : IpAddr → Bool
  | v4 a b c d => [a, b, c, d] = [0, 0, 0, 0]
  | v6 s0 s1 s2 s3 s4 s5 s6 s7 => [s0, s1, s2, s3, s4, s5, s6, s7] = [0, 0, 0, 0, 0, 0, 0, 0]

/-! ## Which characters they have -/

/-- A digit, or a letter of a hexadecimal number. -/
def isHex (c : Char) : Bool := isDigit c || (97 ≤ c.toNat && c.toNat ≤ 102)

theorem numeral_digits {base n : ℕ} (least : 1 < base) (most : base ≤ 10) {c : Char} (member : c ∈ numeral base n) :
    isDigit c = true := by
  unfold numeral at member
  split at member
  · obtain rfl := List.mem_singleton.mp member
    decide
  · obtain ⟨d, digit, rfl⟩ := List.mem_map.mp member
    have small : d < 10 := Nat.lt_of_lt_of_le (Nat.digits_lt_base least (List.mem_reverse.mp digit)) most
    rw [if_pos small]
    have digits : ∀ d < 10, isDigit (digitChar d) = true := by decide
    exact digits d small

theorem numeral_hex {base n : ℕ} (least : 1 < base) (most : base ≤ 16) {c : Char} (member : c ∈ numeral base n) :
    isHex c = true := by
  unfold numeral at member
  split at member
  · obtain rfl := List.mem_singleton.mp member
    decide
  · obtain ⟨d, digit, rfl⟩ := List.mem_map.mp member
    have small : d < 16 := Nat.lt_of_lt_of_le (Nat.digits_lt_base least (List.mem_reverse.mp digit)) most
    have letters : ∀ d < 16, isHex (if d < 10 then digitChar d else .ofNat (87 + d)) = true := by decide
    exact letters d small

theorem numeral_ne_nil (base n : ℕ) : numeral base n ≠ [] := by
  unfold numeral
  split
  · exact List.cons_ne_nil _ _
  · next positive =>
    rw [ne_eq, List.map_eq_nil_iff, List.reverse_eq_nil_iff]
    exact Nat.digits_ne_nil_iff_ne_zero.mpr positive

theorem mem_joined {sep c : Char} {parts : List Text} (member : c ∈ joined sep parts) :
    c = sep ∨ ∃ t ∈ parts, c ∈ t := by
  induction parts with
  | nil => contradiction
  | cons t rest ih =>
    cases rest with
    | nil => exact .inr ⟨t, List.mem_cons_self .., member⟩
    | cons u rest =>
      rw [joined, List.mem_append, List.mem_cons] at member
      · rcases member with inside | same | later
        · exact .inr ⟨t, List.mem_cons_self .., inside⟩
        · exact .inl same
        · exact (ih later).imp_right fun ⟨v, part, inside⟩ => ⟨v, List.mem_cons_of_mem _ part, inside⟩
      · exact List.cons_ne_nil _ _

theorem mem_dotted {a b c d : UInt8} {x : Char} (member : x ∈ dotted a b c d) : x = '.' ∨ isDigit x = true := by
  refine (mem_joined member).imp_right fun ⟨t, part, inside⟩ => ?_
  obtain ⟨n, -, rfl⟩ := List.mem_map.mp part
  exact numeral_digits (by decide) (by decide) inside

theorem mem_groups {segments : List UInt16} {c : Char} (member : c ∈ groups segments) : c = ':' ∨ isHex c = true := by
  refine (mem_joined member).imp_right fun ⟨t, part, inside⟩ => ?_
  obtain ⟨s, -, rfl⟩ := List.mem_map.mp part
  exact numeral_hex (by decide) (by decide) inside

theorem mem_compressed {segments : List UInt16} {c : Char} (member : c ∈ compressed segments) :
    c = ':' ∨ isHex c = true := by
  unfold compressed at member
  dsimp only at member
  split at member
  · rw [List.mem_append, List.mem_append] at member
    rcases member with (front | colons) | back
    · exact mem_groups front
    · exact .inl (by simpa using colons)
    · exact mem_groups back
  · exact mem_groups member

/-- An address is written in hexadecimal digits, dots and colons. -/
theorem mem_text {ip : IpAddr} {c : Char} (member : c ∈ ip.text) : c = ':' ∨ c = '.' ∨ isHex c = true := by
  have dots {a b c' d : UInt8} (inside : c ∈ dotted a b c' d) : c = ':' ∨ c = '.' ∨ isHex c = true :=
    .inr ((mem_dotted inside).imp_right fun digit => Bool.or_eq_true_iff.mpr (.inl digit))
  unfold text at member
  split at member
  · exact dots member
  · rcases List.mem_append.mp member with front | back
    · have marks : ("::ffff:".toList.all fun x => x = ':' ∨ x = '.' ∨ isHex x = true) = true := by decide
      exact of_decide_eq_true (List.all_eq_true.mp marks c front)
    · exact dots back
  · exact (mem_compressed member).imp_right .inr

end IpAddr

end StreamDelay.Foundations
