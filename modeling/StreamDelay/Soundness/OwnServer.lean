import StreamDelay.Control.Wizard
import StreamDelay.Soundness.CanonicalUrl

/-! # The server OBS is given is recognised

A server at any address of this computer is read back as stream-delay's application at that address.
-/

namespace StreamDelay.Control

open Foundations Foundations.Text Rtmp Rtmp.RtmpUrl

variable {ν : Type} {here : Installation} {ip : IpAddr}

private theorem numeral_decimal {n : ℕ} (positive : n ≠ 0) : IpAddr.numeral 10 n = decimal n := by
  rw [IpAddr.numeral, if_neg positive, decimal]
  refine List.map_congr_left fun d digit => ?_
  exact if_pos (Nat.digits_lt_base (by decide) (List.mem_reverse.mp digit))

private theorem text_ne_nil (ip : IpAddr) : ip.text ≠ [] := by
  have groups_ne (segments : List UInt16) (some : segments ≠ []) : IpAddr.groups segments ≠ [] := by
    obtain ⟨s, rest, rfl⟩ := List.exists_cons_of_ne_nil some
    unfold IpAddr.groups
    cases rest with
    | nil => exact IpAddr.numeral_ne_nil 16 s.toNat
    | cons t rest =>
      intro none
      exact IpAddr.numeral_ne_nil 16 s.toNat (List.append_eq_nil_iff.mp none).1
  unfold IpAddr.text
  split
  · unfold IpAddr.dotted
    intro none
    exact IpAddr.numeral_ne_nil _ _ (List.append_eq_nil_iff.mp none).1
  · exact fun none => absurd (List.append_eq_nil_iff.mp none).1 (by decide)
  · unfold IpAddr.compressed
    dsimp only
    split
    · exact fun none => absurd (List.append_eq_nil_iff.mp (List.append_eq_nil_iff.mp none).1).2 (List.cons_ne_nil _ _)
    · exact groups_ne _ (List.cons_ne_nil _ _)

/-- A character no address is written with. -/
theorem notMem_text {c : Char} (odd : ¬(c = ':' ∨ c = '.' ∨ IpAddr.isHex c = true)) : c ∉ ip.text :=
  fun member => odd (IpAddr.mem_text member)

private theorem hostParts_withPort {port : ℕ} (positive : port ≠ 0) :
    hostParts (ip.withPort port) = .ok (ip.text, some (decimal port)) := by
  have closed : ']' ∉ ip.text := notMem_text (by decide)
  unfold IpAddr.withPort
  rw [numeral_decimal positive]
  cases ip with
  | v4 a b c d =>
    have colon : ':' ∉ (IpAddr.v4 a b c d).text := by
      intro member
      rcases IpAddr.mem_dotted member with dot | digit
      · exact absurd dot (by decide)
      · exact absurd digit (by decide)
    refine hostParts_name (text_ne_nil _) (fun bracket => ?_) colon (p := some (decimal port)) fun t own member => ?_
    · exact notMem_text (by decide) (List.mem_of_mem_head? bracket)
    · obtain rfl := Option.some.inj own
      exact absurd (decimal_digits member) (by decide)
  | v6 s0 s1 s2 s3 s4 s5 s6 s7 => exact hostParts_brackets closed (some (decimal port))

private theorem notMem_withPort {c : Char} {port : ℕ} (odd : ¬(c = ':' ∨ c = '.' ∨ IpAddr.isHex c = true))
    (bracket : c ≠ '[' ∧ c ≠ ']') : c ∉ ip.withPort port := by
  have digits : c ∉ IpAddr.numeral 10 port := by
    intro member
    have digit := IpAddr.numeral_hex (by decide) (by decide) member
    exact odd (.inr (.inr digit))
  have colon : c ≠ ':' := fun same => odd (.inl same)
  unfold IpAddr.withPort
  cases ip <;>
    simp only [List.mem_append, List.mem_cons, List.cons_append, List.not_mem_nil, or_false, not_or] <;>
    simp only [colon, bracket.1, bracket.2, digits, notMem_text odd, not_false_eq_true, and_self]

private theorem server_parses (positive : here.ingestPort ≠ 0) (small : here.ingestPort < 2 ^ 16) :
    RtmpUrl.parse (here.server ip) = .ok (make .rtmp ip.text here.ingestPort "live".toList none) := by
  have written : here.server ip =
      schemeText .rtmp ++ "://".toList ++ (ip.withPort here.ingestPort ++ '/' :: "live".toList) :=
    List.append_assoc ..
  have host : splitHostPort (ip.withPort here.ingestPort) (defaultPort .rtmp) = .ok (ip.text, here.ingestPort) := by
    unfold splitHostPort
    rw [hostParts_withPort positive]
    dsimp only
    have kept : (parseU16 (decimal here.ingestPort)).filter (fun n => n ≠ 0) = some here.ingestPort := by
      rw [parseU16_decimal positive small]
      exact Option.filter_eq_some_iff.mpr ⟨rfl, decide_eq_true positive⟩
    unfold readPort
    dsimp only
    rw [kept]
  unfold RtmpUrl.parse
  rw [written, trim_written, splitScheme_written]
  dsimp only
  rw [splitOnce_append (notMem_withPort (by decide) (by decide))]
  dsimp only [Option.getD_some]
  rw [if_neg (notMem_withPort (by decide) (by decide)),
    if_neg (not_or.mpr ⟨notMem_withPort (by decide) (by decide), notMem_withPort (by decide) (by decide)⟩), host]
  dsimp only
  rw [if_neg (text_ne_nil ip)]
  rfl

/-- What stream-delay sets OBS to is its application, at the address it was given. -/
theorem custom_liveUrl (positive : here.ingestPort ≠ 0) (small : here.ingestPort < 2 ^ 16) (key : Text) :
    ∃ url : RtmpUrl, (StreamSettings.custom (ν := ν) (here.server ip) key).liveUrl = some url ∧ url.host = ip.text := by
  refine ⟨make .rtmp ip.text here.ingestPort "live".toList none, ?_, rfl⟩
  have server : (StreamSettings.custom (ν := ν) (here.server ip) key).field "server" = some (here.server ip) :=
    congrArg some (String.toList_ofList ..)
  unfold StreamSettings.liveUrl
  rw [server, Option.map_some, server_parses positive small]
  rfl

end StreamDelay.Control
