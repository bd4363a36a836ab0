import StreamDelay.Foundations.Masking
import StreamDelay.Proofs.Addresses

/-! # Redaction leaves no secret behind

The secrets' replacement leaves no character of an occurrence if and only if every one is in an occurrence that is
found. The rules that follow put in characters of their own and leave others out, so they bring none back.
-/

namespace StreamDelay.Control.Diagnostics

open Foundations Text Marked Masking

variable {p : Process} {secrets : List Text} {s t start : Text} {m : Marked} {x : Mark}

/-! ## The rules bring no character back -/

private theorem ruleEdit_drawn (start : Text) (looksSecret : Text → Bool) : (ruleEdit start looksSecret).Drawn := by
  intro before rest written n found x member
  rw [ruleEdit] at found
  split at found
  · dsimp only at found
    split at found
    · obtain ⟨rfl, -⟩ := Prod.mk.inj (Option.some.inj found)
      rcases List.mem_append.mp member with kept | fresh
      · exact .inr (List.mem_of_mem_take kept)
      · exact .inl (origin_put fresh)
    · obtain ⟨rfl, -⟩ := Prod.mk.inj (Option.some.inj found)
      exact .inr (List.mem_of_mem_take member)
  · contradiction

private theorem mem_withoutHome {home : Option Text} (member : x ∈ withoutHome home m) : x.origin = none ∨ x ∈ m := by
  unfold withoutHome at member
  split at member
  · split at member
    · exact mem_replace member
    · exact .inr member
  · exact .inr member

private theorem mem_rules {rules : List (Text × (Text → Bool))}
    (member : x ∈ rules.foldl (fun out (start, looksSecret) => rewrite (ruleEdit start looksSecret) 0 none out) m) :
    x.origin = none ∨ x ∈ m := by
  induction rules generalizing m with
  | nil => exact .inr member
  | cons rule rest ih =>
    rcases ih member with fresh | before
    · exact .inl fresh
    · exact mem_rewrite (ruleEdit_drawn _ _) before

/-- The secrets that are looked for. -/
def sought (secrets : List Text) : List Text := secrets.filter fun s => 4 ≤ byteLength s

/-- What is shown was left by the secrets' replacement. -/
theorem mem_redact (member : x ∈ redact p secrets m) :
    x.origin = none ∨ x ∈ (sought secrets).foldl (fun out s => replace s REDACTED out) m := by
  rcases mem_maskPublicIps member with fresh | masked
  · exact .inl fresh
  · rcases mem_withoutHome masked with fresh | homeless
    · exact .inl fresh
    · exact mem_rules homeless

/-! ## Secrets -/

/-- No character of an occurrence of a listed secret is left in what is shown. -/
def Redacted (p : Process) (secrets : List Text) (t : Text) : Prop :=
  ∀ s ∈ secrets, 4 ≤ byteLength s → ∀ i, s <+: t.drop i → ∀ n, i ≤ n → n < i + s.length →
    ¬Has (redact p secrets (given 0 t)) n

/-- Each occurrence of a listed secret is covered by placeholders once the secrets are replaced. -/
def Replaced (secrets : List Text) (t : Text) : Prop :=
  ∀ s ∈ secrets, 4 ≤ byteLength s → ∀ i, s <+: t.drop i → ∀ n, i ≤ n → n < i + s.length →
    ¬Has ((sought secrets).foldl (fun out s => replace s REDACTED out) (given 0 t)) n

private theorem sought_ne_nil (listed : s ∈ sought secrets) : s ≠ [] := by
  rintro rfl
  exact absurd (of_decide_eq_true (List.mem_filter.mp listed).2) (by decide)

private theorem replaced_iff : Replaced secrets t ↔ Covered (sought secrets) REDACTED t := by
  have whole : after (sought secrets) REDACTED t (sought secrets).length =
      (sought secrets).foldl (fun out s => replace s REDACTED out) (given 0 t) := by
    rw [after, List.take_length]
  rw [covered_iff (fun _ => sought_ne_nil) (by decide), whole]
  constructor
  · rintro replaced k i n ⟨s, listed, stands, low, high⟩
    obtain ⟨member, long⟩ := List.mem_filter.mp (List.mem_of_getElem? listed)
    exact replaced s member (of_decide_eq_true long) i stands n low high
  · intro gone s member long i stands n low high
    have looked : s ∈ sought secrets := List.mem_filter.mpr ⟨member, decide_eq_true long⟩
    obtain ⟨k, listed⟩ := List.mem_iff_getElem?.mp looked
    exact gone k i n ⟨s, listed, stands, low, high⟩

/-- The secrets are covered if and only if every character of an occurrence is in one that is found. Then nothing shows
one, whatever the process. -/
theorem redact_covers : (Replaced secrets t ↔ Covered (sought secrets) REDACTED t) ∧
    (Replaced secrets t → ∀ p, Redacted p secrets t) := by
  refine ⟨replaced_iff, fun replaced p s member long i stands n low high ⟨x, shown, origin⟩ => ?_⟩
  rcases mem_redact shown with fresh | left
  · rw [fresh] at origin
    contradiction
  · exact replaced s member long i stands n low high ⟨x, left, origin⟩

/-- The query and the values of `?user=anna&pass=anna2026`: a part of the password is left. -/
theorem redact_uncovers :
    ¬Redacted ⟨none, fun _ => 0⟩ ["user=anna&pass=anna2026".toList, "anna".toList, "anna2026".toList]
      "login of anna2026".toList := by
  intro redacted
  refine redacted "anna2026".toList (by decide) (by decide) 9 (by decide) 13 (by decide) (by decide)
    ⟨⟨'2', some 13⟩, ?_, rfl⟩
  decide +kernel

/-- A secret that is found in a placeholder cuts nothing. -/
example : text (redact ⟨none, fun _ => 0⟩ ["hunter22".toList, "redacted".toList] (given 0 "pw hunter22".toList)) =
    "pw <<redacted>>".toList := by
  decide +kernel

end StreamDelay.Control.Diagnostics
