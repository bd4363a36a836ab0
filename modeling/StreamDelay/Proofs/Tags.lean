import StreamDelay.Proofs.Addresses

/-! # Where tags are put

An IPv4 address that the code finds is replaced by a tag, its own or that of an IPv6 address around it. What stands
behind a dot with no digit before it is kept.
-/

namespace StreamDelay.Control.Diagnostics

open Foundations Text IpText Marked

variable {p : Process} {f q b out : Marked} {x z : Mark} {ip : IpAddr}

/-! ## Where a tag stands -/

/-- A tag stands between what comes from the text before an address and what comes from the text after it. -/
def Tagged (p : Process) (out front back : Marked) : Prop :=
  ∃ left ip right, out = left ++ (put (ipTag p ip) ++ right) ∧
    (∀ x ∈ left, x.origin = none ∨ x ∈ front) ∧ ∀ x ∈ right, x.origin = none ∨ x ∈ back

/-- What is found before a public address ends before it. -/
theorem ends_before (alone : ∀ c ∈ last none f, isDigit c = false ∧ c ≠ '.') (rest : Marked) :
    Ends (v4Edit p) none f rest := by
  intro front x back whole written n found
  obtain ⟨ip, t, after, same, rfl, here⟩ := v4Edit_some found
  by_contra long
  rw [← length_text] at long
  have inside : text (x :: back) <+: t := by
    rw [text_append] at same
    exact List.prefix_of_prefix_length_le (same ▸ List.prefix_append _ _) (List.prefix_append _ _) (by omega)
  have some : text (x :: back) ≠ [] := List.cons_ne_nil _ _
  have ends : (text (x :: back)).getLast some ∈ last none f := by
    rw [whole, last_none, text_append, List.getLast?_append_of_ne_nil _ some]
    exact List.getLast?_eq_some_getLast some
  obtain ⟨digit, dot⟩ := alone _ ends
  rcases quad_chars (parseIpv4_quad here.address) (inside.subset (List.getLast_mem some)) with yes | yes
  · rw [digit] at yes
    contradiction
  · exact dot yes

theorem maskV4_tags (found : Found (last none f) (text q) (text b) ip) : Tagged p (maskV4 p (f ++ (q ++ b))) f b := by
  have some : q ≠ [] := by
    rintro rfl
    obtain ⟨c, rest, same, -⟩ := quad_first (parseIpv4_quad found.address)
    contradiction
  obtain ⟨left, split, drawn⟩ :=
    rewrite_split (v4Edit_fresh p) (Nat.zero_le _) (ends_before (p := p) found.before (q ++ b))
  have here := v4Edit_of_found (p := p) found (text_append q b)
  rw [length_text] at here
  refine ⟨left, ip, rewrite (v4Edit p) 0 (last (last none f) q) b, ?_, drawn, fun y member =>
    mem_rewrite (v4Edit_fresh p).drawn member⟩
  rw [maskV4, split, rewrite_hit some here]

/-- What is after a part of a text stops a number where the text does. -/
theorem Stops.take {t : Text} (stops : Stops t) (n : ℕ) : Stops (t.take n) := by
  cases n with
  | zero => exact ⟨rfl, fun none => absurd none (by simp)⟩
  | succ n =>
    cases t with
    | nil => exact stops
    | cons c t =>
      refine ⟨stops.1, fun dot => ?_⟩
      have next := stops.2 dot
      cases n with
      | zero => rfl
      | succ n =>
        cases t with
        | nil => rfl
        | cons d t => exact next

theorem Tagged.append {front back : Marked} (tagged : Tagged p out front back) {rest : Marked}
    (drawn : ∀ x ∈ rest, x.origin = none ∨ x ∈ back) : Tagged p (out ++ rest) front back := by
  obtain ⟨left, ip, right, rfl, before, after⟩ := tagged
  refine ⟨left, ip, right ++ rest, by simp only [List.append_assoc], before, ?_⟩
  intro x member
  rcases List.mem_append.mp member with inside | later
  · exact after x inside
  · exact drawn x later

theorem Tagged.mono {front back wider : Marked} (tagged : Tagged p out front back) (subset : back ⊆ wider) :
    Tagged p out front wider := by
  obtain ⟨left, ip, right, whole, before, after⟩ := tagged
  exact ⟨left, ip, right, whole, before, fun x member => (after x member).imp_right fun inside => subset inside⟩

/-! ## Within a stretch -/

/-- An IPv6 address ends no sooner than the last digit of its stretch. -/
theorem V6.digit_le {start stop : ℕ} (v6 : V6 (text (f ++ (q ++ b))) start stop ip)
    (ends : ∃ c ∈ (text q).getLast?, isDigit c) : f.length + q.length ≤ stop := by
  by_contra short
  obtain ⟨c, last, digit⟩ := ends
  have inside : c ∈ (text (f ++ (q ++ b))).drop stop := by
    have length : ¬(text f ++ text q).length ≤ stop := by
      rw [List.length_append, length_text, length_text]
      exact short
    rw [text_append, text_append, ← List.append_assoc, List.drop_append]
    refine List.mem_append_left _ (List.mem_of_getLast? ?_)
    rw [List.getLast?_drop, if_neg length, List.getLast?_append, last]
    rfl
  rcases v6.ends c inside with rfl | rfl
  · exact absurd digit (by decide)
  · exact absurd digit (by decide)

/-- An IPv6 address starts before a part of its stretch that has no colon, or after it. -/
theorem V6.starts_out {start stop : ℕ} (v6 : V6 (text (f ++ (q ++ b))) start stop ip) (colon : ':' ∉ text q) :
    start ≤ f.length ∨ f.length + q.length < start := by
  rcases v6.starts with rfl | ⟨n, rfl, here⟩
  · exact .inl (Nat.zero_le _)
  · by_contra middle
    obtain ⟨low, high⟩ := not_or.mp middle
    rw [text_append, text_append, List.getElem?_append_right (by rw [length_text]; omega), length_text,
      List.getElem?_append_left (by rw [length_text]; omega)] at here
    exact colon (List.mem_of_getElem? here)

private theorem quad_colon (quad : Quad (text q)) : ':' ∉ text q := fun inside => by
  rcases quad_chars quad inside with digit | dot
  · exact absurd digit (by decide)
  · exact absurd dot (by decide)

theorem drop_subset {stop : ℕ} (after : f.length + q.length ≤ stop) : (f ++ (q ++ b)).drop stop ⊆ b := by
  rw [← List.append_assoc, List.drop_append, List.drop_eq_nil_of_le (by rw [List.length_append]; exact after),
    List.nil_append]
  exact List.drop_subset _ _

theorem take_parts {start : ℕ} (after : f.length + q.length < start) :
    (f ++ (q ++ b)).take start = f ++ (q ++ b.take (start - f.length - q.length)) := by
  rw [List.take_append, List.take_of_length_le (by omega), List.take_append, List.take_of_length_le (by omega)]

theorem maskRun_tags (found : Found (last none f) (text q) (text b) ip) : Tagged p (maskRun p (f ++ (q ++ b))) f b := by
  have quad := parseIpv4_quad found.address
  unfold maskRun
  cases reads : publicV6 (text (f ++ (q ++ b))) with
  | none => exact maskV4_tags found
  | some hit =>
    obtain ⟨start, stop, ip'⟩ := hit
    have v6 := publicV6_some reads
    have after := v6.digit_le (quad_last quad)
    have rest : ∀ x ∈ maskV4 p ((f ++ (q ++ b)).drop stop), x.origin = none ∨ x ∈ b := fun x member =>
      (mem_maskV4 member).imp_right fun inside => drop_subset after inside
    dsimp only
    rcases v6.starts_out (quad_colon quad) with before | behind
    · refine ⟨maskV4 p ((f ++ (q ++ b)).take start), ip', maskV4 p ((f ++ (q ++ b)).drop stop), ?_, ?_, rest⟩
      · rw [List.append_assoc]
      · intro x member
        rw [List.take_append_of_le_length before] at member
        exact (mem_maskV4 member).imp_right List.mem_of_mem_take
    · rw [take_parts behind]
      have shorter : Found (last none f) (text q) (text (b.take (start - f.length - q.length))) ip := by
        refine ⟨found.before, found.address, found.shown, ?_⟩
        rw [text, List.map_take]
        exact found.stops.take _
      have tagged := (maskV4_tags (p := p) shorter).mono (List.take_subset _ b)
      exact (tagged.append fun x member => .inl (origin_put member)).append rest

/-! ## Behind a dot -/

/-- A dot at the end of a text, with no digit before it. -/
def Lone (f : Marked) : Prop :=
  ∃ front dot, f = front ++ [dot] ∧ dot.char = '.' ∧ ∀ c ∈ (text front).getLast?, isDigit c = false

theorem Lone.last (lone : Lone f) : last none f = some '.' := by
  obtain ⟨front, dot, rfl, char, -⟩ := lone
  rw [last_none, text_append, List.getLast?_append, ← char]
  rfl

/-- No address that is found goes over such a dot. -/
theorem Lone.ends (lone : Lone f) (rest : Marked) : Ends (v4Edit p) none f rest := by
  obtain ⟨all, dot, rfl, char, none_⟩ := lone
  intro front x back whole written n found
  obtain ⟨ip, t, after, same, rfl, here⟩ := v4Edit_some found
  have quad := parseIpv4_quad here.address
  by_contra long
  rw [← length_text] at long
  obtain ⟨tail, rfl⟩ : text (x :: back) <+: t := by
    rw [text_append] at same
    exact List.prefix_of_prefix_length_le (same ▸ List.prefix_append _ _) (List.prefix_append _ _) (by omega)
  obtain ⟨mid, part⟩ : ∃ mid, x :: back = mid ++ [dot] := by
    refine ⟨(x :: back).dropLast, ?_⟩
    have ends : (x :: back).getLast (List.cons_ne_nil _ _) = dot := by
      have same := congrArg List.getLast? whole
      rw [List.getLast?_concat, List.getLast?_append_of_ne_nil _ (List.cons_ne_nil _ _),
        List.getLast?_eq_some_getLast (List.cons_ne_nil _ _)] at same
      exact (Option.some.inj same).symm
    rw [← ends, List.dropLast_append_getLast]
  rw [part, text_append, List.append_assoc] at quad
  have dotted : text [dot] = ['.'] := by rw [← char]; rfl
  rw [dotted] at quad
  obtain ⟨c, last, digit⟩ := quad.follows (text mid) tail rfl
  rw [part, ← List.append_assoc] at whole
  have before : all = front ++ mid := List.append_inj_left' whole rfl
  rw [before, text_append, List.getLast?_append, last] at none_
  have no := none_ c rfl
  rw [digit] at no
  contradiction

theorem maskV4_keeps (lone : Lone f) (z : Mark) (b : Marked) : z ∈ maskV4 p (f ++ ([z] ++ b)) := by
  obtain ⟨out, split, -⟩ := rewrite_split (v4Edit_fresh p) (Nat.zero_le _) (lone.ends (p := p) ([z] ++ b))
  have never : v4Edit p (some '.') ([z] ++ b) = none := by
    rw [← Option.not_isSome_iff_eq_none, Option.isSome_iff_exists]
    rintro ⟨⟨written, n⟩, found⟩
    obtain ⟨ip, t, after, -, -, here⟩ := v4Edit_some found
    exact (here.before '.' rfl).2 rfl
  rw [maskV4, split, lone.last, List.singleton_append, rewrite]
  rw [List.singleton_append] at never
  rw [never]
  exact List.mem_append_right _ (List.mem_cons_self ..)

/-- What is behind such a dot is kept. -/
theorem maskRun_keeps (lone : Lone f) (digit : isDigit z.char) (b : Marked) : z ∈ maskRun p (f ++ ([z] ++ b)) := by
  unfold maskRun
  cases reads : publicV6 (text (f ++ ([z] ++ b))) with
  | none => exact maskV4_keeps lone z b
  | some hit =>
    obtain ⟨start, stop, ip⟩ := hit
    have v6 := publicV6_some reads
    have after := v6.digit_le ⟨z.char, rfl, digit⟩
    have colon : ':' ∉ text [z] := fun inside => by
      rw [text, List.map_singleton, List.mem_singleton] at inside
      rw [← inside] at digit
      contradiction
    dsimp only
    rcases v6.starts_out colon with before | behind
    · -- The address would have the dot in it, or start right after it.
      obtain ⟨front, dot, rfl, char, none_⟩ := lone
      have whole : text (front ++ [dot] ++ ([z] ++ b)) = text front ++ '.' :: text ([z] ++ b) := by
        rw [text_append, text_append, List.append_assoc, ← char]
        rfl
      rw [List.length_append] at before after
      rw [whole] at v6
      rcases Nat.lt_or_eq_of_le before with inside | rfl
      · have region : ∃ w, ((text front ++ '.' :: text ([z] ++ b)).take stop).drop start =
            (text front).drop start ++ '.' :: w := by
          have dotted : stop - front.length = (stop - front.length - 1) + 1 := by
            rw [List.length_singleton, List.length_singleton] at after
            omega
          have short : (text front).length ≤ stop := by
            rw [length_text]
            omega
          have low : start ≤ (text front).length := by
            rw [length_text]
            exact Nat.le_of_lt_succ inside
          refine ⟨(text ([z] ++ b)).take (stop - front.length - 1), ?_⟩
          rw [List.take_append, List.take_of_length_le short, List.drop_append_of_le_length low, length_text, dotted,
            List.take_succ_cons, Nat.add_sub_cancel]
        obtain ⟨w, region⟩ := region
        obtain ⟨c, last, digit'⟩ := parseIpv6_follows v6.address _ _ region
        rw [List.getLast?_drop] at last
        split at last
        · contradiction
        · have no := none_ c last
          rw [digit'] at no
          contradiction
      · obtain ⟨n, same, here⟩ := v6.starts.resolve_left (Nat.succ_ne_zero _)
        obtain rfl : front.length = n := Nat.succ.inj same
        rw [List.getElem?_append_right (by rw [length_text]), length_text, Nat.sub_self] at here
        exact absurd (Option.some.inj here) (by decide)
    · rw [take_parts behind]
      exact List.mem_append_left _ (List.mem_append_left _ (maskV4_keeps lone z _))

end StreamDelay.Control.Diagnostics
