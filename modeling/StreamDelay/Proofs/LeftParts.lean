import StreamDelay.Proofs.Addresses

/-! # What is left between tags

The parts of a masked stretch that are left hold no IPv4 address by themselves. If they hold no IPv6 address either,
they stay the same when the text is masked again; if one does, a tag is written over it.
-/

namespace StreamDelay.Control.Diagnostics

open Foundations Text IpText Marked

variable {p : Process} {b m : Marked} {ip : IpAddr}

/-! ## The parts that are left -/

/-- A part in which no address is found, up to the text's end or the next address. -/
structure PartOf (p : Process) (before : Option Char) (m front part back : Marked) : Prop where
  whole : m = front ++ (part ++ back)
  nothing : ∀ f x b, part = f ++ x :: b → v4Edit p (last before (front ++ f)) (x :: b ++ back) = none
  next : back = [] ∨ v4Edit p (last before (front ++ part)) back ≠ none

theorem PartOf.cons {before : Option Char} {front part back : Marked} {x : Mark}
    (of : PartOf p (some x.char) m front part back) : PartOf p before (x :: m) (x :: front) part back := by
  refine ⟨by rw [of.whole]; rfl, fun f y b same => ?_, ?_⟩
  · rw [List.cons_append, last_cons]
    exact of.nothing f y b same
  · rw [List.cons_append, last_cons]
    exact of.next

theorem parts_of (p : Process) (skip : ℕ) (before : Option Char) (m : Marked) :
    ∃ head others back, parts (v4Edit p) skip before m = head :: others ∧ PartOf p before m (m.take skip) head back ∧
      ∀ part ∈ others, digitAt (text part) 0 = false ∧ ∃ front back, PartOf p before m front part back := by
  induction m generalizing skip before with
  | nil =>
    refine ⟨[], [], [], by rw [parts.eq_def], ⟨by rw [List.take_nil]; rfl, fun f x b same => ?_, .inl rfl⟩, ?_⟩
    · exact absurd same.symm (by simp)
    · exact fun part none => absurd none List.not_mem_nil
  | cons x rest ih =>
    cases skip with
    | succ skip =>
      obtain ⟨head, others, back, same, first, later⟩ := ih skip (some x.char)
      refine ⟨head, others, back, same, first.cons, fun part member => ?_⟩
      obtain ⟨digit, front, back, of⟩ := later part member
      exact ⟨digit, x :: front, back, of.cons⟩
    | zero =>
      rw [parts]
      cases found : v4Edit p before (x :: rest) with
      | some hit =>
        obtain ⟨written, n⟩ := hit
        obtain ⟨head, others, back, same, first, later⟩ := ih (n - 1) (some x.char)
        dsimp only
        refine ⟨[], _, x :: rest, rfl, ⟨rfl, fun f y b none => absurd none.symm (by simp), .inr ?_⟩, ?_⟩
        · rw [List.append_nil]
          exact fun none => absurd (found.symm.trans none) (Option.some_ne_none _)
        · rw [same]
          intro part member
          rcases List.mem_cons.mp member with rfl | inside
          · refine ⟨?_, x :: rest.take (n - 1), back, first.cons⟩
            obtain ⟨ip, q, after, whole, length, here⟩ := v4Edit_some found
            obtain ⟨c, tail, named, -⟩ := quad_first (parseIpv4_quad here.address)
            have fits := congrArg List.length whole
            rw [length_text, List.length_append, ← length, List.length_cons] at fits
            have positive : 0 < n := by
              rw [length, named]
              exact Nat.succ_pos _
            have counted : (text (x :: rest.take (n - 1))).length = q.length := by
              rw [length_text, List.length_cons, List.length_take_of_le (by omega), ← length]
              omega
            have cut : text (x :: rest.take (n - 1)) ++ text (part ++ back) = q ++ after := by
              rw [← whole, ← text_append]
              conv_rhs => rw [first.whole]
              rfl
            have rest_ := (List.append_inj cut counted).2
            have stops := here.stops.1
            rw [← rest_, text_append] at stops
            cases part with
            | nil => rfl
            | cons y part => exact stops
          · obtain ⟨digit, front, back, of⟩ := later part inside
            exact ⟨digit, x :: front, back, of.cons⟩
      | none =>
        obtain ⟨head, others, back, same, first, later⟩ := ih 0 (some x.char)
        dsimp only
        rw [same]
        rw [List.take_zero] at first ⊢
        have whole : rest = head ++ back := first.whole
        refine ⟨x :: head, others, back, rfl, ⟨congrArg (x :: ·) whole, ?_, ?_⟩, ?_⟩
        · intro f y b parts
          cases f with
          | nil =>
            obtain ⟨rfl, rfl⟩ := List.cons.inj parts
            rw [whole] at found
            exact found
          | cons w f =>
            obtain ⟨rfl, inner⟩ := List.cons.inj parts
            rw [List.nil_append, last_cons]
            exact first.nothing f y b inner
        · rw [List.nil_append, last_cons]
          exact first.next
        · intro part member
          obtain ⟨digit, front, back, of⟩ := later part member
          exact ⟨digit, x :: front, back, of.cons⟩

/-- Where a number stops, it also stops if something else that is neither digit nor dot ends the part. -/
theorem Stops.append {after tail : Text} (stops : Stops after)
    (ends : ∃ c ∈ after.getLast?, isDigit c = false ∧ c ≠ '.') :
    Stops (after ++ tail) := by
  obtain ⟨l, last, digit, dot⟩ := ends
  match after, stops, last with
  | [c], stops, last =>
    obtain rfl := Option.some.inj last
    exact ⟨digit, fun here => absurd (Option.some.inj here) dot⟩
  | c :: d :: after, stops, _ => exact ⟨stops.1, stops.2⟩

/-- In a part that is left, no address is found. -/
theorem PartOf.id {front part back : Marked} (of : PartOf p none m front part back)
    (first : front = [] ∨ digitAt (text part) 0 = false) : maskV4 p part = part := by
  refine maskV4_id fun f x b whole q after ip same found => ?_
  have quad := parseIpv4_quad found.address
  have before : last none (front ++ f) = last none f := by
    cases f with
    | nil =>
      rcases first with rfl | digit
      · rfl
      · rw [whole, List.nil_append, same, digitAt_quad quad after] at digit
        contradiction
    | cons y f =>
      have some : text (y :: f) ≠ [] := List.cons_ne_nil _ _
      rw [last_none, last_none, text_append, List.getLast?_append_of_ne_nil _ some]
  have stops : Stops (after ++ text back) := by
    rcases of.next with rfl | next
    · rw [text, List.map_nil, List.append_nil]
      exact found.stops
    · obtain ⟨⟨written, n⟩, hit⟩ := Option.ne_none_iff_exists'.mp next
      obtain ⟨_, _, _, -, -, here⟩ := v4Edit_some hit
      have ends : last none (front ++ part) = (q ++ after).getLast? := by
        rw [last_none, whole, text_append, text_append, same, ← List.append_assoc]
        obtain ⟨c, rest, named, -⟩ := quad_first quad
        exact List.getLast?_append_of_ne_nil _ (by rw [named]; exact List.cons_ne_nil _ _)
      rw [ends] at here
      by_cases some : after = []
      · obtain ⟨c, last, digit⟩ := quad_last quad
        rw [some, List.append_nil] at here
        rw [(here.before c last).1] at digit
        contradiction
      · refine found.stops.append ⟨after.getLast some, List.getLast?_eq_some_getLast some, here.before _ ?_⟩
        rw [List.getLast?_append_of_ne_nil _ some]
        exact List.getLast?_eq_some_getLast some
  have extended : text (x :: b ++ back) = q ++ (after ++ text back) := by
    rw [text_append, same, List.append_assoc]
  have hit := v4Edit_of_found (p := p) ⟨before ▸ found.before, found.address, found.shown, stops⟩ extended
  rw [of.nothing f x b whole] at hit
  exact Option.some_ne_none _ hit.symm

/-- No address is found in a part that is left by itself. -/
theorem part_masked {part : Marked} (member : part ∈ parts (v4Edit p) 0 none m) : maskV4 p part = part := by
  obtain ⟨head, others, back, same, first, later⟩ := parts_of p 0 none m
  rw [same] at member
  rcases List.mem_cons.mp member with rfl | inside
  · exact first.id (.inl rfl)
  · obtain ⟨digit, front, back, of⟩ := later part inside
    exact of.id (.inr digit)

theorem part_subset {part : Marked} (member : part ∈ parts (v4Edit p) 0 none m) : part ⊆ m := by
  obtain ⟨head, others, back, same, first, later⟩ := parts_of p 0 none m
  have inside : ∀ {front back : Marked}, PartOf p none m front part back → part ⊆ m := fun of => by
    intro x here
    rw [of.whole]
    exact List.mem_append_right _ (List.mem_append_left _ here)
  rw [same] at member
  rcases List.mem_cons.mp member with rfl | other
  · exact inside first
  · obtain ⟨-, front, back, of⟩ := later part other
    exact inside of

/-! ## Tags -/

def IsTag (p : Process) (m : Marked) : Prop := ∃ ip, m = put (ipTag p ip)

private theorem hexDigit_plain {n : ℕ} (small : n < 16) : hexDigit n ≠ ':' ∧ hexDigit n ≠ '.' ∧ hexDigit n ≠ '<' := by
  revert small
  decide +revert

private theorem mem_ipTag {c : Char} (member : c ∈ ipTag p ip) :
    c ∈ "<public IP >".toList ∨ ∃ n < 16, c = hexDigit n := by
  have bound := (p.hash ip.canonical).toNat_lt
  rcases List.mem_append.mp member with front | mark
  · rcases List.mem_append.mp front with words | digit
    · exact .inl (List.mem_append_left ['>'] words)
    · refine .inr ?_
      simp only [List.mem_cons, List.not_mem_nil, or_false] at digit
      rcases digit with rfl | rfl | rfl | rfl
      · exact ⟨_, by omega, rfl⟩
      · exact ⟨_, Nat.mod_lt _ (by decide), rfl⟩
      · exact ⟨_, Nat.mod_lt _ (by decide), rfl⟩
      · exact ⟨_, Nat.mod_lt _ (by decide), rfl⟩
  · exact .inl (List.mem_append_right "<public IP ".toList mark)

theorem ipTag_plain {c : Char} (mark : c = ':' ∨ c = '.') : c ∉ ipTag p ip := by
  intro member
  rcases mem_ipTag member with word | ⟨n, small, digit⟩
  · rcases mark with rfl | rfl <;> exact absurd word (by decide)
  · obtain ⟨colon, dot, -⟩ := hexDigit_plain small
    rcases mark with rfl | rfl
    · exact colon digit.symm
    · exact dot digit.symm

theorem tag_masked {tag : Marked} (isTag : IsTag p tag) : maskPublicIps p tag = tag := by
  obtain ⟨ip, rfl⟩ := isTag
  refine maskPublicIps_plain ?_ ?_
  · rw [text_put]
    exact ipTag_plain (.inl rfl)
  · rw [text_put]
    exact ipTag_plain (.inr rfl)

theorem tag_ends {tag : Marked} (isTag : IsTag p tag) :
    tag.head? = some ⟨'<', none⟩ ∧ tag.getLast? = some ⟨'>', none⟩ := by
  obtain ⟨ip, rfl⟩ := isTag
  have first : (ipTag p ip).head? = some '<' := by
    unfold ipTag
    rfl
  have last : (ipTag p ip).getLast? = some '>' := by
    unfold ipTag
    rw [List.getLast?_append]
    rfl
  rw [put, List.head?_map, List.getLast?_map, first, last]
  exact ⟨rfl, rfl⟩

/-- No stretch goes on into a tag. -/
theorem parted_tag {tag : Marked} (isTag : IsTag p tag) (rest : Marked) : Parted m (tag ++ rest) := by
  refine parted_over fun x first => ?_
  rw [List.head?_append, (tag_ends isTag).1, Option.some_or, Option.mem_some_iff] at first
  rw [← first]
  decide

/-- No stretch goes on out of a tag. -/
theorem tag_parted {tag : Marked} (isTag : IsTag p tag) (front : Marked) : Parted (front ++ tag) b := by
  intro x last char
  rw [List.getLast?_append, (tag_ends isTag).2, Option.some_or, Option.mem_some_iff] at last
  rw [← last] at char
  exact absurd char (by decide)

/-! ## Masking again -/

/-- Where public IPv4 addresses are, whatever is written for them. -/
def v4Cut : Edit := fun before rest => (v4At before rest.text).map fun (len, _) => ([], len)

/-- The parts of a stretch that are left beside its addresses, but for colons and dots at its end. -/
def leftParts (run : Marked) : List Marked :=
  match publicV6 (text run) with
  | some (start, _, _) => parts v4Cut 0 none (run.take start)
  | none => parts v4Cut 0 none run

theorem parts_v4Cut (p : Process) (m : Marked) : parts v4Cut 0 none m = parts (v4Edit p) 0 none m :=
  parts_congr (fun before m => by rw [v4Cut, v4Edit, Option.map_map, Option.map_map]; rfl) 0 none m

theorem woven_masked {list : List Marked} (woven : Woven (IsTag p) list m)
    (fixed : ∀ part ∈ list, maskPublicIps p part = part) : maskPublicIps p m = m := by
  induction woven with
  | last part => exact fixed part (List.mem_cons_self ..)
  | @between part tag others rest fits later ih =>
    have same := ih fun part member => fixed part (List.mem_cons_of_mem _ member)
    have apart : maskPublicIps p (tag ++ rest) = maskPublicIps p tag ++ maskPublicIps p rest :=
      maskPublicIps_append (tag_parted fits [])
    rw [maskPublicIps_append (parted_tag fits _), fixed part (List.mem_cons_self ..), apart, tag_masked fits, same]

theorem maskV4_woven (p : Process) (m : Marked) : Woven (IsTag p) (parts (v4Edit p) 0 none m) (maskV4 p m) :=
  rewrite_woven (fun _ _ _ _ found => v4Edit_put found) 0 none m

theorem part_fixed {part : Marked} (chars : ∀ x ∈ m, isIpChar x.char) (member : part ∈ parts (v4Edit p) 0 none m)
    (none_ : publicV6 (text part) = none) : maskPublicIps p part = part := by
  by_cases some : part = []
  · rw [some, maskPublicIps_nil]
  · rw [maskPublicIps_isRun ⟨some, fun x inside => chars x (part_subset member inside)⟩, maskRun, none_]
    exact part_masked member

/-- A masked stretch stays the same if its parts hold no IPv6 address. -/
theorem maskRun_masked {run : Marked} (isRun : IsRun run)
    (settled : ∀ part ∈ leftParts run, publicV6 (text part) = none) :
    maskPublicIps p (maskRun p run) = maskRun p run := by
  simp only [leftParts, parts_v4Cut p] at settled
  unfold maskRun
  cases reads : publicV6 (text run) with
  | none =>
    rw [reads] at settled
    exact woven_masked (maskV4_woven p run) fun part member => part_fixed isRun.2 member (settled part member)
  | some hit =>
    obtain ⟨start, stop, ip⟩ := hit
    rw [reads] at settled
    have v6 := publicV6_some reads
    have first := woven_masked (maskV4_woven p (run.take start)) fun part member =>
      part_fixed (fun x inside => isRun.2 x (List.mem_of_mem_take inside)) member (settled part member)
    have marks : ∀ c ∈ text (run.drop stop), c = ':' ∨ c = '.' := fun c member => by
      rw [text, List.map_drop] at member
      exact v6.ends c member
    have rest : maskV4 p (run.drop stop) = run.drop stop := maskV4_digitless fun c member => by
      rcases marks c member with rfl | rfl <;> decide
    have last : maskPublicIps p (run.drop stop) = run.drop stop := by
      by_cases some : run.drop stop = []
      · rw [some, maskPublicIps_nil]
      · rw [maskPublicIps_isRun ⟨some, fun x inside => isRun.2 x (List.mem_of_mem_drop inside)⟩, maskRun,
          publicV6_marks marks]
        exact rest
    have tag : IsTag p (put (ipTag p ip)) := ⟨ip, rfl⟩
    dsimp only
    rw [rest, maskPublicIps_append (tag_parted tag _), ← List.append_nil (put (ipTag p ip)),
      maskPublicIps_append (parted_tag tag []), List.append_nil, first, tag_masked tag, last]

/-! ## What masking again finds -/

theorem masked_over (past : Over m) : Over (maskPublicIps p m) := by
  cases m with
  | nil => exact past
  | cons x rest =>
    rw [maskPublicIps_other (past x rfl)]
    exact past

theorem masked_starts (starts : ∀ x ∈ m.getLast?, isIpChar x.char = false) :
    ∀ x ∈ (maskPublicIps p m).getLast?, isIpChar x.char = false := by
  induction m using List.reverseRecOn with
  | nil => exact starts
  | append_singleton m y =>
    have other := starts y List.getLast?_concat
    have past : Over [y] := fun x first => by
      obtain rfl := Option.some.inj first
      exact other
    rw [maskPublicIps_append (parted_over past), maskPublicIps_other other, maskPublicIps_nil]
    intro x last
    obtain rfl := Option.some.inj (List.getLast?_concat.symm.trans last)
    exact other

private theorem text_maskRun {run run' : Marked} (same : text run = text run') :
    text (maskRun p run) = text (maskRun p run') := by
  have blind : (v4Edit p).Blind := fun before m m' same => by rw [v4Edit, v4Edit, same]
  unfold maskRun
  rw [← same]
  split
  · next start stop ip _ =>
    have taken : text (run.take start) = text (run'.take start) := by
      rw [text, text, List.map_take, List.map_take]
      exact congrArg _ same
    have dropped : text (run.drop stop) = text (run'.drop stop) := by
      rw [text, text, List.map_drop, List.map_drop]
      exact congrArg _ same
    rw [text_append, text_append, text_append, text_append, maskV4, maskV4, maskV4, maskV4, rewrite_text blind taken,
      rewrite_text blind dropped]
  · exact rewrite_text blind same

/-- What is masked depends on the characters. -/
theorem text_maskPublicIps {m' : Marked} (same : text m = text m') :
    text (maskPublicIps p m) = text (maskPublicIps p m') := by
  refine rewrite_text (fun before a a' same => ?_) same
  have runs : text (a.takeWhile fun x => isIpChar x.char) = text (a'.takeWhile fun x => isIpChar x.char) := by
    have cut : ∀ a : Marked, text (a.takeWhile fun x => isIpChar x.char) = (text a).takeWhile isIpChar := fun a => by
      rw [text, text, List.takeWhile_map]
      rfl
    rw [cut, cut, same]
  have length := congrArg List.length runs
  rw [length_text, length_text] at length
  rw [runEdit, runEdit]
  dsimp only
  by_cases none_ : a.takeWhile (fun x => isIpChar x.char) = []
  · rw [none_, List.length_nil] at length
    rw [if_pos none_, if_pos (List.length_eq_zero_iff.mp length.symm)]
  · have some : a'.takeWhile (fun x => isIpChar x.char) ≠ [] := fun none' => by
      rw [none', List.length_nil] at length
      exact none_ (List.length_eq_zero_iff.mp length)
    rw [if_neg none_, if_neg some, Option.map_some, Option.map_some, text_maskRun runs, length]

theorem count_run {run : Marked} (chars : ∀ x ∈ run, isIpChar x.char) : (text run).count '<' = 0 := by
  refine List.count_eq_zero.mpr fun inside => ?_
  obtain ⟨x, member, char⟩ := List.mem_map.mp inside
  have ip := chars x member
  rw [char] at ip
  exact absurd ip (by decide)

/-- Masking leaves out no `<`. -/
theorem count_masked (p : Process) (m : Marked) : (text m).count '<' ≤ (text (maskPublicIps p m)).count '<' := by
  refine stretches (motive := fun m => (text m).count '<' ≤ (text (maskPublicIps p m)).count '<') ?_ ?_ ?_ m
  · exact Nat.le_refl _
  · intro x rest other ih
    rw [maskPublicIps_other other, text, text, List.map_cons, List.map_cons, List.count_cons, List.count_cons]
    exact Nat.add_le_add_right ih _
  · intro run rest isRun past ih
    rw [maskPublicIps_run isRun past, text_append, text_append, List.count_append, List.count_append, count_run isRun.2]
    omega

/-- A tag is written over an IPv6 address. -/
theorem count_found {part : Marked} (chars : ∀ x ∈ part, isIpChar x.char) (found : publicV6 (text part) ≠ none) :
    (text part).count '<' < (text (maskPublicIps p part)).count '<' := by
  have some : part ≠ [] := by
    rintro rfl
    exact found (publicV6_colonless List.not_mem_nil)
  obtain ⟨⟨start, stop, ip⟩, reads⟩ := Option.ne_none_iff_exists'.mp found
  rw [count_run chars, maskPublicIps_isRun ⟨some, chars⟩, maskRun, reads]
  dsimp only
  refine List.count_pos_iff.mpr ?_
  rw [text_append, text_append, text_put]
  refine List.mem_append_left _ (List.mem_append_right _ ?_)
  unfold ipTag
  exact List.mem_append_left _ (List.mem_append_left _ (List.mem_cons_self ..))

theorem woven_split {list : List Marked} (woven : Woven (IsTag p) list m) {part : Marked} (member : part ∈ list) :
    ∃ front back, m = front ++ (part ++ back) ∧ (front = [] ∨ ∃ f tag, IsTag p tag ∧ front = f ++ tag) ∧
      (back = [] ∨ ∃ tag b, IsTag p tag ∧ back = tag ++ b) := by
  induction woven with
  | last first =>
    obtain rfl := List.mem_singleton.mp member
    exact ⟨[], [], (List.append_nil _).symm, .inl rfl, .inl rfl⟩
  | @between first tag others rest fits later ih =>
    rcases List.mem_cons.mp member with rfl | inside
    · exact ⟨[], tag ++ rest, rfl, .inl rfl, .inr ⟨tag, rest, fits, rfl⟩⟩
    · obtain ⟨front, back, rfl, before, after⟩ := ih inside
      refine ⟨first ++ (tag ++ front), back, by simp only [List.append_assoc], .inr ?_, after⟩
      rcases before with rfl | ⟨f, tag', fits', rfl⟩
      · exact ⟨first, tag, fits, by rw [List.append_nil]⟩
      · exact ⟨first ++ (tag ++ f), tag', fits', by simp only [List.append_assoc]⟩

/-- Where a part of a stretch that is left stands. -/
theorem leftParts_split {run part : Marked} (member : part ∈ leftParts run) :
    ∃ front back, maskRun p run = front ++ (part ++ back) ∧ (front = [] ∨ ∃ f tag, IsTag p tag ∧ front = f ++ tag) ∧
      (back = [] ∨ ∃ tag b, IsTag p tag ∧ back = tag ++ b) := by
  simp only [leftParts, parts_v4Cut p] at member
  unfold maskRun
  cases reads : publicV6 (text run) with
  | none =>
    rw [reads] at member
    exact woven_split (maskV4_woven p run) member
  | some hit =>
    obtain ⟨start, stop, ip⟩ := hit
    rw [reads] at member
    obtain ⟨front, back, whole, before, after⟩ := woven_split (maskV4_woven p (run.take start)) member
    refine ⟨front, back ++ (put (ipTag p ip) ++ maskV4 p (run.drop stop)), ?_, before, .inr ?_⟩
    · dsimp only
      rw [whole]
      simp only [List.append_assoc]
    · rcases after with rfl | ⟨tag, b, fits, rfl⟩
      · exact ⟨put (ipTag p ip), _, ⟨ip, rfl⟩, rfl⟩
      · exact ⟨tag, _, fits, List.append_assoc ..⟩

theorem leftParts_subset {run part : Marked} (member : part ∈ leftParts run) : part ⊆ run := by
  simp only [leftParts, parts_v4Cut ⟨none, fun _ => 0⟩] at member
  split at member
  · exact fun x inside => List.mem_of_mem_take (part_subset member inside)
  · exact part_subset member

end StreamDelay.Control.Diagnostics
