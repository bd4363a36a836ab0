import StreamDelay.Proofs.LeftParts
import StreamDelay.Proofs.Tags

/-! # Public addresses are masked

Every public IPv4 address that is not part of a longer dotted number is replaced by a tag, unless a dot stands before
it. Text without public addresses is left as it is. Masking again changes nothing if what is left of a stretch, between
its tags, reads as no public IPv6 address by itself.
-/

namespace StreamDelay.Control.Diagnostics

open Foundations Text IpText Marked

variable {p : Process} {q m out : Marked} {ip : IpAddr} {t : Text}

/-! ## Whole texts -/

/-- A public IPv4 address that is not part of a longer dotted number. -/
structure Public (t front quad back : Text) : Prop where
  whole : t = front ++ (quad ++ back)
  address : ∃ ip, parseIpv4 quad = some ip ∧ isPublic ip
  digit : ∀ c ∈ front.getLast?, isDigit c = false
  dotted : ∀ rest, front = rest ++ ['.'] → ∀ c ∈ rest.getLast?, isDigit c = false
  stops : Stops back

/-- A text with no public address, as IPv6 addresses are read. -/
structure NoAddresses (t : Text) : Prop where
  quads : ∀ front quad back, ¬Public t front quad back
  runs : ∀ front run back, Stretch (given 0 t) front run back → publicV6 (text run) = none

/-- Every public IPv4 address is replaced by a tag. -/
def AllTagged (p : Process) (t : Text) : Prop :=
  ∀ front quad back, Public t front quad back →
    Tagged p (maskPublicIps p (given 0 t)) (given 0 front) (given (front.length + quad.length) back)

/-- A text without public addresses is left as it is. -/
def Kept (p : Process) (t : Text) : Prop := NoAddresses t → maskPublicIps p (given 0 t) = given 0 t

/-- Masking what is masked changes nothing. -/
def Again (p : Process) (t : Text) : Prop :=
  let shown := text (maskPublicIps p (given 0 t))
  text (maskPublicIps p (given 0 shown)) = shown

/-- No dot stands before a public IPv4 address. -/
def Undotted (t : Text) : Prop := ∀ front quad back, Public t front quad back → front.getLast? ≠ some '.'

/-- What is left of a stretch between its addresses holds no public IPv6 address. -/
def Settled (t : Text) : Prop :=
  ∀ front run back, Stretch (given 0 t) front run back → ∀ part ∈ leftParts run, publicV6 (text part) = none

private theorem isIpChar_of_quad {quad : Text} (isQuad : Quad quad) {c : Char} (member : c ∈ quad) : isIpChar c := by
  rcases quad_chars isQuad member with digit | rfl
  · rw [isIpChar, toDigit_of_isDigit digit]
    rfl
  · decide

/-- The stretch that an address stands in. -/
theorem stretch_around (front back : Marked) (some : q ≠ []) (chars : ∀ x ∈ q, isIpChar x.char) :
    ∃ before f b after, front = before ++ f ∧ back = b ++ after ∧
      Stretch (front ++ (q ++ back)) before (f ++ (q ++ b)) after := by
  have fore := (List.rdropWhile_append_rtakeWhile (p := fun x : Mark => isIpChar x.char) (l := front)).symm
  have aft := (List.takeWhile_append_dropWhile (p := fun x : Mark => isIpChar x.char) (l := back)).symm
  refine ⟨_, _, _, _, fore, aft, ?_, ⟨?_, fun x member => ?_⟩, fun x last => ?_, fun x first => ?_⟩
  · conv_lhs => rw [fore, aft]
    simp only [List.append_assoc]
  · exact List.append_ne_nil_of_right_ne_nil _ (List.append_ne_nil_of_left_ne_nil some _)
  · rcases List.mem_append.mp member with before | rest
    · exact List.mem_rtakeWhile_imp (p := fun x : Mark => isIpChar x.char) before
    · rcases List.mem_append.mp rest with here | after
      · exact chars x here
      · exact List.mem_takeWhile_imp (p := fun x : Mark => isIpChar x.char) after
  · have kept : front.rdropWhile (fun x => isIpChar x.char) ≠ [] := fun none_ => by
      rw [none_] at last
      contradiction
    have stopped := List.rdropWhile_last_not (fun x : Mark => isIpChar x.char) front kept
    rw [(List.getLast_eq_iff_getLast?_eq_some kept).mpr last] at stopped
    simpa using stopped
  · have stopped := List.head?_dropWhile_not (fun x : Mark => isIpChar x.char) back
    rw [first] at stopped
    simpa using stopped

private theorem given_parts (front quad back : Text) :
    given 0 (front ++ (quad ++ back)) =
      given 0 front ++ (given front.length quad ++ given (front.length + quad.length) back) := by
  rw [given_append, given_append, Nat.zero_add]

/-- The end of a part is the end of the whole. -/
theorem last_part {c : Char} (front part : Marked) (last : c ∈ (text part).getLast?) :
    c ∈ (text (front ++ part)).getLast? := by
  rw [text_append, List.getLast?_append, last]
  rfl

private theorem Tagged.around {before front back after left right : Marked} (tagged : Tagged p out front back)
    (first : ∀ x ∈ left, x.origin = none ∨ x ∈ before) (last : ∀ x ∈ right, x.origin = none ∨ x ∈ after) :
    Tagged p (left ++ (out ++ right)) (before ++ front) (back ++ after) := by
  obtain ⟨a, ip, c, rfl, fore, aft⟩ := tagged
  refine ⟨left ++ a, ip, c ++ right, by simp only [List.append_assoc], ?_, ?_⟩
  · intro x member
    rcases List.mem_append.mp member with outer | inner
    · exact (first x outer).imp_right (List.mem_append_left _)
    · exact (fore x inner).imp_right (List.mem_append_right _)
  · intro x member
    rcases List.mem_append.mp member with inner | outer
    · exact (aft x inner).imp_right (List.mem_append_left _)
    · exact (last x outer).imp_right (List.mem_append_right _)

private theorem allTagged (undotted : Undotted t) : AllTagged p t := by
  intro front quad back public_
  obtain ⟨ip, address, shown⟩ := public_.address
  have isQuad := parseIpv4_quad address
  obtain ⟨c, rest, named, -⟩ := quad_first isQuad
  have some : given front.length quad ≠ [] := by
    rw [named]
    exact List.cons_ne_nil _ _
  have chars : ∀ x ∈ given front.length quad, isIpChar x.char := fun x member =>
    isIpChar_of_quad isQuad (text_given front.length quad ▸ List.mem_map_of_mem member)
  obtain ⟨before, f, b, after, fore, aft, stretch⟩ :=
    stretch_around (given 0 front) (given (front.length + quad.length) back) some chars
  have found : Found (last none f) (text (given front.length quad)) (text b) ip := by
    refine ⟨fun c last => ?_, by rw [text_given]; exact address, shown, ?_⟩
    · rw [last_none] at last
      have ends := last_part before f last
      rw [← fore, text_given] at ends
      exact ⟨public_.digit c ends, fun dot => undotted front quad back public_ (dot ▸ ends)⟩
    · have part : text b <+: back := by
        rw [← text_given (front.length + quad.length) back, aft, text_append]
        exact List.prefix_append ..
      rw [List.prefix_iff_eq_take.mp part]
      exact public_.stops.take _
  have tagged := (maskRun_tags (p := p) found).around (fun x => mem_maskPublicIps (p := p) (m := before))
    (fun x => mem_maskPublicIps (p := p) (m := after))
  rw [public_.whole, given_parts, stretch.mask]
  rwa [← fore, ← aft] at tagged

private theorem undotted_of_tagged (tagged : AllTagged p t) : Undotted t := by
  intro front quad back public_ dot
  obtain ⟨rest, rfl⟩ := List.getLast?_eq_some_iff.mp dot
  obtain ⟨ip, address, shown⟩ := public_.address
  have isQuad := parseIpv4_quad address
  obtain ⟨c, others, rfl, digit⟩ := quad_first isQuad
  obtain ⟨before, f, b, after, fore, aft, stretch⟩ :=
    stretch_around (q := given (rest ++ ['.']).length (c :: others)) (given 0 (rest ++ ['.']))
      (given ((rest ++ ['.']).length + (c :: others).length) back) (List.cons_ne_nil _ _) fun x member =>
        isIpChar_of_quad isQuad (text_given (rest ++ ['.']).length (c :: others) ▸ List.mem_map_of_mem member)
  have lone : Lone f := by
    have dotted : given 0 (rest ++ ['.']) = given 0 rest ++ [⟨'.', some (0 + rest.length)⟩] := given_append ..
    rw [dotted] at fore
    rcases List.eq_nil_or_concat f with rfl | ⟨f, x, rfl⟩
    · rw [List.append_nil] at fore
      have ends := stretch.starts ⟨'.', some (0 + rest.length)⟩ (by rw [← fore]; exact List.getLast?_concat)
      change isIpChar '.' = false at ends
      exact absurd ends (by decide)
    · rw [List.concat_eq_append, ← List.append_assoc] at fore
      obtain ⟨same, mark⟩ := List.append_inj' fore rfl
      obtain rfl := (List.cons.inj mark).1
      refine ⟨f, _, List.concat_eq_append, rfl, fun c last => public_.dotted rest rfl c ?_⟩
      have ends := last_part before f last
      rwa [← same, text_given] at ends
  have shown := maskRun_keeps (p := p) (z := ⟨c, some (rest ++ ['.']).length⟩) lone digit
    (given ((rest ++ ['.']).length + 1) others ++ b)
  have here : (⟨c, some (rest ++ ['.']).length⟩ : Mark) ∈ maskPublicIps p (given 0 t) := by
    rw [public_.whole, given_parts, stretch.mask]
    exact List.mem_append_right _ (List.mem_append_left _ shown)
  obtain ⟨left, ip, right, whole, fores, afts⟩ := tagged _ _ _ public_
  rw [whole] at here
  rcases List.mem_append.mp here with first | rest_
  · rcases fores _ first with none_ | inside
    · exact Option.some_ne_none _ none_
    · obtain ⟨n, origin, -, high⟩ := mem_given inside
      obtain rfl := Option.some.inj origin
      omega
  · rcases List.mem_append.mp rest_ with tag | last
    · exact Option.some_ne_none _ (origin_put tag)
    · rcases afts _ last with none_ | inside
      · exact Option.some_ne_none _ none_
      · obtain ⟨n, origin, low, -⟩ := mem_given inside
        obtain rfl := Option.some.inj origin
        rw [List.length_cons] at low
        omega

private theorem not_ip {c : Char} (other : isIpChar c = false) : isDigit c = false ∧ c ≠ '.' := by
  constructor
  · cases digit : isDigit c with
    | false => rfl
    | true =>
      rw [isIpChar, toDigit_of_isDigit digit] at other
      contradiction
  · rintro rfl
    exact absurd other (by decide)

/-- A number that stops in a stretch stops in the text. -/
theorem Stops.append_over {after : Text} {back : Marked} (stops : Stops after) (past : Over back) :
    Stops (after ++ text back) := by
  have first : ∀ c ∈ (text back).head?, isDigit c = false ∧ c ≠ '.' := by
    intro c head
    rw [text, List.head?_map] at head
    obtain ⟨x, there, rfl⟩ := Option.map_eq_some_iff.mp head
    exact not_ip (past x there)
  have alone : digitAt (text back) 0 = false := by
    cases chars : text back with
    | nil => rfl
    | cons c rest => exact (first c (by rw [chars]; rfl)).1
  rcases after with _ | ⟨c, _ | ⟨d, after⟩⟩
  · refine ⟨alone, fun dot => absurd rfl (first '.' ?_).2⟩
    rw [List.head?_eq_getElem?]
    exact dot
  · exact ⟨stops.1, fun _ => alone⟩
  · exact stops

theorem kept (p : Process) (t : Text) : Kept p t := by
  intro none_
  refine maskPublicIps_id fun front run back stretch => ?_
  rw [maskRun, none_.runs front run back stretch]
  refine maskV4_id fun f x b whole q after ip same found => ?_
  -- Before the stretch there is neither digit nor dot.
  have fore : ∀ c ∈ (text front ++ text f).getLast?, isDigit c = false ∧ c ≠ '.' := by
    intro c last
    rw [List.getLast?_append] at last
    cases ends : (text f).getLast? with
    | some d =>
      rw [ends, Option.some_or] at last
      exact found.before c (by rw [last_none, ends]; exact last)
    | none =>
      rw [ends, Option.none_or, text, List.getLast?_map] at last
      obtain ⟨x, there, rfl⟩ := Option.map_eq_some_iff.mp last
      exact not_ip (stretch.starts x there)
  refine none_.quads (text front ++ text f) q (after ++ text back) ⟨?_, ⟨ip, found.address, found.shown⟩, ?_, ?_, ?_⟩
  · have parts := congrArg text stretch.whole
    rw [text_given, whole, text_append, text_append, text_append, same] at parts
    rw [parts]
    simp only [List.append_assoc]
  · intro c last
    exact (fore c last).1
  · intro rest dot c last
    exact absurd rfl (fore '.' (by rw [dot, List.getLast?_concat]; rfl)).2
  · exact found.stops.append_over stretch.past

/-- What is masked is masked already, if nothing that is left holds an IPv6 address. -/
theorem masked_again
    (settled : ∀ front run back, Stretch m front run back → ∀ part ∈ leftParts run, publicV6 (text part) = none) :
    maskPublicIps p (maskPublicIps p m) = maskPublicIps p m := by
  revert settled
  refine stretches (motive := fun m =>
    (∀ front run back, Stretch m front run back → ∀ part ∈ leftParts run, publicV6 (text part) = none) →
      maskPublicIps p (maskPublicIps p m) = maskPublicIps p m) ?_ ?_ ?_ m
  · exact fun _ => rfl
  · intro x rest other ih settled
    rw [maskPublicIps_other other, maskPublicIps_other other,
      ih fun front run back stretch => settled _ _ _ (stretch.behind (parted_other other))]
  · intro run rest isRun past ih settled
    have first : Stretch (run ++ rest) [] run rest :=
      ⟨rfl, isRun, fun x none_ => absurd none_ (Option.not_mem_none x), past⟩
    rw [maskPublicIps_run isRun past, maskPublicIps_append (parted_over (masked_over past)),
      maskRun_masked isRun (settled _ _ _ first),
      ih fun front run back stretch => settled _ _ _ (stretch.behind (parted_over past))]

theorem again_iff (p : Process) (t : Text) : Again p t ↔ Settled t := by
  unfold Again
  dsimp only
  rw [text_maskPublicIps (text_given 0 (text (maskPublicIps p (given 0 t))))]
  constructor
  · intro same front run back stretch part member
    by_contra found
    obtain ⟨fore, aft, whole, before, after⟩ := leftParts_split member
    have chars : ∀ x ∈ part, isIpChar x.char := fun x inside => stretch.isRun.2 x (leftParts_subset member inside)
    have parts : maskPublicIps p (given 0 t) =
        (maskPublicIps p front ++ fore) ++ (part ++ (aft ++ maskPublicIps p back)) := by
      rw [stretch.mask, whole]
      simp only [List.append_assoc]
    have left : Parted (maskPublicIps p front ++ fore) (part ++ (aft ++ maskPublicIps p back)) := by
      rcases before with rfl | ⟨f, tag, fits, rfl⟩
      · intro x last char
        rw [List.append_nil] at last
        rw [masked_starts stretch.starts x last] at char
        contradiction
      · rw [← List.append_assoc]
        exact tag_parted fits _
    have right : Parted part (aft ++ maskPublicIps p back) := by
      rcases after with rfl | ⟨tag, b, fits, rfl⟩
      · exact parted_over (masked_over stretch.past)
      · rw [List.append_assoc]
        exact parted_tag fits _
    have more := count_found (p := p) chars found
    have fewer := count_masked p (maskPublicIps p front ++ fore)
    have rest := count_masked p (aft ++ maskPublicIps p back)
    have counts := congrArg (List.count '<') same
    rw [parts, maskPublicIps_append left, maskPublicIps_append right] at counts
    simp only [text_append, List.count_append] at counts fewer rest
    omega
  · intro settled
    rw [masked_again settled]

/-- Public addresses are masked exactly if no dot stands before one and nothing that is left reads as another. -/
theorem masking_iff (p : Process) (t : Text) : AllTagged p t ∧ Kept p t ∧ Again p t ↔ Undotted t ∧ Settled t := by
  rw [again_iff]
  constructor
  · rintro ⟨tagged, -, settled⟩
    exact ⟨undotted_of_tagged tagged, settled⟩
  · rintro ⟨undotted, settled⟩
    exact ⟨allTagged undotted, kept p t, settled⟩

/-- An address after a dot that no digit stands before is shown. -/
theorem masking_misses :
    ¬(AllTagged ⟨none, fun _ => 0⟩ "host.8.8.8.8".toList ∧ Kept ⟨none, fun _ => 0⟩ "host.8.8.8.8".toList ∧
      Again ⟨none, fun _ => 0⟩ "host.8.8.8.8".toList) := by
  rintro ⟨tagged, -⟩
  refine undotted_of_tagged tagged "host.".toList "8.8.8.8".toList [] ⟨by decide, ?_, ?_, ?_,
    rfl, fun dot => absurd dot (by decide)⟩ (by decide)
  · exact ⟨.v4 8 8 8 8, by decide +kernel, by decide⟩
  · intro c last
    obtain rfl : '.' = c := Option.some.inj last
    rfl
  · intro rest same c last
    obtain rfl : "host".toList = rest := List.append_inj_left' same rfl
    obtain rfl : 't' = c := Option.some.inj last
    rfl

end StreamDelay.Control.Diagnostics
