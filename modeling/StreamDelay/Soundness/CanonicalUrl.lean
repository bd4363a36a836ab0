import StreamDelay.Control.Destination

/-! # Destination URLs have a canonical form

Without its stream key, an accepted URL is written with scheme, host, port and application only. What is written so
is accepted again as the same server, unless the application ends in white space, or the host was given in brackets
that it does not need and begins with one itself. A query of the application is kept up to its first slash.
-/

namespace StreamDelay.Rtmp.RtmpUrl

open Foundations Text

variable {s rest authority path host app front : Text} {scheme : Scheme} {port : ℕ} {key : Option Text} {u : RtmpUrl}

/-! ## What parsing finds -/

/-- The host begins with a bracket, and is written without brackets around it. -/
def Bracketed (host : Text) : Prop := host.head? = some '[' ∧ ':' ∉ host

instance (host : Text) : Decidable (Bracketed host) := inferInstanceAs (Decidable (_ ∧ _))

/-- The parts of an accepted URL. -/
structure Parts (s : Text) (u : RtmpUrl) (authority path : Text) : Prop where
  scheme : ∃ rest, splitScheme (trim s) = some (u.scheme, rest) ∧
    (authority, path) = (splitOnce '/' rest).getD (rest, [])
  slash : '/' ∉ authority
  marks : '@' ∉ authority ∧ '?' ∉ authority ∧ '#' ∉ authority
  host : splitHostPort authority (defaultPort u.scheme) = .ok (u.host, u.port)
  someHost : u.host ≠ []
  app : (splitPath path).1 = u.app
  someApp : u.app ≠ []
  made : u = make u.scheme u.host u.port u.app (splitPath path).2

private theorem parse_parts (parsed : parse s = .ok u) : ∃ authority path, Parts s u authority path := by
  unfold parse at parsed
  cases split : splitScheme (trim s) with
  | none => simp [split] at parsed
  | some found =>
    obtain ⟨scheme, rest⟩ := found
    simp only [split] at parsed
    have slash : '/' ∉ ((splitOnce '/' rest).getD (rest, [])).1 := by
      cases cut : splitOnce '/' rest with
      | none => exact splitOnce_none cut
      | some parts => exact (splitOnce_some cut).2
    generalize cut : (splitOnce '/' rest).getD (rest, []) = parts at parsed slash
    obtain ⟨authority, path⟩ := parts
    dsimp only at parsed slash
    by_cases login : '@' ∈ authority
    · simp [login] at parsed
    by_cases marks : '?' ∈ authority ∨ '#' ∈ authority
    · simp [login, marks] at parsed
    rw [if_neg login, if_neg marks] at parsed
    cases ends : splitHostPort authority (defaultPort scheme) with
    | error e => simp [ends] at parsed
    | ok found =>
      obtain ⟨host, port⟩ := found
      simp only [ends] at parsed
      by_cases noHost : host = []
      · simp [noHost] at parsed
      by_cases noApp : (splitPath path).1 = []
      · simp [noHost, noApp] at parsed
      rw [if_neg noHost, if_neg noApp] at parsed
      obtain rfl := (Except.ok.inj parsed).symm
      exact ⟨authority, path, ⟨rest, split, cut.symm⟩, slash, ⟨login, not_or.mp marks⟩, ends, noHost, rfl, noApp, rfl⟩

private theorem splitPath_slash (path : Text) : '/' ∉ (splitPath path).1 := by
  unfold splitPath
  split
  · next split => exact (splitOnce_some split).2
  · next split => exact splitOnce_none split

/-! ## The host is read back -/

private theorem readPort_range {p : Option Text} {default n : ℕ} (read : readPort p default = .ok n) :
    n = default ∨ n ≠ 0 ∧ n < 2 ^ 16 := by
  unfold readPort at read
  split at read
  · exact .inl (Except.ok.inj read).symm
  · split at read
    · next m found =>
      obtain rfl := Except.ok.inj read
      obtain ⟨parsed, some⟩ := Option.filter_eq_some_iff.mp found
      have small := (Option.filter_eq_some_iff.mp parsed).2
      exact .inr ⟨of_decide_eq_true some, of_decide_eq_true small⟩
    · contradiction

/-- Where a host stands in its authority. -/
inductive Stands (authority host : Text) : Prop where
  | bare (whole : authority = host) (colon : ':' ∉ host) (bracket : host.head? ≠ some '[')
  | port (tail : Text) (whole : authority = host ++ ':' :: tail) (colon : ':' ∉ host) (bracket : host.head? ≠ some '[')
  | bracketed (tail : Text) (whole : authority = '[' :: host ++ ']' :: tail) (closed : ']' ∉ host)

private theorem hostParts_stands {p : Option Text} (parts : hostParts authority = .ok (host, p)) :
    Stands authority host := by
  unfold hostParts at parts
  split at parts
  · next bracket =>
    have whole : authority = '[' :: authority.tail := by
      cases authority with
      | nil => contradiction
      | cons c rest => rw [Option.some.inj bracket, List.tail_cons]
    have stands : ∀ {h tail}, splitOnce ']' authority.tail = some (h, tail) → Stands authority h := by
      intro h tail cut
      obtain ⟨inner, closed⟩ := splitOnce_some cut
      exact .bracketed tail (by rw [whole, inner]; rfl) closed
    split at parts
    · contradiction
    · next cut =>
      obtain ⟨rfl, -⟩ := Prod.mk.inj (Except.ok.inj parts)
      exact stands cut
    · next cut =>
      split at parts
      · obtain ⟨rfl, -⟩ := Prod.mk.inj (Except.ok.inj parts)
        exact stands cut
      · contradiction
  · next bracket =>
    split at parts
    · next cut =>
      obtain ⟨rfl, -⟩ := Prod.mk.inj (Except.ok.inj parts)
      exact .bare rfl (splitOnce_none cut) bracket
    · next h tail cut =>
      obtain ⟨whole, colon⟩ := splitOnce_some cut
      split at parts
      · contradiction
      · obtain ⟨rfl, -⟩ := Prod.mk.inj (Except.ok.inj parts)
        refine .port tail whole colon fun first => bracket ?_
        rw [whole, List.head?_append, first]
        rfl

private theorem splitHostPort_found {default : ℕ} (split : splitHostPort authority default = .ok (host, port)) :
    Stands authority host ∧ (port = default ∨ port ≠ 0 ∧ port < 2 ^ 16) := by
  unfold splitHostPort at split
  cases parts : hostParts authority with
  | error e =>
    rw [parts] at split
    contradiction
  | ok found =>
    obtain ⟨h, p⟩ := found
    rw [parts] at split
    dsimp only at split
    cases read : readPort p default with
    | error e =>
      rw [read] at split
      contradiction
    | ok n =>
      rw [read] at split
      obtain ⟨rfl, rfl⟩ := Prod.mk.inj (Except.ok.inj split)
      exact ⟨hostParts_stands parts, readPort_range read⟩

/-- Every character of a host is one of its authority. -/
theorem Stands.subset (stands : Stands authority host) : host ⊆ authority := by
  cases stands with
  | bare whole => rw [whole]; exact List.Subset.refl _
  | port tail whole => rw [whole]; exact List.subset_append_left _ _
  | bracketed tail whole =>
    rw [whole, List.cons_append]
    exact List.subset_cons_of_subset _ (List.subset_append_left _ _)

/-- A host with a colon, or one that begins with a bracket, stood in brackets. -/
theorem Stands.closed (stands : Stands authority host) (odd : ':' ∈ host ∨ host.head? = some '[') : ']' ∉ host := by
  cases stands with
  | bare _ colon bracket => exact (odd.elim colon bracket).elim
  | port _ _ colon bracket => exact (odd.elim colon bracket).elim
  | bracketed _ _ closed => exact closed

/-- What follows a host. -/
def portTail : Option Text → Text
  | none => []
  | some p => ':' :: p

private theorem hostParts_lost {tail : Text} (lost : Bracketed host) (closed : ']' ∉ host) (free : ']' ∉ tail) :
    hostParts (host ++ tail) = .error .host := by
  obtain ⟨rest, rfl⟩ := List.head?_eq_some_iff.mp lost.1
  have absent : ']' ∉ rest ++ tail := by
    rw [List.mem_append, not_or]
    exact ⟨fun inside => closed (List.mem_cons_of_mem _ inside), free⟩
  rw [hostParts, List.cons_append, List.head?_cons, if_pos rfl, List.tail_cons, splitOnce_of_notMem absent]

theorem hostParts_brackets (closed : ']' ∉ host) (p : Option Text) :
    hostParts ('[' :: host ++ [']'] ++ portTail p) = .ok (host, p) := by
  have cut : splitOnce ']' (host ++ [']'] ++ portTail p) = some (host, portTail p) := by
    rw [List.append_assoc]
    exact splitOnce_append closed _
  rw [hostParts, List.cons_append, List.cons_append, List.head?_cons, if_pos rfl, List.tail_cons, cut]
  cases p with
  | none => rfl
  | some p => exact if_pos rfl

theorem hostParts_name (someHost : host ≠ []) (bracket : host.head? ≠ some '[') (colon : ':' ∉ host)
    {p : Option Text} (plain : ∀ t ∈ p, ':' ∉ t) : hostParts (host ++ portTail p) = .ok (host, p) := by
  obtain ⟨c, rest, rfl⟩ := List.exists_cons_of_ne_nil someHost
  rw [hostParts, if_neg (by rw [List.cons_append]; exact bracket)]
  cases p with
  | none => rw [portTail, List.append_nil, splitOnce_of_notMem colon]
  | some t =>
    rw [portTail, splitOnce_append colon]
    exact if_neg (plain t rfl)

/-! ## The authority is read back -/

/-- The port as it is written, unless it is the scheme's own. -/
def portText (scheme : Scheme) (port : ℕ) : Option Text :=
  if port = defaultPort scheme then none else some (decimal port)

private theorem authorityText_eq (scheme : Scheme) (host : Text) (port : ℕ) :
    authorityText scheme host port = hostForUrl host ++ portTail (portText scheme port) := by
  unfold authorityText portText
  split
  · exact (List.append_nil _).symm
  · rfl

private theorem portText_digits {p : Text} {c : Char} (written : p ∈ portText scheme port) (member : c ∈ p) :
    48 ≤ c.toNat ∧ c.toNat ≤ 57 := by
  unfold portText at written
  split at written
  · contradiction
  · rw [Option.mem_some_iff] at written
    exact decimal_digits (written ▸ member)

private theorem portTail_notMem {c : Char} (colon : c ≠ ':') (other : ¬(48 ≤ c.toNat ∧ c.toNat ≤ 57)) :
    c ∉ portTail (portText scheme port) := by
  intro member
  cases written : portText scheme port with
  | none =>
    rw [written] at member
    contradiction
  | some p =>
    rw [written, portTail, List.mem_cons] at member
    exact member.elim colon fun inside => other (portText_digits written inside)

private theorem readPort_portText (range : port = defaultPort scheme ∨ port ≠ 0 ∧ port < 2 ^ 16) :
    readPort (portText scheme port) (defaultPort scheme) = .ok port := by
  by_cases same : port = defaultPort scheme
  · rw [portText, if_pos same, same]
    rfl
  · obtain ⟨positive, small⟩ := range.resolve_left same
    have kept : (parseU16 (decimal port)).filter (fun n => n ≠ 0) = some port := by
      rw [parseU16_decimal positive small]
      exact Option.filter_eq_some_iff.mpr ⟨rfl, decide_eq_true positive⟩
    rw [portText, if_neg same, readPort, kept]

private theorem splitHostPort_written (stands : Stands authority host) (someHost : host ≠ [])
    (range : port = defaultPort scheme ∨ port ≠ 0 ∧ port < 2 ^ 16) :
    splitHostPort (authorityText scheme host port) (defaultPort scheme) =
      if Bracketed host then .error .host else .ok (host, port) := by
  have digits : ∀ t ∈ portText scheme port, ':' ∉ t := fun t written colon =>
    absurd (portText_digits written colon) (by decide)
  have parts : hostParts (authorityText scheme host port) =
      if Bracketed host then .error .host else .ok (host, portText scheme port) := by
    rw [authorityText_eq, hostForUrl]
    by_cases colon : ':' ∈ host
    · rw [if_pos colon, if_neg fun lost => lost.2 colon]
      exact hostParts_brackets (stands.closed (.inl colon)) _
    · rw [if_neg colon]
      by_cases bracket : host.head? = some '['
      · rw [if_pos ⟨bracket, colon⟩]
        exact hostParts_lost ⟨bracket, colon⟩ (stands.closed (.inr bracket)) (portTail_notMem (by decide) (by decide))
      · rw [if_neg fun lost => bracket lost.1]
        exact hostParts_name someHost bracket colon digits
  rw [splitHostPort, parts]
  split_ifs
  · rfl
  · dsimp only
    rw [readPort_portText range]

private theorem authorityText_notMem {c : Char} (absent : c ∉ host) (brackets : c ≠ '[' ∧ c ≠ ']' ∧ c ≠ ':')
    (other : ¬(48 ≤ c.toNat ∧ c.toNat ≤ 57)) : c ∉ authorityText scheme host port := by
  rw [authorityText_eq, List.mem_append, not_or]
  refine ⟨?_, portTail_notMem brackets.2.2 other⟩
  unfold hostForUrl
  split
  · rw [List.cons_append, List.mem_cons, List.mem_append, List.mem_singleton]
    rintro (first | inside | last)
    · exact brackets.1 first
    · exact absent inside
    · exact brackets.2.1 last
  · exact absent

/-! ## The whole is read back -/

theorem splitScheme_written (scheme : Scheme) (rest : Text) :
    splitScheme (schemeText scheme ++ "://".toList ++ rest) = some (scheme, rest) := by
  cases scheme <;> rfl

private theorem splitPath_written (slash : '/' ∉ app) : splitPath app = (app, none) := by
  have different : ∀ c ∈ app, decide (c = '/') = false := fun c member =>
    decide_eq_false fun same => slash (same ▸ member)
  have trimmed : trimBy (· = '/') app = app :=
    trimBy_of_trimmed ⟨fun c first => different c (List.mem_of_mem_head? first),
      fun c last => different c (List.mem_of_mem_getLast? last)⟩
  rw [splitPath, trimmed, splitOnce_of_notMem slash]

theorem trim_written (scheme : Scheme) (middle app : Text) :
    trim (schemeText scheme ++ "://".toList ++ (middle ++ '/' :: app)) =
      schemeText scheme ++ "://".toList ++ (middle ++ '/' :: app.rdropWhile isWhite) := by
  have front : ∀ rest, (schemeText scheme ++ "://".toList ++ rest).dropWhile isWhite =
      schemeText scheme ++ "://".toList ++ rest := by
    intro rest
    cases scheme <;> exact List.dropWhile_cons_of_neg (by decide)
  rw [trim, trimBy, front]
  have stop : ∀ c ∈ (schemeText scheme ++ "://".toList ++ (middle ++ ['/'])).getLast?, isWhite c = false := by
    intro c last
    rw [← List.append_assoc, List.getLast?_concat, Option.mem_some_iff] at last
    subst last
    decide
  have parts : ∀ app, schemeText scheme ++ "://".toList ++ (middle ++ '/' :: app) =
      schemeText scheme ++ "://".toList ++ (middle ++ ['/']) ++ app := by
    intro app
    simp only [List.append_assoc, List.singleton_append]
  rw [parts app, rdropWhile_append stop, parts (app.rdropWhile isWhite)]

theorem Parts.written (parts : Parts s u authority path) :
    u.tcUrl = schemeText u.scheme ++ "://".toList ++ (authorityText u.scheme u.host u.port ++ '/' :: u.app) := by
  rw [← List.append_assoc]
  exact congrArg tcUrl parts.made

/-- The authority is written in characters of the given one, brackets, a colon and digits. -/
theorem Parts.free (parts : Parts s u authority path) {c : Char} (absent : c ∉ authority)
    (brackets : c ≠ '[' ∧ c ≠ ']' ∧ c ≠ ':') (other : ¬(48 ≤ c.toNat ∧ c.toNat ≤ 57)) :
    c ∉ authorityText u.scheme u.host u.port :=
  authorityText_notMem (fun inside => absent ((splitHostPort_found parts.host).1.subset inside)) brackets other

/-- The URL without its key is read as the same, but for white space at its end and brackets it has lost. -/
theorem parse_tcUrl (parsed : parse s = .ok u) :
    parse u.tcUrl =
      if Bracketed u.host then .error .host
      else if u.app.rdropWhile isWhite = [] then .error .app
      else .ok (make u.scheme u.host u.port (u.app.rdropWhile isWhite) none) := by
  obtain ⟨authority, path, parts⟩ := parse_parts parsed
  obtain ⟨stands, range⟩ := splitHostPort_found parts.host
  have appSlash : '/' ∉ u.app := parts.app ▸ splitPath_slash path
  have slash : '/' ∉ u.app.rdropWhile isWhite := fun inside =>
    appSlash ((List.rdropWhile_prefix isWhite _).subset inside)
  have login := parts.free parts.marks.1 (by decide) (by decide)
  have question := parts.free parts.marks.2.1 (by decide) (by decide)
  have hash := parts.free parts.marks.2.2 (by decide) (by decide)
  rw [parts.written, parse, trim_written, splitScheme_written]
  dsimp only
  rw [splitOnce_append (parts.free parts.slash (by decide) (by decide))]
  dsimp only [Option.getD_some]
  rw [if_neg login, if_neg (not_or.mpr ⟨question, hash⟩), splitHostPort_written stands parts.someHost range]
  by_cases lost : Bracketed u.host
  · rw [if_pos lost, if_pos lost]
  · rw [if_neg lost, if_neg lost]
    dsimp only [Option.getD_some]
    rw [if_neg parts.someHost]
    simp only [splitPath_written slash]

/-! ## The application in the text -/

/-- The path's first segment. -/
def segment (path : Text) : Text := (path.dropWhile (· = '/')).takeWhile (· ≠ '/')

private theorem splitPath_segment (path : Text) : (splitPath path).1 = segment path := by
  have first : (splitPath path).1 =
      ((splitOnce '/' (trimBy (· = '/') path)).map Prod.fst).getD (trimBy (· = '/') path) := by
    unfold splitPath
    split
    · next cut => rw [cut]; rfl
    · next cut => rw [cut]; rfl
  rw [first, splitOnce_takeWhile, trimBy, takeWhile_rdropWhile, segment]

/-- The authority and the path of a text with a scheme. -/
def address (s : Text) : Option (Text × Text) :=
  (splitScheme (trim s)).map fun (_, rest) => (splitOnce '/' rest).getD (rest, [])

/-- The application's name and its query, as they are given. -/
def queryGiven (s : Text) : Option (Text × Text) :=
  (address s).bind fun (_, path) => (splitOnce '?' (path.dropWhile (· = '/'))).filter fun (name, _) => '/' ∉ name

theorem Parts.address (parts : Parts s u authority path) : address s = some (authority, path) := by
  obtain ⟨rest, split, cut⟩ := parts.scheme
  rw [RtmpUrl.address, split, Option.map_some, cut]

/-- The application is cut from the given query at the query's first slash. -/
theorem Parts.query (parts : Parts s u authority path) {name q : Text} (given : queryGiven s = some (name, q)) :
    u.app = name ++ '?' :: q.takeWhile (· ≠ '/') := by
  rw [queryGiven, parts.address, Option.bind_some] at given
  obtain ⟨cut, plain⟩ := Option.filter_eq_some_iff.mp given
  obtain ⟨whole, -⟩ := splitOnce_some cut
  have before : ∀ c ∈ name, decide (c ≠ '/') = true := fun c member =>
    decide_eq_true fun same => of_decide_eq_true plain (same ▸ member)
  rw [← parts.app, splitPath_segment, segment, whole, List.takeWhile_append_of_pos before,
    List.takeWhile_cons_of_pos (by decide)]

private theorem Parts.host_bracketed (parts : Parts s u authority path) {host tail : Text}
    (doubled : splitOnce ']' authority = some ('[' :: '[' :: host, tail)) : u.host = '[' :: host := by
  obtain ⟨whole, closed⟩ := splitOnce_some doubled
  obtain ⟨stands, -⟩ := splitHostPort_found parts.host
  cases stands with
  | bare same _ bracket =>
    rw [← same, whole] at bracket
    exact absurd rfl bracket
  | port rest same _ bracket =>
    obtain ⟨c, front, named⟩ := List.exists_cons_of_ne_nil parts.someHost
    rw [whole, named] at same
    rw [named] at bracket
    exact absurd (congrArg some (List.cons.inj same).1).symm bracket
  | bracketed rest same inner =>
    have cut : splitOnce ']' ('[' :: u.host ++ ']' :: rest) = some ('[' :: u.host, rest) :=
      splitOnce_append (by simpa using inner) rest
    rw [← same, doubled] at cut
    exact ((List.cons.inj (Prod.mk.inj (Option.some.inj cut)).1).2).symm

private theorem Parts.doubled (parts : Parts s u authority path) (lost : Bracketed u.host) :
    ∃ host tail, splitOnce ']' authority = some ('[' :: '[' :: host, tail) ∧ u.host = '[' :: host := by
  obtain ⟨stands, -⟩ := splitHostPort_found parts.host
  cases stands with
  | bare _ _ bracket => exact absurd lost.1 bracket
  | port _ _ _ bracket => exact absurd lost.1 bracket
  | bracketed rest same inner =>
    obtain ⟨host, named⟩ := List.head?_eq_some_iff.mp lost.1
    refine ⟨host, rest, ?_, named⟩
    rw [same, ← named]
    exact splitOnce_append (by simpa using inner) rest

end StreamDelay.Rtmp.RtmpUrl

namespace StreamDelay.Control

open Foundations Text Rtmp RtmpUrl

variable {s : Text} {u : RtmpUrl}

/-! ## The canonical form -/

/-- The URL without its key is the same destination, whose server is the one that was written. -/
structure Canonical (s : Text) (u : RtmpUrl) : Prop where
  again : parse u.tcUrl = .ok { u with streamKey := none }
  onward : differentServer s (splitUrlKey s).1 = false
  back : differentServer (splitUrlKey s).1 s = false

/-- A query of the application without white space is kept whole. -/
def QueryKept (s : Text) (u : RtmpUrl) : Prop :=
  ∀ name q, queryGiven s = some (name, q) → (∀ c ∈ q, isWhite c = false) → u.app = name ++ '?' :: q

def appName (u : RtmpUrl) : Text := u.app.takeWhile (· ≠ '?')

/-- What is shown of a destination depends on neither its key nor what its query is. -/
def Hidden (u : RtmpUrl) : Prop :=
  ∀ t v, parse t = .ok v → v.scheme = u.scheme → v.host = u.host → v.port = u.port → appName v = appName u →
    ('?' ∈ v.app ↔ '?' ∈ u.app) → v.redacted = u.redacted

/-- A URL with none of what is not written back the same. -/
structure Plain (s : Text) : Prop where
  /-- No white space at the end of the application. -/
  ending : ∀ authority path, address s = some (authority, path) → ∀ c ∈ (segment path).getLast?, isWhite c = false
  /-- No host that begins with a bracket, in brackets that it does not need. -/
  brackets : ∀ authority path, address s = some (authority, path) →
    ∀ host tail, splitOnce ']' authority = some ('[' :: '[' :: host, tail) → ':' ∈ host
  /-- No slash in the query. -/
  query : ∀ name q, queryGiven s = some (name, q) → (∀ c ∈ q, isWhite c = false) → '/' ∉ q

private theorem differentServer_same {t : Text} {v : RtmpUrl} (parsed : parse s = .ok u) (other : parse t = .ok v)
    (scheme : v.scheme = u.scheme) (host : v.host = u.host) (port : v.port = u.port) (app : v.app = u.app) :
    differentServer s t = false := by
  rw [differentServer, parsed, other]
  dsimp only
  rw [encrypted, encrypted, scheme, host, port, app]
  cases service (u.host.map Char.toLower) <;> simp

private theorem splitUrlKey_fst (parsed : parse s = .ok u) :
    (splitUrlKey s).1 = if u.streamKey.isSome then u.tcUrl else s := by
  rw [splitUrlKey, parsed]
  dsimp only
  split <;> rfl

private theorem Canonical.of_again (parsed : parse s = .ok u)
    (again : parse u.tcUrl = .ok { u with streamKey := none }) :
    Canonical s u := by
  have rest : ∃ v, parse (splitUrlKey s).1 = .ok v ∧ v.scheme = u.scheme ∧ v.host = u.host ∧ v.port = u.port ∧
      v.app = u.app := by
    rw [splitUrlKey_fst parsed]
    split
    · exact ⟨_, again, rfl, rfl, rfl, rfl⟩
    · exact ⟨u, parsed, rfl, rfl, rfl, rfl⟩
  obtain ⟨v, read, scheme, host, port, app⟩ := rest
  exact ⟨again, differentServer_same parsed read scheme host port app,
    differentServer_same read parsed scheme.symm host.symm port.symm app.symm⟩

theorem again_iff (parsed : parse s = .ok u) :
    parse u.tcUrl = .ok { u with streamKey := none } ↔
      ¬Bracketed u.host ∧ ∀ c ∈ u.app.getLast?, isWhite c = false := by
  obtain ⟨authority, path, parts⟩ := parse_parts parsed
  have trimmed : u.app.rdropWhile isWhite = u.app ↔ ∀ c ∈ u.app.getLast?, isWhite c = false := by
    rw [List.rdropWhile_eq_self_iff]
    constructor
    · intro last c there
      rw [← (List.getLast_eq_iff_getLast?_eq_some parts.someApp).mpr there]
      simpa using last parts.someApp
    · intro last some
      rw [last _ (List.getLast?_eq_some_getLast some)]
      exact Bool.false_ne_true
  rw [parse_tcUrl parsed]
  constructor
  · intro same
    split at same
    · contradiction
    · next whole =>
      split at same
      · contradiction
      · exact ⟨whole, trimmed.mp (congrArg app (Except.ok.inj same))⟩
  · rintro ⟨whole, last⟩
    rw [if_neg whole, trimmed.mpr last, if_neg parts.someApp]
    conv_rhs => rw [parts.made]
    rfl

/-- What is shown is written with the application's name only. -/
theorem redacted_eq (parsed : parse s = .ok u) :
    u.redacted = schemeText u.scheme ++ "://".toList ++ authorityText u.scheme u.host u.port ++ ['/'] ++ appName u ++
      if '?' ∈ u.app then "?…".toList else [] := by
  obtain ⟨authority, path, parts⟩ := parse_parts parsed
  have scheme : '?' ∉ schemeText u.scheme ++ "://".toList := by
    cases u.scheme <;> decide
  have front : '?' ∉ schemeText u.scheme ++ "://".toList ++ authorityText u.scheme u.host u.port ++ ['/'] := by
    rw [List.mem_append, List.mem_append, not_or, not_or]
    exact ⟨⟨scheme, parts.free parts.marks.2.1 (by decide) (by decide)⟩, by decide⟩
  have whole : u.tcUrl =
      schemeText u.scheme ++ "://".toList ++ authorityText u.scheme u.host u.port ++ ['/'] ++ u.app := by
    rw [parts.written]
    simp only [List.append_assoc, List.singleton_append]
  generalize schemeText u.scheme ++ "://".toList ++ authorityText u.scheme u.host u.port ++ ['/'] = head at *
  rw [redacted, whole, appName, ← splitOnce_takeWhile]
  cases cut : splitOnce '?' u.app with
  | none =>
    have absent := splitOnce_none cut
    have never : '?' ∉ head ++ u.app := by
      rw [List.mem_append, not_or]
      exact ⟨front, absent⟩
    rw [splitOnce_of_notMem never, if_neg absent]
    exact (List.append_nil _).symm
  | some found =>
    obtain ⟨name, q⟩ := found
    obtain ⟨named, absent⟩ := splitOnce_some cut
    have asked : '?' ∈ u.app := by
      rw [named, List.mem_append]
      exact .inr (List.mem_cons_self ..)
    have before : '?' ∉ head ++ name := by
      rw [List.mem_append, not_or]
      exact ⟨front, absent⟩
    have shown := splitOnce_append before q
    rw [if_pos asked, named, ← List.append_assoc, shown]
    rfl

private theorem hidden_of_parsed (parsed : parse s = .ok u) : Hidden u := by
  intro t v other scheme host port name asked
  rw [redacted_eq parsed, redacted_eq other, scheme, host, port, name]
  simp only [asked]

/-- An accepted URL has a canonical form exactly if it is plain. -/
theorem url_canonical (parsed : parse s = .ok u) : Canonical s u ∧ QueryKept s u ∧ Hidden u ↔ Plain s := by
  obtain ⟨authority, path, parts⟩ := parse_parts parsed
  have app : segment path = u.app := (splitPath_segment path).symm.trans parts.app
  constructor
  · rintro ⟨canonical, kept, -⟩
    obtain ⟨whole, last⟩ := (again_iff parsed).mp canonical.again
    refine ⟨?_, ?_, ?_⟩
    · intro a p found
      obtain ⟨rfl, rfl⟩ := Prod.mk.inj (Option.some.inj (parts.address.symm.trans found))
      rwa [app]
    · intro a p found host tail doubled
      obtain ⟨rfl, rfl⟩ := Prod.mk.inj (Option.some.inj (parts.address.symm.trans found))
      by_contra colon
      have named := parts.host_bracketed doubled
      refine whole ⟨by rw [named]; rfl, ?_⟩
      rw [named, List.mem_cons, not_or]
      exact ⟨by decide, colon⟩
    · intro name q given white slash
      have cut := (parts.query given).symm.trans (kept name q given white)
      have same := (List.cons.inj (List.append_cancel_left cut)).2
      exact absurd rfl (of_decide_eq_true (List.takeWhile_eq_self_iff.mp same '/' slash))
  · intro plain
    have again : parse u.tcUrl = .ok { u with streamKey := none } := by
      refine (again_iff parsed).mpr ⟨fun lost => ?_, ?_⟩
      · obtain ⟨host, tail, doubled, named⟩ := parts.doubled lost
        refine lost.2 ?_
        rw [named]
        exact List.mem_cons_of_mem _ (plain.brackets _ _ parts.address host tail doubled)
      · rw [← app]
        exact plain.ending _ _ parts.address
    refine ⟨.of_again parsed again, ?_, hidden_of_parsed parsed⟩
    intro name q given white
    have slash := plain.query name q given white
    rw [parts.query given, List.takeWhile_eq_self_iff.mpr]
    intro c member
    exact decide_eq_true fun same => slash (same ▸ member)

/-- A URL with a port and a query, and one with a port, a key and a query of the key. -/
theorem url_canonical_key :
    (let s := "RTMPS://live.example:443/app?a=1".toList
      let u := make .rtmps "live.example".toList 443 "app?a=1".toList none
      Canonical s u ∧ QueryKept s u ∧ Hidden u) ∧
    let s := "rtmp://live.example:1936/app/key?a=1".toList
    let u := make .rtmp "live.example".toList 1936 "app".toList (some "key?a=1".toList)
    Canonical s u ∧ QueryKept s u ∧ Hidden u := by
  have plain {s : Text} (authority path : Text) (parts : address s = some (authority, path))
      (ending : (segment path).getLast?.any isWhite = false) (bracket : splitOnce ']' authority = none)
      (slash : ∀ name q, queryGiven s = some (name, q) → '/' ∉ q) : Plain s := by
    refine ⟨fun a p found => ?_, fun a p found host tail twice => ?_, fun name q given _ => slash name q given⟩
    · obtain ⟨rfl, rfl⟩ := Prod.mk.inj (Option.some.inj (parts.symm.trans found))
      intro c last
      rwa [Option.mem_def.mp last, Option.any_some] at ending
    · obtain ⟨rfl, rfl⟩ := Prod.mk.inj (Option.some.inj (parts.symm.trans found))
      rw [bracket] at twice
      contradiction
  constructor
  · refine (url_canonical (by decide +kernel)).mpr (plain "live.example:443".toList "app?a=1".toList
      (by decide +kernel) (by decide +kernel) (by decide +kernel) fun name q given => ?_)
    obtain ⟨rfl, rfl⟩ := Prod.mk.inj (Option.some.inj
      (given.symm.trans (show _ = some ("app".toList, "a=1".toList) by decide +kernel)))
    decide
  · refine (url_canonical (by decide +kernel)).mpr (plain "live.example:1936".toList "app/key?a=1".toList
      (by decide +kernel) (by decide +kernel) (by decide +kernel) fun name q given => ?_)
    exact absurd (given.symm.trans (show _ = none by decide +kernel)) (Option.some_ne_none _)

/-- A key entered with this URL is kept for another application than the one it was entered for. -/
theorem url_not_canonical :
    let s := "rtmp://host/app /key".toList
    ∃ u, parse s = .ok u ∧ splitUrlKey s = (u.tcUrl, some "key".toList) ∧ differentServer s u.tcUrl ∧
      ¬(Canonical s u ∧ QueryKept s u ∧ Hidden u) := by
  refine ⟨make .rtmp "host".toList 1935 "app ".toList (some "key".toList), by decide +kernel, by decide +kernel,
    by decide +kernel, ?_⟩
  rintro ⟨canonical, -⟩
  exact absurd canonical.again (by decide +kernel)

end StreamDelay.Control
