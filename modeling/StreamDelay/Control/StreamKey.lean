import Mathlib.Tactic.Common
import StreamDelay.Config.Secrets
import StreamDelay.Control.Destination

/-! # The destination stream key

It is kept in the secret store together with the server it was saved for, and only ever used for that server.
-/

namespace StreamDelay.Control

open Foundations Config

def DESTINATION_KEY : String := "destination-key"

/-- How a value and whom it belongs to are written as one text, and what a text is read as: nothing, for one
that is not written so. -/
structure Records where
  encode : Text → Text → String
  decode : String → Option (Text × Text)
  decode_encode : ∀ owner value, decode (encode owner value) = some (owner, value)

namespace Records

/-- A JSON string, without its opening quote. -/
def quoted : Text → Text
  | [] => ['\x22']
  | c :: rest => if c = '\x22' ∨ c = '\x5c' then '\x5c' :: c :: quoted rest else c :: quoted rest

/-- What a JSON string is read as, and what comes after it. -/
def unquoted : Text → Option (Text × Text)
  | [] => none
  | '\x22' :: rest => some ([], rest)
  | '\x5c' :: c :: rest => (unquoted rest).map fun (t, after) => (c :: t, after)
  | c :: rest => (unquoted rest).map fun (t, after) => (c :: t, after)

theorem unquoted_quoted (t after : Text) : unquoted (quoted t ++ after) = some (t, after) := by
  induction t with
  | nil => rfl
  | cons c rest ih =>
    unfold quoted
    split_ifs with escaped
    · rw [List.cons_append, List.cons_append, unquoted, ih, Option.map_some]
    · obtain ⟨plain, solid⟩ := not_or.mp escaped
      rw [List.cons_append, unquoted, ih, Option.map_some]
      · exact plain
      · intro _ _ same
        exact absurd same solid

/-- JSON as it is written for texts without control characters. -/
def json : Records where
  encode owner value := String.ofList
    ("\x7b\"for\":\"".toList ++ (quoted owner ++ (",\"value\":\"".toList ++ (quoted value ++ ['\x7d']))))
  decode raw := do
    let (owner, raw) ← unquoted (← raw.toList.dropPrefix? "\x7b\"for\":\"".toList)
    let (value, raw) ← unquoted (← raw.dropPrefix? ",\"value\":\"".toList)
    if raw = ['\x7d'] then some (owner, value) else none
  decode_encode owner value := by
    have drop (head after : Text) : (head ++ after).dropPrefix? head = some after :=
      List.dropPrefix?_eq_some_iff.mpr ⟨head, rfl, beq_self_eq_true _⟩
    simp only [String.toList_ofList, drop, unquoted_quoted, bind, Option.bind_some, if_true]

end Records

/-- A saved secret and whom it belongs to; `none` for a value saved on its own by an older version. -/
structure Saved where
  owner : Option Text
  value : Text
deriving DecidableEq, Repr

namespace Saved

variable (records : Records)

/-- A text of the secret store. -/
def ofRaw (raw : String) : Saved :=
  match records.decode raw with
  | some (owner, value) => ⟨some owner, value⟩
  | none => ⟨none, raw.toList⟩

end Saved

namespace DestKey

variable (records : Records)

/-- The record of a key for the server of the destination URL `server`. -/
def record (server key : Text) : String := records.encode (splitUrlKey server).1 key

/-- Saves `key` for the server of the destination URL `server`. -/
def save (f : Faults) (server key : Text) (secrets : Secrets) : Secrets × Except SecretError Unit :=
  secrets.set f DESTINATION_KEY (record records server key)

def read (f : Faults) (secrets : Secrets) : Option Saved :=
  (secrets.value f DESTINATION_KEY).map (Saved.ofRaw records)

/-- The key, if it belongs to `url`'s server. A plain key saved by an older version belongs to
`legacyServer`. -/
def usedFor (url legacyServer : Text) (saved : Saved) : Option Text :=
  let server := saved.owner.getD legacyServer
  if saved.value ≠ [] ∧ differentServer server url = false then some saved.value else none

/-- The saved key, if it belongs to `url`'s server. -/
def forUrl (f : Faults) (url legacyServer : Text) (secrets : Secrets) : Option Text :=
  (read records f secrets).bind (usedFor url legacyServer)

end DestKey

end StreamDelay.Control
