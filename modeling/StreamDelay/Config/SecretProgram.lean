import StreamDelay.Config.Secrets
import StreamDelay.Foundations.Program

/-! # The secret store, one access at a time

The operations on a secret as programs that access the keychain and the file, so that they can be stopped between any
two accesses.
-/

namespace StreamDelay.Config

open Foundations

/-- Which of the accesses of its kind that an operation makes. -/
inductive Turn where
  | first
  /-- Looks for an older copy in a keychain that refused the new one. -/
  | older
  /-- Undoes what was done before another access failed. -/
  | undo
deriving DecidableEq, Repr

inductive Access where
  | read
  /-- A damaged file is moved aside. -/
  | moveAside
  | write (turn : Turn) (map : Copies)
  | get (turn : Turn) (name : String)
  | set (turn : Turn) (name value : String)
  | delete (turn : Turn) (name : String)

abbrev Access.Answer : Access → Type
  | read => Except String FileState
  | get .. => Except String (Option String)
  | _ => Except String Unit

namespace Secrets

/-- An access fails and changes nothing, or answers `a` and leaves `s'`. -/
def Attempted {α : Type} (before after : Secrets) (answer : Except String α) (s' : Secrets) (a : α) : Prop :=
  answer = .ok a ∧ after = s' ∨ (∃ why, answer = .error why) ∧ after = before

/-- What an access can do, and answer. -/
def serve : Program.Service Access Access.Answer Secrets
  | .read, s, s', answer => Attempted s s' answer s s.file
  | .moveAside, s, s', answer => Attempted s s' answer { s with file := .readable fun _ => none } ()
  | .write _ map, s, s', answer => Attempted s s' answer { s with file := .readable map } ()
  | .get _ name, s, s', answer => Attempted s s' answer s (s.keychain.bind fun k => k name)
  | .set _ name value, s, s', answer =>
    match s.keychain with
    | some k => Attempted s s' answer (s.keep k name (some value)) ()
    | none => (∃ why, answer = .error why) ∧ s' = s
  | .delete _ name, s, s', answer =>
    match s.keychain with
    | some k => Attempted s s' answer (s.keep k name none) ()
    | none => (∃ why, answer = .error why) ∧ s' = s

end Secrets

/-- A program on the secret store. -/
abbrev OnStore (α : Type) := Program Access Access.Answer (Except SecretError α)

namespace OnStore

open Program

def fails {α : Type} (error : String → SecretError) (p : Program Access Access.Answer (Except String α)) : OnStore α :=
  p.andThen fun answer => done (answer.mapError error)

/-- What is read of `name` that the file does not hold, or could not be read for. -/
def ask (keychain : Bool) (name : String) (fileError : Option SecretError) : OnStore (Option String) :=
  if keychain then
    (fails .keychain (perform (Access.get .first name))).orFail fun found => done (Secrets.answer fileError found)
  else done (Secrets.answer fileError none)

/-- `try_get` -/
def get (keychain : Bool) (name : String) : OnStore (Option String) :=
  (fails .file (perform Access.read)).andThen fun
    | .ok (.readable map) =>
      match map name with
      | some v => done (.ok (some v))
      | none => ask keychain name none
    | .ok (.damaged why) => ask keychain name (some (.damaged why))
    | .error e => ask keychain name (some e)

/-- The file's secrets, to change and write back. -/
def loadForWrite : OnStore Copies :=
  (fails .file (perform Access.read)).orFail fun
    | .readable map => done (.ok map)
    | .damaged _ =>
      (fails .file (perform Access.moveAside)).orFail fun () => done (.ok fun _ => none)

def writeFile (turn : Turn) (map : Copies) : OnStore Unit := fails .file (perform (Access.write turn map))

/-- Removes `name` from the file, if it is there. -/
def removeFromFile (name : String) : OnStore Unit :=
  loadForWrite.orFail fun map =>
  if (map name).isSome then writeFile .first (Function.update map name none) else done (.ok ())

/-- What the keychain held is put back, where it could be read. -/
def undoSet (name : String) (previous : Except String (Option String)) :
    Program Access Access.Answer (Except String Unit) :=
  match previous with
  | .ok (some old) => perform (Access.set .undo name old)
  | .ok none => perform (Access.delete .undo name)
  | .error e => done (.error e)

/-- The second half of `set`: the value goes to the file, whose content is `map`, and an older copy the keychain still
holds is removed. -/
def setInFile (keychain : Bool) (name value : String) (map : Copies) : OnStore Unit :=
  (writeFile .first (Function.update map name (some value))).orFail fun () =>
  if keychain then
    (perform (Access.get .older name)).andThen fun
      | .ok none => done (.ok ())
      | _ =>
        (perform (Access.delete .first name)).andThen fun
          | .ok () => done (.ok ())
          | .error e => (writeFile .undo map).andThen fun _ => done (.error (.staleCopy e))
  else done (.ok ())

def set (keychain : Bool) (name value : String) : OnStore Unit :=
  -- The file first: if it cannot be read, nothing has changed.
  loadForWrite.orFail fun map =>
  if keychain then
    -- What to put back if the file cannot be updated.
    (perform (Access.get .first name)).andThen fun previous =>
    (perform (Access.set .first name value)).andThen fun
      | .ok () =>
        -- A copy left in the file would take precedence over this one.
        if (map name).isSome then
          (writeFile .first (Function.update map name none)).andThen fun
            | .ok () => done (.ok ())
            | .error e => (undoSet name previous).andThen fun _ => done (.error e)
        else done (.ok ())
      | .error _ => setInFile keychain name value map
  else setInFile keychain name value map

def delete (keychain : Bool) (name : String) : OnStore Unit :=
  if keychain then
    -- The keychain first: if that fails, nothing has changed.
    (fails .keychain (perform (Access.delete .first name))).orFail fun () => removeFromFile name
  else removeFromFile name

/-- An operation, with what it answers. -/
def program (keychain : Bool) : SecretOp → OnStore (Option String)
  | .get name => get keychain name
  | .set name value => (set keychain name value).orFail fun () => done (.ok none)
  | .delete name => (delete keychain name).orFail fun () => done (.ok none)

end OnStore

end StreamDelay.Config
