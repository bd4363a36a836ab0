import Mathlib.Tactic.Common
import Mathlib.Logic.Function.Basic
import StreamDelay.Foundations.Machine

/-! # The secret store

The system keychain, with a private file as fallback. Every access to either can fail, with a message
and without effect: which do, and the messages, are given with the operation.
-/

namespace StreamDelay.Config

/-- Why a secret could not be read, saved or removed. -/
inductive SecretError where
  /-- The system keychain failed. -/
  | keychain (why : String)
  /-- The secrets file could not be read or written. -/
  | file (why : String)
  /-- The secrets file exists but does not parse. -/
  | damaged (why : String)
  /-- The keychain refused a new value and still holds an older one that could not be removed. -/
  | staleCopy (why : String)
deriving DecidableEq, Repr

/-- What a name stands for in one of the places. -/
abbrev Copies := String → Option String

/-- What the secrets file holds; nothing, if there is no file. -/
inductive FileState where
  | readable (map : Copies)
  /-- It exists but does not parse. -/
  | damaged (why : String)

/-- Why each access an operation may make fails; `none` for those that succeed. -/
structure Faults where
  /-- Reading the file. -/
  read : Option String := none
  /-- Moving a damaged file aside. -/
  rename : Option String := none
  write : Option String := none
  get : Option String := none
  set : Option String := none
  /-- Looking for an older copy in a keychain that refused the new one. -/
  older : Option String := none
  delete : Option String := none
  /-- Undoing what was done before another access failed. -/
  undo : Option String := none
deriving DecidableEq, Repr

structure Secrets where
  keychain : Option Copies
  file : FileState

namespace Secrets

/-- What an access gives that may fail. -/
def access {α : Type} (fault : Option String) (error : String → SecretError) (a : α) :
    Except SecretError α :=
  fault.elim (.ok a) fun why => .error (error why)

def readFile (f : Faults) (s : Secrets) : Except SecretError FileState := access f.read .file s.file

/-- The file's secrets, to change and write back. A damaged file is moved aside first; one that cannot
be read is an error. -/
def loadForWrite (f : Faults) (s : Secrets) : Except SecretError (Copies × Secrets) := do
  match ← s.readFile f with
  | .readable map => return (map, s)
  | .damaged _ => access f.rename .file (fun _ => none, { s with file := .readable fun _ => none })

/-- The file is replaced whole. -/
def writeFile (f : Faults) (map : Copies) (s : Secrets) : Except SecretError Secrets :=
  access f.write .file { s with file := .readable map }

/-- The keychain's copy of `name` is `copy` from now on. -/
def keep (k : Copies) (name : String) (copy : Option String) (s : Secrets) : Secrets :=
  { s with keychain := some (Function.update k name copy) }

/-- Removes `name` from the file, if it is there. -/
def removeFromFile (f : Faults) (name : String) (s : Secrets) : Secrets × Except SecretError Unit :=
  match s.loadForWrite f with
  | .error e => (s, .error e)
  | .ok (map, s) =>
    if (map name).isSome then
      match s.writeFile f (Function.update map name none) with
      | .error e => (s, .error e)
      | .ok s => (s, .ok ())
    else (s, .ok ())

/-- What the keychain holds for `name`; nothing, without one. -/
def fromKeychain (f : Faults) (name : String) (s : Secrets) : Except SecretError (Option String) :=
  match s.keychain with
  | some k => access f.get .keychain (k name)
  | none => .ok none

/-- What a name is read as that the file does not hold, or could not be read for. -/
def answer (fileError : Option SecretError) : Option String → Except SecretError (Option String)
  | some v => .ok (some v)
  | none => fileError.elim (.ok none) .error

/-- `try_get`: the value, `none` if there is none, or an error if it cannot be read. -/
def get (f : Faults) (name : String) (s : Secrets) : Except SecretError (Option String) :=
  match s.readFile f with
  | .ok (.readable map) =>
    match map name with
    | some v => .ok (some v)
    | none => (s.fromKeychain f name).bind (answer none)
  -- Values are kept in one place only: the keychain holds none of what the file held.
  | .ok (.damaged why) => (s.fromKeychain f name).bind (answer (some (.damaged why)))
  | .error e => (s.fromKeychain f name).bind (answer (some e))

/-- `get`: the value, or `none` if there is none or it cannot be read. -/
def value (f : Faults) (name : String) (s : Secrets) : Option String :=
  match s.get f name with
  | .ok found => found
  | .error _ => none

/-- What the keychain held is put back, where it could be read. -/
def undoSet (f : Faults) (k : Copies) (name : String) (previous : Except SecretError (Option String))
    (s : Secrets) : Secrets :=
  match previous, f.undo with
  | .ok copy, none => s.keep k name copy
  | _, _ => s

/-- The second half of `set`: the value goes to the file, whose content is `map`, and an older copy the
keychain still holds is removed. -/
def setInFile (f : Faults) (name value : String) (map : Copies) (s : Secrets) :
    Secrets × Except SecretError Unit :=
  match s.writeFile f (Function.update map name (some value)) with
  | .error e => (s, .error e)
  | .ok s =>
    match s.keychain with
    | none => (s, .ok ())
    | some k =>
      if f.older = none ∧ k name = none then (s, .ok ())
      else
        match f.delete with
        | none => (s.keep k name none, .ok ())
        | some why =>
          (if f.undo = none then { s with file := .readable map } else s, .error (.staleCopy why))

def set (f : Faults) (name value : String) (s : Secrets) : Secrets × Except SecretError Unit :=
  -- The file first: if it cannot be read, nothing has changed.
  match s.loadForWrite f with
  | .error e => (s, .error e)
  | .ok (map, s) =>
    match s.keychain, f.set with
    | some k, none =>
      let previous := access f.get .keychain (k name)
      let s := s.keep k name (some value)
      -- A copy left in the file would take precedence over this one.
      if (map name).isSome then
        match s.writeFile f (Function.update map name none) with
        | .ok s => (s, .ok ())
        | .error e => (s.undoSet f k name previous, .error e)
      else (s, .ok ())
    | _, _ => s.setInFile f name value map

def delete (f : Faults) (name : String) (s : Secrets) : Secrets × Except SecretError Unit :=
  match s.keychain with
  | none => s.removeFromFile f name
  | some k =>
    -- The keychain first: if that fails, nothing has changed.
    match f.delete with
    | some why => (s, .error (.keychain why))
    | none => (s.keep k name none).removeFromFile f name

end Secrets

/-! ## Runs -/

inductive SecretOp where
  | get (name : String)
  | set (name value : String)
  | delete (name : String)
deriving DecidableEq, Repr

namespace Secrets

/-- One operation, and what it answers. -/
def step (s : Secrets) (op : SecretOp × Faults) : Secrets × List (Except SecretError (Option String)) :=
  match op.1 with
  | .get name => (s, [s.get op.2 name])
  | .set name value =>
    let (s, answer) := s.set op.2 name value
    (s, [answer.map fun _ => none])
  | .delete name =>
    let (s, answer) := s.delete op.2 name
    (s, [answer.map fun _ => none])

abbrev after (s : Secrets) (ops : List (SecretOp × Faults)) : Secrets :=
  Foundations.Machine.after step s ops

end Secrets

end StreamDelay.Config
