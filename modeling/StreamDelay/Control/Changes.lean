import StreamDelay.Foundations.Json

/-! # Settings changes

Only the settings a change has actually changed are saved, which is worked out on the settings as JSON: what
the settings in effect take from the command line stays out of the file.
-/

namespace StreamDelay.Control

open Foundations

variable {ν : Type*} [DecidableEq ν]

namespace Value

/-- The fields only `before` has are taken out. -/
def removeGone (before after target : List (String × Value ν)) : List (String × Value ν) :=
  (before.filter fun e => (after.lookup e.1).isNone).foldl (fun t e => Fields.remove e.1 t) target

mutual

/-- `target` with every value that differs between `before` and `after` set as in `after`. -/
def copyChanges (target before after : Value ν) : Value ν :=
  if before = after then target
  else
    match target, before, after with
    | .object t, .object b, .object a => .object (removeGone b a (copyFields b a t))
    | _, _, a => a

/-- The fields of `after`, one after the other, into those of the target. -/
def copyFields (before : List (String × Value ν)) :
    List (String × Value ν) → List (String × Value ν) → List (String × Value ν)
  | [], t => t
  | (k, av) :: rest, t =>
    match before.lookup k, t.lookup k with
    | some bv, some tv => copyFields before rest (Fields.insert k (copyChanges tv bv av) t)
    | some bv, none => copyFields before rest (if bv = av then t else Fields.insert k av t)
    | none, _ => copyFields before rest (Fields.insert k av t)

end

end Value

end StreamDelay.Control
