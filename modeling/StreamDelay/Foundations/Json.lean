import Mathlib.Data.String.Basic
import StreamDelay.Foundations.Fields

/-! # JSON values

Numbers are of any type `ν`, told apart as the program tells them apart. An object is a finite map, its fields by
increasing key.
-/

namespace StreamDelay.Foundations

inductive Value (ν : Type*) where
  | null
  | bool (b : Bool)
  | number (n : ν)
  | string (s : String)
  | array (elements : List (Value ν))
  | object (fields : List (String × Value ν))

namespace Value

variable {ν : Type*}

section Equality

variable [DecidableEq ν]

mutual

/-- Values are equal if they are built alike. -/
def decEq : ∀ v w : Value ν, Decidable (v = w)
  | .null, .null => .isTrue rfl
  | .bool a, .bool b => decidable_of_iff (a = b) ⟨congrArg bool, Value.bool.inj⟩
  | .number m, .number n => decidable_of_iff (m = n) ⟨congrArg number, Value.number.inj⟩
  | .string s, .string t => decidable_of_iff (s = t) ⟨congrArg string, Value.string.inj⟩
  | .array v, .array w =>
    match decEqElements v w with
    | .isTrue same => .isTrue (congrArg array same)
    | .isFalse different => .isFalse fun same => different (Value.array.inj same)
  | .object v, .object w =>
    match decEqFields v w with
    | .isTrue same => .isTrue (congrArg object same)
    | .isFalse different => .isFalse fun same => different (Value.object.inj same)
  | .null, .bool _ | .null, .number _ | .null, .string _ | .null, .array _ | .null, .object _ => .isFalse nofun
  | .bool _, .null | .bool _, .number _ | .bool _, .string _ | .bool _, .array _ | .bool _, .object _ =>
    .isFalse nofun
  | .number _, .null | .number _, .bool _ | .number _, .string _ | .number _, .array _ | .number _, .object _ =>
    .isFalse nofun
  | .string _, .null | .string _, .bool _ | .string _, .number _ | .string _, .array _ | .string _, .object _ =>
    .isFalse nofun
  | .array _, .null | .array _, .bool _ | .array _, .number _ | .array _, .string _ | .array _, .object _ =>
    .isFalse nofun
  | .object _, .null | .object _, .bool _ | .object _, .number _ | .object _, .string _ | .object _, .array _ =>
    .isFalse nofun

def decEqElements : ∀ v w : List (Value ν), Decidable (v = w)
  | [], [] => .isTrue rfl
  | [], _ :: _ | _ :: _, [] => .isFalse nofun
  | v :: vs, w :: ws =>
    match decEq v w, decEqElements vs ws with
    | .isTrue first, .isTrue rest => .isTrue (by rw [first, rest])
    | .isFalse different, _ => .isFalse fun same => different (List.cons.inj same).1
    | _, .isFalse different => .isFalse fun same => different (List.cons.inj same).2

def decEqFields : ∀ v w : List (String × Value ν), Decidable (v = w)
  | [], [] => .isTrue rfl
  | [], _ :: _ | _ :: _, [] => .isFalse nofun
  | (j, v) :: vs, (k, w) :: ws =>
    if key : j = k then
      match decEq v w, decEqFields vs ws with
      | .isTrue first, .isTrue rest => .isTrue (by rw [key, first, rest])
      | .isFalse different, _ => .isFalse fun same => different (Prod.mk.inj (List.cons.inj same).1).2
      | _, .isFalse different => .isFalse fun same => different (List.cons.inj same).2
    else .isFalse fun same => key (Prod.mk.inj (List.cons.inj same).1).1

end

instance : DecidableEq (Value ν) := decEq

end Equality

/-- What holds of a value if it holds of its parts holds of every value. -/
theorem induct {P : Value ν → Prop} (onNull : P .null) (onBool : ∀ b, P (.bool b)) (onNumber : ∀ n, P (.number n))
    (onString : ∀ s, P (.string s)) (onArray : ∀ elements, (∀ v ∈ elements, P v) → P (.array elements))
    (onObject : ∀ fields, (∀ e ∈ fields, P e.2) → P (.object fields)) (v : Value ν) : P v :=
  @Value.rec ν P (fun elements => ∀ v ∈ elements, P v) (fun fields => ∀ e ∈ fields, P e.2) (fun e => P e.2)
    onNull onBool onNumber onString onArray onObject
    nofun (fun _ _ first rest => List.forall_mem_cons.mpr ⟨first, rest⟩)
    nofun (fun _ _ first rest => List.forall_mem_cons.mpr ⟨first, rest⟩)
    (fun _ _ value => value) v

/-! ## Objects -/

mutual

/-- Every object in it is a map. -/
def Sorted : Value ν → Prop
  | .array elements => SortedElements elements
  | .object fields => Fields.Sorted fields ∧ SortedFields fields
  | _ => True

def SortedElements : List (Value ν) → Prop
  | [] => True
  | v :: rest => v.Sorted ∧ SortedElements rest

def SortedFields : List (String × Value ν) → Prop
  | [] => True
  | (_, v) :: rest => v.Sorted ∧ SortedFields rest

end

theorem sortedFields_iff {fields : List (String × Value ν)} :
    SortedFields fields ↔ ∀ e ∈ fields, e.2.Sorted := by
  induction fields with
  | nil => exact ⟨fun _ => nofun, fun _ => trivial⟩
  | cons e rest ih => rw [SortedFields, ih, List.forall_mem_cons]

theorem sorted_object {fields : List (String × Value ν)} :
    (object fields).Sorted ↔ Fields.Sorted fields ∧ ∀ e ∈ fields, e.2.Sorted := by
  rw [Sorted, sortedFields_iff]

/-- The fields of an object. -/
def fields? : Value ν → Option (List (String × Value ν))
  | .object fields => some fields
  | _ => none

/-- What a value has at a path of keys. -/
def at? : List String → Value ν → Option (Value ν)
  | [], v => some v
  | key :: path, v => v.fields?.bind fun fields => (fields.lookup key).bind (at? path)

theorem bind_at?_nil (v : Option (Value ν)) : v.bind (at? []) = v := by cases v <;> rfl

theorem at?_cons (key : String) (path : List String) (fields : List (String × Value ν)) :
    (object fields).at? (key :: path) = (fields.lookup key).bind (at? path) := rfl

/-- At the path there is an object. -/
def objectAt (path : List String) (v : Value ν) : Bool := (v.at? path).any fun v => v.fields?.isSome

theorem objectAt_nil {v : Value ν} (here : v.objectAt []) : ∃ fields, v = object fields := by
  cases v with
  | object fields => exact ⟨fields, rfl⟩
  | _ => contradiction

theorem objectAt_cons (key : String) (path : List String) (fields : List (String × Value ν)) :
    (object fields).objectAt (key :: path) = (fields.lookup key).any (objectAt path) := by
  rw [objectAt, at?_cons]
  cases fields.lookup key <;> rfl

end Value

/-- A JSON value: every object in it has one value for a key. -/
structure Json (ν : Type*) where
  value : Value ν
  sorted : value.Sorted

namespace Json

variable {ν : Type*}

@[ext] theorem ext {v w : Json ν} (same : v.value = w.value) : v = w := by
  cases v
  cases w
  cases same
  rfl

/-- What a value has at a path of keys. -/
def at? (path : List String) (v : Json ν) : Option (Value ν) := v.value.at? path

/-- At the path there is an object. -/
def objectAt (path : List String) (v : Json ν) : Bool := v.value.objectAt path

end Json

end StreamDelay.Foundations
