import Mathlib.Tactic.Common
import StreamDelay.Rtmp.Chunk
import StreamDelay.Foundations.Reading
import StreamDelay.Foundations.Utf8

/-! # AMF0

The serialization format of RTMP commands and metadata. A number or a date is its 64-bit pattern.
-/

namespace StreamDelay.Rtmp

open Foundations

def MAX_DEPTH : ℕ := 64

/-- A decoded AMF0 value. Object properties keep their wire order. -/
inductive Amf0Value where
  | number (bits : UInt64)
  | boolean (b : Bool)
  | string (s : String)
  | object (props : List (String × Amf0Value))
  | null
  | undefined
  | ecmaArray (props : List (String × Amf0Value))
  | strictArray (items : List Amf0Value)
  | date (millis : UInt64) (tz : Int16)
  | longString (s : String)
  | typedObject (class_ : String) (props : List (String × Amf0Value))
deriving Repr

inductive Amf0Error where
  | eof
  | unsupportedMarker (marker : UInt8)
  | tooDeep
deriving DecidableEq, Repr

namespace Amf0Value

def asStr : Amf0Value → Option String
  | string s | longString s => some s
  | _ => none

def asNumber : Amf0Value → Option UInt64
  | number n => some n
  | _ => none

/-- Properties of an object, ECMA array or typed object. -/
def props : Amf0Value → Option (List (String × Amf0Value))
  | object p | ecmaArray p => some p
  | typedObject _ p => some p
  | _ => none

/-- Looks up a property by name on object-like values. -/
def get (v : Amf0Value) (key : String) : Option Amf0Value :=
  v.props.bind fun props => (props.find? fun p => p.1 = key).map Prod.snd

end Amf0Value

namespace Amf0

/-! ## Decoding -/

def be16 (b : Bytes) : UInt16 := .ofNat ((b.getD 0 0).toNat * 2 ^ 8 + (b.getD 1 0).toNat)

def be64 (b : Bytes) : UInt64 :=
  .ofNat ((be32 b).toNat * 2 ^ 32 + (be32 (b.drop 4)).toNat)

abbrev Reader := Foundations.Reader Amf0Error UInt8

def take (n : ℕ) : Reader Bytes := Foundations.Reader.take .eof n

def u8 : Reader UInt8 := (fun b => b.getD 0 0) <$> take 1

def u16 : Reader UInt16 := be16 <$> take 2

def u32 : Reader UInt32 := be32 <$> take 4

def f64 : Reader UInt64 := be64 <$> take 8

def shortString : Reader String := do
  let n ← u16
  fromUtf8Lossy <$> take n.toNat

def longString : Reader String := do
  let n ← u32
  fromUtf8Lossy <$> take n.toNat

/-- After a key: it is empty, and the end marker follows, or the end of the payload, where some encoders
omit the marker. -/
def atEnd (key : String) : Reader Bool := fun left =>
  if key.isEmpty then
    match left with
    | [] => .ok (true, [])
    | b :: rest => if b = 0x09 then .ok (true, rest) else .ok (false, b :: rest)
  else .ok (false, left)

/-- The loop of `props`, with a bound on its rounds: each takes two bytes at least. -/
def propsLoop (value : Reader Amf0Value) : ℕ → Reader (List (String × Amf0Value))
  | 0 => throw .eof
  | fuel + 1 => do
    let key ← shortString
    if ← atEnd key then return []
    let v ← value
    let rest ← propsLoop value fuel
    return (key, v) :: rest

def props (value : Reader Amf0Value) : Reader (List (String × Amf0Value)) := fun left =>
  propsLoop value (left.length + 1) left

def itemsLoop (value : Reader Amf0Value) : ℕ → Reader (List Amf0Value)
  | 0 => pure []
  | n + 1 => do
    let item ← value
    let rest ← itemsLoop value n
    return item :: rest

/-- The elements of a strict array: each needs at least one byte, which bounds the allocation. -/
def items (value : Reader Amf0Value) (n : ℕ) : Reader (List Amf0Value) := fun left =>
  if left.length < n then .error .eof else itemsLoop value n left

/-- A value, with `levels` levels of nesting allowed, its own included. -/
def value : ℕ → Reader Amf0Value
  | 0 => throw .tooDeep
  | levels + 1 => do
    let marker ← u8
    match marker.toNat with
    | 0x00 => .number <$> f64
    | 0x01 => (fun b => .boolean (b ≠ 0)) <$> u8
    | 0x02 => .string <$> shortString
    | 0x03 => .object <$> props (value levels)
    | 0x05 => return .null
    | 0x06 => return .undefined
    | 0x08 =>
      let _count ← u32
      .ecmaArray <$> props (value levels)
    | 0x0a =>
      let n ← u32
      .strictArray <$> items (value levels) n.toNat
    | 0x0b =>
      let millis ← f64
      let tz ← u16
      return .date millis tz.toInt16
    | 0x0c | 0x0f => .longString <$> longString
    | 0x10 =>
      let class_ ← shortString
      .typedObject class_ <$> props (value levels)
    | _ => throw (.unsupportedMarker marker)

/-- A value at the top level: `depth` 0 of at most `MAX_DEPTH`. -/
def topValue : Reader Amf0Value := value (MAX_DEPTH + 1)

def decodeLoop : ℕ → Bytes → Except Amf0Error (List Amf0Value)
  | 0, _ => .ok []
  | _ + 1, [] => .ok []
  | fuel + 1, data => do
    let (v, rest) ← topValue data
    return v :: (← decodeLoop fuel rest)

/-- Decodes every value in `data`; each takes a byte at least. -/
def decodeAll (data : Bytes) : Except Amf0Error (List Amf0Value) := decodeLoop data.length data

/-- Decodes the first value and returns it with the number of bytes consumed. -/
def decodeOne (data : Bytes) : Except Amf0Error (Amf0Value × ℕ) := do
  let (v, rest) ← topValue data
  return (v, data.length - rest.length)

/-! ## Encoding -/

def putU16 (v : UInt16) : Bytes := [(v >>> 8).toUInt8, v.toUInt8]

def putU64 (v : UInt64) : Bytes := putU32 (v >>> 32).toUInt32 ++ putU32 v.toUInt32

def putShortString (s : String) : Bytes :=
  let b := utf8 s
  let n := min b.length 0xFFFF
  putU16 (.ofNat n) ++ b.take n

def putLongString (s : String) : Bytes := putU32 (.ofNat (utf8 s).length) ++ utf8 s

mutual

def encode : Amf0Value → Bytes
  | .number n => 0x00 :: putU64 n
  | .boolean b => [0x01, if b then 1 else 0]
  | .string s => if (utf8 s).length ≤ 0xFFFF then 0x02 :: putShortString s else 0x0c :: putLongString s
  | .longString s => 0x0c :: putLongString s
  | .object props => 0x03 :: putProps props
  | .null => [0x05]
  | .undefined => [0x06]
  | .ecmaArray props => 0x08 :: (putU32 (.ofNat props.length) ++ putProps props)
  | .strictArray items => 0x0a :: (putU32 (.ofNat items.length) ++ encodeItems items)
  | .date millis tz => 0x0b :: (putU64 millis ++ putU16 tz.toUInt16)
  | .typedObject class_ props => 0x10 :: (putShortString class_ ++ putProps props)

def putProps : List (String × Amf0Value) → Bytes
  | [] => [0x00, 0x00, 0x09]
  | (k, v) :: rest => putShortString k ++ encode v ++ putProps rest

def encodeItems : List Amf0Value → Bytes
  | [] => []
  | item :: rest => encode item ++ encodeItems rest

end

/-- Encodes a sequence of values. -/
def encodeAll (values : List Amf0Value) : Bytes := values.flatMap encode

/-! ## What there is an encoding of -/

mutual

/-- The levels of nesting below a value. -/
def depth : Amf0Value → ℕ
  | .object props | .ecmaArray props | .typedObject _ props => propsDepth props
  | .strictArray items => itemsDepth items
  | _ => 0

def propsDepth : List (String × Amf0Value) → ℕ
  | [] => 0
  | (_, v) :: rest => max (depth v + 1) (propsDepth rest)

def itemsDepth : List Amf0Value → ℕ
  | [] => 0
  | item :: rest => max (depth item + 1) (itemsDepth rest)

end

/-- A string has a 16-bit length. -/
def Short (s : String) : Prop := (utf8 s).length ≤ 0xFFFF

instance (s : String) : Decidable (Short s) := inferInstanceAs (Decidable (_ ≤ _))

mutual

/-- The lengths in a value fit the fields of its encoding. -/
def Fits : Amf0Value → Prop
  | .string s => Short s
  | .longString s => (utf8 s).length < 2 ^ 32
  | .object props | .ecmaArray props => PropsFit props
  | .typedObject class_ props => Short class_ ∧ PropsFit props
  | .strictArray items => items.length < 2 ^ 32 ∧ ItemsFit items
  | _ => True

def PropsFit : List (String × Amf0Value) → Prop
  | [] => True
  | (k, v) :: rest => Short k ∧ Fits v ∧ PropsFit rest

def ItemsFit : List Amf0Value → Prop
  | [] => True
  | item :: rest => Fits item ∧ ItemsFit rest

end

end Amf0

end StreamDelay.Rtmp
