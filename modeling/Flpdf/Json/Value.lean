import Flpdf.Bytes.Ascii
import Flpdf.Collections.SortedMap
import Mathlib.Data.Int.Notation

/-!
# JSON values

The tree shared by the JSON parser and the JSON writer. A dictionary keeps its
members under their encoded keys, in the order of the keys; `start` and `stop`
are the offsets of the text a value was parsed from.
-/

namespace Flpdf

inductive Json where
  | uninitialized
  | dictionary (members : List (Bytes × Json)) (start stop : ℤ)
  | array (items : List Json) (start stop : ℤ)
  | string (original encoded : Bytes) (start stop : ℤ)
  | number (encoded : Bytes) (start stop : ℤ)
  | bool (value : Bool) (start stop : ℤ)
  | null (start stop : ℤ)
  | blob (bytes : Bytes) (start stop : ℤ)

namespace Json

/-- The escape of one byte. -/
def encodeByte (byte : UInt8) : Bytes :=
  if byte = 0x5c then [0x5c, 0x5c]
  else if byte = 0x22 then [0x5c, 0x22]
  else if byte = 0x08 then [0x5c, 0x62]
  else if byte = 0x0c then [0x5c, 0x66]
  else if byte = 0x0a then [0x5c, 0x6e]
  else if byte = 0x0d then [0x5c, 0x72]
  else if byte = 0x09 then [0x5c, 0x74]
  else if byte ≤ 0x1f then
    (if byte < 0x10 then [0x5c, 0x75, 0x30, 0x30, 0x30] else [0x5c, 0x75, 0x30, 0x30, 0x31]) ++
      [hexDigit (byte &&& 0x0f)]
  else [byte]

def encodeString (value : Bytes) : Bytes := value.flatMap encodeByte

def makeString (value : Bytes) (start stop : ℤ) : Json :=
  .string value (encodeString value) start stop

def isDictionary : Json → Bool
  | .dictionary .. => true
  | _ => false

def isArray : Json → Bool
  | .array .. => true
  | _ => false

/-- `set_end`. -/
def setEnd (json : Json) (stop : ℤ) : Json :=
  match json with
  | .uninitialized => .uninitialized
  | .dictionary members start _ => .dictionary members start stop
  | .array items start _ => .array items start stop
  | .string original encoded start _ => .string original encoded start stop
  | .number encoded start _ => .number encoded start stop
  | .bool value start _ => .bool value start stop
  | .null start _ => .null start stop
  | .blob bytes start _ => .blob bytes start stop

/-- An uninitialized child becomes null. -/
def orNull : Json → Json
  | .uninitialized => .null 0 0
  | value => value

/-- The dictionary with one more member; any other value is refused. -/
def addDictionaryMember (json : Json) (key : Bytes) (value : Json) : Except Bytes Json :=
  match json with
  | .dictionary members start stop =>
    .ok (.dictionary (insertSorted (encodeString key) value.orNull members) start stop)
  | _ => .error (ascii "JSON::addDictionaryMember called on non-dictionary")

def addArrayElement (json : Json) (value : Json) : Except Bytes Json :=
  match json with
  | .array items start stop => .ok (.array (items ++ [value.orNull]) start stop)
  | _ => .error (ascii "JSON::addArrayElement called on non-array")

end Json

end Flpdf
