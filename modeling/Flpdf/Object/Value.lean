import Flpdf.Bytes.Ascii
import Flpdf.Xref.ObjGen

/-!
# Object values

`ObjectValue` with the handles of its children: a direct child is the value
itself, an indirect one is its object and generation number. A dictionary is
its ordered list of entries.
-/

namespace Flpdf

inductive ObjectValue where
  | null
  | boolean (value : Bool)
  | integer (value : ℤ)
  | real (encoded : Bytes)
  | string (value : Bytes)
  | name (value : Bytes)
  | array (items : List ObjectValue)
  | dictionary (entries : List (Bytes × ObjectValue))
  | stream (streamDict : ObjectValue)
  | operator (value : Bytes)
  | inlineImage (value : Bytes)
  | indirect (objectGen : QpdfObjGen)

namespace ObjectValue

def isIndirect : ObjectValue → Bool
  | .indirect _ => true
  | _ => false

def isScalar : ObjectValue → Bool
  | .null | .boolean _ | .integer _ | .real _ | .string _ | .name _ => true
  | _ => false

end ObjectValue

end Flpdf
