import Flpdf.Object.Unparse

/-! # Writing values under a reference map

The walks of the writer put the reference of the output in the place of every indirect child, and
null where a child was removed.  The compact walk keeps what it writes on one line; the QDF walk
puts every child on a line of its own. -/

namespace Flpdf

/-! ## Parts of the walks -/

def writeObjectRef (ref : ObjectRef) : Bytes :=
  natDecimal ref.number ++ 0x20 :: (natDecimal ref.generation ++ 0x20 :: ascii "R")

/-- A key without a slash is written without one. -/
def writeDictionaryKey : Bytes → Bytes
  | 0x2f :: key => 0x2f :: writeNameEscaped key
  | key => writeNameEscaped key

/-- `unparse_object_value`, for the values that have no children. -/
def unparseObjectValue : ObjectValue → Bytes
  | .boolean value => if value then ascii "true" else ascii "false"
  | .integer value => intDecimal value
  | .real encoded => encoded
  | .name value => 0x2f :: writeNameEscaped value
  | .string value => writeStringValue value
  | .operator value => value
  | .inlineImage value => value
  | _ => ascii "null"

section Signatures

variable (resolve : QpdfObjGen → Except Bytes ObjectValue) (entries : List (Bytes × ObjectValue))

/-- `dict_is_sig_with_byte_range_handle`: a key that is missing has a null value. -/
def dictIsSigWithByteRangeHandle : Except Bytes Bool := do
  match ← dereference resolve ((entries.lookup (ascii "/Type")).getD .null) with
  | .name name =>
    if name = ascii "Sig" then
      (tryIsNull resolve ((entries.lookup (ascii "/ByteRange")).getD .null)).map (!·)
    else return false
  | _ => return false

end Signatures

/-- Only `/Contents` asks whether the dictionary is a signature. -/
def forceHexString (isSig : Except Bytes Bool) (key : Bytes) : Except Bytes Bool :=
  if key = ascii "/Contents" then isSig else .ok false

/-- `try_write_sig_contents_hex_string` -/
def trySigContentsHexString : Bool → ObjectValue → Option Bytes
  | true, .string value => some (writeHexString value)
  | _, _ => none

/-- A child that was not written as a signature is walked. -/
def writtenOr : Option Bytes → Except Bytes Bytes → Except Bytes Bytes
  | some text, _ => .ok text
  | none, unparse => unparse

/-! ## The walks with a reference map -/

/-- `push_spaces` -/
def spaces (indent : ℕ) : Bytes := List.replicate indent 0x20

/-- What stands behind the opening of a container, in front of a part of it, behind a part and in
front of the end. -/
structure Layout where
  head : Bytes
  lead : ℕ → Bytes
  trail : Bytes
  foot : ℕ → Bytes

def compactLayout : Layout := ⟨[], fun _ => ascii " ", [], fun _ => ascii " "⟩

/-- A line for every part. -/
def qdfLayout : Layout := ⟨ascii "\n", spaces, ascii "\n", spaces⟩

section RefMap

variable (resolve : QpdfObjGen → Except Bytes ObjectValue)
  (map : QpdfObjGen → Except Bytes ObjectRef) (removed : List QpdfObjGen)

/-- A child whose identity was removed. -/
def isRemoved : ObjectValue → Bool
  | .indirect objectGen => objectGen ∈ removed
  | _ => false

/-- The compact walk tests an entry for null before it asks whether it was removed. -/
def isNullOrRemoved (child : ObjectValue) : Except Bytes Bool :=
  (tryIsNull resolve child).map (· || isRemoved removed child)

/-- The QDF walk does not test a removed entry for null. -/
def isRemovedOrNull (child : ObjectValue) : Except Bytes Bool :=
  if isRemoved removed child then .ok true else tryIsNull resolve child

section Laid

variable (layout : Layout) (hidden : ObjectValue → Except Bytes Bool)

mutual

/-- What the two walks share. -/
def unparseChildLaid (indent : ℕ) : ObjectValue → Except Bytes Bytes
  | .indirect objectGen =>
    if !objectGen.isIndirect || objectGen ∈ removed then .ok (ascii "null")
    else (map objectGen).map writeObjectRef
  | .array items => do
    let text ← unparseItemsLaid (indent + 2) items
    return ascii "[" ++ (layout.head ++ text ++ (layout.foot indent ++ ascii "]"))
  | .dictionary entries => do
    let text ← unparseEntriesLaid (indent + 2) (dictIsSigWithByteRangeHandle resolve entries) entries
    return ascii "<<" ++ (layout.head ++ text ++ (layout.foot indent ++ ascii ">>"))
  | .stream streamDict => unparseChildLaid indent streamDict
  | value => .ok (unparseObjectValue value)

def unparseItemsLaid (indent : ℕ) : List ObjectValue → Except Bytes Bytes
  | [] => .ok []
  | child :: children => do
    let text ← unparseChildLaid indent child
    let rest ← unparseItemsLaid indent children
    return layout.lead indent ++ text ++ layout.trail ++ rest

def unparseEntriesLaid (indent : ℕ) (isSig : Except Bytes Bool) :
    List (Bytes × ObjectValue) → Except Bytes Bytes
  | [] => .ok []
  | (key, child) :: entries => do
    if ← hidden child then unparseEntriesLaid indent isSig entries
    else
      let force ← forceHexString isSig key
      let text ← writtenOr (trySigContentsHexString force child) (unparseChildLaid indent child)
      let rest ← unparseEntriesLaid indent isSig entries
      return layout.lead indent ++ (writeDictionaryKey key ++ ascii " " ++ text) ++ layout.trail ++
        rest

end

end Laid

/-- `unparse_object_walk_with_ref_map` -/
def unparseObjectWithRefMap (handle : ObjectValue) : Except Bytes Bytes := do
  unparseChildLaid resolve map removed compactLayout (isNullOrRemoved resolve removed) 0
    (← dereference resolve handle)

/-- `unparse_object_walk_qdf_with_ref_map` -/
def unparseObjectQdfWithRefMap (indent : ℕ) (handle : ObjectValue) : Except Bytes Bytes := do
  unparseChildLaid resolve map removed qdfLayout (isRemovedOrNull resolve removed) indent
    (← dereference resolve handle)

end RefMap

end Flpdf
