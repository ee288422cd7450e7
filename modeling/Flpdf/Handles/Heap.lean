import Flpdf.Bytes.Ascii
import Flpdf.Xref.ObjGen
import Mathlib.Logic.Function.Basic
import Std.Data.ExtTreeMap

/-!
# Object handles

An object handle is the address of a shared slot: its identity, when it is an
indirect object, and its value, with the handles of the children. What is done
through one handle is seen through all of them.
-/

namespace Flpdf

open Std

abbrev Handle := ℕ

inductive SlotValue where
  | null
  | boolean (value : Bool)
  | integer (value : ℤ)
  | real (encoded : Bytes)
  | string (value : Bytes)
  | name (value : Bytes)
  | array (items : List Handle)
  | dictionary (entries : ExtTreeMap Bytes Handle)
  | stream (streamDict : Handle)
  | operator (value : Bytes)
  | inlineImage (value : Bytes)

structure Slot where
  objectGen : Option QpdfObjGen
  value : SlotValue

/-- The slots, how many are in use, and the highest object number. -/
structure Heap where
  slot : Handle → Slot
  size : ℕ
  objectCount : ℕ

namespace Heap

variable {heap : Heap} {a b child : Handle} {key key' : Bytes} {slotValue : SlotValue}

def value (heap : Heap) (a : Handle) : SlotValue := (heap.slot a).value

/-- `handle.qpdf_obj_gen().filter(is_indirect)`. -/
def identity (heap : Heap) (a : Handle) : Option QpdfObjGen :=
  (heap.slot a).objectGen.filter QpdfObjGen.isIndirect

def isIndirect (heap : Heap) (a : Handle) : Bool := (heap.identity a).isSome

/-- `object_ref`: what an `N G R` reference calls the object. -/
def objectRef (heap : Heap) (a : Handle) : Option ObjectRef :=
  (heap.identity a).bind QpdfObjGen.toObjectRef

theorem objectRef_eq (heap : Heap) (a : Handle) :
    heap.objectRef a = (heap.slot a).objectGen.bind QpdfObjGen.toObjectRef := by
  rw [objectRef, identity]
  cases (heap.slot a).objectGen with
  | none => rfl
  | some objectGen =>
    rw [Option.filter_some, Option.bind_some]
    cases hindirect : objectGen.isIndirect with
    | true => rfl
    | false => simp [QpdfObjGen.toObjectRef, hindirect]

def isNull (heap : Heap) (a : Handle) : Bool :=
  match heap.value a with
  | .null => true
  | _ => false

def isDictionary (heap : Heap) (a : Handle) : Bool :=
  match heap.value a with
  | .dictionary _ => true
  | _ => false

/-- Boolean, integer, name, null, real or string. -/
def isScalar (heap : Heap) (a : Handle) : Bool :=
  match heap.value a with
  | .null | .boolean _ | .integer _ | .real _ | .string _ | .name _ => true
  | _ => false

def getKey (heap : Heap) (a : Handle) (key : Bytes) : Option Handle :=
  match heap.value a with
  | .dictionary entries => entries[key]?
  | _ => none

/-- The value of a key that is present and not null. -/
def visible (heap : Heap) (a : Handle) (key : Bytes) : Option Handle :=
  (heap.getKey a key).filter fun value => !heap.isNull value

def hasKey (heap : Heap) (a : Handle) (key : Bytes) : Bool := (heap.visible a key).isSome

def isNameAndEquals (heap : Heap) (name : Bytes) (a : Handle) : Bool :=
  match heap.value a with
  | .name value => value == name
  | _ => false

def isDictionaryOfType (heap : Heap) (a : Handle) (type : Bytes) : Bool :=
  heap.isDictionary a && (heap.getKey a (ascii "/Type")).any (heap.isNameAndEquals type)

def arrayItems (heap : Heap) (a : Handle) : Option (List Handle) :=
  match heap.value a with
  | .array items => some items
  | _ => none

/-- The items of the array under a key. -/
def arrayAt (heap : Heap) (a : Handle) (key : Bytes) : Option (List Handle) :=
  (heap.getKey a key).bind heap.arrayItems

/-! ## Updates -/

def setValue (heap : Heap) (a : Handle) (slotValue : SlotValue) : Heap :=
  { heap with slot := Function.update heap.slot a { heap.slot a with value := slotValue } }

def removeKey (heap : Heap) (a : Handle) (key : Bytes) : Heap :=
  match heap.value a with
  | .dictionary entries => heap.setValue a (.dictionary (entries.erase key))
  | _ => heap

/-- A direct null removes the key. -/
def replaceKey (heap : Heap) (a : Handle) (key : Bytes) (value : Handle) : Heap :=
  if heap.isNull value && !heap.isIndirect value then heap.removeKey a key
  else
    match heap.value a with
    | .dictionary entries => heap.setValue a (.dictionary (entries.insert key value))
    | _ => heap

/-- The slot gets the next object number and keeps its value. -/
def makeIndirect (heap : Heap) (a : Handle) : Heap where
  slot := Function.update heap.slot a
    { heap.slot a with objectGen := some ⟨heap.objectCount + 1, 0⟩ }
  size := heap.size
  objectCount := heap.objectCount + 1

theorem value_setValue :
    (heap.setValue a slotValue).value b = if b = a then slotValue else heap.value b := by
  by_cases h : b = a
  · subst h
    simp [value, setValue]
  · simp [value, setValue, h]

@[simp] theorem identity_setValue : (heap.setValue a slotValue).identity b = heap.identity b := by
  by_cases h : b = a
  · subst h
    simp [identity, setValue]
  · simp [identity, setValue, h]

theorem value_removeKey_of_ne (h : b ≠ a) : (heap.removeKey a key).value b = heap.value b := by
  rw [removeKey]
  split
  · rw [value_setValue, if_neg h]
  · rfl

@[simp] theorem identity_removeKey : (heap.removeKey a key).identity b = heap.identity b := by
  rw [removeKey]
  split
  · exact identity_setValue
  · rfl

theorem value_replaceKey_of_ne (h : b ≠ a) :
    (heap.replaceKey a key child).value b = heap.value b := by
  rw [replaceKey]
  split
  · exact value_removeKey_of_ne h
  · split
    · rw [value_setValue, if_neg h]
    · rfl

@[simp] theorem identity_replaceKey : (heap.replaceKey a key child).identity b = heap.identity b := by
  rw [replaceKey]
  split
  · exact identity_removeKey
  · split
    · exact identity_setValue
    · rfl

@[simp] theorem size_removeKey : (heap.removeKey a key).size = heap.size := by
  rw [removeKey]
  split <;> rfl

@[simp] theorem size_replaceKey : (heap.replaceKey a key child).size = heap.size := by
  rw [replaceKey]
  split
  · exact size_removeKey
  · split <;> rfl

@[simp] theorem value_makeIndirect : (heap.makeIndirect a).value b = heap.value b := by
  by_cases h : b = a
  · subst h
    simp [Heap.value, makeIndirect]
  · simp [Heap.value, makeIndirect, h]

theorem identity_makeIndirect :
    (heap.makeIndirect a).identity b =
      if b = a then some ⟨heap.objectCount + 1, 0⟩ else heap.identity b := by
  by_cases h : b = a
  · subst h
    have hpos : ((heap.objectCount : ℤ) + 1) ≠ 0 := by
      omega
    simp [identity, makeIndirect, QpdfObjGen.isIndirect, Option.filter, hpos]
  · simp [identity, makeIndirect, h]

/-- Only the value counts for what a slot is. -/
theorem isNull_congr {heap' : Heap} (h : heap'.value a = heap.value a) :
    heap'.isNull a = heap.isNull a := by
  rw [isNull, isNull, h]

theorem getKey_congr {heap' : Heap} (h : heap'.value a = heap.value a) :
    heap'.getKey a key = heap.getKey a key := by
  rw [getKey, getKey, h]

theorem isDictionary_iff : heap.isDictionary a = true ↔ ∃ entries, heap.value a = .dictionary entries := by
  rw [isDictionary]
  cases heap.value a <;> simp

theorem isDictionary_removeKey : (heap.removeKey a key).isDictionary b = heap.isDictionary b := by
  by_cases h : b = a
  · subst h
    rw [removeKey]
    split
    · rename_i entries hvalue
      rw [isDictionary, isDictionary, value_setValue, if_pos rfl, hvalue]
    · rfl
  · rw [isDictionary, isDictionary, value_removeKey_of_ne h]

theorem isDictionary_replaceKey :
    (heap.replaceKey a key child).isDictionary b = heap.isDictionary b := by
  rw [replaceKey]
  split
  · exact isDictionary_removeKey
  · split
    · rename_i entries hvalue
      by_cases h : b = a
      · subst h
        rw [isDictionary, isDictionary, value_setValue, if_pos rfl, hvalue]
      · rw [isDictionary, isDictionary, value_setValue, if_neg h]
    · rfl

theorem getKey_removeKey :
    (heap.removeKey a key).getKey a key' = if key = key' then none else heap.getKey a key' := by
  rw [removeKey]
  cases hvalue : heap.value a with
  | dictionary entries =>
    simp only [getKey, value_setValue, if_true, hvalue, ExtTreeMap.getElem?_erase,
      LawfulEqCmp.compare_eq_iff_eq]
  | _ => simp [getKey, hvalue]

theorem getKey_replaceKey (hdictionary : heap.isDictionary a = true) (hnull : heap.isNull child = false) :
    (heap.replaceKey a key child).getKey a key' =
      if key = key' then some child else heap.getKey a key' := by
  obtain ⟨entries, hvalue⟩ := isDictionary_iff.mp hdictionary
  rw [replaceKey, hnull, Bool.false_and, if_neg Bool.false_ne_true, hvalue]
  simp only [getKey, value_setValue, if_true, hvalue, ExtTreeMap.getElem?_insert,
    LawfulEqCmp.compare_eq_iff_eq]

/-- A dictionary is not null, whatever becomes of its entries. -/
theorem isNull_of_isDictionary (h : heap.isDictionary a = true) : heap.isNull a = false := by
  obtain ⟨entries, hvalue⟩ := isDictionary_iff.mp h
  rw [isNull, hvalue]

theorem isNull_removeKey : (heap.removeKey a key).isNull b = heap.isNull b := by
  by_cases h : b = a
  · subst h
    rw [removeKey]
    split
    · rename_i entries hvalue
      rw [isNull, isNull, value_setValue, if_pos rfl, hvalue]
    · rfl
  · exact isNull_congr (value_removeKey_of_ne h)

theorem isNull_replaceKey : (heap.replaceKey a key child).isNull b = heap.isNull b := by
  rw [replaceKey]
  split
  · exact isNull_removeKey
  · split
    · rename_i entries hvalue
      by_cases h : b = a
      · subst h
        rw [isNull, isNull, value_setValue, if_pos rfl, hvalue]
      · rw [isNull, isNull, value_setValue, if_neg h]
    · rfl

@[simp] theorem isNull_makeIndirect : (heap.makeIndirect a).isNull b = heap.isNull b :=
  isNull_congr value_makeIndirect

@[simp] theorem getKey_makeIndirect : (heap.makeIndirect a).getKey b key = heap.getKey b key :=
  getKey_congr value_makeIndirect

@[simp] theorem isDictionary_makeIndirect :
    (heap.makeIndirect a).isDictionary b = heap.isDictionary b := by
  rw [isDictionary, isDictionary, value_makeIndirect]

/-- What is visible under a key is not null. -/
theorem visible_eq_some : heap.visible a key = some child ↔
    heap.getKey a key = some child ∧ heap.isNull child = false := by
  rw [visible, Option.filter_eq_some_iff, Bool.not_eq_true']

/-- An array under a key makes the key visible. -/
theorem hasKey_of_arrayAt {items : List Handle} (h : heap.arrayAt a key = some items) :
    heap.hasKey a key = true := by
  rw [arrayAt, Option.bind_eq_some_iff] at h
  obtain ⟨array, hget, hitems⟩ := h
  have hnull : heap.isNull array = false := by
    rw [arrayItems] at hitems
    rw [isNull]
    cases hvalue : heap.value array with
    | array items => rfl
    | _ => simp [hvalue] at hitems
  rw [hasKey, visible_eq_some.mpr ⟨hget, hnull⟩]
  rfl

end Heap

end Flpdf
