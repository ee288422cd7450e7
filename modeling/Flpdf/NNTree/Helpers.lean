import Flpdf.Collections.SortedMap
import Flpdf.NNTree.Cursors
import Flpdf.PdfString.Normalized
import Mathlib.Data.List.Lex

/-! # Name trees and number trees

`NameTree` and `NumberTree` hand their calls on to the engine: a number is searched for as
it is, a name in its normalized form.  An insertion writes the key, which normalizes a
name too.
-/

namespace Flpdf

/-- The bytes of a name are compared one after the other. -/
scoped instance NameTree.byteOrder : LinearOrder UInt8 where
  le_refl := UInt8.le_refl
  le_trans _ _ _ := UInt8.le_trans
  le_antisymm _ _ := UInt8.le_antisymm
  le_total := UInt8.le_total
  lt_iff_le_not_ge _ _ := by
    rw [UInt8.lt_iff_toNat_lt, UInt8.le_iff_toNat_le, UInt8.le_iff_toNat_le]
    omega
  toDecidableLE := inferInstance
  toDecidableLT := inferInstance
  toDecidableEq := inferInstance

/-- A kind of key with the form in which a key is searched for; a key that has been written is
found under this form. -/
structure TreeHelper (κ ρ : Type) extends TreeKey κ ρ where
  searchKey : κ → κ
  valueFromHandle_toHandle (key : κ) : valueFromHandle (toHandle key) = searchKey key

namespace NumberTree

def helper : TreeHelper ℤ ℤ where
  toTreeKey := numberKey
  searchKey key := key
  valueFromHandle_toHandle _ := rfl

end NumberTree

/-- `NameKey`: a name is written as a text string in its normalized form. -/
def nameKey : TreeKey Bytes Bytes where
  valueFromHandle := utf8Value
  toHandle key := newUnicodeString (normalizedUtf8Value key)

namespace NameTree

def helper : TreeHelper Bytes Bytes where
  toTreeKey := nameKey
  searchKey := normalizedUtf8Value
  valueFromHandle_toHandle key :=
    (utf8Value_newUnicodeString_normalized _).trans (normalizedUtf8Value_normalizedUtf8Value key)

end NameTree

variable {κ ρ ν : Type}

/-- A call that changes the tree. -/
inductive TreeCall (κ ν : Type) where
  | insert (key : κ) (value : ν)
  | remove (key : κ)

namespace TreeHelper

variable [LinearOrder κ] (H : TreeHelper κ ρ) (tree : NNTree)

section Calls

variable (repair : NodeStore ρ ν → Except NNTreeError (NodeStore ρ ν)) (store : NodeStore ρ ν)

def insert (key : κ) (value : ν) : Except NNTreeError (NodeStore ρ ν × NNTreeCursor κ ν) :=
  NNTree.insert H.toTreeKey tree repair store key value

def remove (key : κ) : Except NNTreeError (NodeStore ρ ν × Option ν) :=
  NNTree.remove H.toTreeKey tree repair store (H.searchKey key)

def findWithOptions (key : κ) (returnPreviousIfMissing : Bool) :
    Except NNTreeError (NodeStore ρ ν × NNTreeCursor κ ν) :=
  NNTree.find H.toTreeKey tree repair store (H.searchKey key) returnPreviousIfMissing

def findObject (key : κ) : Except NNTreeError (NodeStore ρ ν × Option ν) :=
  NNTree.findObject H.toTreeKey tree repair store (H.searchKey key)

end Calls

/-- The loop of `as_map`; without fuel there is no map. -/
def asMapLoop (store : NodeStore ρ ν) :
    ℕ → List (κ × ν) → NNTreeCursor κ ν → Except NNTreeError (Option (List (κ × ν)))
  | 0, _, _ => .ok none
  | fuel + 1, result, cursor =>
    match cursor.current with
    | none => .ok (some result)
    | some (key, value) => do
      let cursor ← NNTree.next H.toTreeKey tree store cursor
      asMapLoop store fuel (insertSorted key value result) cursor

def asMap (store : NodeStore ρ ν) (fuel : ℕ) : Except NNTreeError (Option (List (κ × ν))) := do
  let cursor ← NNTree.beginPosition H.toTreeKey tree store true
  if cursor.positioned && cursor.current.isNone then
    .error (.internal (ascii "attempt made to dereference an invalid name/number tree iterator"))
  else asMapLoop H tree store fuel [] cursor

section Runs

variable (repair : NodeStore ρ ν → Except NNTreeError (NodeStore ρ ν))

def call (store : NodeStore ρ ν) : TreeCall κ ν → Except NNTreeError (NodeStore ρ ν)
  | .insert key value => do
    let (store, _) ← H.insert tree repair store key value
    return store
  | .remove key => do
    let (store, _) ← H.remove tree repair store key
    return store

/-- One call after the other, up to the first that fails. -/
def run (store : NodeStore ρ ν) : List (TreeCall κ ν) → Except NNTreeError (NodeStore ρ ν)
  | [] => .ok store
  | call :: calls => do
    let store ← H.call tree repair store call
    run store calls

end Runs

end TreeHelper

def NNTree.setSplitThreshold (tree : NNTree) (threshold : ℕ) : NNTree :=
  { tree with splitThreshold := threshold }

/-- What a call does to an abstract map, whose keys are in the form in which they are searched for. -/
def TreeCall.onMap [DecidableEq κ] (searchKey : κ → κ) (map : κ → Option ν) : TreeCall κ ν → κ → Option ν
  | insert key value => Function.update map (searchKey key) (some value)
  | remove key => Function.update map (searchKey key) none

end Flpdf
