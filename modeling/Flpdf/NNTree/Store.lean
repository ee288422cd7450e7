import Flpdf.Bytes.Ascii
import Flpdf.NNTree.BinarySearch

/-! # The nodes of name and number trees

A tree that is made by the engine of `nntree.rs` consists of indirect dictionaries whose
arrays hold what the engine has put there: a node is known by its object number, a key
and its value make one item, and positions in an items array are half of those of the
source.
-/

namespace Flpdf

abbrev NodeId := ℕ

/-- How a key is written, and what a written key is read as. -/
structure TreeKey (κ ρ : Type) where
  valueFromHandle : ρ → κ
  toHandle : κ → ρ

/-- `NumberKey`: a number is written as it is. -/
def numberKey : TreeKey ℤ ℤ where
  valueFromHandle key := key
  toHandle key := key

/-- A written key with its value. -/
structure TreeItem (ρ ν : Type) where
  rawKey : ρ
  value : ν

/-- The dictionary of a node. -/
structure TreeNode (ρ ν : Type) where
  items : Option (List (TreeItem ρ ν)) := none
  kids : Option (List NodeId) := none
  limits : Option (ρ × ρ) := none

/-- The nodes of the document by object number, and the next number. -/
structure NodeStore (ρ ν : Type) where
  node : NodeId → Option (TreeNode ρ ν)
  next : ℕ

inductive NNTreeError where
  | structural (node : Option NodeId) (message : Bytes)
  | unsupported (message : Bytes)
  | internal (message : Bytes)
  deriving DecidableEq, Repr

structure PathElement where
  node : NodeId
  kidNumber : ℕ
  deriving DecidableEq, Repr

/-- A cursor; its path leads from the leaf to the root. -/
structure NNTreeCursor (κ ν : Type) where
  path : List PathElement := []
  leaf : Option NodeId := none
  itemNumber : Option ℕ := none
  current : Option (κ × ν) := none

structure NNTree where
  root : NodeId
  autoRepair : Bool := true
  splitThreshold : ℕ := 32
  maxDepth : Option ℕ := none

variable {κ ρ ν : Type}

namespace NodeStore

def set (store : NodeStore ρ ν) (id : NodeId) (node : TreeNode ρ ν) : NodeStore ρ ν :=
  { store with node := Function.update store.node id (some node) }

/-- `make_indirect_from_object_handle`. -/
def makeIndirect (store : NodeStore ρ ν) (node : TreeNode ρ ν) :
    Except NNTreeError (NodeId × NodeStore ρ ν) :=
  if store.next < 2 ^ 31 then .ok (store.next, { store.set store.next node with next := store.next + 1 })
  else .error (.unsupported (ascii "object-number space exhausted"))

def loadNode (store : NodeStore ρ ν) (id : NodeId) : Except NNTreeError (TreeNode ρ ν) :=
  match store.node id with
  | some node => .ok node
  | none => .error (.structural (some id) (ascii "bad node"))

/-- The first and the last key below a node, as far as its kids' limits tell. -/
def edgeLimits (store : NodeStore ρ ν) (node : TreeNode ρ ν) : Option (ρ × ρ) :=
  let ofItems := do
    let items ← node.items
    return ((← items.head?).rawKey, (← items.getLast?).rawKey)
  let ofKids := do
    let kids ← node.kids
    let first ← (← store.node (← kids.head?)).limits
    let last ← (← store.node (← kids.getLast?)).limits
    return (first.1, last.2)
  ofItems <|> ofKids

end NodeStore

namespace NNTreeCursor

def positioned (cursor : NNTreeCursor κ ν) : Bool := cursor.itemNumber.isSome

def clearPosition (cursor : NNTreeCursor κ ν) : NNTreeCursor κ ν :=
  { cursor with leaf := none, itemNumber := none, current := none }

end NNTreeCursor

namespace NNTree

/-- `new_empty`. -/
def newEmpty (store : NodeStore ρ ν) : Except NNTreeError (NNTree × NodeStore ρ ν) := do
  let (root, store) ← store.makeIndirect { items := some [] }
  return ({ root := root }, store)

variable [LinearOrder κ] (K : TreeKey κ ρ) (tree : NNTree)

/-- The items of a leaf. -/
def leafItems (store : NodeStore ρ ν) (leaf : NodeId) : Except NNTreeError (List (TreeItem ρ ν)) := do
  let node ← store.loadNode leaf
  match node.items with
  | some items => return items
  | none => .error (.structural (some leaf) (ascii "node contains no items array"))

def updateCurrent (store : NodeStore ρ ν) (cursor : NNTreeCursor κ ν) :
    Except NNTreeError (NNTreeCursor κ ν) :=
  match cursor.leaf, cursor.itemNumber with
  | some leaf, some itemNumber => do
    let node ← store.loadNode leaf
    match node.items with
    | none => .error (.structural (some leaf) (ascii "update ivalue: items is not an array"))
    | some items =>
      match items[itemNumber]? with
      | none => .error (.structural (some leaf) (ascii "update ivalue: items array is too short"))
      | some item =>
        return { cursor with current := some (K.valueFromHandle item.rawKey, item.value) }
  | _, _ => .ok { cursor with current := none }

/-! ## Limits -/

/-- The limits of a node and of the nodes above it, up to the first that does not change. -/
def resetLimits (store : NodeStore ρ ν) (id : NodeId) : List PathElement →
    Except NNTreeError (NodeStore ρ ν)
  | [] => do
    let node ← store.loadNode id
    return store.set id { node with limits := none }
  | parent :: above => do
    let node ← store.loadNode id
    match store.edgeLimits node with
    | some (first, last) =>
      let unchanged := node.limits.any fun old =>
        K.valueFromHandle old.1 = K.valueFromHandle first ∧
          K.valueFromHandle old.2 = K.valueFromHandle last
      if unchanged then return store
      else
        let store := store.set id { node with limits := some (first, last) }
        if above = [] then return store else resetLimits store parent.node above
    | none => if above = [] then return store else resetLimits store parent.node above

end NNTree

end Flpdf
