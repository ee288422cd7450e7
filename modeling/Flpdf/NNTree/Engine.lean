import Flpdf.NNTree.Store

/-! # The engine of name and number trees

Moving, finding, inserting and removing, after `nntree.rs`; name trees and number trees
differ in how a key is written and read.
-/

namespace Flpdf

variable {κ ρ ν : Type}

namespace NNTree

variable [LinearOrder κ] (K : TreeKey κ ρ) (tree : NNTree)

/-! ## Moving -/

/-- The loop of `descend`; a `break` gives no cursor. -/
def descendLoop (store : NodeStore ρ ν) (first allowEmpty materializeCurrent : Bool) :
    ℕ → List NodeId → NNTreeCursor κ ν → NodeId → Except NNTreeError (Option (NNTreeCursor κ ν))
  | 0, _, _, _ => .ok none
  | fuel + 1, seen, cursor, id =>
    if tree.maxDepth.any (· ≤ cursor.path.length) then
      .error (.unsupported (ascii "name/number tree: /Kids depth limit exceeded"))
    else if id ∈ seen then .ok none
    else
      match store.node id with
      | none => .ok none
      | some node =>
        match node.items, node.kids with
        | some (item :: items), _ =>
          let cursor := { cursor with
            leaf := some id
            itemNumber := some (if first then 0 else (item :: items).length - 1)
            current := none }
          if materializeCurrent then (updateCurrent K store cursor).map some else .ok (some cursor)
        | _, some (kid :: kids) =>
          let kidNumber := if first then 0 else (kid :: kids).length - 1
          let cursor := { cursor with path := ⟨id, kidNumber⟩ :: cursor.path }
          descendLoop store first allowEmpty materializeCurrent fuel (id :: seen) cursor
            ((kid :: kids).getD kidNumber kid)
        | items, _ =>
          if allowEmpty && items.isSome then
            .ok (some { cursor with leaf := some id, itemNumber := none, current := none })
          else .ok none

/-- `descend`: the loop ends, since a node is only visited once. -/
def descend (store : NodeStore ρ ν) (cursor : NNTreeCursor κ ν) (start : NodeId)
    (first allowEmpty materializeCurrent : Bool) : Except NNTreeError (NNTreeCursor κ ν × Bool) := do
  match ← descendLoop K tree store first allowEmpty materializeCurrent (store.next + 1)
      (cursor.path.map PathElement.node) cursor start with
  | some cursor => return (cursor, true)
  | none => return (cursor, false)

def beginPosition (store : NodeStore ρ ν) (materializeCurrent : Bool) :
    Except NNTreeError (NNTreeCursor κ ν) :=
  (descend K tree store {} tree.root true true materializeCurrent).map Prod.fst

def kidHasTreeShape (store : NodeStore ρ ν) (kid : NodeId) : Bool :=
  match store.node kid with
  | some node => node.kids.isSome || node.items.isSome
  | none => false

/-- The loop over the kids behind, or before, the one that is left. -/
def tryKids (store : NodeStore ρ ν) (backward : Bool) (parent : NodeId) (kids : List NodeId)
    (above : List PathElement) : List ℕ → Except NNTreeError (Option (NNTreeCursor κ ν))
  | [] => .ok none
  | kidNumber :: rest =>
    match kids[kidNumber]? with
    | none => .ok none
    | some kid =>
      if kidHasTreeShape store kid then do
        let cursor : NNTreeCursor κ ν := { path := ⟨parent, kidNumber⟩ :: above }
        match ← descend K tree store cursor kid (!backward) false false with
        | (cursor, true) => return some cursor
        | (_, false) => tryKids store backward parent kids above rest
      else tryKids store backward parent kids above rest

/-- The loop that leaves one node after the other; at its end the cursor has no path. -/
def climb (store : NodeStore ρ ν) (backward : Bool) : List PathElement →
    Except NNTreeError (NNTreeCursor κ ν)
  | [] => .ok {}
  | element :: above => do
    let node ← store.loadNode element.node
    match node.kids with
    | none => climb store backward above
    | some kids =>
      let candidates := if backward then (List.range element.kidNumber).reverse
        else List.range' (element.kidNumber + 1) (kids.length - (element.kidNumber + 1))
      match ← tryKids K tree store backward element.node kids above candidates with
      | some cursor => return cursor
      | none => climb store backward above

def increment (store : NodeStore ρ ν) (cursor : NNTreeCursor κ ν) (backward materializeCurrent : Bool) :
    Except NNTreeError (NNTreeCursor κ ν) :=
  let cursor := if materializeCurrent then cursor else { cursor with current := none }
  match cursor.leaf, cursor.itemNumber with
  | some leaf, some itemNumber => do
    let node ← store.loadNode leaf
    match node.items with
    | none => return cursor.clearPosition
    | some items =>
      let candidate :=
        if backward then if itemNumber = 0 then none else some (itemNumber - 1)
        else if itemNumber + 1 < items.length then some (itemNumber + 1) else none
      match candidate with
      | some candidate =>
        let cursor := { cursor with itemNumber := some candidate }
        if materializeCurrent then updateCurrent K store cursor
        else return { cursor with current := none }
      | none =>
        let cursor ← climb K tree store backward cursor.path
        if materializeCurrent then updateCurrent K store cursor else return cursor
  | _, _ => (descend K tree store {} tree.root (!backward) true materializeCurrent).map Prod.fst

/-- `next` of a cursor. -/
def next (store : NodeStore ρ ν) (cursor : NNTreeCursor κ ν) : Except NNTreeError (NNTreeCursor κ ν) :=
  increment K tree store cursor false true

/-! ## Finding -/

/-- Where a key is with respect to the limits of a kid. -/
def withinLimits (store : NodeStore ρ ν) (key : κ) (kid : NodeId) : Except NNTreeError Ordering := do
  let node ← store.loadNode kid
  match node.limits with
  | none => .error (.structural (some kid) (ascii "node is missing /Limits"))
  | some (first, last) =>
    if key < K.valueFromHandle first then return .lt
    else if K.valueFromHandle last < key then return .gt
    else return .eq

def findLoop (store : NodeStore ρ ν) (key : κ) (returnPreviousIfMissing : Bool) :
    ℕ → List NodeId → NNTreeCursor κ ν → NodeId → Except NNTreeError (NNTreeCursor κ ν)
  | 0, _, _, id => .error (.structural (some id) (ascii "loop detected in find"))
  | fuel + 1, seen, cursor, id =>
    if tree.maxDepth.any (· ≤ cursor.path.length) then
      .error (.unsupported (ascii "name/number tree: /Kids depth limit exceeded"))
    else if id ∈ seen then .error (.structural (some id) (ascii "loop detected in find"))
    else do
      let node ← store.loadNode id
      match node.items, node.kids with
      | some (item :: items), _ =>
        let index ← binarySearch (item :: items).length returnPreviousIfMissing fun index =>
          .ok (compare key (K.valueFromHandle ((item :: items).getD index item).rawKey))
        match index with
        | some index => updateCurrent K store { cursor with leaf := some id, itemNumber := some index }
        | none => return cursor
      | _, some (kid :: kids) =>
        let index ← binarySearch (kid :: kids).length true fun index =>
          withinLimits K store key ((kid :: kids).getD index kid)
        match index with
        | none => .error (.structural (some id)
            (ascii "unexpected -1 from binary search of kids; limits may by wrong"))
        | some index =>
          findLoop store key returnPreviousIfMissing fuel (id :: seen)
            { cursor with path := ⟨id, index⟩ :: cursor.path } ((kid :: kids).getD index kid)
      | _, _ => .error (.structural (some id) (ascii "bad node during find"))

def findInternal (store : NodeStore ρ ν) (key : κ) (returnPreviousIfMissing : Bool) :
    Except NNTreeError (NNTreeCursor κ ν) := do
  let first : NNTreeCursor κ ν ← beginPosition K tree store false
  match first.leaf, first.itemNumber with
  | some leaf, some itemNumber =>
    let items ← leafItems store leaf
    match items[itemNumber]? with
    | none => .error (.structural (some leaf) (ascii "update ivalue: items array is too short"))
    | some item =>
      if key < K.valueFromHandle item.rawKey then return {}
      else findLoop K tree store key returnPreviousIfMissing (store.next + 1) [] {} tree.root
  | _, _ => return {}

/-- `find`; whatever `repair` is, it only comes after a structural error. -/
def find (repair : NodeStore ρ ν → Except NNTreeError (NodeStore ρ ν)) (store : NodeStore ρ ν) (key : κ)
    (returnPreviousIfMissing : Bool) : Except NNTreeError (NodeStore ρ ν × NNTreeCursor κ ν) :=
  match findInternal K tree store key returnPreviousIfMissing with
  | .ok cursor => .ok (store, cursor)
  | .error (.structural node message) =>
    if tree.autoRepair then do
      let store ← repair store
      let cursor ← findInternal K tree store key returnPreviousIfMissing
      return (store, cursor)
    else .error (.structural node message)
  | .error error => .error error

/-! ## Splitting -/

/-- How many objects a split makes, as far as it goes up. -/
def splitAllocations (store : NodeStore ρ ν) : List PathElement → Except NNTreeError ℕ
  | [] => .ok 2
  | parent :: above => do
    let node ← store.loadNode parent.node
    match node.kids with
    | none => .error (.structural (some parent.node) (ascii "node is missing /Kids"))
    | some kids =>
      if kids.length < tree.splitThreshold then return 1
      else return (← splitAllocations store above) + 1

/-- `ensure_split_allocations_available`, for an items array of the given length. -/
def ensureSplitAllocationsAvailable (store : NodeStore ρ ν) (path : List PathElement) (length : ℕ) :
    Except NNTreeError Unit :=
  if length ≤ tree.splitThreshold then .ok ()
  else do
    let allocations ← splitAllocations tree store path
    if allocations ≤ 2 ^ 31 - store.next then return ()
    else .error (.unsupported (ascii "object-number space exhausted"))

/-- The array of a node that is split: its items or its kids. -/
inductive NodeArray (ρ ν : Type) where
  | items (array : List (TreeItem ρ ν))
  | kids (array : List NodeId)

namespace NodeArray

def length : NodeArray ρ ν → ℕ
  | .items array => array.length
  | .kids array => array.length

def take (n : ℕ) : NodeArray ρ ν → NodeArray ρ ν
  | .items array => .items (array.take n)
  | .kids array => .kids (array.take n)

def drop (n : ℕ) : NodeArray ρ ν → NodeArray ρ ν
  | .items array => .items (array.drop n)
  | .kids array => .kids (array.drop n)

def isLeaf : NodeArray ρ ν → Bool
  | .items _ => true
  | .kids _ => false

/-- A dictionary with the array and nothing else. -/
def dictionary : NodeArray ρ ν → TreeNode ρ ν
  | .items array => { items := some array }
  | .kids array => { kids := some array }

/-- The dictionary with the array in the place of its old one. -/
def store (node : TreeNode ρ ν) : NodeArray ρ ν → TreeNode ρ ν
  | .items array => { node with items := some array }
  | .kids array => { node with kids := some array }

end NodeArray

/-- The array that is looked at when a node is split. -/
def splitArray (node : TreeNode ρ ν) : Option (NodeArray ρ ν) :=
  match node.kids, node.items with
  | some kids, _ => some (.kids kids)
  | none, some items => some (.items items)
  | none, none => none

def loadArray (store : NodeStore ρ ν) (id : NodeId) : Except NNTreeError (NodeArray ρ ν) := do
  match splitArray (← store.loadNode id) with
  | some array => return array
  | none => .error (.structural (some id) (ascii "split called on invalid node"))

/-- A cursor seen from a node of its path: `below` leads from the node to the leaf. -/
structure SplitCursor (κ ν : Type) where
  below : List PathElement := []
  leaf : NodeId
  itemNumber : ℕ
  current : Option (κ × ν)

namespace SplitCursor

/-- The cursor again, with the path from the node to the root. -/
def cursor (s : SplitCursor κ ν) (parents : List PathElement) : NNTreeCursor κ ν where
  path := s.below.reverse ++ parents
  leaf := some s.leaf
  itemNumber := some s.itemNumber
  current := s.current

/-- The node of the cursor is another one. -/
def setNode (s : SplitCursor κ ν) (isLeaf : Bool) (id : NodeId) : SplitCursor κ ν :=
  if isLeaf then { s with leaf := id }
  else { s with below := s.below.modifyHead fun element => { element with node := id } }

/-- The position of the cursor in the array of its node. -/
def index (s : SplitCursor κ ν) (isLeaf : Bool) : ℕ :=
  if isLeaf then s.itemNumber else (s.below.head?.map PathElement.kidNumber).getD 0

/-- The cursor moves to the second half, which begins at `startIndex`. -/
def toSecond (s : SplitCursor κ ν) (store : NodeStore ρ ν) (isLeaf : Bool) (second : NodeId)
    (startIndex : ℕ) : Except NNTreeError (SplitCursor κ ν) :=
  if isLeaf then do
    let s := { s with leaf := second, itemNumber := s.itemNumber - startIndex }
    let cursor ← updateCurrent K store (s.cursor [])
    return { s with current := cursor.current }
  else
    return { s with below := s.below.modifyHead fun element =>
        { node := second, kidNumber := element.kidNumber - startIndex } }

end SplitCursor

/-- A node is cut in two halves, the second one linked behind the first one. -/
def splitHalves (store : NodeStore ρ ν) (s : SplitCursor κ ν) (id : NodeId) (parent : PathElement)
    (above : List PathElement) :
    Except NNTreeError (NodeStore ρ ν × SplitCursor κ ν × PathElement) := do
  let array ← loadArray store id
  let startIndex := array.length / 2
  let node ← store.loadNode id
  let store := store.set id ((array.take startIndex).store node)
  let store ← resetLimits K store id (parent :: above)
  let (second, store) ← store.makeIndirect (array.drop startIndex).dictionary
  let store ← resetLimits K store second (parent :: above)
  let parentNode ← store.loadNode parent.node
  match parentNode.kids with
  | none => .error (.structural (some parent.node) (ascii "node is missing /Kids"))
  | some kids =>
    let store := store.set parent.node
      { parentNode with kids := some (kids.insertIdx (parent.kidNumber + 1) second) }
    if startIndex ≤ s.index array.isLeaf then
      let s ← s.toSecond K store array.isLeaf second startIndex
      return (store, s, { parent with kidNumber := parent.kidNumber + 1 })
    else return (store, s, parent)

/-- The root keeps its object: its array moves to a new node. -/
def growRoot (store : NodeStore ρ ν) (s : SplitCursor κ ν) (id : NodeId) (array : NodeArray ρ ν) :
    Except NNTreeError (NodeStore ρ ν × SplitCursor κ ν × NodeId) := do
  let (first, store) ← store.makeIndirect array.dictionary
  let root ← store.loadNode id
  let store := store.set id { root with limits := none, items := none, kids := some [first] }
  return (store, s.setNode array.isLeaf first, first)

/-- `split_node_live`. -/
def splitNodeLive (store : NodeStore ρ ν) (s : SplitCursor κ ν) (id : NodeId) :
    List PathElement → Except NNTreeError (NodeStore ρ ν × NNTreeCursor κ ν)
  | [] => do
    let array ← loadArray store id
    if array.length = 0 ∨ array.length ≤ tree.splitThreshold then return (store, s.cursor [])
    else
      let (store, s, first) ← growRoot store s id array
      let (store, s, parent) ← splitHalves K store s first ⟨id, 0⟩ []
      return (store, s.cursor [parent])
  | parent :: above => do
    let array ← loadArray store id
    if array.length = 0 ∨ array.length ≤ tree.splitThreshold then
      return (store, s.cursor (parent :: above))
    else
      let (store, s, parent) ← splitHalves K store s id parent above
      let store ← resetLimits K store parent.node above
      splitNodeLive store { s with below := parent :: s.below } parent.node above

/-! ## Inserting -/

def insertFirst (store : NodeStore ρ ν) (rawKey : ρ) (value : ν) (materializeCurrent : Bool) :
    Except NNTreeError (NodeStore ρ ν × NNTreeCursor κ ν) := do
  let cursor : NNTreeCursor κ ν ← beginPosition K tree store false
  match cursor.leaf with
  | none => .error (.structural none (ascii "unable to find a valid items node"))
  | some leaf =>
    let node ← store.loadNode leaf
    match node.items with
    | none => .error (.structural (some tree.root) (ascii "unable to find a valid items node"))
    | some items =>
      ensureSplitAllocationsAvailable tree store cursor.path (items.length + 1)
      let store := store.set leaf { node with items := some (⟨rawKey, value⟩ :: items) }
      let cursor := { cursor with itemNumber := some 0 }
      let cursor ← if materializeCurrent then updateCurrent K store cursor else pure cursor
      let store ← resetLimits K store leaf cursor.path
      splitNodeLive K tree store { leaf, itemNumber := 0, current := cursor.current } leaf cursor.path

/-- `insert_after_with_allocator`. -/
def insertAfter (store : NodeStore ρ ν) (cursor : NNTreeCursor κ ν) (rawKey : ρ) (value : ν) :
    Except NNTreeError (NodeStore ρ ν × NNTreeCursor κ ν) :=
  match cursor.leaf, cursor.itemNumber with
  | some leaf, some itemNumber => do
    let node ← store.loadNode leaf
    match node.items with
    | none => .error (.structural (some leaf) (ascii "node contains no items array"))
    | some items =>
      if items.length < itemNumber + 1 then
        .error (.structural (some leaf) (ascii "insert: items array is too short"))
      else
        ensureSplitAllocationsAvailable tree store cursor.path (items.length + 1)
        let store := store.set leaf
          { node with items := some (items.insertIdx (itemNumber + 1) ⟨rawKey, value⟩) }
        let store ← resetLimits K store leaf cursor.path
        let cursor ← updateCurrent K store { cursor with itemNumber := some (itemNumber + 1) }
        splitNodeLive K tree store
          { leaf, itemNumber := itemNumber + 1, current := cursor.current } leaf cursor.path
  | _, _ => insertFirst K tree store rawKey value true

section Edits

variable (repair : NodeStore ρ ν → Except NNTreeError (NodeStore ρ ν))

/-- `insert_resolved_with_allocator`. -/
def insertResolved (store : NodeStore ρ ν) (key : κ) (rawKey : ρ) (value : ν) :
    Except NNTreeError (NodeStore ρ ν × NNTreeCursor κ ν) := do
  let (store, cursor) ← find K tree repair store key true
  match cursor.leaf, cursor.itemNumber with
  | some leaf, some itemNumber =>
    if cursor.current.any (·.1 = key) then
      let node ← store.loadNode leaf
      match node.items with
      | none => .error (.structural (some leaf) (ascii "node contains no items array"))
      | some items =>
        let store := store.set leaf
          { node with items := some (items.modify itemNumber fun item => { item with value }) }
        let cursor ← updateCurrent K store cursor
        return (store, cursor)
    else insertAfter K tree store cursor rawKey value
  | _, _ => insertFirst K tree store rawKey value true

/-- The key is written first and what is written is read again. -/
def insert (store : NodeStore ρ ν) (key : κ) (value : ν) :
    Except NNTreeError (NodeStore ρ ν × NNTreeCursor κ ν) :=
  insertResolved K tree repair store (K.valueFromHandle (K.toHandle key)) (K.toHandle key) value

/-! ## Removing -/

/-- Limits are set again when the first or the last slot of an array has been taken out. -/
def resetEdge (store : NodeStore ρ ν) (id : NodeId) (path : List PathElement) (index length : ℕ) :
    Except NNTreeError (NodeStore ρ ν) :=
  if index = 0 ∨ index = length then resetLimits K store id path else .ok store

/-- `remove_empty_leaf`: a kid is taken out, and its parent too when it has no other one. -/
def removeEmptyLeaf (store : NodeStore ρ ν) : List PathElement →
    Except NNTreeError (NodeStore ρ ν × NNTreeCursor κ ν)
  | [] => .ok (store, {})
  | element :: above => do
    let parent ← store.loadNode element.node
    match parent.kids with
    | none => .error (.structural (some element.node) (ascii "node is missing /Kids"))
    | some kids =>
      let kids := kids.eraseIdx element.kidNumber
      let store := store.set element.node { parent with kids := some kids }
      match kids.getLast? with
      | some last =>
        let store ← resetEdge K store element.node above element.kidNumber kids.length
        if element.kidNumber = kids.length then
          let cursor : NNTreeCursor κ ν :=
            { path := { element with kidNumber := element.kidNumber - 1 } :: above }
          let (cursor, _) ← descend K tree store cursor last false true false
          if cursor.positioned then return (store, ← increment K tree store cursor false false)
          else return (store, cursor)
        else
          let (cursor, _) ← descend K tree store { path := element :: above }
            (kids.getD element.kidNumber last) true true false
          return (store, cursor)
      | none =>
        if above = [] then
          let root ← store.loadNode element.node
          return (store.set element.node { root with kids := none, items := some [] }, {})
        else removeEmptyLeaf store above

/-- `remove_at_inner`. -/
def removeAtInner (store : NodeStore ρ ν) (cursor : NNTreeCursor κ ν) :
    Except NNTreeError (NodeStore ρ ν × NNTreeCursor κ ν × Option ν) :=
  match cursor.current, cursor.leaf, cursor.itemNumber with
  | some (_, removed), some leaf, some itemNumber => do
    let node ← store.loadNode leaf
    match node.items with
    | none => .error (.structural (some leaf) (ascii "node contains no items array"))
    | some items =>
      if items.length < itemNumber + 1 then
        .error (.structural (some leaf) (ascii "found short items array while removing an item"))
      else
        let items := items.eraseIdx itemNumber
        let store := store.set leaf { node with items := some items }
        if 0 < items.length then
          let store ← resetEdge K store leaf cursor.path itemNumber items.length
          if itemNumber = items.length then
            let cursor ← increment K tree store
              { cursor with itemNumber := some (itemNumber - 1), current := none } false false
            return (store, cursor, some removed)
          else return (store, { cursor with current := none }, some removed)
        else if cursor.path = [] then
          let store ← resetLimits K store leaf []
          return (store, { cursor with itemNumber := none, current := none }, some removed)
        else
          let (store, cursor) ← removeEmptyLeaf K tree store cursor.path
          return (store, cursor, some removed)
  | _, _, _ => .ok (store, cursor, none)

/-- `remove_at`; the `remove` of a cursor reads the current item again. -/
def removeAt (store : NodeStore ρ ν) (cursor : NNTreeCursor κ ν) (materializeCurrent : Bool) :
    Except NNTreeError (NodeStore ρ ν × NNTreeCursor κ ν × Option ν) := do
  let (store, cursor, removed) ← removeAtInner K tree store cursor
  if materializeCurrent && cursor.positioned then
    return (store, ← updateCurrent K store cursor, removed)
  else return (store, cursor, removed)

def remove (store : NodeStore ρ ν) (key : κ) :
    Except NNTreeError (NodeStore ρ ν × Option ν) := do
  let (store, cursor) ← find K tree repair store key false
  match cursor.current with
  | none => return (store, none)
  | some (_, value) =>
    let (store, _, _) ← removeAt K tree store cursor false
    return (store, some value)

def findObject (store : NodeStore ρ ν) (key : κ) :
    Except NNTreeError (NodeStore ρ ν × Option ν) := do
  let (store, cursor) ← find K tree repair store key false
  return (store, cursor.current.map Prod.snd)

end Edits

end NNTree

end Flpdf
