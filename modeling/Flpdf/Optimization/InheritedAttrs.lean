import Flpdf.Handles.Heap

/-!
# Pushing inherited attributes

`inherited_attrs::push` takes the inheritable attributes from the nodes of the
page tree and hands them down to the pages. The walk keeps suspended frames of
two kinds, and a stack of the values above for every key.
-/

namespace Flpdf

open Std

/-- `INHERITABLE_KEYS`. -/
def inheritableKeys : List Bytes :=
  [ascii "/CropBox", ascii "/MediaBox", ascii "/Resources", ascii "/Rotate"]

/-- Key to stack, the value pushed last in front. -/
abbrev KeyAncestors := ExtTreeMap Bytes (List Handle)

/-- What the walk changes. -/
structure PushState where
  heap : Heap
  keyAncestors : KeyAncestors
  visited : ExtTreeSet QpdfObjGen

inductive InheritedFrameKind where
  | direct
  | indirect
deriving DecidableEq, Repr

/-- A suspended frame, with the kids that are still to come. -/
structure InheritedFrame where
  kind : InheritedFrameKind
  kids : List Handle
  ownKeys : List Bytes

inductive PageTreeRoot where
  | indirect (root : Handle)
  | direct (catalog : Handle)

/-- `key_ancestors.entry(key).or_default().push(value)`. -/
def pushAncestor (keyAncestors : KeyAncestors) (key : Bytes) (value : Handle) : KeyAncestors :=
  keyAncestors.insert key (value :: keyAncestors.getD key [])

/-- `stack.pop()`; an empty stack is removed. -/
def popAncestor (keyAncestors : KeyAncestors) (key : Bytes) : KeyAncestors :=
  match (keyAncestors.getD key []).tail with
  | [] => keyAncestors.erase key
  | stack => keyAncestors.insert key stack

def popNodeAttributes (keyAncestors : KeyAncestors) (ownKeys : List Bytes) : KeyAncestors :=
  ownKeys.foldl popAncestor keyAncestors

namespace Heap

/-- An inherited value that is a direct container becomes indirect. -/
def promoteInherited (heap : Heap) (value : Handle) : Heap :=
  if heap.isIndirect value then heap
  else if !heap.isScalar value then heap.makeIndirect value
  else heap

/-- One key of `push_node_attributes`, with the keys taken so far. -/
def pushNodeAttribute (dict : Handle) (st : Heap × KeyAncestors × List Bytes) (key : Bytes) :
    Heap × KeyAncestors × List Bytes :=
  match st.1.visible dict key with
  | none => st
  | some value =>
    ((st.1.removeKey dict key).promoteInherited value, pushAncestor st.2.1 key value,
      st.2.2 ++ [key])

def pushNodeAttributes (heap : Heap) (dict : Handle) (keyAncestors : KeyAncestors) :
    Heap × KeyAncestors × List Bytes :=
  inheritableKeys.foldl (pushNodeAttribute dict) (heap, keyAncestors, [])

/-- One stack of `key_ancestors`: its last value goes to a page without a value. -/
def installInherited (kid : Handle) (heap : Heap) (entry : Bytes × List Handle) : Heap :=
  if heap.hasKey kid entry.1 then heap
  else
    match entry.2 with
    | [] => heap
    | value :: _ => heap.replaceKey kid entry.1 value

def isPagesDictionary (heap : Heap) (a : Handle) : Bool := heap.isDictionaryOfType a (ascii "Pages")

end Heap

namespace PushState

/-- The attributes of a node are taken, and its kids come next. -/
def openFrame (st : PushState) (kind : InheritedFrameKind) (dict : Handle) :
    Option InheritedFrame × PushState :=
  let pushed := st.heap.pushNodeAttributes dict st.keyAncestors
  (some ⟨kind, (pushed.1.arrayAt dict (ascii "/Kids")).getD [], pushed.2.2⟩,
    { st with heap := pushed.1, keyAncestors := pushed.2.1 })

def enterDirectFrame (st : PushState) (dict : Handle) : Option InheritedFrame × PushState :=
  if st.heap.isPagesDictionary dict then st.openFrame .direct dict else (none, st)

def enterIndirectFrame (st : PushState) (node : Handle) : Option InheritedFrame × PushState :=
  match st.heap.identity node with
  | none => (none, st)
  | some nodeRef =>
    if st.visited.contains nodeRef then (none, st)
    else
      let st := { st with visited := st.visited.insert nodeRef }
      if st.heap.isPagesDictionary node then st.openFrame .indirect node else (none, st)

def pushChildReference (st : PushState) (kid : Handle) : Option InheritedFrame × PushState :=
  if st.heap.isPagesDictionary kid then st.enterIndirectFrame kid
  else if !st.heap.isDictionary kid then (none, st)
  else
    (none, { st with
      heap := st.keyAncestors.toList.foldl (Heap.installInherited kid) st.heap })

/-- One kid of a frame. A frame of an indirect node passes over direct kids. -/
def visitKid (st : PushState) (kind : InheritedFrameKind) (kid : Handle) :
    Option InheritedFrame × PushState :=
  match kind with
  | .direct =>
    if st.heap.isIndirect kid then st.pushChildReference kid
    else if st.heap.isDictionary kid && st.heap.hasKey kid (ascii "/Kids") then
      st.enterDirectFrame kid
    else (none, st)
  | .indirect => if st.heap.isIndirect kid then st.pushChildReference kid else (none, st)

/-- `walk_inherited_frames`; `none` when the fuel is used up. -/
def walkInheritedFrames : ℕ → List InheritedFrame → PushState → Option PushState
  | _, [], st => some st
  | 0, _ :: _, _ => none
  | fuel + 1, frame :: frames, st =>
    match frame.kids with
    | [] =>
      walkInheritedFrames fuel frames
        { st with keyAncestors := popNodeAttributes st.keyAncestors frame.ownKeys }
    | kid :: kids =>
      walkInheritedFrames fuel
        ((st.visitKid frame.kind kid).1.toList ++ { frame with kids } :: frames)
        (st.visitKid frame.kind kid).2

end PushState

/-- `push` with changes allowed, and without warnings about skipped keys. -/
def pushInheritedAttributes (heap : Heap) (root : PageTreeRoot) (fuel : ℕ) : Option PushState :=
  let st : PushState := ⟨heap, ∅, ∅⟩
  match root with
  | .indirect root =>
    PushState.walkInheritedFrames fuel (st.enterIndirectFrame root).1.toList
      (st.enterIndirectFrame root).2
  | .direct catalog =>
    match heap.getKey catalog (ascii "/Pages") with
    | none => some st
    | some pages =>
      if heap.isDictionary pages then
        PushState.walkInheritedFrames fuel (st.enterDirectFrame pages).1.toList
          (st.enterDirectFrame pages).2
      else some st

end Flpdf
