import Flpdf.Effects.Program
import Flpdf.Graph.DepthFirst
import Flpdf.Handles.Copy
import Mathlib.Data.Finset.Insert

/-! # Page references of the structure tree

After pages were selected, a walk from `/StructTreeRoot` through `/K` turns the `/Pg` of every
element to the first output page of its page, or drops it.  Handles that an `N G R` reference can
name are entered once; the others have nothing to be remembered by. -/

namespace Flpdf

open DepthFirst

/-! ## The page map -/

/-- The output pages of every page that was selected, and the leaves that were not. -/
structure RebuildResult where
  refMap : ObjectRef → Option (List ObjectRef)
  removedPageObjgens : QpdfObjGen → Bool
  outputs_are_objects : ∀ old outputs new, refMap old = some outputs → new ∈ outputs →
    1 ≤ new.number ∧ new.number < 2 ^ 31 ∧ new.generation < 2 ^ 16

inductive PgChange where
  | keep
  | remap (new : ObjectRef)
  | drop
deriving DecidableEq

namespace RebuildResult

variable (result : RebuildResult)

/-- The first output page. -/
def surviving (old : ObjectRef) : Option ObjectRef :=
  (result.refMap old).bind List.head?

/-- What becomes of a `/Pg` with this identity. -/
def pgChange (pgGen : QpdfObjGen) : PgChange :=
  match pgGen.toObjectRef.bind fun pgRef =>
    (result.surviving pgRef).map fun new => (pgRef, new) with
  | some (pgRef, new) => if new ≠ pgRef then .remap new else .keep
  | none => if result.removedPageObjgens pgGen then .drop else .keep

end RebuildResult

/-! ## The walk -/

/-- A document before the walk, its objects in their handles: `tryDereference` fails where an object
cannot be read. -/
structure LiveDocument where
  heap : Heap
  rootRef : Option ObjectRef
  getObjectHandle : ObjectRef → Handle
  tryDereference : Handle → Except Failure Unit
  closed : heap.Closed
  catalog_lt : ∀ ref, rootRef = some ref → getObjectHandle ref < heap.size
  handle_objectGen : ∀ ref : ObjectRef,
    1 ≤ ref.number ∧ ref.number < 2 ^ 31 ∧ ref.generation < 2 ^ 16 →
    (heap.slot (getObjectHandle ref)).objectGen = some ⟨ref.number, ref.generation⟩
  canonical : ∀ a b ref, heap.objectRef a = some ref → heap.objectRef b = some ref → a = b

structure WalkState where
  heap : Heap
  visited : Finset ObjectRef
  objrObjTargets : List ObjectRef

namespace StructTree

open Program

variable (document : LiveDocument) (result : RebuildResult) (maxDepth : ℕ)

/-- Whether the handle is to be walked: a reference that can be named is taken once. -/
def enter (k : Handle) : Program WalkState Failure Bool := do
  let s ← get
  match s.heap.objectRef k with
  | none => return true
  | some kidRef =>
    if kidRef ∈ s.visited then return false
    else
      modify fun s => { s with visited := insert kidRef s.visited }
      return true

/-- `/Pg` of one dictionary. -/
def processPg (dict : Handle) : Program WalkState Failure Unit := do
  let s ← get
  match s.heap.getKey dict (ascii "/Pg") with
  | none => return
  | some pg =>
    match (s.heap.slot pg).objectGen with
    | none => return
    | some pgGen =>
      match result.pgChange pgGen with
      | .keep => return
      | .remap new =>
        ofExcept (document.tryDereference (document.getObjectHandle new))
        modify fun s =>
          { s with heap := s.heap.replaceKey dict (ascii "/Pg") (document.getObjectHandle new) }
      | .drop => modify fun s => { s with heap := s.heap.removeKey dict (ascii "/Pg") }

/-- Whether `/Type` resolves to one of the names. -/
def hasType (names : List Bytes) (dict : Handle) : Program WalkState Failure Bool := do
  let s ← get
  match s.heap.getKey dict (ascii "/Type") with
  | none => return false
  | some typeHandle =>
    ofExcept (document.tryDereference typeHandle)
    return names.any fun name => s.heap.isNameAndEquals name typeHandle

def isMcrOrObjr : Handle → Program WalkState Failure Bool :=
  hasType document [ascii "MCR", ascii "OBJR"]

def isObjr : Handle → Program WalkState Failure Bool := hasType document [ascii "OBJR"]

/-- The `/Obj` of an object reference is put on the list. -/
def collectObj (dict : Handle) : Program WalkState Failure Unit := do
  let s ← get
  match s.heap.getKey dict (ascii "/Obj") with
  | none => return
  | some obj =>
    let objr ← isObjr document dict
    match objr, s.heap.objectRef obj with
    | true, some objRef =>
      modify fun s => { s with objrObjTargets := s.objrObjTargets ++ [objRef] }
    | _, _ => return

/-- One dictionary, then its kids by `walk`. -/
def processElemDict (walk : Handle → Program WalkState Failure Unit) (dict : Handle) :
    Program WalkState Failure Unit := do
  processPg document result dict
  collectObj document dict
  let s ← get
  match s.heap.getKey dict (ascii "/K") with
  | none => return
  | some k =>
    let leaf ← isMcrOrObjr document dict
    if leaf then return else walk k

def walkKids : ℕ → ℕ → Handle → Program WalkState Failure Unit
  | 0, _, _ => outOfFuel
  | fuel + 1, depth, k =>
    if maxDepth ≤ depth then
      fail (.unsupported s!"structure tree depth exceeds maximum of {maxDepth}")
    else do
      let first ← enter k
      if first then
        ofExcept (document.tryDereference k)
        let s ← get
        match s.heap.arrayItems k with
        | some items => forEach (walkKids fuel depth) items
        | none =>
          if s.heap.isDictionary k then
            processElemDict document result (walkKids fuel (depth + 1)) k
          else return
      else return

/-- The value of a key that is present and not null. -/
def childIfPresent (parent : Handle) (key : Bytes) : Program WalkState Failure (Option Handle) := do
  let s ← get
  match s.heap.getKey parent key with
  | none => return none
  | some child =>
    ofExcept (document.tryDereference child)
    return s.heap.visible parent key

/-- `/StructTreeRoot` of the catalog, when both are dictionaries. -/
def findRoot : Program WalkState Failure (Option Handle) :=
  match document.rootRef with
  | none => return none
  | some catalogRef => do
    ofExcept (document.tryDereference (document.getObjectHandle catalogRef))
    let s ← get
    if s.heap.isDictionary (document.getObjectHandle catalogRef) then
      match ← childIfPresent document (document.getObjectHandle catalogRef)
        (ascii "/StructTreeRoot") with
      | none => return none
      | some root => return if s.heap.isDictionary root then some root else none
    else return none

def dropStructElemDanglingPg (fuel : ℕ) : Program WalkState Failure (List ObjectRef) := do
  match ← findRoot document with
  | none => return []
  | some root =>
    let _ ← enter root
    match ← childIfPresent document root (ascii "/K") with
    | none => return []
    | some k =>
      walkKids document result maxDepth fuel 0 k
      let s ← get
      return s.objrObjTargets

/-- Where the walk begins. -/
def start : WalkState := ⟨document.heap, ∅, []⟩

end StructTree

end Flpdf
