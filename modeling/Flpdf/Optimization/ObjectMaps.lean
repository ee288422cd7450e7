import Flpdf.Graph.DepthFirst
import Flpdf.Object.Value
import Flpdf.Optimization.ObjectUsers

/-!
# Object maps

`build_maps` walks the object graph once for every page, trailer key and root
key and records the users of what it meets. A document is its indirect objects
and its trailer; direct values are trees, and a stream dictionary is direct.
-/

namespace Flpdf

open Std DepthFirst

structure Pdf where
  objects : List (QpdfObjGen × ObjectValue)
  trailer : List (Bytes × ObjectValue)

/-- A place in the graph that is still to be looked at. -/
structure Pending where
  object : ObjectValue
  user : ObjectUser
  top : Bool
  viaArray : Bool

/-- How many of a stream's parameters are skipped, given by its identity and its
value. -/
abbrev SkipStreamParameters := Option QpdfObjGen → ObjectValue → UInt8

namespace ObjectValue

def qpdfObjGen : ObjectValue → Option QpdfObjGen
  | indirect objectGen => some objectGen
  | _ => none

def isNull : ObjectValue → Bool
  | null => true
  | _ => false

def isNameAndEquals (name : Bytes) : ObjectValue → Bool
  | .name value => value == name
  | _ => false

end ObjectValue

namespace Pdf

/-- The value of an object; an object that is not there is null. -/
def value (pdf : Pdf) (object : QpdfObjGen) : ObjectValue :=
  (pdf.objects.lookup object).getD .null

def dereference (pdf : Pdf) : ObjectValue → ObjectValue
  | .indirect objectGen => pdf.value objectGen
  | value => value

def isNull (pdf : Pdf) (object : ObjectValue) : Bool := (pdf.dereference object).isNull

/-- `resolved_page_type`: a dictionary with `/Type` `/Page`. -/
def isPage (pdf : Pdf) (object : ObjectValue) : Bool :=
  match pdf.dereference object with
  | .dictionary entries =>
    match entries.lookup (ascii "/Type") with
    | some typeChild => (pdf.dereference typeChild).isNameAndEquals (ascii "Page")
    | none => false
  | _ => false

/-- The entries whose value is not null. -/
def visibleChildren (pdf : Pdf) (entries : List (Bytes × ObjectValue)) :
    List (Bytes × ObjectValue) :=
  entries.filter fun entry => !pdf.isNull entry.2

/-- The stream parameters that a skip level leaves out. -/
def skipped (skipLevel : UInt8) (key : Bytes) : Bool :=
  (1 ≤ skipLevel && key == ascii "/Length") ||
    (2 ≤ skipLevel && (key == ascii "/Filter" || key == ascii "/DecodeParms"))

def childUser (page : Bool) (user : ObjectUser) (key : Bytes) : ObjectUser :=
  if page && key == ascii "/Thumb" then .thumbnail user.pageNumber else user

/-- The children of what is pending, in the order in which they are met. -/
def pendingChildren (pdf : Pdf) (skip : SkipStreamParameters) (pending : Pending) :
    List Pending :=
  match pdf.dereference pending.object with
  | .array items => items.map fun item => ⟨item, pending.user, false, true⟩
  | .stream (.dictionary entries) =>
    ((pdf.visibleChildren entries).filter fun entry =>
      !skipped (skip pending.object.qpdfObjGen (pdf.dereference pending.object)) entry.1).map
      fun entry => ⟨entry.2, pending.user, false, false⟩
  | .dictionary entries =>
    ((pdf.visibleChildren entries).filter fun entry =>
      !(pdf.isPage pending.object && entry.1 == ascii "/Parent")).map
      fun entry => ⟨entry.2, childUser (pdf.isPage pending.object) pending.user entry.1, false, false⟩
  | _ => []

/-- `stack.push` of the children, the last one first. -/
def pushReversed (children stack : List Pending) : List Pending :=
  children.reverse.foldl (fun stack child => child :: stack) stack

/-- One turn of the loop: the maps, the visited objects and the pushed children. -/
def visitPending (pdf : Pdf) (skip : SkipStreamParameters) (maps : Optimization)
    (visited : ExtTreeSet QpdfObjGen) (pending : Pending) :
    Optimization × ExtTreeSet QpdfObjGen × List Pending :=
  if pdf.isNull pending.object then
    match pending.object.qpdfObjGen with
    | some objectGen =>
      if pending.viaArray && 0 < objectGen.object && !visited.contains objectGen then
        (maps.recordRaw pending.user objectGen, visited.insert objectGen, [])
      else (maps, visited, [])
    | none => (maps, visited, [])
  else if pdf.isPage pending.object && !pending.top then (maps, visited, [])
  else
    match pending.object.qpdfObjGen with
    | some objectGen =>
      if visited.contains objectGen then (maps, visited, [])
      else (maps.recordRaw pending.user objectGen, visited.insert objectGen,
        pdf.pendingChildren skip pending)
    | none => (maps, visited, pdf.pendingChildren skip pending)

/-- The loop of `update_object_maps`; `none` when the fuel is used up. -/
def updateLoop (pdf : Pdf) (skip : SkipStreamParameters) :
    ℕ → Optimization → ExtTreeSet QpdfObjGen → List Pending → Option Optimization
  | _, maps, _, [] => some maps
  | 0, _, _, _ :: _ => none
  | fuel + 1, maps, visited, pending :: stack =>
    let (maps', visited', children) := pdf.visitPending skip maps visited pending
    updateLoop pdf skip fuel maps' visited' (pushReversed children stack)

def updateObjectMaps (pdf : Pdf) (skip : SkipStreamParameters) (fuel : ℕ)
    (maps : Optimization) (user : ObjectUser) (object : ObjectValue) : Option Optimization :=
  pdf.updateLoop skip fuel maps ∅ [⟨object, user, true, false⟩]

def root (pdf : Pdf) : ObjectValue := (pdf.trailer.lookup (ascii "/Root")).getD .null

/-- `key.strip_prefix(b"/").unwrap_or(&key)`. -/
def userKey : Bytes → Bytes
  | 0x2f :: rest => rest
  | key => key

def pageStarts (pages : List ObjectValue) : List (ObjectUser × ObjectValue) :=
  pages.zipIdx.map fun page => (.page (UInt32.ofNat page.2), page.1)

/-- The trailer keys but `/Root`, then the keys of the root. -/
def keyStarts (pdf : Pdf) (rootEntries : List (Bytes × ObjectValue)) :
    List (ObjectUser × ObjectValue) :=
  ((pdf.visibleChildren pdf.trailer).filter fun entry => entry.1 != ascii "/Root").map
      (fun entry => (.trailerKey (userKey entry.1), entry.2)) ++
    (pdf.visibleChildren rootEntries).map fun entry => (.rootKey (userKey entry.1), entry.2)

/-- `maps.record(ObjectUser::Root, root_ref)` for a root with a valid reference. -/
def rootRecord (pdf : Pdf) : List (ObjectUser × QpdfObjGen) :=
  match pdf.root.qpdfObjGen with
  | some objectGen => if objectGen.toObjectRef.isSome then [(.root, objectGen)] else []
  | none => []

/-- `build_maps`; the fuel is that of every single walk. -/
def buildMaps (pdf : Pdf) (skip : SkipStreamParameters) (fuel : ℕ)
    (pages : List ObjectValue) : Option (Except String Optimization) :=
  match pdf.dereference pdf.root with
  | .dictionary rootEntries => do
    let maps ← (pageStarts pages ++ pdf.keyStarts rootEntries).foldlM
      (fun maps start => pdf.updateObjectMaps skip fuel maps start.1 start.2) .default
    return .ok (maps.recordAll pdf.rootRecord)
  | _ => some (.error "unable to find /Root dictionary")

end Pdf

end Flpdf
