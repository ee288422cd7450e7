import Flpdf.Bytes.Ascii
import Flpdf.Effects.Program
import Flpdf.Xref.ObjGen

/-!
# The construction of the outline tree

The links of a document are followed through its handles, each of which resolves to a value or
fails. The items go into an arena in the order in which they are met; a stack of frames, one for
each item whose children are being read, takes the place of the recursion.
-/

namespace Flpdf.Outlines

/-- What a handle resolves to, as far as an outline walk looks at it. -/
inductive Value where
  | null
  | dictionary (entries : List (Bytes × ℕ))
  | other
deriving DecidableEq, Repr

/-- A handle: its identity, its resolution, and the outcome of a warning about its type. -/
structure Cell (ε : Type) where
  objGen : Option QpdfObjGen := none
  value : Except ε Value := .ok .null
  typeWarning : Except ε Unit := .ok ()

/-- The handles of a document. -/
structure Document (ε : Type) where
  rootHandle : Except ε ℕ
  cells : List (Cell ε)

/-- `QPDF_MAX_EXPANDED_OUTLINE_DEPTH`. -/
def maxExpandedOutlineDepth : ℕ := 50

structure OutlineItem where
  parent : Option ℕ
  kids : List ℕ
  object : ℕ
deriving DecidableEq, Repr

structure OutlineTree where
  items : List OutlineItem := []
  roots : List ℕ := []
deriving DecidableEq, Repr

namespace OutlineTree

def pushItem (tree : OutlineTree) (item : OutlineItem) : OutlineTree :=
  { tree with items := tree.items ++ [item] }

def pushKid (tree : OutlineTree) (owner child : ℕ) : OutlineTree :=
  { tree with items := tree.items.modify owner fun item => { item with kids := item.kids ++ [child] } }

def pushRoot (tree : OutlineTree) (root : ℕ) : OutlineTree :=
  { tree with roots := tree.roots ++ [root] }

end OutlineTree

/-- `SiblingSeen`: what the walk over the children of one item has met. -/
structure SiblingSeen where
  seen : List QpdfObjGen := []
  directSeen : List ℕ := []
deriving DecidableEq, Repr

/-- The item whose children are read, the next of them, and their depth. -/
structure Frame where
  owner : ℕ
  next : Option ℕ
  depth : ℕ
  seen : SiblingSeen := {}
deriving DecidableEq, Repr

/-- The arena and `constructor_seen`. -/
structure Building where
  tree : OutlineTree := {}
  constructorSeen : List QpdfObjGen := []
deriving DecidableEq, Repr

namespace Document

variable {ε : Type} (doc : Document ε)

/-! ## Handles -/

def cell (h : ℕ) : Cell ε := doc.cells.getD h {}

def dereference (h : ℕ) : Except ε Value := (doc.cell h).value

/-- The identity of a handle to an indirect object. -/
def indirectObjGen (h : ℕ) : Option QpdfObjGen := (doc.cell h).objGen.filter QpdfObjGen.isIndirect

def isNull (h : ℕ) : Except ε Bool := (doc.dereference h).map fun value => value == .null

/-- `try_get_key`; none is a null that has no handle in the document. -/
def getKey (h : ℕ) (key : Bytes) : Except ε (Option ℕ) :=
  doc.dereference h >>= fun value =>
    match value with
    | .dictionary entries => .ok (entries.lookup key)
    | _ => (doc.cell h).typeWarning.map fun _ => none

/-- A child that is not null. -/
def nonNull : Option ℕ → Except ε (Option ℕ)
  | none => .ok none
  | some child => (doc.isNull child).map fun null => if null then none else some child

def hasKey (h : ℕ) (key : Bytes) : Except ε Bool :=
  doc.getKey h key >>= fun value => (doc.nonNull value).map Option.isSome

def objectKey (h : ℕ) (key : Bytes) : Except ε (Option ℕ) :=
  doc.getKey h key >>= doc.nonNull

/-! ## The first outline -/

/-- The handle, if it is a dictionary. -/
def asDictionary (h : ℕ) : Except ε (Option ℕ) :=
  (doc.dereference h).map fun value =>
    match value with
    | .dictionary _ => some h
    | _ => none

def catalogHandle : Except ε (Option ℕ) := doc.rootHandle >>= doc.asDictionary

/-- The value of a key that the dictionary has. -/
def presentKey (key : Bytes) : Option ℕ → Except ε (Option ℕ)
  | none => .ok none
  | some h => doc.hasKey h key >>= fun present => if present then doc.getKey h key else .ok none

def catalogOutlines : Except ε (Option ℕ) := doc.catalogHandle >>= doc.presentKey (ascii "/Outlines")

/-- The handle from which `get_tree` starts, if it does not return the empty tree at once. -/
def firstOutline : Except ε (Option ℕ) :=
  doc.catalogOutlines >>= fun outlines =>
    match outlines with
    | none => .ok none
    | some outlines => doc.asDictionary outlines >>= doc.presentKey (ascii "/First") >>= doc.nonNull

/-! ## Seen objects -/

/-- `mark_direct_sibling_seen`. -/
def markDirectSiblingSeen (seen : SiblingSeen) (current : ℕ) : Bool × SiblingSeen :=
  if (doc.indirectObjGen current).isSome then (true, seen)
  else if current ∈ seen.directSeen then (false, seen)
  else (true, { seen with directSeen := seen.directSeen ++ [current] })

/-- `chase_and_mark_seen`; none if the target has been seen. -/
def chaseAndMarkSeen (cursor : ℕ) (seen : SiblingSeen) : Except ε (Option ℕ × SiblingSeen) :=
  (doc.dereference cursor).map fun _ =>
    match doc.indirectObjGen cursor with
    | some g =>
      if g ∈ seen.seen then (none, seen)
      else (some cursor, { seen with seen := g :: seen.seen })
    | none =>
      let (fresh, seen) := doc.markDirectSiblingSeen seen cursor
      (if fresh then some cursor else none, seen)

/-! ## Building -/

open Program

/-- `materialize_item`: the place of the new item, none if the cursor is null. -/
def materializeItem (cursor : ℕ) (parent : Option ℕ) : Program Building ε (Option ℕ) := do
  let null ← ofExcept (doc.isNull cursor)
  if null then pure none
  else do
    let b ← get
    modify fun b => { b with tree := b.tree.pushItem ⟨parent, [], cursor⟩ }
    pure (some b.tree.items.length)

/-- `constructor_seen.insert`; a direct object is always expanded. -/
def insertConstructorSeen (object : ℕ) : Program Building ε Bool :=
  match doc.indirectObjGen object with
  | none => pure true
  | some g => do
    let b ← get
    if g ∈ b.constructorSeen then pure false
    else do
      modify fun b => { b with constructorSeen := g :: b.constructorSeen }
      pure true

def expandChild (depth object : ℕ) : Program Building ε Bool :=
  if maxExpandedOutlineDepth < depth then pure false else doc.insertConstructorSeen object

/-- The frame for the children of an item, if it is to be expanded and has any. -/
def childFrames (expand : Bool) (item object depth : ℕ) : Program Building ε (List Frame) :=
  if expand then do
    let first ← ofExcept (doc.objectKey object (ascii "/First"))
    match first with
    | none => pure []
    | some first => pure [⟨item, some first, depth, {}⟩]
  else pure []

/-- A child of the top frame: its item, and the frames that are to be read next. -/
def addChild (frame : Frame) (frames : List Frame) (cursor : ℕ) : Program Building ε (List Frame) := do
  let child ← doc.materializeItem cursor (some frame.owner)
  match child with
  | none => pure ({ frame with next := none } :: frames)
  | some child => do
    modify fun b => { b with tree := b.tree.pushKid frame.owner child }
    let expand ← doc.expandChild frame.depth cursor
    let next ← ofExcept (doc.objectKey cursor (ascii "/Next"))
    let below ← doc.childFrames expand child cursor (frame.depth + 1)
    pure (below ++ { frame with next := next } :: frames)

/-- One round of the loop of `build_item` with a frame on top. -/
def frameStep (frame : Frame) (frames : List Frame) : Program Building ε (List Frame) :=
  match frame.next with
  | none => pure frames
  | some cursor => do
    let (chased, seen) ← ofExcept (doc.chaseAndMarkSeen cursor frame.seen)
    match chased with
    | none => pure ({ frame with next := none, seen := seen } :: frames)
    | some cursor => doc.addChild { frame with seen := seen } frames cursor

def framesLoop : ℕ → List Frame → Program Building ε Unit
  | 0, _ => outOfFuel
  | _ + 1, [] => pure ()
  | fuel + 1, frame :: frames => do
    let frames ← doc.frameStep frame frames
    framesLoop fuel frames

def buildItem (fuel cursor : ℕ) (parent : Option ℕ) : Program Building ε (Option ℕ) := do
  let root ← doc.materializeItem cursor parent
  match root with
  | none => pure none
  | some root => do
    let fresh ← doc.insertConstructorSeen cursor
    let frames ← doc.childFrames fresh root cursor 2
    doc.framesLoop fuel frames
    pure (some root)

/-- The loop of `get_tree`. -/
def rootsLoop (framesFuel : ℕ) : ℕ → ℕ → SiblingSeen → Program Building ε Unit
  | 0, _, _ => outOfFuel
  | fuel + 1, cursor, seen => do
    let (chased, seen) ← ofExcept (doc.chaseAndMarkSeen cursor seen)
    match chased with
    | none => pure ()
    | some cursor => do
      let id ← doc.buildItem framesFuel cursor none
      match id with
      | none => pure ()
      | some id => do
        modify fun b => { b with tree := b.tree.pushRoot id }
        let next ← ofExcept (doc.objectKey cursor (ascii "/Next"))
        match next with
        | none => pure ()
        | some next => rootsLoop framesFuel fuel next seen

def getTree (fuel : ℕ) : Program Building ε OutlineTree := do
  let first ← ofExcept doc.firstOutline
  match first with
  | none => pure {}
  | some first => do
    doc.rootsLoop fuel fuel first {}
    let b ← get
    pure b.tree

/-! ## The recursive definition -/

/-- The first child of a handle or the next one behind it, if the link can be read. -/
def link (key : Bytes) (h : ℕ) : Option ℕ :=
  match doc.objectKey h key with
  | .ok child => child
  | .error _ => none

end Document

/-- What tells the siblings of a chain apart. -/
inductive Identity where
  | indirect (g : QpdfObjGen)
  | direct (h : ℕ)
deriving DecidableEq, Repr

/-- An ordered forest of handles: the first tree, as its root and the trees below it, and the
other trees. -/
inductive Forest where
  | nil
  | cons (object : ℕ) (kids others : Forest)
deriving DecidableEq, Repr

namespace Document

variable {ε : Type} (doc : Document ε)

def identity (h : ℕ) : Identity :=
  match doc.indirectObjGen h with
  | some g => .indirect g
  | none => .direct h

/-- The handles along a `/Next` chain up to the first repeated object or the first null. -/
def siblings : ℕ → List Identity → Option ℕ → List ℕ
  | 0, _, _ => []
  | _ + 1, _, none => []
  | fuel + 1, met, some h =>
    if doc.identity h ∈ met then []
    else h :: siblings fuel (doc.identity h :: met) (doc.link (ascii "/Next") h)

/-- A chain has at most one sibling for each handle of the document. -/
def chain (first : Option ℕ) : List ℕ := doc.siblings (doc.cells.length + 1) [] first

def children (h : ℕ) : List ℕ := doc.chain (doc.link (ascii "/First") h)

/-- Whether an object has not been expanded, and the expanded objects with it. -/
def expand (expanded : List QpdfObjGen) (h : ℕ) : Bool × List QpdfObjGen :=
  match doc.indirectObjGen h with
  | none => (true, expanded)
  | some g => if g ∈ expanded then (false, expanded) else (true, g :: expanded)

/-- The trees of siblings, each built by `below` once its object is on record. -/
def grow (below : List QpdfObjGen → ℕ → Forest × List QpdfObjGen) :
    List QpdfObjGen → List ℕ → Forest × List QpdfObjGen
  | expanded, [] => (.nil, expanded)
  | expanded, h :: rest =>
    let (kids, expanded) := below expanded h
    let (others, expanded) := grow below expanded rest
    (.cons h kids others, expanded)

/-- What is below an item, with so many levels that may be expanded. -/
def below : ℕ → List QpdfObjGen → ℕ → Forest × List QpdfObjGen
  | 0, expanded, _ => (.nil, expanded)
  | levels + 1, expanded, h =>
    let (fresh, expanded) := doc.expand expanded h
    if fresh then grow (below levels) expanded (doc.children h) else (.nil, expanded)

/-- The outline of the document, one set of expanded objects for all of it. -/
def outline : Forest :=
  match doc.firstOutline with
  | .ok first => (grow (doc.below maxExpandedOutlineDepth) [] (doc.chain first)).1
  | .error _ => .nil

end Document

/-! ## The arena of a forest -/

namespace Forest

def size : Forest → ℕ
  | nil => 0
  | cons _ kids others => 1 + kids.size + others.size

/-- The places of the top items, if the first one is at `start`. -/
def ids : Forest → ℕ → List ℕ
  | nil, _ => []
  | cons _ kids others, start => start :: others.ids (start + 1 + kids.size)

/-- The items in preorder. -/
def items : Forest → Option ℕ → ℕ → List OutlineItem
  | nil, _, _ => []
  | cons object kids others, parent, start =>
    ⟨parent, kids.ids (start + 1), object⟩ ::
      (kids.items (some start) (start + 1) ++ others.items parent (start + 1 + kids.size))

def arena (f : Forest) : OutlineTree := ⟨f.items none 0, f.ids 0⟩

end Forest

end Flpdf.Outlines
