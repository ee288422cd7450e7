import Flpdf.Handles.Frame
import Flpdf.Pages.Tree

/-!
# Splicing pages

`splice_pages_with_max_depth` removes a range of pages and inserts others in its
place. A first walk over the tree collects the pages and repairs what it meets; a
second one rewrites the `/Kids` and `/Count` of the nodes that the range touches.
-/

namespace Flpdf

open Std

namespace Heap

def refLabel (ref : ObjectRef) : String := s!"{ref.number} {ref.generation} R"

/-- `node_label`. -/
def nodeLabel (heap : Heap) (a : Handle) : String :=
  match heap.objectRef a with
  | some ref => refLabel ref
  | none => "direct object"

/-- The integer under `/Count`. -/
def countOf (heap : Heap) (node : Handle) : Option ℤ :=
  (heap.getKey node (ascii "/Count")).bind heap.integerAt

/-- Another `/Type` is replaced by this one. -/
def setType (heap : Heap) (a : Handle) (type : Bytes) : Heap :=
  if (heap.getKey a (ascii "/Type")).any (heap.isNameAndEquals type) then heap
  else heap.setKey a (ascii "/Type") (.name type)

/-- A dictionary with `/Kids`. -/
def hasKids (heap : Heap) (a : Handle) : Bool :=
  heap.isDictionary a && heap.hasKey a (ascii "/Kids")

/-- The declared page count of a node. -/
def declaredCount (heap : Heap) (node : Handle) : Except Failure ℕ :=
  match heap.countOf node with
  | some count =>
    if 0 ≤ count then .ok count.toNat
    else .error (.unsupported s!"/Pages node {heap.nodeLabel node} has negative /Count {count}")
  | none => .error (.unsupported s!"/Pages node {heap.nodeLabel node} has no /Count")

def countMismatch (heap : Heap) (node : Handle) (declared actual : ℕ) : Failure :=
  .unsupported
    s!"/Pages node {heap.nodeLabel node} has /Count {declared}, but /Kids contain {actual} pages"

def depthExceeded (heap : Heap) (node : Handle) (maxDepth : ℕ) : Failure :=
  .unsupported s!"page-tree depth exceeds {maxDepth} at {heap.nodeLabel node}"

def leafCountOf (heap : Heap) (node : Handle) : Except Failure ℕ :=
  if !heap.isDictionary node then
    .error (.unsupported s!"node {heap.nodeLabel node} is not a dictionary")
  else if !heap.hasKey node (ascii "/Kids") then .ok 1
  else heap.declaredCount node

end Heap

def noIdentity : Failure := .internal "page-tree leaf has no indirect identity"

/-! ## The walk that collects the pages -/

structure CollectState where
  heap : Heap
  pages : List Handle
  seen : List Handle
  visited : List Handle

namespace CollectState

/-- A direct leaf becomes indirect in its place, and a repeated one is copied. -/
def prepareKid (copyFuel : ℕ) (kidsArray : Handle) (index : ℕ) (kid : Handle) (st : CollectState) :
    Outcome CollectState Handle :=
  if st.heap.hasKids kid then .ok kid st
  else
    let st := if st.heap.isIndirect kid then st
      else { st with heap := (st.heap.makeIndirect kid).setArrayItem kidsArray index kid }
    if (st.heap.objectRef kid).isNone then .failed noIdentity st
    else if kid ∉ st.seen then .ok kid { st with seen := kid :: st.seen }
    else
      match st.heap.shallowCopy copyFuel kid with
      | .failed failure heap => .failed failure { st with heap }
      | .ok copy heap =>
        .ok copy { st with heap := (heap.makeIndirect copy).setArrayItem kidsArray index copy }

/-- The kids of a node, with the pages counted so far. -/
def collectKids (collect : Handle → CollectState → Outcome CollectState ℕ) (copyFuel : ℕ)
    (kidsArray : Handle) : List (Handle × ℕ) → ℕ → CollectState → Outcome CollectState ℕ
  | [], actualCount, st => .ok actualCount st
  | (kid, index) :: kids, actualCount, st =>
    (prepareKid copyFuel kidsArray index kid st).andThen fun kid st =>
      (collect kid st).andThen fun childCount st =>
        collectKids collect copyFuel kidsArray kids (actualCount + childCount) st

/-- `collect_page_refs`, with the depth that is left. -/
def collectPageRefs (copyFuel maxDepth : ℕ) :
    ℕ → Bool → Handle → CollectState → Outcome CollectState ℕ
  | 0, _, node, st => .failed (st.heap.depthExceeded node maxDepth) st
  | depth + 1, isRoot, node, st =>
    if !st.heap.isDictionary node then
      .failed (.unsupported s!"node {st.heap.nodeLabel node} is not a dictionary") st
    else if !(isRoot || st.heap.hasKey node (ascii "/Kids")) then
      let st := { st with heap := st.heap.setType node (ascii "Page") }
      if (st.heap.objectRef node).isNone then .failed noIdentity st
      else .ok 1 { st with pages := st.pages ++ [node] }
    else
      let st := { st with heap := st.heap.setType node (ascii "Pages") }
      if node ∈ st.visited then .failed .loopDetected st
      else
        let st := { st with visited := node :: st.visited }
        let kids := (st.heap.arrayAt node (ascii "/Kids")).getD []
        let kidsArray := (st.heap.getKey node (ascii "/Kids")).getD node
        (collectKids (collectPageRefs copyFuel maxDepth depth false) copyFuel kidsArray kids.zipIdx
            0 st).andThen fun actualCount st =>
          match st.heap.declaredCount node with
          | .error failure => .failed failure st
          | .ok declared =>
            if declared ≠ actualCount then
              .failed (st.heap.countMismatch node declared actualCount) st
            else .ok actualCount st

end CollectState

/-! ## The inserted pages -/

/-- `normalize_insert_pages`, from the pages that are occupied. -/
def normalizeInsertPages (copyFuel : ℕ) :
    List Handle → List Handle → Heap → Outcome Heap (List Handle)
  | [], _, heap => .ok [] heap
  | page :: pages, occupied, heap =>
    if page ∉ occupied then
      (normalizeInsertPages copyFuel pages (page :: occupied) heap).andThen
        fun rest heap => .ok (page :: rest) heap
    else
      (heap.shallowCopy copyFuel page).andThen fun copy heap =>
        (normalizeInsertPages copyFuel pages (copy :: occupied) (heap.makeIndirect copy)).andThen
          fun rest heap => .ok (copy :: rest) heap

/-- The pages outside of the removed range. -/
def occupiedPages (existing : List Handle) (start stop : ℕ) : List Handle :=
  (existing.zipIdx.filter fun page => !(start ≤ page.2 && page.2 < stop)).map Prod.fst

/-! ## The walk that splices -/

structure SpliceState where
  heap : Heap
  insertDone : Bool

/-- `set_page_parent_for_node` for one page after the other. -/
def setPageParents (parent : Handle) : List Handle → SpliceState → Outcome SpliceState Unit
  | [], st => .ok () st
  | page :: pages, st =>
    if !st.heap.isDictionary page then
      .failed (.unsupported s!"page {st.heap.nodeLabel page} is not a dictionary") st
    else
      setPageParents parent pages
        (if (st.heap.objectRef parent).isSome then
          { st with heap := st.heap.replaceKey page (ascii "/Parent") parent }
        else st)

/-- The part of a splice that stays the same over the whole walk. -/
structure Splice where
  start : ℕ
  stop : ℕ
  insert : List Handle
  maxDepth : ℕ

/-- What the loop over the kids of a node has put together. -/
structure NewKids where
  kids : List Handle
  netDelta : ℤ
  offset : ℕ

namespace Splice

/-- The pages are inserted once, where the start of the range is first met. -/
def insertAt (splice : Splice) (node : Handle) (new : NewKids) (st : SpliceState) :
    Outcome SpliceState NewKids :=
  if !st.insertDone && splice.start == new.offset then
    (setPageParents node splice.insert st).andThen fun _ st =>
      .ok { new with
        kids := new.kids ++ splice.insert
        netDelta := new.netDelta + splice.insert.length } { st with insertDone := true }
  else .ok new st

/-- A kid outside of the range stays, a page in it goes, and a node that it touches is spliced
and dropped when it has become empty. -/
def takeKid (splice : Splice) (recurse : Handle → ℕ → SpliceState → Outcome SpliceState ℤ)
    (kid : Handle) (count : ℕ) (new : NewKids) (st : SpliceState) : Outcome SpliceState NewKids :=
  let kidEnd := new.offset + count
  if kidEnd > splice.start && new.offset < splice.stop then
    if st.heap.hasKids kid then
      (recurse kid new.offset st).andThen fun subDelta st =>
        .ok ⟨if count + subDelta > 0 then new.kids ++ [kid] else new.kids,
          new.netDelta + subDelta, kidEnd⟩ st
    else .ok ⟨new.kids, new.netDelta - 1, kidEnd⟩ st
  else .ok ⟨new.kids ++ [kid], new.netDelta, kidEnd⟩ st

/-- The loop over the kids. -/
def spliceKids (splice : Splice) (recurse : Handle → ℕ → SpliceState → Outcome SpliceState ℤ)
    (node : Handle) : List Handle → NewKids → SpliceState → Outcome SpliceState NewKids
  | [], new, st => .ok new st
  | kid :: kids, new, st =>
    match st.heap.leafCountOf kid with
    | .error failure => .failed failure st
    | .ok count =>
      ((splice.insertAt node new st).andThen (splice.takeKid recurse kid count)).andThen
        (splice.spliceKids recurse node kids)

def sumLeafCounts (heap : Heap) : List Handle → ℕ → Except Failure ℕ
  | [], total => .ok total
  | kid :: kids, total =>
    match heap.leafCountOf kid with
    | .error failure => .error failure
    | .ok count => sumLeafCounts heap kids (total + count)

/-- The new `/Count` and `/Kids` of a node. -/
def writeBack (node : Handle) (kidsArray : Option Handle) (newCount : ℤ) (kids : List Handle)
    (heap : Heap) : Heap :=
  let heap := heap.setKey node (ascii "/Count") (.integer newCount)
  match kidsArray with
  | some kidsArray => heap.setArrayItems kidsArray kids
  | none => heap.setKey node (ascii "/Kids") (.array kids)

/-- `splice_subtree`, with the depth that is left; the result is the net change. -/
def spliceSubtree (splice : Splice) : ℕ → Handle → ℕ → SpliceState → Outcome SpliceState ℤ
  | 0, node, _, st => .failed (st.heap.depthExceeded node splice.maxDepth) st
  | depth + 1, node, base, st =>
    let label := st.heap.nodeLabel node
    if !st.heap.isDictionary node then
      .failed (.unsupported s!"{label} is not a /Pages dictionary") st
    else
      let kids := (st.heap.arrayAt node (ascii "/Kids")).getD []
      let kidsArray := (st.heap.getKey node (ascii "/Kids")).filter st.heap.isArray
      if kids.any fun child => !st.heap.isIndirect child && !st.heap.hasKids child then
        .failed (.unsupported s!"child of /Pages node {label} is not an indirect object") st
      else
        match st.heap.declaredCount node with
        | .error failure => .failed failure st
        | .ok oldCount =>
          match sumLeafCounts st.heap kids 0 with
          | .error failure => .failed failure st
          | .ok actualCount =>
            if oldCount ≠ actualCount then
              .failed (st.heap.countMismatch node oldCount actualCount) st
            else
              ((splice.spliceKids (splice.spliceSubtree depth) node kids ⟨[], 0, base⟩ st).andThen
                  (splice.insertAt node)).andThen fun new st =>
                if (oldCount : ℤ) + new.netDelta < 0 then
                  .failed (.unsupported
                    s!"splice: negative page count {oldCount + new.netDelta} for node {label}") st
                else
                  .ok new.netDelta { st with
                    heap := writeBack node kidsArray (oldCount + new.netDelta) new.kids st.heap }

end Splice

/-! ## The call -/

/-- `pages_ref`: the root of the page tree, made indirect when it is direct. -/
def pagesRef (catalog : Option Handle) (heap : Heap) : Outcome Heap Handle :=
  match catalog with
  | none => .failed (.missing "/Root") heap
  | some catalog =>
    if !heap.isDictionary catalog then .failed (.missing "/Catalog dict") heap
    else
      match heap.getKey catalog (ascii "/Pages") with
      | none => .failed (.missing "/Pages") heap
      | some pages =>
        if (heap.objectRef pages).isSome then .ok pages heap
        else if !heap.isDictionary pages then .failed (.missing "/Pages") heap
        else .ok pages ((heap.makeIndirect pages).replaceKey catalog (ascii "/Pages") pages)

/-- The splice proper, from the pages that the first walk has collected. -/
def spliceCollected (copyFuel : ℕ) (splice : Splice) (root : Handle) (existing : List Handle)
    (heap : Heap) : Outcome Heap Unit :=
  if splice.stop > existing.length then
    .failed (.unsupported
      s!"splice: remove.end {splice.stop} exceeds page count {existing.length}") heap
  else
    (normalizeInsertPages copyFuel splice.insert
        (occupiedPages existing splice.start splice.stop) heap).andThen fun normalized heap =>
      if existing.length - (splice.stop - splice.start) + normalized.length = 0 then
        .failed (.missing "splice would result in an empty document") heap
      else
        match { splice with insert := normalized }.spliceSubtree splice.maxDepth root 0
            ⟨heap, false⟩ with
        | .failed failure st => .failed failure st.heap
        | .ok _ st =>
          if !st.insertDone && !normalized.isEmpty then
            .failed (.unsupported
              s!"splice: insert position {splice.start} not found in page tree") st.heap
          else .ok () st.heap

/-- `splice_pages_with_max_depth`; the catalog is that of `root_ref`, and references are the
handles of their objects. -/
def splicePages (copyFuel : ℕ) (catalog : Option Handle) (splice : Splice) (heap : Heap) :
    Outcome Heap Unit :=
  if splice.start > splice.stop then
    .failed (.unsupported
      s!"splice: invalid range {splice.start}..{splice.stop} (start > end)") heap
  else if splice.start = splice.stop ∧ splice.insert = [] then .ok () heap
  else
    (pagesRef catalog heap).andThen fun root heap =>
      match CollectState.collectPageRefs copyFuel splice.maxDepth splice.maxDepth true root
          ⟨heap, [], [], []⟩ with
      | .failed failure st => .failed failure st.heap
      | .ok _ st => spliceCollected copyFuel splice root st.pages st.heap

end Flpdf
