import Flpdf.Collections.FirstOccurrences
import Flpdf.Linearization.ContainerPlacement
import Flpdf.Linearization.HintStream
import Flpdf.Optimization.ObjectUsers

/-!
# The shared object hints of a plan

The list of the shared objects, in which the members of an object stream are folded into
their container, and the header that `SharedObjectHintTable::from_plan` puts in front of it.
The list is in two sections, which are counted apart from it.
-/

namespace Flpdf

namespace RenumberMap

def newForOriginal (renumber : RenumberMap) (original : ObjectRef) : Option ObjectRef :=
  renumber.byOriginal.lookup original

def newForRaw (renumber : RenumberMap) (original : QpdfObjGen) : Option ObjectRef :=
  renumber.byOriginalRaw.lookup original

end RenumberMap

namespace Optimization

def usersFor (maps : Optimization) (object : ObjectRef) : CompactObjectUserSet :=
  match QpdfObjGen.tryFromObjectRef object with
  | .ok raw => maps.rawUsersFor raw
  | .error _ => .default

def objectUsers (maps : Optimization) : List (ObjectRef × CompactObjectUserSet) :=
  maps.rawObjectToUsers.toList.filterMap fun entry =>
    entry.1.toObjectRef.map fun object => (object, entry.2)

/-- The page of a page user. -/
def pageOf : ObjectUser → Option UInt32
  | .page pageNumber => some pageNumber
  | _ => none

def pageUsers (maps : Optimization) (object : ObjectRef) : List UInt32 :=
  (maps.usersFor object).toList.filterMap pageOf

/-- The pages behind the first one that use any of the objects, as a `BTreeSet`. -/
def laterPages (maps : Optimization) (objects : List ObjectRef) : List UInt32 :=
  ((objects.flatMap maps.pageUsers).filter (· ≠ 0)).dedup.insertionSort (· ≤ ·)

end Optimization

/-! ## The plan -/

structure SharedObjectHintEntry where
  objectRef : ObjectRef
  referencingPages : List UInt32
  deriving DecidableEq, Repr

structure RawSharedObjectHintEntry where
  object : Option QpdfObjGen
  container : Option ℕ
  referencingPages : List UInt32
  deriving DecidableEq, Repr

/-- What the shared hints need of the raw plan. -/
structure RawLinearizationPlan where
  part2Objects : List QpdfObjGen := []
  part3Objects : List QpdfObjGen := []
  part6OutlineObjects : List QpdfObjGen := []
  part4OtherPagesShared : List QpdfObjGen := []
  sharedHints : List RawSharedObjectHintEntry := []
  projectionGap : Bool := false

/-- What the shared hints need of the plan. -/
structure LinearizationPlan where
  part2Objects : List ObjectRef
  part3Objects : List ObjectRef
  outlineFirstPageMembers : List ObjectRef
  part4OtherPagesShared : List ObjectRef
  part9OutlineObjects : List ObjectRef
  sharedHints : List SharedObjectHintEntry
  optimization : Option Optimization := none
  raw : RawLinearizationPlan := {}

/-- `member_to_container`: a member, the number of its container and its index there. -/
structure MemberToContainer where
  rows : List (ObjectRef × ℕ × ℕ)
  distinct : (rows.map Prod.fst).Nodup

namespace MemberToContainer

variable (map : MemberToContainer)

def containerOf (member : ObjectRef) : Option ℕ := (map.rows.lookup member).map Prod.fst

def membersOf (container : ℕ) : List ObjectRef :=
  (map.rows.filter fun row => row.2.1 = container).map Prod.fst

/-- The containers, as a `BTreeSet`. -/
def containers : List ℕ := (map.rows.map fun row => row.2.1).dedup.insertionSort (· ≤ ·)

end MemberToContainer

/-- Where the containers have been put: `second_half_container_nums` and
`open_document_container_nums`. -/
structure ContainerSections where
  secondHalf : List ℕ
  openDocument : List ℕ
  deriving DecidableEq, Repr

/-- The generation of the entries of containers. -/
def containerGeneration : ℕ := 65535

namespace LinearizationPlan

variable (plan : LinearizationPlan) (map : MemberToContainer) (renumber : RenumberMap)
  (sections : ContainerSections)

def hasRawProjectionGap : Bool := plan.raw.projectionGap

/-! ## The containers of Part 8 and of the rest -/

def hasFirstPageMember (container : ℕ) : Bool :=
  (map.membersOf container).any fun member => member ∈ plan.part2Objects ++ plan.part3Objects

def hasSharedMember (container : ℕ) : Bool :=
  (map.membersOf container).any fun member => member ∈ plan.part4OtherPagesShared

/-- `container_pages`. -/
def containerPages (container : ℕ) : List UInt32 :=
  match plan.optimization with
  | some optimization => optimization.laterPages (map.membersOf container)
  | none => []

def part8ContainerNums : List ℕ :=
  map.containers.filter fun container =>
    !plan.hasFirstPageMember map container &&
      (plan.hasSharedMember map container || 2 ≤ (plan.containerPages map container).length)

def restContainerNums : List ℕ :=
  (plan.part9OutlineObjects.filterMap map.containerOf).dedup.insertionSort (· ≤ ·)

/-! ## The folded list -/

/-- `first_page_input`. -/
def firstPageInput : ℕ :=
  plan.part2Objects.length + plan.part3Objects.length + plan.outlineFirstPageMembers.length

/-- The state of the loop; a container is kept with its position in the output. -/
structure FoldedHints where
  containerPos : List (ℕ × ℕ) := []
  out : List SharedObjectHintEntry := []
  firstPageOutEnd : Option ℕ := none

/-- A page is put in its place, unless it is there. -/
def mergePage (merged : List UInt32) (page : UInt32) : List UInt32 :=
  match binarySearch merged page with
  | .ok _ => merged
  | .error insertAt => merged.insertIdx insertAt page

/-- A container that the section of the hint passes over. -/
def passesOver (inputIdx container : ℕ) : Bool :=
  container ∈ sections.openDocument ||
    (inputIdx < plan.firstPageInput && container ∈ sections.secondHalf) ||
    (plan.firstPageInput ≤ inputIdx && container ∈ plan.restContainerNums map)

/-- One round of the loop. -/
def foldHint (s : FoldedHints) (input : SharedObjectHintEntry × ℕ) : FoldedHints :=
  let s := if input.2 = plan.firstPageInput then { s with firstPageOutEnd := some s.out.length }
    else s
  match map.containerOf input.1.objectRef with
  | none => { s with out := s.out ++ [input.1] }
  | some container =>
    if plan.passesOver map sections input.2 container then s
    else
      match s.containerPos.lookup container with
      | some pos =>
        { s with
          out := s.out.modify pos fun entry =>
            { entry with
              referencingPages := input.1.referencingPages.foldl mergePage
                entry.referencingPages } }
      | none =>
        { s with
          containerPos := s.containerPos ++ [(container, s.out.length)]
          out := s.out ++ [⟨⟨container, containerGeneration⟩,
            (input.1.referencingPages.insertionSort (· ≤ ·)).eraseReps⟩] }

def foldedHints : FoldedHints :=
  plan.sharedHints.zipIdx.foldl (plan.foldHint map sections) {}

/-- `new_number`; an object without a number comes last. -/
def newNumber (entry : SharedObjectHintEntry) : ℕ :=
  if entry.objectRef.generation = containerGeneration then entry.objectRef.number
  else ((renumber.newForOriginal entry.objectRef).map (·.number)).getD (2 ^ 32 - 1)

/-- The containers that only the pages of their members make shared. -/
def appendedContainers (s : FoldedHints) : List SharedObjectHintEntry :=
  ((plan.part8ContainerNums map).filter fun container =>
      (s.containerPos.lookup container).isNone && container ∉ sections.openDocument &&
        container ∉ plan.restContainerNums map).map fun container =>
    ⟨⟨container, containerGeneration⟩, []⟩

/-- The pages of an entry, from all the members of a container. -/
def recomputePages (optimization : Optimization) (entry : SharedObjectHintEntry) :
    SharedObjectHintEntry :=
  { entry with
    referencingPages :=
      optimization.laterPages <|
        if entry.objectRef.generation = containerGeneration then
          map.membersOf entry.objectRef.number
        else [entry.objectRef] }

def recomputeAll (entries : List SharedObjectHintEntry) : List SharedObjectHintEntry :=
  match plan.optimization with
  | some optimization =>
    if optimization.objectUsers.any fun object =>
        object.2.toList.any fun user => (Optimization.pageOf user).isSome then
      entries.map (recomputePages map optimization)
    else entries
  | none => entries

def canonicalSharedHints : List SharedObjectHintEntry :=
  if map.rows.isEmpty then plan.sharedHints
  else
    let s := plan.foldedHints map sections
    let boundary := s.firstPageOutEnd.getD s.out.length
    let out := sortByKey (newNumber renumber) (s.out.take boundary) ++ s.out.drop boundary
    let out := out ++ plan.appendedContainers map sections s
    let out := out.take boundary ++ sortByKey (newNumber renumber) (out.drop boundary)
    plan.recomputeAll map out

/-! ## The raw list -/

/-- The raw entry of an object. -/
def rawObjectHint (entry : SharedObjectHintEntry) : Option RawSharedObjectHintEntry :=
  match QpdfObjGen.tryFromObjectRef entry.objectRef with
  | .ok object => some ⟨some object, none, entry.referencingPages⟩
  | .error _ => none

/-- The raw entry of an object or a container. -/
def rawHint (entry : SharedObjectHintEntry) : Option RawSharedObjectHintEntry :=
  if entry.objectRef.generation = containerGeneration then
    some ⟨none, some entry.objectRef.number, entry.referencingPages⟩
  else rawObjectHint entry

/-- One round of the count of the first-page section; the containers are those that have
been counted. -/
def countFirstPage (s : ℕ × List ℕ) (entry : SharedObjectHintEntry) : ℕ × List ℕ :=
  match map.containerOf entry.objectRef with
  | some container =>
    if container ∈ sections.openDocument ∨ container ∈ sections.secondHalf then s
    else if container ∈ s.2 then s
    else (s.1 + 1, s.2 ++ [container])
  | none => (s.1 + 1, s.2)

def firstPageCount : ℕ :=
  ((plan.sharedHints.take plan.firstPageInput).foldl (countFirstPage map sections) (0, [])).1

/-- `first_page_raw`. -/
def firstPageRaw : List QpdfObjGen :=
  (plan.raw.part2Objects ++ plan.raw.part3Objects ++ plan.raw.part6OutlineObjects).filter
    fun object => object.toObjectRef.isNone

/-- `part8_raw`. -/
def part8Raw : List QpdfObjGen :=
  plan.raw.part4OtherPagesShared.filter fun object => object.toObjectRef.isNone

def firstExtra : List RawSharedObjectHintEntry :=
  plan.raw.sharedHints.filter fun entry => entry.object.any fun object => object ∈ plan.firstPageRaw

def part8Extra : List RawSharedObjectHintEntry :=
  plan.raw.sharedHints.filter fun entry =>
    entry.object.any fun object => object ∉ plan.firstPageRaw ∧ object ∈ plan.part8Raw

/-- `raw_number`. -/
def rawNumber (entry : RawSharedObjectHintEntry) : ℕ :=
  entry.container.getD <|
    ((entry.object.bind renumber.newForRaw).map (·.number)).getD (2 ^ 32 - 1)

/-- The raw objects are put into the section they belong to. -/
def spliceRaw (result : List RawSharedObjectHintEntry) : List RawSharedObjectHintEntry :=
  let count := plan.firstPageCount map sections
  let extra := sortByKey (rawNumber renumber) plan.firstExtra
  let result := result.take count ++ extra ++ result.drop count
  let firstPageEnd := count + extra.length
  let result := sortByKey (rawNumber renumber) (result.take firstPageEnd) ++
    result.drop firstPageEnd
  let result := result ++ plan.part8Extra
  result.take firstPageEnd ++ sortByKey (rawNumber renumber) (result.drop firstPageEnd)

def canonicalRawSharedHints : List RawSharedObjectHintEntry :=
  if map.rows.isEmpty then
    if plan.hasRawProjectionGap then plan.raw.sharedHints
    else plan.sharedHints.filterMap rawObjectHint
  else
    let result := (plan.canonicalSharedHints map renumber sections).filterMap rawHint
    if plan.hasRawProjectionGap then plan.spliceRaw map renumber sections result else result

end LinearizationPlan

/-! ## The table -/

namespace SharedObjectHintTable

variable (plan : LinearizationPlan) (map : MemberToContainer) (renumber : RenumberMap)
  (sections : ContainerSections)

/-- `part8_containers`. -/
def part8Containers : List ℕ :=
  (plan.part8ContainerNums map).filter fun container =>
    container ∉ sections.openDocument && container ∉ plan.restContainerNums map

/-- `part8_plain`, before it is narrowed to 32 bits. -/
def part8Plain : ℕ :=
  if plan.hasRawProjectionGap then
    (plan.raw.part4OtherPagesShared.filter fun object =>
      object.toObjectRef.all fun ref => (map.containerOf ref).isNone).length
  else (plan.part4OtherPagesShared.filter fun ref => (map.containerOf ref).isNone).length

def part8Entries : ℕ :=
  ((part8Containers plan map sections).length % 2 ^ 32 + part8Plain plan map % 2 ^ 32) % 2 ^ 32

/-- The number of a hint in the output; 0 stands for a missing number. -/
def hintNumber (entry : RawSharedObjectHintEntry) : ℕ :=
  match entry.container with
  | some container => container
  | none => ((entry.object.bind renumber.newForRaw).map (·.number)).getD 0

def fromPlan : SharedObjectHintTable :=
  let sharedHints := plan.canonicalRawSharedHints map renumber sections
  let sharedCount := sharedHints.length % 2 ^ 32
  if sharedCount = 0 then ⟨⟨0, 0, 0, 0, 0, 0, 0⟩, []⟩
  else
    let firstPageEntries := sharedCount - part8Entries plan map sections
    { header :=
        { firstObjectNumber := (sharedHints[firstPageEntries]?.map (hintNumber renumber)).getD 0
          location := 0
          firstPageEntries := firstPageEntries
          sectionEntries := sharedCount
          bitsGroupObjectCount := 0
          leastLength := 0
          bitsLengthDelta := 0 }
      objects := sharedHints.map fun _ => ⟨0, false, 0⟩ }

end SharedObjectHintTable

end Flpdf
