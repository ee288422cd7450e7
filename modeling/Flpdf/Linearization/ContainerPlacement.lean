import Flpdf.Bytes.Ascii
import Flpdf.Xref.ObjGen

/-!
# The placement of object streams

`place_objstm_members_per_half` numbers the objects of a linearized file anew, so that the
members of object streams come last in their half and the containers stand among the plain
objects. The number of a container is kept beside the place of its batch, which the source
leaves to the order of the vectors.
-/

namespace Flpdf

/-- The section a container belongs to. -/
inductive ContainerPart where
  | openDocument | firstPagePrivate | firstPageShared | firstPageOutlines | otherPagePrivate
  | otherPageShared | rest
  deriving DecidableEq, Repr

structure RoutedObjStmBatch where
  members : List ObjectRef
  route : ContainerPart
  sourceContainerNumber : Option UInt32
  deriving DecidableEq, Repr

inductive SecondHalfContainerAnchor where
  | beforeFirst
  | after (original : QpdfObjGen)
  | afterLast
  deriving DecidableEq, Repr

structure RenumberMap where
  byNewNumber : List ObjectRef
  byNewRaw : List QpdfObjGen
  byOriginal : List (ObjectRef × ObjectRef)
  byOriginalRaw : List (QpdfObjGen × ObjectRef)
  paramDictSlot : ℕ
  hintStreamSlot : ℕ
  firstHalfCategory : List (QpdfObjGen × ℕ)
  deriving DecidableEq, Repr

/-- The half of a batch, or the open-document part, and its place there. -/
inductive BatchPlace where
  | openDocument (index : ℕ)
  | firstHalf (index : ℕ)
  | secondHalf (index : ℕ)
  deriving DecidableEq, Repr

/-- The relocation; `containers` are the container numbers, each with its batch. -/
structure ObjStmRelocation where
  firstXrefSlot : ℕ := 0
  mainXrefSlot : ℕ := 0
  secondHalfCount : ℕ := 0
  containers : List (BatchPlace × ℕ) := []
  deriving DecidableEq, Repr

def ObjStmRelocation.containerNumbers (relocation : ObjStmRelocation) : List ℕ :=
  relocation.containers.map Prod.snd

/-- The panics of the placement. -/
inductive PlacementError where
  | memberOutOfRange (member : ObjectRef)
  | memberMissing (member : ObjectRef)
  | unassignedContainer (batch : ℕ)
  | duplicateOriginal (original : QpdfObjGen)
  deriving DecidableEq, Repr

/-- What `place_objstm_members_per_half` is called with. -/
structure PlacementInput where
  openDocumentBatches : List RoutedObjStmBatch
  firstHalfBatches : List RoutedObjStmBatch
  secondHalfBatches : List RoutedObjStmBatch
  secondHalfAnchors : List SecondHalfContainerAnchor
  secondHalfPostPlain : List ObjectRef
  firstHalfPostPlain : List ObjectRef
  firstHalfOutlineBatchCount : ℕ
  firstHalfOutlineRoot : Option ObjectRef
  deriving DecidableEq, Repr

/-! ## The table -/

/-- A row of the two tables that are pushed to together. -/
structure NumberSlot where
  number : ObjectRef
  raw : QpdfObjGen
  deriving DecidableEq, Repr

def sentinel : ObjectRef := ⟨0, 0⟩

def rawSentinel : QpdfObjGen := ⟨0, 0⟩

def sentinelSlot : NumberSlot := ⟨sentinel, rawSentinel⟩

/-- `push_original`. -/
def originalSlot (original : QpdfObjGen) : NumberSlot :=
  ⟨original.toObjectRef.getD sentinel, original⟩

namespace RoutedObjStmBatch

/-- `QpdfObjGen::new(number as i32, 0)` for a source container. -/
def sourceContainer (batch : RoutedObjStmBatch) : Option QpdfObjGen :=
  batch.sourceContainerNumber.map fun number => ⟨number.toInt32.toInt, 0⟩

/-- The row of the container. -/
def containerSlot (batch : RoutedObjStmBatch) : NumberSlot :=
  ⟨sentinel, batch.sourceContainer.getD rawSentinel⟩

end RoutedObjStmBatch

/-- Raw identities of references; one that does not fit is left out. -/
def rawIdentities (refs : List ObjectRef) : List QpdfObjGen :=
  refs.filterMap fun ref => (QpdfObjGen.tryFromObjectRef ref).toOption

/-- `u32::try_from(original.get_obj())`. -/
def sourceNumber (original : QpdfObjGen) : Option ℕ :=
  if 0 ≤ original.object ∧ original.object < 2 ^ 32 then some original.object.toNat else none

/-! ## The plain objects -/

/-- The plain objects of both halves, and how many of the first half stand in front of the
hint stream. -/
structure PlainObjects where
  secondHalf : List QpdfObjGen := []
  firstHalf : List QpdfObjGen := []
  hintIndex : ℕ := 0

namespace PlacementInput

variable (input : PlacementInput)

def batches : List RoutedObjStmBatch :=
  input.openDocumentBatches ++ input.firstHalfBatches ++ input.secondHalfBatches

def memberSet : List QpdfObjGen := rawIdentities (input.batches.flatMap (·.members))

def sourceContainerSet : List QpdfObjGen := input.batches.filterMap (·.sourceContainer)

/-- An old slot goes to the half it was in; members and source containers are placed
again. -/
def partitionSlot (map : RenumberMap) (plain : PlainObjects) (slot : QpdfObjGen × ℕ) :
    PlainObjects :=
  if slot.2 = map.paramDictSlot then plain
  else if slot.2 = map.hintStreamSlot then { plain with hintIndex := plain.firstHalf.length }
  else if slot.1 = rawSentinel then plain
  else if slot.1 ∈ input.memberSet then plain
  else if slot.1 ∈ input.sourceContainerSet then plain
  else if slot.2 < map.paramDictSlot then
    { plain with secondHalf := plain.secondHalf ++ [slot.1] }
  else { plain with firstHalf := plain.firstHalf ++ [slot.1] }

def plainObjects (map : RenumberMap) : PlainObjects :=
  (map.byNewRaw.zipIdx.drop 1).foldl (input.partitionSlot map) {}

/-! ## The second half -/

structure SecondHalfState where
  table : List NumberSlot
  containerSlot : List (Option ℕ)

/-- `emit_container`. -/
def emitContainer (s : SecondHalfState) (index : ℕ) : SecondHalfState :=
  match input.secondHalfBatches[index]? with
  | none => s
  | some batch =>
    if batch.members.isEmpty || (s.containerSlot.getD index none).isSome then s
    else
      { table := s.table ++ [batch.containerSlot]
        containerSlot := s.containerSlot.set index (some s.table.length) }

/-- `emit_container` for the batches whose anchor is as given. -/
def emitAnchored (anchor : SecondHalfContainerAnchor) (s : SecondHalfState) : SecondHalfState :=
  (List.range input.secondHalfBatches.length).foldl (fun s index =>
    if input.secondHalfAnchors[index]? = some anchor then input.emitContainer s index else s) s

/-- A plain object, with the containers that are anchored to it. -/
def emitSecondHalfPlain (s : SecondHalfState) (original : QpdfObjGen) : SecondHalfState :=
  if original ∈ rawIdentities input.secondHalfPostPlain then s
  else input.emitAnchored (.after original) { s with table := s.table ++ [originalSlot original] }

/-- The plain objects and the containers of the second half. -/
def emitSecondHalf (plain : List QpdfObjGen) : SecondHalfState :=
  let s : SecondHalfState :=
    { table := [sentinelSlot], containerSlot := List.replicate input.secondHalfBatches.length none }
  let s := input.emitAnchored .beforeFirst s
  let s := plain.foldl input.emitSecondHalfPlain s
  let s := (List.range input.secondHalfBatches.length).foldl input.emitContainer s
  let post := plain.filter fun original => original ∈ rawIdentities input.secondHalfPostPlain
  { s with table := s.table ++ post.map originalSlot }

/-- The numbers of the second half's containers, in batch order. -/
def secondHalfContainers (s : SecondHalfState) :
    Except PlacementError (List (BatchPlace × ℕ)) :=
  (input.secondHalfBatches.zipIdx.filter fun entry => !entry.1.members.isEmpty).mapM fun entry =>
    match s.containerSlot.getD entry.2 none with
    | some number => .ok (.secondHalf entry.2, number)
    | none => .error (.unassignedContainer entry.2)

/-- `assert_member` and `push_original` for the members of batches. -/
def memberSlots (map : RenumberMap) (batches : List RoutedObjStmBatch) :
    Except PlacementError (List NumberSlot) :=
  (batches.flatMap (·.members)).mapM fun member =>
    match QpdfObjGen.tryFromObjectRef member with
    | .error _ => .error (.memberOutOfRange member)
    | .ok original =>
      if (map.byOriginalRaw.lookup original).isSome then .ok (originalSlot original)
      else .error (.memberMissing member)

/-! ## The first half -/

structure FirstHalfState where
  table : List NumberSlot
  emitted : List ℕ := []
  containers : List (BatchPlace × ℕ) := []
  nextOpenDocument : ℕ := 0
  openDocumentContainers : List (BatchPlace × ℕ) := []
  openDocumentEmitted : Bool := false
  hintSlot : ℕ := 0
  postContainerPlain : List QpdfObjGen := []
  outlineRootEmitted : Bool := false

/-- One batch of `emit_first_half_batch_range`. -/
def emitFirstHalfBatch (s : FirstHalfState) (index : ℕ) : FirstHalfState :=
  if index ∈ s.emitted then s
  else
    match input.firstHalfBatches[index]? with
    | none => s
    | some batch =>
      if batch.members.isEmpty then { s with emitted := s.emitted ++ [index] }
      else
        { s with
          emitted := s.emitted ++ [index]
          table := s.table ++ [batch.containerSlot]
          containers := s.containers ++ [(.firstHalf index, s.table.length)] }

/-- `emit_first_half_batch_range`. -/
def emitFirstHalfBatchRange (start stop : ℕ) (s : FirstHalfState) : FirstHalfState :=
  (List.range' start (stop - start)).foldl input.emitFirstHalfBatch s

/-- `emit_open_document_containers_before`; the fuel is the number of batches. -/
def emitOpenDocumentContainersBefore (plainSourceNumber : Option ℕ) :
    ℕ → FirstHalfState → FirstHalfState
  | 0, s => s
  | fuel + 1, s =>
    match input.openDocumentBatches[s.nextOpenDocument]? with
    | none => s
    | some batch =>
      if batch.members.isEmpty then
        emitOpenDocumentContainersBefore plainSourceNumber fuel
          { s with nextOpenDocument := s.nextOpenDocument + 1 }
      else
        let emit := match plainSourceNumber with
          | some plainNumber =>
            (batch.sourceContainerNumber.map UInt32.toNat).any fun source => source < plainNumber
          | none => true
        if emit then
          emitOpenDocumentContainersBefore plainSourceNumber fuel
            { s with
              table := s.table ++ [batch.containerSlot]
              openDocumentContainers := s.openDocumentContainers ++
                [(BatchPlace.openDocument s.nextOpenDocument, s.table.length)]
              nextOpenDocument := s.nextOpenDocument + 1 }
        else s

def emitOpenDocumentContainers (plainSourceNumber : Option ℕ) (s : FirstHalfState) :
    FirstHalfState :=
  input.emitOpenDocumentContainersBefore plainSourceNumber input.openDocumentBatches.length s

def outlineBatchStart : ℕ := input.firstHalfBatches.length - input.firstHalfOutlineBatchCount

def outlineRootRaw : Option QpdfObjGen :=
  input.firstHalfOutlineRoot.bind fun ref => (QpdfObjGen.tryFromObjectRef ref).toOption

/-- The category of plain objects among which a batch is numbered. -/
def batchCategory (batch : RoutedObjStmBatch) : Option ℕ :=
  match batch.route with
  | .firstPagePrivate => some 0
  | .firstPageShared => some 1
  | _ => none

/-- The plain object at `index` has the batch numbered in front of it. -/
def forces (map : RenumberMap) (hintIndex : ℕ) (batch : RoutedObjStmBatch)
    (plain : QpdfObjGen × ℕ) : Bool :=
  hintIndex ≤ plain.2 &&
    match sourceNumber plain.1, map.firstHalfCategory.lookup plain.1 with
    | some plainNumber, some plainCategory =>
      match batch.sourceContainerNumber, batchCategory batch with
      | some source, some category => category == plainCategory && source.toNat < plainNumber
      | _, _ => false
    | _, _ => false

/-- The containers that a plain object has numbered in front of it. -/
def emitForced (map : RenumberMap) (hintIndex : ℕ) (plain : QpdfObjGen × ℕ)
    (s : FirstHalfState) : FirstHalfState :=
  (List.range input.outlineBatchStart).foldl (fun s index =>
    match input.firstHalfBatches[index]? with
    | some batch =>
      if forces map hintIndex batch plain then input.emitFirstHalfBatchRange index (index + 1) s
      else s
    | none => s) s

/-- The hint stream, with the open-document containers in front of it. -/
def emitHint (s : FirstHalfState) : FirstHalfState :=
  let s := input.emitOpenDocumentContainers none s
  { s with
    openDocumentEmitted := true
    hintSlot := s.table.length
    table := s.table ++ [sentinelSlot] }

/-- The outline root and the containers on both sides of it. -/
def emitOutlineRoot (original : QpdfObjGen) (s : FirstHalfState) : FirstHalfState :=
  let s := input.emitFirstHalfBatchRange 0 input.outlineBatchStart s
  let s := { s with table := s.table ++ [originalSlot original] }
  let s := input.emitFirstHalfBatchRange input.outlineBatchStart input.firstHalfBatches.length s
  { s with outlineRootEmitted := true }

/-- One plain object of the first half. -/
def emitFirstHalfPlain (map : RenumberMap) (hintIndex : ℕ) (s : FirstHalfState)
    (plain : QpdfObjGen × ℕ) : FirstHalfState :=
  let s := if plain.2 = hintIndex then input.emitHint s else s
  let sourceOrdered := input.openDocumentBatches.any fun batch =>
    batch.sourceContainerNumber.isSome
  let s := if sourceOrdered ∧ 0 < plain.2 ∧ plain.2 < hintIndex then
      input.emitOpenDocumentContainers (some ((sourceNumber plain.1).getD (2 ^ 32 - 1))) s
    else s
  let s := input.emitForced map hintIndex plain s
  if some plain.1 = input.outlineRootRaw then input.emitOutlineRoot plain.1 s
  else if plain.1 ∈ rawIdentities input.firstHalfPostPlain then
    { s with postContainerPlain := s.postContainerPlain ++ [plain.1] }
  else { s with table := s.table ++ [originalSlot plain.1] }

/-- The hint stream behind the last plain object. -/
def emitLateHint (s : FirstHalfState) : FirstHalfState :=
  let s := if s.openDocumentEmitted then s else input.emitOpenDocumentContainers none s
  { s with hintSlot := s.table.length, table := s.table ++ [sentinelSlot] }

/-- The plain objects and the containers of the first half. -/
def emitFirstHalf (map : RenumberMap) (plain : PlainObjects) (table : List NumberSlot) :
    FirstHalfState :=
  let s := plain.firstHalf.zipIdx.foldl (input.emitFirstHalfPlain map plain.hintIndex)
    { table := table }
  let s := if plain.firstHalf.length ≤ plain.hintIndex then input.emitLateHint s else s
  let s := if s.outlineRootEmitted then s
    else input.emitFirstHalfBatchRange 0 input.firstHalfBatches.length s
  { s with table := s.table ++ s.postContainerPlain.map originalSlot }

/-! ## The new map -/

/-- The forward indices of a table, which no original may have twice. -/
def indexTable : List (QpdfObjGen × ℕ) → List (QpdfObjGen × ObjectRef) →
    Except PlacementError (List (QpdfObjGen × ObjectRef))
  | [], byOriginalRaw => .ok byOriginalRaw
  | (original, number) :: rows, byOriginalRaw =>
    if original = rawSentinel then indexTable rows byOriginalRaw
    else if (byOriginalRaw.lookup original).isSome then .error (.duplicateOriginal original)
    else indexTable rows (byOriginalRaw ++ [(original, ⟨number, 0⟩)])

/-- `place_objstm_members_per_half`, with the map as it leaves it. -/
def placeObjstmMembersPerHalf (map : RenumberMap) :
    Except PlacementError (RenumberMap × ObjStmRelocation) := do
  if input.batches.all (·.members.isEmpty) then return (map, {})
  else
    let plain := input.plainObjects map
    let second := input.emitSecondHalf plain.secondHalf
    let secondContainers ← input.secondHalfContainers second
    let secondMembers ← memberSlots map input.secondHalfBatches
    let mainXrefSlot := second.table.length
    let table := second.table ++ sentinelSlot :: secondMembers
    let paramSlot := table.length
    let first := input.emitFirstHalf map plain (table ++ [sentinelSlot, sentinelSlot])
    let openMembers ← memberSlots map input.openDocumentBatches
    let firstMembers ← memberSlots map input.firstHalfBatches
    let table := first.table ++ openMembers ++ firstMembers
    let byOriginalRaw ← indexTable ((table.map (·.raw)).zipIdx.drop 1) []
    return ({ map with
        byNewNumber := table.map (·.number)
        byNewRaw := table.map (·.raw)
        byOriginal := byOriginalRaw.filterMap fun entry =>
          entry.1.toObjectRef.map fun ref => (ref, entry.2)
        byOriginalRaw := byOriginalRaw
        paramDictSlot := paramSlot
        hintStreamSlot := first.hintSlot },
      { firstXrefSlot := paramSlot + 1
        mainXrefSlot := mainXrefSlot
        secondHalfCount := paramSlot
        containers := first.openDocumentContainers ++ first.containers ++ secondContainers })

end PlacementInput

end Flpdf
