import Flpdf.NNTree.Lookups
import Flpdf.Object.Unparse

/-! # Page labels

Labels are read from number trees, one for each source document, and collected in one list
for the pages of the output.  An entry that follows from the one before it is left out; two
values count as the same when they unparse alike.
-/

namespace Flpdf

/-- A value with the document that owns its references. -/
structure LabelValue where
  document : ℕ
  value : ObjectValue

/-- A label dictionary: what `/S` and `/P` hold, null when there is no such key, and `/St` when it
is an integer. -/
structure RawLabel where
  document : ℕ
  style : ObjectValue := .null
  labelPrefix : ObjectValue := .null
  start : Option ℤ := none

/-- A value of a `/PageLabels` tree once it is dereferenced; it may be no dictionary. -/
inductive LabelNode where
  | dictionary (label : RawLabel)
  | other

/-- `RawPageLabelEntry`: a reconstructed label on its way to another document. -/
structure RawPageLabelEntry where
  index : ℤ
  sourceId : ℕ
  sourceIsPrimary : Bool
  label : RawLabel

/-- A document with its `/PageLabels`, if it has any. -/
structure LabelSource where
  document : ℕ
  tree : Option NNTree
  repair : NodeStore ℤ LabelNode → Except NNTreeError (NodeStore ℤ LabelNode)
  store : NodeStore ℤ LabelNode

section Text

variable (resolve : ℕ → QpdfObjGen → Except Bytes ObjectValue)

/-- `unparse`: an indirect value is its reference. -/
def LabelValue.unparse (v : LabelValue) : Except Bytes Bytes :=
  match v.value with
  | .indirect objectGen =>
    if objectGen.isIndirect then .ok (unparseReference objectGen)
    else unparseResolved (resolve v.document) v.value
  | value => unparseResolved (resolve v.document) value

namespace RawLabel

def styleValue (label : RawLabel) : LabelValue := ⟨label.document, label.style⟩

def prefixValue (label : RawLabel) : LabelValue := ⟨label.document, label.labelPrefix⟩

end RawLabel

/-- The comparison of two values by what they unparse to; a failure is passed on. -/
def sameUnparsed (v w : LabelValue) : Except NNTreeError Bool := do
  let text ← (v.unparse resolve).mapError .internal
  let text' ← (w.unparse resolve).mapError .internal
  return text == text'

/-- The comparison of both values of two labels; `/P` only counts where `/S` is the same. -/
def sameStyleAndPrefix (label label' : RawLabel) : Except NNTreeError Bool := do
  if ← sameUnparsed resolve label.styleValue label'.styleValue then
    sameUnparsed resolve label.prefixValue label'.prefixValue
  else return false

/-! ## Merging -/

def rawPageLabelsAreRedundant (previousIndex : ℤ) (previous : RawLabel) (index : ℤ)
    (current : RawLabel) : Except NNTreeError Bool :=
  let expectedStart := (checkedI64 (index - previousIndex)).bind fun gap =>
    previous.start.bind fun start => checkedI64 (start + gap)
  match expectedStart, current.start with
  | some expectedStart, some currentSt =>
    if currentSt = expectedStart then sameStyleAndPrefix resolve previous current
    else .ok false
  | _, _ => .ok false

/-- A round of the loop of both merges: the entry stays unless it is redundant. -/
def mergeRange {α : Type} (entry : α → ℤ × RawLabel) (out : List α) (range : α) :
    Except NNTreeError (List α) :=
  match out.getLast? with
  | some previous => do
    if ← rawPageLabelsAreRedundant resolve (entry previous).1 (entry previous).2 (entry range).1
        (entry range).2 then return out
    else return out ++ [range]
  | none => .ok (out ++ [range])

def mergeAdjacentRawLabels (ranges : List (ℤ × RawLabel)) :
    Except NNTreeError (List (ℤ × RawLabel)) :=
  ranges.foldlM (mergeRange resolve id) []

def mergeAdjacentRawPageLabels (ranges : List RawPageLabelEntry) :
    Except NNTreeError (List RawPageLabelEntry) :=
  ranges.foldlM (mergeRange resolve fun range => (range.index, range.label)) []

end Text

/-! ## Reading -/

/-- An arithmetic result, or the error for one that does not fit. -/
def checkedOr (value : ℤ) (message : String) : Except NNTreeError ℤ :=
  match checkedI64 value with
  | some value => .ok value
  | none => .error (.unsupported (ascii message))

namespace LabelSource

variable (source : LabelSource)

abbrev Store := NodeStore ℤ LabelNode

def getLabelForPageFromTree (tree : NNTree) (store : Store) (pageIdx : ℤ) :
    Except NNTreeError (Store × Option RawLabel) := do
  let (store, found) ← NumberTree.findObjectAtOrBelow tree source.repair store pageIdx
  match found with
  | some (.dictionary label, offset) =>
    let start ← checkedOr (label.start.getD 1 + offset) "page label /St offset overflow"
    return (store, some { label with start := some start })
  | _ => return (store, none)

/-- The label of a page, or an empty dictionary. -/
def labelOrEmpty (store : Store) (pageIdx : ℤ) : Except NNTreeError (Store × RawLabel) := do
  match source.tree with
  | some tree =>
    let (store, label) ← source.getLabelForPageFromTree tree store pageIdx
    return (store, label.getD { document := source.document })
  | none => return (store, { document := source.document })

/-- A label without a start number begins at the output position. -/
def withDefaultStart (label : RawLabel) (outIdx : ℤ) : Except NNTreeError RawLabel :=
  match label.start with
  | some _ => .ok label
  | none => do
    let defaultStart ← checkedOr (outIdx + 1) "page label fabricated start overflow"
    return { label with start := some defaultStart }

variable (resolve : ℕ → QpdfObjGen → Except Bytes ObjectValue)

/-- Whether the first label of a range follows from the last entry. -/
def skipFirst (labels : List (ℤ × RawLabel)) (newStartIdx : ℤ) (firstLabel : RawLabel) :
    Except NNTreeError Bool :=
  match labels.getLast? with
  | none => .ok false
  | some (lastIndex, lastLabel) =>
    let stDelta := firstLabel.start.bind fun firstSt =>
      lastLabel.start.bind fun lastSt => checkedI64 (firstSt - lastSt)
    match checkedI64 (newStartIdx - lastIndex), stDelta with
    | some idx, some st =>
      if idx = st then sameStyleAndPrefix resolve lastLabel firstLabel else .ok false
    | _, _ => .ok false

/-- A round of the loop over the pages behind the first one. -/
def rangeStep (tree : NNTree) (idxOffset : ℤ) (state : Store × List (ℤ × RawLabel))
    (sourceIdx : ℤ) : Except NNTreeError (Store × List (ℤ × RawLabel)) := do
  let (store, present) ← NumberTree.hasIndex tree source.repair state.1 sourceIdx
  if !present then return (store, state.2)
  else
    let (store, label) ← source.getLabelForPageFromTree tree store sourceIdx
    match label with
    | none => return (store, state.2)
    | some label =>
      let outputIdx ← checkedOr (sourceIdx + idxOffset) "page label output index overflow"
      return (store, state.2 ++ [(outputIdx, label)])

/-- The indices behind `startIdx`, up to `endIdx`. -/
def laterIndices (startIdx endIdx : ℤ) : List ℤ :=
  (List.range (endIdx - startIdx).toNat).map fun i => startIdx + (i + 1 : ℕ)

def getLabelsForPageRange (startIdx endIdx newStartIdx : ℤ) (labels : List (ℤ × RawLabel)) :
    Except NNTreeError (List (ℤ × RawLabel)) := do
  let idxOffset ← checkedOr (newStartIdx - startIdx) "page label index offset overflow"
  let (store, firstLabel) ← source.labelOrEmpty source.store startIdx
  let firstLabel ← withDefaultStart firstLabel newStartIdx
  let skip ← skipFirst resolve labels newStartIdx firstLabel
  let labels := if skip then labels else labels ++ [(newStartIdx, firstLabel)]
  match source.tree with
  | some tree =>
    let (_, labels) ← (laterIndices startIdx endIdx).foldlM (source.rangeStep tree idxOffset)
      (store, labels)
    return labels
  | none => return labels

/-- A round of the loop over the selected pages. -/
def selectionStep (outStartIdx : ℤ) (state : Store × List (ℤ × RawLabel)) (srcIdx : ℤ) :
    Except NNTreeError (Store × List (ℤ × RawLabel)) := do
  let outIdx ← checkedOr (outStartIdx + state.2.length) "page label output index overflow"
  let (store, label) ← source.labelOrEmpty state.1 srcIdx
  let label ← withDefaultStart label outIdx
  return (store, state.2 ++ [(outIdx, label)])

def labelsForSelectionRaw (srcIndices : List ℤ) (outStartIdx : ℤ) :
    Except NNTreeError (List (ℤ × RawLabel)) := do
  let (_, out) ← srcIndices.foldlM (source.selectionStep outStartIdx) (source.store, [])
  return out

end LabelSource

end Flpdf
