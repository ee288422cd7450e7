import Flpdf.Bits.BitStream

/-!
# The hint table decoder

The readers of the three hint tables, after `show.rs`. Each column is read into
the entries that are there already; the error is the text of the bit reader's.
-/

namespace Flpdf

structure HPageOffsetEntry where
  deltaNobjects : ℕ := 0
  deltaPageLength : ℕ := 0
  nsharedObjects : ℕ := 0
  sharedIdentifiers : List ℕ := []
  sharedNumerators : List ℕ := []
  deltaContentOffset : ℕ := 0
  deltaContentLength : ℕ := 0
  deriving DecidableEq, Repr

structure HPageOffset where
  minNobjects : ℕ
  firstPageOffset : ℕ
  nbitsDeltaNobjects : ℕ
  minPageLength : ℕ
  nbitsDeltaPageLength : ℕ
  minContentOffset : ℕ
  nbitsDeltaContentOffset : ℕ
  minContentLength : ℕ
  nbitsDeltaContentLength : ℕ
  nbitsNsharedObjects : ℕ
  nbitsSharedIdentifier : ℕ
  nbitsSharedNumerator : ℕ
  sharedDenominator : ℕ
  entries : List HPageOffsetEntry
  deriving DecidableEq, Repr

structure HSharedObjectEntry where
  deltaGroupLength : ℕ := 0
  signaturePresent : Bool := false
  nobjectsMinusOne : ℕ := 0
  deriving DecidableEq, Repr

structure HSharedObject where
  firstSharedObj : ℕ
  firstSharedOffset : ℕ
  nsharedFirstPage : ℕ
  nsharedTotal : ℕ
  nbitsNobjects : ℕ
  minGroupLength : ℕ
  nbitsDeltaGroupLength : ℕ
  entries : List HSharedObjectEntry
  deriving DecidableEq, Repr

structure HGeneric where
  firstObject : ℕ
  firstObjectOffset : ℕ
  nobjects : ℕ
  groupLength : ℕ
  deriving DecidableEq, Repr

namespace HintReader

open BitStream (asU32)

/-- `get_bits_i32` and the conversion to a `u32`. -/
def getU32 (r : BitStream) (bits : ℕ) : Except BitStreamError (ℕ × BitStream) :=
  (r.getBitsI32 bits).map fun (value, r) => (asU32 value, r)

/-- A column: one value for each entry, and then the next whole octet. -/
def readValues {α : Type} (width : ℕ) (set : α → ℕ → α) :
    List α → BitStream → Except BitStreamError (List α × BitStream)
  | [], r => .ok ([], r)
  | entry :: entries, r => do
    let (value, r) ← getU32 r width
    let (entries, r) ← readValues width set entries r
    return (set entry value :: entries, r)

def readColumn {α : Type} (width : ℕ) (set : α → ℕ → α) (entries : List α) (r : BitStream) :
    Except BitStreamError (List α × BitStream) := do
  let (entries, r) ← readValues width set entries r
  let r ← r.skipToNextByte
  return (entries, r)

/-- As many values as an entry has shared objects. -/
def readMany (width : ℕ) : ℕ → BitStream → Except BitStreamError (List ℕ × BitStream)
  | 0, r => .ok ([], r)
  | count + 1, r => do
    let (value, r) ← getU32 r width
    let (values, r) ← readMany width count r
    return (value :: values, r)

def readNested (width : ℕ) (set : HPageOffsetEntry → List ℕ → HPageOffsetEntry) :
    List HPageOffsetEntry → BitStream → Except BitStreamError (List HPageOffsetEntry × BitStream)
  | [], r => .ok ([], r)
  | entry :: entries, r => do
    let (values, r) ← readMany width entry.nsharedObjects r
    let (entries, r) ← readNested width set entries r
    return (set entry values :: entries, r)

def readNestedColumn (width : ℕ) (set : HPageOffsetEntry → List ℕ → HPageOffsetEntry)
    (entries : List HPageOffsetEntry) (r : BitStream) :
    Except BitStreamError (List HPageOffsetEntry × BitStream) := do
  let (entries, r) ← readNested width set entries r
  let r ← r.skipToNextByte
  return (entries, r)

/-- The columns of `read_h_page_offset`. -/
def readPageEntries (h : HPageOffset) (npages : ℕ) (r : BitStream) :
    Except BitStreamError (List HPageOffsetEntry) := do
  let entries := List.replicate npages {}
  let (entries, r) ← readColumn h.nbitsDeltaNobjects
    (fun entry value => { entry with deltaNobjects := value }) entries r
  let (entries, r) ← readColumn h.nbitsDeltaPageLength
    (fun entry value => { entry with deltaPageLength := value }) entries r
  let (entries, r) ← readColumn h.nbitsNsharedObjects
    (fun entry value => { entry with nsharedObjects := value }) entries r
  let (entries, r) ← readNestedColumn h.nbitsSharedIdentifier
    (fun entry values => { entry with sharedIdentifiers := values }) entries r
  let (entries, r) ← readNestedColumn h.nbitsSharedNumerator
    (fun entry values => { entry with sharedNumerators := values }) entries r
  let (entries, r) ← readColumn h.nbitsDeltaContentOffset
    (fun entry value => { entry with deltaContentOffset := value }) entries r
  let (entries, _) ← readColumn h.nbitsDeltaContentLength
    (fun entry value => { entry with deltaContentLength := value }) entries r
  return entries

def readPageHeader (r : BitStream) : Except BitStreamError (HPageOffset × BitStream) := do
  let (minNobjects, r) ← getU32 r 32
  let (firstPageOffset, r) ← getU32 r 32
  let (nbitsDeltaNobjects, r) ← getU32 r 16
  let (minPageLength, r) ← getU32 r 32
  let (nbitsDeltaPageLength, r) ← getU32 r 16
  let (minContentOffset, r) ← getU32 r 32
  let (nbitsDeltaContentOffset, r) ← getU32 r 16
  let (minContentLength, r) ← getU32 r 32
  let (nbitsDeltaContentLength, r) ← getU32 r 16
  let (nbitsNsharedObjects, r) ← getU32 r 16
  let (nbitsSharedIdentifier, r) ← getU32 r 16
  let (nbitsSharedNumerator, r) ← getU32 r 16
  let (sharedDenominator, r) ← getU32 r 16
  return (⟨minNobjects, firstPageOffset, nbitsDeltaNobjects, minPageLength, nbitsDeltaPageLength,
    minContentOffset, nbitsDeltaContentOffset, minContentLength, nbitsDeltaContentLength,
    nbitsNsharedObjects, nbitsSharedIdentifier, nbitsSharedNumerator, sharedDenominator, []⟩, r)

/-- The text of a malformed table. -/
def malformed {α : Type} (outcome : Except BitStreamError α) : Except Bytes α :=
  outcome.mapError BitStreamError.message

def readHPageOffset (buf : Bytes) (npages : ℕ) : Except Bytes HPageOffset :=
  malformed do
    let (h, r) ← readPageHeader (.new buf)
    let entries ← readPageEntries h npages r
    return { h with entries := entries }

/-- The signatures behind their flags, 128 bits each. -/
def skipSignatures : List HSharedObjectEntry → BitStream → Except BitStreamError BitStream
  | [], r => .ok r
  | entry :: entries, r =>
    if entry.signaturePresent then do
      let (_, r) ← r.getBits 32
      let (_, r) ← r.getBits 32
      let (_, r) ← r.getBits 32
      let (_, r) ← r.getBits 32
      skipSignatures entries r
    else skipSignatures entries r

/-- The columns of `read_h_shared_object`. -/
def readSharedEntries (h : HSharedObject) (r : BitStream) :
    Except BitStreamError (List HSharedObjectEntry) := do
  let entries := List.replicate h.nsharedTotal {}
  let (entries, r) ← readColumn h.nbitsDeltaGroupLength
    (fun entry value => { entry with deltaGroupLength := value }) entries r
  let (entries, r) ← readColumn 1
    (fun entry value => { entry with signaturePresent := value != 0 }) entries r
  let r ← skipSignatures entries r
  let (entries, _) ← readColumn h.nbitsNobjects
    (fun entry value => { entry with nobjectsMinusOne := value }) entries r
  return entries

def readSharedHeader (r : BitStream) : Except BitStreamError (HSharedObject × BitStream) := do
  let (firstSharedObj, r) ← getU32 r 32
  let (firstSharedOffset, r) ← getU32 r 32
  let (nsharedFirstPage, r) ← getU32 r 32
  let (nsharedTotal, r) ← getU32 r 32
  let (nbitsNobjects, r) ← getU32 r 16
  let (minGroupLength, r) ← getU32 r 32
  let (nbitsDeltaGroupLength, r) ← getU32 r 16
  return (⟨firstSharedObj, firstSharedOffset, nsharedFirstPage, nsharedTotal, nbitsNobjects,
    minGroupLength, nbitsDeltaGroupLength, []⟩, r)

def readHSharedObject (buf : Bytes) : Except Bytes HSharedObject :=
  malformed do
    let (h, r) ← readSharedHeader (.new buf)
    let entries ← readSharedEntries h r
    return { h with entries := entries }

def readHGeneric (buf : Bytes) : Except Bytes HGeneric :=
  malformed do
    let r := BitStream.new buf
    let (firstObject, r) ← getU32 r 32
    let (firstObjectOffset, r) ← getU32 r 32
    let (nobjects, r) ← getU32 r 32
    let (groupLength, _) ← getU32 r 32
    return ⟨firstObject, firstObjectOffset, nobjects, groupLength⟩

end HintReader

end Flpdf
