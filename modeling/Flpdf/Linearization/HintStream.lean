import Flpdf.Bits.BitWriter

/-!
# The hint stream encoder

The page offset, shared object and outline hint tables and their bit-packed
form, column by column. The writers add to the bytes that have been counted so
far, so a section's offset is the length of what stands before it.
-/

namespace Flpdf

structure PageOffsetHeader where
  leastObjectCount : ℕ
  locationOfFirstPage : ℕ
  bitsObjectCountDelta : ℕ
  leastPageLength : ℕ
  bitsPageLengthDelta : ℕ
  leastContentOffset : ℕ
  bitsContentOffsetDelta : ℕ
  leastContentLength : ℕ
  bitsContentLengthDelta : ℕ
  bitsSharedObjectCount : ℕ
  bitsSharedObjectId : ℕ
  bitsNumerator : ℕ
  denominator : ℕ
  deriving DecidableEq, Repr

structure PageOffsetEntry where
  objectCountMinusLeast : ℕ
  pageLengthMinusLeast : ℕ
  sharedObjectCount : ℕ
  sharedObjectIds : List ℕ
  sharedObjectNumerators : List ℕ
  contentStreamOffset : ℕ
  contentStreamLength : ℕ
  deriving DecidableEq, Repr

structure PageOffsetHintTable where
  header : PageOffsetHeader
  entries : List PageOffsetEntry
  deriving DecidableEq, Repr

structure SharedObjectHeader where
  firstObjectNumber : ℕ
  location : ℕ
  firstPageEntries : ℕ
  sectionEntries : ℕ
  bitsGroupObjectCount : ℕ
  leastLength : ℕ
  bitsLengthDelta : ℕ
  deriving DecidableEq, Repr

structure SharedObjectEntry where
  lengthMinusLeast : ℕ
  signaturePresent : Bool
  nobjectsMinusOne : ℕ
  deriving DecidableEq, Repr

structure SharedObjectHintTable where
  header : SharedObjectHeader
  objects : List SharedObjectEntry
  deriving DecidableEq, Repr

structure OutlineHintTable where
  firstObject : ℕ
  firstObjectOffset : ℕ
  nobjects : ℕ
  groupLength : ℕ
  deriving DecidableEq, Repr

inductive HintStreamError where
  | unsupported (message : Bytes)
  | pipeline (message : Bytes)
  | damagedPdf (message : Bytes)
  deriving DecidableEq, Repr

namespace HintStream

/-- A write into the pipeline. -/
def piped (written : Except Bytes BitWriter) : Except HintStreamError BitWriter :=
  written.mapError .pipeline

/-- A header item: its value, the width of its slot and its name. -/
structure HeaderItem where
  value : ℕ
  slotBits : ℕ
  fieldName : Bytes
  deriving DecidableEq, Repr

def writeBitsChecked (w : BitWriter) (item : HeaderItem) : Except HintStreamError BitWriter :=
  let max := if item.slotBits ≥ 64 then 2 ^ 64 - 1 else 2 ^ item.slotBits - 1
  if item.value > max then
    .error (.unsupported (ascii "hint stream: " ++ item.fieldName ++
      ascii s!" value {item.value} does not fit in {item.slotBits}-bit Annex F slot (max {max}) " ++
      [0xe2, 0x80, 0x94] ++ ascii " file likely exceeds 4 GiB or has a malformed plan"))
  else piped (w.writeBits item.value item.slotBits)

def pageOffsetItems (h : PageOffsetHeader) : List HeaderItem :=
  [⟨h.leastObjectCount, 32, ascii "least_object_count"⟩,
    ⟨h.locationOfFirstPage, 32, ascii "location_of_first_page"⟩,
    ⟨h.bitsObjectCountDelta, 16, ascii "bits_object_count_delta"⟩,
    ⟨h.leastPageLength, 32, ascii "least_page_length"⟩,
    ⟨h.bitsPageLengthDelta, 16, ascii "bits_page_length_delta"⟩,
    ⟨h.leastContentOffset, 32, ascii "least_content_offset"⟩,
    ⟨h.bitsContentOffsetDelta, 16, ascii "bits_content_offset_delta"⟩,
    ⟨h.leastContentLength, 32, ascii "least_content_length"⟩,
    ⟨h.bitsContentLengthDelta, 16, ascii "bits_content_length_delta"⟩,
    ⟨h.bitsSharedObjectCount, 16, ascii "bits_shared_object_count"⟩,
    ⟨h.bitsSharedObjectId, 16, ascii "bits_shared_object_id"⟩,
    ⟨h.bitsNumerator, 16, ascii "bits_numerator"⟩,
    ⟨h.denominator, 16, ascii "denominator"⟩]

def encodePageOffsetHeader (w : BitWriter) (t : PageOffsetHintTable) :
    Except HintStreamError BitWriter :=
  (pageOffsetItems t.header).foldlM writeBitsChecked w

/-- A column of values with one width, up to the next whole octet. -/
def writeColumn (w : BitWriter) (width : ℕ) (values : List ℕ) : Except HintStreamError BitWriter := do
  let w ← piped (values.foldlM (fun w value => w.writeBits value width) w)
  piped w.flush

def encodePageOffsetEntries (w : BitWriter) (t : PageOffsetHintTable) :
    Except HintStreamError BitWriter := do
  let h := t.header
  let w ← writeColumn w h.bitsObjectCountDelta (t.entries.map (·.objectCountMinusLeast))
  let w ← writeColumn w h.bitsPageLengthDelta (t.entries.map (·.pageLengthMinusLeast))
  let w ← writeColumn w h.bitsSharedObjectCount (t.entries.map (·.sharedObjectCount))
  let w ← writeColumn w h.bitsSharedObjectId (t.entries.flatMap (·.sharedObjectIds))
  let w ← writeColumn w h.bitsNumerator (t.entries.flatMap (·.sharedObjectNumerators))
  let w ← writeColumn w h.bitsContentOffsetDelta (t.entries.map (·.contentStreamOffset))
  writeColumn w h.bitsContentLengthDelta (t.entries.map (·.contentStreamLength))

def sharedObjectItems (h : SharedObjectHeader) : List HeaderItem :=
  [⟨h.firstObjectNumber, 32, ascii "shared.first_object_number"⟩,
    ⟨h.location, 32, ascii "shared.location"⟩,
    ⟨h.firstPageEntries, 32, ascii "shared.first_page_entries"⟩,
    ⟨h.sectionEntries, 32, ascii "shared.section_entries"⟩,
    ⟨h.bitsGroupObjectCount, 16, ascii "shared.bits_group_object_count"⟩,
    ⟨h.leastLength, 32, ascii "shared.least_length"⟩,
    ⟨h.bitsLengthDelta, 16, ascii "shared.bits_length_delta"⟩]

def encodeSharedObjectHeader (w : BitWriter) (t : SharedObjectHintTable) :
    Except HintStreamError BitWriter :=
  (sharedObjectItems t.header).foldlM writeBitsChecked w

/-- The column of the signature flags is written before a set flag is refused. -/
def encodeSharedObjectEntries (w : BitWriter) (t : SharedObjectHintTable) :
    Except HintStreamError BitWriter := do
  let h := t.header
  let w ← writeColumn w h.bitsLengthDelta (t.objects.map (·.lengthMinusLeast))
  let w ← writeColumn w 1 (t.objects.map fun entry => if entry.signaturePresent then 1 else 0)
  if t.objects.any (·.signaturePresent) then
    .error (.damagedPdf
      (ascii "found unexpected signature present while writing linearization data"))
  else writeColumn w h.bitsGroupObjectCount (t.objects.map (·.nobjectsMinusOne))

def encodePageSection (w : BitWriter) (t : PageOffsetHintTable) : Except HintStreamError BitWriter := do
  let w ← encodePageOffsetHeader w t
  let w ← piped w.flush
  let w ← encodePageOffsetEntries w t
  piped w.flush

def encodeSharedSection (w : BitWriter) (t : SharedObjectHintTable) :
    Except HintStreamError BitWriter := do
  let w ← encodeSharedObjectHeader w t
  let w ← piped w.flush
  let w ← encodeSharedObjectEntries w t
  piped w.flush

def encodeOutlineSection (w : BitWriter) (t : OutlineHintTable) : Except HintStreamError BitWriter :=
  piped do
    let w ← w.writeBits t.firstObject 32
    let w ← w.writeBits t.firstObjectOffset 32
    let w ← w.writeBits t.nobjects 32
    let w ← w.writeBits t.groupLength 32
    w.flush

/-- `encode_hint_sections_into`: the offsets of the second and third section, and
what has been counted in the end. -/
def encodeHintSectionsInto (count : Bytes) (pageOffset : PageOffsetHintTable)
    (sharedObject : SharedObjectHintTable) (outline : Option OutlineHintTable) :
    Except HintStreamError (ℕ × Option ℕ × Bytes) := do
  let w ← encodePageSection { out := count } pageOffset
  let w ← piped w.flush
  let sharedSectionOffset := w.out.length
  let w ← encodeSharedSection { out := w.out } sharedObject
  let w ← piped w.flush
  match outline with
  | some outline =>
    let offset := w.out.length
    let w ← encodeOutlineSection { out := w.out } outline
    let w ← piped w.flush
    return (sharedSectionOffset, some offset, w.out)
  | none => return (sharedSectionOffset, none, w.out)

end HintStream

end Flpdf
