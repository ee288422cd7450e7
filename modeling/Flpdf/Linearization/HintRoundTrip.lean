import Flpdf.Linearization.HintReader
import Flpdf.Linearization.HintStream

/-!
# Hint tables survive the hint stream

The bits that each section adds, and that the readers find the tables in them.
Every column stands in whole octets of its own.
-/

namespace Flpdf

open Bits

/-! ## Writing -/

namespace HintStream

/-- The writer stands at the beginning of an octet. -/
structure Full (w : BitWriter) : Prop where
  wellFormed : w.WellFormed
  offset : w.bitOffset = 7

variable {w : BitWriter} {width : ℕ} {values : List ℕ}

/-- The bits of some values, each with its width. -/
def columnBits (width : ℕ) (values : List ℕ) : List Bool := values.flatMap (toBits width)

def itemBits (items : List HeaderItem) : List Bool :=
  items.flatMap fun item => toBits item.slotBits item.value

theorem full_new (out : Bytes) : Full { out := out } := ⟨BitWriter.wellFormed_new out, rfl⟩

theorem Full.bits (h : Full w) : w.bits = bytesBits w.out := BitWriter.bits_of_full h.offset

/-- At the beginning of an octet there is nothing to fill up. -/
theorem Full.flush (h : Full w) : w.flush = .ok w := by
  rw [BitWriter.flush, h.offset]
  exact if_neg (Nat.lt_irrefl 7)

theorem writeValues_ok (h : w.WellFormed) (hwidth : width ≤ 32) (values : List ℕ) :
    ∃ w', values.foldlM (fun w value => w.writeBits value width) w = .ok w' ∧ w'.WellFormed ∧
      w'.bits = w.bits ++ columnBits width values := by
  induction values generalizing w with
  | nil => exact ⟨w, rfl, h, (List.append_nil _).symm⟩
  | cons value values ih =>
    obtain ⟨w₁, hwrite, hwell, hbits⟩ := h.writeBits hwidth value
    obtain ⟨w₂, hfold, hwell₂, hbits₂⟩ := ih hwell
    refine ⟨w₂, ?_, hwell₂, ?_⟩
    · rw [List.foldlM_cons, hwrite]
      exact hfold
    · rw [hbits₂, hbits, columnBits, columnBits, List.flatMap_cons, List.append_assoc]

theorem padded_append {bits bits' : List Bool} (h : bits.length % 8 = 0) :
    padded (bits ++ bits') = bits ++ padded bits' := by
  have hmod : (bits.length + bits'.length) % 8 = bits'.length % 8 := by omega
  rw [padded, padded, padding, padding, List.length_append, hmod, List.append_assoc]

/-- A column adds its bits in whole octets. -/
theorem Full.writeColumn (h : Full w) (hwidth : width ≤ 32) (values : List ℕ) :
    ∃ w', writeColumn w width values = .ok w' ∧ Full w' ∧
      bytesBits w'.out = bytesBits w.out ++ padded (columnBits width values) := by
  obtain ⟨w₁, hfold, hwell, hbits⟩ := writeValues_ok h.wellFormed hwidth values
  obtain ⟨w₂, hflush, hwell₂, hbits₂, hoffset⟩ := hwell.flush
  refine ⟨w₂, ?_, ⟨hwell₂, hoffset⟩, ?_⟩
  · rw [HintStream.writeColumn, hfold]
    show piped w₁.flush = _
    rw [hflush]
    rfl
  · rw [← BitWriter.bits_of_full hoffset, hbits₂, hbits, h.bits, padded_append]
    rw [bytesBits_length]
    exact Nat.mul_mod_right 8 _

/-- An item fits in its slot. -/
def HeaderItem.Fits (item : HeaderItem) : Prop := item.slotBits ≤ 32 ∧ item.value < 2 ^ item.slotBits

theorem writeBitsChecked_ok (h : w.WellFormed) {item : HeaderItem} (hfits : item.Fits) :
    ∃ w', writeBitsChecked w item = .ok w' ∧ w'.WellFormed ∧
      w'.bits = w.bits ++ toBits item.slotBits item.value := by
  obtain ⟨w', hwrite, hwell, hbits⟩ := h.writeBits hfits.1 item.value
  have hslot : ¬item.slotBits ≥ 64 := by
    have hle := hfits.1
    omega
  have hvalue : ¬item.value > 2 ^ item.slotBits - 1 := by
    have hlt := hfits.2
    omega
  refine ⟨w', ?_, hwell, hbits⟩
  rw [writeBitsChecked, if_neg hslot, if_neg hvalue, hwrite]
  rfl

theorem writeItems_ok (h : w.WellFormed) {items : List HeaderItem} (hfits : ∀ item ∈ items, item.Fits) :
    ∃ w', items.foldlM writeBitsChecked w = .ok w' ∧ w'.WellFormed ∧
      w'.bits = w.bits ++ itemBits items := by
  induction items generalizing w with
  | nil => exact ⟨w, rfl, h, (List.append_nil _).symm⟩
  | cons item items ih =>
    obtain ⟨w₁, hwrite, hwell, hbits⟩ := writeBitsChecked_ok h (hfits item List.mem_cons_self)
    obtain ⟨w₂, hfold, hwell₂, hbits₂⟩ := ih hwell fun item hitem =>
      hfits item (List.mem_cons_of_mem _ hitem)
    refine ⟨w₂, ?_, hwell₂, ?_⟩
    · rw [List.foldlM_cons, hwrite]
      exact hfold
    · rw [hbits₂, hbits, itemBits, itemBits, List.flatMap_cons, List.append_assoc]

/-- A header of whole octets is followed by nothing to fill up. -/
theorem Full.writeHeader (h : Full w) {items : List HeaderItem} (hfits : ∀ item ∈ items, item.Fits)
    (hlength : (itemBits items).length % 8 = 0) :
    ∃ w', items.foldlM writeBitsChecked w = .ok w' ∧ Full w' ∧
      bytesBits w'.out = bytesBits w.out ++ itemBits items := by
  obtain ⟨w', hfold, hwell, hbits⟩ := writeItems_ok h.wellFormed hfits
  have hmod := hwell.length_mod
  have hoffset := hwell.offset
  rw [hbits, h.bits, List.length_append, bytesBits_length] at hmod
  have hfull : w'.bitOffset = 7 := by omega
  refine ⟨w', hfold, ⟨hwell, hfull⟩, ?_⟩
  rw [← BitWriter.bits_of_full hfull, hbits, h.bits]

/-! ### Tables that fit -/

/-- The columns of the page offset table: their widths and their values. -/
def pageColumns (t : PageOffsetHintTable) : List (ℕ × List ℕ) :=
  [(t.header.bitsObjectCountDelta, t.entries.map (·.objectCountMinusLeast)),
    (t.header.bitsPageLengthDelta, t.entries.map (·.pageLengthMinusLeast)),
    (t.header.bitsSharedObjectCount, t.entries.map (·.sharedObjectCount)),
    (t.header.bitsSharedObjectId, t.entries.flatMap (·.sharedObjectIds)),
    (t.header.bitsNumerator, t.entries.flatMap (·.sharedObjectNumerators)),
    (t.header.bitsContentOffsetDelta, t.entries.map (·.contentStreamOffset)),
    (t.header.bitsContentLengthDelta, t.entries.map (·.contentStreamLength))]

def sharedColumns (t : SharedObjectHintTable) : List (ℕ × List ℕ) :=
  [(t.header.bitsLengthDelta, t.objects.map (·.lengthMinusLeast)),
    (1, t.objects.map fun entry => if entry.signaturePresent then 1 else 0),
    (t.header.bitsGroupObjectCount, t.objects.map (·.nobjectsMinusOne))]

def outlineValues (t : OutlineHintTable) : List ℕ :=
  [t.firstObject, t.firstObjectOffset, t.nobjects, t.groupLength]

/-- A column has a width that can be written, and values that fit it. -/
def ColumnFits (column : ℕ × List ℕ) : Prop :=
  column.1 ≤ 32 ∧ ∀ value ∈ column.2, value < 2 ^ column.1

def columnsBits (columns : List (ℕ × List ℕ)) : List Bool :=
  columns.flatMap fun column => padded (columnBits column.1 column.2)

/-- The bits of the three sections. -/
def pageBits (t : PageOffsetHintTable) : List Bool :=
  itemBits (pageOffsetItems t.header) ++ columnsBits (pageColumns t)

def sharedBits (t : SharedObjectHintTable) : List Bool :=
  itemBits (sharedObjectItems t.header) ++ columnsBits (sharedColumns t)

def outlineBits (t : OutlineHintTable) : List Bool := columnBits 32 (outlineValues t)

theorem pageItems_length (h : PageOffsetHeader) : (itemBits (pageOffsetItems h)).length = 288 := by
  simp [itemBits, pageOffsetItems]

theorem sharedItems_length (h : SharedObjectHeader) : (itemBits (sharedObjectItems h)).length = 192 := by
  simp [itemBits, sharedObjectItems]

theorem pageItems_slotBits (h : PageOffsetHeader) : ∀ item ∈ pageOffsetItems h, item.slotBits ≤ 32 := by
  simp [pageOffsetItems]

theorem sharedItems_slotBits (h : SharedObjectHeader) :
    ∀ item ∈ sharedObjectItems h, item.slotBits ≤ 32 := by
  simp [sharedObjectItems]

end HintStream

open HintStream

/-- Every header value fits its slot, every width can be written, every entry
value fits its width, and the counts are the lengths of the lists. -/
structure PageOffsetHintTable.Fits (t : PageOffsetHintTable) : Prop where
  header : ∀ item ∈ pageOffsetItems t.header, item.value < 2 ^ item.slotBits
  columns : ∀ column ∈ pageColumns t, ColumnFits column
  ids : ∀ entry ∈ t.entries, entry.sharedObjectIds.length = entry.sharedObjectCount
  numerators : ∀ entry ∈ t.entries, entry.sharedObjectNumerators.length = entry.sharedObjectCount

structure SharedObjectHintTable.Fits (t : SharedObjectHintTable) : Prop where
  header : ∀ item ∈ sharedObjectItems t.header, item.value < 2 ^ item.slotBits
  columns : ∀ column ∈ sharedColumns t, ColumnFits column
  entries : t.objects.length = t.header.sectionEntries
  signatures : ∀ entry ∈ t.objects, entry.signaturePresent = false

def OutlineHintTable.Fits (t : OutlineHintTable) : Prop := ∀ value ∈ outlineValues t, value < 2 ^ 32

namespace HintStream

variable {w : BitWriter}

theorem encodePageSection_ok {t : PageOffsetHintTable} (ht : t.Fits) (h : Full w) :
    ∃ w', encodePageSection w t = .ok w' ∧ Full w' ∧
      bytesBits w'.out = bytesBits w.out ++ pageBits t := by
  have hitems : ∀ item ∈ pageOffsetItems t.header, item.Fits := fun item hitem =>
    ⟨pageItems_slotBits _ item hitem, ht.header item hitem⟩
  have hwidth : ∀ column ∈ pageColumns t, column.1 ≤ 32 := fun column hcolumn =>
    (ht.columns column hcolumn).1
  simp only [pageColumns, List.forall_mem_cons] at hwidth
  obtain ⟨h1, h2, h3, h4, h5, h6, h7, -⟩ := hwidth
  obtain ⟨w0, hheader, full0, hbits0⟩ := h.writeHeader hitems (by rw [pageItems_length])
  obtain ⟨w1, hcolumn1, full1, hbits1⟩ := full0.writeColumn h1 (t.entries.map (·.objectCountMinusLeast))
  obtain ⟨w2, hcolumn2, full2, hbits2⟩ := full1.writeColumn h2 (t.entries.map (·.pageLengthMinusLeast))
  obtain ⟨w3, hcolumn3, full3, hbits3⟩ := full2.writeColumn h3 (t.entries.map (·.sharedObjectCount))
  obtain ⟨w4, hcolumn4, full4, hbits4⟩ := full3.writeColumn h4 (t.entries.flatMap (·.sharedObjectIds))
  obtain ⟨w5, hcolumn5, full5, hbits5⟩ :=
    full4.writeColumn h5 (t.entries.flatMap (·.sharedObjectNumerators))
  obtain ⟨w6, hcolumn6, full6, hbits6⟩ := full5.writeColumn h6 (t.entries.map (·.contentStreamOffset))
  obtain ⟨w7, hcolumn7, full7, hbits7⟩ := full6.writeColumn h7 (t.entries.map (·.contentStreamLength))
  refine ⟨w7, ?_, full7, ?_⟩
  · simp only [encodePageSection, encodePageOffsetHeader, hheader, full0.flush, piped, Except.mapError,
      encodePageOffsetEntries, hcolumn1, hcolumn2, hcolumn3, hcolumn4, hcolumn5, hcolumn6, hcolumn7,
      full7.flush, bind, Except.bind]
  · rw [hbits7, hbits6, hbits5, hbits4, hbits3, hbits2, hbits1, hbits0, pageBits, columnsBits]
    simp only [pageColumns, List.flatMap_cons, List.flatMap_nil, List.append_nil, List.append_assoc]

theorem encodeSharedSection_ok {t : SharedObjectHintTable} (ht : t.Fits) (h : Full w) :
    ∃ w', encodeSharedSection w t = .ok w' ∧ Full w' ∧
      bytesBits w'.out = bytesBits w.out ++ sharedBits t := by
  have hitems : ∀ item ∈ sharedObjectItems t.header, item.Fits := fun item hitem =>
    ⟨sharedItems_slotBits _ item hitem, ht.header item hitem⟩
  have hwidth : ∀ column ∈ sharedColumns t, column.1 ≤ 32 := fun column hcolumn =>
    (ht.columns column hcolumn).1
  simp only [sharedColumns, List.forall_mem_cons] at hwidth
  obtain ⟨h1, h2, h3, -⟩ := hwidth
  have hunsigned : t.objects.any (·.signaturePresent) = false := by
    rw [List.any_eq_false]
    intro entry hentry
    rw [ht.signatures entry hentry]
    exact Bool.false_ne_true
  obtain ⟨w0, hheader, full0, hbits0⟩ := h.writeHeader hitems (by rw [sharedItems_length])
  obtain ⟨w1, hcolumn1, full1, hbits1⟩ := full0.writeColumn h1 (t.objects.map (·.lengthMinusLeast))
  obtain ⟨w2, hcolumn2, full2, hbits2⟩ :=
    full1.writeColumn h2 (t.objects.map fun entry => if entry.signaturePresent then 1 else 0)
  obtain ⟨w3, hcolumn3, full3, hbits3⟩ := full2.writeColumn h3 (t.objects.map (·.nobjectsMinusOne))
  refine ⟨w3, ?_, full3, ?_⟩
  · simp only [encodeSharedSection, encodeSharedObjectHeader, hheader, full0.flush, piped,
      Except.mapError, encodeSharedObjectEntries, hcolumn1, hcolumn2, hcolumn3, hunsigned, full3.flush,
      bind, Except.bind, Bool.false_eq_true, if_false]
  · rw [hbits3, hbits2, hbits1, hbits0, sharedBits, columnsBits]
    simp only [sharedColumns, List.flatMap_cons, List.flatMap_nil, List.append_nil, List.append_assoc]

theorem encodeOutlineSection_ok (h : Full w) (t : OutlineHintTable) :
    ∃ w', encodeOutlineSection w t = .ok w' ∧ Full w' ∧
      bytesBits w'.out = bytesBits w.out ++ outlineBits t := by
  obtain ⟨w₁, hfold, hwell, hbits⟩ :=
    writeValues_ok h.wellFormed (Nat.le_refl 32) (outlineValues t)
  obtain ⟨w₂, hflush, hwell₂, hbits₂, hoffset⟩ := hwell.flush
  have hwhole : (columnBits 32 (outlineValues t)).length % 8 = 0 := by
    simp [columnBits, outlineValues]
  have hsection : encodeOutlineSection w t = piped
      ((outlineValues t).foldlM (fun w value => w.writeBits value 32) w >>= BitWriter.flush) := by
    simp only [encodeOutlineSection, outlineValues, List.foldlM_cons, List.foldlM_nil, bind_assoc,
      pure_bind]
  refine ⟨w₂, ?_, ⟨hwell₂, hoffset⟩, ?_⟩
  · rw [hsection, hfold]
    show piped w₁.flush = _
    rw [hflush]
    rfl
  · rw [← BitWriter.bits_of_full hoffset, hbits₂, hbits, h.bits, padded_append, padded_of_dvd hwhole]
    · rfl
    · rw [bytesBits_length]
      exact Nat.mul_mod_right 8 _

end HintStream

/-! ## Reading -/

namespace HintReader

open BitStream (asI32 asU32)

/-- The reader has these bits before it. -/
structure Before (r : BitStream) (bits : List Bool) : Prop where
  wellFormed : r.WellFormed
  rest : r.rest = bits

variable {r : BitStream} {width count value : ℕ} {tail : List Bool}

theorem before_new {data : Bytes} {bits : List Bool} (h : bytesBits data = bits) :
    Before (.new data) bits :=
  ⟨BitStream.wellFormed_new data, h⟩

theorem asU32_asI32 (h : value < 2 ^ 32) : asU32 (asI32 value) = value := by
  rw [asI32, asU32, Nat.mod_eq_of_lt h]
  split_ifs <;> omega

theorem getU32_ok (hwidth : width ≤ 32) (hvalue : value < 2 ^ width)
    (h : Before r (toBits width value ++ tail)) :
    ∃ r', getU32 r width = .ok (value, r') ∧ Before r' tail := by
  obtain ⟨r', hbits, hwell, hrest⟩ := h.wellFormed.getBits hwidth hvalue h.rest
  refine ⟨r', ?_, ⟨hwell, hrest⟩⟩
  rw [getU32, BitStream.getBitsI32, hbits]
  show Except.ok (asU32 (asI32 value), r') = _
  rw [asU32_asI32 (hvalue.trans_le (Nat.pow_le_pow_right (by decide) hwidth))]

/-- Alignment skips what fills up an octet. -/
theorem skipToNextByte_ok {pad : List Bool} (h : Before r (pad ++ tail)) (hpad : pad.length < 8)
    (htail : tail.length % 8 = 0) :
    ∃ r', r.skipToNextByte = .ok r' ∧ Before r' tail := by
  have hoffset := h.wellFormed.offset
  have havailable := h.wellFormed.available
  have hlength := h.wellFormed.rest_length
  rw [h.rest, List.length_append] at hlength
  rw [BitStream.position] at havailable
  rw [BitStream.skipToNextByte]
  by_cases hfull : r.bitOffset = 7
  · have hnil : pad = [] := by
      rw [← List.length_eq_zero_iff]
      omega
    rw [if_neg (not_not_intro hfull)]
    refine ⟨r, rfl, h.wellFormed, ?_⟩
    rw [h.rest, hnil, List.nil_append]
  · have hskip : pad.length = r.bitOffset + 1 := by omega
    rw [if_pos hfull, if_neg (by omega)]
    refine ⟨_, rfl, ⟨Nat.le_refl 7, ?_⟩, ?_⟩
    · show 8 * (r.bytePosition + 1) + (7 - 7) + (r.bitsAvailable - (r.bitOffset + 1)) =
        8 * r.data.length
      omega
    · have hposition : 8 * (r.bytePosition + 1) + (7 - 7) = r.position + (r.bitOffset + 1) := by
        rw [BitStream.position]
        omega
      have hrest := h.rest
      rw [BitStream.rest] at hrest
      show (bytesBits r.data).drop (8 * (r.bytePosition + 1) + (7 - 7)) = tail
      rw [hposition, ← List.drop_drop, hrest, List.drop_left' hskip]

variable {α β : Type} {set : α → ℕ → α} {items : List β}

/-- The values of a column go to the entries in their order. -/
theorem readValues_ok (hwidth : width ≤ 32) (f : β → α) (g : β → ℕ)
    (hfits : ∀ item ∈ items, g item < 2 ^ width)
    (h : Before r (columnBits width (items.map g) ++ tail)) :
    ∃ r', readValues width set (items.map f) r =
      .ok (items.map fun item => set (f item) (g item), r') ∧ Before r' tail := by
  induction items generalizing r with
  | nil => exact ⟨r, rfl, h⟩
  | cons item items ih =>
    rw [List.map_cons, columnBits, List.flatMap_cons, List.append_assoc] at h
    obtain ⟨r₁, hget, h₁⟩ := getU32_ok hwidth (hfits item List.mem_cons_self) h
    obtain ⟨r₂, hread, h₂⟩ := ih (fun item hitem => hfits item (List.mem_cons_of_mem _ hitem)) h₁
    refine ⟨r₂, ?_, h₂⟩
    rw [List.map_cons, readValues, hget]
    show (readValues width set (items.map f) r₁).bind _ = _
    rw [hread]
    rfl

theorem padding_length_lt (n : ℕ) : (padding n).length < 8 := by
  rw [padding, List.length_replicate]
  exact Nat.mod_lt _ (by decide)

/-- A column of the values `g` takes the entries from `f` to `f'`. -/
theorem readColumn_ok (set : α → ℕ → α) (f f' : β → α) (g : β → ℕ) (hset : ∀ item, set (f item) (g item) = f' item)
    (hfits : ColumnFits (width, items.map g)) (htail : tail.length % 8 = 0)
    (h : Before r (padded (columnBits width (items.map g)) ++ tail)) :
    ∃ r', readColumn width set (items.map f) r = .ok (items.map f', r') ∧ Before r' tail := by
  obtain ⟨hwidth, hlt⟩ := hfits
  rw [List.forall_mem_map] at hlt
  rw [padded, List.append_assoc] at h
  obtain ⟨r₁, hread, h₁⟩ := readValues_ok hwidth f g hlt h
  obtain ⟨r₂, hskip, h₂⟩ := skipToNextByte_ok h₁ (padding_length_lt _) htail
  refine ⟨r₂, ?_, h₂⟩
  rw [funext hset] at hread
  rw [readColumn, hread]
  show (r₁.skipToNextByte).bind _ = _
  rw [hskip]
  rfl

theorem readMany_ok (hwidth : width ≤ 32) {values : List ℕ}
    (hfits : ∀ value ∈ values, value < 2 ^ width)
    (h : Before r (columnBits width values ++ tail)) :
    ∃ r', readMany width values.length r = .ok (values, r') ∧ Before r' tail := by
  induction values generalizing r with
  | nil => exact ⟨r, rfl, h⟩
  | cons value values ih =>
    rw [columnBits, List.flatMap_cons, List.append_assoc] at h
    obtain ⟨r₁, hget, h₁⟩ := getU32_ok hwidth (hfits value List.mem_cons_self) h
    obtain ⟨r₂, hread, h₂⟩ := ih (fun value hvalue => hfits value (List.mem_cons_of_mem _ hvalue)) h₁
    refine ⟨r₂, ?_, h₂⟩
    rw [List.length_cons, readMany, hget]
    show (readMany width values.length r₁).bind _ = _
    rw [hread]
    rfl

variable {put : HPageOffsetEntry → List ℕ → HPageOffsetEntry}

/-- A nested column takes as many values as the entry has counted. -/
theorem readNested_ok (hwidth : width ≤ 32) (f : β → HPageOffsetEntry) (g : β → List ℕ)
    (hfits : ∀ value ∈ items.flatMap g, value < 2 ^ width)
    (hcount : ∀ item ∈ items, (g item).length = (f item).nsharedObjects)
    (h : Before r (columnBits width (items.flatMap g) ++ tail)) :
    ∃ r', readNested width put (items.map f) r =
      .ok (items.map fun item => put (f item) (g item), r') ∧ Before r' tail := by
  induction items generalizing r with
  | nil => exact ⟨r, rfl, h⟩
  | cons item items ih =>
    rw [List.flatMap_cons] at h hfits
    rw [columnBits, List.flatMap_append, List.append_assoc] at h
    obtain ⟨r₁, hmany, h₁⟩ := readMany_ok hwidth
      (fun value hvalue => hfits value (List.mem_append_left _ hvalue)) h
    obtain ⟨r₂, hread, h₂⟩ := ih (fun value hvalue => hfits value (List.mem_append_right _ hvalue))
      (fun item hitem => hcount item (List.mem_cons_of_mem _ hitem)) h₁
    refine ⟨r₂, ?_, h₂⟩
    rw [List.map_cons, readNested, ← hcount item List.mem_cons_self, hmany]
    show (readNested width put (items.map f) r₁).bind _ = _
    rw [hread]
    rfl

theorem readNestedColumn_ok (put : HPageOffsetEntry → List ℕ → HPageOffsetEntry)
    (f f' : β → HPageOffsetEntry) (g : β → List ℕ)
    (hput : ∀ item, put (f item) (g item) = f' item) (hfits : ColumnFits (width, items.flatMap g))
    (hcount : ∀ item ∈ items, (g item).length = (f item).nsharedObjects)
    (htail : tail.length % 8 = 0)
    (h : Before r (padded (columnBits width (items.flatMap g)) ++ tail)) :
    ∃ r', readNestedColumn width put (items.map f) r = .ok (items.map f', r') ∧ Before r' tail := by
  obtain ⟨hwidth, hlt⟩ := hfits
  rw [padded, List.append_assoc] at h
  obtain ⟨r₁, hread, h₁⟩ := readNested_ok hwidth f g hlt hcount h
  obtain ⟨r₂, hskip, h₂⟩ := skipToNextByte_ok h₁ (padding_length_lt _) htail
  refine ⟨r₂, ?_, h₂⟩
  rw [funext hput] at hread
  rw [readNestedColumn, hread]
  show (r₁.skipToNextByte).bind _ = _
  rw [hskip]
  rfl

theorem getItem_ok {item : HeaderItem} {items : List HeaderItem} (hfits : item.Fits)
    (h : Before r (itemBits (item :: items) ++ tail)) :
    ∃ r', getU32 r item.slotBits = .ok (item.value, r') ∧ Before r' (itemBits items ++ tail) := by
  rw [itemBits, List.flatMap_cons, List.append_assoc] at h
  exact getU32_ok hfits.1 hfits.2 h

/-- The header of the page offset table as the reader has it. -/
def pageHeader (h : PageOffsetHeader) : HPageOffset where
  minNobjects := h.leastObjectCount
  firstPageOffset := h.locationOfFirstPage
  nbitsDeltaNobjects := h.bitsObjectCountDelta
  minPageLength := h.leastPageLength
  nbitsDeltaPageLength := h.bitsPageLengthDelta
  minContentOffset := h.leastContentOffset
  nbitsDeltaContentOffset := h.bitsContentOffsetDelta
  minContentLength := h.leastContentLength
  nbitsDeltaContentLength := h.bitsContentLengthDelta
  nbitsNsharedObjects := h.bitsSharedObjectCount
  nbitsSharedIdentifier := h.bitsSharedObjectId
  nbitsSharedNumerator := h.bitsNumerator
  sharedDenominator := h.denominator
  entries := []

def pageEntry (e : PageOffsetEntry) : HPageOffsetEntry where
  deltaNobjects := e.objectCountMinusLeast
  deltaPageLength := e.pageLengthMinusLeast
  nsharedObjects := e.sharedObjectCount
  sharedIdentifiers := e.sharedObjectIds
  sharedNumerators := e.sharedObjectNumerators
  deltaContentOffset := e.contentStreamOffset
  deltaContentLength := e.contentStreamLength

def sharedHeader (h : SharedObjectHeader) : HSharedObject where
  firstSharedObj := h.firstObjectNumber
  firstSharedOffset := h.location
  nsharedFirstPage := h.firstPageEntries
  nsharedTotal := h.sectionEntries
  nbitsNobjects := h.bitsGroupObjectCount
  minGroupLength := h.leastLength
  nbitsDeltaGroupLength := h.bitsLengthDelta
  entries := []

def sharedEntry (e : SharedObjectEntry) : HSharedObjectEntry where
  deltaGroupLength := e.lengthMinusLeast
  signaturePresent := e.signaturePresent
  nobjectsMinusOne := e.nobjectsMinusOne

theorem readPageHeader_ok {h : PageOffsetHeader} (hfits : ∀ item ∈ pageOffsetItems h, item.Fits)
    (hr : Before r (itemBits (pageOffsetItems h) ++ tail)) :
    ∃ r', readPageHeader r = .ok (pageHeader h, r') ∧ Before r' tail := by
  simp only [pageOffsetItems, List.forall_mem_cons] at hfits
  obtain ⟨f1, f2, f3, f4, f5, f6, f7, f8, f9, f10, f11, f12, f13, -⟩ := hfits
  obtain ⟨r1, hget1, h1⟩ := getItem_ok f1 hr
  obtain ⟨r2, hget2, h2⟩ := getItem_ok f2 h1
  obtain ⟨r3, hget3, h3⟩ := getItem_ok f3 h2
  obtain ⟨r4, hget4, h4⟩ := getItem_ok f4 h3
  obtain ⟨r5, hget5, h5⟩ := getItem_ok f5 h4
  obtain ⟨r6, hget6, h6⟩ := getItem_ok f6 h5
  obtain ⟨r7, hget7, h7⟩ := getItem_ok f7 h6
  obtain ⟨r8, hget8, h8⟩ := getItem_ok f8 h7
  obtain ⟨r9, hget9, h9⟩ := getItem_ok f9 h8
  obtain ⟨r10, hget10, h10⟩ := getItem_ok f10 h9
  obtain ⟨r11, hget11, h11⟩ := getItem_ok f11 h10
  obtain ⟨r12, hget12, h12⟩ := getItem_ok f12 h11
  obtain ⟨r13, hget13, h13⟩ := getItem_ok f13 h12
  dsimp only at hget1 hget2 hget3 hget4 hget5 hget6 hget7 hget8 hget9 hget10 hget11 hget12 hget13
  refine ⟨r13, ?_, h13⟩
  simp only [readPageHeader, hget1, hget2, hget3, hget4, hget5, hget6, hget7, hget8, hget9, hget10,
    hget11, hget12, hget13, bind, Except.bind]
  rfl

theorem readSharedHeader_ok {h : SharedObjectHeader} (hfits : ∀ item ∈ sharedObjectItems h, item.Fits)
    (hr : Before r (itemBits (sharedObjectItems h) ++ tail)) :
    ∃ r', readSharedHeader r = .ok (sharedHeader h, r') ∧ Before r' tail := by
  simp only [sharedObjectItems, List.forall_mem_cons] at hfits
  obtain ⟨f1, f2, f3, f4, f5, f6, f7, -⟩ := hfits
  obtain ⟨r1, hget1, h1⟩ := getItem_ok f1 hr
  obtain ⟨r2, hget2, h2⟩ := getItem_ok f2 h1
  obtain ⟨r3, hget3, h3⟩ := getItem_ok f3 h2
  obtain ⟨r4, hget4, h4⟩ := getItem_ok f4 h3
  obtain ⟨r5, hget5, h5⟩ := getItem_ok f5 h4
  obtain ⟨r6, hget6, h6⟩ := getItem_ok f6 h5
  obtain ⟨r7, hget7, h7⟩ := getItem_ok f7 h6
  dsimp only at hget1 hget2 hget3 hget4 hget5 hget6 hget7
  refine ⟨r7, ?_, h7⟩
  simp only [readSharedHeader, hget1, hget2, hget3, hget4, hget5, hget6, hget7, bind, Except.bind]
  rfl

/-- What stands behind some whole columns is whole octets as well. -/
theorem columns_length (columns : List (ℕ × List ℕ)) (htail : tail.length % 8 = 0) :
    (columnsBits columns ++ tail).length % 8 = 0 := by
  induction columns with
  | nil => exact htail
  | cons column columns ih =>
    have hpadded := padded_length (columnBits column.1 column.2)
    rw [columnsBits, List.flatMap_cons, List.append_assoc, List.length_append, ← columnsBits]
    omega

theorem columnsBits_cons (column : ℕ × List ℕ) (columns : List (ℕ × List ℕ)) :
    columnsBits (column :: columns) ++ tail =
      padded (columnBits column.1 column.2) ++ (columnsBits columns ++ tail) := by
  rw [columnsBits, List.flatMap_cons, List.append_assoc]
  rfl

/-! The entries behind each column of the page offset table. -/

def behindNobjects (e : PageOffsetEntry) : HPageOffsetEntry :=
  { deltaNobjects := e.objectCountMinusLeast }

def behindLength (e : PageOffsetEntry) : HPageOffsetEntry :=
  { behindNobjects e with deltaPageLength := e.pageLengthMinusLeast }

def behindCount (e : PageOffsetEntry) : HPageOffsetEntry :=
  { behindLength e with nsharedObjects := e.sharedObjectCount }

def behindIds (e : PageOffsetEntry) : HPageOffsetEntry :=
  { behindCount e with sharedIdentifiers := e.sharedObjectIds }

def behindNumerators (e : PageOffsetEntry) : HPageOffsetEntry :=
  { behindIds e with sharedNumerators := e.sharedObjectNumerators }

def behindOffset (e : PageOffsetEntry) : HPageOffsetEntry :=
  { behindNumerators e with deltaContentOffset := e.contentStreamOffset }

theorem readPageEntries_ok {t : PageOffsetHintTable} (ht : t.Fits) (htail : tail.length % 8 = 0)
    (hr : Before r (columnsBits (pageColumns t) ++ tail)) :
    readPageEntries (pageHeader t.header) t.entries.length r = .ok (t.entries.map pageEntry) := by
  have hcolumns := ht.columns
  simp only [pageColumns, List.forall_mem_cons] at hcolumns
  obtain ⟨f1, f2, f3, f4, f5, f6, f7, -⟩ := hcolumns
  have hnew : List.replicate t.entries.length ({} : HPageOffsetEntry) = t.entries.map fun _ => {} := by
    rw [List.map_const']
  rw [pageColumns, columnsBits_cons] at hr
  obtain ⟨r1, hread1, h1⟩ := readColumn_ok
    (fun entry value => { entry with deltaNobjects := value }) (fun _ => {}) behindNobjects _ (fun _ => rfl) f1
    (columns_length _ htail) hr
  rw [columnsBits_cons] at h1
  obtain ⟨r2, hread2, h2⟩ := readColumn_ok
    (fun entry value => { entry with deltaPageLength := value }) behindNobjects behindLength _ (fun _ => rfl) f2
    (columns_length _ htail) h1
  rw [columnsBits_cons] at h2
  obtain ⟨r3, hread3, h3⟩ := readColumn_ok
    (fun entry value => { entry with nsharedObjects := value }) behindLength behindCount _ (fun _ => rfl) f3
    (columns_length _ htail) h2
  rw [columnsBits_cons] at h3
  obtain ⟨r4, hread4, h4⟩ := readNestedColumn_ok
    (fun entry values => { entry with sharedIdentifiers := values }) behindCount behindIds _ (fun _ => rfl) f4 ht.ids
    (columns_length _ htail) h3
  rw [columnsBits_cons] at h4
  obtain ⟨r5, hread5, h5⟩ := readNestedColumn_ok
    (fun entry values => { entry with sharedNumerators := values }) behindIds behindNumerators _ (fun _ => rfl) f5
    ht.numerators (columns_length _ htail) h4
  rw [columnsBits_cons] at h5
  obtain ⟨r6, hread6, h6⟩ := readColumn_ok
    (fun entry value => { entry with deltaContentOffset := value }) behindNumerators behindOffset _ (fun _ => rfl) f6
    (columns_length _ htail) h5
  rw [columnsBits_cons] at h6
  obtain ⟨r7, hread7, -⟩ := readColumn_ok
    (fun entry value => { entry with deltaContentLength := value }) behindOffset pageEntry _ (fun _ => rfl) f7
    (columns_length _ htail) h6
  simp only [readPageEntries, pageHeader, hnew, hread1, hread2, hread3, hread4, hread5, hread6, hread7,
    bind, Except.bind]
  rfl

def behindGroupLength (e : SharedObjectEntry) : HSharedObjectEntry :=
  { deltaGroupLength := e.lengthMinusLeast }

def behindSignature (e : SharedObjectEntry) : HSharedObjectEntry :=
  { behindGroupLength e with signaturePresent := e.signaturePresent }

/-- Where no signature is present there is nothing to skip. -/
theorem skipSignatures_ok {objects : List SharedObjectEntry}
    (h : ∀ entry ∈ objects, entry.signaturePresent = false) :
    skipSignatures (objects.map behindSignature) r = .ok r := by
  induction objects with
  | nil => rfl
  | cons entry objects ih =>
    have hunsigned : ¬(behindSignature entry).signaturePresent = true := by
      rw [behindSignature, h entry List.mem_cons_self]
      exact Bool.false_ne_true
    rw [List.map_cons, skipSignatures, if_neg hunsigned]
    exact ih fun entry hentry => h entry (List.mem_cons_of_mem _ hentry)

theorem readSharedEntries_ok {t : SharedObjectHintTable} (ht : t.Fits) (htail : tail.length % 8 = 0)
    (hr : Before r (columnsBits (sharedColumns t) ++ tail)) :
    readSharedEntries (sharedHeader t.header) r = .ok (t.objects.map sharedEntry) := by
  have hcolumns := ht.columns
  simp only [sharedColumns, List.forall_mem_cons] at hcolumns
  obtain ⟨f1, f2, f3, -⟩ := hcolumns
  have hnew : List.replicate t.header.sectionEntries ({} : HSharedObjectEntry) =
      t.objects.map fun _ => {} := by
    rw [List.map_const', ht.entries]
  have hflag : ∀ entry : SharedObjectEntry,
      ({ behindGroupLength entry with
        signaturePresent := (if entry.signaturePresent then 1 else 0) != 0 } : HSharedObjectEntry) =
      behindSignature entry := by
    intro entry
    rw [behindSignature]
    cases entry.signaturePresent <;> rfl
  rw [sharedColumns, columnsBits_cons] at hr
  obtain ⟨r1, hread1, h1⟩ := readColumn_ok
    (fun entry value => { entry with deltaGroupLength := value }) (fun _ => {}) behindGroupLength _ (fun _ => rfl) f1
    (columns_length _ htail) hr
  rw [columnsBits_cons] at h1
  obtain ⟨r2, hread2, h2⟩ := readColumn_ok
    (fun entry value => { entry with signaturePresent := value != 0 }) behindGroupLength behindSignature _ hflag f2
    (columns_length _ htail) h1
  rw [columnsBits_cons] at h2
  obtain ⟨r3, hread3, -⟩ := readColumn_ok
    (fun entry value => { entry with nobjectsMinusOne := value }) behindSignature sharedEntry _ (fun _ => rfl) f3
    (columns_length _ htail) h2
  simp only [readSharedEntries, sharedHeader, hnew, hread1, hread2, skipSignatures_ok ht.signatures,
    hread3, bind, Except.bind]
  rfl

end HintReader

/-! ## Round trip -/

/-- The tables as the readers have them. -/
def PageOffsetHintTable.decoded (t : PageOffsetHintTable) : HPageOffset :=
  { HintReader.pageHeader t.header with entries := t.entries.map HintReader.pageEntry }

def SharedObjectHintTable.decoded (t : SharedObjectHintTable) : HSharedObject :=
  { HintReader.sharedHeader t.header with entries := t.objects.map HintReader.sharedEntry }

def OutlineHintTable.decoded (t : OutlineHintTable) : HGeneric :=
  ⟨t.firstObject, t.firstObjectOffset, t.nobjects, t.groupLength⟩

namespace HintReader

variable {data : Bytes} {tail : List Bool}

theorem readHPageOffset_ok {t : PageOffsetHintTable} (ht : t.Fits) (htail : tail.length % 8 = 0)
    (h : bytesBits data = pageBits t ++ tail) :
    readHPageOffset data t.entries.length = .ok t.decoded := by
  rw [pageBits, List.append_assoc] at h
  obtain ⟨r, hheader, hr⟩ := readPageHeader_ok
    (fun item hitem => ⟨pageItems_slotBits _ item hitem, ht.header item hitem⟩) (before_new h)
  have hentries := readPageEntries_ok ht htail hr
  simp only [readHPageOffset, hheader, hentries, bind, Except.bind]
  rfl

theorem readHSharedObject_ok {t : SharedObjectHintTable} (ht : t.Fits) (htail : tail.length % 8 = 0)
    (h : bytesBits data = sharedBits t ++ tail) : readHSharedObject data = .ok t.decoded := by
  rw [sharedBits, List.append_assoc] at h
  obtain ⟨r, hheader, hr⟩ := readSharedHeader_ok
    (fun item hitem => ⟨sharedItems_slotBits _ item hitem, ht.header item hitem⟩) (before_new h)
  have hentries := readSharedEntries_ok ht htail hr
  simp only [readHSharedObject, hheader, hentries, bind, Except.bind]
  rfl

theorem readHGeneric_ok {t : OutlineHintTable} (ht : t.Fits)
    (h : bytesBits data = outlineBits t ++ tail) : readHGeneric data = .ok t.decoded := by
  simp only [OutlineHintTable.Fits, outlineValues, List.forall_mem_cons] at ht
  obtain ⟨f1, f2, f3, f4, -⟩ := ht
  have h0 := before_new h
  simp only [outlineBits, outlineValues, columnBits, List.flatMap_cons, List.append_assoc] at h0
  obtain ⟨r1, hget1, h1⟩ := getU32_ok (by decide) f1 h0
  obtain ⟨r2, hget2, h2⟩ := getU32_ok (by decide) f2 h1
  obtain ⟨r3, hget3, h3⟩ := getU32_ok (by decide) f3 h2
  obtain ⟨r4, hget4, -⟩ := getU32_ok (by decide) f4 h3
  simp only [readHGeneric, hget1, hget2, hget3, hget4, bind, Except.bind]
  rfl

end HintReader

open HintReader

theorem sharedBits_length (t : SharedObjectHintTable) {tail : List Bool} (htail : tail.length % 8 = 0) :
    (sharedBits t ++ tail).length % 8 = 0 := by
  have hcolumns := columns_length (sharedColumns t) htail
  rw [List.length_append] at hcolumns
  rw [sharedBits, List.length_append, List.length_append, sharedItems_length]
  omega

/-- The bytes behind an offset are the bits behind it. -/
theorem bytesBits_drop {whole part : Bytes} {bits : List Bool}
    (h : bytesBits whole = bytesBits part ++ bits) : bytesBits (whole.drop part.length) = bits := by
  have hdrop := drop_bytesBits whole part.length 0
  rw [Nat.add_zero, List.drop_zero, h, List.drop_left' (bytesBits_length part)] at hdrop
  exact hdrop.symm

/-- Tables that fit are encoded, and each reader finds its table again: the page
offset table at the beginning, the other two at the offsets that were returned. -/
theorem hint_stream_round_trip (p : PageOffsetHintTable) (s : SharedObjectHintTable)
    (o : Option OutlineHintTable) (hp : p.Fits) (hs : s.Fits) (ho : ∀ t ∈ o, t.Fits) :
    ∃ sharedOffset outlineOffset bytes,
      encodeHintSectionsInto [] p s o = .ok (sharedOffset, outlineOffset, bytes) ∧
      readHPageOffset bytes p.entries.length = .ok p.decoded ∧
      readHSharedObject (bytes.drop sharedOffset) = .ok s.decoded ∧
      (∀ t ∈ o, ∃ offset, outlineOffset = some offset ∧
        readHGeneric (bytes.drop offset) = .ok t.decoded) ∧
      (o = none → outlineOffset = none) := by
  obtain ⟨w₁, hpage, full₁, hbits₁⟩ := encodePageSection_ok hp (full_new [])
  obtain ⟨w₂, hshared, full₂, hbits₂⟩ := encodeSharedSection_ok hs (full_new w₁.out)
  dsimp only at hbits₁ hbits₂
  rw [bytesBits_nil, List.nil_append] at hbits₁
  cases o with
  | none =>
    have hencode : encodeHintSectionsInto [] p s none = .ok (w₁.out.length, none, w₂.out) := by
      simp only [encodeHintSectionsInto, hpage, full₁.flush, hshared, full₂.flush, piped,
        Except.mapError, bind, Except.bind]
      rfl
    have hnothing : ([] : List Bool).length % 8 = 0 := rfl
    have hpageBits : bytesBits w₂.out = pageBits p ++ (sharedBits s ++ []) := by
      rw [hbits₂, hbits₁, List.append_nil]
    have hsharedBits : bytesBits (w₂.out.drop w₁.out.length) = sharedBits s ++ [] := by
      rw [bytesBits_drop hbits₂, List.append_nil]
    refine ⟨_, _, _, hencode, readHPageOffset_ok hp (sharedBits_length s hnothing) hpageBits,
      readHSharedObject_ok hs hnothing hsharedBits, ?_, fun _ => rfl⟩
    intro t ht
    cases ht
  | some t =>
    obtain ⟨w₃, houtline, full₃, hbits₃⟩ := encodeOutlineSection_ok (full_new w₂.out) t
    dsimp only at hbits₃
    have hencode : encodeHintSectionsInto [] p s (some t) =
        .ok (w₁.out.length, some w₂.out.length, w₃.out) := by
      simp only [encodeHintSectionsInto, hpage, full₁.flush, hshared, full₂.flush, houtline,
        full₃.flush, piped, Except.mapError, bind, Except.bind]
      rfl
    have hwhole : (outlineBits t).length % 8 = 0 := by
      simp [outlineBits, columnBits, outlineValues]
    have hpageBits : bytesBits w₃.out = pageBits p ++ (sharedBits s ++ outlineBits t) := by
      rw [hbits₃, hbits₂, hbits₁, List.append_assoc]
    have hsharedBits : bytesBits (w₃.out.drop w₁.out.length) = sharedBits s ++ outlineBits t := by
      apply bytesBits_drop
      rw [hbits₃, hbits₂, List.append_assoc]
    have houtlineBits : bytesBits (w₃.out.drop w₂.out.length) = outlineBits t ++ [] := by
      rw [bytesBits_drop hbits₃, List.append_nil]
    refine ⟨_, _, _, hencode, readHPageOffset_ok hp (sharedBits_length s hwhole) hpageBits,
      readHSharedObject_ok hs hwhole hsharedBits, ?_, ?_⟩
    · intro t' ht'
      cases ht'
      exact ⟨_, rfl, readHGeneric_ok (ho t rfl) houtlineBits⟩
    · intro hnone
      cases hnone

/-- Two pages, the second with a shared object of its own. -/
theorem hint_stream_round_trip_two :
    ∃ sharedOffset outlineOffset bytes,
      encodeHintSectionsInto []
          ⟨⟨3, 500, 1, 100, 7, 0, 0, 0, 0, 2, 3, 0, 4⟩,
            [⟨0, 0, 0, [], [], 0, 0⟩, ⟨1, 100, 2, [5, 6], [0, 0], 0, 0⟩]⟩
          ⟨⟨9, 700, 1, 2, 0, 40, 5⟩, [⟨0, false, 0⟩, ⟨17, false, 0⟩]⟩ (some ⟨11, 900, 2, 80⟩) =
        .ok (sharedOffset, outlineOffset, bytes) ∧
      readHPageOffset bytes 2 = .ok (PageOffsetHintTable.decoded
        ⟨⟨3, 500, 1, 100, 7, 0, 0, 0, 0, 2, 3, 0, 4⟩,
          [⟨0, 0, 0, [], [], 0, 0⟩, ⟨1, 100, 2, [5, 6], [0, 0], 0, 0⟩]⟩) ∧
      readHSharedObject (bytes.drop sharedOffset) = .ok (SharedObjectHintTable.decoded
        ⟨⟨9, 700, 1, 2, 0, 40, 5⟩, [⟨0, false, 0⟩, ⟨17, false, 0⟩]⟩) ∧
      (∀ t ∈ some (⟨11, 900, 2, 80⟩ : OutlineHintTable), ∃ offset, outlineOffset = some offset ∧
        readHGeneric (bytes.drop offset) = .ok t.decoded) ∧
      (some (⟨11, 900, 2, 80⟩ : OutlineHintTable) = none → outlineOffset = none) := by
  apply hint_stream_round_trip
  · constructor
    · simp [pageOffsetItems]
    · simp [pageColumns, ColumnFits]
    · simp
    · simp
  · constructor
    · simp [sharedObjectItems]
    · simp [sharedColumns, ColumnFits]
    · rfl
    · simp
  · intro t ht
    cases ht
    simp [OutlineHintTable.Fits, outlineValues]

end Flpdf
