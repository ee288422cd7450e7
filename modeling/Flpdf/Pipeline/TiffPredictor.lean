import Flpdf.Bits.BitStream
import Flpdf.Bits.BitWriter
import Flpdf.Bits.Samples
import Flpdf.Bytes.Rows
import Mathlib.Algebra.BigOperators.Ring.Finset
import Mathlib.Algebra.Order.BigOperators.Group.Finset
import Mathlib.Data.List.Forall2

/-! # The TIFF predictor

`TiffPredictor` collects rows and adds up, or takes apart, the samples of each
colour component along a row.  Samples of eight bits are bytes; all others go
through the bit reader and the bit writer.
-/

namespace Flpdf

open Bits

inductive TiffPredictorAction where
  | encode
  | decode
  deriving DecidableEq, Repr

/-- `overflow` is an `i64` operation whose result is out of range. -/
inductive TiffPredictorError where
  | runtime (message : Bytes)
  | logic (message : Bytes)
  | overflow
  deriving DecidableEq, Repr

/-- The stage; `out` is what the next stage has been given. -/
structure TiffPredictor where
  action : TiffPredictorAction
  columns : ℕ
  bytesPerRow : ℕ
  samplesPerPixel : ℕ
  bitsPerSample : ℕ
  curRow : Bytes := []
  out : Bytes := []
  deriving DecidableEq, Repr

namespace TiffPredictor

/-- The row width wraps at 32 bits, as in the source. -/
def new (action : TiffPredictorAction) (columns samplesPerPixel bitsPerSample : UInt32) :
    Except TiffPredictorError TiffPredictor :=
  if samplesPerPixel = 0 then
    .error (.runtime (ascii "TIFFPredictor created with invalid samples_per_pixel"))
  else if bitsPerSample = 0 ∨ bitsPerSample > 64 then
    .error (.runtime (ascii "TIFFPredictor created with invalid bits_per_sample"))
  else
    let bytesPerRow := (columns * bitsPerSample * samplesPerPixel + 7) / 8
    if bytesPerRow = 0 ∨ bytesPerRow > 0xffffffff - 1 then
      .error (.runtime (ascii "TIFFPredictor created with invalid columns value"))
    else .ok {
      action := action
      columns := columns.toNat
      bytesPerRow := bytesPerRow.toNat
      samplesPerPixel := samplesPerPixel.toNat
      bitsPerSample := bitsPerSample.toNat }

def mapBitStreamError (error : BitStreamError) : TiffPredictorError :=
  match error with
  | .exhausted _ _ => .runtime error.message
  | .tooWide => .logic error.message
  | .alignmentOverflow => .logic error.message

/-- The result of an `i64` operation. -/
def checkI64 (value : ℤ) : Except TiffPredictorError ℤ :=
  if -2 ^ 63 ≤ value ∧ value < 2 ^ 63 then .ok value else .error .overflow

/-- The sample that is written, and what is kept of its component. -/
def nextSample (action : TiffPredictorAction) (sample previous : ℤ) :
    Except TiffPredictorError (ℤ × ℤ) :=
  match action with
  | .encode => (checkI64 (sample - previous)).map fun newSample => (newSample, sample)
  | .decode => (checkI64 (sample + previous)).map fun newSample => (newSample, newSample)

/-- The samples of a pixel, through the bit reader and the bit writer. -/
def bitPixel (action : TiffPredictorAction) (bits : ℕ) : List ℤ → BitStream → BitWriter →
    Except TiffPredictorError (List ℤ × BitStream × BitWriter)
  | [], input, writer => .ok ([], input, writer)
  | previous :: rest, input, writer => do
    let (sample, input) ← (input.getBitsSigned bits).mapError mapBitStreamError
    let (newSample, previous) ← nextSample action sample previous
    let writer ← (writer.writeBitsSigned newSample bits).mapError .logic
    let (rest, input, writer) ← bitPixel action bits rest input writer
    return (previous :: rest, input, writer)

def bitPixels (action : TiffPredictorAction) (bits : ℕ) : ℕ → List ℤ → BitStream → BitWriter →
    Except TiffPredictorError BitWriter
  | 0, _, _, writer => .ok writer
  | columns + 1, previous, input, writer => do
    let (previous, input, writer) ← bitPixel action bits previous input writer
    bitPixels action bits columns previous input writer

/-- The samples of a pixel, byte by byte; the row may end within the pixel. -/
def bytePixel (action : TiffPredictorAction) : List ℤ → Bytes → Bytes →
    Except TiffPredictorError (List ℤ × Bytes × Bytes)
  | [], row, out => .ok ([], row, out)
  | previous :: rest, [], out => .ok (previous :: rest, [], out)
  | previous :: rest, byte :: row, out => do
    let (newSample, previous) ← nextSample action byte.toNat previous
    let (rest, row, out) ← bytePixel action rest row (out ++ [UInt8.ofInt newSample])
    return (previous :: rest, row, out)

/-- The loop over a row of bytes; every pixel takes a byte. -/
def bytePixels (action : TiffPredictorAction) : ℕ → List ℤ → Bytes → Bytes →
    Except TiffPredictorError Bytes
  | 0, _, _, out => .ok out
  | fuel + 1, previous, row, out =>
    if row = [] then .ok out
    else do
      let (previous, row, out) ← bytePixel action previous row out
      bytePixels action fuel previous row out

/-- What is written for a row. -/
def rowOutput (p : TiffPredictor) (row : Bytes) : Except TiffPredictorError Bytes :=
  let previous := List.replicate p.samplesPerPixel 0
  if p.bitsPerSample ≠ 8 then do
    let writer ← bitPixels p.action p.bitsPerSample p.columns previous (.new row) {}
    let writer ← writer.flush.mapError .logic
    return writer.out
  else bytePixels p.action row.length previous row []

def processRow (p : TiffPredictor) : Except TiffPredictorError TiffPredictor :=
  (p.rowOutput p.curRow).map fun out => { p with out := p.out ++ out }

/-- The loop of `write`; every round takes a byte. -/
def writeLoop : ℕ → TiffPredictor → Bytes → Except TiffPredictorError TiffPredictor
  | 0, p, _ => .ok p
  | fuel + 1, p, data =>
    if data = [] then .ok p
    else
      let count := min (p.bytesPerRow - p.curRow.length) data.length
      let p := { p with curRow := p.curRow ++ data.take count }
      if p.curRow.length = p.bytesPerRow then do
        let p ← p.processRow
        writeLoop fuel { p with curRow := [] } (data.drop count)
      else writeLoop fuel p (data.drop count)

def write (p : TiffPredictor) (data : Bytes) : Except TiffPredictorError TiffPredictor :=
  writeLoop data.length p data

/-- `Vec::resize` with zeros, to a greater length. -/
def resized (row : Bytes) (length : ℕ) : Bytes := row ++ List.replicate (length - row.length) 0

def finish (p : TiffPredictor) : Except TiffPredictorError TiffPredictor := do
  let p ←
    if p.curRow ≠ [] then processRow { p with curRow := resized p.curRow p.bytesPerRow }
    else pure p
  return { p with curRow := [] }

/-- A run of writes and the end. -/
def run (p : TiffPredictor) (chunks : List Bytes) : Except TiffPredictorError TiffPredictor :=
  chunks.foldlM write p >>= finish

/-! ## One row

The samples of a row have one index; a component has the same place again after
`colors` of them. -/

variable {action : TiffPredictorAction} {sample : ℕ → ℤ} {colors width k m n : ℕ}

/-- What is kept of the component of a sample when its turn comes. -/
def keptBefore (action : TiffPredictorAction) (sample : ℕ → ℤ) (colors k : ℕ) : ℤ :=
  match action with
  | .encode => if k < colors then 0 else sample (k - colors)
  | .decode => ∑ j ∈ Finset.range (k / colors), sample (j * colors + k % colors)

/-- The number that is written for a sample, before it is cut to the width. -/
def outputOf (action : TiffPredictorAction) (sample : ℕ → ℤ) (colors k : ℕ) : ℤ :=
  match action with
  | .encode => sample k - keptBefore .encode sample colors k
  | .decode => ∑ j ∈ Finset.range (k / colors + 1), sample (j * colors + k % colors)

/-- The numbers that are written fit into an `i64`. -/
def Fits (action : TiffPredictorAction) (sample : ℕ → ℤ) (colors count : ℕ) : Prop :=
  ∀ k < count, -2 ^ 63 ≤ outputOf action sample colors k ∧ outputOf action sample colors k < 2 ^ 63

theorem outputOf_decode (sample : ℕ → ℤ) (colors k : ℕ) : outputOf .decode sample colors k =
    sample k + keptBefore .decode sample colors k := by
  rw [outputOf, keptBefore, Finset.sum_range_succ, Nat.div_add_mod', add_comm]

theorem keptBefore_next (hcolors : 0 < colors) (k : ℕ) : keptBefore action sample colors (k + colors) =
    match action with
    | .encode => sample k
    | .decode => outputOf .decode sample colors k := by
  cases action with
  | encode => rw [keptBefore, if_neg (by omega), Nat.add_sub_cancel]
  | decode => rw [keptBefore, outputOf, Nat.add_div_right _ hcolors, Nat.add_mod_right]

theorem nextSample_eq (hcolors : 0 < colors)
    (hfits : -2 ^ 63 ≤ outputOf action sample colors k ∧ outputOf action sample colors k < 2 ^ 63) :
    nextSample action (sample k) (keptBefore action sample colors k) =
      .ok (outputOf action sample colors k, keptBefore action sample colors (k + colors)) := by
  rw [keptBefore_next hcolors]
  cases action with
  | encode =>
    rw [nextSample, checkI64]
    rw [outputOf] at hfits ⊢
    rw [if_pos hfits]
    rfl
  | decode =>
    rw [nextSample, checkI64]
    rw [outputOf_decode] at hfits ⊢
    rw [if_pos hfits]
    rfl

theorem keptBefore_start (action : TiffPredictorAction) (sample : ℕ → ℤ) (colors : ℕ) :
    (List.range' 0 colors).map (keptBefore action sample colors) = List.replicate colors 0 := by
  rw [List.eq_replicate_iff, List.length_map, List.length_range']
  refine ⟨rfl, fun value hvalue => ?_⟩
  obtain ⟨k, hk, rfl⟩ := List.mem_map.mp hvalue
  rw [List.mem_range'_1] at hk
  cases action with
  | encode => rw [keptBefore, if_pos (by omega)]
  | decode => rw [keptBefore, Nat.div_eq_of_lt (by omega), Finset.range_zero, Finset.sum_empty]

/-- The bits of the numbers that are written. -/
def residue (width : ℕ) (value : ℕ → ℤ) (k : ℕ) : ℕ := (value k % 2 ^ width).toNat

section BitPath

variable {code : ℕ → ℕ} {count : ℕ} {input : BitStream} {writer : BitWriter} {tail : List Bool}

theorem bitPixel_eq (hwidth : width ≤ 32) (hcolors : 0 < colors) (hcode : ∀ k, code k < 2 ^ width)
    (hfits : Fits action (fun k => BitStream.signedValue (code k) width) colors count)
    (hm : k + m ≤ count) (hinput : input.WellFormed)
    (hrest : input.rest = packed width code k m ++ tail) (hwriter : writer.WellFormed) :
    let kept := keptBefore action (fun k => BitStream.signedValue (code k) width) colors
    ∃ input' writer', bitPixel action width ((List.range' k m).map kept) input writer =
        .ok ((List.range' (k + colors) m).map kept, input', writer') ∧
      input'.WellFormed ∧ input'.rest = tail ∧ writer'.WellFormed ∧
      writer'.bits = writer.bits ++ packed width (residue width
        (outputOf action (fun k => BitStream.signedValue (code k) width) colors)) k m := by
  intro kept
  induction m generalizing k input writer with
  | zero => exact ⟨input, writer, rfl, hinput, hrest, hwriter, (List.append_nil _).symm⟩
  | succ m ih =>
    rw [packed_succ, List.append_assoc] at hrest
    obtain ⟨input', hget, hinput', hrest'⟩ := hinput.getBitsSigned hwidth (hcode k) hrest
    obtain ⟨writer', hput, hwriter', hbits⟩ := hwriter.writeBitsSigned hwidth
      (outputOf action (fun k => BitStream.signedValue (code k) width) colors k)
    have hnext := nextSample_eq hcolors (hfits k (by omega))
    obtain ⟨input'', writer'', hpixel, hinput'', hrest'', hwriter'', hbits'⟩ :=
      ih (by omega) hinput' hrest' hwriter'
    refine ⟨input'', writer'', ?_, hinput'', hrest'', hwriter'', ?_⟩
    · rw [List.range'_succ, List.range'_succ, List.map_cons, List.map_cons, bitPixel, hget]
      simp only [Except.mapError, bind, Except.bind]
      rw [hnext]
      simp only [hput]
      rw [hpixel, Nat.add_right_comm]
      rfl
    · rw [hbits', hbits, packed_succ, List.append_assoc]
      rfl

theorem bitPixels_eq (hwidth : width ≤ 32) (hcolors : 0 < colors) (hcode : ∀ k, code k < 2 ^ width)
    (hfits : Fits action (fun k => BitStream.signedValue (code k) width) colors count)
    (hn : k + n * colors ≤ count) (hinput : input.WellFormed)
    (hrest : input.rest = packed width code k (n * colors) ++ tail) (hwriter : writer.WellFormed) :
    let kept := keptBefore action (fun k => BitStream.signedValue (code k) width) colors
    ∃ writer', bitPixels action width n ((List.range' k colors).map kept) input writer =
        .ok writer' ∧ writer'.WellFormed ∧
      writer'.bits = writer.bits ++ packed width (residue width
        (outputOf action (fun k => BitStream.signedValue (code k) width) colors)) k (n * colors) := by
  intro kept
  induction n generalizing k input writer with
  | zero =>
    refine ⟨writer, rfl, hwriter, ?_⟩
    rw [Nat.zero_mul, packed_zero, List.append_nil]
  | succ n ih =>
    have hsplit : (n + 1) * colors = colors + n * colors := by ring
    rw [hsplit] at hn hrest ⊢
    rw [packed_add, List.append_assoc] at hrest
    obtain ⟨input', writer', hpixel, hinput', hrest', hwriter', hbits⟩ :=
      bitPixel_eq hwidth hcolors hcode hfits (by omega) hinput hrest hwriter
    obtain ⟨writer'', hpixels, hwriter'', hbits'⟩ := ih (by omega) hinput' hrest' hwriter'
    refine ⟨writer'', ?_, hwriter'', ?_⟩
    · rw [bitPixels, hpixel]
      exact hpixels
    · rw [hbits', hbits, packed_add, List.append_assoc]

end BitPath

section BytePath

variable {byteAt : ℕ → UInt8} {count : ℕ} {rest out : Bytes}

theorem bytePixel_eq (hcolors : 0 < colors)
    (hfits : Fits action (fun k => ((byteAt k).toNat : ℤ)) colors count) (hm : k + m ≤ count) :
    let kept := keptBefore action (fun k => ((byteAt k).toNat : ℤ)) colors
    bytePixel action ((List.range' k m).map kept) ((List.range' k m).map byteAt ++ rest) out =
      .ok ((List.range' (k + colors) m).map kept, rest, out ++ (List.range' k m).map fun k =>
        UInt8.ofInt (outputOf action (fun k => ((byteAt k).toNat : ℤ)) colors k)) := by
  intro kept
  induction m generalizing k out with
  | zero => simp [bytePixel]
  | succ m ih =>
    have hnext := nextSample_eq hcolors (hfits k (by omega))
    have hrest := @ih (k + 1) (out ++ [UInt8.ofInt
      (outputOf action (fun k => ((byteAt k).toNat : ℤ)) colors k)]) (by omega)
    rw [List.range'_succ, List.range'_succ, List.map_cons, List.map_cons, List.map_cons,
      List.map_cons, List.cons_append, bytePixel, hnext]
    simp only [bind, Except.bind]
    rw [hrest, Nat.add_right_comm, List.append_assoc]
    rfl

theorem bytePixels_eq {fuel : ℕ} (hcolors : 0 < colors)
    (hfits : Fits action (fun k => ((byteAt k).toNat : ℤ)) colors count)
    (hn : k + n * colors ≤ count) (hfuel : n ≤ fuel) :
    bytePixels action fuel
        ((List.range' k colors).map (keptBefore action (fun k => ((byteAt k).toNat : ℤ)) colors))
        ((List.range' k (n * colors)).map byteAt) out =
      .ok (out ++ (List.range' k (n * colors)).map fun k =>
        UInt8.ofInt (outputOf action (fun k => ((byteAt k).toNat : ℤ)) colors k)) := by
  induction n generalizing k out fuel with
  | zero =>
    rw [Nat.zero_mul]
    cases fuel <;> simp [bytePixels]
  | succ n ih =>
    obtain ⟨fuel, rfl⟩ := Nat.exists_eq_add_of_lt hfuel
    have hsplit : (n + 1) * colors = colors + n * colors := by ring
    rw [hsplit] at hn ⊢
    rw [← List.range'_append_1, List.map_append, List.map_append, bytePixels, if_neg,
      bytePixel_eq hcolors hfits (by omega)]
    · simp only [bind, Except.bind]
      rw [ih (by omega) (by omega), List.append_assoc]
    · simp only [List.append_eq_nil_iff, List.map_eq_nil_iff, List.range'_eq_nil_iff]
      omega

end BytePath

/-! ## What is written for a row -/

/-- Sums of residues are residues of sums. -/
theorem outputOf_decode_mod (sample : ℕ → ℤ) (colors width k : ℕ) :
    outputOf .decode sample colors k % 2 ^ width =
      (∑ j ∈ Finset.range (k / colors + 1), sample (j * colors + k % colors) % 2 ^ width) % 2 ^ width := by
  rw [outputOf, Finset.sum_int_mod]

theorem bytesBits_map (value : ℕ → ℤ) (start count : ℕ) :
    bytesBits ((List.range' start count).map fun k => UInt8.ofInt (value k)) =
      packed 8 (residue 8 value) start count := by
  induction count generalizing start with
  | zero => rfl
  | succ count ih =>
    have hbyte : (UInt8.ofInt (value start)).toNat = residue 8 value start := by
      rw [UInt8.ofInt, UInt8.toNat_ofNat', residue]
      have hlt := Int.emod_lt_of_pos (value start) (show (0 : ℤ) < 2 ^ 8 by norm_num)
      omega
    rw [List.range'_succ, List.map_cons, bytesBits_cons, byteBits_eq_toBits, hbyte, ih, packed_succ]

theorem map_getD (row : Bytes) : (List.range' 0 row.length).map (fun k => row.getD k 0) = row := by
  apply List.ext_getElem
  · rw [List.length_map, List.length_range']
  · intro k hk hk'
    rw [List.getElem_map, List.getElem_range', Nat.one_mul, Nat.zero_add,
      List.getD_eq_getElem?_getD, List.getElem?_eq_getElem hk', Option.getD_some]

/-- A byte of a row is a sample of eight bits. -/
theorem sampleAt_bytes {row : Bytes} (hk : k < row.length) :
    sampleAt 8 (bytesBits row) k = (row.getD k 0).toNat := by
  have hbits : bytesBits row = packed 8 (fun k => (row.getD k 0).toNat) 0 row.length := by
    have hmap := bytesBits_map (fun k => ((row.getD k 0).toNat : ℤ)) 0 row.length
    have hbyte : ∀ k, UInt8.ofInt ((row.getD k 0).toNat : ℤ) = row.getD k 0 := by
      intro k
      have hlt := (row.getD k 0).toNat_lt
      apply UInt8.toNat_inj.mp
      rw [UInt8.ofInt, UInt8.toNat_ofNat']
      omega
    simp only [hbyte, map_getD] at hmap
    rw [hmap]
    apply packed_congr
    intro k _ _
    have hlt := (row.getD k 0).toNat_lt
    rw [residue]
    omega
  have hsample := @sampleAt_packed 8 _ _ [] (fun k => (row.getD k 0).toNat) hk
    (row.getD k 0).toNat_lt
  rwa [List.append_nil, ← hbits] at hsample

/-- What one row is, with the bytes that are written for it. -/
structure RowWritten (action : TiffPredictorAction) (columns colors width : ℕ) (row out : Bytes)
    (sample : ℕ → ℤ) : Prop where
  sample_mod : ∀ k < columns * colors, sample k % 2 ^ width = sampleAt width (bytesBits row) k
  bits : bytesBits out =
    padded (packed width (residue width (outputOf action sample colors)) 0 (columns * colors))

/-- Numbers of 32 bits never add up to one that an `i64` does not hold. -/
theorem fits_of_small {columns : ℕ} (hcolumns : columns < 2 ^ 32)
    (hsample : ∀ k, -2 ^ 31 ≤ sample k ∧ sample k ≤ 2 ^ 31) :
    Fits action sample colors (columns * colors) := by
  intro k hk
  have hcolors : 0 < colors := Nat.pos_of_ne_zero (by rintro rfl; omega)
  have hpixel : k / colors + 1 ≤ columns := Nat.succ_le_of_lt ((Nat.div_lt_iff_lt_mul hcolors).mpr hk)
  cases action with
  | encode =>
    have hk := hsample k
    have hk' := hsample (k - colors)
    rw [outputOf, keptBefore]
    split_ifs <;> omega
  | decode =>
    have hupper : outputOf .decode sample colors k ≤ (k / colors + 1 : ℕ) • (2 : ℤ) ^ 31 := by
      have hsum := Finset.sum_le_card_nsmul (Finset.range (k / colors + 1))
        (fun j => sample (j * colors + k % colors)) (2 ^ 31) fun j _ => (hsample _).2
      rwa [Finset.card_range] at hsum
    have hlower : (k / colors + 1 : ℕ) • (-2 ^ 31 : ℤ) ≤ outputOf .decode sample colors k := by
      have hsum := Finset.card_nsmul_le_sum (Finset.range (k / colors + 1))
        (fun j => sample (j * colors + k % colors)) (-2 ^ 31) fun j _ => (hsample _).1
      rwa [Finset.card_range] at hsum
    rw [nsmul_eq_mul] at hupper hlower
    constructor
    · omega
    · omega

theorem signedValue_bounds {code : ℕ} (hwidth : width ≤ 32) (hcode : code < 2 ^ width) :
    -2 ^ 31 ≤ BitStream.signedValue code width ∧ BitStream.signedValue code width ≤ 2 ^ 31 := by
  have hpow : (2 : ℤ) ^ width ≤ 2 ^ 32 := pow_le_pow_right₀ (by norm_num) hwidth
  have hcode' : (code : ℤ) < 2 ^ width := by exact_mod_cast hcode
  rw [BitStream.signedValue_eq hwidth hcode]
  split_ifs with hhalf
  · rcases hhalf with hhalf | hzero
    · omega
    · subst hzero
      omega
  · omega

variable {p : TiffPredictor} {row : Bytes}

/-- The bit path writes the sums, or the differences, of the samples. -/
theorem rowOutput_bits (hbits : p.bitsPerSample ≠ 8) (hwidth : p.bitsPerSample ≤ 32)
    (hcolors : 0 < p.samplesPerPixel) (hcolumns : p.columns < 2 ^ 32)
    (hrow : p.columns * p.samplesPerPixel * p.bitsPerSample ≤ 8 * row.length) :
    ∃ out sample, p.rowOutput row = .ok out ∧
      RowWritten p.action p.columns p.samplesPerPixel p.bitsPerSample row out sample := by
  have hpacked := packed_sampleAt (hrow.trans_eq (bytesBits_length row).symm)
  have hcode := sampleAt_lt p.bitsPerSample (bytesBits row)
  obtain ⟨writer, hpixels, hwriter, hwritten⟩ := @bitPixels_eq p.action p.samplesPerPixel
    p.bitsPerSample 0 p.columns _ _ _ _ _ hwidth hcolors hcode (fits_of_small hcolumns fun k => signedValue_bounds hwidth (hcode k))
    (Nat.zero_add _).le (BitStream.wellFormed_new row) ((BitStream.rest_new row).trans hpacked)
    (BitWriter.wellFormed_new [])
  obtain ⟨writer', hflush, -, hpadded, hfull⟩ := hwriter.flush
  rw [keptBefore_start] at hpixels
  refine ⟨writer'.out, _, ?_, ⟨fun k _ => BitStream.signedValue_mod hwidth (hcode k), ?_⟩⟩
  · rw [rowOutput, if_pos hbits, hpixels]
    simp only [bind, Except.bind, hflush]
    rfl
  · rw [← BitWriter.bits_of_full hfull, hpadded, hwritten]
    rfl

/-- The byte path does the same for samples of eight bits. -/
theorem rowOutput_bytes (hbits : p.bitsPerSample = 8) (hcolors : 0 < p.samplesPerPixel)
    (hcolumns : p.columns < 2 ^ 32) (hrow : row.length = p.columns * p.samplesPerPixel) :
    ∃ out sample, p.rowOutput row = .ok out ∧
      RowWritten p.action p.columns p.samplesPerPixel p.bitsPerSample row out sample := by
  have hsmall : ∀ k, -2 ^ 31 ≤ ((row.getD k 0).toNat : ℤ) ∧ ((row.getD k 0).toNat : ℤ) ≤ 2 ^ 31 := by
    intro k
    have hlt := (row.getD k 0).toNat_lt
    omega
  have hfuel : p.columns ≤ row.length := hrow ▸ Nat.le_mul_of_pos_right _ hcolors
  have hpixels := @bytePixels_eq p.action p.samplesPerPixel 0 p.columns (fun k => row.getD k 0)
    (p.columns * p.samplesPerPixel) [] row.length hcolors (fits_of_small hcolumns hsmall)
    (Nat.zero_add _).le hfuel
  rw [keptBefore_start, ← hrow, map_getD, List.nil_append] at hpixels
  have hout : p.rowOutput row = _ := (if_neg (not_not.mpr hbits)).trans hpixels
  refine ⟨_, fun k => ((row.getD k 0).toNat : ℤ), hout, ⟨fun k hk => ?_, ?_⟩⟩
  · have hlt := (row.getD k 0).toNat_lt
    rw [hbits, sampleAt_bytes (hrow ▸ hk)]
    omega
  · rw [bytesBits_map, hbits, ← hrow, padded_of_dvd]
    rw [packed_length]
    omega

theorem residue_lt (width : ℕ) (value : ℕ → ℤ) (k : ℕ) : residue width value k < 2 ^ width := by
  have hpos : (0 : ℤ) < 2 ^ width := by positivity
  have hlt := Int.emod_lt_of_pos (value k) hpos
  rw [residue, Int.toNat_lt (Int.emod_nonneg _ hpos.ne')]
  exact_mod_cast hlt

theorem residue_cast (width : ℕ) (value : ℕ → ℤ) (k : ℕ) :
    (residue width value k : ℤ) = value k % 2 ^ width :=
  Int.toNat_of_nonneg (Int.emod_nonneg _ (by positivity))

namespace RowWritten

variable {columns : ℕ} {out : Bytes}

theorem sampleAt_out (h : RowWritten action columns colors width row out sample)
    (hk : k < columns * colors) :
    sampleAt width (bytesBits out) k = residue width (outputOf action sample colors) k := by
  rw [h.bits, padded]
  exact sampleAt_packed hk (residue_lt _ _ _)

theorem padding_out (h : RowWritten action columns colors width row out sample) :
    ∀ bit ∈ (bytesBits out).drop (columns * colors * width), bit = false := by
  intro bit hbit
  rw [h.bits, padded, List.drop_left' (packed_length _ _ _), padding] at hbit
  exact (List.mem_replicate.mp hbit).2

theorem length_out (h : RowWritten action columns colors width row out sample)
    (hrow : row.length = (columns * colors * width + 7) / 8) : out.length = row.length := by
  have hlength := congrArg List.length h.bits
  rw [bytesBits_length, padded, padding, List.length_append, List.length_replicate, packed_length]
    at hlength
  omega

end RowWritten

/-- A row with its sums: every sample is the sum of the samples of its component up to
its pixel. -/
structure DecodedRow (columns colors width : ℕ) (row out : Bytes) : Prop where
  length_eq : out.length = row.length
  sample_eq : ∀ pixel < columns, ∀ component < colors,
    sampleAt width (bytesBits out) (pixel * colors + component) =
      (∑ j ∈ Finset.range (pixel + 1), sampleAt width (bytesBits row) (j * colors + component)) %
        2 ^ width
  padding : ∀ bit ∈ (bytesBits out).drop (columns * colors * width), bit = false

theorem index_lt {columns pixel component : ℕ} (hpixel : pixel < columns)
    (hcomponent : component < colors) : pixel * colors + component < columns * colors := by
  have hle : (pixel + 1) * colors ≤ columns * colors := Nat.mul_le_mul_right _ hpixel
  rw [Nat.succ_mul] at hle
  omega

theorem decodedRow_of_written {columns : ℕ} {out : Bytes}
    (h : RowWritten .decode columns colors width row out sample)
    (hrow : row.length = (columns * colors * width + 7) / 8) :
    DecodedRow columns colors width row out := by
  refine ⟨h.length_out hrow, fun pixel hpixel component hcomponent => ?_, h.padding_out⟩
  have hindex := index_lt hpixel hcomponent
  have hdiv : (pixel * colors + component) / colors = pixel := by
    rw [Nat.mul_comm, Nat.mul_add_div (by omega), Nat.div_eq_of_lt hcomponent, Nat.add_zero]
  have hmod : (pixel * colors + component) % colors = component := by
    rw [Nat.mul_comm, Nat.mul_add_mod, Nat.mod_eq_of_lt hcomponent]
  have hsum : ∑ j ∈ Finset.range (pixel + 1), sample (j * colors + component) % 2 ^ width =
      ∑ j ∈ Finset.range (pixel + 1), (sampleAt width (bytesBits row) (j * colors + component) : ℤ) := by
    refine Finset.sum_congr rfl fun j hj => h.sample_mod _ (index_lt ?_ hcomponent)
    rw [Finset.mem_range] at hj
    omega
  zify
  rw [h.sampleAt_out hindex, residue_cast, outputOf_decode_mod, hdiv, hmod, hsum]

/-- The samples of a component are the sums of its differences. -/
theorem sum_outputOf_encode (sample : ℕ → ℤ) {component : ℕ} (hcomponent : component < colors)
    (pixel : ℕ) :
    ∑ j ∈ Finset.range (pixel + 1), outputOf .encode sample colors (j * colors + component) =
      sample (pixel * colors + component) := by
  induction pixel with
  | zero =>
    rw [Finset.sum_range_one, outputOf, keptBefore, if_pos (by omega), sub_zero]
  | succ pixel ih =>
    have hprevious : (pixel + 1) * colors + component - colors = pixel * colors + component := by
      rw [Nat.succ_mul]
      omega
    rw [Finset.sum_range_succ, ih, outputOf, keptBefore, if_neg (by rw [Nat.succ_mul]; omega),
      hprevious]
    ring

/-- Decoding what was encoded gives the samples back. -/
theorem sampleAt_decoded_encoded {columns : ℕ} {encoded out : Bytes}
    (hencoded : RowWritten .encode columns colors width row encoded sample)
    (hdecoded : DecodedRow columns colors width encoded out) (hk : k < columns * colors) :
    sampleAt width (bytesBits out) k = sampleAt width (bytesBits row) k := by
  have hcolors : 0 < colors := Nat.pos_of_ne_zero (by rintro rfl; omega)
  have hpixel : k / colors < columns := (Nat.div_lt_iff_lt_mul hcolors).mpr hk
  have hcomponent : k % colors < colors := Nat.mod_lt _ hcolors
  have hindex := Nat.div_add_mod' k colors
  have hsum : ∑ j ∈ Finset.range (k / colors + 1),
        (sampleAt width (bytesBits encoded) (j * colors + k % colors) : ℤ) =
      ∑ j ∈ Finset.range (k / colors + 1),
        outputOf .encode sample colors (j * colors + k % colors) % 2 ^ width := by
    refine Finset.sum_congr rfl fun j hj => ?_
    rw [Finset.mem_range] at hj
    rw [hencoded.sampleAt_out (index_lt (by omega) hcomponent), residue_cast]
  have hsample := hdecoded.sample_eq _ hpixel _ hcomponent
  rw [hindex] at hsample
  zify at hsample ⊢
  rw [hsample, hsum, ← Finset.sum_int_mod, sum_outputOf_encode _ hcomponent, hindex,
    hencoded.sample_mod k hk]

/-! ## Runs -/

/-- What the constructor makes sure of when the row width does not wrap. -/
structure Accepted (p : TiffPredictor) : Prop where
  colors_pos : 0 < p.samplesPerPixel
  columns_lt : p.columns < 2 ^ 32
  bytesPerRow_eq : p.bytesPerRow = (p.columns * p.samplesPerPixel * p.bitsPerSample + 7) / 8
  bytesPerRow_pos : 0 < p.bytesPerRow

theorem accepted_new {columns samplesPerPixel bitsPerSample : UInt32}
    (h : new action columns samplesPerPixel bitsPerSample = .ok p)
    (hwrap : columns.toNat * bitsPerSample.toNat * samplesPerPixel.toNat + 7 < 2 ^ 32) :
    p = { action := action, columns := columns.toNat, bytesPerRow := p.bytesPerRow,
          samplesPerPixel := samplesPerPixel.toNat, bitsPerSample := bitsPerSample.toNat } ∧
      p.Accepted := by
  unfold new at h
  split_ifs at h with hsamples hbits
  dsimp only at h
  split_ifs at h with hrow
  cases h
  have hcolors : 0 < samplesPerPixel.toNat :=
    Nat.pos_of_ne_zero fun hzero => hsamples (UInt32.toNat_inj.mp hzero)
  have hpart : columns.toNat * bitsPerSample.toNat ≤
      columns.toNat * bitsPerSample.toNat * samplesPerPixel.toNat := Nat.le_mul_of_pos_right _ hcolors
  have hwidth : ((columns * bitsPerSample * samplesPerPixel + 7) / 8).toNat =
      (columns.toNat * bitsPerSample.toNat * samplesPerPixel.toNat + 7) / 8 := by
    have hfirst : (columns * bitsPerSample).toNat = columns.toNat * bitsPerSample.toNat := by
      rw [UInt32.toNat_mul, Nat.mod_eq_of_lt (by omega)]
    have hsecond : (columns * bitsPerSample * samplesPerPixel).toNat =
        columns.toNat * bitsPerSample.toNat * samplesPerPixel.toNat := by
      rw [UInt32.toNat_mul, hfirst, Nat.mod_eq_of_lt (by omega)]
    rw [UInt32.toNat_div, UInt32.toNat_add, hsecond]
    exact congrArg (· / 8) (Nat.mod_eq_of_lt hwrap)
  refine ⟨rfl, hcolors, columns.toNat_lt, ?_, ?_⟩
  · show ((columns * bitsPerSample * samplesPerPixel + 7) / 8).toNat = _
    rw [hwidth, Nat.mul_right_comm]
  · exact Nat.pos_of_ne_zero fun hzero => hrow (.inl (UInt32.toNat_inj.mp hzero))

theorem Accepted.rowOutput (h : p.Accepted) (hwidth : p.bitsPerSample ≤ 32)
    (hrow : row.length = p.bytesPerRow) :
    ∃ out sample, p.rowOutput row = .ok out ∧
      RowWritten p.action p.columns p.samplesPerPixel p.bitsPerSample row out sample := by
  rw [h.bytesPerRow_eq] at hrow
  by_cases hbits : p.bitsPerSample = 8
  · refine rowOutput_bytes hbits h.colors_pos h.columns_lt ?_
    rw [hrow, hbits]
    omega
  · refine rowOutput_bits hbits hwidth h.colors_pos h.columns_lt ?_
    omega

section Run

variable {data more : Bytes} {rows outs : List Bytes} {part : Bytes} {relation : Bytes → Bytes → Prop}

/-- The stage after some rows, with a part of the next one. -/
def after (p : TiffPredictor) (outs : List Bytes) (part : Bytes) : TiffPredictor :=
  { p with curRow := part, out := outs.flatten }

theorem processRow_after {out : Bytes} (hout : p.rowOutput part = .ok out) :
    (p.after outs part).processRow = .ok (p.after (outs ++ [out]) part) := by
  have hsame : (p.after outs part).rowOutput (p.after outs part).curRow = .ok out := hout
  rw [processRow, hsame, after, after, List.flatten_concat]
  rfl

/-- The loop of `write` keeps up with the rows of the data. -/
theorem writeLoop_after {fuel : ℕ}
    (hrelation : ∀ row, row.length = p.bytesPerRow → ∃ out, p.rowOutput row = .ok out ∧ relation row out)
    (hrows : Rows p.bytesPerRow data rows part) (houts : List.Forall₂ relation rows outs)
    (hfuel : more.length ≤ fuel) :
    ∃ rows' part' outs', Rows p.bytesPerRow (data ++ more) rows' part' ∧
      List.Forall₂ relation rows' outs' ∧
      writeLoop fuel (p.after outs part) more = .ok (p.after outs' part') := by
  induction fuel generalizing data rows part outs more with
  | zero =>
    obtain rfl := List.eq_nil_of_length_eq_zero (Nat.le_zero.mp hfuel)
    rw [List.append_nil]
    exact ⟨rows, part, outs, hrows, houts, rfl⟩
  | succ fuel ih =>
    rw [writeLoop]
    by_cases hmore : more = []
    · subst hmore
      rw [if_pos rfl, List.append_nil]
      exact ⟨rows, part, outs, hrows, houts, rfl⟩
    · rw [if_neg hmore]
      have hlt := hrows.part_lt
      have hpos := List.length_pos_of_ne_nil hmore
      dsimp only
      rw [show (p.after outs part).curRow = part from rfl,
        show (p.after outs part).bytesPerRow = p.bytesPerRow from rfl]
      generalize hcount : min (p.bytesPerRow - part.length) more.length = count
      have htake : (more.take count).length = count := List.length_take_of_le (by omega)
      have hlength : (part ++ more.take count).length = part.length + count := by
        rw [List.length_append, htake]
      have hrest : (more.drop count).length ≤ fuel := by
        rw [List.length_drop]
        omega
      by_cases hfull : (part ++ more.take count).length = p.bytesPerRow
      · obtain ⟨out, hout, hrelated⟩ := hrelation _ hfull
        have hfills : part.length + (more.take count).length = p.bytesPerRow := by omega
        have hfilled := hrows.fill hfills
        have houts' : List.Forall₂ relation (rows ++ [part ++ more.take count]) (outs ++ [out]) :=
          List.rel_append houts (.cons hrelated .nil)
        obtain ⟨rows', part', outs', hrows', houts'', hloop⟩ := ih hfilled houts' hrest
        rw [List.append_assoc, List.take_append_drop] at hrows'
        refine ⟨rows', part', outs', hrows', houts'', ?_⟩
        rw [if_pos hfull]
        show (processRow (p.after outs (part ++ more.take count)) >>= _) = _
        rw [processRow_after hout]
        exact hloop
      · have hfits : part.length + (more.take count).length < p.bytesPerRow := by omega
        have hextended := hrows.extend hfits
        obtain ⟨rows', part', outs', hrows', houts', hloop⟩ := ih hextended houts hrest
        rw [List.append_assoc, List.take_append_drop] at hrows'
        refine ⟨rows', part', outs', hrows', houts', ?_⟩
        rw [if_neg hfull]
        exact hloop

theorem foldlM_write
    (hrelation : ∀ row, row.length = p.bytesPerRow → ∃ out, p.rowOutput row = .ok out ∧ relation row out)
    (hrows : Rows p.bytesPerRow data rows part) (houts : List.Forall₂ relation rows outs)
    (chunks : List Bytes) :
    ∃ rows' part' outs', Rows p.bytesPerRow (data ++ chunks.flatten) rows' part' ∧
      List.Forall₂ relation rows' outs' ∧
      chunks.foldlM write (p.after outs part) = .ok (p.after outs' part') := by
  induction chunks generalizing data rows part outs with
  | nil =>
    rw [List.flatten_nil, List.append_nil]
    exact ⟨rows, part, outs, hrows, houts, rfl⟩
  | cons chunk chunks ih =>
    obtain ⟨rows', part', outs', hrows', houts', hloop⟩ :=
      writeLoop_after hrelation hrows houts (Nat.le_refl chunk.length)
    obtain ⟨rows'', part'', outs'', hrows'', houts'', hothers⟩ := ih hrows' houts'
    rw [List.append_assoc, ← List.flatten_cons] at hrows''
    refine ⟨rows'', part'', outs'', hrows'', houts'', ?_⟩
    rw [List.foldlM_cons, write, hloop]
    exact hothers

/-- A run writes the rows of the data, the last one filled up with zeros. -/
theorem run_after
    (hrelation : ∀ row, row.length = p.bytesPerRow → ∃ out, p.rowOutput row = .ok out ∧ relation row out)
    (hpos : 0 < p.bytesPerRow) (chunks : List Bytes) :
    ∃ rows outs, rows.flatten = padRows p.bytesPerRow 0 chunks.flatten ∧
      (∀ row ∈ rows, row.length = p.bytesPerRow) ∧ List.Forall₂ relation rows outs ∧
      (p.after [] []).run chunks = .ok (p.after outs []) := by
  obtain ⟨rows, part, outs, hrows, houts, hwrite⟩ :=
    foldlM_write hrelation (Rows.nil hpos) .nil chunks
  rw [List.nil_append] at hrows
  rw [run, hwrite]
  refine ⟨filledRows p.bytesPerRow 0 rows part, ?_⟩
  have hpadded := hrows.flatten_filledRows 0
  have hlengths := hrows.filledRows_length 0
  by_cases hpart : part = []
  · subst hpart
    rw [filledRows, if_pos rfl] at hpadded hlengths ⊢
    exact ⟨outs, hpadded, hlengths, houts, rfl⟩
  · rw [filledRows, if_neg hpart] at hpadded hlengths ⊢
    have hfull := hlengths _ (List.mem_append_right rows (List.mem_singleton_self _))
    obtain ⟨out, hout, hrelated⟩ := hrelation _ hfull
    refine ⟨outs ++ [out], hpadded, hlengths, List.rel_append houts (.cons hrelated .nil), ?_⟩
    have hprocess : processRow { p.after outs part with
        curRow := resized (p.after outs part).curRow (p.after outs part).bytesPerRow } =
          .ok (p.after (outs ++ [out]) (part ++ List.replicate (p.bytesPerRow - part.length) 0)) :=
      processRow_after hout
    have hsome : (p.after outs part).curRow ≠ [] := hpart
    show finish (p.after outs part) = _
    rw [finish, if_pos hsome, hprocess]
    rfl

end Run

/-! ## Samples that are too wide -/

section Wide

variable {error : TiffPredictorError} {part more : Bytes}

/-- The bit reader gives at most 32 bits. -/
theorem rowOutput_wide (h : p.Accepted) (hwidth : 32 < p.bitsPerSample)
    (hrow : row.length = p.bytesPerRow) :
    p.rowOutput row = .error (.logic (ascii "read_bits: too many bits requested")) := by
  have hpos := h.bytesPerRow_pos
  have hcolors := h.colors_pos
  have hbytes := h.bytesPerRow_eq
  obtain ⟨columns, hcolumns⟩ : ∃ columns, p.columns = columns + 1 := by
    refine Nat.exists_eq_succ_of_ne_zero ?_
    intro hzero
    rw [hzero, Nat.zero_mul, Nat.zero_mul] at hbytes
    omega
  obtain ⟨colors, hcolors'⟩ := Nat.exists_eq_succ_of_ne_zero hcolors.ne'
  have havailable : ¬p.bitsPerSample > (BitStream.new row).bitsAvailable := by
    have hle : p.bitsPerSample ≤ p.columns * p.samplesPerPixel * p.bitsPerSample := by
      rw [hcolumns, hcolors']
      exact Nat.le_mul_of_pos_left _ (Nat.mul_pos (Nat.succ_pos _) (Nat.succ_pos _))
    show ¬p.bitsPerSample > row.length * 8
    omega
  have hget : (BitStream.new row).getBitsSigned p.bitsPerSample = .error .tooWide := by
    rw [BitStream.getBitsSigned, BitStream.getBits, if_neg havailable, if_pos hwidth]
    rfl
  rw [rowOutput, if_pos (by omega), hcolumns, hcolors', List.replicate_succ, bitPixels, bitPixel, hget]
  rfl

/-- A stage that cannot work on a row stops at the first one. -/
theorem writeLoop_fails {fuel : ℕ}
    (hfails : ∀ row, row.length = p.bytesPerRow → p.rowOutput row = .error error)
    (hpart : part.length < p.bytesPerRow) (hfuel : more.length ≤ fuel) :
    writeLoop fuel (p.after [] part) more =
      if part.length + more.length < p.bytesPerRow then .ok (p.after [] (part ++ more))
      else .error error := by
  induction fuel generalizing part more with
  | zero =>
    obtain rfl := List.eq_nil_of_length_eq_zero (Nat.le_zero.mp hfuel)
    rw [if_pos (by rwa [List.length_nil]), List.append_nil]
    rfl
  | succ fuel ih =>
    rw [writeLoop]
    by_cases hmore : more = []
    · subst hmore
      rw [if_pos rfl, List.append_nil, if_pos (by rwa [List.length_nil])]
    · rw [if_neg hmore]
      have hpos := List.length_pos_of_ne_nil hmore
      dsimp only
      rw [show (p.after [] part).curRow = part from rfl,
        show (p.after [] part).bytesPerRow = p.bytesPerRow from rfl]
      by_cases hless : part.length + more.length < p.bytesPerRow
      · rw [Nat.min_eq_right (by omega), List.take_length, List.drop_length, if_pos hless,
          if_neg (by rw [List.length_append]; omega)]
        have hrest := @ih (part ++ more) [] (by rw [List.length_append]; omega) (Nat.zero_le _)
        rw [List.append_nil, if_pos (by simp only [List.length_append, List.length_nil]; omega)] at hrest
        exact hrest
      · have hfull : (part ++ more.take (p.bytesPerRow - part.length)).length = p.bytesPerRow := by
          rw [List.length_append, List.length_take]
          omega
        rw [Nat.min_eq_left (by omega), if_neg hless, if_pos hfull]
        show (processRow (p.after [] (part ++ more.take (p.bytesPerRow - part.length))) >>= _) = _
        have hrow : (p.after [] (part ++ more.take (p.bytesPerRow - part.length))).rowOutput
            (p.after [] (part ++ more.take (p.bytesPerRow - part.length))).curRow = .error error :=
          hfails _ hfull
        rw [processRow, hrow]
        rfl

theorem foldlM_write_fails
    (hfails : ∀ row, row.length = p.bytesPerRow → p.rowOutput row = .error error)
    (hpart : part.length < p.bytesPerRow) (chunks : List Bytes) :
    chunks.foldlM write (p.after [] part) =
      if part.length + chunks.flatten.length < p.bytesPerRow then
        .ok (p.after [] (part ++ chunks.flatten))
      else .error error := by
  induction chunks generalizing part with
  | nil =>
    rw [List.flatten_nil, List.append_nil, if_pos (by rwa [List.length_nil])]
    rfl
  | cons chunk chunks ih =>
    rw [List.foldlM_cons, write, writeLoop_fails hfails hpart (Nat.le_refl _), List.flatten_cons,
      List.length_append]
    by_cases hless : part.length + chunk.length < p.bytesPerRow
    · rw [if_pos hless]
      show chunks.foldlM write (p.after [] (part ++ chunk)) = _
      rw [ih (by rwa [List.length_append]), List.length_append, List.append_assoc, Nat.add_assoc]
    · rw [if_neg hless, if_neg (by omega)]
      rfl

theorem run_fails (hfails : ∀ row, row.length = p.bytesPerRow → p.rowOutput row = .error error)
    (hpos : 0 < p.bytesPerRow) {chunks : List Bytes} (hdata : chunks.flatten ≠ []) :
    (p.after [] []).run chunks = .error error := by
  rw [run, @foldlM_write_fails p error [] hfails hpos]
  by_cases hless : ([] : Bytes).length + chunks.flatten.length < p.bytesPerRow
  · rw [if_pos hless, List.nil_append]
    generalize chunks.flatten = part at hdata hless
    have hsome : (p.after [] part).curRow ≠ [] := hdata
    have hrow : p.rowOutput (resized part p.bytesPerRow) = .error error := by
      apply hfails
      rw [List.length_nil, Nat.zero_add] at hless
      rw [resized, List.length_append, List.length_replicate]
      omega
    have hprocess : processRow { p.after [] part with
        curRow := resized (p.after [] part).curRow (p.after [] part).bytesPerRow } = .error error :=
      congrArg (Except.map _) hrow
    show finish (p.after [] part) = _
    rw [finish, if_pos hsome, hprocess]
    rfl
  · rw [if_neg hless]
    rfl

end Wide

/-! ## Decoding -/

/-- Whatever the data and however it arrives: each row is written with its sums. -/
def DecodesBySums (decoder : TiffPredictor) : Prop :=
  ∀ chunks : List Bytes, ∃ rows outs final,
    rows.flatten = padRows decoder.bytesPerRow 0 chunks.flatten ∧
    (∀ row ∈ rows, row.length = decoder.bytesPerRow) ∧
    List.Forall₂
      (DecodedRow decoder.columns decoder.samplesPerPixel decoder.bitsPerSample) rows outs ∧
    decoder.run chunks = .ok final ∧ final.out = outs.flatten

/-- Two rows with the same samples. -/
def SameSamples (p : TiffPredictor) (row out : Bytes) : Prop :=
  ∀ k < p.columns * p.samplesPerPixel,
    sampleAt p.bitsPerSample (bytesBits out) k = sampleAt p.bitsPerSample (bytesBits row) k

/-- The decoder gives the samples of each row back that the encoder was given. -/
def InvertsEncoder (encoder decoder : TiffPredictor) : Prop :=
  ∀ chunks : List Bytes, ∃ rows encoded,
    rows.flatten = padRows encoder.bytesPerRow 0 chunks.flatten ∧
    (∀ row ∈ rows, row.length = encoder.bytesPerRow) ∧ encoder.run chunks = .ok encoded ∧
    ∀ encodedChunks : List Bytes, encodedChunks.flatten = encoded.out →
      ∃ outs final, List.Forall₂ (SameSamples encoder) rows outs ∧
        decoder.run encodedChunks = .ok final ∧ final.out = outs.flatten

theorem decodesBySums (h : p.Accepted) (haction : p.action = .decode) (hbits : p.bitsPerSample ≤ 32)
    (hfresh : p.after [] [] = p) : DecodesBySums p := by
  intro chunks
  obtain ⟨rows, outs, hrows, hlengths, houts, hrun⟩ :=
    @run_after p (DecodedRow p.columns p.samplesPerPixel p.bitsPerSample) (fun row hrow => by
      obtain ⟨out, sample, hout, hwritten⟩ := h.rowOutput hbits hrow
      rw [haction] at hwritten
      exact ⟨out, hout, decodedRow_of_written hwritten (hrow.trans h.bytesPerRow_eq)⟩)
      h.bytesPerRow_pos chunks
  rw [hfresh] at hrun
  exact ⟨rows, outs, _, hrows, hlengths, houts, hrun, rfl⟩

/-- Rows of one width are told by the data. -/
theorem rows_unique {width : ℕ} {rows rows' : List Bytes} (hpos : 0 < width)
    (h : ∀ row ∈ rows, row.length = width) (h' : ∀ row ∈ rows', row.length = width)
    (hflatten : rows.flatten = rows'.flatten) : rows = rows' :=
  (Rows.unique ⟨(List.append_nil _).symm, h, hpos⟩
    ⟨hflatten.trans (List.append_nil _).symm, h', hpos⟩).1

/-- Decoding the rows of the encoder, row by row. -/
theorem sameSamples_rows {rows encodedRows outs : List Bytes}
    (hencoded : List.Forall₂ (fun encoded row => ∃ sample,
      RowWritten .encode p.columns p.samplesPerPixel p.bitsPerSample row encoded sample)
        encodedRows rows)
    (hdecoded : List.Forall₂
      (DecodedRow p.columns p.samplesPerPixel p.bitsPerSample) encodedRows outs) :
    List.Forall₂ (SameSamples p) rows outs := by
  induction hencoded generalizing outs with
  | nil =>
    cases hdecoded
    exact .nil
  | cons hrow _ ih =>
    obtain ⟨sample, hwritten⟩ := hrow
    cases hdecoded with
    | cons hdecodedRow hrest =>
      exact .cons (fun k hk => sampleAt_decoded_encoded hwritten hdecodedRow hk) (ih hrest)

theorem invertsEncoder {encoder : TiffPredictor} (hencodes : encoder.Accepted)
    (haction : encoder.action = .encode) (hbits : encoder.bitsPerSample ≤ 32)
    (hfresh : encoder.after [] [] = encoder) :
    InvertsEncoder encoder { encoder with action := .decode } := by
  intro chunks
  have hwidth := hencodes.bytesPerRow_eq
  obtain ⟨rows, encodedRows, hrows, hlengths, hencoded, hrun⟩ :=
    @run_after encoder (fun row encoded => encoded.length = encoder.bytesPerRow ∧ ∃ sample,
        RowWritten .encode encoder.columns encoder.samplesPerPixel encoder.bitsPerSample row encoded
          sample) (fun row hrow => by
      obtain ⟨out, sample, hout, hwritten⟩ := hencodes.rowOutput hbits hrow
      rw [haction] at hwritten
      exact ⟨out, hout, (hwritten.length_out (hrow.trans hwidth)).trans hrow, sample, hwritten⟩)
      hencodes.bytesPerRow_pos chunks
  rw [hfresh] at hrun
  obtain ⟨hencodedLengths, hencodedRows⟩ := (List.forall₂_and_left _ _).mp hencoded.flip
  refine ⟨rows, _, hrows, hlengths, hrun, fun encodedChunks hsplit => ?_⟩
  have hdecodes : Accepted { encoder with action := .decode } :=
    ⟨hencodes.colors_pos, hencodes.columns_lt, hwidth, hencodes.bytesPerRow_pos⟩
  have hfresh' : after { encoder with action := .decode } [] [] =
      { encoder with action := .decode } := by
    rw [← hfresh]
    rfl
  obtain ⟨rows', outs, final, hrows', hlengths', houts, hrun', hfinal⟩ :=
    decodesBySums hdecodes rfl hbits hfresh' encodedChunks
  have hwhole : Rows encoder.bytesPerRow encodedRows.flatten encodedRows [] :=
    ⟨(List.append_nil _).symm, hencodedLengths, hencodes.bytesPerRow_pos⟩
  have hpadded : rows'.flatten = encodedRows.flatten := by
    rw [hrows', hsplit]
    exact (hwhole.flatten_filledRows 0).symm
  obtain rfl := rows_unique hencodes.bytesPerRow_pos hlengths' hencodedLengths hpadded
  exact ⟨outs, final, sameSamples_rows hencodedRows houts, hrun', hfinal⟩

/-- One definition for all widths up to 32 bits; wider samples are refused. -/
theorem decode_spec {columns samplesPerPixel bitsPerSample : UInt32} {encoder decoder : TiffPredictor}
    (hencoder : new .encode columns samplesPerPixel bitsPerSample = .ok encoder)
    (hdecoder : new .decode columns samplesPerPixel bitsPerSample = .ok decoder)
    (hwrap : columns.toNat * bitsPerSample.toNat * samplesPerPixel.toNat + 7 < 2 ^ 32) :
    (bitsPerSample.toNat ≤ 32 → DecodesBySums decoder ∧ InvertsEncoder encoder decoder) ∧
      (32 < bitsPerSample.toNat → ∀ chunks : List Bytes, chunks.flatten ≠ [] →
        decoder.run chunks = .error (.logic (ascii "read_bits: too many bits requested"))) := by
  obtain ⟨hdecoder, hdecodes⟩ := accepted_new hdecoder hwrap
  obtain ⟨hencoder, hencodes⟩ := accepted_new hencoder hwrap
  have hsame : decoder.bytesPerRow = encoder.bytesPerRow := by
    rw [hdecodes.bytesPerRow_eq, hencodes.bytesPerRow_eq, hdecoder, hencoder]
  generalize decoder.bytesPerRow = width at hdecoder hsame
  generalize encoder.bytesPerRow = width' at hencoder hsame
  subst hsame hdecoder hencoder
  constructor
  · intro hbits
    exact ⟨decodesBySums hdecodes rfl hbits rfl,
      invertsEncoder hencodes rfl hbits rfl⟩
  · intro hbits chunks hdata
    exact run_fails (fun row hrow => rowOutput_wide hdecodes hbits hrow) hdecodes.bytesPerRow_pos hdata

/-- Half-byte samples, one to a pixel. -/
theorem decode_spec_nibbles :
    (4 ≤ 32 → DecodesBySums
        { action := .decode, columns := 3, bytesPerRow := 2, samplesPerPixel := 1,
          bitsPerSample := 4 } ∧
      InvertsEncoder
        { action := .encode, columns := 3, bytesPerRow := 2, samplesPerPixel := 1,
          bitsPerSample := 4 }
        { action := .decode, columns := 3, bytesPerRow := 2, samplesPerPixel := 1,
          bitsPerSample := 4 }) ∧
      (32 < 4 → ∀ chunks : List Bytes, chunks.flatten ≠ [] →
        run { action := .decode, columns := 3, bytesPerRow := 2, samplesPerPixel := 1,
              bitsPerSample := 4 } chunks =
          .error (.logic (ascii "read_bits: too many bits requested"))) :=
  @decode_spec 3 1 4 _ _ rfl rfl (by decide)

/-- The constructor takes samples of 33 bits, the bit reader does not. -/
theorem wide_samples_refused :
    ∃ decoder, new .decode 1 1 33 = .ok decoder ∧ 1 * 33 * 1 + 7 < 2 ^ 32 ∧
      ¬DecodesBySums decoder := by
  refine ⟨_, rfl, by decide, fun hdecodes => ?_⟩
  obtain ⟨rows, outs, final, -, -, -, hrun, -⟩ := hdecodes [[0]]
  have hrefused :
      run { action := .decode, columns := 1, bytesPerRow := 5, samplesPerPixel := 1,
            bitsPerSample := 33 } [[0]] =
        .error (.logic (ascii "read_bits: too many bits requested")) := by decide
  cases hrefused.symm.trans hrun

end TiffPredictor

end Flpdf
