import Flpdf.Bytes.Ascii
import Flpdf.Bytes.Rows

/-! # The PNG predictor

`PngFilter` collects rows in two buffers that take turns.  Decoding reads the
filter byte of each row; encoding always writes the Up filter.
-/

namespace Flpdf

inductive PngFilterAction where
  | encode
  | decode
  deriving DecidableEq, Repr

/-- The stage; `out` is what the next stage has been given. -/
structure PngFilter where
  action : PngFilterAction
  bytesPerRow : ℕ
  bytesPerPixel : ℕ
  rowCapacity : ℕ
  buf1 : Bytes := []
  buf2 : Bytes := []
  curIsFirst : Bool := true
  hasPrev : Bool := true
  pos : ℕ := 0
  incoming : ℕ
  out : Bytes := []
  deriving DecidableEq, Repr

namespace PngFilter

/-- The row width wraps at 32 bits, as in the source. -/
def new (action : PngFilterAction) (columns samplesPerPixel bitsPerSample : UInt32) :
    Except Bytes PngFilter :=
  if samplesPerPixel = 0 then
    .error (ascii "PNGFilter created with invalid samples_per_pixel")
  else if bitsPerSample ∉ [1, 2, 4, 8, 16] then
    .error (ascii "PNGFilter created with invalid bits_per_sample not 1, 2, 4, 8, or 16")
  else
    let bytesPerPixel := (bitsPerSample * samplesPerPixel + 7) / 8
    let bytesPerRow := (columns * bitsPerSample * samplesPerPixel + 7) / 8
    if bytesPerRow = 0 then .error (ascii "PNGFilter created with invalid columns value")
    else .ok {
      action := action
      bytesPerRow := bytesPerRow.toNat
      bytesPerPixel := bytesPerPixel.toNat
      rowCapacity := bytesPerRow.toNat + 1
      incoming := match action with
        | .encode => bytesPerRow.toNat
        | .decode => bytesPerRow.toNat + 1 }

/-! ## The row filters -/

/-- The byte one pixel to the left. -/
def leftOf (buffer : Bytes) (bytesPerPixel index : ℕ) : UInt8 :=
  if index ≥ bytesPerPixel then buffer.getD (index - bytesPerPixel) 0 else 0

def decodeSub (buffer : Bytes) (bytesPerPixel : ℕ) : Bytes :=
  (List.range buffer.length).foldl
    (fun buffer index =>
      buffer.set index (buffer.getD index 0 + leftOf buffer bytesPerPixel index))
    buffer

def decodeUp (buffer above : Bytes) : Bytes :=
  List.zipWith (· + ·) buffer above ++ buffer.drop above.length

def decodeAverage (buffer above : Bytes) (bytesPerPixel : ℕ) : Bytes :=
  (List.range buffer.length).foldl
    (fun buffer index =>
      let left := (leftOf buffer bytesPerPixel index).toNat
      let up := (above.getD index 0).toNat
      buffer.set index (buffer.getD index 0 + UInt8.ofNat ((left + up) / 2)))
    buffer

def absDiff (a b : ℤ) : ℤ := if a > b then a - b else b - a

def paethPredictor (a b c : ℤ) : ℤ :=
  let p := a + b - c
  let pa := absDiff p a
  let pb := absDiff p b
  let pc := absDiff p c
  if pa ≤ pb ∧ pa ≤ pc then a else if pb ≤ pc then b else c

def decodePaeth (buffer above : Bytes) (bytesPerPixel : ℕ) : Bytes :=
  (List.range buffer.length).foldl
    (fun buffer index =>
      let up := (above.getD index 0).toNat
      let left := (leftOf buffer bytesPerPixel index).toNat
      let upperLeft := (leftOf above bytesPerPixel index).toNat
      buffer.set index (buffer.getD index 0 + UInt8.ofInt (paethPredictor left up upperLeft)))
    buffer

/-- A row by its filter byte; an unknown filter leaves the row as it is. -/
def decodeFilter (filter : UInt8) (buffer above : Bytes) (bytesPerPixel : ℕ) : Bytes :=
  match filter with
  | 1 => decodeSub buffer bytesPerPixel
  | 2 => decodeUp buffer above
  | 3 => decodeAverage buffer above bytesPerPixel
  | 4 => decodePaeth buffer above bytesPerPixel
  | _ => buffer

/-- What `write_up_predictor_row` hands to the next stage. -/
def upPredictorRow (row : Bytes) (previous : Option Bytes) : Bytes :=
  match previous with
  | some previous => 2 :: List.zipWith (· - ·) row previous
  | none => 2 :: row

/-! ## The stage -/

def current (f : PngFilter) : Bytes := if f.curIsFirst then f.buf1 else f.buf2

def previous (f : PngFilter) : Bytes := if f.curIsFirst then f.buf2 else f.buf1

def setCurrent (f : PngFilter) (buffer : Bytes) : PngFilter :=
  if f.curIsFirst then { f with buf1 := buffer } else { f with buf2 := buffer }

/-- The buffers are allocated with the first byte. -/
def ensureRowBuffers (f : PngFilter) : PngFilter :=
  if f.buf1 = [] then
    { f with buf1 := List.replicate f.rowCapacity 0, buf2 := List.replicate f.rowCapacity 0 }
  else f

def decodeRow (f : PngFilter) : PngFilter :=
  let f :=
    if f.hasPrev then
      let filter := f.current.headD 0
      let buffer := (f.current.drop 1).take f.bytesPerRow
      let above := (f.previous.drop 1).take f.bytesPerRow
      f.setCurrent (filter :: (decodeFilter filter buffer above f.bytesPerPixel ++
        f.current.drop (f.bytesPerRow + 1)))
    else f
  { f with out := f.out ++ (f.current.drop 1).take f.bytesPerRow }

def encodeRow (f : PngFilter) : PngFilter :=
  let above := if f.hasPrev then some (f.previous.take f.bytesPerRow) else none
  { f with out := f.out ++ upPredictorRow (f.current.take f.bytesPerRow) above }

def processRow (f : PngFilter) : PngFilter :=
  match f.action with
  | .encode => f.encodeRow
  | .decode => f.decodeRow

def copyIntoCurrent (f : PngFilter) (data : Bytes) : PngFilter :=
  f.setCurrent (f.current.take f.pos ++ data ++ f.current.drop (f.pos + data.length))

def zeroed (buffer : Bytes) : Bytes := List.replicate buffer.length 0

/-- The buffers change their roles, and the new current one is cleared. -/
def nextRow (f : PngFilter) : PngFilter :=
  let f := { f with curIsFirst := !f.curIsFirst, hasPrev := true, pos := 0 }
  f.setCurrent (zeroed f.current)

/-- The loop of `write`; every round takes a byte. -/
def writeLoop : ℕ → Bytes → PngFilter → PngFilter
  | 0, _, f => f
  | fuel + 1, data, f =>
    let left := f.incoming - f.pos
    if data.length ≥ left then
      writeLoop fuel (data.drop left) (f.copyIntoCurrent (data.take left)).processRow.nextRow
    else if data.length > 0 then
      { f.copyIntoCurrent data with pos := f.pos + data.length }
    else f

def write (f : PngFilter) (data : Bytes) : PngFilter :=
  if data = [] then f else writeLoop (data.length + 1) data f.ensureRowBuffers

def finish (f : PngFilter) : PngFilter :=
  let f := if f.pos ≠ 0 then f.processRow else f
  { f with hasPrev := false, curIsFirst := true, pos := 0, buf1 := zeroed f.buf1 }

def writeAll (f : PngFilter) (chunks : List Bytes) : PngFilter := chunks.foldl write f

/-! ## Buffers and rows -/

section Buffers

variable (f : PngFilter) (buffer : Bytes)

@[simp] theorem current_setCurrent : (f.setCurrent buffer).current = buffer := by
  unfold setCurrent current
  by_cases hfirst : f.curIsFirst = true
  · simp only [hfirst, if_true]
  · simp only [hfirst, Bool.false_eq_true, if_false]

@[simp] theorem previous_setCurrent : (f.setCurrent buffer).previous = f.previous := by
  unfold setCurrent previous
  by_cases hfirst : f.curIsFirst = true
  · simp only [hfirst, if_true]
  · simp only [hfirst, Bool.false_eq_true, if_false]

/-- Only the buffers of the stage change with the current one. -/
theorem setCurrent_rest : ∃ first second,
    f.setCurrent buffer = { f with buf1 := first, buf2 := second } := by
  unfold setCurrent
  by_cases hfirst : f.curIsFirst = true
  · exact ⟨buffer, f.buf2, if_pos hfirst⟩
  · exact ⟨f.buf1, buffer, if_neg hfirst⟩

@[simp] theorem current_nextRow : f.nextRow.current = zeroed f.previous := by
  rw [nextRow, current_setCurrent]
  cases hfirst : f.curIsFirst <;> simp [current, previous, hfirst]

@[simp] theorem previous_nextRow : f.nextRow.previous = f.current := by
  rw [nextRow, previous_setCurrent]
  cases hfirst : f.curIsFirst <;> simp [current, previous, hfirst]

end Buffers

/-- What does not change while a stage runs. -/
structure Geometry where
  action : PngFilterAction
  bytesPerRow : ℕ
  bytesPerPixel : ℕ
  pos_of_row : 0 < bytesPerRow

namespace Geometry

variable (g : Geometry)

/-- The bytes that come in for a row. -/
def incoming : ℕ :=
  match g.action with
  | .encode => g.bytesPerRow
  | .decode => g.bytesPerRow + 1

/-- The part of a buffer that the row after it is compared with. -/
def content (buffer : Bytes) : Bytes :=
  match g.action with
  | .encode => buffer.take g.bytesPerRow
  | .decode => (buffer.drop 1).take g.bytesPerRow

/-- What a row leaves for the next one, and what is written for it. -/
def pass (s : Bytes × Bytes) (row : Bytes) : Bytes × Bytes :=
  match g.action with
  | .encode => (row, s.2 ++ upPredictorRow row (some s.1))
  | .decode =>
    let decoded := decodeFilter (row.headD 0) (row.drop 1) s.1 g.bytesPerPixel
    (decoded, s.2 ++ decoded)

/-- The first row is compared with zeros. -/
def passAll (rows : List Bytes) : Bytes × Bytes :=
  rows.foldl g.pass (List.replicate g.bytesPerRow 0, [])

end Geometry

variable {g : Geometry} {f : PngFilter} {data more : Bytes} {rows : List Bytes} {part : Bytes}

theorem set_fold_length (step : Bytes → ℕ → UInt8) (indices : List ℕ) (buffer : Bytes) :
    (indices.foldl (fun buffer index => buffer.set index (step buffer index)) buffer).length =
      buffer.length := by
  induction indices generalizing buffer with
  | nil => rfl
  | cons index indices ih => rw [List.foldl_cons, ih, List.length_set]

theorem decodeFilter_length (filter : UInt8) {buffer above : Bytes}
    (h : buffer.length = above.length) (bytesPerPixel : ℕ) :
    (decodeFilter filter buffer above bytesPerPixel).length = buffer.length := by
  unfold decodeFilter
  split
  · exact set_fold_length _ _ _
  · rw [decodeUp, List.length_append, List.length_zipWith, List.length_drop]
    omega
  · exact set_fold_length _ _ _
  · exact set_fold_length _ _ _
  · rfl

/-- The stage has worked on some rows and holds a part of the next one. -/
structure Running (g : Geometry) (f : PngFilter) (rows : List Bytes) (part : Bytes) : Prop where
  action : f.action = g.action
  bytesPerRow : f.bytesPerRow = g.bytesPerRow
  bytesPerPixel : f.bytesPerPixel = g.bytesPerPixel
  incoming : f.incoming = g.incoming
  pos : f.pos = part.length
  hasPrev : f.hasPrev = true
  current : f.current = part ++ List.replicate (g.bytesPerRow + 1 - part.length) 0
  previous_length : f.previous.length = g.bytesPerRow + 1
  passed : (g.content f.previous, f.out) = g.passAll rows

theorem Geometry.incoming_le (g : Geometry) : g.incoming ≤ g.bytesPerRow + 1 := by
  unfold Geometry.incoming
  split <;> omega

theorem Geometry.content_length (g : Geometry) {buffer : Bytes}
    (h : buffer.length = g.bytesPerRow + 1) : (g.content buffer).length = g.bytesPerRow := by
  unfold Geometry.content
  split
  · rw [List.length_take]
    omega
  · rw [List.length_take, List.length_drop]
    omega

/-- More of the row is copied behind what is there. -/
theorem Running.copy (h : Running g f rows part) (hmore : part.length + more.length ≤ g.bytesPerRow + 1) :
    Running g { f.copyIntoCurrent more with pos := f.pos + more.length } rows (part ++ more) := by
  obtain ⟨first, second, hset⟩ := setCurrent_rest f
    (f.current.take f.pos ++ more ++ f.current.drop (f.pos + more.length))
  have hcurrent : (f.copyIntoCurrent more).current = part ++ more ++
      List.replicate (g.bytesPerRow + 1 - (part ++ more).length) 0 := by
    rw [copyIntoCurrent, current_setCurrent, h.current, h.pos, List.take_left', List.drop_append,
      List.drop_of_length_le (by omega), List.drop_replicate, List.nil_append, List.length_append]
    · congr 2
      omega
    · rfl
  have hprevious : (f.copyIntoCurrent more).previous = f.previous := previous_setCurrent _ _
  constructor
  · rw [copyIntoCurrent, hset]
    exact h.action
  · rw [copyIntoCurrent, hset]
    exact h.bytesPerRow
  · rw [copyIntoCurrent, hset]
    exact h.bytesPerPixel
  · rw [copyIntoCurrent, hset]
    exact h.incoming
  · show f.pos + more.length = (part ++ more).length
    rw [h.pos, List.length_append]
  · rw [copyIntoCurrent, hset]
    exact h.hasPrev
  · exact hcurrent
  · show (f.copyIntoCurrent more).previous.length = g.bytesPerRow + 1
    rw [hprevious, h.previous_length]
  · show (g.content (f.copyIntoCurrent more).previous, (f.copyIntoCurrent more).out) = _
    rw [hprevious, ← h.passed, copyIntoCurrent, hset]

theorem Running.encodeRow (h : Running g f rows part) (haction : g.action = .encode) {row : Bytes}
    (hrow : f.current.take g.bytesPerRow = row) :
    f.processRow = { f with out := (g.pass (g.content f.previous, f.out) row).2 } := by
  have habove : (if f.hasPrev then some (f.previous.take f.bytesPerRow) else none) =
      some (g.content f.previous) := by
    rw [if_pos h.hasPrev, h.bytesPerRow, Geometry.content, haction]
  have htake : f.current.take f.bytesPerRow = row := by rw [h.bytesPerRow, hrow]
  have hprocess : f.processRow = f.encodeRow := by rw [PngFilter.processRow, h.action, haction]
  rw [hprocess, PngFilter.encodeRow, habove, htake, Geometry.pass, haction]

theorem Running.decodeRow (h : Running g f rows part) (haction : g.action = .decode)
    (hlength : f.current.length = g.bytesPerRow + 1) :
    ∃ decoded, g.pass (g.content f.previous, f.out) f.current = (decoded, f.out ++ decoded) ∧
      decoded.length = g.bytesPerRow ∧
      f.processRow = { f.setCurrent (f.current.headD 0 :: decoded) with out := f.out ++ decoded } := by
  have hdropped : (f.current.drop 1).length = g.bytesPerRow := by
    rw [List.length_drop, hlength, Nat.add_sub_cancel]
  have habove : (f.previous.drop 1).take f.bytesPerRow = g.content f.previous := by
    rw [h.bytesPerRow, Geometry.content, haction]
  have hbuffer : (f.current.drop 1).take f.bytesPerRow = f.current.drop 1 := by
    rw [h.bytesPerRow, ← hdropped, List.take_length]
  have hrest : f.current.drop (f.bytesPerRow + 1) = [] := by
    rw [h.bytesPerRow, ← hlength, List.drop_length]
  have hdecoded := decodeFilter_length (f.current.headD 0)
    (hdropped.trans (g.content_length h.previous_length).symm) f.bytesPerPixel
  have hprocess : f.processRow = f.decodeRow := by rw [PngFilter.processRow, h.action, haction]
  rw [Geometry.pass, haction, ← h.bytesPerPixel, hprocess, PngFilter.decodeRow, if_pos h.hasPrev]
  dsimp only
  rw [habove, hbuffer, hrest, List.append_nil]
  generalize decodeFilter _ _ _ _ = decoded at hdecoded ⊢
  refine ⟨decoded, rfl, hdecoded.trans hdropped, ?_⟩
  obtain ⟨first, second, hset⟩ := setCurrent_rest f (f.current.headD 0 :: decoded)
  have hwidth : (f.setCurrent (f.current.headD 0 :: decoded)).bytesPerRow = decoded.length := by
    rw [hset, hdecoded, hdropped]
    exact h.bytesPerRow
  have hout : (f.setCurrent (f.current.headD 0 :: decoded)).out = f.out := by rw [hset]
  rw [current_setCurrent, hwidth, hout, List.drop_succ_cons, List.drop_zero, List.take_length]

/-- What working on a row does. -/
theorem Running.processRow (h : Running g f rows part) {row : Bytes}
    (hcurrent : f.current = row ++ List.replicate (g.bytesPerRow + 1 - row.length) 0)
    (hlength : row.length = g.incoming) :
    (∃ first second out, f.processRow = { f with buf1 := first, buf2 := second, out := out }) ∧
      f.processRow.current.length = g.bytesPerRow + 1 ∧ f.processRow.previous = f.previous ∧
      (g.content f.processRow.current, f.processRow.out) =
        g.pass (g.content f.previous, f.out) row := by
  have hfull : f.current.length = g.bytesPerRow + 1 := by
    have hle := g.incoming_le
    rw [hcurrent, List.length_append, List.length_replicate]
    omega
  cases haction : g.action with
  | encode =>
    have hwidth : row.length = g.bytesPerRow := by rw [hlength, Geometry.incoming, haction]
    have hrow : f.current.take g.bytesPerRow = row := by rw [hcurrent, List.take_left' hwidth]
    rw [h.encodeRow haction hrow]
    refine ⟨⟨f.buf1, f.buf2, _, rfl⟩, hfull, rfl, ?_⟩
    show (g.content f.current, _) = _
    rw [Geometry.content, Geometry.pass, haction]
    dsimp only
    rw [hrow]
  | decode =>
    have hwidth : row.length = g.bytesPerRow + 1 := by rw [hlength, Geometry.incoming, haction]
    have hrow : f.current = row := by
      rw [hcurrent, hwidth, Nat.sub_self, List.replicate_zero, List.append_nil]
    obtain ⟨decoded, hpass, hdecoded, hprocess⟩ := h.decodeRow haction hfull
    rw [hrow] at hpass hprocess
    obtain ⟨first, second, hset⟩ := setCurrent_rest f (row.headD 0 :: decoded)
    have hkept : f.processRow.current = row.headD 0 :: decoded := by
      rw [hprocess]
      exact current_setCurrent _ _
    refine ⟨⟨first, second, f.out ++ decoded, ?_⟩, ?_, ?_, ?_⟩
    · rw [hprocess, hset]
    · rw [hkept, List.length_cons, hdecoded]
    · rw [hprocess]
      exact previous_setCurrent _ _
    · rw [hkept, hpass, hprocess, Geometry.content, haction]
      dsimp only
      rw [List.drop_succ_cons, List.drop_zero, List.take_of_length_le (Nat.le_of_eq hdecoded)]

theorem Geometry.passAll_concat (g : Geometry) (rows : List Bytes) (row : Bytes) :
    g.passAll (rows ++ [row]) = g.pass (g.passAll rows) row := by
  rw [passAll, List.foldl_append]
  rfl

theorem nextRow_rest (f : PngFilter) : ∃ first second, f.nextRow =
    { f with curIsFirst := !f.curIsFirst, hasPrev := true, pos := 0, buf1 := first, buf2 := second } := by
  obtain ⟨first, second, hset⟩ := setCurrent_rest
    { f with curIsFirst := !f.curIsFirst, hasPrev := true, pos := 0 }
    (zeroed (current { f with curIsFirst := !f.curIsFirst, hasPrev := true, pos := 0 }))
  exact ⟨first, second, hset⟩

/-- A whole row is worked on and the next one begins. -/
theorem Running.nextRow (h : Running g f rows part) (hfull : part.length = g.incoming) :
    Running g f.processRow.nextRow (rows ++ [part]) [] := by
  obtain ⟨⟨first, second, out, hprocess⟩, hlength, hprevious, hpass⟩ := h.processRow h.current hfull
  obtain ⟨first', second', hnext⟩ := nextRow_rest f.processRow
  have hcurrent := current_nextRow f.processRow
  have hkept := previous_nextRow f.processRow
  have hout : f.processRow.nextRow.out = f.processRow.out := by rw [hnext]
  rw [hprevious, zeroed, h.previous_length] at hcurrent
  constructor
  · rw [hnext, hprocess]
    exact h.action
  · rw [hnext, hprocess]
    exact h.bytesPerRow
  · rw [hnext, hprocess]
    exact h.bytesPerPixel
  · rw [hnext, hprocess]
    exact h.incoming
  · rw [hnext]
    rfl
  · rw [hnext]
  · rw [hcurrent]
    rfl
  · rw [hkept, hlength]
  · rw [hkept, hout, g.passAll_concat, ← h.passed, ← hpass]

/-! ## Writing -/

/-- The position is set anew behind a row. -/
theorem nextRow_of_pos (f : PngFilter) (pos : ℕ) :
    { f with pos := pos }.processRow.nextRow = f.processRow.nextRow := by
  obtain ⟨action, _, _, _, buf1, buf2, curIsFirst, hasPrev, _, _, _⟩ := f
  cases action <;> cases curIsFirst <;> cases hasPrev <;> rfl

theorem Geometry.incoming_pos (g : Geometry) : 0 < g.incoming := by
  have hpos := g.pos_of_row
  unfold Geometry.incoming
  split <;> omega

/-- The loop of `write` keeps up with the rows of the data. -/
theorem Running.writeLoop {fuel : ℕ} (h : Running g f rows part)
    (hrows : Rows g.incoming data rows part) (hfuel : more.length < fuel) :
    ∃ rows' part', Rows g.incoming (data ++ more) rows' part' ∧
      Running g (writeLoop fuel more f) rows' part' := by
  induction fuel generalizing f data rows part more with
  | zero => omega
  | succ fuel ih =>
    have hle := g.incoming_le
    have hlt := hrows.part_lt
    rw [PngFilter.writeLoop]
    dsimp only
    rw [h.incoming, h.pos]
    by_cases hfull : more.length ≥ g.incoming - part.length
    · rw [if_pos hfull]
      have htake : (more.take (g.incoming - part.length)).length = g.incoming - part.length :=
        List.length_take_of_le hfull
      have hle' : part.length + (more.take (g.incoming - part.length)).length ≤ g.bytesPerRow + 1 := by
        omega
      have hfills : part.length + (more.take (g.incoming - part.length)).length = g.incoming := by
        omega
      have hcopied := h.copy hle'
      have hnext := hcopied.nextRow (by rw [List.length_append, htake]; omega)
      rw [nextRow_of_pos] at hnext
      have hrest : (more.drop (g.incoming - part.length)).length < fuel := by
        rw [List.length_drop]
        omega
      obtain ⟨rows', part', hrows', hrunning⟩ := ih hnext (hrows.fill hfills) hrest
      rw [List.append_assoc, List.take_append_drop] at hrows'
      exact ⟨rows', part', hrows', hrunning⟩
    · rw [if_neg hfull]
      by_cases hsome : more.length > 0
      · rw [if_pos hsome, ← h.pos]
        exact ⟨rows, part ++ more, hrows.extend (by omega), h.copy (by omega)⟩
      · obtain rfl := List.eq_nil_of_length_eq_zero (Nat.eq_zero_of_not_pos hsome)
        rw [if_neg hsome, List.append_nil]
        exact ⟨rows, part, hrows, h⟩

/-- A stage between two writes; before the first byte it has no buffers. -/
structure Ready (g : Geometry) (f : PngFilter) (rows : List Bytes) (part : Bytes) : Prop where
  running : Running g f.ensureRowBuffers rows part
  allocated : part ≠ [] → f.ensureRowBuffers = f

theorem Running.ensureRowBuffers (h : Running g f rows part) (hle : part.length ≤ g.bytesPerRow + 1) :
    f.ensureRowBuffers = f := by
  have hcurrent : f.current.length = g.bytesPerRow + 1 := by
    rw [h.current, List.length_append, List.length_replicate]
    omega
  have hprevious := h.previous_length
  rw [PngFilter.ensureRowBuffers, if_neg]
  intro hempty
  rw [PngFilter.current] at hcurrent
  rw [PngFilter.previous] at hprevious
  split_ifs at hcurrent hprevious
  · rw [hempty] at hcurrent
    cases hcurrent
  · rw [hempty] at hprevious
    cases hprevious

theorem Ready.write (h : Ready g f rows part) (hrows : Rows g.incoming data rows part)
    (more : Bytes) :
    ∃ rows' part', Rows g.incoming (data ++ more) rows' part' ∧ Ready g (f.write more) rows' part' := by
  rw [PngFilter.write]
  by_cases hmore : more = []
  · subst hmore
    rw [if_pos rfl, List.append_nil]
    exact ⟨rows, part, hrows, h⟩
  · rw [if_neg hmore]
    obtain ⟨rows', part', hrows', hrunning⟩ := h.running.writeLoop hrows (Nat.lt_succ_self more.length)
    have hle := g.incoming_le
    have hlt := hrows'.part_lt
    have hensure := hrunning.ensureRowBuffers (by omega)
    exact ⟨rows', part', hrows', ⟨by rwa [hensure], fun _ => hensure⟩⟩

theorem Ready.writeAll (h : Ready g f rows part) (hrows : Rows g.incoming data rows part)
    (chunks : List Bytes) :
    ∃ rows' part', Rows g.incoming (data ++ chunks.flatten) rows' part' ∧
      Ready g (f.writeAll chunks) rows' part' := by
  induction chunks generalizing f data rows part with
  | nil =>
    rw [List.flatten_nil, List.append_nil]
    exact ⟨rows, part, hrows, h⟩
  | cons chunk chunks ih =>
    obtain ⟨rows', part', hrows', hready⟩ := h.write hrows chunk
    obtain ⟨rows'', part'', hrows'', hready'⟩ := ih hready hrows'
    rw [List.append_assoc, ← List.flatten_cons] at hrows''
    exact ⟨rows'', part'', hrows'', hready'⟩

theorem ensureRowBuffers_out (f : PngFilter) : f.ensureRowBuffers.out = f.out := by
  unfold ensureRowBuffers
  split_ifs <;> rfl

theorem ensureRowBuffers_pos (f : PngFilter) : f.ensureRowBuffers.pos = f.pos := by
  unfold ensureRowBuffers
  split_ifs <;> rfl

theorem Ready.out (h : Ready g f rows part) : f.out = (g.passAll rows).2 := by
  rw [← ensureRowBuffers_out, ← h.running.passed]

/-- A part of a row is filled up with zeros. -/
theorem Ready.finish (h : Ready g f rows part) (hrows : Rows g.incoming data rows part) :
    f.finish.out = (g.passAll (filledRows g.incoming 0 rows part)).2 := by
  have hpos : f.pos = part.length := by rw [← ensureRowBuffers_pos, h.running.pos]
  rw [PngFilter.finish, filledRows]
  by_cases hpart : part = []
  · rw [if_pos hpart, if_neg (by rw [hpos, hpart]; decide)]
    exact h.out
  · have hlt := hrows.part_lt
    have hle := g.incoming_le
    have hrunning := h.running
    rw [h.allocated hpart] at hrunning
    rw [if_neg hpart, if_pos (by rw [hpos]; exact List.length_eq_zero_iff.not.mpr hpart),
      g.passAll_concat, ← hrunning.passed]
    have hcurrent : f.current = part ++ List.replicate (g.incoming - part.length) 0 ++
        List.replicate (g.bytesPerRow + 1 -
          (part ++ List.replicate (g.incoming - part.length) (0 : UInt8)).length) 0 := by
      rw [hrunning.current, List.append_assoc, List.replicate_append_replicate, List.length_append,
        List.length_replicate]
      congr 2
      omega
    obtain ⟨-, -, -, hpass⟩ := hrunning.processRow hcurrent
      (by rw [List.length_append, List.length_replicate]; omega)
    rw [← hpass]

/-! ## Encoding and decoding -/

/-- An accepted stage starts without rows. -/
theorem ready_new {action : PngFilterAction} {columns samplesPerPixel bitsPerSample : UInt32}
    (h : new action columns samplesPerPixel bitsPerSample = .ok f) :
    ∃ g : Geometry, g.action = action ∧
      g.bytesPerRow = ((columns * bitsPerSample * samplesPerPixel + 7) / 8).toNat ∧
      f.bytesPerRow = g.bytesPerRow ∧ Ready g f [] [] := by
  unfold new at h
  split_ifs at h with hsamples hbits
  dsimp only at h
  split_ifs at h with hrow
  cases h
  have hpos : 0 < ((columns * bitsPerSample * samplesPerPixel + 7) / 8).toNat :=
    Nat.pos_of_ne_zero fun hzero => hrow (UInt32.toNat_inj.mp hzero)
  let g : Geometry := ⟨action, ((columns * bitsPerSample * samplesPerPixel + 7) / 8).toNat,
    ((bitsPerSample * samplesPerPixel + 7) / 8).toNat, hpos⟩
  refine ⟨g, rfl, rfl, rfl, ⟨?_, fun hpart => absurd rfl hpart⟩⟩
  rw [ensureRowBuffers, if_pos rfl]
  constructor
  · rfl
  · rfl
  · rfl
  · rfl
  · rfl
  · rfl
  · rfl
  · exact List.length_replicate
  · cases action <;> simp [g, Geometry.content, Geometry.passAll, previous]

/-- What a stage has written after some data, and after `finish`. -/
theorem writeAll_out {action : PngFilterAction} {columns samplesPerPixel bitsPerSample : UInt32}
    (h : new action columns samplesPerPixel bitsPerSample = .ok f) :
    ∃ g : Geometry, g.action = action ∧ g.bytesPerRow = f.bytesPerRow ∧
      g.bytesPerRow = ((columns * bitsPerSample * samplesPerPixel + 7) / 8).toNat ∧
      ∀ chunks : List Bytes, ∃ rows part, Rows g.incoming chunks.flatten rows part ∧
        (f.writeAll chunks).out = (g.passAll rows).2 ∧
        (f.writeAll chunks).finish.out = (g.passAll (filledRows g.incoming 0 rows part)).2 := by
  obtain ⟨g, haction, hwidth, hrow, hready⟩ := ready_new h
  refine ⟨g, haction, hrow.symm, hwidth, fun chunks => ?_⟩
  obtain ⟨rows, part, hrows, hready'⟩ := hready.writeAll (Rows.nil g.incoming_pos) chunks
  exact ⟨rows, part, hrows, hready'.out, hready'.finish hrows⟩

/-- The rows of an encoding, each behind the row before it. -/
def encodedRows : Bytes → List Bytes → List Bytes
  | _, [] => []
  | above, row :: rows => upPredictorRow row (some above) :: encodedRows row rows

theorem encodedRows_length {width : ℕ} {above : Bytes} (habove : above.length = width)
    (h : ∀ row ∈ rows, row.length = width) :
    ∀ row ∈ encodedRows above rows, row.length = width + 1 := by
  induction rows generalizing above with
  | nil => exact nofun
  | cons first rows ih =>
    have hfirst := h first List.mem_cons_self
    intro row hrow
    rcases List.mem_cons.mp hrow with rfl | hrest
    · rw [upPredictorRow, List.length_cons, List.length_zipWith, hfirst, habove, Nat.min_self]
    · exact ih hfirst (fun row hmem => h row (List.mem_cons_of_mem _ hmem)) row hrest

theorem passAll_encode (haction : g.action = .encode) (above out : Bytes) :
    (rows.foldl g.pass (above, out)).2 = out ++ (encodedRows above rows).flatten := by
  induction rows generalizing above out with
  | nil => exact (List.append_nil out).symm
  | cons row rows ih =>
    rw [List.foldl_cons, Geometry.pass, haction]
    dsimp only
    rw [ih, encodedRows, List.flatten_cons, List.append_assoc]

/-- Up undoes its own differences. -/
theorem decodeUp_differences {row above : Bytes} (h : row.length = above.length) :
    decodeUp (List.zipWith (· - ·) row above) above = row := by
  have hrest : (List.zipWith (· - ·) row above).drop above.length = [] :=
    List.drop_of_length_le (by rw [List.length_zipWith]; omega)
  rw [decodeUp, hrest, List.append_nil]
  apply List.ext_getElem
  · rw [List.length_zipWith, List.length_zipWith]
    omega
  · intro i hi hi'
    rw [List.getElem_zipWith, List.getElem_zipWith]
    exact UInt8.sub_add_cancel _ _

theorem passAll_decode (haction : g.action = .decode) {above : Bytes}
    (habove : above.length = g.bytesPerRow) (h : ∀ row ∈ rows, row.length = g.bytesPerRow)
    (out : Bytes) :
    ((encodedRows above rows).foldl g.pass (above, out)).2 = out ++ rows.flatten := by
  induction rows generalizing above out with
  | nil => exact (List.append_nil out).symm
  | cons row rows ih =>
    have hrow := h row List.mem_cons_self
    have hdecoded : g.pass (above, out) (upPredictorRow row (some above)) = (row, out ++ row) := by
      rw [Geometry.pass, haction]
      exact congrArg (fun decoded => (decoded, out ++ decoded))
        (decodeUp_differences (hrow.trans habove.symm))
    rw [encodedRows, List.foldl_cons, hdecoded,
      ih hrow fun row hmem => h row (List.mem_cons_of_mem _ hmem), List.flatten_cons,
      List.append_assoc]

/-- Decoding what was encoded gives the data back, filled up to whole rows. -/
theorem decode_encode {columns samplesPerPixel bitsPerSample : UInt32} {encoder decoder : PngFilter}
    (hencoder : new .encode columns samplesPerPixel bitsPerSample = .ok encoder)
    (hdecoder : new .decode columns samplesPerPixel bitsPerSample = .ok decoder)
    (chunks encodedChunks : List Bytes)
    (hsplit : encodedChunks.flatten = (encoder.writeAll chunks).finish.out) :
    (decoder.writeAll encodedChunks).out = padRows encoder.bytesPerRow 0 chunks.flatten ∧
      (decoder.writeAll encodedChunks).finish.out =
        padRows encoder.bytesPerRow 0 chunks.flatten := by
  obtain ⟨g, haction, hsame, hwidth, hencode⟩ := writeAll_out hencoder
  obtain ⟨g', haction', -, hwidth', hdecode⟩ := writeAll_out hdecoder
  obtain ⟨rows, part, hrows, -, hout⟩ := hencode chunks
  obtain ⟨rows', part', hrows', hwrite, hfinish⟩ := hdecode encodedChunks
  have hincoming : g.incoming = g.bytesPerRow := by rw [Geometry.incoming, haction]
  have hincoming' : g'.incoming = g.bytesPerRow + 1 := by
    rw [Geometry.incoming, haction', hwidth', ← hwidth]
  have hlengths := hrows.filledRows_length 0
  rw [hincoming] at hlengths hout hrows
  have hzeros : (List.replicate g.bytesPerRow (0 : UInt8)).length = g.bytesPerRow :=
    List.length_replicate
  rw [Geometry.passAll, passAll_encode haction, List.nil_append] at hout
  generalize hfilled : filledRows g.bytesPerRow 0 rows part = filled at hlengths hout
  have hwhole : Rows g'.incoming encodedChunks.flatten
      (encodedRows (List.replicate g.bytesPerRow 0) filled) [] := by
    constructor
    · rw [hsplit, hout, List.append_nil]
    · rw [hincoming']
      exact encodedRows_length hzeros hlengths
    · exact g'.incoming_pos
  obtain ⟨rfl, rfl⟩ := hrows'.unique hwhole
  have hgiven : (g'.passAll (encodedRows (List.replicate g.bytesPerRow 0) filled)).2 =
      padRows encoder.bytesPerRow 0 chunks.flatten := by
    rw [Geometry.passAll, hwidth', ← hwidth, passAll_decode haction' (by rw [hzeros, hwidth, hwidth'])
      (by rwa [hwidth', ← hwidth]), List.nil_append, ← hfilled, hrows.flatten_filledRows, hsame]
  refine ⟨hwrite.trans hgiven, hfinish.trans ?_⟩
  rw [filledRows, if_pos rfl, hgiven]

/-- Two rows of two pixels, the second one cut short; both stages get them in pieces. -/
theorem decode_encode_short :
    (writeAll { action := .decode, bytesPerRow := 2, bytesPerPixel := 1, rowCapacity := 3, incoming := 3 }
      [[2], [1, 2, 2, 4], [254]]).finish.out = [1, 2, 5, 0] :=
  (@decode_encode 2 1 8
    { action := .encode, bytesPerRow := 2, bytesPerPixel := 1, rowCapacity := 3, incoming := 2 } _
    rfl rfl [[1], [2, 5]] [[2], [1, 2, 2, 4], [254]] (by decide)).2

end PngFilter

end Flpdf
