import Flpdf.Lzw.Extraction

/-! # The decoder refines the bit-level definition

`Loaded` relates the registers to the bytes written so far and the number of
bits already taken from them.  `Tables` relates the string tables.
-/

namespace Flpdf.Lzw

open Bits Reference

/-- The three-byte buffer holds every byte that still has unread bits. -/
structure Loaded (bytes : Bytes) (taken : ℕ) (d : LzwDecoder) : Prop where
  bufNext : d.bufNext = bytes.length % 3
  bytePos : d.bytePos = taken / 8 % 3
  bitPos : d.bitPos = taken % 8
  available : taken + d.bitsAvailable = 8 * bytes.length
  held : ∀ i (h : i < bytes.length), taken / 8 ≤ i →
    d.buf ⟨i % 3, Nat.mod_lt _ (by decide)⟩ = bytes[i]
  nine_le : 9 ≤ d.codeSize
  le_twelve : d.codeSize ≤ 12

/-- The two decoders have the same strings and the same output. -/
structure Tables (early : Bool) (s : Reference) (d : LzwDecoder) : Prop where
  delta : d.codeChangeDelta = early
  table : d.table = s.table
  codeSize : d.codeSize = width early s.table
  written : d.written = s.output
  nonempty : ∀ string ∈ s.table, string ≠ []
  length_le : s.table.length ≤ 3838
  previous : match s.previous with
    | none => d.lastCode = 256 ∧ s.table = []
    | some string => d.lastCode ≠ 256 ∧ d.lastCode ≠ 257 ∧ string ≠ [] ∧
      expand s.table d.lastCode = some string

variable {early : Bool} {s s' : Reference} {d d' : LzwDecoder} {code : ℕ} {string : Bytes}

/-! ## Strings -/

theorem expand_ne_nil {table : List Bytes} (h : ∀ string ∈ table, string ≠ [])
    (he : expand table code = some string) : string ≠ [] := by
  unfold expand at he
  split_ifs at he
  · obtain rfl := Option.some.inj he
    simp
  · exact h _ (List.mem_of_getElem? he)

theorem expand_append {table : List Bytes} (entry : Bytes)
    (he : expand table code = some string) : expand (table ++ [entry]) code = some string := by
  unfold expand at he ⊢
  split_ifs at he ⊢
  · exact he
  · exact List.getElem?_append_left (List.getElem?_eq_some_iff.mp he).1 ▸ he

/-- Every read code has a string in the table that its reading completes. -/
theorem expand_of_lookup {table : List Bytes} {previous : Bytes} (hp : previous ≠ [])
    (hl : lookup table previous code = some string) :
    expand (table ++ [previous ++ string.take 1]) code = some string := by
  unfold lookup at hl
  split_ifs at hl with hc
  · obtain rfl := Option.some.inj hl
    have htake : (previous ++ previous.take 1).take 1 = previous.take 1 := by
      cases previous with
      | nil => exact absurd rfl hp
      | cons c rest => simp
    rw [htake, expand, if_neg (by omega), hc]
    simp
  · exact expand_append _ hl

theorem getFirstChar_eq (hne : string ≠ []) (h₁ : code ≠ 256) (h₂ : code ≠ 257)
    (he : expand d.table code = some string) :
    ∃ c, d.getFirstChar code = .ok c ∧ string.take 1 = [c] := by
  unfold expand at he
  unfold LzwDecoder.getFirstChar
  split_ifs at he with hc
  · obtain rfl := Option.some.inj he
    exact ⟨code.toUInt8, if_pos hc, rfl⟩
  · rw [if_neg (by simpa [clearCode] using hc), if_pos (by unfold eodCode; omega)]
    rw [show code - firstTableCode = code - 258 by rfl, he]
    cases string with
    | nil => exact absurd rfl hne
    | cons c rest => exact ⟨c, rfl, rfl⟩

theorem nextChar_eq (ht : Tables early s d) {previous : Bytes} (hs : s.previous = some previous)
    (h₁ : code ≠ 256) (h₂ : code ≠ 257) :
    match lookup s.table previous code with
    | none => d.nextChar code = .error (.runtime "LZWDecoder: bad code received")
    | some string => ∃ c, d.nextChar code = .ok c ∧ string.take 1 = [c] := by
  have hprevious := ht.previous
  simp only [hs] at hprevious
  obtain ⟨hl₁, hl₂, hp, hexpand⟩ := hprevious
  have hlast := getFirstChar_eq hp hl₁ hl₂ (ht.table ▸ hexpand)
  unfold lookup
  by_cases hc : code = 258 + s.table.length
  · obtain ⟨c, hget, hhead⟩ := hlast
    refine if_pos hc ▸ ⟨c, ?_, ?_⟩
    · rw [LzwDecoder.nextChar, if_neg (by simp [clearCode]; omega), ht.table,
        if_neg (by simp [firstTableCode]; omega), if_pos (by simp [firstTableCode]; omega), hget]
    · cases previous with
      | nil => exact absurd rfl hp
      | cons x rest => simpa using hhead
  · rw [if_neg hc]
    cases he : expand s.table code with
    | none =>
      unfold expand at he
      split_ifs at he with hlt
      have hlen := List.getElem?_eq_none_iff.mp he
      rw [LzwDecoder.nextChar, if_neg (by simpa [clearCode] using hlt), ht.table, if_pos]
      simp only [firstTableCode]
      omega
    | some string =>
      obtain ⟨c, hget, hhead⟩ := getFirstChar_eq (expand_ne_nil ht.nonempty he) h₁ h₂
        (ht.table ▸ he)
      refine ⟨c, ?_, hhead⟩
      unfold LzwDecoder.nextChar
      by_cases hlt : code < clearCode
      · rw [if_pos hlt]
        unfold LzwDecoder.getFirstChar at hget
        rwa [if_pos hlt] at hget
      · unfold expand at he
        rw [if_neg (by simpa [clearCode] using hlt)] at he
        have hlen := (List.getElem?_eq_some_iff.mp he).1
        rw [if_neg hlt, ht.table, if_neg (by simp [firstTableCode]; omega),
          if_neg (by simp [firstTableCode]; omega), hget]

theorem addToTable_eq (ht : Tables early s d) {previous : Bytes} (hs : s.previous = some previous)
    (c : UInt8) : d.addToTable c = .ok { d with table := s.table ++ [previous ++ [c]] } := by
  have hprevious := ht.previous
  simp only [hs] at hprevious
  obtain ⟨hl₁, hl₂, hp, hexpand⟩ := hprevious
  unfold expand at hexpand
  unfold LzwDecoder.addToTable
  by_cases hlt : d.lastCode < clearCode
  · rw [if_pos (show d.lastCode < 256 from hlt)] at hexpand
    obtain rfl := Option.some.inj hexpand
    rw [if_pos hlt, ht.table]
    rfl
  · rw [if_neg (show ¬d.lastCode < 256 from hlt)] at hexpand
    have hge : 256 ≤ d.lastCode := not_lt.mp hlt
    rw [if_neg hlt, if_pos (by unfold eodCode; omega), ht.table,
      show d.lastCode - firstTableCode = d.lastCode - 258 by rfl, hexpand]

/-- The width of a code grows with the table exactly at the three indices. -/
theorem width_snoc (early : Bool) (table : List Bytes) (entry : Bytes) :
    width early (table ++ [entry]) = width early table +
      if firstTableCode + table.length + early.toNat = 511 ∨
        firstTableCode + table.length + early.toNat = 1023 ∨
        firstTableCode + table.length + early.toNat = 2047 then 1 else 0 := by
  rw [width, width, List.length_append, List.length_singleton]
  by_cases hc : firstTableCode + table.length + early.toNat = 511 ∨
    firstTableCode + table.length + early.toNat = 1023 ∨
    firstTableCode + table.length + early.toNat = 2047
  · rw [if_pos hc]
    unfold firstTableCode at hc
    split_ifs <;> omega
  · rw [if_neg hc]
    unfold firstTableCode at hc
    split_ifs <;> omega

theorem width_le (early : Bool) (table : List Bytes) : width early table ≤ 12 := by
  rw [width]
  split_ifs <;> omega

/-- The outcome of reading a code, on both sides. -/
theorem learn_eq (ht : Tables early s d) {previous : Bytes} (hs : s.previous = some previous)
    (h₁ : code ≠ 256) (h₂ : code ≠ 257) :
    match lookup s.table previous code with
    | none => d.learn code = .error (.runtime "LZWDecoder: bad code received")
    | some string =>
      d.learn code =
        if 258 + s.table.length = 4096 then .error (.runtime "LZWDecoder: table full")
        else .ok { d with
          table := s.table ++ [previous ++ string.take 1]
          codeSize := width early (s.table ++ [previous ++ string.take 1]) } := by
  have hprevious := ht.previous
  simp only [hs] at hprevious
  have hnext := nextChar_eq ht hs h₁ h₂
  have hclear : d.lastCode ≠ clearCode := hprevious.1
  cases hl : lookup s.table previous code with
  | none =>
    simp only [hl] at hnext ⊢
    rw [LzwDecoder.learn, if_pos hclear, hnext]
    rfl
  | some string =>
    simp only [hl] at hnext ⊢
    obtain ⟨c, hc, hhead⟩ := hnext
    rw [LzwDecoder.learn, if_pos hclear, hc, ht.table, hhead]
    simp only [bind, Except.bind]
    by_cases hfull : firstTableCode + s.table.length = tableLimit
    · rw [if_pos hfull, if_pos (show 258 + s.table.length = 4096 from hfull)]
      rfl
    · rw [if_neg hfull, if_neg (show ¬258 + s.table.length = 4096 from hfull), width_snoc,
        ← ht.codeSize, addToTable_eq ht hs]
      dsimp only
      rw [ht.delta]
      by_cases hchange : firstTableCode + s.table.length + early.toNat = 511 ∨
        firstTableCode + s.table.length + early.toNat = 1023 ∨
        firstTableCode + s.table.length + early.toNat = 2047
      · rw [if_pos hchange, if_pos hchange]
        rfl
      · rw [if_neg hchange, if_neg hchange]
        rfl

theorem emit_eq (d : LzwDecoder) (code : ℕ) :
    d.emit code = match expand d.table code with
      | some string => .ok { d with written := d.written ++ [string] }
      | none => .error (.runtime "Pl_LZWDecoder::handleCode: table overflow") := by
  unfold LzwDecoder.emit expand
  by_cases hc : code < clearCode
  · rw [if_pos hc, if_pos (show code < 256 from hc)]
  · rw [if_neg hc, if_neg (show ¬code < 256 from hc)]
    rfl

/-- What a code leaves alone. -/
structure SameRegisters (d d' : LzwDecoder) : Prop where
  buf : d'.buf = d.buf
  bufNext : d'.bufNext = d.bufNext
  bytePos : d'.bytePos = d.bytePos
  bitPos : d'.bitPos = d.bitPos
  bitsAvailable : d'.bitsAvailable = d.bitsAvailable

/-- The relation between the decoders; after end-of-data only the output counts. -/
structure Agrees (early : Bool) (s : Reference) (d : LzwDecoder) : Prop where
  eod : d.eod = s.stopped
  written : d.written = s.output
  tables : s.stopped = false → Tables early s d

/-- A code is handled alike by the decoder and by the reference. -/
theorem handleCode_refines (ht : Tables early s d) (heod : d.eod = false)
    (hstopped : s.stopped = false) (code : ℕ) :
    match s.step code with
    | .error e => d.handleCode code = .error e
    | .ok s' => ∃ d', d.handleCode code = .ok d' ∧ Agrees early s' d' ∧ SameRegisters d d' ∧
        (s'.stopped = true → d'.codeSize = d.codeSize) := by
  have hrun : d.handleCode code = if code = clearCode then
      .ok { d with table := [], codeSize := 9, lastCode := code }
    else if code = eodCode then .ok { d with eod := true, lastCode := code }
    else (do
      let d ← d.learn code
      let d ← d.emit code
      return { d with lastCode := code }) := by
    rw [LzwDecoder.handleCode, if_neg (by simp [heod])]
    rfl
  rw [hrun, Reference.step]
  by_cases h₁ : code = clearCode
  · rw [if_pos h₁, if_pos (show code = 256 from h₁)]
    refine ⟨_, rfl, ⟨heod.trans hstopped.symm, ht.written, fun _ => ?_⟩, ⟨rfl, rfl, rfl, rfl, rfl⟩,
      fun h => by simp [hstopped] at h⟩
    exact
      { delta := ht.delta
        table := rfl
        codeSize := by cases early <;> rfl
        written := ht.written
        nonempty := by simp
        length_le := by simp
        previous := ⟨h₁, rfl⟩ }
  rw [if_neg h₁, if_neg (show ¬code = 256 from h₁)]
  by_cases h₂ : code = eodCode
  · rw [if_pos h₂, if_pos (show code = 257 from h₂)]
    exact ⟨_, rfl, ⟨rfl, ht.written, nofun⟩, ⟨rfl, rfl, rfl, rfl, rfl⟩, fun _ => rfl⟩
  rw [if_neg h₂, if_neg (show ¬code = 257 from h₂)]
  cases hs : s.previous with
  | none =>
    have hprevious := ht.previous
    simp only [hs] at hprevious
    obtain ⟨hlast, htable⟩ := hprevious
    have hlearn : d.learn code = .ok d := by
      rw [LzwDecoder.learn, if_neg (by simp [hlast, clearCode])]
      rfl
    rw [hlearn]
    simp only [bind, Except.bind, emit_eq, ht.table]
    cases he : expand s.table code with
    | none => rfl
    | some string =>
      refine ⟨_, rfl, ⟨heod.trans hstopped.symm, by rw [ht.written], fun _ => ?_⟩,
        ⟨rfl, rfl, rfl, rfl, rfl⟩, fun h => by simp [hstopped] at h⟩
      exact
        { delta := ht.delta
          table := rfl
          codeSize := ht.codeSize
          written := by rw [ht.written]
          nonempty := ht.nonempty
          length_le := ht.length_le
          previous := ⟨h₁, h₂, expand_ne_nil ht.nonempty he, he⟩ }
  | some previous =>
    have hlearn := learn_eq ht hs h₁ h₂
    dsimp only
    cases hl : lookup s.table previous code with
    | none =>
      simp only [hl] at hlearn
      rw [hlearn]
      rfl
    | some string =>
      simp only [hl] at hlearn
      dsimp only
      rw [hlearn]
      by_cases hfull : 258 + s.table.length = 4096
      · rw [if_pos hfull, if_pos hfull]
        rfl
      rw [if_neg hfull, if_neg hfull]
      have hprevious := ht.previous
      simp only [hs] at hprevious
      obtain ⟨-, -, hp, -⟩ := hprevious
      have hnew := expand_of_lookup hp hl
      have hentry : ∀ entry ∈ s.table ++ [previous ++ string.take 1], entry ≠ [] := by
        intro entry hentry
        rcases List.mem_append.mp hentry with hmem | hmem
        · exact ht.nonempty entry hmem
        · obtain rfl := List.mem_singleton.mp hmem
          simp [hp]
      simp only [bind, Except.bind, emit_eq, hnew]
      refine ⟨_, rfl, ⟨heod.trans hstopped.symm, by rw [ht.written], fun _ => ?_⟩,
        ⟨rfl, rfl, rfl, rfl, rfl⟩, fun h => by simp [hstopped] at h⟩
      exact
        { delta := ht.delta
          table := rfl
          codeSize := rfl
          written := by rw [ht.written]
          nonempty := hentry
          length_le := by
            have := ht.length_le
            rw [List.length_append, List.length_singleton]
            omega
          previous := ⟨h₁, h₂, expand_ne_nil hentry hnew, hnew⟩ }

/-! ## Registers -/

section Registers

variable {bytes : Bytes} {taken : ℕ} {b : UInt8}

/-- Unread bits never reach the slot that is written next. -/
theorem Loaded.slot_free (h : Loaded bytes taken d) (hp : d.bitsAvailable < d.codeSize) {i : ℕ}
    (hi : i < bytes.length) (ht : taken / 8 ≤ i) : i % 3 ≠ bytes.length % 3 := by
  have h₁ := h.available
  have h₂ := h.le_twelve
  omega

/-- The registers after a byte has been stored. -/
def store (d : LzwDecoder) (b : UInt8) : LzwDecoder :=
  { d with
    buf := Function.update d.buf ⟨d.bufNext % 3, Nat.mod_lt _ (by decide)⟩ b
    bufNext := if d.bufNext + 1 = 3 then 0 else d.bufNext + 1
    bitsAvailable := d.bitsAvailable + 8 }

theorem Loaded.store (h : Loaded bytes taken d) (hp : d.bitsAvailable < d.codeSize) (b : UInt8) :
    Loaded (bytes ++ [b]) taken (store d b) where
  bufNext := by
    have h₁ := h.bufNext
    simp only [Lzw.store, List.length_append, List.length_singleton]
    split_ifs <;> omega
  bytePos := h.bytePos
  bitPos := h.bitPos
  available := by
    have h₁ := h.available
    simp only [Lzw.store, List.length_append, List.length_singleton]
    omega
  held i hi hle := by
    rw [List.length_append, List.length_singleton] at hi
    by_cases hlast : i = bytes.length
    · subst hlast
      have hslot : (⟨bytes.length % 3, Nat.mod_lt _ (by decide)⟩ : Fin 3) =
          ⟨d.bufNext % 3, Nat.mod_lt _ (by decide)⟩ := Fin.ext (by simp [h.bufNext])
      simp [Lzw.store, hslot]
    · have hlt : i < bytes.length := by omega
      have hslot : (⟨i % 3, Nat.mod_lt _ (by decide)⟩ : Fin 3) ≠
          ⟨d.bufNext % 3, Nat.mod_lt _ (by decide)⟩ := by
        intro he
        have hfree := h.slot_free hp hlt hle
        have hval := congrArg Fin.val he
        simp only [h.bufNext, Nat.mod_mod] at hval
        exact hfree hval
      simp only [Lzw.store, Function.update_of_ne hslot, List.getElem_append_left hlt]
      exact h.held i hlt hle
  nine_le := h.nine_le
  le_twelve := h.le_twelve

theorem Loaded.byteAt (h : Loaded bytes taken d) {k : ℕ} (hk : taken / 8 + k < bytes.length) :
    d.byteAt k = bytes[taken / 8 + k] := by
  rw [← h.held (taken / 8 + k) hk (Nat.le_add_right _ _)]
  simp [LzwDecoder.byteAt, h.bytePos]

/-- The code under the cursor is the next code of the bit string. -/
theorem Loaded.extract (h : Loaded bytes taken d) (hp : d.codeSize ≤ d.bitsAvailable) :
    d.extract = .ok (ofBits (((bytesBits bytes).drop taken).take d.codeSize),
      (taken + d.codeSize) / 8 % 3, (taken + d.codeSize) % 8) := by
  have hav := h.available
  have hbit := h.bitPos
  have hbyte := h.bytePos
  have h9 := h.nine_le
  have h12 := h.le_twelve
  have h0 : taken / 8 < bytes.length := by omega
  have h1 : taken / 8 + 1 < bytes.length := by omega
  have hdrop : (bytesBits bytes).drop taken = (bytesBits (bytes.drop (taken / 8))).drop d.bitPos := by
    rw [hbit, ← drop_bytesBits, Nat.div_add_mod]
  have hbytePos : (d.bytePos + (d.bitPos + d.codeSize) / 8) % 3 = (taken + d.codeSize) / 8 % 3 := by
    omega
  have hbitPos : (d.bitPos + d.codeSize) % 8 = (taken + d.codeSize) % 8 := by omega
  rw [hdrop, List.drop_eq_getElem_cons h0, List.drop_eq_getElem_cons h1, bytesBits_cons,
    bytesBits_cons, ← hbytePos, ← hbitPos]
  rw [← h.byteAt h1, ← show d.byteAt 0 = bytes[taken / 8] from h.byteAt (k := 0) h0]
  by_cases hthree : d.bitPos + d.codeSize ≤ 16
  · exact LzwDecoder.extract_two (by omega) (by omega) (by omega) hthree _
  · have h2 : taken / 8 + 2 < bytes.length := by omega
    rw [List.drop_eq_getElem_cons h2, bytesBits_cons, ← h.byteAt h2]
    exact LzwDecoder.extract_three (by omega) (by omega) (by omega) (by omega) _

/-- The registers behind the next code. -/
def advance (d : LzwDecoder) (taken : ℕ) : LzwDecoder :=
  { d with
    bytePos := (taken + d.codeSize) / 8 % 3
    bitPos := (taken + d.codeSize) % 8
    bitsAvailable := d.bitsAvailable - d.codeSize }

theorem Loaded.sendNextCode (h : Loaded bytes taken d) (hp : d.codeSize ≤ d.bitsAvailable) :
    d.sendNextCode = (advance d taken).handleCode
      (ofBits (((bytesBits bytes).drop taken).take d.codeSize)) := by
  rw [LzwDecoder.sendNextCode, h.extract hp]
  simp only [bind, Except.bind, sub_eq hp]
  rfl

/-- Code sizes apart, a decoder that only moves on has read further. -/
theorem Loaded.advance (h : Loaded bytes taken d) (hp : d.codeSize ≤ d.bitsAvailable)
    (hs : SameRegisters (advance d taken) d') (h9 : 9 ≤ d'.codeSize) (h12 : d'.codeSize ≤ 12) :
    Loaded bytes (taken + d.codeSize) d' where
  bufNext := hs.bufNext.trans h.bufNext
  bytePos := hs.bytePos
  bitPos := hs.bitPos
  available := by
    have := h.available
    rw [hs.bitsAvailable]
    simp only [Lzw.advance]
    omega
  held i hi hle := by
    rw [hs.buf]
    exact h.held i hi (by omega)
  nine_le := h9
  le_twelve := h12

/-- The decoder after `bytes`, beside the reference decoder after the same bits. -/
structure Refines (early : Bool) (bytes : Bytes) (taken : ℕ) (s : Reference) (d : LzwDecoder) :
    Prop where
  loaded : Loaded bytes taken d
  pending : d.bitsAvailable < d.codeSize
  agrees : Agrees early s d
  decode : ∃ rest, decode early {} (bytesBits bytes) = .ok (s, rest) ∧
    (s.stopped = false → rest = (bytesBits bytes).drop taken)

theorem writeByte_eq (h : Loaded bytes taken d) (b : UInt8) : d.writeByte b =
    if d.codeSize ≤ d.bitsAvailable + 8 then (store d b).sendNextCode else .ok (store d b) := by
  have hlt : d.bufNext < 3 := by
    have := h.bufNext
    omega
  have hslot : (⟨d.bufNext, hlt⟩ : Fin 3) = ⟨d.bufNext % 3, Nat.mod_lt _ (by decide)⟩ :=
    Fin.ext (Nat.mod_eq_of_lt hlt).symm
  rw [LzwDecoder.writeByte, index_eq hlt, hslot]
  rfl

theorem bytesBits_snoc (bytes : Bytes) (b : UInt8) :
    bytesBits (bytes ++ [b]) = bytesBits bytes ++ byteBits b := by
  simp [bytesBits_append]

/-- One more byte. -/
theorem Refines.writeByte (h : Refines early bytes taken s d) (b : UInt8) :
    match Reference.decode early {} (bytesBits (bytes ++ [b])) with
    | .error e => d.writeByte b = .error e.2 ∧ e.1 = d.written
    | .ok (s', _) => ∃ d' taken', d.writeByte b = .ok d' ∧
        Refines early (bytes ++ [b]) taken' s' d' := by
  obtain ⟨rest, hdecode, hrest⟩ := h.decode
  have hstore := h.loaded.store h.pending b
  have hbits : Reference.decode early {} (bytesBits (bytes ++ [b])) =
      Reference.decode early s (rest ++ byteBits b) := by
    rw [bytesBits_snoc, decode_append, hdecode]
    rfl
  rw [writeByte_eq h.loaded]
  have hagrees : Agrees early s (store d b) :=
    ⟨h.agrees.eod, h.agrees.written, fun hs =>
      have ht := h.agrees.tables hs
      ⟨ht.delta, ht.table, ht.codeSize, ht.written, ht.nonempty, ht.length_le, ht.previous⟩⟩
  cases hstopped : s.stopped with
  | true =>
    have hstop : Reference.decode early {} (bytesBits (bytes ++ [b])) =
        .ok (s, rest ++ byteBits b) := hbits.trans (decode_stop (.inl hstopped))
    have hrun : ∃ rest, Reference.decode early {} (bytesBits (bytes ++ [b])) = .ok (s, rest) ∧
        (s.stopped = false → rest = (bytesBits (bytes ++ [b])).drop taken) :=
      ⟨_, hstop, fun hs => by simp [hstopped] at hs⟩
    simp only [hstop]
    split_ifs with hfull
    · have heod : (advance (store d b) taken).eod = true := h.agrees.eod.trans hstopped
      rw [hstore.sendNextCode hfull, LzwDecoder.handleCode, if_pos heod]
      refine ⟨_, taken + d.codeSize, rfl, ⟨hstore.advance hfull ⟨rfl, rfl, rfl, rfl, rfl⟩
        h.loaded.nine_le h.loaded.le_twelve, ?_, ⟨h.agrees.eod, h.agrees.written, fun hs => by
          simp [hstopped] at hs⟩, _, hstop, fun hs => by simp [hstopped] at hs⟩⟩
      have h₁ := h.pending
      have h₂ := h.loaded.nine_le
      simp only [Lzw.advance, Lzw.store]
      omega
    · exact ⟨_, taken, rfl, hstore, not_le.mp hfull, hagrees, hrun⟩
  | false =>
    have ht := hagrees.tables hstopped
    obtain rfl := hrest hstopped
    have hav := h.loaded.available
    have hall : (bytesBits bytes).drop taken ++ byteBits b =
        (bytesBits (bytes ++ [b])).drop taken := by
      rw [bytesBits_snoc, List.drop_append_of_le_length (by rw [bytesBits_length]; omega)]
    have hlen : ((bytesBits (bytes ++ [b])).drop taken).length = d.bitsAvailable + 8 := by
      rw [List.length_drop, bytesBits_length, List.length_append, List.length_singleton]
      omega
    rw [hall] at hbits
    have hw : (store d b).codeSize = width early s.table := ht.codeSize
    split_ifs with hfull
    · have htables : Tables early s (advance (store d b) taken) :=
        ⟨ht.delta, ht.table, ht.codeSize, ht.written, ht.nonempty, ht.length_le, ht.previous⟩
      have hcode := handleCode_refines htables (h.agrees.eod.trans hstopped) hstopped
        (ofBits (((bytesBits (bytes ++ [b])).drop taken).take (store d b).codeSize))
      have hgo : ¬(s.stopped = true ∨
          ((bytesBits (bytes ++ [b])).drop taken).length < width early s.table) := by
        rw [hlen, ← hw, hstopped]
        rintro (hs | hlt)
        · cases hs
        · exact not_lt.mpr hfull hlt
      rw [decode_step hgo, ← hw] at hbits
      rw [hstore.sendNextCode hfull]
      cases hstep : s.step
          (ofBits (((bytesBits (bytes ++ [b])).drop taken).take (store d b).codeSize)) with
      | error e =>
        simp only [hstep] at hcode hbits
        simp only [hbits]
        exact ⟨hcode, h.agrees.written.symm⟩
      | ok s' =>
        simp only [hstep, List.drop_drop] at hcode hbits
        obtain ⟨d', hrun, hag, hsame, hsize⟩ := hcode
        have hsizes : 9 ≤ d'.codeSize ∧ d'.codeSize ≤ 12 := by
          cases hs : s'.stopped with
          | true =>
            rw [hsize hs]
            exact ⟨hstore.nine_le, hstore.le_twelve⟩
          | false =>
            rw [(hag.tables hs).codeSize]
            exact ⟨width_ge _ _, width_le _ _⟩
        have hloaded := hstore.advance hfull hsame hsizes.1 hsizes.2
        have hfew : d'.bitsAvailable < 9 := by
          have h₁ := h.pending
          rw [hsame.bitsAvailable]
          simp only [Lzw.advance, Lzw.store]
          omega
        have hstop := hbits.trans (decode_stop (.inr (by
          have h₁ := hloaded.available
          have h₂ := width_ge early s'.table
          rw [List.length_drop, bytesBits_length]
          omega)))
        simp only [hstop]
        exact ⟨d', _, hrun, hloaded, by omega, hag, _, hstop, fun _ => rfl⟩
    · have hstop := hbits.trans (decode_stop (.inr (by
        rw [hlen, ← hw]
        exact not_le.mp hfull)))
      simp only [hstop]
      exact ⟨_, taken, rfl, hstore, not_le.mp hfull, hagrees, _, hstop, fun _ => rfl⟩

end Registers

theorem refines_new (early : Bool) : Refines early [] 0 {} (LzwDecoder.new early) where
  loaded := ⟨rfl, rfl, rfl, rfl, by simp, le_rfl, show 9 ≤ 12 by decide⟩
  pending := show 0 < 9 by decide
  agrees := ⟨rfl, rfl, fun _ => ⟨rfl, rfl, by cases early <;> rfl, rfl, by simp, by simp, rfl, rfl⟩⟩
  decode := ⟨[], decode_stop (.inr (by simp [width])), fun _ => rfl⟩

theorem Refines.write {bytes : Bytes} {taken : ℕ} (h : Refines early bytes taken s d)
    (data : Bytes) :
    match Reference.decode early {} (bytesBits (bytes ++ data)) with
    | .error e => d.write data = .error e
    | .ok (s', _) => ∃ d' taken', d.write data = .ok d' ∧
        Refines early (bytes ++ data) taken' s' d' := by
  induction data generalizing bytes taken s d with
  | nil =>
    obtain ⟨rest, hdecode, -⟩ := h.decode
    simp only [List.append_nil, hdecode]
    exact ⟨d, taken, rfl, h⟩
  | cons b data ih =>
    have hb := h.writeByte b
    have hsplit : Reference.decode early {} (bytesBits (bytes ++ b :: data)) =
        (Reference.decode early {} (bytesBits (bytes ++ [b]))).bind fun result =>
          Reference.decode early result.1 (result.2 ++ bytesBits data) := by
      rw [← decode_append, ← bytesBits_append, List.append_assoc, List.singleton_append]
    cases hone : Reference.decode early {} (bytesBits (bytes ++ [b])) with
    | error e =>
      simp only [hone] at hb hsplit
      simp only [hsplit, Except.bind]
      rw [LzwDecoder.write, hb.1]
      exact congrArg Except.error (Prod.ext hb.2.symm rfl)
    | ok result =>
      simp only [hone] at hb
      obtain ⟨d₁, taken₁, hrun, h₁⟩ := hb
      have := ih h₁
      rw [List.append_assoc, List.singleton_append] at this
      rwa [LzwDecoder.write, hrun]

theorem Refines.writeAll {bytes : Bytes} {taken : ℕ} (h : Refines early bytes taken s d)
    (chunks : List Bytes) :
    match Reference.decode early {} (bytesBits (bytes ++ chunks.flatten)) with
    | .error e => d.writeAll chunks = .error e
    | .ok (s', _) => ∃ d' taken', d.writeAll chunks = .ok d' ∧
        Refines early (bytes ++ chunks.flatten) taken' s' d' := by
  induction chunks generalizing bytes taken s d with
  | nil =>
    obtain ⟨rest, hdecode, -⟩ := h.decode
    simp only [List.flatten_nil, List.append_nil, hdecode]
    exact ⟨d, taken, rfl, h⟩
  | cons chunk chunks ih =>
    have hc := h.write chunk
    have hsplit : Reference.decode early {} (bytesBits (bytes ++ (chunk :: chunks).flatten)) =
        (Reference.decode early {} (bytesBits (bytes ++ chunk))).bind fun result =>
          Reference.decode early result.1 (result.2 ++ bytesBits chunks.flatten) := by
      rw [← decode_append, ← bytesBits_append, List.append_assoc, List.flatten_cons]
    cases hone : Reference.decode early {} (bytesBits (bytes ++ chunk)) with
    | error e =>
      simp only [hone] at hc hsplit
      simp only [hsplit, Except.bind]
      rw [LzwDecoder.writeAll, hc]
    | ok result =>
      simp only [hone] at hc
      obtain ⟨d₁, taken₁, hrun, h₁⟩ := hc
      have := ih h₁
      rw [List.append_assoc, ← List.flatten_cons] at this
      rwa [LzwDecoder.writeAll, hrun]

/-- The registers between two bytes: no code is complete, and the next slot holds no unread bit. -/
structure SlotFree (d : LzwDecoder) : Prop where
  incomplete : d.bitsAvailable < d.codeSize
  free : ∀ k, 8 * k < d.bitPos + d.bitsAvailable → (d.bytePos + k) % 3 ≠ d.bufNext

theorem Refines.slotFree {bytes : Bytes} {taken : ℕ} (h : Refines early bytes taken s d) :
    SlotFree d where
  incomplete := h.pending
  free k hk := by
    have h₁ := h.loaded.available
    have h₂ := h.loaded.bitPos
    have h₃ := h.loaded.bytePos
    have h₄ := h.loaded.bufNext
    have hfree := h.loaded.slot_free h.pending (i := taken / 8 + k) (by omega) (by omega)
    omega

/-- The decoder is the reference decoder on every input and for every way of writing it; its
arithmetic never wraps, no byte completes two codes and no unread bit is overwritten. -/
theorem writeAll_refines (early : Bool) (chunks : List Bytes) :
    ((LzwDecoder.new early).writeAll chunks).map LzwDecoder.written =
        decodeBytes early chunks.flatten ∧
      (∀ d, (LzwDecoder.new early).writeAll chunks = .ok d → SlotFree d) ∧
      ∀ output e, (LzwDecoder.new early).writeAll chunks = .error (output, e) →
        e ≠ .underflow ∧ e ≠ .outOfBounds := by
  have h := (refines_new early).writeAll chunks
  rw [List.nil_append] at h
  unfold decodeBytes
  cases hd : Reference.decode early {} (bytesBits chunks.flatten) with
  | error e =>
    simp only [hd] at h
    rw [h]
    obtain ⟨message, hm⟩ := decode_error hd
    refine ⟨rfl, nofun, ?_⟩
    intro output e' he
    obtain rfl := Except.error.inj he
    dsimp only at hm
    simp [hm]
  | ok result =>
    simp only [hd] at h
    obtain ⟨d, taken, hrun, href⟩ := h
    rw [hrun]
    refine ⟨congrArg Except.ok href.agrees.written, ?_, nofun⟩
    intro d' hd'
    exact Except.ok.inj hd' ▸ href.slotFree

end Flpdf.Lzw
