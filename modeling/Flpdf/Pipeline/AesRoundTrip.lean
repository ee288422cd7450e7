import Flpdf.Pipeline.Aes

/-! # Encrypting and decrypting by stages

The stage is followed block by block: behind the first block it is the chained
cipher, and `finish` adds the padding of the last block or takes it off.
-/

namespace Flpdf

namespace PlAesPdf

variable {aes : BlockCipher 16} {source : IvSource}

/-! ## What a stage keeps -/

/-- The settings that no call changes. -/
def SameMode (s s' : PlAesPdf) : Prop :=
  s'.encrypt = s.encrypt ∧ s'.disablePadding = s.disablePadding

theorem SameMode.trans {s s' s'' : PlAesPdf} (h : SameMode s s') (h' : SameMode s' s'') :
    SameMode s s'' := ⟨h'.1.trans h.1, h'.2.trans h.2⟩

theorem initializeVector_mode {s s' : PlAesPdf} (h : initializeVector source s = .ok s') :
    SameMode s s' := by
  rw [initializeVector] at h
  split at h
  · cases h
    exact ⟨rfl, rfl⟩
  split at h
  · cases h
    exact ⟨rfl, rfl⟩
  split at h
  · cases h
    exact ⟨rfl, rfl⟩
  split at h
  · cases h
    exact ⟨rfl, rfl⟩
  · cases h

theorem start_mode {s s' : PlAesPdf} {block : AesBlock} {returnAfterInit : Bool}
    (h : start source s block = .ok (s', returnAfterInit)) : SameMode s s' := by
  rw [start] at h
  split at h
  · cases h
    exact ⟨rfl, rfl⟩
  split at h
  · obtain ⟨t, ht, h⟩ := bind_eq_ok.mp h
    have hmode := initializeVector_mode ht
    cases h
    split
    · exact hmode
    · exact hmode
  split at h
  · obtain ⟨t, ht, h⟩ := bind_eq_ok.mp h
    have hmode := initializeVector_mode ht
    cases h
    exact hmode
  · cases h
    exact ⟨rfl, rfl⟩

theorem emit_mode {s s' : PlAesPdf} {block : AesBlock} {stripPadding : Bool}
    (h : emit aes s block stripPadding = .ok s') : SameMode s s' := by
  rw [emit] at h
  split at h
  · cases h
  · cases h
    exact ⟨rfl, rfl⟩

theorem flush_mode {s s' : PlAesPdf} {stripPadding : Bool}
    (h : flush aes source s stripPadding = .ok s') : SameMode s s' := by
  rw [flush] at h
  split at h
  · obtain ⟨⟨t, returnAfterInit⟩, hstart, h⟩ := bind_eq_ok.mp h
    cases returnAfterInit with
    | false => exact (start_mode hstart).trans (emit_mode h)
    | true =>
      cases h
      exact start_mode hstart
  · cases h

theorem writeByte_mode {s s' : PlAesPdf} {byte : UInt8}
    (h : writeByte aes source s byte = .ok s') : SameMode s s' := by
  obtain ⟨t, hflush, h⟩ := bind_eq_ok.mp h
  have hmode : SameMode s t := by
    rw [flushFull] at hflush
    split at hflush
    · exact flush_mode hflush
    · cases hflush
      exact ⟨rfl, rfl⟩
  cases h
  exact hmode

theorem foldlM_writeByte_mode {s s' : PlAesPdf} {data : Bytes}
    (h : data.foldlM (writeByte aes source) s = .ok s') : SameMode s s' := by
  induction data generalizing s with
  | nil =>
    cases h
    exact ⟨rfl, rfl⟩
  | cons byte data ih =>
    rw [List.foldlM_cons] at h
    obtain ⟨t, hbyte, h⟩ := bind_eq_ok.mp h
    exact (writeByte_mode hbyte).trans (ih h)

/-! ## Block by block -/

variable (aes source)

/-- A whole block is loaded and flushed. -/
def flushBlock (s : PlAesPdf) (block : AesBlock) : Except StageFailure PlAesPdf :=
  flush aes source (load s block.1) false

variable {aes source}

theorem foldlM_flushBlock_mode {s s' : PlAesPdf} {blocks : List AesBlock}
    (hempty : s.inbuf.1 = []) (h : blocks.foldlM (flushBlock aes source) s = .ok s') :
    SameMode s s' ∧ s'.inbuf.1 = [] := by
  induction blocks generalizing s with
  | nil =>
    cases h
    exact ⟨⟨rfl, rfl⟩, hempty⟩
  | cons block blocks ih =>
    rw [List.foldlM_cons] at h
    obtain ⟨t, hblock, h⟩ := bind_eq_ok.mp h
    obtain ⟨hmode, hempty'⟩ := ih (congrArg Subtype.val (flush_inbuf hblock)) h
    have hmode' : SameMode (load s block.1) t := flush_mode hblock
    exact ⟨hmode'.trans hmode, hempty'⟩

/-- A flush of the full buffer may come before the bytes, if one comes behind them. -/
theorem foldlM_writeByte_flushes (s : PlAesPdf) (data : Bytes) :
    (data.foldlM (writeByte aes source) s >>= flushFull aes source) =
      flushFull aes source s >>= fun s =>
        data.foldlM (writeByte aes source) s >>= flushFull aes source := by
  by_cases hnil : data = []
  · subst hnil
    exact (flushFull_flushFull s).symm
  · rw [foldlM_writeByte_flushFull s hnil, bind_assoc]

variable (aes source) in
/-- Whole blocks with less than a block behind them leave the stage as the flushes of the
blocks do, with the rest in the buffer. -/
theorem foldlM_writeByte_blocks {s : PlAesPdf} (hempty : s.inbuf.1 = []) (blocks : List AesBlock)
    {last : Bytes} (hlast : last.length < 16) :
    ((joinBlocks blocks ++ last).foldlM (writeByte aes source) s >>= flushFull aes source) =
      blocks.foldlM (flushBlock aes source) s >>= fun s => .ok (load s last) := by
  induction blocks generalizing s with
  | nil =>
    have hroom : s.inbuf.1.length + last.length ≤ 16 := by
      rw [hempty, List.length_nil]
      omega
    have hload : (load s last).inbuf.1.length < 16 := by
      rwa [load_inbuf hroom, hempty, List.nil_append]
    rw [joinBlocks_nil, List.nil_append, foldlM_writeByte_load hroom]
    exact flushFull_eq hload
  | cons block blocks ih =>
    have hroom : s.inbuf.1.length + block.1.length ≤ 16 := by
      rw [hempty, block.2, List.length_nil]
    have hfull : (load s block.1).inbuf.1.length = 16 := by
      rw [load_inbuf hroom, hempty, List.nil_append, block.2]
    have hflush : flushFull aes source (load s block.1) = flushBlock aes source s block :=
      if_pos hfull
    rw [joinBlocks_cons, List.append_assoc, List.foldlM_append, foldlM_writeByte_load hroom,
      ok_bind, foldlM_writeByte_flushes, hflush, List.foldlM_cons, bind_assoc]
    cases hblock : flushBlock aes source s block with
    | error failure => rfl
    | ok t => exact ih (congrArg Subtype.val (flush_inbuf hblock))

/-! ## What `finish` adds -/

/-- The last block with its padding. -/
def padBlock (last : Bytes) (h : last.length < 16) : AesBlock :=
  ⟨last ++ List.replicate (16 - last.length) (16 - last.length).toUInt8, by
    rw [List.length_append, List.length_replicate]
    omega⟩

theorem finish_of_encrypt {s : PlAesPdf} (hencrypt : s.encrypt = true) :
    finish aes source s = flushFull aes source s >>= fun s =>
      if s.disablePadding then .ok s
      else flush aes source (load s
        (List.replicate (16 - s.inbuf.1.length) (16 - s.inbuf.1.length).toUInt8)) false := by
  rw [finish, if_pos hencrypt]
  rfl

/-- What is left of the data goes out as a padded block, or not at all. -/
theorem finish_encrypt {s : PlAesPdf} (hencrypt : s.encrypt = true) (hempty : s.inbuf.1 = [])
    (blocks : List AesBlock) {last : Bytes} (hlast : last.length < 16) :
    ((joinBlocks blocks ++ last).foldlM (writeByte aes source) s >>= finish aes source) =
      blocks.foldlM (flushBlock aes source) s >>= fun s' =>
        if s.disablePadding then .ok (load s' last)
        else flushBlock aes source s' (padBlock last hlast) := by
  have hfinish : ((joinBlocks blocks ++ last).foldlM (writeByte aes source) s >>=
      finish aes source) =
      ((joinBlocks blocks ++ last).foldlM (writeByte aes source) s >>=
        flushFull aes source) >>= fun s =>
          if s.disablePadding then .ok s
          else flush aes source (load s
            (List.replicate (16 - s.inbuf.1.length) (16 - s.inbuf.1.length).toUInt8)) false := by
    rw [bind_assoc]
    cases hwritten : (joinBlocks blocks ++ last).foldlM (writeByte aes source) s with
    | error failure => rfl
    | ok t => exact finish_of_encrypt ((foldlM_writeByte_mode hwritten).1.trans hencrypt)
  rw [hfinish, foldlM_writeByte_blocks aes source hempty blocks hlast, bind_assoc]
  cases hblocks : blocks.foldlM (flushBlock aes source) s with
  | error failure => rfl
  | ok t =>
    obtain ⟨hmode, hempty'⟩ := foldlM_flushBlock_mode hempty hblocks
    have hload : (load t last).inbuf.1 = last := by
      rw [load_inbuf, hempty', List.nil_append]
      rw [hempty', List.length_nil]
      omega
    have hpadding : (load t last).disablePadding = s.disablePadding := hmode.2
    rw [ok_bind, ok_bind, ok_bind, hpadding, hload, load_load]
    rfl

/-- A last block that is whole is flushed with its padding taken off. -/
theorem finish_decrypt {s : PlAesPdf} (hencrypt : s.encrypt = false) (hempty : s.inbuf.1 = [])
    (blocks : List AesBlock) (block : AesBlock) :
    ((joinBlocks blocks ++ block.1).foldlM (writeByte aes source) s >>= finish aes source) =
      blocks.foldlM (flushBlock aes source) s >>= fun s' =>
        flush aes source (load s' block.1) (!s.disablePadding) := by
  have hne : block.1 ≠ [] := by
    intro hnil
    have hlength := block.2
    rw [hnil, List.length_nil] at hlength
    omega
  have hwritten : (joinBlocks blocks ++ block.1).foldlM (writeByte aes source) s =
      blocks.foldlM (flushBlock aes source) s >>= fun s' =>
        block.1.foldlM (writeByte aes source) s' := by
    have hblocks := foldlM_writeByte_blocks aes source hempty blocks
      (show ([] : Bytes).length < 16 by decide)
    simp only [List.append_nil, load_nil] at hblocks
    calc (joinBlocks blocks ++ block.1).foldlM (writeByte aes source) s
      _ = (joinBlocks blocks).foldlM (writeByte aes source) s >>=
          fun s => block.1.foldlM (writeByte aes source) s := List.foldlM_append
      _ = ((joinBlocks blocks).foldlM (writeByte aes source) s >>= flushFull aes source) >>=
          fun s => block.1.foldlM (writeByte aes source) s := by
        rw [bind_assoc]
        exact congrArg _ (funext fun s => foldlM_writeByte_flushFull s hne)
      _ = _ := by
        rw [hblocks, bind_assoc]
        rfl
  rw [hwritten, bind_assoc]
  cases hblocks : blocks.foldlM (flushBlock aes source) s with
  | error failure => rfl
  | ok t =>
    obtain ⟨hmode, hempty'⟩ := foldlM_flushBlock_mode hempty hblocks
    have hroom : t.inbuf.1.length + block.1.length ≤ 16 := by
      rw [hempty', block.2, List.length_nil]
    have hfull : (load t block.1).inbuf.1.length = 16 := by
      rw [load_inbuf hroom, hempty', List.nil_append, block.2]
    have hencrypt' : (load t block.1).encrypt = false := hmode.1.trans hencrypt
    have hpadding : (load t block.1).disablePadding = s.disablePadding := hmode.2
    rw [ok_bind, ok_bind, foldlM_writeByte_load hroom, ok_bind, finish,
      if_neg (by rw [hencrypt']; exact Bool.false_ne_true), load_full hfull, hpadding]

/-! ## The chain -/

variable (aes) in
/-- What the stage makes of blocks, the first of them chained to `chain`. -/
def throughCipher (s : PlAesPdf) (chain : AesBlock) (blocks : List AesBlock) : List AesBlock :=
  if s.encrypt then aes.chainEncrypt s.key chain blocks else aes.chainDecrypt s.key chain blocks

theorem throughCipher_cons (s : PlAesPdf) (chain block : AesBlock) (blocks : List AesBlock) :
    throughCipher aes s chain (block :: blocks) =
      (process aes s chain block).1 :: throughCipher aes s (process aes s chain block).2 blocks := by
  rw [throughCipher, throughCipher, process]
  split
  · rfl
  · rfl

theorem flush_load {s : PlAesPdf} (hempty : s.inbuf.1 = []) (block : AesBlock)
    (stripPadding : Bool) :
    flush aes source (load s block.1) stripPadding =
      start source (load s block.1) block >>= fun started =>
        if started.2 then .ok started.1 else emit aes started.1 block stripPadding := by
  have hload : (load s block.1).inbuf.1 = block.1 := by
    rw [load_inbuf, hempty, List.nil_append]
    rw [hempty, block.2, List.length_nil]
  have hfull : (load s block.1).inbuf.1.length = 16 := by
    rw [hload, block.2]
  have hblock : (⟨(load s block.1).inbuf.1, hfull⟩ : AesBlock) = block := Subtype.ext hload
  rw [flush, dif_pos hfull]
  simp only [hblock]
  rfl

theorem start_of_not_first {s : PlAesPdf} (hfirst : s.first = false) (data : Bytes)
    (block : AesBlock) : start source (load s data) block = .ok (load s data, false) := by
  rw [start]
  simp only [load, hfirst, Bool.not_false, if_true]

variable (aes source) in
/-- Behind the first block a flush is one step of the chain. -/
theorem flush_chained {s : PlAesPdf} {chain : AesBlock} (hfirst : s.first = false)
    (hcipher : s.cipher = some chain) (hempty : s.inbuf.1 = []) (block : AesBlock)
    (stripPadding : Bool) :
    flush aes source (load s block.1) stripPadding =
      .ok { s with
        cipher := some (process aes s chain block).2
        out := s.out ++ (process aes s chain block).1.1.take
          (if stripPadding then keptBytes (process aes s chain block).1 else 16) } := by
  have hinbuf : (⟨[], Nat.zero_le 16⟩ : {bytes : Bytes // bytes.length ≤ 16}) = s.inbuf :=
    Subtype.ext hempty.symm
  rw [flush_load hempty, start_of_not_first hfirst, ok_bind, if_neg Bool.false_ne_true, emit]
  simp only [load, hcipher, hinbuf]
  rfl

variable (aes source) in
/-- Blocks that are flushed behind the first one. -/
theorem foldlM_flushBlock_chained {s : PlAesPdf} {chain : AesBlock} (hfirst : s.first = false)
    (hcipher : s.cipher = some chain) (hempty : s.inbuf.1 = []) (blocks : List AesBlock) :
    ∃ chain', blocks.foldlM (flushBlock aes source) s =
        .ok { s with
          cipher := some chain'
          out := s.out ++ joinBlocks (throughCipher aes s chain blocks) } ∧
      ∀ block, throughCipher aes s chain (blocks ++ [block]) =
        throughCipher aes s chain blocks ++ [(process aes s chain' block).1] := by
  induction blocks generalizing s chain with
  | nil =>
    have hnil : ∀ chain, throughCipher aes s chain [] = [] := by
      intro chain
      rw [throughCipher]
      split
      · rfl
      · rfl
    refine ⟨chain, ?_, ?_⟩
    · rw [hnil, joinBlocks_nil, List.append_nil, ← hcipher]
      rfl
    · intro block
      rw [List.nil_append, throughCipher_cons, hnil, hnil, List.nil_append]
  | cons block blocks ih =>
    have hblock : flushBlock aes source s block = .ok { s with
        cipher := some (process aes s chain block).2
        out := s.out ++ (process aes s chain block).1.1 } := by
      rw [flushBlock, flush_chained aes source hfirst hcipher hempty, if_neg Bool.false_ne_true,
        List.take_of_length_le (process aes s chain block).1.2.le]
    obtain ⟨chain', hblocks, hnext⟩ := ih
      (s := { s with
        cipher := some (process aes s chain block).2
        out := s.out ++ (process aes s chain block).1.1 })
      hfirst rfl hempty
    refine ⟨chain', ?_, ?_⟩
    · rw [List.foldlM_cons, hblock, ok_bind, hblocks, throughCipher_cons, joinBlocks_cons,
        ← List.append_assoc]
      rfl
    · intro next
      rw [List.cons_append, throughCipher_cons, throughCipher_cons, List.cons_append]
      exact congrArg _ (hnext next)

/-! ## The vector -/

end PlAesPdf

/-- How the two sides agree on a vector. -/
inductive IvPolicy where
  | writtenAhead
  | specified (iv : AesBlock)
  | zero

namespace IvPolicy

def set : IvPolicy → PlAesPdf → Except PipelineError PlAesPdf
  | writtenAhead, s => .ok s
  | specified iv, s => s.setIv iv.1
  | zero, s => .ok { s with useZeroIv := true }

/-- The vector that an encrypting stage uses. -/
def vector (source : IvSource) : IvPolicy → Except Bytes AesBlock
  | writtenAhead =>
    if source.useStaticIv then .ok staticInitializationVector else source.fillRandom
  | specified iv => .ok iv
  | zero => .ok zeroBlock

/-- What stands before the cipher text. -/
def ahead (iv : AesBlock) : IvPolicy → List AesBlock
  | writtenAhead => [iv]
  | _ => []

end IvPolicy

namespace PlAesPdf

variable {aes : BlockCipher 16} {source : IvSource}

/-- A stage with its vector and padding chosen. -/
def configured (encrypt : Bool) (key : Bytes) (policy : IvPolicy) (padding : Bool) :
    Except PipelineError PlAesPdf := do
  let s ← policy.set (new encrypt key)
  return { s with disablePadding := !padding }

variable (aes source) in
/-- A new stage fed with some writes. -/
def deliver (encrypt : Bool) (key : Bytes) (policy : IvPolicy) (padding : Bool)
    (chunks : List Bytes) : Except StageFailure Bytes :=
  match configured encrypt key policy padding with
  | .ok s => run aes source s chunks
  | .error error => .error ⟨error, []⟩

/-- What `configured` builds. -/
def stage (encrypt : Bool) (key : Bytes) (policy : IvPolicy) (padding : Bool) : PlAesPdf :=
  let s := { new encrypt key with disablePadding := !padding }
  match policy with
  | .writtenAhead => s
  | .specified iv => { s with useSpecifiedIv := true, specifiedIv := iv }
  | .zero => { s with useZeroIv := true }

theorem configured_eq (encrypt : Bool) (key : Bytes) (policy : IvPolicy) (padding : Bool) :
    configured encrypt key policy padding = .ok (stage encrypt key policy padding) := by
  cases policy with
  | writtenAhead => rfl
  | specified iv =>
    rw [configured, IvPolicy.set, setIv, dif_pos iv.2]
    rfl
  | zero => rfl

/-- The stage once its vector is known. -/
def begun (s : PlAesPdf) (iv : AesBlock) (ahead : List AesBlock) : PlAesPdf :=
  { s with first := false, cbcBlock := iv, cipher := some iv, out := joinBlocks ahead }

section Stage

variable {key : Bytes} {policy : IvPolicy} {padding : Bool} {iv : AesBlock}

theorem stage_encrypt (encrypt : Bool) : (stage encrypt key policy padding).encrypt = encrypt := by
  cases policy <;> rfl

theorem stage_key (encrypt : Bool) :
    (stage encrypt key policy padding).key = providerKey key := by
  cases policy <;> rfl

theorem stage_disablePadding (encrypt : Bool) :
    (stage encrypt key policy padding).disablePadding = !padding := by
  cases policy <;> rfl

theorem stage_inbuf (encrypt : Bool) : (stage encrypt key policy padding).inbuf.1 = [] := by
  cases policy <;> rfl

theorem start_encrypt (hiv : policy.vector source = .ok iv) (data : Bytes) (block : AesBlock) :
    start source (load (stage true key policy padding) data) block =
      .ok (load (begun (stage true key policy padding) iv (policy.ahead iv)) data, false) := by
  cases policy with
  | writtenAhead =>
    rw [IvPolicy.vector] at hiv
    split at hiv
    · case isTrue hstatic =>
        cases hiv
        simp [start, initializeVector, stage, load, new, hstatic, begun, buildCipher,
          IvPolicy.ahead, bind, Except.bind, pure, Except.pure]
    · case isFalse hrandom =>
        simp [start, initializeVector, stage, load, new, hrandom, hiv, begun, buildCipher,
          IvPolicy.ahead, bind, Except.bind, pure, Except.pure]
  | specified iv =>
    cases hiv
    rfl
  | zero =>
    cases hiv
    rfl

theorem start_decrypt (hiv : policy.vector source = .ok iv) (hsupplied : policy.ahead iv = [])
    (data : Bytes) (block : AesBlock) :
    start source (load (stage false key policy padding) data) block =
      .ok (load (begun (stage false key policy padding) iv []) data, false) := by
  cases policy with
  | writtenAhead => cases hsupplied
  | specified iv =>
    cases hiv
    rfl
  | zero =>
    cases hiv
    rfl

/-- The vector is the first block of the input. -/
theorem flushBlock_ahead (iv : AesBlock) :
    flushBlock aes source (stage false key .writtenAhead padding) iv =
      .ok (begun (stage false key .writtenAhead padding) iv []) := by
  rw [flushBlock, flush_load (stage_inbuf false)]
  rfl

variable (aes) in
/-- The flush of the first block is one of the stage that knows its vector. -/
theorem flush_started {s t : PlAesPdf} (hempty : s.inbuf.1 = []) (hempty' : t.inbuf.1 = [])
    (hfirst : t.first = false) (block : AesBlock) (stripPadding : Bool)
    (hstart : start source (load s block.1) block = .ok (load t block.1, false)) :
    flush aes source (load s block.1) stripPadding =
      flush aes source (load t block.1) stripPadding := by
  rw [flush_load hempty, flush_load hempty', hstart, start_of_not_first hfirst]

end Stage

/-! ## There and back -/

theorem run_eq_finish (s : PlAesPdf) (chunks : List Bytes) :
    run aes source s chunks =
      (chunks.flatten.foldlM (writeByte aes source) s >>= finish aes source) >>= fun s =>
        .ok s.out := by
  rw [run_eq, bind_assoc]
  rfl

theorem deliver_eq (encrypt : Bool) (key : Bytes) (policy : IvPolicy) (padding : Bool)
    (chunks : List Bytes) :
    deliver aes source encrypt key policy padding chunks =
      run aes source (stage encrypt key policy padding) chunks := by
  rw [deliver, configured_eq]

/-- The padding of a block is what is taken off again. -/
theorem keptBytes_padBlock (last : Bytes) (h : last.length < 16) :
    keptBytes (padBlock last h) = last.length := by
  have hpad : ((16 - last.length).toUInt8).toNat = 16 - last.length := by
    rw [Nat.toUInt8_eq, UInt8.toNat_ofNat']
    omega
  have hget : ∀ i < 16 - last.length,
      ((padBlock last h).1.getD (15 - i) 0).toNat = 16 - last.length := by
    intro i hi
    rw [padBlock, List.getD_eq_getElem?_getD, List.getElem?_append_right (by omega),
      List.getElem?_replicate_of_lt (by omega), Option.getD_some, hpad]
  have hlast := hget 0 (by omega)
  rw [Nat.sub_zero] at hlast
  rw [keptBytes]
  simp only [hlast]
  rw [if_pos]
  · omega
  · refine ⟨by omega, ?_⟩
    intro i hi
    exact hget i (List.mem_range.mp hi)

section RoundTrip

variable {key : Bytes} {policy : IvPolicy} {padding : Bool} {iv : AesBlock}

/-- All the blocks that an encrypting stage flushes. -/
theorem foldlM_flushBlock_stage (hiv : policy.vector source = .ok iv) {blocks : List AesBlock}
    (hne : blocks ≠ []) :
    (blocks.foldlM (flushBlock aes source) (stage true key policy padding) >>= fun s =>
        .ok s.out) =
      .ok (joinBlocks (policy.ahead iv ++ aes.chainEncrypt (providerKey key) iv blocks)) := by
  obtain ⟨block, blocks, rfl⟩ := List.exists_cons_of_ne_nil hne
  have hstarted : (block :: blocks).foldlM (flushBlock aes source) (stage true key policy padding) =
      (block :: blocks).foldlM (flushBlock aes source)
        (begun (stage true key policy padding) iv (policy.ahead iv)) := by
    have hblock := flush_started aes
      (t := begun (stage true key policy padding) iv (policy.ahead iv)) (stage_inbuf true)
      (stage_inbuf true) rfl block false (start_encrypt hiv block.1 block)
    rw [List.foldlM_cons, List.foldlM_cons, flushBlock, hblock]
    rfl
  obtain ⟨chain', hblocks, -⟩ := foldlM_flushBlock_chained aes source
    (s := begun (stage true key policy padding) iv (policy.ahead iv)) rfl rfl
    (stage_inbuf true) (block :: blocks)
  have hencrypt : (begun (stage true key policy padding) iv (policy.ahead iv)).encrypt = true :=
    stage_encrypt true
  have hkey : (begun (stage true key policy padding) iv (policy.ahead iv)).key =
      providerKey key := stage_key true
  rw [hstarted, hblocks, ok_bind, joinBlocks_append, throughCipher, if_pos hencrypt, hkey]
  rfl

theorem deliver_encrypt_padded (hiv : policy.vector source = .ok iv) {blocks : List AesBlock}
    {last : Bytes} (hlast : last.length < 16) {chunks : List Bytes}
    (hchunks : chunks.flatten = joinBlocks blocks ++ last) :
    deliver aes source true key policy true chunks =
      .ok (joinBlocks (policy.ahead iv ++
        aes.chainEncrypt (providerKey key) iv (blocks ++ [padBlock last hlast]))) := by
  rw [deliver_eq, run_eq_finish, hchunks,
    finish_encrypt (stage_encrypt true) (stage_inbuf true) blocks hlast,
    ← foldlM_flushBlock_stage hiv (List.concat_ne_nil _ _), List.foldlM_append,
    stage_disablePadding]
  simp only [List.foldlM_cons, List.foldlM_nil, bind_pure]
  rfl

theorem deliver_encrypt_whole (hiv : policy.vector source = .ok iv) {blocks : List AesBlock}
    (hne : blocks ≠ []) {chunks : List Bytes} (hchunks : chunks.flatten = joinBlocks blocks) :
    deliver aes source true key policy false chunks =
      .ok (joinBlocks (policy.ahead iv ++ aes.chainEncrypt (providerKey key) iv blocks)) := by
  rw [deliver_eq, run_eq_finish, hchunks, ← List.append_nil (joinBlocks blocks),
    finish_encrypt (stage_encrypt true) (stage_inbuf true) blocks
      (show ([] : Bytes).length < 16 by decide),
    stage_disablePadding]
  simp only [load_nil, Bool.not_false, if_true]
  exact (congrArg (· >>= _) (bind_pure _)).trans (foldlM_flushBlock_stage hiv hne)

variable (aes source padding) in
/-- The blocks of a cipher text behind its vector. -/
theorem flush_cipherText {s : PlAesPdf} (hencrypt : s.encrypt = false) (hfirst : s.first = false)
    (hcipher : s.cipher = some iv) (hempty : s.inbuf.1 = []) {init : List AesBlock}
    {block coded : AesBlock}
    (hcoded : aes.chainEncrypt s.key iv (init ++ [block]) =
      aes.chainEncrypt s.key iv init ++ [coded]) :
    ((aes.chainEncrypt s.key iv init).foldlM (flushBlock aes source) s >>= fun s =>
      flush aes source (load s coded.1) padding >>= fun s => .ok s.out) =
      .ok (s.out ++ joinBlocks init ++
        block.1.take (if padding then keptBytes block else 16)) := by
  obtain ⟨chain', hblocks, hnext⟩ := foldlM_flushBlock_chained aes source
    hfirst hcipher hempty (aes.chainEncrypt s.key iv init)
  have hthrough : ∀ blocks, throughCipher aes s iv (aes.chainEncrypt s.key iv blocks) = blocks := by
    intro blocks
    rw [throughCipher, hencrypt, if_neg Bool.false_ne_true, aes.chainDecrypt_chainEncrypt]
  have hlast := hnext coded
  rw [← hcoded, hthrough, hthrough] at hlast
  have hprocess : (process aes s chain' coded).1 = block :=
    (List.singleton_inj.mp (List.append_cancel_left hlast)).symm
  have hflush := flush_chained aes source
    (s := { s with cipher := some chain', out := s.out ++ joinBlocks init })
    hfirst rfl hempty coded padding
  rw [hblocks, hthrough, ok_bind, hflush, ok_bind]
  exact congrArg (fun outbuf : AesBlock => Except.ok (s.out ++ joinBlocks init ++
    outbuf.1.take (if padding then keptBytes outbuf else 16))) hprocess

/-- A supplied vector takes no block of the input. -/
theorem foldlM_flushBlock_supplied (hiv : policy.vector source = .ok iv)
    (hsupplied : policy.ahead iv = []) (blocks : List AesBlock) (block : AesBlock) :
    (blocks.foldlM (flushBlock aes source) (stage false key policy padding) >>= fun s =>
        flush aes source (load s block.1) padding) =
      blocks.foldlM (flushBlock aes source) (begun (stage false key policy padding) iv []) >>=
        fun s => flush aes source (load s block.1) padding := by
  have hstarted : ∀ (first : AesBlock) (stripPadding : Bool),
      flush aes source (load (stage false key policy padding) first.1) stripPadding =
        flush aes source (load (begun (stage false key policy padding) iv []) first.1)
          stripPadding := by
    intro first stripPadding
    exact flush_started aes (t := begun (stage false key policy padding) iv [])
      (stage_inbuf false) (stage_inbuf false) rfl first stripPadding
      (start_decrypt hiv hsupplied first.1 first)
  cases blocks with
  | nil => exact hstarted block padding
  | cons first blocks =>
    rw [List.foldlM_cons, List.foldlM_cons, flushBlock, hstarted]
    rfl

theorem deliver_decrypt {source' : IvSource} (hiv : policy.vector source = .ok iv)
    (init : List AesBlock) (block : AesBlock) {chunks : List Bytes}
    (hchunks : chunks.flatten = joinBlocks (policy.ahead iv ++
      aes.chainEncrypt (providerKey key) iv (init ++ [block]))) :
    deliver aes source' false key policy padding chunks =
      .ok (joinBlocks init ++ block.1.take (if padding then keptBytes block else 16)) := by
  obtain ⟨coded, hcoded⟩ := aes.chainEncrypt_concat (providerKey key) iv init block
  have hkey : (begun (stage false key policy padding) iv []).key = providerKey key :=
    stage_key false
  have hout : (begun (stage false key policy padding) iv []).out = [] := rfl
  have hbegun := flush_cipherText aes source' padding
    (s := begun (stage false key policy padding) iv []) (stage_encrypt false) rfl rfl
    (stage_inbuf false) (by rw [hkey]; exact hcoded)
  rw [hkey, hout, List.nil_append, ← bind_assoc] at hbegun
  rw [deliver_eq, run_eq_finish, hchunks, hcoded, ← List.append_assoc, joinBlocks_append,
    joinBlocks_cons, joinBlocks_nil, List.append_nil,
    finish_decrypt (stage_encrypt false) (stage_inbuf false), stage_disablePadding,
    Bool.not_not, ← hbegun]
  refine congrArg (· >>= _) ?_
  cases policy with
  | writtenAhead =>
    rw [IvPolicy.ahead, List.singleton_append, List.foldlM_cons, flushBlock_ahead, ok_bind]
  | specified given =>
    have hiv' : (IvPolicy.specified given).vector source' = .ok iv := hiv
    exact foldlM_flushBlock_supplied hiv' rfl _ coded
  | zero =>
    have hiv' : IvPolicy.zero.vector source' = .ok iv := hiv
    exact foldlM_flushBlock_supplied hiv' rfl _ coded

end RoundTrip

end PlAesPdf

open PlAesPdf in
/-- The stage does not see how its input is split; a decrypting stage gives back what an
encrypting stage was given, with padding or in whole blocks. -/
theorem aes_stage_round_trip (aes : BlockCipher 16) (key : Bytes) (policy : IvPolicy) :
    (∀ source s chunks, run aes source s chunks = run aes source s [chunks.flatten]) ∧
      (∀ source source' iv chunks, policy.vector source = .ok iv →
        ∃ coded, deliver aes source true key policy true chunks =
            .ok (joinBlocks (policy.ahead iv) ++ coded) ∧
          coded.length = 16 * (chunks.flatten.length / 16 + 1) ∧
          ∀ pieces, pieces.flatten = joinBlocks (policy.ahead iv) ++ coded →
            deliver aes source' false key policy true pieces = .ok chunks.flatten) ∧
      ∀ source source' iv chunks, policy.vector source = .ok iv → chunks.flatten ≠ [] →
        16 ∣ chunks.flatten.length →
        ∃ coded, deliver aes source true key policy false chunks =
            .ok (joinBlocks (policy.ahead iv) ++ coded) ∧
          coded.length = chunks.flatten.length ∧
          ∀ pieces, pieces.flatten = joinBlocks (policy.ahead iv) ++ coded →
            deliver aes source' false key policy false pieces = .ok chunks.flatten := by
  refine ⟨?_, ?_, ?_⟩
  · intro source s chunks
    rw [run_eq, run_eq, List.flatten_singleton]
  · intro source source' iv chunks hiv
    obtain ⟨blocks, last, hflatten, hlast⟩ :=
      exists_whole_blocks (n := 16) (Nat.zero_lt_succ 15) chunks.flatten
    refine ⟨joinBlocks (aes.chainEncrypt (providerKey key) iv (blocks ++ [padBlock last hlast])),
      ?_, ?_, ?_⟩
    · rw [deliver_encrypt_padded hiv hlast hflatten, joinBlocks_append]
    · rw [length_joinBlocks, aes.length_chainEncrypt, hflatten, List.length_append,
        List.length_append, length_joinBlocks, List.length_singleton]
      omega
    · intro pieces hpieces
      rw [← joinBlocks_append] at hpieces
      rw [deliver_decrypt hiv blocks _ hpieces, if_pos rfl, keptBytes_padBlock, hflatten, padBlock,
        List.take_left']
      rfl
  · intro source source' iv chunks hiv hne hdvd
    obtain ⟨blocks, hflatten⟩ := exists_whole_blocks_of_dvd (n := 16) (Nat.zero_lt_succ 15) hdvd
    have hblocks : blocks ≠ [] := by
      intro hnil
      exact hne (by rw [hflatten, hnil]; rfl)
    obtain ⟨init, block, rfl⟩ := (List.eq_nil_or_concat' blocks).resolve_left hblocks
    refine ⟨joinBlocks (aes.chainEncrypt (providerKey key) iv (init ++ [block])), ?_, ?_, ?_⟩
    · rw [deliver_encrypt_whole hiv hblocks hflatten, joinBlocks_append]
    · rw [length_joinBlocks, aes.length_chainEncrypt, hflatten, length_joinBlocks]
    · intro pieces hpieces
      rw [← joinBlocks_append] at hpieces
      rw [deliver_decrypt hiv init block hpieces, if_neg Bool.false_ne_true, hflatten,
        joinBlocks_append, joinBlocks_cons, joinBlocks_nil, List.append_nil,
        List.take_of_length_le block.2.le]

end Flpdf
