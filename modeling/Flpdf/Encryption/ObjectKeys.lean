import Flpdf.Pipeline.AesRoundTrip
import Flpdf.Xref.ObjGen

/-! # Object keys and the strings under them

The state of an authenticated document derives the key of an object and keeps
the last one.  The cache is tagged with the object and its generation alone, so
that a key stays in use for a second cipher on the same object.
-/

namespace Flpdf

namespace Standard

/-- `compute_data_key_qpdf_obj_gen`: the low-order bytes of both numbers are appended. -/
def computeDataKeyQpdfObjGen (md5 : Bytes → Block 16) (encryptionKey : Bytes)
    (objectNumber generation : ℤ) (useAes : Bool) (encryptionV : ℤ) : Bytes :=
  if encryptionV ≥ 5 then encryptionKey
  else
    let objectNumber := (Int64.ofInt objectNumber).toUInt64
    let generation := (Int64.ofInt generation).toUInt64
    let input := encryptionKey ++
      [objectNumber.toUInt8, (objectNumber >>> 8).toUInt8, (objectNumber >>> 16).toUInt8,
        generation.toUInt8, (generation >>> 8).toUInt8] ++
      if useAes then ascii "sAlT" else []
    (md5 input).1.take (min input.length 16)

end Standard

/-- A failure of the handler or of the AES stage. -/
inductive CipherError where
  | encrypted (error : EncryptedError)
  | pipeline (error : PipelineError)
  deriving DecidableEq, Repr

/-- The cipher of a string with its key, for reading and for writing. -/
inductive StringCipher where
  | rc4 (key : Bytes)
  | aes (key : Bytes)
  deriving DecidableEq, Repr

/-- `EncryptionMode`: what a crypt filter asks for. -/
inductive EncryptionMode where
  | rc4
  | aes128
  | identity
  | aes256
  | unknown
  deriving DecidableEq, Repr

namespace PlAesPdf

variable (aes : BlockCipher 16) (source : IvSource)

def decryptToVec (data key : Bytes) : Except PipelineError Bytes :=
  (deliver aes source false key .writtenAhead true [data]).mapError StageFailure.error

def encryptToVecWithIv (data key : Bytes) (iv : AesBlock) : Except PipelineError Bytes :=
  (deliver aes source true key (.specified iv) true [data]).mapError StageFailure.error

end PlAesPdf

section Strings

variable (aes : BlockCipher 16) (source : IvSource)

def decryptCipherBytes (bytes : Bytes) : StringCipher → Except CipherError Bytes
  | .rc4 key => ((Rc4.new key).map fun c => c.processInPlace bytes).mapError .encrypted
  | .aes key => (PlAesPdf.decryptToVec aes source bytes key).mapError .pipeline

/-- The vector is written ahead of an AES string. -/
def encryptCipherBytes (bytes : Bytes) (iv : AesBlock) : StringCipher → Except CipherError Bytes
  | .rc4 key => ((Rc4.new key).map fun c => c.processInPlace bytes).mapError .encrypted
  | .aes key =>
    ((PlAesPdf.encryptToVecWithIv aes source bytes key iv).map (iv.1 ++ ·)).mapError .pipeline

end Strings

/-- What the object keys are made of, and the cache of the last one. -/
structure EncryptionState where
  fileKey : Bytes
  encryptionV : ℤ
  cfStream : EncryptionMode
  cfString : EncryptionMode
  cachedObjectEncryptionKey : Bytes := []
  cachedKeyOg : Option QpdfObjGen := none
  deriving DecidableEq, Repr

namespace EncryptionState

section Calls

variable (md5 : Bytes → Block 16) (aes : BlockCipher 16) (source : IvSource)

/-- The key of an object, with the state that keeps it. -/
def keyForQpdfObjGen (st : EncryptionState) (og : QpdfObjGen) (useAes : Bool) :
    Bytes × EncryptionState :=
  let st :=
    if st.cachedKeyOg ≠ some og then
      { st with
        cachedObjectEncryptionKey := Standard.computeDataKeyQpdfObjGen md5 st.fileKey og.object
          og.generation useAes st.encryptionV
        cachedKeyOg := some og }
    else st
  (st.cachedObjectEncryptionKey, st)

/-- The cipher for a key. -/
def cipherFor (useAes : Bool) (key : Bytes) : StringCipher :=
  if !useAes then .rc4 key else .aes key

def decryptObjectString (st : EncryptionState) (og : QpdfObjGen) (bytes : Bytes) :
    Option Bool → Except CipherError Bytes × EncryptionState
  | none => (.ok bytes, st)
  | some useAes =>
    let (key, st) := st.keyForQpdfObjGen md5 og useAes
    (decryptCipherBytes aes source bytes (cipherFor useAes key), st)

end Calls

/-- The requests that a document makes of its encryption state. -/
inductive Call where
  | key (og : QpdfObjGen) (useAes : Bool)
  | decrypt (og : QpdfObjGen) (bytes : Bytes) (useAes : Option Bool)
  deriving DecidableEq, Repr

/-- The object whose key a request takes, with its choice of cipher. -/
def Call.use : Call → Option (QpdfObjGen × Bool)
  | .key og useAes => some (og, useAes)
  | .decrypt og _ useAes => useAes.map fun useAes => (og, useAes)

section Histories

variable (md5 : Bytes → Block 16) (aes : BlockCipher 16) (source : IvSource)

/-- The state after a request. -/
def after (st : EncryptionState) : Call → EncryptionState
  | .key og useAes => (st.keyForQpdfObjGen md5 og useAes).2
  | .decrypt og bytes useAes => (st.decryptObjectString md5 aes source og bytes useAes).2

def afterCalls (st : EncryptionState) (calls : List Call) : EncryptionState :=
  calls.foldl (after md5 aes source) st

end Histories

/-- The key requests right before, back to the last one for another object. -/
def sameObject (calls : List Call) (og : QpdfObjGen) : List (QpdfObjGen × Bool) :=
  (calls.filterMap Call.use).reverse.takeWhile fun use => use.1 == og

/-- The choice of the first of these, or the caller's own when there are none. -/
def runChoice (calls : List Call) (og : QpdfObjGen) (useAes : Bool) : Bool :=
  match (sameObject calls og).getLast? with
  | some use => use.2
  | none => useAes

/-! ## Runs of requests -/

theorem sameObject_concat_none {call : Call} (huse : call.use = none) (calls : List Call)
    (og : QpdfObjGen) : sameObject (calls ++ [call]) og = sameObject calls og := by
  rw [sameObject, sameObject, List.filterMap_append, List.filterMap_cons_none huse,
    List.filterMap_nil, List.append_nil]

theorem sameObject_concat_some {call : Call} {og' : QpdfObjGen} {useAes : Bool}
    (huse : call.use = some (og', useAes)) (calls : List Call) (og : QpdfObjGen) :
    sameObject (calls ++ [call]) og =
      if og' = og then (og', useAes) :: sameObject calls og else [] := by
  rw [sameObject, sameObject, List.filterMap_append, List.filterMap_cons_some huse,
    List.filterMap_nil, List.reverse_concat, List.takeWhile_cons]
  simp only [beq_iff_eq]

theorem runChoice_concat_same {call : Call} {og : QpdfObjGen} {useAes : Bool}
    (huse : call.use = some (og, useAes)) (calls : List Call) (useAes' : Bool) :
    runChoice (calls ++ [call]) og useAes' = runChoice calls og useAes := by
  rw [runChoice, sameObject_concat_some huse, if_pos rfl, runChoice, List.getLast?_cons]
  cases (sameObject calls og).getLast? with
  | none => rfl
  | some use => rfl

section Histories

variable {md5 : Bytes → Block 16} {aes : BlockCipher 16} {source : IvSource}

variable (md5) in
/-- The cached key belongs to the run of requests for the cached object, and no run is open
for another one. -/
structure Tracks (fileKey : Bytes) (v : ℤ) (calls : List Call) (st : EncryptionState) : Prop where
  fileKey_eq : st.fileKey = fileKey
  encryptionV_eq : st.encryptionV = v
  cached : ∀ og useAes, st.cachedKeyOg = some og → st.cachedObjectEncryptionKey =
    Standard.computeDataKeyQpdfObjGen md5 fileKey og.object og.generation
      (runChoice calls og useAes) v
  others : ∀ og, st.cachedKeyOg ≠ some og → sameObject calls og = []

variable {fileKey : Bytes} {v : ℤ} {calls : List Call} {st : EncryptionState}

theorem Tracks.key_eq (h : Tracks md5 fileKey v calls st) (og : QpdfObjGen) (useAes : Bool) :
    (st.keyForQpdfObjGen md5 og useAes).1 =
      Standard.computeDataKeyQpdfObjGen md5 fileKey og.object og.generation
        (runChoice calls og useAes) v := by
  rw [keyForQpdfObjGen]
  by_cases hog : st.cachedKeyOg = some og
  · rw [if_neg (not_not_intro hog)]
    exact h.cached og useAes hog
  · rw [if_pos hog, h.fileKey_eq, h.encryptionV_eq, runChoice, h.others og hog, List.getLast?_nil]

theorem Tracks.next (h : Tracks md5 fileKey v calls st) {call : Call} {og : QpdfObjGen}
    {useAes : Bool} (huse : call.use = some (og, useAes)) :
    Tracks md5 fileKey v (calls ++ [call]) (st.keyForQpdfObjGen md5 og useAes).2 := by
  have hcached : (st.keyForQpdfObjGen md5 og useAes).2.cachedKeyOg = some og := by
    rw [keyForQpdfObjGen]
    split
    · rfl
    · case isFalse hog => exact not_not.mp hog
  refine ⟨?_, ?_, ?_, ?_⟩
  · rw [keyForQpdfObjGen]
    split
    · exact h.fileKey_eq
    · exact h.fileKey_eq
  · rw [keyForQpdfObjGen]
    split
    · exact h.encryptionV_eq
    · exact h.encryptionV_eq
  · intro og' useAes' hog'
    have hsame : og' = og := (Option.some.inj (hcached.symm.trans hog')).symm
    subst hsame
    rw [runChoice_concat_same huse, ← h.key_eq]
    rfl
  · intro og' hog'
    rw [sameObject_concat_some huse, if_neg]
    rintro rfl
    exact hog' hcached

theorem after_of_use_none {call : Call} (huse : call.use = none) :
    after md5 aes source st call = st := by
  cases call with
  | key og useAes => cases huse
  | decrypt og bytes useAes =>
    cases useAes with
    | none => rfl
    | some useAes => cases huse

theorem after_of_use_some {call : Call} {og : QpdfObjGen} {useAes : Bool}
    (huse : call.use = some (og, useAes)) :
    after md5 aes source st call = (st.keyForQpdfObjGen md5 og useAes).2 := by
  cases call with
  | key og' useAes' =>
    cases huse
    rfl
  | decrypt og' bytes useAes' =>
    cases useAes' with
    | none => cases huse
    | some useAes' =>
      cases huse
      rfl

/-- From an empty cache on, every state belongs to the requests made so far. -/
theorem tracks_afterCalls (hcache : st.cachedKeyOg = none) (calls : List Call) :
    Tracks md5 st.fileKey st.encryptionV calls (st.afterCalls md5 aes source calls) := by
  induction calls using List.reverseRecOn with
  | nil =>
    refine ⟨rfl, rfl, ?_, fun og _ => rfl⟩
    intro og useAes hog
    rw [afterCalls, List.foldl_nil, hcache] at hog
    cases hog
  | append_singleton calls call ih =>
    rw [afterCalls, List.foldl_concat]
    cases huse : call.use with
    | none =>
      rw [after_of_use_none huse]
      refine ⟨ih.fileKey_eq, ih.encryptionV_eq, ?_, ?_⟩
      · intro og useAes hog
        rw [runChoice, sameObject_concat_none huse]
        exact ih.cached og useAes hog
      · intro og hog
        rw [sameObject_concat_none huse]
        exact ih.others og hog
    | some use =>
      rw [after_of_use_some huse]
      exact ih.next huse

end Histories

/-! ## Strings -/

section RoundTrip

variable (aes : BlockCipher 16) (source : IvSource)

/-- A string that was encrypted under a key is read back under it. -/
theorem decryptCipherBytes_encryptCipherBytes {bytes coded : Bytes} {iv : AesBlock}
    {cipher : StringCipher} (h : encryptCipherBytes aes source bytes iv cipher = .ok coded) :
    decryptCipherBytes aes source coded cipher = .ok bytes := by
  cases cipher with
  | rc4 key =>
    rw [encryptCipherBytes] at h
    rw [decryptCipherBytes]
    cases hnew : Rc4.new key with
    | error error =>
      rw [hnew] at h
      cases h
    | ok c =>
      rw [hnew] at h
      cases h
      exact congrArg Except.ok (c.processInPlace_processInPlace bytes)
  | aes key =>
    obtain ⟨blocks, last, hbytes, hlast⟩ := exists_whole_blocks (Nat.zero_lt_succ 15) bytes
    have hflatten : [bytes].flatten = joinBlocks blocks ++ last := by
      rw [List.flatten_singleton, hbytes]
    have hvector : (IvPolicy.specified iv).vector source = .ok iv := rfl
    have hencrypt : PlAesPdf.deliver aes source true key (.specified iv) true [bytes] = _ :=
      PlAesPdf.deliver_encrypt_padded hvector hlast hflatten
    rw [encryptCipherBytes, PlAesPdf.encryptToVecWithIv, hencrypt] at h
    cases h
    -- The reader takes the vector from the first block, whatever vectors it would draw itself.
    have hahead : IvPolicy.writtenAhead.vector ⟨false, .ok iv⟩ = .ok iv := rfl
    have hdecrypt : ∀ pieces, pieces.flatten = joinBlocks (IvPolicy.writtenAhead.ahead iv ++
        aes.chainEncrypt (PlAesPdf.providerKey key) iv
          (blocks ++ [PlAesPdf.padBlock last hlast])) →
        PlAesPdf.deliver aes source false key .writtenAhead true pieces = .ok bytes := by
      intro pieces hpieces
      rw [PlAesPdf.deliver_decrypt hahead blocks (PlAesPdf.padBlock last hlast) hpieces,
        if_pos rfl, PlAesPdf.keptBytes_padBlock, hbytes, PlAesPdf.padBlock, List.take_left' rfl]
    rw [decryptCipherBytes, PlAesPdf.decryptToVec]
    exact congrArg (fun result => (result.mapError StageFailure.error).mapError
      CipherError.pipeline) (hdecrypt _ List.flatten_singleton)

end RoundTrip

section History

variable (md5 : Bytes → Block 16) (aes : BlockCipher 16) (source : IvSource)

/-- From an empty cache on, a request uses the key for the cipher with which the run of
requests for its object began.  When that is its own cipher, or the handler derives no object
keys, a string encrypted under the key of the object is read back. -/
theorem keys_by_run (st : EncryptionState) (hcache : st.cachedKeyOg = none) (calls : List Call)
    (og : QpdfObjGen) :
    let dataKey := fun useAes => Standard.computeDataKeyQpdfObjGen md5 st.fileKey og.object
      og.generation useAes st.encryptionV
    let reached := st.afterCalls md5 aes source calls
    (∀ useAes, (reached.keyForQpdfObjGen md5 og useAes).1 = dataKey (runChoice calls og useAes)) ∧
      (∀ bytes useAes, (reached.decryptObjectString md5 aes source og bytes (some useAes)).1 =
        decryptCipherBytes aes source bytes
          (cipherFor useAes (dataKey (runChoice calls og useAes)))) ∧
      (∀ bytes, (reached.decryptObjectString md5 aes source og bytes none).1 = .ok bytes) ∧
      ∀ useAes, 5 ≤ st.encryptionV ∨ (∀ use ∈ sameObject calls og, use.2 = useAes) →
        (reached.keyForQpdfObjGen md5 og useAes).1 = dataKey useAes ∧
          ∀ bytes iv coded,
            encryptCipherBytes aes source bytes iv (cipherFor useAes (dataKey useAes)) =
                .ok coded →
              (reached.decryptObjectString md5 aes source og coded (some useAes)).1 =
                .ok bytes := by
  intro dataKey reached
  have htracks : Tracks md5 st.fileKey st.encryptionV calls reached :=
    tracks_afterCalls hcache calls
  have hkey : ∀ useAes, (reached.keyForQpdfObjGen md5 og useAes).1 =
      dataKey (runChoice calls og useAes) := fun useAes => htracks.key_eq og useAes
  have hstring : ∀ bytes useAes,
      (reached.decryptObjectString md5 aes source og bytes (some useAes)).1 =
        decryptCipherBytes aes source bytes
          (cipherFor useAes (dataKey (runChoice calls og useAes))) := by
    intro bytes useAes
    rw [← hkey]
    rfl
  refine ⟨hkey, hstring, fun bytes => rfl, ?_⟩
  intro useAes hsteady
  have hown : dataKey (runChoice calls og useAes) = dataKey useAes := by
    rcases hsteady with hv | hsame
    · simp only [dataKey, Standard.computeDataKeyQpdfObjGen, if_pos hv]
    · rw [runChoice]
      cases hlast : (sameObject calls og).getLast? with
      | none => rfl
      | some use => exact congrArg dataKey (hsame use (List.mem_of_getLast? hlast))
  refine ⟨by rw [hkey, hown], ?_⟩
  intro bytes iv coded hcoded
  rw [hstring, hown]
  exact decryptCipherBytes_encryptCipherBytes aes source hcoded

end History

/-- MD5 on the two inputs that the requests below hash. -/
def sampleMd5 (input : Bytes) : Block 16 :=
  if input = [1, 2, 3, 4, 5, 1, 0, 0, 0, 0] then
    ⟨[126, 26, 119, 243, 237, 229, 0, 250, 33, 11, 58, 81, 212, 109, 157, 108], rfl⟩
  else if input = [1, 2, 3, 4, 5, 1, 0, 0, 0, 0] ++ ascii "sAlT" then
    ⟨[65, 181, 212, 169, 119, 87, 11, 179, 90, 87, 221, 52, 58, 125, 79, 84], rfl⟩
  else zeroBlock

/-- A cipher that leaves each block as it is. -/
def plainCipher : BlockCipher 16 := ⟨fun _ block => block, fun _ block => block, fun _ _ => rfl⟩

/-- Behind an AES request an RC4 request on the same object is given the AES key. -/
theorem rc4_behind_aes :
    ¬ ∀ (calls : List Call) (og : QpdfObjGen) (useAes : Bool),
      ((afterCalls sampleMd5 plainCipher ⟨false, .ok zeroBlock⟩
        { fileKey := [1, 2, 3, 4, 5], encryptionV := 4, cfStream := .aes128, cfString := .rc4 }
        calls).keyForQpdfObjGen sampleMd5 og useAes).1 =
      Standard.computeDataKeyQpdfObjGen sampleMd5 [1, 2, 3, 4, 5] og.object og.generation useAes
        4 := by
  intro h
  have hrc4 := h [.key ⟨1, 0⟩ true] ⟨1, 0⟩ false
  revert hrc4
  decide

/-- At V 5 the ciphers may change. -/
theorem keys_by_run_v5 :
    ((afterCalls sampleMd5 plainCipher ⟨false, .ok zeroBlock⟩
      { fileKey := [1, 2, 3, 4, 5], encryptionV := 5, cfStream := .aes256, cfString := .rc4 }
      [.key ⟨1, 0⟩ true]).keyForQpdfObjGen sampleMd5 ⟨1, 0⟩ false).1 = [1, 2, 3, 4, 5] :=
  ((keys_by_run sampleMd5 plainCipher ⟨false, .ok zeroBlock⟩
    { fileKey := [1, 2, 3, 4, 5], encryptionV := 5, cfStream := .aes256, cfString := .rc4 } rfl
    [.key ⟨1, 0⟩ true] ⟨1, 0⟩).2.2.2 false (.inl le_rfl)).1

end EncryptionState

end Flpdf
