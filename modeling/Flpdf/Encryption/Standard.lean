import Flpdf.Encryption.Rc4
import Mathlib.Algebra.Order.Ring.Int

/-! # The RC4-era standard handler

Key derivation, the two password checks and the dictionary builders of the
handlers with V below 5. MD5 is a parameter; the dictionary keeps the entries
the builders write.
-/

namespace Flpdf

/-- The values of an `/Encrypt` dictionary. -/
inductive EncryptValue where
  | name (value : Bytes)
  | integer (value : ℤ)
  | string (value : Bytes)
  | boolean (value : Bool)
  | dictionary (entries : List (Bytes × EncryptValue))

abbrev EncryptDict := List (Bytes × EncryptValue)

/-- A string entry of a given length. -/
def EncryptDict.block? (dict : EncryptDict) (key : String) (n : ℕ) : Option (Block n) :=
  match dict.find? (fun entry => entry.1 == ascii key) with
  | some (_, .string bytes) => if h : bytes.length = n then some ⟨bytes, h⟩ else none
  | _ => none

namespace Standard

def passwordPadding : Block 32 :=
  ⟨[0x28, 0xBF, 0x4E, 0x5E, 0x4E, 0x75, 0x8A, 0x41, 0x64, 0x00, 0x4E, 0x56, 0xFF, 0xFA, 0x01, 0x08,
    0x2E, 0x2E, 0x00, 0xB6, 0xD0, 0x68, 0x3E, 0x80, 0x2F, 0x0C, 0xA9, 0xFE, 0x64, 0x53, 0x69, 0x7A],
    rfl⟩

/-- The dictionary entries the checks below V5 read. -/
structure StandardHandlerInputs where
  v : ℤ
  r : ℤ
  lengthBits : ℤ
  p : Int32
  id0 : Bytes
  u : Block 32
  o : Block 32
  encryptMetadata : Bool

/-- Pad with the padding string or truncate, to 32 bytes. -/
def padPassword (password : Bytes) : Block 32 :=
  ⟨password.take 32 ++ passwordPadding.1.take (32 - min password.length 32), by
    have hpadding := passwordPadding.2
    simp only [List.length_append, List.length_take, hpadding]
    omega⟩

def toLeBytes (p : Int32) : Bytes :=
  (List.range 4).map fun i => (p.toUInt32 >>> (8 * i.toUInt32)).toUInt8

def unsupportedHandler (v r : ℤ) : EncryptedError := .unsupportedHandler "Standard" v r none

def invalidLength (lengthBits : ℤ) : EncryptedError :=
  .malformed s!"/Length {lengthBits} is invalid; must be a multiple of 8 between 40 and 128"

def validateInputs (inputs : StandardHandlerInputs) : Except EncryptedError ℕ :=
  if ¬ (inputs.v = 1 ∨ inputs.v = 2 ∨ inputs.v = 4) then
    .error (unsupportedHandler inputs.v inputs.r)
  else if ¬ (2 ≤ inputs.r ∧ inputs.r ≤ 6) then .error (unsupportedHandler inputs.v inputs.r)
  else if inputs.v = 1 ∧ inputs.lengthBits ≠ 40 then .error (unsupportedHandler inputs.v inputs.r)
  else if inputs.lengthBits < 40 ∨ inputs.lengthBits > 128 ∨ inputs.lengthBits % 8 ≠ 0 then
    .error (invalidLength inputs.lengthBits)
  else .ok (inputs.lengthBits / 8).toNat

def validateV4Inputs (inputs : StandardHandlerInputs) : Except EncryptedError ℕ :=
  if inputs.v ≠ 4 ∨ inputs.r ≠ 4 ∨ inputs.lengthBits ≠ 128 then
    .error (unsupportedHandler inputs.v inputs.r)
  else .ok 16

/-- `1..=19`, the passes after the first. -/
def laterPasses : List UInt8 := (List.range' 1 19).map Nat.toUInt8

/-- `0..=19`. -/
def allPasses : List UInt8 := (List.range 20).map Nat.toUInt8

section Handler

variable (md5 : Bytes → Block 16)

/-- What Algorithm 2 hashes first. -/
def fileKeySeed (password : Bytes) (inputs : StandardHandlerInputs) : Bytes :=
  (padPassword password).1 ++ inputs.o.1 ++ toLeBytes inputs.p ++ inputs.id0 ++
    if inputs.r ≥ 4 ∧ inputs.encryptMetadata = false then [0xFF, 0xFF, 0xFF, 0xFF] else []

/-- Algorithm 2: the iteration hashes the truncated digest. -/
def computeEncryptionKeyFromPassword (password : Bytes) (inputs : StandardHandlerInputs) :
    Except EncryptedError Bytes :=
  let keyLen := min (inputs.lengthBits.tdiv 8) 16
  if keyLen < 0 then
    .error (.system
      s!"/Length {inputs.lengthBits} is negative; encryption key length is out of range")
  else
    let digest := md5 (fileKeySeed password inputs)
    let digest := if inputs.r ≥ 3 then (fun d : Block 16 => md5 (d.1.take keyLen.toNat))^[50] digest
      else digest
    .ok (digest.1.take keyLen.toNat)

def computeFileKey (password : Bytes) (inputs : StandardHandlerInputs) :
    Except EncryptedError Bytes := do
  let _ ← validateInputs inputs
  computeEncryptionKeyFromPassword md5 password inputs

def computeFileKeyV4 (password : Bytes) (inputs : StandardHandlerInputs) :
    Except EncryptedError Bytes := do
  let _ ← validateV4Inputs inputs
  computeEncryptionKeyFromPassword md5 password inputs

/-- Algorithm 6: R2 compares all of `/U`, later revisions its first 16 bytes. -/
def checkUserPassword (password : Bytes) (inputs : StandardHandlerInputs) :
    Except EncryptedError Bytes := do
  let fileKey ← computeFileKey md5 password inputs
  if inputs.r = 2 then
    let encrypted ← Rc4.apply fileKey passwordPadding
    if encrypted.1 ≠ inputs.u.1 then .error .badPassword else .ok fileKey
  else
    let data ← Rc4.apply fileKey (md5 (passwordPadding.1 ++ inputs.id0))
    let data ← Rc4.passes fileKey laterPasses data
    if data.1 ≠ inputs.u.1.take 16 then .error .badPassword else .ok fileKey

def checkUserPasswordV4 (password : Bytes) (inputs : StandardHandlerInputs) :
    Except EncryptedError Bytes := do
  let fileKey ← computeFileKeyV4 md5 password inputs
  let data ← Rc4.apply fileKey (md5 (passwordPadding.1 ++ inputs.id0))
  let data ← Rc4.passes fileKey laterPasses data
  if data.1 ≠ inputs.u.1.take 16 then .error .badPassword else .ok fileKey

/-- The key that hides the user password in `/O`; the iteration hashes the full digest. -/
def deriveOwnerPasswordRc4Key (password : Bytes) (r : ℤ) (n : ℕ) : Bytes :=
  let digest := md5 (padPassword password).1
  let digest := if r ≥ 3 then (fun d : Block 16 => md5 d.1)^[50] digest else digest
  digest.1.take n

/-- Algorithm 7: the recovered user password goes through Algorithm 6. -/
def checkOwnerPasswordWithUserPassword (password : Bytes) (inputs : StandardHandlerInputs) :
    Except EncryptedError (Bytes × Bytes) := do
  let n ← validateInputs inputs
  let rc4Key := deriveOwnerPasswordRc4Key md5 password inputs.r n
  let candidate ← if inputs.r = 2 then Rc4.apply rc4Key inputs.o
    else Rc4.passes rc4Key allPasses.reverse inputs.o
  let fileKey ← checkUserPassword md5 candidate.1 inputs
  return (fileKey, candidate.1)

def checkOwnerPasswordV4WithUserPassword (password : Bytes) (inputs : StandardHandlerInputs) :
    Except EncryptedError (Bytes × Bytes) := do
  let n ← validateV4Inputs inputs
  let digest := (fun d : Block 16 => md5 d.1)^[50] (md5 (padPassword password).1)
  let candidate ← Rc4.passes (digest.1.take n) allPasses.reverse inputs.o
  let fileKey ← checkUserPasswordV4 md5 candidate.1 inputs
  return (fileKey, candidate.1)

/-- The loop of `trim_user_password` from a given index on. -/
def trimFrom (password : Bytes) : ℕ → ℕ → Bytes
  | _, 0 => password
  | index, fuel + 1 =>
    let rest := password.drop index
    if rest.head? = passwordPadding.1.head? ∧ rest.length ≤ 32 ∧
        rest = passwordPadding.1.take rest.length then password.take index
    else trimFrom password (index + 1) fuel

def trimUserPassword (password : Bytes) : Bytes :=
  if password.length < 32 then password else trimFrom password 0 password.length

/-! ## The builders -/

structure V1V2EncryptParams where
  v : ℤ
  r : ℤ
  lengthBits : ℤ
  userPassword : Bytes
  ownerPassword : Bytes
  p : Int32
  id0 : Bytes

def validateV1V2Params (params : V1V2EncryptParams) : Except EncryptedError ℕ :=
  if params.v ≠ 1 ∧ params.v ≠ 2 then .error (unsupportedHandler params.v params.r)
  else if params.r ≠ 2 ∧ params.r ≠ 3 then .error (unsupportedHandler params.v params.r)
  else if params.v = 1 ∧ (params.r ≠ 2 ∨ params.lengthBits ≠ 40) then
    .error (unsupportedHandler params.v params.r)
  else if params.r = 2 ∧ params.lengthBits ≠ 40 then .error (unsupportedHandler params.v params.r)
  else if params.lengthBits < 40 ∨ params.lengthBits > 128 ∨ params.lengthBits % 8 ≠ 0 then
    .error (invalidLength params.lengthBits)
  else .ok (params.lengthBits / 8).toNat

def ensureVLt5Revision (r : ℤ) (entry : String) : Except EncryptedError Unit :=
  if 2 ≤ r ∧ r ≤ 4 then .ok ()
  else .error (.malformed
    s!"/R {r} is unsupported for {entry} computation; expected one of 2, 3, 4")

/-- Algorithm 3: an empty owner password stands for the user password. -/
def effectiveOwner (userPassword ownerPassword : Bytes) : Bytes :=
  if ownerPassword.isEmpty then userPassword else ownerPassword

def computeOEntry (userPassword ownerPassword : Bytes) (r : ℤ) (n : ℕ) :
    Except EncryptedError (Block 32) := do
  ensureVLt5Revision r "/O"
  let rc4Key := deriveOwnerPasswordRc4Key md5 (effectiveOwner userPassword ownerPassword) r n
  if r = 2 then Rc4.apply rc4Key (padPassword userPassword)
  else Rc4.passes rc4Key allPasses (padPassword userPassword)

def computeUFirst16R3plus (fileKey id0 : Bytes) : Except EncryptedError (Block 16) := do
  let data ← Rc4.apply fileKey (md5 (passwordPadding.1 ++ id0))
  Rc4.passes fileKey laterPasses data

/-- The filler behind the first 16 bytes of `/U`. -/
def uFiller : Bytes := (List.range' 16 16).map fun i => (i * i % 0xff).toUInt8

def computeUEntry (fileKey id0 : Bytes) (r : ℤ) : Except EncryptedError (Block 32) := do
  ensureVLt5Revision r "/U"
  if r = 2 then Rc4.apply fileKey passwordPadding
  else
    let first16 ← computeUFirst16R3plus md5 fileKey id0
    return ⟨first16.1 ++ uFiller, by rw [List.length_append, first16.2]; rfl⟩

def zeroU : Block 32 := ⟨List.replicate 32 0, rfl⟩

def buildV1V2EncryptDict (params : V1V2EncryptParams) :
    Except EncryptedError (EncryptDict × Bytes) := do
  let n ← validateV1V2Params params
  let oEntry ← computeOEntry md5 params.userPassword params.ownerPassword params.r n
  let fileKey ← computeFileKey md5 params.userPassword
    { v := params.v
      r := params.r
      lengthBits := params.lengthBits
      p := params.p
      id0 := params.id0
      u := zeroU
      o := oEntry
      encryptMetadata := true }
  let uEntry ← computeUEntry md5 fileKey params.id0 params.r
  return ([(ascii "Filter", .name (ascii "Standard")),
    (ascii "V", .integer params.v),
    (ascii "R", .integer params.r),
    (ascii "Length", .integer params.lengthBits),
    (ascii "P", .integer params.p.toInt),
    (ascii "U", .string uEntry.1),
    (ascii "O", .string oEntry.1)], fileKey)

inductive V4CryptMethod where
  | rc4
  | aes
  deriving DecidableEq

def V4CryptMethod.cfmName : V4CryptMethod → Bytes
  | .rc4 => ascii "V2"
  | .aes => ascii "AESV2"

structure V4EncryptParams where
  method : V4CryptMethod
  userPassword : Bytes
  ownerPassword : Bytes
  p : Int32
  id0 : Bytes
  encryptMetadata : Bool

/-- `/CF`, with its one filter. -/
def stdCf (cfm : Bytes) (length : ℤ) : EncryptValue :=
  .dictionary [(ascii "StdCF", .dictionary
    [(ascii "AuthEvent", .name (ascii "DocOpen")),
      (ascii "CFM", .name cfm),
      (ascii "Length", .integer length)])]

/-- The entry that is written only when metadata stays in the clear. -/
def encryptMetadataEntry (encryptMetadata : Bool) : EncryptDict :=
  if encryptMetadata then [] else [(ascii "EncryptMetadata", .boolean false)]

def buildV4EncryptDict (params : V4EncryptParams) :
    Except EncryptedError (EncryptDict × Bytes) := do
  let oEntry ← computeOEntry md5 params.userPassword params.ownerPassword 4 16
  let fileKey ← computeFileKeyV4 md5 params.userPassword
    { v := 4
      r := 4
      lengthBits := 128
      p := params.p
      id0 := params.id0
      u := zeroU
      o := oEntry
      encryptMetadata := params.encryptMetadata }
  let uEntry ← computeUEntry md5 fileKey params.id0 4
  return ([(ascii "CF", stdCf params.method.cfmName 16),
    (ascii "Filter", .name (ascii "Standard")),
    (ascii "Length", .integer 128),
    (ascii "O", .string oEntry.1),
    (ascii "P", .integer params.p.toInt),
    (ascii "R", .integer 4),
    (ascii "StmF", .name (ascii "StdCF")),
    (ascii "StrF", .name (ascii "StdCF")),
    (ascii "U", .string uEntry.1),
    (ascii "V", .integer 4)] ++ encryptMetadataEntry params.encryptMetadata, fileKey)

end Handler

end Standard

end Flpdf
