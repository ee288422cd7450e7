import Flpdf.Encryption.Standard

/-! # The AES-256 standard handler

Revisions 5 and 6 share the shape of their entries and differ in the salted
hash. SHA-2 and AES in CBC mode are parameters. The writer hashes the password
it is given, while the reader first cuts it to 127 bytes.
-/

namespace Flpdf.Standard

/-- The hash functions, and AES-CBC without padding on whole blocks. -/
structure Primitives where
  sha256 : Bytes → Block 32
  sha384 : Bytes → Block 48
  sha512 : Bytes → Block 64
  aesEncrypt : (key iv data : Bytes) → Bytes
  aesDecrypt : (key iv data : Bytes) → Bytes
  aesEncrypt_length : ∀ key iv data, data.length % 16 = 0 →
    (aesEncrypt key iv data).length = data.length
  aesDecrypt_aesEncrypt : ∀ key iv data, data.length % 16 = 0 →
    aesDecrypt key iv (aesEncrypt key iv data) = data

/-- The entries the V5 checks read. -/
structure StandardHandlerR5Inputs where
  u : Block 48
  o : Block 48
  ue : Block 32
  oe : Block 32

def truncatePasswordV5 (password : Bytes) : Bytes := password.take 127

def zeroIv : Bytes := List.replicate 16 0

/-- A fixed part of an entry. -/
def Block.part {n : ℕ} (entry : Block n) (start count : ℕ) : Bytes :=
  (entry.1.drop start).take count

section Handler

variable (c : Primitives)

/-- `process_to_vec_without_padding`, encrypting: the data is fed as often as asked. -/
def encryptWithoutPadding (data key : Bytes) (repetitions : ℕ) (iv : Option Bytes) : Bytes :=
  c.aesEncrypt key (iv.getD zeroIv) (List.replicate repetitions data).flatten

def decryptWithoutPadding (data key : Bytes) (repetitions : ℕ) (iv : Option Bytes) : Bytes :=
  c.aesDecrypt key (iv.getD zeroIv) (List.replicate repetitions data).flatten

def r5SaltedHash (password salt extra : Bytes) : Block 32 :=
  c.sha256 (password ++ salt ++ extra)

/-- The cipher text of one round of Algorithm 2.B. -/
def r6RoundText (password extra key : Bytes) : Bytes :=
  encryptWithoutPadding c (password ++ key ++ extra) (key.take 16) 64
    (some ((key.drop 16).take 16))

/-- The hash a round ends with, chosen by the first block of its text. -/
def r6RoundHash (text : Bytes) : Bytes :=
  match ((text.take 16).map UInt8.toNat).sum % 3 with
  | 0 => (c.sha256 text).1
  | 1 => (c.sha384 text).1
  | _ => (c.sha512 text).1

theorem r6RoundHash_length (text : Bytes) : 32 ≤ (r6RoundHash c text).length := by
  unfold r6RoundHash
  split
  · exact Nat.le_of_eq (c.sha256 text).2.symm
  · rw [(c.sha384 text).2]
    omega
  · rw [(c.sha512 text).2]
    omega

/-- The rounds of Algorithm 2.B. A byte is at most 255, so that round 287 is the last. -/
def r6Rounds (password extra : Bytes) (roundNumber : ℕ) (key : Bytes) : Block 32 :=
  let text := r6RoundText c password extra key
  if roundNumber ≥ 64 ∧ (text.getLast?.getD 0).toNat ≤ roundNumber - 32 then
    ⟨(r6RoundHash c text).take 32, by
      rw [List.length_take]
      exact Nat.min_eq_left (r6RoundHash_length c text)⟩
  else r6Rounds password extra (roundNumber + 1) (r6RoundHash c text)
termination_by 287 - roundNumber
decreasing_by
  have hbyte := (text.getLast?.getD 0).toNat_lt
  omega

def r6PasswordHash (password salt extra : Bytes) : Block 32 :=
  r6Rounds c password extra 1 (r5SaltedHash c password salt extra).1

/-- The reader of one pair of entries, for either hash. -/
def decryptFileKey (hash : Bytes → Bytes → Bytes → Block 32) (password : Bytes) (entry : Block 48)
    (encryptedKey : Block 32) (extra : Bytes) : Except EncryptedError Bytes :=
  let validationHash := hash password (Block.part entry 32 8) extra
  if validationHash.1 ≠ Block.part entry 0 32 then .error .badPassword
  else
    .ok (decryptWithoutPadding c encryptedKey.1 (hash password (Block.part entry 40 8) extra).1 1
      none)

def decryptR5FileKey := decryptFileKey c (r5SaltedHash c)

def decryptR6FileKey := decryptFileKey c (r6PasswordHash c)

def checkUserPasswordR5 (password : Bytes) (inputs : StandardHandlerR5Inputs) :
    Except EncryptedError Bytes :=
  decryptR5FileKey c (truncatePasswordV5 password) inputs.u inputs.ue []

def checkOwnerPasswordR5 (password : Bytes) (inputs : StandardHandlerR5Inputs) :
    Except EncryptedError Bytes :=
  decryptR5FileKey c (truncatePasswordV5 password) inputs.o inputs.oe inputs.u.1

def checkUserPasswordR6 (password : Bytes) (inputs : StandardHandlerR5Inputs) :
    Except EncryptedError Bytes :=
  decryptR6FileKey c (truncatePasswordV5 password) inputs.u inputs.ue []

def checkOwnerPasswordR6 (password : Bytes) (inputs : StandardHandlerR5Inputs) :
    Except EncryptedError Bytes :=
  decryptR6FileKey c (truncatePasswordV5 password) inputs.o inputs.oe inputs.u.1

/-! ## The builders -/

structure V5R6EncryptParams where
  userPassword : Bytes
  ownerPassword : Bytes
  p : Int32
  encryptMetadata : Bool

structure V5R6Secrets where
  fileKey : Block 32
  userValidationSalt : Block 8
  userKeySalt : Block 8
  ownerValidationSalt : Block 8
  ownerKeySalt : Block 8
  permsRandomTail : Block 4

/-- The plain text of `/Perms`. -/
def permsBlock (p : Int32) (encryptMetadata : Bool) (randomTail : Block 4) : Block 16 :=
  ⟨toLeBytes p ++ [0xFF, 0xFF, 0xFF, 0xFF] ++ [if encryptMetadata then 0x54 else 0x46] ++
    ascii "adb" ++ randomTail.1, by
    simp only [List.length_append, randomTail.2]
    rfl⟩

def computePermsBlob (p : Int32) (encryptMetadata : Bool) (randomTail : Block 4)
    (fileKey : Block 32) : Block 16 :=
  let block := permsBlock p encryptMetadata randomTail
  ⟨encryptWithoutPadding c block.1 fileKey.1 1 none, by
    have hlen : (List.replicate 1 block.1).flatten.length = 16 := by
      simp [block.2]
    rw [encryptWithoutPadding, c.aesEncrypt_length _ _ _ (by rw [hlen]), hlen]⟩

def aes256CbcZeroIvWrap (fileKey : Block 32) (aesKey : Block 32) : Block 32 :=
  ⟨encryptWithoutPadding c fileKey.1 aesKey.1 1 none, by
    have hlen : (List.replicate 1 fileKey.1).flatten.length = 32 := by
      simp [fileKey.2]
    rw [encryptWithoutPadding, c.aesEncrypt_length _ _ _ (by rw [hlen]), hlen]⟩

/-- The writer of one pair of entries, for either hash: validation hash,
validation salt and key salt, and the wrapped file key. -/
def computeEntries (hash : Bytes → Bytes → Bytes → Block 32) (password extra : Bytes)
    (fileKey : Block 32) (validationSalt keySalt : Block 8) : Block 48 × Block 32 :=
  let validationHash := hash password validationSalt.1 extra
  let aesKey := hash password keySalt.1 extra
  (⟨validationHash.1 ++ validationSalt.1 ++ keySalt.1, by
    rw [List.length_append, List.length_append, validationHash.2, validationSalt.2, keySalt.2]⟩,
    aes256CbcZeroIvWrap c fileKey aesKey)

def computeUUeR6 (userPassword : Bytes) := computeEntries c (r6PasswordHash c) userPassword []

def computeOOeR6 (ownerPassword : Bytes) (userEntry : Block 48) :=
  computeEntries c (r6PasswordHash c) ownerPassword userEntry.1

def computeUUeR5 (userPassword : Bytes) := computeEntries c (r5SaltedHash c) userPassword []

def computeOOeR5 (ownerPassword : Bytes) (userEntry : Block 48) :=
  computeEntries c (r5SaltedHash c) ownerPassword userEntry.1

/-- The dictionary of either revision. -/
def v5EncryptDict (r : ℤ) (params : V5R6EncryptParams) (u o : Block 48 × Block 32)
    (perms : Block 16) : EncryptDict :=
  [(ascii "CF", stdCf (ascii "AESV3") 32),
    (ascii "Filter", .name (ascii "Standard")),
    (ascii "Length", .integer 256),
    (ascii "O", .string o.1.1),
    (ascii "OE", .string o.2.1),
    (ascii "P", .integer params.p.toInt),
    (ascii "Perms", .string perms.1),
    (ascii "R", .integer r),
    (ascii "StmF", .name (ascii "StdCF")),
    (ascii "StrF", .name (ascii "StdCF")),
    (ascii "U", .string u.1.1),
    (ascii "UE", .string u.2.1),
    (ascii "V", .integer 5)] ++ encryptMetadataEntry params.encryptMetadata

def buildV5R6EncryptDict (params : V5R6EncryptParams) (secrets : V5R6Secrets) : EncryptDict :=
  let u := computeUUeR6 c params.userPassword secrets.fileKey secrets.userValidationSalt
    secrets.userKeySalt
  let o := computeOOeR6 c params.ownerPassword u.1 secrets.fileKey secrets.ownerValidationSalt
    secrets.ownerKeySalt
  v5EncryptDict 6 params u o
    (computePermsBlob c params.p params.encryptMetadata secrets.permsRandomTail secrets.fileKey)

def buildV5R5EncryptDict (params : V5R6EncryptParams) (secrets : V5R6Secrets) : EncryptDict :=
  let u := computeUUeR5 c params.userPassword secrets.fileKey secrets.userValidationSalt
    secrets.userKeySalt
  let o := computeOOeR5 c params.ownerPassword u.1 secrets.fileKey secrets.ownerValidationSalt
    secrets.ownerKeySalt
  v5EncryptDict 5 params u o
    (computePermsBlob c params.p params.encryptMetadata secrets.permsRandomTail secrets.fileKey)

/-- What the reader takes from a V5 dictionary. -/
def v5Inputs? (dict : EncryptDict) : Option StandardHandlerR5Inputs :=
  match dict.block? "U" 48, dict.block? "O" 48, dict.block? "UE" 32, dict.block? "OE" 32 with
  | some u, some o, some ue, some oe => some ⟨u, o, ue, oe⟩
  | _, _, _, _ => none

end Handler

/-! ## Reading what was written -/

section RoundTrip

variable {c : Primitives}

theorem v5Inputs?_v5EncryptDict (r : ℤ) (params : V5R6EncryptParams) (u o : Block 48 × Block 32)
    (perms : Block 16) :
    v5Inputs? (v5EncryptDict r params u o perms) = some ⟨u.1, o.1, u.2, o.2⟩ := by
  have hU : (v5EncryptDict r params u o perms).block? "U" 48 = some u.1 := dif_pos u.1.2
  have hO : (v5EncryptDict r params u o perms).block? "O" 48 = some o.1 := dif_pos o.1.2
  have hUE : (v5EncryptDict r params u o perms).block? "UE" 32 = some u.2 := dif_pos u.2.2
  have hOE : (v5EncryptDict r params u o perms).block? "OE" 32 = some o.2 := dif_pos o.2.2
  simp only [v5Inputs?, hU, hO, hUE, hOE]

/-- Whole blocks are decrypted to what was encrypted. -/
theorem decrypt_encrypt {data : Bytes} (hdata : data.length % 16 = 0) (key : Bytes) :
    decryptWithoutPadding c (encryptWithoutPadding c data key 1 none) key 1 none = data := by
  have hone : ∀ data : Bytes, (List.replicate 1 data).flatten = data := by
    intro data
    simp
  simp only [decryptWithoutPadding, encryptWithoutPadding, hone]
  exact c.aesDecrypt_aesEncrypt _ _ _ hdata

/-- The wrapped key is unwrapped. -/
theorem decrypt_wrap (fileKey aesKey : Block 32) :
    decryptWithoutPadding c (aes256CbcZeroIvWrap c fileKey aesKey).1 aesKey.1 1 none =
      fileKey.1 :=
  decrypt_encrypt (by rw [fileKey.2]) _

/-- `/Perms` is the encrypted block, under the file key. -/
theorem v5EncryptDict_perms (r : ℤ) (params : V5R6EncryptParams) (secrets : V5R6Secrets)
    (u o : Block 48 × Block 32) :
    ∃ perms, (v5EncryptDict r params u o (computePermsBlob c params.p params.encryptMetadata
        secrets.permsRandomTail secrets.fileKey)).block? "Perms" 16 = some perms ∧
      decryptWithoutPadding c perms.1 secrets.fileKey.1 1 none =
        (permsBlock params.p params.encryptMetadata secrets.permsRandomTail).1 := by
  refine ⟨_, dif_pos (computePermsBlob _ _ _ _ _).2, ?_⟩
  exact decrypt_encrypt (by rw [(permsBlock _ _ _).2]) _

/-- The three parts of a written entry. -/
theorem computeEntries_parts (hash : Bytes → Bytes → Bytes → Block 32) (password extra : Bytes)
    (fileKey : Block 32) (validationSalt keySalt : Block 8) :
    let entry := (computeEntries c hash password extra fileKey validationSalt keySalt).1
    Block.part entry 0 32 = (hash password validationSalt.1 extra).1 ∧
      Block.part entry 32 8 = validationSalt.1 ∧ Block.part entry 40 8 = keySalt.1 := by
  have hhash := (hash password validationSalt.1 extra).2
  have hboth : ((hash password validationSalt.1 extra).1 ++ validationSalt.1).length = 40 := by
    rw [List.length_append, hhash, validationSalt.2]
  simp only [computeEntries, Block.part]
  refine ⟨?_, ?_, ?_⟩
  · rw [List.drop_zero, List.append_assoc, List.take_left' hhash]
  · rw [List.append_assoc, List.drop_left' hhash, List.take_left' validationSalt.2]
  · rw [List.drop_left' hboth, List.take_of_length_le (Nat.le_of_eq keySalt.2)]

/-- The reader accepts a pair of entries under the password they were written with. -/
theorem decryptFileKey_computeEntries (hash : Bytes → Bytes → Bytes → Block 32)
    (password extra : Bytes) (fileKey : Block 32) (validationSalt keySalt : Block 8) :
    decryptFileKey c hash password
        (computeEntries c hash password extra fileKey validationSalt keySalt).1
        (computeEntries c hash password extra fileKey validationSalt keySalt).2 extra =
      .ok fileKey.1 := by
  obtain ⟨hvalidation, hsalt, hkey⟩ :=
    computeEntries_parts (c := c) hash password extra fileKey validationSalt keySalt
  rw [decryptFileKey, hvalidation, hsalt, hkey, if_neg (not_not_intro rfl)]
  exact congrArg Except.ok (decrypt_wrap _ _)

theorem truncatePasswordV5_of_short {password : Bytes} (h : password.length ≤ 127) :
    truncatePasswordV5 password = password :=
  List.take_of_length_le h

/-- What opening a V5 dictionary needs: each short password gives the file key
through its check, and the file key decrypts `/Perms`. -/
structure OpensV5 (c : Primitives) (params : V5R6EncryptParams) (secrets : V5R6Secrets)
    (dict : EncryptDict) (inputs : StandardHandlerR5Inputs)
    (checkUser checkOwner : Bytes → StandardHandlerR5Inputs → Except EncryptedError Bytes) :
    Prop where
  read : v5Inputs? dict = some inputs
  perms : ∃ perms, dict.block? "Perms" 16 = some perms ∧
    decryptWithoutPadding c perms.1 secrets.fileKey.1 1 none =
      (permsBlock params.p params.encryptMetadata secrets.permsRandomTail).1
  user : params.userPassword.length ≤ 127 →
    checkUser params.userPassword inputs = .ok secrets.fileKey.1
  owner : params.ownerPassword.length ≤ 127 →
    checkOwner params.ownerPassword inputs = .ok secrets.fileKey.1

/-- A V5 document opens with each password of at most 127 bytes it was written with. -/
theorem v5_passwords_open (c : Primitives) (params : V5R6EncryptParams) (secrets : V5R6Secrets) :
    (∃ inputs, OpensV5 c params secrets (buildV5R6EncryptDict c params secrets) inputs
      (checkUserPasswordR6 c) (checkOwnerPasswordR6 c)) ∧
    ∃ inputs, OpensV5 c params secrets (buildV5R5EncryptDict c params secrets) inputs
      (checkUserPasswordR5 c) (checkOwnerPasswordR5 c) := by
  constructor
  · refine ⟨_, v5Inputs?_v5EncryptDict _ _ _ _ _, v5EncryptDict_perms _ _ _ _ _, ?_, ?_⟩
    · intro hshort
      rw [checkUserPasswordR6, truncatePasswordV5_of_short hshort]
      exact decryptFileKey_computeEntries _ _ _ _ _ _
    · intro hshort
      rw [checkOwnerPasswordR6, truncatePasswordV5_of_short hshort]
      exact decryptFileKey_computeEntries _ _ _ _ _ _
  · refine ⟨_, v5Inputs?_v5EncryptDict _ _ _ _ _, v5EncryptDict_perms _ _ _ _ _, ?_, ?_⟩
    · intro hshort
      rw [checkUserPasswordR5, truncatePasswordV5_of_short hshort]
      exact decryptFileKey_computeEntries _ _ _ _ _ _
    · intro hshort
      rw [checkOwnerPasswordR5, truncatePasswordV5_of_short hshort]
      exact decryptFileKey_computeEntries _ _ _ _ _ _

/-- A password that hashes differently after the cut is refused. -/
theorem decryptFileKey_refuses (hash : Bytes → Bytes → Bytes → Block 32)
    {password password' extra : Bytes} {fileKey : Block 32} {validationSalt keySalt : Block 8}
    (h : hash password' validationSalt.1 extra ≠ hash password validationSalt.1 extra) :
    decryptFileKey c hash password'
        (computeEntries c hash password extra fileKey validationSalt keySalt).1
        (computeEntries c hash password extra fileKey validationSalt keySalt).2 extra =
      .error .badPassword := by
  obtain ⟨hvalidation, hsalt, _⟩ :=
    computeEntries_parts (c := c) hash password extra fileKey validationSalt keySalt
  rw [decryptFileKey, hvalidation, hsalt, if_pos]
  intro heq
  exact h (Subtype.ext heq)

end RoundTrip

/-! ## Longer passwords -/

/-- A hash that counts: its first byte tells the length of its input. -/
def countingHash (n : ℕ) (data : Bytes) : Block (n + 1) :=
  ⟨(data.length / 64 % 16).toUInt8 :: List.replicate n 0, by simp⟩

/-- Counting hashes and an identity cipher. -/
def countingPrimitives : Primitives where
  sha256 := countingHash 31
  sha384 := countingHash 47
  sha512 := countingHash 63
  aesEncrypt := fun _ _ data => data
  aesDecrypt := fun _ _ data => data
  aesEncrypt_length := fun _ _ _ _ => rfl
  aesDecrypt_aesEncrypt := fun _ _ _ _ => rfl

/-- The passwords `user` and `owner` open what they were written into. -/
theorem v5_passwords_open_short :
    ∃ inputs, v5Inputs? (buildV5R6EncryptDict countingPrimitives
        ⟨ascii "user", ascii "owner", -4, false⟩
        ⟨⟨List.replicate 32 1, rfl⟩, ⟨List.replicate 8 2, rfl⟩, ⟨List.replicate 8 3, rfl⟩,
          ⟨List.replicate 8 4, rfl⟩, ⟨List.replicate 8 5, rfl⟩, ⟨List.replicate 4 6, rfl⟩⟩) =
        some inputs ∧
      checkUserPasswordR6 countingPrimitives (ascii "user") inputs = .ok (List.replicate 32 1) ∧
      checkOwnerPasswordR6 countingPrimitives (ascii "owner") inputs =
        .ok (List.replicate 32 1) := by
  obtain ⟨inputs, hopens⟩ := (v5_passwords_open countingPrimitives
    ⟨ascii "user", ascii "owner", -4, false⟩
    ⟨⟨List.replicate 32 1, rfl⟩, ⟨List.replicate 8 2, rfl⟩, ⟨List.replicate 8 3, rfl⟩,
      ⟨List.replicate 8 4, rfl⟩, ⟨List.replicate 8 5, rfl⟩, ⟨List.replicate 4 6, rfl⟩⟩).1
  exact ⟨inputs, hopens.read, hopens.user (by decide), hopens.owner (by decide)⟩

theorem countingHash_round (text : Bytes) :
    ∃ zeros, r6RoundHash countingPrimitives text = (text.length / 64 % 16).toUInt8 :: zeros ∧
      (zeros.length + 1) % 16 = 0 := by
  unfold r6RoundHash
  split
  · exact ⟨List.replicate 31 0, rfl, rfl⟩
  · exact ⟨List.replicate 47 0, rfl, rfl⟩
  · exact ⟨List.replicate 63 0, rfl, rfl⟩

theorem r6RoundText_length (password extra key : Bytes) :
    (r6RoundText countingPrimitives password extra key).length =
      64 * (password.length + key.length + extra.length) := by
  have htext : r6RoundText countingPrimitives password extra key =
      (List.replicate 64 (password ++ key ++ extra)).flatten := rfl
  rw [htext, List.length_flatten, List.map_replicate, List.sum_replicate_nat, List.length_append,
    List.length_append]

/-- With counting hashes the first byte of the final hash tells the password's length. -/
theorem r6Rounds_head (password extra : Bytes) (roundNumber : ℕ) (key : Bytes)
    (hkey : key.length % 16 = 0) :
    (r6Rounds countingPrimitives password extra roundNumber key).1.head? =
      some ((password.length + extra.length) % 16).toUInt8 := by
  induction roundNumber, key using r6Rounds.induct countingPrimitives password extra with
  | case1 roundNumber key text hstop =>
    obtain ⟨zeros, hhash, _⟩ := countingHash_round text
    have hlen : text.length / 64 % 16 = (password.length + extra.length) % 16 := by
      rw [r6RoundText_length]
      omega
    rw [r6Rounds, if_pos hstop]
    simp only [text] at hhash hlen
    simp only [hhash, hlen]
    rfl
  | case2 roundNumber key text hstop ih =>
    obtain ⟨zeros, hhash, hzeros⟩ := countingHash_round text
    rw [r6Rounds, if_neg hstop]
    apply ih
    rw [hhash, List.length_cons]
    exact hzeros

/-- A user password of 128 bytes does not open the document it was written into. -/
theorem long_password_refused :
    ∃ inputs, v5Inputs? (buildV5R6EncryptDict countingPrimitives
        ⟨List.replicate 128 0x70, [], -4, true⟩
        ⟨⟨List.replicate 32 0, rfl⟩, ⟨List.replicate 8 0, rfl⟩, ⟨List.replicate 8 0, rfl⟩,
          ⟨List.replicate 8 0, rfl⟩, ⟨List.replicate 8 0, rfl⟩, ⟨List.replicate 4 0, rfl⟩⟩) =
        some inputs ∧
      checkUserPasswordR6 countingPrimitives (List.replicate 128 0x70) inputs =
        .error .badPassword := by
  refine ⟨_, v5Inputs?_v5EncryptDict _ _ _ _ _, ?_⟩
  apply decryptFileKey_refuses
  intro heq
  have hhead := congrArg (fun block : Block 32 => block.1.head?) heq
  simp only [r6PasswordHash, r6Rounds_head _ _ _ _ (congrArg (· % 16) (r5SaltedHash _ _ _ _).2)]
    at hhead
  simp only [truncatePasswordV5, List.length_take, List.length_replicate, List.length_nil] at hhead
  revert hhead
  decide

end Flpdf.Standard
