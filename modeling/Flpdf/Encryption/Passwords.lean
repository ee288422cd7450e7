import Flpdf.Encryption.Standard

/-! # Passwords of the RC4-era handler

The two checks accept what the builders wrote: the user check repeats the
computation of `/U`, and the owner check undoes the passes behind `/O` and
recovers the padded user password.
-/

namespace Flpdf.Standard

variable {md5 : Bytes → Block 16} {inputs : StandardHandlerInputs} {fileKey : Bytes} {n : ℕ}

/-! ## Padding -/

/-- Padding a block of 32 bytes changes nothing. -/
theorem padPassword_block (block : Block 32) : padPassword block.1 = block := by
  have hlen := block.2
  apply Subtype.ext
  simp [padPassword, hlen, List.take_of_length_le]

/-- Only the padded password is hashed. -/
theorem fileKeySeed_padPassword (password : Bytes) (inputs : StandardHandlerInputs) :
    fileKeySeed (padPassword password).1 inputs = fileKeySeed password inputs := by
  simp only [fileKeySeed, padPassword_block]

theorem checkUserPassword_padPassword (password : Bytes) (inputs : StandardHandlerInputs) :
    checkUserPassword md5 (padPassword password).1 inputs =
      checkUserPassword md5 password inputs := by
  simp only [checkUserPassword, computeFileKey, computeEncryptionKeyFromPassword,
    fileKeySeed_padPassword]

/-- The first byte of the padding string occurs nowhere else in it. -/
theorem passwordPadding_first {d : ℕ} (hd : d < 32)
    (h : passwordPadding.1[d]? = passwordPadding.1[0]?) : d = 0 := by
  have hall : ∀ d : Fin 32, passwordPadding.1[d.val]? = passwordPadding.1[0]? → d = 0 := by
    decide
  exact congrArg Fin.val (hall ⟨d, hd⟩ h)

theorem padPassword_of_short {user : Bytes} (hshort : user.length ≤ 31) :
    (padPassword user).1 = user ++ passwordPadding.1.take (32 - user.length) := by
  have hmin : min user.length 32 = user.length := by
    omega
  simp only [padPassword, hmin]
  rw [List.take_of_length_le (by omega)]

/-- The trimming loop stops exactly where the padding was added. -/
theorem trimFrom_padPassword {user : Bytes} (hshort : user.length ≤ 31) (k : ℕ)
    (hk : k ≤ user.length) :
    trimFrom (padPassword user).1 (user.length - k) (32 - user.length + k) = user := by
  have hpadding := passwordPadding.2
  induction k with
  | zero =>
    obtain ⟨fuel, hfuel⟩ : ∃ fuel, 32 - user.length = fuel + 1 := ⟨31 - user.length, by omega⟩
    have hdrop : (padPassword user).1.drop user.length =
        passwordPadding.1.take (32 - user.length) := by
      rw [padPassword_of_short hshort, List.drop_left]
    have hlen : (passwordPadding.1.take (32 - user.length)).length = 32 - user.length := by
      rw [List.length_take, hpadding]
      omega
    have hhead : (passwordPadding.1.take (32 - user.length)).head? = passwordPadding.1.head? := by
      rw [hfuel]
      rfl
    rw [Nat.sub_zero, Nat.add_zero]
    conv_lhs => rw [hfuel]
    rw [trimFrom]
    simp only [hdrop, hlen, hhead]
    rw [if_pos ⟨trivial, by omega, trivial⟩, padPassword_of_short hshort, List.take_left]
  | succ k ih =>
    have hindex : user.length - (k + 1) + 1 = user.length - k := by
      omega
    rw [← Nat.add_assoc, trimFrom, if_neg, hindex]
    · exact ih (by omega)
    · -- A match here would find the first padding byte again, `k + 1` bytes later.
      rintro ⟨_, _, hmatch⟩
      have hbyte := congrArg (fun l => l[k + 1]?) hmatch
      simp only [List.getElem?_drop, List.length_drop, (padPassword user).2] at hbyte
      have hposition : user.length - (k + 1) + (k + 1) = user.length := by
        omega
      rw [hposition, padPassword_of_short hshort, List.getElem?_append_right (by omega),
        Nat.sub_self, List.getElem?_take_of_lt (by omega),
        List.getElem?_take_of_lt (by omega)] at hbyte
      have := passwordPadding_first (by omega) hbyte.symm
      omega

theorem trimUserPassword_padPassword {user : Bytes} (hshort : user.length ≤ 31) :
    trimUserPassword (padPassword user).1 = user := by
  have hlen := (padPassword user).2
  have hloop := trimFrom_padPassword hshort user.length (Nat.le_refl _)
  have hfuel : 32 - user.length + user.length = 32 := by
    omega
  rw [Nat.sub_self, hfuel] at hloop
  rw [trimUserPassword, if_neg (by omega), hlen]
  exact hloop

/-! ## The checks against the entries -/

/-- The user check repeats the computation of `/U`. -/
theorem checkUserPassword_of_entry {password : Bytes}
    (hkey : computeFileKey md5 password inputs = .ok fileKey)
    (hu : computeUEntry md5 fileKey inputs.id0 inputs.r = .ok inputs.u) :
    checkUserPassword md5 password inputs = .ok fileKey := by
  simp only [computeUEntry, computeUFirst16R3plus, bind, Except.bind] at hu
  simp only [checkUserPassword, hkey, bind, Except.bind]
  cases hrevision : ensureVLt5Revision inputs.r "/U" with
  | error e =>
    rw [hrevision] at hu
    cases hu
  | ok _ =>
    rw [hrevision] at hu
    by_cases hr : inputs.r = 2
    · simp only [if_pos hr] at hu ⊢
      simp only [hu, ne_eq, not_true_eq_false, if_false]
    · simp only [if_neg hr] at hu ⊢
      cases hfirst : Rc4.apply fileKey (md5 (passwordPadding.1 ++ inputs.id0)) with
      | error e =>
        rw [hfirst] at hu
        cases hu
      | ok data =>
        rw [hfirst] at hu
        cases hlater : Rc4.passes fileKey laterPasses data with
        | error e =>
          simp only [hlater] at hu
          cases hu
        | ok data =>
          simp only [hlater] at hu ⊢
          have hentry : inputs.u.1 = data.1 ++ uFiller := (congrArg Subtype.val (Except.ok.inj hu)).symm
          have htake : inputs.u.1.take 16 = data.1 := by
            rw [hentry, List.take_left' data.2]
          simp only [htake, ne_eq, not_true_eq_false, if_false]

/-- The passes behind `/O` are undone. -/
theorem recover_of_entry {user owner : Bytes} {r : ℤ} {o : Block 32}
    (hkey : deriveOwnerPasswordRc4Key md5 (effectiveOwner user owner) r n ≠ [])
    (ho : computeOEntry md5 user owner r n = .ok o) :
    (if r = 2 then Rc4.apply (deriveOwnerPasswordRc4Key md5 (effectiveOwner user owner) r n) o
      else Rc4.passes (deriveOwnerPasswordRc4Key md5 (effectiveOwner user owner) r n)
        allPasses.reverse o) = .ok (padPassword user) := by
  simp only [computeOEntry, bind, Except.bind] at ho
  cases hrevision : ensureVLt5Revision r "/O" with
  | error e =>
    rw [hrevision] at ho
    cases ho
  | ok _ =>
    rw [hrevision] at ho
    by_cases hr : r = 2
    · simp only [if_pos hr] at ho ⊢
      rw [Rc4.apply_eq hkey] at ho ⊢
      cases ho
      rw [Rc4.mask_mask]
    · simp only [if_neg hr] at ho ⊢
      exact Rc4.passes_reverse hkey ho

/-- The owner check recovers the padded user password and the same key. -/
theorem checkOwnerPassword_of_entries {user owner : Bytes}
    (hn : validateInputs inputs = .ok n) (hpos : 0 < n)
    (ho : computeOEntry md5 user owner inputs.r n = .ok inputs.o)
    (hkey : computeFileKey md5 user inputs = .ok fileKey)
    (hu : computeUEntry md5 fileKey inputs.id0 inputs.r = .ok inputs.u) :
    checkOwnerPasswordWithUserPassword md5 (effectiveOwner user owner) inputs =
      .ok (fileKey, (padPassword user).1) := by
  have hne : deriveOwnerPasswordRc4Key md5 (effectiveOwner user owner) inputs.r n ≠ [] := by
    have hdigest : ∀ d : Block 16, d.1.take n ≠ [] := by
      intro d h
      have hlen := congrArg List.length h
      rw [List.length_take, d.2, List.length_nil] at hlen
      omega
    exact hdigest _
  have hrecover := recover_of_entry hne ho
  simp only [checkOwnerPasswordWithUserPassword, hn, bind, Except.bind]
  by_cases hr : inputs.r = 2
  · simp only [if_pos hr] at hrecover ⊢
    simp only [hrecover, checkUserPassword_padPassword, checkUserPassword_of_entry hkey hu]
    rfl
  · simp only [if_neg hr] at hrecover ⊢
    simp only [hrecover, checkUserPassword_padPassword, checkUserPassword_of_entry hkey hu]
    rfl

/-! ## The V4 entry points -/

theorem validateInputs_v4 (hv : inputs.v = 4) (hr : inputs.r = 4) (hl : inputs.lengthBits = 128) :
    validateInputs inputs = .ok 16 ∧ validateV4Inputs inputs = .ok 16 := by
  simp [validateInputs, validateV4Inputs, hv, hr, hl]

theorem checkUserPasswordV4_eq (hv : inputs.v = 4) (hr : inputs.r = 4)
    (hl : inputs.lengthBits = 128) (password : Bytes) :
    checkUserPasswordV4 md5 password inputs = checkUserPassword md5 password inputs := by
  obtain ⟨hgeneral, hv4⟩ := validateInputs_v4 hv hr hl
  have hne : inputs.r ≠ 2 := by
    omega
  simp only [checkUserPasswordV4, checkUserPassword, computeFileKeyV4, computeFileKey, hgeneral,
    hv4, if_neg hne]

theorem checkOwnerPasswordV4_eq (hv : inputs.v = 4) (hr : inputs.r = 4)
    (hl : inputs.lengthBits = 128) (password : Bytes) :
    checkOwnerPasswordV4WithUserPassword md5 password inputs =
      checkOwnerPasswordWithUserPassword md5 password inputs := by
  obtain ⟨hgeneral, hv4⟩ := validateInputs_v4 hv hr hl
  have hne : inputs.r ≠ 2 := by
    omega
  have hge : inputs.r ≥ 3 := by
    omega
  simp only [checkOwnerPasswordV4WithUserPassword, checkOwnerPasswordWithUserPassword, hgeneral,
    hv4, if_neg hne, deriveOwnerPasswordRc4Key, if_pos hge, checkUserPasswordV4_eq hv hr hl]

/-! ## The builders -/

/-- What a reader takes from a V1 or V2 dictionary. -/
def V1V2EncryptParams.readerInputs (params : V1V2EncryptParams) (u o : Block 32)
    (encryptMetadata : Bool) : StandardHandlerInputs where
  v := params.v
  r := params.r
  lengthBits := params.lengthBits
  p := params.p
  id0 := params.id0
  u := u
  o := o
  encryptMetadata := encryptMetadata

/-- What a reader takes from a V4 dictionary. -/
def V4EncryptParams.readerInputs (params : V4EncryptParams) (u o : Block 32) :
    StandardHandlerInputs where
  v := 4
  r := 4
  lengthBits := 128
  p := params.p
  id0 := params.id0
  u := u
  o := o
  encryptMetadata := params.encryptMetadata

/-- Both passwords open the entries and give the file key; the owner check also
recovers the padded user password. -/
structure Opens (md5 : Bytes → Block 16) (inputs : StandardHandlerInputs)
    (userPassword ownerPassword fileKey : Bytes) : Prop where
  user : checkUserPassword md5 userPassword inputs = .ok fileKey
  owner : checkOwnerPasswordWithUserPassword md5 (effectiveOwner userPassword ownerPassword)
    inputs = .ok (fileKey, (padPassword userPassword).1)

theorem validateInputs_eq_ok (hv : inputs.v = 1 ∨ inputs.v = 2 ∨ inputs.v = 4)
    (hr : 2 ≤ inputs.r ∧ inputs.r ≤ 6) (h1 : ¬ (inputs.v = 1 ∧ inputs.lengthBits ≠ 40))
    (hl : ¬ (inputs.lengthBits < 40 ∨ inputs.lengthBits > 128 ∨ inputs.lengthBits % 8 ≠ 0)) :
    validateInputs inputs = .ok (inputs.lengthBits / 8).toNat := by
  rw [validateInputs, if_neg (not_not_intro hv), if_neg (not_not_intro hr), if_neg h1, if_neg hl]

/-- The combinations the V1 and V2 builder accepts, with their key length. -/
theorem validateV1V2Params_eq_ok {params : V1V2EncryptParams}
    (h : validateV1V2Params params = .ok n) (u o : Block 32) (encryptMetadata : Bool) :
    validateInputs (params.readerInputs u o encryptMetadata) = .ok n ∧ 0 < n ∧
      (params.r = 2 ∨ params.r = 3) := by
  simp only [validateV1V2Params] at h
  split_ifs at h with hv hr h1 h2 hl
  cases h
  refine ⟨?_, by omega, by omega⟩
  apply validateInputs_eq_ok
  · show params.v = 1 ∨ params.v = 2 ∨ params.v = 4
    omega
  · show 2 ≤ params.r ∧ params.r ≤ 6
    omega
  · show ¬ (params.v = 1 ∧ params.lengthBits ≠ 40)
    omega
  · exact hl

/-- Below R4 the file key depends on neither `/U` nor `/EncryptMetadata`. -/
theorem computeFileKey_congr {a b : StandardHandlerInputs} (hlow : a.r < 4) (hv : a.v = b.v)
    (hr : a.r = b.r) (hl : a.lengthBits = b.lengthBits) (hp : a.p = b.p) (hid : a.id0 = b.id0)
    (ho : a.o = b.o) (password : Bytes) :
    computeFileKey md5 password a = computeFileKey md5 password b := by
  have ha : ¬ (a.r ≥ 4 ∧ a.encryptMetadata = false) := by
    omega
  have hb : ¬ (b.r ≥ 4 ∧ b.encryptMetadata = false) := by
    omega
  have hseed : fileKeySeed password a = fileKeySeed password b := by
    rw [fileKeySeed, fileKeySeed, if_neg ha, if_neg hb, hp, hid, ho]
  simp only [computeFileKey, validateInputs, computeEncryptionKeyFromPassword, hseed, hv, hr, hl]

theorem computeFileKey_readerInputs {params : V1V2EncryptParams}
    (hr : params.r = 2 ∨ params.r = 3) (password : Bytes) (u o : Block 32)
    (encryptMetadata : Bool) :
    computeFileKey md5 password (params.readerInputs u o encryptMetadata) =
      computeFileKey md5 password (params.readerInputs zeroU o true) := by
  apply computeFileKey_congr <;> try rfl
  show params.r < 4
  omega

/-- What a successful build computed. -/
theorem buildV1V2EncryptDict_eq_ok {params : V1V2EncryptParams} {dict : EncryptDict}
    (h : buildV1V2EncryptDict md5 params = .ok (dict, fileKey)) : ∃ n u o,
      validateV1V2Params params = .ok n ∧
      computeOEntry md5 params.userPassword params.ownerPassword params.r n = .ok o ∧
      computeFileKey md5 params.userPassword (params.readerInputs zeroU o true) = .ok fileKey ∧
      computeUEntry md5 fileKey params.id0 params.r = .ok u ∧
      dict.block? "U" 32 = some u ∧ dict.block? "O" 32 = some o := by
  simp only [buildV1V2EncryptDict, bind, Except.bind] at h
  cases hn : validateV1V2Params params with
  | error e => simp [hn] at h
  | ok n =>
    simp only [hn] at h
    cases ho : computeOEntry md5 params.userPassword params.ownerPassword params.r n with
    | error e => simp [ho] at h
    | ok o =>
      simp only [ho] at h
      cases hkey : computeFileKey md5 params.userPassword (params.readerInputs zeroU o true) with
      | error e =>
        simp only [V1V2EncryptParams.readerInputs] at hkey
        simp [hkey] at h
      | ok key =>
        simp only [V1V2EncryptParams.readerInputs] at hkey
        simp only [hkey] at h
        cases hu : computeUEntry md5 key params.id0 params.r with
        | error e => simp [hu] at h
        | ok u =>
          simp only [hu] at h
          obtain ⟨rfl, rfl⟩ := Prod.mk.inj (Except.ok.inj h)
          refine ⟨n, u, o, rfl, ho, hkey, hu, ?_, ?_⟩
          · exact dif_pos u.2
          · exact dif_pos o.2

theorem V1V2EncryptParams.opens {params : V1V2EncryptParams} {dict : EncryptDict}
    (h : buildV1V2EncryptDict md5 params = .ok (dict, fileKey)) (encryptMetadata : Bool) :
    ∃ u o, dict.block? "U" 32 = some u ∧ dict.block? "O" 32 = some o ∧
      Opens md5 (params.readerInputs u o encryptMetadata) params.userPassword
        params.ownerPassword fileKey := by
  obtain ⟨n, u, o, hn, ho, hkey, hu, hU, hO⟩ := buildV1V2EncryptDict_eq_ok h
  obtain ⟨hvalid, hpos, hr⟩ := validateV1V2Params_eq_ok hn u o encryptMetadata
  rw [← computeFileKey_readerInputs hr _ u o encryptMetadata] at hkey
  refine ⟨u, o, hU, hO, ?_⟩
  constructor
  · exact checkUserPassword_of_entry hkey hu
  · exact checkOwnerPassword_of_entries hvalid hpos ho hkey hu

theorem take_ne_nil {k : ℕ} (digest : Block 16) (hk : 0 < k) : digest.1.take k ≠ [] := by
  intro h
  have hlen := congrArg List.length h
  rw [List.length_take, digest.2, List.length_nil] at hlen
  omega

theorem computeOEntry_isOk (md5 : Bytes → Block 16) (user owner : Bytes) {r : ℤ} (hr : 2 ≤ r ∧ r ≤ 4) (hn : 0 < n) :
    ∃ o, computeOEntry md5 user owner r n = .ok o := by
  have hne : deriveOwnerPasswordRc4Key md5 (effectiveOwner user owner) r n ≠ [] :=
    take_ne_nil _ hn
  by_cases h2 : r = 2
  · simp only [computeOEntry, ensureVLt5Revision, if_pos hr, if_pos h2, Rc4.apply_eq hne]
    exact ⟨_, rfl⟩
  · simp only [computeOEntry, ensureVLt5Revision, if_pos hr, if_neg h2, Rc4.passes_eq hne]
    exact ⟨_, rfl⟩

theorem computeUEntry_isOk (md5 : Bytes → Block 16) (hne : fileKey ≠ []) (id0 : Bytes) {r : ℤ}
    (hr : 2 ≤ r ∧ r ≤ 4) :
    ∃ u, computeUEntry md5 fileKey id0 r = .ok u := by
  by_cases h2 : r = 2
  · simp only [computeUEntry, ensureVLt5Revision, if_pos hr, if_pos h2, Rc4.apply_eq hne]
    exact ⟨_, rfl⟩
  · simp only [computeUEntry, computeUFirst16R3plus, ensureVLt5Revision, if_pos hr, if_neg h2,
      Rc4.apply_eq hne, bind, Except.bind, Rc4.passes_eq hne]
    exact ⟨_, rfl⟩

theorem computeEncryptionKeyFromPassword_isOk (md5 : Bytes → Block 16)
    (inputs : StandardHandlerInputs) (password : Bytes)
    (hl : 40 ≤ inputs.lengthBits) : ∃ key, key ≠ [] ∧
      computeEncryptionKeyFromPassword md5 password inputs = .ok key := by
  have hdiv : inputs.lengthBits.tdiv 8 = inputs.lengthBits / 8 :=
    Int.tdiv_eq_ediv_of_nonneg (by omega)
  have hkey : ¬ min (inputs.lengthBits / 8) 16 < 0 := by
    omega
  simp only [computeEncryptionKeyFromPassword, hdiv, if_neg hkey]
  exact ⟨_, take_ne_nil _ (by omega), rfl⟩

/-- Every accepted combination is built. -/
theorem buildV1V2EncryptDict_isOk (md5 : Bytes → Block 16) {params : V1V2EncryptParams}
    (h : validateV1V2Params params = .ok n) :
    ∃ dict key, buildV1V2EncryptDict md5 params = .ok (dict, key) := by
  obtain ⟨hvalid, hpos, hr⟩ := validateV1V2Params_eq_ok h zeroU zeroU true
  have hlength : 40 ≤ params.lengthBits := by
    simp only [validateV1V2Params] at h
    split_ifs at h
    omega
  obtain ⟨o, ho⟩ := computeOEntry_isOk md5 params.userPassword params.ownerPassword
    (r := params.r) (by omega) hpos
  obtain ⟨key, hne, hkey⟩ := computeEncryptionKeyFromPassword_isOk md5
    (params.readerInputs zeroU o true) params.userPassword hlength
  obtain ⟨u, hu⟩ := computeUEntry_isOk md5 hne params.id0 (r := params.r) (by omega)
  have hfile : computeFileKey md5 params.userPassword (params.readerInputs zeroU o true) =
      .ok key := by
    simp only [computeFileKey, (validateV1V2Params_eq_ok h zeroU o true).1, bind, Except.bind, hkey]
  simp only [V1V2EncryptParams.readerInputs] at hfile
  simp only [buildV1V2EncryptDict, h, ho, hfile, hu, bind, Except.bind]
  exact ⟨_, _, rfl⟩

/-- The V4 builder always succeeds. -/
theorem buildV4EncryptDict_eq_ok (md5 : Bytes → Block 16) (params : V4EncryptParams) :
    ∃ dict fileKey u o, buildV4EncryptDict md5 params = .ok (dict, fileKey) ∧
      computeOEntry md5 params.userPassword params.ownerPassword 4 16 = .ok o ∧
      computeFileKey md5 params.userPassword (params.readerInputs u o) = .ok fileKey ∧
      computeUEntry md5 fileKey params.id0 4 = .ok u ∧
      EncryptDict.block? dict "U" 32 = some u ∧ EncryptDict.block? dict "O" 32 = some o := by
  obtain ⟨o, ho⟩ := computeOEntry_isOk md5 (n := 16) params.userPassword
    params.ownerPassword (r := 4) (by omega) (by omega)
  obtain ⟨key, hne, hkey⟩ := computeEncryptionKeyFromPassword_isOk md5
    (params.readerInputs zeroU o) params.userPassword (show (40 : ℤ) ≤ 128 by omega)
  obtain ⟨u, hu⟩ := computeUEntry_isOk md5 hne params.id0 (r := 4) (by omega)
  have hvalid := fun u =>
    validateInputs_v4 (show (params.readerInputs u o).v = 4 from rfl) rfl rfl
  have hfile : computeFileKeyV4 md5 params.userPassword (params.readerInputs zeroU o) =
      .ok key := by
    simp only [computeFileKeyV4, (hvalid zeroU).2, bind, Except.bind, hkey]
  have hgeneral : computeFileKey md5 params.userPassword (params.readerInputs u o) = .ok key := by
    simp only [computeFileKey, (hvalid u).1, bind, Except.bind]
    exact hkey
  simp only [V4EncryptParams.readerInputs] at hfile
  have hbuild : ∃ dict, buildV4EncryptDict md5 params = .ok (dict, key) ∧
      EncryptDict.block? dict "U" 32 = some u ∧ EncryptDict.block? dict "O" 32 = some o := by
    simp only [buildV4EncryptDict, ho, hfile, hu, bind, Except.bind]
    exact ⟨_, rfl, dif_pos u.2, dif_pos o.2⟩
  obtain ⟨dict, hdict, hU, hO⟩ := hbuild
  exact ⟨dict, key, u, o, hdict, ho, hgeneral, hu, hU, hO⟩

theorem V4EncryptParams.opens (md5 : Bytes → Block 16) (params : V4EncryptParams) :
    ∃ dict fileKey u o, buildV4EncryptDict md5 params = .ok (dict, fileKey) ∧
      EncryptDict.block? dict "U" 32 = some u ∧ EncryptDict.block? dict "O" 32 = some o ∧
      Opens md5 (params.readerInputs u o) params.userPassword params.ownerPassword fileKey := by
  obtain ⟨dict, key, u, o, hbuild, ho, hkey, hu, hU, hO⟩ := buildV4EncryptDict_eq_ok md5 params
  have hvalid := (validateInputs_v4 (show (params.readerInputs u o).v = 4 from rfl) rfl rfl).1
  refine ⟨dict, key, u, o, hbuild, hU, hO, ?_⟩
  constructor
  · exact checkUserPassword_of_entry hkey hu
  · exact checkOwnerPassword_of_entries hvalid (by omega) ho hkey hu

/-- Whatever the builders write opens with both passwords, the V4 entry points
agree with the general ones, and trimming recovers a password of up to 31 bytes. -/
theorem passwords_open (md5 : Bytes → Block 16) :
    (∀ (params : V1V2EncryptParams) (dict : EncryptDict) (fileKey : Bytes)
        (encryptMetadata : Bool),
      buildV1V2EncryptDict md5 params = .ok (dict, fileKey) →
      ∃ u o, dict.block? "U" 32 = some u ∧ dict.block? "O" 32 = some o ∧
        Opens md5 (params.readerInputs u o encryptMetadata) params.userPassword
          params.ownerPassword fileKey) ∧
    (∀ params : V4EncryptParams, ∃ dict fileKey u o,
      buildV4EncryptDict md5 params = .ok (dict, fileKey) ∧
      EncryptDict.block? dict "U" 32 = some u ∧ EncryptDict.block? dict "O" 32 = some o ∧
      Opens md5 (params.readerInputs u o) params.userPassword params.ownerPassword fileKey) ∧
    (∀ (inputs : StandardHandlerInputs) (password : Bytes),
      inputs.v = 4 → inputs.r = 4 → inputs.lengthBits = 128 →
      checkUserPasswordV4 md5 password inputs = checkUserPassword md5 password inputs ∧
        checkOwnerPasswordV4WithUserPassword md5 password inputs =
          checkOwnerPasswordWithUserPassword md5 password inputs) ∧
    ∀ userPassword : Bytes, userPassword.length ≤ 31 →
      trimUserPassword (padPassword userPassword).1 = userPassword := by
  refine ⟨?_, ?_, ?_, ?_⟩
  · intro params dict fileKey encryptMetadata h
    exact V1V2EncryptParams.opens h encryptMetadata
  · intro params
    exact V4EncryptParams.opens md5 params
  · intro inputs password hv hr hl
    exact ⟨checkUserPasswordV4_eq hv hr hl password, checkOwnerPasswordV4_eq hv hr hl password⟩
  · intro userPassword hshort
    exact trimUserPassword_padPassword hshort

/-- A V2 document with a 40-bit key under R3, and a digest of zeros. -/
theorem passwords_open_v2 : ∃ dict fileKey u o,
    buildV1V2EncryptDict (fun _ => ⟨List.replicate 16 0, rfl⟩)
      ⟨2, 3, 40, ascii "user", ascii "owner", -4, []⟩ = .ok (dict, fileKey) ∧
    Opens (fun _ => ⟨List.replicate 16 0, rfl⟩)
      (V1V2EncryptParams.readerInputs ⟨2, 3, 40, ascii "user", ascii "owner", -4, []⟩ u o true)
      (ascii "user") (ascii "owner") fileKey ∧
    trimUserPassword (padPassword (ascii "user")).1 = ascii "user" := by
  have hopen := passwords_open fun _ => ⟨List.replicate 16 0, rfl⟩
  obtain ⟨dict, key, hbuild⟩ := buildV1V2EncryptDict_isOk (fun _ => ⟨List.replicate 16 0, rfl⟩)
    (show validateV1V2Params ⟨2, 3, 40, ascii "user", ascii "owner", -4, []⟩ = .ok 5 from rfl)
  obtain ⟨u, o, _, _, h⟩ := hopen.1 _ dict key true hbuild
  exact ⟨dict, key, u, o, hbuild, h, hopen.2.2.2 _ (by decide)⟩

end Flpdf.Standard
