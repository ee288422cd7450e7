import Flpdf.Encryption.Rc4

/-! # Cipher block chaining

A block cipher is a permutation of the blocks under each key.  Chained, every
block is added to the cipher text of the one before it.
-/

namespace Flpdf

/-- A permutation for each key, with its inverse. -/
structure BlockCipher (n : ℕ) where
  encrypt : (key : Bytes) → Block n → Block n
  decrypt : (key : Bytes) → Block n → Block n
  decrypt_encrypt : ∀ key block, decrypt key (encrypt key block) = block

section Blocks

variable {n : ℕ}

def xorBlock (a b : Block n) : Block n :=
  ⟨List.zipWith (· ^^^ ·) a.1 b.1, by rw [List.length_zipWith, a.2, b.2, Nat.min_self]⟩

theorem xorBlock_xorBlock (a b : Block n) : xorBlock (xorBlock a b) b = a := by
  apply Subtype.ext
  apply List.ext_getElem
  · rw [(xorBlock (xorBlock a b) b).2, a.2]
  · intro i _ _
    simp only [xorBlock, List.getElem_zipWith, UInt8.xor_assoc, UInt8.xor_self, UInt8.xor_zero]

/-- The bytes of some blocks. -/
def joinBlocks (blocks : List (Block n)) : Bytes := blocks.flatMap Subtype.val

@[simp] theorem joinBlocks_nil : joinBlocks ([] : List (Block n)) = [] := rfl

@[simp] theorem joinBlocks_cons (block : Block n) (blocks : List (Block n)) :
    joinBlocks (block :: blocks) = block.1 ++ joinBlocks blocks := List.flatMap_cons

@[simp] theorem joinBlocks_append (blocks blocks' : List (Block n)) :
    joinBlocks (blocks ++ blocks') = joinBlocks blocks ++ joinBlocks blocks' := List.flatMap_append

theorem length_joinBlocks (blocks : List (Block n)) :
    (joinBlocks blocks).length = n * blocks.length := by
  induction blocks with
  | nil => rfl
  | cons block blocks ih =>
    rw [joinBlocks_cons, List.length_append, block.2, ih, List.length_cons, Nat.mul_succ,
      Nat.add_comm]

/-- Whole blocks with less than one block behind them. -/
theorem exists_whole_blocks (hn : 0 < n) (data : Bytes) : ∃ (blocks : List (Block n)) (last : Bytes),
    data = joinBlocks blocks ++ last ∧ last.length < n := by
  induction hlength : data.length using Nat.strong_induction_on generalizing data with
  | _ m ih =>
    subst hlength
    by_cases hshort : data.length < n
    · exact ⟨[], data, rfl, hshort⟩
    have htake : (data.take n).length = n := by
      rw [List.length_take]
      omega
    have hdrop : (data.drop n).length < data.length := by
      rw [List.length_drop]
      omega
    obtain ⟨blocks, last, hrest, hlast⟩ := ih _ hdrop _ rfl
    refine ⟨⟨data.take n, htake⟩ :: blocks, last, ?_, hlast⟩
    rw [joinBlocks_cons, List.append_assoc, ← hrest, List.take_append_drop]

theorem exists_whole_blocks_of_dvd (hn : 0 < n) {data : Bytes} (h : n ∣ data.length) :
    ∃ blocks : List (Block n), data = joinBlocks blocks := by
  obtain ⟨blocks, last, rfl, hlast⟩ := exists_whole_blocks hn data
  rw [List.length_append, length_joinBlocks, Nat.dvd_add_right ⟨_, rfl⟩] at h
  have hnil : last = [] := List.eq_nil_of_length_eq_zero (Nat.eq_zero_of_dvd_of_lt h hlast)
  exact ⟨blocks, by rw [hnil, List.append_nil]⟩

end Blocks

namespace BlockCipher

variable {n : ℕ} (c : BlockCipher n) (key : Bytes)

def chainEncrypt : Block n → List (Block n) → List (Block n)
  | _, [] => []
  | chain, block :: blocks =>
    let coded := c.encrypt key (xorBlock block chain)
    coded :: chainEncrypt coded blocks

def chainDecrypt : Block n → List (Block n) → List (Block n)
  | _, [] => []
  | chain, coded :: blocks => xorBlock (c.decrypt key coded) chain :: chainDecrypt coded blocks

@[simp] theorem length_chainEncrypt (chain : Block n) (blocks : List (Block n)) :
    (c.chainEncrypt key chain blocks).length = blocks.length := by
  induction blocks generalizing chain with
  | nil => rfl
  | cons block blocks ih => rw [chainEncrypt, List.length_cons, ih, List.length_cons]

theorem chainEncrypt_concat (chain : Block n) (blocks : List (Block n)) (block : Block n) :
    ∃ coded, c.chainEncrypt key chain (blocks ++ [block]) =
      c.chainEncrypt key chain blocks ++ [coded] := by
  induction blocks generalizing chain with
  | nil => exact ⟨_, rfl⟩
  | cons first blocks ih =>
    obtain ⟨coded, hcoded⟩ := ih (c.encrypt key (xorBlock first chain))
    refine ⟨coded, ?_⟩
    rw [List.cons_append, chainEncrypt, hcoded]
    rfl

theorem chainDecrypt_chainEncrypt (chain : Block n) (blocks : List (Block n)) :
    c.chainDecrypt key chain (c.chainEncrypt key chain blocks) = blocks := by
  induction blocks generalizing chain with
  | nil => rfl
  | cons block blocks ih =>
    rw [chainEncrypt, chainDecrypt, c.decrypt_encrypt, xorBlock_xorBlock, ih]

end BlockCipher

end Flpdf
