import Flpdf.Tokenizer.Reading
import Flpdf.Syntax.StrayHash

/-! # Names survive serialization

A written name is read back unless a restored `#` is followed by two
hexadecimal digits that were text.
-/

namespace Flpdf

namespace Tokenizer

variable {b : UInt8} {rest : Bytes}

/-- Inside a name.  Finished escapes leave a code, a digit and a message behind. -/
def readingName (o : Tokenizer) (value raw : Bytes) (code : ℕ) (hex : UInt8)
    (message : Option Bytes) : NamePart → Tokenizer
  | .plain =>
    { reading o .name value raw with charCode := code, hexByte := hex, errorMessage := message }
  | .hash =>
    { reading o .nameHex1 value raw with charCode := code, hexByte := hex, errorMessage := message }
  | .digit x v _ =>
    { reading o .nameHex2 value raw with
      charCode := v.toNat <<< 4, hexByte := x, errorMessage := message }

/-- `t` has read the name text `raw` and decoded `value` from it, up to the part it is in. -/
def NameAt (o : Tokenizer) (p : NamePart) (value raw : Bytes) (t : Tokenizer) : Prop :=
  ∃ code hex message, t = readingName o value raw code hex message p

variable {o t : Tokenizer} {p : NamePart} {v r : Bytes}

theorem NameAt.not_ready (h : NameAt o p v r t) : t.state ≠ .tokenReady := by
  obtain ⟨c, x, e, rfl⟩ := h
  cases p <;> simp [readingName, reading]

/-- A `#` ends whatever part it stands behind. -/
theorem NameAt.hash (h : NameAt o p v r t) :
    NameAt o .hash (v ++ p.text) (r ++ [0x23]) (t.readByte 0 0x23) := by
  obtain ⟨c, x, e, rfl⟩ := h
  have hd : isTokenDelimiter 0x23 = false := rfl
  have hx : hexValue 0x23 = none := rfl
  cases p with
  | plain =>
    refine ⟨0, x, e, ?_⟩
    simp [readByte, handleCharacter, inName, hd, afterCharacter, readingName, reading,
      NamePart.text, Nat.add_assoc]
  | hash =>
    refine ⟨0, 0x23, some strayHashMessage, ?_⟩
    simp [readByte, handleCharacter, inNameHex1, inName, hd, hx, afterCharacter, readingName,
      reading, push, NamePart.text, Nat.add_assoc]
  | digit y w hy =>
    refine ⟨0, y, some strayHashMessage, ?_⟩
    simp [readByte, handleCharacter, inNameHex2, inName, hd, hx, afterCharacter, readingName,
      reading, push, NamePart.text, Nat.add_assoc]

/-- A safe byte that is no digit of an escape. -/
theorem NameAt.plain (h : NameAt o p v r t) (hd : isTokenDelimiter b = false) (hb : b ≠ 0x23)
    (hp : p = .plain ∨ hexValue b = none) :
    NameAt o .plain (v ++ p.text ++ [b]) (r ++ [b]) (t.readByte 0 b) := by
  obtain ⟨c, x, e, rfl⟩ := h
  cases p with
  | plain =>
    refine ⟨c, x, e, ?_⟩
    simp [readByte, handleCharacter, inName, hd, hb, afterCharacter, readingName, reading, push,
      NamePart.text, Nat.add_assoc]
  | hash =>
    have hx : hexValue b = none := by simpa using hp
    refine ⟨c, b, some strayHashMessage, ?_⟩
    simp [readByte, handleCharacter, inNameHex1, inName, hd, hb, hx, afterCharacter, readingName,
      reading, push, NamePart.text, Nat.add_assoc]
  | digit y w hy =>
    have hx : hexValue b = none := by simpa using hp
    refine ⟨w.toNat <<< 4, y, some strayHashMessage, ?_⟩
    simp [readByte, handleCharacter, inNameHex2, inName, hd, hb, hx, afterCharacter, readingName,
      reading, push, NamePart.text, Nat.add_assoc]

/-- The first digit of an escape. -/
theorem NameAt.digit {w : UInt8} (h : NameAt o .hash v r t) (hb : hexValue b = some w) :
    NameAt o (.digit b w hb) v (r ++ [b]) (t.readByte 0 b) := by
  obtain ⟨c, x, e, rfl⟩ := h
  refine ⟨c, x, e, ?_⟩
  simp [readByte, handleCharacter, inNameHex1, hb, afterCharacter, readingName, reading,
    Nat.add_assoc]

/-- The second digit of an escape that does not stand for NUL. -/
theorem NameAt.escape {y w w' : UInt8} {hy : hexValue y = some w} {code : ℕ}
    (h : NameAt o (.digit y w hy) v r t) (hb : hexValue b = some w')
    (hcode : w.toNat <<< 4 ||| w'.toNat = code) (hne : code ≠ 0) :
    NameAt o .plain (v ++ [code.toUInt8]) (r ++ [b]) (t.readByte 0 b) := by
  obtain ⟨c, x, e, rfl⟩ := h
  refine ⟨code, y, e, ?_⟩
  simp only [readByte, handleCharacter, readingName, reading, inNameHex2, hb, hcode, if_neg hne]
  simp [afterCharacter, Nat.add_assoc]

theorem hexDigits_join_pos (b : UInt8) (h : b ≠ 0) :
    ∃ k, (b >>> 4).toNat <<< 4 ||| (b &&& 0x0f).toNat = k ∧ k ≠ 0 ∧ k.toUInt8 = b :=
  ⟨b.toNat, forall_byte (p := fun b => (b >>> 4).toNat <<< 4 ||| (b &&& 0x0f).toNat = b.toNat)
    (by decide) b, fun hb => h (UInt8.toNat_inj.mp hb), by simp⟩

/-- The written form of a byte moves the lexer to the next part. -/
theorem NameAt.nameByte {p' : NamePart} (h : NameAt o p v r t) (hp : p.next b = some p')
    (rest : Bytes) : ∃ v' t', v' ++ p'.text = v ++ p.text ++ [b] ∧
      NameAt o p' v' (r ++ nameByte b) t' ∧
      readLoop 0 (nameByte b ++ rest) t = readLoop 0 rest t' := by
  unfold NamePart.next at hp
  rw [Flpdf.nameByte]
  by_cases h₀ : b = 0
  · rw [if_pos h₀] at hp ⊢
    obtain rfl := Option.some.inj hp
    exact ⟨v ++ p.text, _, by rw [h₀]; rfl, h.hash, readLoop_cons h.not_ready⟩
  rw [if_neg h₀] at hp ⊢
  by_cases he : nameNeedsEscape b = true
  · rw [if_pos he] at hp ⊢
    obtain rfl := Option.some.inj hp
    obtain ⟨k, hk, hne, hb⟩ := hexDigits_join_pos b h₀
    have h₁ := h.hash
    have h₂ := h₁.digit (hexValue_hexDigit_high b)
    have h₃ := h₂.escape (hexValue_hexDigit_low b) hk hne
    rw [hb] at h₃
    refine ⟨v ++ p.text ++ [b], _, by simp [NamePart.text], by simpa using h₃, ?_⟩
    rw [List.cons_append, readLoop_cons h.not_ready, List.cons_append, readLoop_cons h₁.not_ready,
      List.singleton_append, readLoop_cons h₂.not_ready]
  · rw [if_neg he] at hp ⊢
    obtain ⟨hd, hb⟩ := safe_iff b h₀ (by simpa using he)
    have plain (hp : some NamePart.plain = some p') (hx : p = .plain ∨ hexValue b = none) :
        ∃ v' t', v' ++ p'.text = v ++ p.text ++ [b] ∧ NameAt o p' v' (r ++ [b]) t' ∧
          readLoop 0 ([b] ++ rest) t = readLoop 0 rest t' := by
      obtain rfl := Option.some.inj hp
      exact ⟨v ++ p.text ++ [b], _, by simp [NamePart.text], h.plain hd hb hx,
        readLoop_cons h.not_ready⟩
    cases p with
    | plain => exact plain hp (.inl rfl)
    | hash =>
      dsimp only at hp
      split at hp
      next w hw =>
        obtain rfl := Option.some.inj hp
        exact ⟨v, _, by simp [NamePart.text], h.digit hw, readLoop_cons h.not_ready⟩
      next hw => exact plain hp (.inr hw)
    | digit x w hx =>
      cases hnone : isHexDigit b with
      | true => simp [hnone] at hp
      | false => exact plain (by simpa [hnone] using hp) (.inr (by simpa [isHexDigit] using hnone))

/-- The written name is read to its end when no `#` captures two digits. -/
theorem NameAt.flatMap_nameByte {n : Bytes} (h : NameAt o p v r t)
    (hn : (n.foldlM NamePart.next p).isSome = true) (rest : Bytes) :
    ∃ p' v' t', v' ++ p'.text = v ++ p.text ++ n ∧
      NameAt o p' v' (r ++ n.flatMap Flpdf.nameByte) t' ∧
      readLoop 0 (n.flatMap Flpdf.nameByte ++ rest) t = readLoop 0 rest t' := by
  induction n generalizing p v r t with
  | nil => exact ⟨p, v, t, by simp, by simpa using h, rfl⟩
  | cons b n ih =>
    rw [List.foldlM_cons] at hn
    cases hp : p.next b with
    | none => simp [hp] at hn
    | some q =>
      obtain ⟨v₁, t₁, htext, h₁, hread⟩ := h.nameByte hp (n.flatMap Flpdf.nameByte ++ rest)
      obtain ⟨p', v', t', htext', h', hread'⟩ := ih h₁ (by simpa [hp] using hn)
      refine ⟨p', v', t', ?_, ?_, ?_⟩
      · rw [htext', htext]
        simp
      · simpa using h'
      · rw [List.flatMap_cons, List.append_assoc, hread, hread']

/-- An escape that stands for NUL makes the name bad. -/
theorem NameAt.nullEscape {y w w' : UInt8} {hy : hexValue y = some w}
    (h : NameAt o (.digit y w hy) v r t) (hb : hexValue b = some w')
    (hcode : w.toNat <<< 4 ||| w'.toNat = 0) :
    (t.readByte 0 b).state = .name ∧ (t.readByte 0 b).bad = true := by
  obtain ⟨c, x, e, rfl⟩ := h
  simp only [readByte, handleCharacter, readingName, reading, inNameHex2, hb, hcode, if_true]
  simp [afterCharacter]

/-- A delimiter ends the name with everything that was pending. -/
theorem NameAt.delimiter {d : UInt8} (h : NameAt o p v r t) (hd : isTokenDelimiter d = true) :
    (t.readByte 0 d).state = .tokenReady ∧ (t.readByte 0 d).tokenType = .name ∧
      (t.readByte 0 d).value = v ++ p.text := by
  obtain ⟨c, x, e, rfl⟩ := h
  have hx : hexValue d = none :=
    forall_byte (p := fun d => isTokenDelimiter d = true → hexValue d = none)
      (by decide) d hd
  cases p <;>
    simp [readByte, handleCharacter, inName, inNameHex1, inNameHex2, hd, hx, afterCharacter,
      readingName, reading, push, endBefore, NamePart.text]

theorem nameAt_slash (o : Tokenizer) :
    NameAt o .plain [0x2f] [0x2f] (o.reset.readByte 0 0x2f) := ⟨0, 0, none, rfl⟩

/-! ## What a name keeps -/

def isNameState : LexState → Bool
  | .name | .nameHex1 | .nameHex2 => true
  | _ => false

/-- The value of a name only grows, and a name once bad stays bad. -/
structure Grows (t t' : Tokenizer) : Prop where
  value : t.value <+: t'.value
  bad : t.bad = true → t'.bad = true
  state : isNameState t'.state = true ∨
    t'.state = .tokenReady ∧ (t'.tokenType = .name → t'.bad = false)

theorem Grows.trans_left {u : Tokenizer} (h : Grows u t') (hv : t.value <+: u.value)
    (hb : u.bad = t.bad) : Grows t t' :=
  ⟨hv.trans h.value, fun he => h.bad (hb.trans he), h.state⟩

theorem grows_inName (h : t.state = .name) : Grows t (t.inName b) := by
  unfold inName
  split_ifs with hd hbad
  · exact ⟨List.prefix_rfl, id, .inr ⟨rfl, nofun⟩⟩
  · exact ⟨List.prefix_rfl, id, .inr ⟨rfl, fun _ => Bool.eq_false_iff.mpr hbad⟩⟩
  · exact ⟨List.prefix_rfl, id, .inl rfl⟩
  · exact ⟨List.prefix_append _ _, id, .inl (by simp [push, h, isNameState])⟩

theorem grows_handleCharacter (h : isNameState t.state = true) : Grows t (t.handleCharacter b) := by
  unfold handleCharacter
  cases hs : t.state with
  | name => exact grows_inName hs
  | nameHex1 =>
    unfold inNameHex1
    dsimp only
    split
    · exact ⟨List.prefix_rfl, id, .inl rfl⟩
    · exact (grows_inName rfl).trans_left (List.prefix_append _ _) rfl
  | nameHex2 =>
    unfold inNameHex2
    dsimp only
    split
    · exact (grows_inName rfl).trans_left (List.prefix_append _ _) rfl
    · split_ifs
      · exact ⟨List.prefix_append _ _, fun _ => rfl, .inl rfl⟩
      · exact ⟨List.prefix_append _ _, id, .inl rfl⟩
  | _ => simp [hs, isNameState] at h

theorem grows_readByte (h : isNameState t.state = true) : Grows t (t.readByte 0 b) := by
  have hg : Grows t ({ t with pos := t.pos + 1 }.handleCharacter b) :=
    (grows_handleCharacter (t := { t with pos := t.pos + 1 }) h).trans_left List.prefix_rfl rfl
  rw [readByte, afterCharacter]
  simp only [ne_eq, not_true_eq_false, false_and, if_false]
  split_ifs <;> exact ⟨hg.value, hg.bad, hg.state⟩

theorem ready_of_delimiter {d : UInt8} (h : isNameState t.state = true)
    (hd : isTokenDelimiter d = true) : (t.handleCharacter d).state = .tokenReady := by
  have hx : hexValue d = none :=
    forall_byte (p := fun d => isTokenDelimiter d = true → hexValue d = none)
      (by decide) d hd
  cases hs : t.state with
  | name | nameHex1 | nameHex2 =>
    simp [handleCharacter, hs, inName, inNameHex1, inNameHex2, hd, hx, endBefore, push]
  | _ => simp [hs, isNameState] at h

theorem readEof_of_name (h : t.readEof.tokenType = .name) : t.readEof = t.presentEof := by
  unfold readEof at h ⊢
  dsimp only at h ⊢
  split_ifs at h ⊢
  rfl

/-- What a name token can be, given what has been read of it. -/
theorem readLoop_name (h : isNameState t.state = true)
    (hn : (readLoop 0 rest t).tokenType = .name) :
    t.bad = false ∧ t.value <+: (readLoop 0 rest t).value := by
  induction rest generalizing t with
  | nil =>
    have hne : t.state ≠ .tokenReady := fun he => by simp [he, isNameState] at h
    have hg := grows_handleCharacter (b := 0x0c) h
    have hready := ready_of_delimiter (d := 0x0c) h rfl
    have heof : t.presentEof =
        { t.presentCharacter 0x0c with inToken := true, state := .tokenReady } := by
      cases hs : t.state <;> simp [hs, isNameState, presentEof] at h ⊢
    have hchar : (t.presentCharacter 0x0c).tokenType = (t.handleCharacter 0x0c).tokenType ∧
        (t.presentCharacter 0x0c).value = (t.handleCharacter 0x0c).value := by
      unfold presentCharacter
      dsimp only
      split_ifs <;> exact ⟨rfl, rfl⟩
    rw [readLoop, if_neg hne] at hn ⊢
    have hsame := readEof_of_name hn
    rw [hsame, heof] at hn ⊢
    rcases hg.state with hs | ⟨-, hbad⟩
    · simp [hready, isNameState] at hs
    · have hfine := hbad (hchar.1.symm.trans hn)
      refine ⟨?_, hchar.2 ▸ hg.value⟩
      by_contra hc
      simp [hg.bad (by simpa using hc)] at hfine
  | cons b rest ih =>
    have hne : t.state ≠ .tokenReady := fun he => by simp [he, isNameState] at h
    rw [readLoop_cons hne] at hn ⊢
    have hg := grows_readByte (b := b) h
    rcases hg.state with hs | ⟨hs, hbad⟩
    · obtain ⟨hb, hv⟩ := ih hs hn
      refine ⟨?_, hg.value.trans hv⟩
      by_contra hc
      simp [hg.bad (by simpa using hc)] at hb
    · rw [readLoop_of_ready hs] at hn ⊢
      refine ⟨?_, hg.value⟩
      by_contra hc
      have := hbad hn
      simp [hg.bad (by simpa using hc)] at this

/-! ## Captured digits -/

theorem code_ne_zero {x y w w' : UInt8} (hx : hexValue x = some w) (hy : hexValue y = some w')
    (h : w.toNat <<< 4 ||| w'.toNat ≠ 0) : (w.toNat <<< 4 ||| w'.toNat).toUInt8 ≠ 0 := by
  have hlt : w.toNat <<< 4 ||| w'.toNat < 2 ^ 8 := by
    have hw := hexValue_lt hx
    have hw' := hexValue_lt hy
    refine Nat.or_lt_two_pow ?_ (by omega)
    rw [Nat.shiftLeft_eq]
    omega
  intro hz
  have hmod : (w.toNat <<< 4 ||| w'.toNat) % 2 ^ 8 = 0 := by
    exact UInt8.toNat_ofNat'.symm.trans (congrArg UInt8.toNat hz)
  rw [Nat.mod_eq_of_lt hlt] at hmod
  exact h hmod

/-- A captured digit makes the name bad or puts a character where the NUL was. -/
theorem NameAt.clash {n : Bytes} (h : NameAt o p v r t)
    (hn : (n.foldlM NamePart.next p).isSome = false) (rest : Bytes) :
    ∃ t' rest', readLoop 0 (n.flatMap Flpdf.nameByte ++ rest) t = readLoop 0 rest' t' ∧
      isNameState t'.state = true ∧ (t'.bad = true ∨
        ∃ w c, w ++ [c] <+: t'.value ∧ c ≠ 0 ∧ w ++ [0] <+: v ++ p.text ++ n) := by
  induction n generalizing p v r t with
  | nil => simp at hn
  | cons b n ih =>
    rw [List.foldlM_cons] at hn
    rw [List.flatMap_cons, List.append_assoc]
    cases hp : p.next b with
    | some q =>
      obtain ⟨v₁, t₁, htext, h₁, hread⟩ := h.nameByte hp (n.flatMap Flpdf.nameByte ++ rest)
      obtain ⟨t', rest', hread', hs, hclash⟩ := ih h₁ (by simpa [hp] using hn)
      refine ⟨t', rest', hread.trans hread', hs, hclash.imp_right ?_⟩
      rintro ⟨w, c, hw, hc, hzero⟩
      rw [htext] at hzero
      exact ⟨w, c, hw, hc, by simpa using hzero⟩
    | none =>
      cases hb : isHexDigit b with
      | false => simp [next_of_not_hexDigit p hb] at hp
      | true =>
        obtain ⟨w', hw'⟩ := Option.isSome_iff_exists.mp hb
        obtain ⟨h₀, he⟩ := safe_of_hexValue hw'
        rw [next_of_hexDigit p hw'] at hp
        cases p with
        | plain => cases hp
        | hash => cases hp
        | digit x w hx =>
          have hread : Flpdf.nameByte b = [b] := by simp [Flpdf.nameByte, h₀, he]
          refine ⟨t.readByte 0 b, n.flatMap Flpdf.nameByte ++ rest, ?_, ?_⟩
          · rw [hread]
            exact readLoop_cons h.not_ready
          by_cases hcode : w.toNat <<< 4 ||| w'.toNat = 0
          · obtain ⟨hs, hbad⟩ := h.nullEscape hw' hcode
            exact ⟨by rw [hs]; rfl, .inl hbad⟩
          · obtain ⟨c, y, e, hc⟩ := h.escape hw' rfl hcode
            refine ⟨by rw [hc]; rfl, .inr ⟨v, _, ?_, code_ne_zero hx hw' hcode, ?_⟩⟩
            · rw [hc]
              exact List.prefix_rfl
            · simp [NamePart.text]

/-- The first token of `o` is the name with this value. -/
def ReadsName (o : Tokenizer) (allowBad : Bool) (value : Bytes) : Prop :=
  ∃ token t', o.readTokenWithOptions allowBad 0 = (.ok token, t') ∧ token.tokenType = .name ∧
    token.value = value

theorem readsName_of_loop {u : Tokenizer} (hs : o.state ≠ .inlineImage) (allowBad : Bool)
    (hu : readLoop 0 (o.input.drop o.pos) o.reset = u) (ht : u.tokenType = .name) :
    ReadsName o allowBad u.value := by
  refine ⟨_, _, readTokenWithOptions_of_loop hs allowBad hu (by simp [ht]), ?_, ?_⟩
  · unfold unread
    split_ifs <;> exact ht
  · unfold unread
    split_ifs <;> simp [takeReadyToken, ht]

theorem loop_of_readsName {value : Bytes} (hs : o.state ≠ .inlineImage) {allowBad : Bool}
    (h : ReadsName o allowBad value) :
    (readLoop 0 (o.input.drop o.pos) o.reset).tokenType = .name ∧
      (readLoop 0 (o.input.drop o.pos) o.reset).value = value := by
  obtain ⟨token, t', hread, ht, hv⟩ := h
  rw [readTokenWithOptions, beginRead_eq hs] at hread
  generalize readLoop 0 (o.input.drop o.pos) o.reset = u at hread ⊢
  have htoken : token = u.unread.takeReadyToken := by
    split_ifs at hread
    · cases congrArg Prod.fst hread
    · exact (Except.ok.inj (congrArg Prod.fst hread)).symm
  have hunread : u.unread.tokenType = u.tokenType ∧ u.unread.value = u.value := by
    unfold unread
    split_ifs <;> exact ⟨rfl, rfl⟩
  rw [htoken] at ht hv
  have ht' : u.tokenType = .name := hunread.1.symm.trans ht
  refine ⟨ht', ?_⟩
  simpa [takeReadyToken, hunread, ht'] using hv

/-- A rewritten name keeps its value exactly when no stray `#` captures two digits. -/
theorem readsName_writeNameEscaped_iff (n pre tail : Bytes) {d : UInt8}
    (hd : isTokenDelimiter d = true) (allowEof ignorable allowBad : Bool) :
    ReadsName
        { input := pre ++ 0x2f :: (writeNameEscaped n ++ d :: tail), pos := pre.length
          allowEof := allowEof, includeIgnorable := ignorable }
        allowBad (0x2f :: n) ↔ strayHashCaptures n = false := by
  generalize ho : ({ input := _, pos := _, allowEof := _, includeIgnorable := _ } : Tokenizer) = o
  have hs : o.state ≠ .inlineImage := by simp [← ho]
  have hslash := nameAt_slash o
  have hdrop : o.input.drop o.pos = 0x2f :: (n.flatMap nameByte ++ d :: tail) := by
    simp [← ho, writeNameEscaped_eq]
  have hloop : readLoop 0 (o.input.drop o.pos) o.reset =
      readLoop 0 (n.flatMap nameByte ++ d :: tail) (o.reset.readByte 0 0x2f) := by
    rw [hdrop, readLoop_cons (by simp [reset])]
  have hcapture := foldlM_next_isSome .plain n
  constructor
  · intro h
    obtain ⟨ht, hv⟩ := loop_of_readsName hs h
    by_contra hc
    obtain ⟨t', rest', hread, hstate, hclash⟩ := hslash.clash (n := n) (by
      rw [hcapture]
      simpa [NamePart.text] using hc) (d :: tail)
    rw [hloop, hread] at ht hv
    obtain ⟨hbad, hstarts⟩ := readLoop_name hstate ht
    rcases hclash with hb | ⟨w, c, hw, hne, hzero⟩
    · simp [hb] at hbad
    · have hc' : w ++ [c] <+: 0x2f :: n := hw.trans (hv ▸ hstarts)
      have hz' : w ++ [0] <+: 0x2f :: n := by simpa [NamePart.text] using hzero
      have heq := List.prefix_of_prefix_length_le hc' hz' (by simp)
      simpa [hne] using heq.eq_of_length (by simp)
  · intro h
    obtain ⟨p', v', t', htext, hat, hread⟩ := hslash.flatMap_nameByte (n := n) (by
      rw [hcapture]
      simpa [NamePart.text] using h) (d :: tail)
    obtain ⟨hready, ht, hv⟩ := hat.delimiter hd
    have hvalue : (t'.readByte 0 d).value = 0x2f :: n := by
      rw [hv, htext]
      rfl
    rw [← hvalue]
    refine readsName_of_loop hs allowBad ?_ ht
    rw [hloop, hread, readLoop_cons hat.not_ready, readLoop_of_ready hready]

theorem readsName_writeNameEscaped_plain : isTokenDelimiter 0x20 = true ∧
    (ReadsName
        { input := [] ++ 0x2f :: (writeNameEscaped (ascii "a#") ++ 0x20 :: []), pos := 0 } false
        (0x2f :: ascii "a#") ↔ strayHashCaptures (ascii "a#") = false) :=
  ⟨rfl, readsName_writeNameEscaped_iff (ascii "a#") [] [] rfl false false false⟩

/-- `/a##41B` is read with a NUL in front of `AB` and rewritten as `/a#AB`. -/
theorem readsName_stray_hash_captures :
    ReadsName { input := ascii "/a##41B " } false [0x2f, 0x61, 0x00, 0x41, 0x42] ∧
    ¬ReadsName { input := 0x2f :: (writeNameEscaped [0x61, 0x00, 0x41, 0x42] ++ [0x20]) } false
      [0x2f, 0x61, 0x00, 0x41, 0x42] := by
  constructor
  · exact ⟨_, _, rfl, rfl, rfl⟩
  · intro h
    exact absurd (loop_of_readsName (by decide) h).2 (by decide)

end Tokenizer

end Flpdf
