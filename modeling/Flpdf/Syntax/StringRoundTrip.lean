import Flpdf.Tokenizer.Reading
import Flpdf.Syntax.Strings

/-! # Strings survive serialization

The tokenizer reads back what `write_string_value` writes.  Each byte of the
value is one, two or four bytes of the literal form and two of the hexadecimal
form; the state between two of them is `reading`.
-/

namespace Flpdf

namespace Tokenizer

variable {b : UInt8} {rest : Bytes}

/-- Between two bytes of a literal string; the last escape leaves its digits behind. -/
def readingLiteral (o : Tokenizer) (value raw : Bytes) (code digits : ℕ) : Tokenizer :=
  { reading o .inString value raw with stringDepth := 1, charCode := code, digitCount := digits }

theorem readByte_plain (o : Tokenizer) (v r : Bytes) (c d : ℕ) (h₁ : b ≠ 0x5c) (h₂ : b ≠ 0x28)
    (h₃ : b ≠ 0x29) (h₄ : b ≠ 0x0d) :
    (readingLiteral o v r c d).readByte 0 b = readingLiteral o (v ++ [b]) (r ++ [b]) c d := by
  simp [readByte, handleCharacter, handleInString, afterCharacter, readingLiteral, reading, push,
    h₁, h₂, h₃, h₄, Nat.add_assoc]

theorem readByte_backslash (o : Tokenizer) (v r : Bytes) (c d : ℕ) :
    (readingLiteral o v r c d).readByte 0 0x5c =
      { readingLiteral o v (r ++ [0x5c]) c d with state := .stringEscape } := by
  simp [readByte, handleCharacter, handleInString, afterCharacter, readingLiteral, reading, goto,
    Nat.add_assoc]

/-- A backslash and the character that stands for `x`. -/
theorem readLoop_escape (o : Tokenizer) (v r : Bytes) (c d : ℕ) {ch x : UInt8}
    (h : ∀ t : Tokenizer, t.inStringEscape ch = (t.goto .inString).push [x]) :
    readLoop 0 (0x5c :: ch :: rest) (readingLiteral o v r c d) =
      readLoop 0 rest (readingLiteral o (v ++ [x]) (r ++ [0x5c, ch]) c d) := by
  have hchar : { readingLiteral o v (r ++ [0x5c]) c d with state := .stringEscape }.readByte 0 ch =
      readingLiteral o (v ++ [x]) (r ++ [0x5c, ch]) c d := by
    simp [readByte, handleCharacter, h, afterCharacter, readingLiteral, reading, goto, push,
      Nat.add_assoc]
  rw [readLoop_cons (by simp [readingLiteral, reading]), readByte_backslash, readLoop_cons (by simp), hchar]

/-- A backslash and three octal digits. -/
theorem readLoop_octal (o : Tokenizer) (v r : Bytes) (c d : ℕ) {d₁ d₂ d₃ : UInt8}
    (h₁ : isOctalDigit d₁ = true) (h₂ : isOctalDigit d₂ = true) (h₃ : isOctalDigit d₃ = true)
    (rest : Bytes) :
    readLoop 0 (0x5c :: d₁ :: d₂ :: d₃ :: rest) (readingLiteral o v r c d) =
      let code := 8 * (8 * (d₁ - 0x30).toNat + (d₂ - 0x30).toNat) + (d₃ - 0x30).toNat
      readLoop 0 rest (readingLiteral o (v ++ [(code % 256).toUInt8])
        (r ++ [0x5c, d₁, d₂, d₃]) code 3) := by
  have hfirst : { readingLiteral o v (r ++ [0x5c]) c d with state := .stringEscape }.readByte 0 d₁ =
      { readingLiteral o v (r ++ [0x5c, d₁]) (d₁ - 0x30).toNat 1 with state := .charCode } := by
    simp [readByte, handleCharacter, inStringEscape, inCharCode, h₁, afterCharacter,
      readingLiteral, reading, Nat.add_assoc]
  have hsecond (k : ℕ) :
      { readingLiteral o v (r ++ [0x5c, d₁]) k 1 with state := .charCode }.readByte 0 d₂ =
      { readingLiteral o v (r ++ [0x5c, d₁, d₂]) (8 * k + (d₂ - 0x30).toNat) 2 with
        state := .charCode } := by
    simp [readByte, handleCharacter, inCharCode, h₂, afterCharacter, readingLiteral, reading,
      Nat.add_assoc]
  have hthird (k : ℕ) :
      { readingLiteral o v (r ++ [0x5c, d₁, d₂]) k 2 with state := .charCode }.readByte 0 d₃ =
      readingLiteral o (v ++ [((8 * k + (d₃ - 0x30).toNat) % 256).toUInt8])
        (r ++ [0x5c, d₁, d₂, d₃]) (8 * k + (d₃ - 0x30).toNat) 3 := by
    simp [readByte, handleCharacter, inCharCode, h₃, afterCharacter, readingLiteral, reading, push,
      goto, Nat.add_assoc]
  rw [readLoop_cons (by simp [readingLiteral, reading]), readByte_backslash, readLoop_cons (by simp), hfirst,
    readLoop_cons (by simp), hsecond, readLoop_cons (by simp), hthird]

theorem isOctalDigit_octalDigits (b : UInt8) : (octalDigits b).all isOctalDigit = true :=
  forall_byte (p := fun b => (octalDigits b).all isOctalDigit = true) (by decide) b

/-- Three octal digits put together again. -/
theorem octalDigits_join (b : UInt8) :
    ((8 * (8 * (0x30 + b / 64 - 0x30 : UInt8).toNat + (0x30 + b / 8 % 8 - 0x30 : UInt8).toNat) +
      (0x30 + b % 8 - 0x30 : UInt8).toNat) % 256).toUInt8 = b :=
  forall_byte (p := fun b => ((8 * (8 * (0x30 + b / 64 - 0x30 : UInt8).toNat +
    (0x30 + b / 8 % 8 - 0x30 : UInt8).toNat) + (0x30 + b % 8 - 0x30 : UInt8).toNat) % 256).toUInt8 =
      b) (by decide) b

theorem readLoop_literalByte (o : Tokenizer) (v r : Bytes) (c d : ℕ) (b : UInt8) (rest : Bytes) :
    ∃ c' d', readLoop 0 (literalByte b ++ rest) (readingLiteral o v r c d) =
      readLoop 0 rest (readingLiteral o (v ++ [b]) (r ++ literalByte b) c' d') := by
  unfold literalByte
  split_ifs with hquote hn hr ht hb hf hprint
  · refine ⟨c, d, readLoop_escape o v r c d fun t => ?_⟩
    rcases hquote with rfl | rfl | rfl <;> rfl
  · exact ⟨c, d, readLoop_escape o v r c d fun t => by rw [hn]; rfl⟩
  · exact ⟨c, d, readLoop_escape o v r c d fun t => by rw [hr]; rfl⟩
  · exact ⟨c, d, readLoop_escape o v r c d fun t => by rw [ht]; rfl⟩
  · exact ⟨c, d, readLoop_escape o v r c d fun t => by rw [hb]; rfl⟩
  · exact ⟨c, d, readLoop_escape o v r c d fun t => by rw [hf]; rfl⟩
  · simp only [not_or] at hquote
    refine ⟨c, d, ?_⟩
    rw [List.singleton_append, readLoop_cons (by simp [readingLiteral, reading]),
      readByte_plain o v r c d hquote.1 hquote.2.1 hquote.2.2 hr]
  · have hoct := isOctalDigit_octalDigits b
    simp only [octalDigits, List.all_cons, Bool.and_eq_true] at hoct
    have hread := readLoop_octal o v r c d hoct.1 hoct.2.1 hoct.2.2.1 rest
    simp only [octalDigits_join] at hread
    exact ⟨_, _, hread⟩

theorem readLoop_literalBytes (o : Tokenizer) (v r value : Bytes) (c d : ℕ) (rest : Bytes) :
    ∃ c' d', readLoop 0 (value.flatMap literalByte ++ rest) (readingLiteral o v r c d) =
      readLoop 0 rest (readingLiteral o (v ++ value) (r ++ value.flatMap literalByte) c' d') := by
  induction value generalizing v r c d with
  | nil => exact ⟨c, d, by simp⟩
  | cons b value ih =>
    obtain ⟨c₁, d₁, hbyte⟩ := readLoop_literalByte o v r c d b (value.flatMap literalByte ++ rest)
    obtain ⟨c₂, d₂, hrest⟩ := ih (v ++ [b]) (r ++ literalByte b) c₁ d₁
    refine ⟨c₂, d₂, ?_⟩
    rw [List.flatMap_cons, List.append_assoc, hbyte, hrest]
    simp

/-- Between two bytes of a hexadecimal string, or behind its opening bracket. -/
def readingHex (o : Tokenizer) (state : LexState) (value raw : Bytes) (code : ℕ) : Tokenizer :=
  { reading o state value raw with charCode := code }

theorem hexDigit_ne_lt (b : UInt8) : hexDigit (b >>> 4) ≠ 0x3c :=
  forall_byte (p := fun b => hexDigit (b >>> 4) ≠ 0x3c) (by decide) b

theorem hexDigits_join (b : UInt8) :
    ((b >>> 4).toNat <<< 4 ||| (b &&& 0x0f).toNat).toUInt8 = b :=
  forall_byte (p := fun b => ((b >>> 4).toNat <<< 4 ||| (b &&& 0x0f).toNat).toUInt8 = b)
    (by decide) b

theorem readLoop_hexByteDigits (o : Tokenizer) {s : LexState} (hs : s = .lt ∨ s = .inHexString)
    (v r : Bytes) (c : ℕ) (b : UInt8) (rest : Bytes) :
    ∃ c', readLoop 0 (hexByteDigits b ++ rest) (readingHex o s v r c) =
      readLoop 0 rest (readingHex o .inHexString (v ++ [b]) (r ++ hexByteDigits b) c') := by
  have hhigh : (readingHex o s v r c).readByte 0 (hexDigit (b >>> 4)) =
      readingHex o .inHexStringSecond v (r ++ [hexDigit (b >>> 4)]) ((b >>> 4).toNat <<< 4) := by
    rcases hs with rfl | rfl <;>
      simp [readByte, handleCharacter, inLt, hexDigit_ne_lt, handleInHexString,
        hexValue_hexDigit_high, afterCharacter, readingHex, reading, goto, Nat.add_assoc]
  have hlow (k : ℕ) (hk : (k ||| (b &&& 0x0f).toNat).toUInt8 = b) :
      (readingHex o .inHexStringSecond v (r ++ [hexDigit (b >>> 4)]) k).readByte 0
        (hexDigit (b &&& 0x0f)) = readingHex o .inHexString (v ++ [b]) (r ++ hexByteDigits b) k := by
    simp [readByte, handleCharacter, handleInHexStringSecond, hexValue_hexDigit_low,
      afterCharacter, readingHex, reading, push, goto, hexByteDigits, Nat.add_assoc]
    simpa using hk
  have hne : (readingHex o s v r c).state ≠ .tokenReady := by
    rcases hs with rfl | rfl <;> simp [readingHex, reading]
  refine ⟨(b >>> 4).toNat <<< 4, ?_⟩
  rw [hexByteDigits, List.cons_append, readLoop_cons hne, hhigh, List.singleton_append,
    readLoop_cons (by simp [readingHex, reading]), hlow _ (hexDigits_join b)]
  rfl

theorem readLoop_hexDigits (o : Tokenizer) {s : LexState} (hs : s = .lt ∨ s = .inHexString)
    (v r value : Bytes) (c : ℕ) (rest : Bytes) :
    ∃ s' c', (s' = .lt ∨ s' = .inHexString) ∧
      readLoop 0 (value.flatMap hexByteDigits ++ rest) (readingHex o s v r c) =
        readLoop 0 rest (readingHex o s' (v ++ value) (r ++ value.flatMap hexByteDigits) c') := by
  induction value generalizing s v r c with
  | nil => exact ⟨s, c, hs, by simp⟩
  | cons b value ih =>
    obtain ⟨c₁, hbyte⟩ :=
      readLoop_hexByteDigits o hs v r c b (value.flatMap hexByteDigits ++ rest)
    obtain ⟨s', c₂, hs', hrest⟩ := ih (.inr rfl) (v ++ [b]) (r ++ hexByteDigits b) c₁
    refine ⟨s', c₂, hs', ?_⟩
    rw [List.flatMap_cons, List.append_assoc, hbyte, hrest]
    simp

/-! ## The whole token -/

/-- The string token with the given value, read from the given bytes. -/
def stringToken (start : ℕ) (value raw : Bytes) : Token where
  tokenType := .string
  value := value
  raw := raw
  errorMessage := none
  errorOffset := start
  start := start
  endPos := start + raw.length

/-- A loop that ends on the last byte of a string token. -/
theorem readTokenWithOptions_string {o u : Tokenizer} (hs : o.state ≠ .inlineImage)
    (allowBad : Bool) {v r : Bytes} (hu : readLoop 0 (o.input.drop o.pos) o.reset = u)
    (htok : u.takeReadyToken = stringToken o.pos v r) (hi : u.inToken = true)
    (hreset : u.reset = { o with pos := o.pos + r.length }.reset) :
    o.readTokenWithOptions allowBad 0 =
      (.ok (stringToken o.pos v r), { o with pos := o.pos + r.length }.reset) := by
  have hread : u.unread = u := by simp [unread, hi]
  have ht : u.tokenType = .string := congrArg Token.tokenType htok
  rw [readTokenWithOptions_of_loop hs allowBad hu (by simp [ht]), hread, htok, hreset]

theorem readTokenWithOptions_writeLiteralString {o : Tokenizer} (hs : o.state ≠ .inlineImage)
    (allowBad : Bool) {value tail : Bytes}
    (h : o.input.drop o.pos = writeLiteralString value ++ tail) :
    o.readTokenWithOptions allowBad 0 =
      (.ok (stringToken o.pos value (writeLiteralString value)),
        { o with pos := o.pos + (writeLiteralString value).length }.reset) := by
  have hopen : o.reset.readByte 0 0x28 = readingLiteral o [] [0x28] 0 0 := rfl
  have hclose (r : Bytes) (c d : ℕ) : (readingLiteral o value r c d).readByte 0 0x29 =
      { reading o .tokenReady value (r ++ [0x29]) with
        tokenType := .string, charCode := c, digitCount := d } := by
    simp [readByte, handleCharacter, handleInString, afterCharacter, readingLiteral, reading,
      endWith, Nat.add_assoc]
  obtain ⟨c, d, hbytes⟩ := readLoop_literalBytes o [] [0x28] value 0 0 (0x29 :: tail)
  refine readTokenWithOptions_string hs allowBad (u := { reading o .tokenReady value
    (writeLiteralString value) with tokenType := .string, charCode := c, digitCount := d })
    ?_ rfl rfl rfl
  rw [h, writeLiteralString, List.cons_append, readLoop_cons (by simp [reset]), hopen,
    List.append_assoc, List.singleton_append, hbytes,
    readLoop_cons (by simp [readingLiteral, reading]), List.nil_append, hclose,
    readLoop_of_ready rfl]
  rfl

theorem readTokenWithOptions_writeHexString {o : Tokenizer} (hs : o.state ≠ .inlineImage)
    (allowBad : Bool) {value tail : Bytes}
    (h : o.input.drop o.pos = writeHexString value ++ tail) :
    o.readTokenWithOptions allowBad 0 =
      (.ok (stringToken o.pos value (writeHexString value)),
        { o with pos := o.pos + (writeHexString value).length }.reset) := by
  have hopen : o.reset.readByte 0 0x3c = readingHex o .lt [] [0x3c] 0 := rfl
  obtain ⟨s, c, hs', hbytes⟩ := readLoop_hexDigits o (.inl rfl) [] [0x3c] value 0 (0x3e :: tail)
  have hclose (r : Bytes) : (readingHex o s value r c).readByte 0 0x3e =
      { reading o .tokenReady value (r ++ [0x3e]) with tokenType := .string, charCode := c } := by
    have hx : hexValue 0x3e = none := rfl
    rcases hs' with rfl | rfl <;>
      simp [readByte, handleCharacter, inLt, handleInHexString, hx, afterCharacter, readingHex,
        reading, goto, endWith, Nat.add_assoc]
  have hne (r : Bytes) : (readingHex o s value r c).state ≠ .tokenReady := by
    rcases hs' with rfl | rfl <;> simp [readingHex, reading]
  refine readTokenWithOptions_string hs allowBad (u := { reading o .tokenReady value
    (writeHexString value) with tokenType := .string, charCode := c }) ?_ rfl rfl rfl
  rw [h, writeHexString, List.cons_append, readLoop_cons (by simp [reset]), hopen,
    List.append_assoc, List.singleton_append, hbytes, List.nil_append, readLoop_cons (hne _),
    hclose, readLoop_of_ready rfl]
  rfl

/-- Every written form of a string is one token with its value, wherever it stands. -/
theorem readTokenWithOptions_writtenString (value pre tail : Bytes) (allowEof ignorable : Bool)
    (allowBad : Bool) :
    (∀ s ∈ [writeStringValue value, writeLiteralString value, writeHexString value],
      let o : Tokenizer :=
        { input := pre ++ s ++ tail, pos := pre.length
          allowEof := allowEof, includeIgnorable := ignorable }
      o.readTokenWithOptions allowBad 0 =
        (.ok (stringToken pre.length value s), { o with pos := pre.length + s.length }.reset)) ∧
    canonicalStringRaw value = writeStringValue value := by
  have hdrop (s : Bytes) : (pre ++ s ++ tail).drop pre.length = s ++ tail := by simp
  refine ⟨?_, canonicalStringRaw_eq value⟩
  simp only [List.forall_mem_cons, List.not_mem_nil, false_imp_iff, implies_true, and_true]
  refine ⟨?_, readTokenWithOptions_writeLiteralString (by simp) allowBad (hdrop _),
    readTokenWithOptions_writeHexString (by simp) allowBad (hdrop _)⟩
  rw [writeStringValue]
  split_ifs
  · exact readTokenWithOptions_writeHexString (by simp) allowBad (hdrop _)
  · exact readTokenWithOptions_writeLiteralString (by simp) allowBad (hdrop _)

end Tokenizer

end Flpdf
