import Flpdf.Json.Grammar
import Flpdf.Json.Writer

/-!
# The text that the JSON writer lays out

The chunks on the stack hold what the heap path writes, and the loops over a
dictionary and over an array both write one text after the other, each on an
indented line of its own.
-/

namespace Flpdf.Json

variable {chunk done free slice lead trail key : Bytes} {offset depth fuel : ℕ} {first : Bool}

/-! ## Chunks -/

theorem copyFromSlice_append (done free slice : Bytes) (h : offset = done.length) :
    copyFromSlice (done ++ free) offset slice = (done ++ slice) ++ free.drop slice.length := by
  rw [copyFromSlice, h, List.take_left, ← List.drop_drop, List.drop_left]

def indentation (depth : ℕ) : Bytes := (List.replicate depth (ascii "  ")).flatten

theorem indentation_succ (depth : ℕ) : indentation (depth + 1) = ascii "  " ++ indentation depth := by
  rw [indentation, List.replicate_succ, List.flatten_cons, ← indentation]

theorem indentation_length (depth : ℕ) : (indentation depth).length = depth * 2 := by
  induction depth with
  | zero => rfl
  | succ depth ih =>
    rw [indentation_succ, List.length_append, ih, show (ascii "  ").length = 2 from rfl]
    omega

theorem fillIndentation_append (depth : ℕ) (done free : Bytes) (h : offset = done.length) :
    ∃ free', fillIndentation (done ++ free) offset depth =
      ((done ++ indentation depth) ++ free', (done ++ indentation depth).length) := by
  induction depth generalizing done free offset with
  | zero =>
    refine ⟨free, ?_⟩
    rw [fillIndentation, h, indentation, List.replicate_zero, List.flatten_nil, List.append_nil]
  | succ depth ih =>
    have hoffset : offset + 2 = (done ++ ascii "  ").length := by
      rw [h, List.length_append]
      rfl
    obtain ⟨free', hfill⟩ := ih _ (free.drop (ascii "  ").length) hoffset
    refine ⟨free', ?_⟩
    rw [fillIndentation, copyFromSlice_append _ _ _ h, hfill, indentation_succ, List.append_assoc done]

/-- A chunk that was filled from its beginning. -/
theorem copyFromSlice_zero (free slice : Bytes) :
    copyFromSlice free 0 slice = slice ++ free.drop slice.length :=
  copyFromSlice_append [] free slice rfl

/-- Both paths of `write_indented` write the same. -/
theorem writeIndented_eq : writeIndented lead depth trail = lead ++ indentation depth ++ trail := by
  unfold writeIndented
  dsimp only
  by_cases hfits : lead.length + depth * 2 + trail.length ≤ stackCapacity
  · obtain ⟨free', hfill⟩ := fillIndentation_append depth lead
      ((List.replicate stackCapacity 0).drop lead.length) rfl
    rw [if_pos hfits, copyFromSlice_zero, hfill]
    dsimp only
    rw [copyFromSlice_append _ _ _ rfl, List.take_left']
    simp only [List.length_append, indentation_length]
  · rw [if_neg hfits, indentation]

/-- Both paths of `write_dictionary_key` write the same. -/
theorem writeDictionaryKey_eq : writeDictionaryKey first key depth =
    writeNext first depth ++ 0x22 :: (key ++ ascii "\": ") := by
  unfold writeDictionaryKey
  dsimp only
  by_cases hfits : key.length + 4 ≤ stackCapacity
  · have hquote : 1 = (ascii "\"").length := rfl
    have hlength : key.length + 1 = (ascii "\"" ++ key).length := by
      rw [List.length_append, Nat.add_comm]
      rfl
    rw [if_pos hfits, copyFromSlice_zero, copyFromSlice_append _ _ _ hquote,
      copyFromSlice_append _ _ _ hlength, List.take_left']
    · rfl
    · rw [List.length_append, ← hlength]
      rfl
  · rw [if_neg hfits]

theorem writeNext_eq : writeNext first depth =
    (if first then [] else [0x2c]) ++ 0x0a :: indentation depth := by
  rw [writeNext, writeIndented_eq, List.append_nil]
  cases first <;> rfl

/-! ## Loops -/

/-- Texts, each on an indented line of its own. -/
def lines (depth : ℕ) : Bool → List Bytes → Bytes
  | _, [] => []
  | first, text :: texts => writeNext first depth ++ text ++ lines depth false texts

theorem writeArrayItems_eq (values : List Bytes) : writeArrayItems depth first values =
    (lines depth first values, first && values.isEmpty) := by
  induction values generalizing first with
  | nil => rw [writeArrayItems, lines, List.isEmpty_nil, Bool.and_true]
  | cons value values ih =>
    rw [writeArrayItems, ih, lines, List.isEmpty_cons, Bool.and_false, Bool.false_and]

/-- A key and the text of its value. -/
def memberLine (e : Bytes × Bytes) : Bytes := 0x22 :: (e.1 ++ ascii "\": ") ++ e.2

/-- The loop that asks for one key after the other visits the members in order. -/
theorem writeDictionaryItems_append (depth : ℕ) (first : Bool) (before after : List (Bytes × Bytes))
    (h : Ascending (before ++ after)) (hfuel : after.length < fuel) :
    writeDictionaryItems depth (before ++ after) fuel first (before.getLast?.map Prod.fst) =
      (lines depth first (after.map memberLine), first && after.isEmpty) := by
  induction fuel generalizing before after first with
  | zero => omega
  | succ fuel ih =>
    rw [writeDictionaryItems, nextAfter_append h]
    cases after with
    | nil => rw [List.head?_nil, List.map_nil, lines, List.isEmpty_nil, Bool.and_true]
    | cons entry after =>
      obtain ⟨key, value⟩ := entry
      have hsplit : before ++ (key, value) :: after = before ++ [(key, value)] ++ after := by
        rw [List.append_assoc, List.singleton_append]
      have hrest := ih false (before ++ [(key, value)]) after (hsplit ▸ h)
        (Nat.lt_of_succ_lt_succ hfuel)
      rw [← hsplit, List.getLast?_concat, Option.map_some] at hrest
      rw [List.head?_cons]
      dsimp only
      rw [lookup_append h, Option.getD_some, hrest, writeDictionaryKey_eq, List.map_cons, lines,
        memberLine, List.append_assoc (writeNext first depth), List.isEmpty_cons, Bool.and_false,
        Bool.false_and]

theorem writeDictionaryItems_eq {entries : List (Bytes × Bytes)} (h : Ascending entries) :
    writeDictionaryItems depth entries (entries.length + 1) true none =
      (lines depth true (entries.map memberLine), entries.isEmpty) := by
  have hloop := writeDictionaryItems_append depth true [] entries h (Nat.lt_succ_self _)
  rwa [List.nil_append, Bool.true_and] at hloop

theorem itemTexts_eq (values : List Json) :
    itemTexts depth values = values.map (writeWithDepth depth) := by
  induction values with
  | nil => rw [itemTexts, List.map_nil]
  | cons value values ih => rw [itemTexts, ih, List.map_cons]

theorem memberTexts_eq (members : List (Bytes × Json)) :
    memberTexts depth members = members.map fun m => (m.1, m.2.writeWithDepth depth) := by
  induction members with
  | nil => rw [memberTexts, List.map_nil]
  | cons member members ih => rw [memberTexts, ih, List.map_cons]

/-- A container: its delimiters, and its lines between them. -/
def containerText (depth : ℕ) (opening closing : UInt8) (texts : List Bytes) : Bytes :=
  opening :: (lines (depth + 1) true texts ++
    (if texts = [] then [] else 0x0a :: indentation depth) ++ [closing])

theorem writeClose_eq {closing : UInt8} {texts : List Bytes} :
    writeClose texts.isEmpty depth [closing] =
      (if texts = [] then [] else 0x0a :: indentation depth) ++ [closing] := by
  cases texts with
  | nil => rfl
  | cons text texts =>
    rw [List.isEmpty_cons, writeClose, if_neg (by decide), writeIndented_eq, if_neg (by simp)]
    rfl

theorem writeWithDepth_array {items : List Json} {a b : ℤ} :
    writeWithDepth depth (.array items a b) =
      containerText depth 0x5b 0x5d (items.map (writeWithDepth (depth + 1))) := by
  rw [writeWithDepth, writeArrayItems_eq, itemTexts_eq]
  dsimp only
  rw [Bool.true_and, show ascii "]" = [0x5d] from rfl, List.append_assoc, writeClose_eq,
    containerText, List.append_assoc]
  rfl

theorem writeWithDepth_dictionary {members : List (Bytes × Json)} {a b : ℤ}
    (h : Ascending members) :
    writeWithDepth depth (.dictionary members a b) = containerText depth 0x7b 0x7d
      (members.map fun m => memberLine (m.1, m.2.writeWithDepth (depth + 1))) := by
  have hentries : Ascending (memberTexts (depth + 1) members) := by
    rw [memberTexts_eq]
    exact List.pairwise_map.mpr h
  have hempty : (members.map fun m => memberLine (m.1, m.2.writeWithDepth (depth + 1))).isEmpty =
      (memberTexts (depth + 1) members).isEmpty := by
    rw [memberTexts_eq]
    cases members <;> rfl
  rw [writeWithDepth]
  dsimp only
  rw [writeDictionaryItems_eq hentries]
  dsimp only
  rw [← hempty, show ascii "\x7d" = [0x7d] from rfl, List.append_assoc, writeClose_eq,
    containerText, memberTexts_eq, List.map_map, List.append_assoc]
  rfl

/-! ## Strings -/

theorem utf8_ascii {n : ℕ} (h : n < 0x80) : Lexer.utf8 n = [UInt8.ofNat n] := by
  have hall : ∀ n ∈ List.range 0x80, Lexer.utf8 n = [UInt8.ofNat n] := by decide +kernel
  exact hall n (List.mem_range.mpr h)

/-- A byte is written with a two-character escape, as a control code or as it is. -/
theorem encodeByte_cases (b : UInt8) :
    (∃ p ∈ escapes, p.2 = b ∧ encodeByte b = [0x5c, p.1]) ∨
    (b < 0x20 ∧ ∃ c ∈ encodeByte b, ∃ d ∈ encodeByte b,
      encodeByte b = [0x5c, 0x75, 0x30, 0x30, c, d] ∧ codeUnit 0x30 0x30 c d = some b.toNat) ∨
    (encodeByte b = [b] ∧ 0x20 ≤ b ∧ b ≠ 0x22 ∧ b ≠ 0x5c) := by
  revert b
  apply forall_byte
  decide

theorem stringText_encodeByte {o : ℤ} {b : UInt8} {text s : Bytes}
    (h : StringText (o + (encodeByte b).length) text s) :
    StringText o (encodeByte b ++ text) (b :: s) := by
  rcases encodeByte_cases b with ⟨p, hmem, rfl, hencode⟩ |
    ⟨hcontrol, c, _, d, _, hencode, hunit⟩ | ⟨hencode, hge, hquote, hslash⟩
  · rw [hencode] at h ⊢
    exact .escape hmem h
  · rw [hencode] at h ⊢
    have hsmall : b.toNat < 0x20 := UInt8.lt_iff_toNat_lt.mp hcontrol
    have hhigh : ¬IsHighSurrogate b.toNat := by
      rintro ⟨hle, _⟩
      omega
    have hlow : ¬IsLowSurrogate b.toNat := by
      rintro ⟨hle, _⟩
      omega
    have htext := StringText.unit hunit hhigh hlow h
    rwa [utf8_ascii (by omega), UInt8.ofNat_toNat] at htext
  · rw [hencode] at h ⊢
    exact .byte hge hquote hslash h

theorem stringText_encodeString (o : ℤ) (s : Bytes) : StringText o (encodeString s) s := by
  induction s generalizing o with
  | nil => exact .nil o
  | cons b s ih => exact stringText_encodeByte (ih _)

theorem encodeString_of_plain {s : Bytes}
    (h : ∀ b ∈ s, encodeByte b = [b]) : encodeString s = s := by
  induction s with
  | nil => rfl
  | cons b s ih =>
    rw [encodeString, List.flatMap_cons, h b List.mem_cons_self, ← encodeString, ih]
    · rfl
    · intro c hc
      exact h c (List.mem_cons_of_mem _ hc)

/-- Nothing in a Base64 text is escaped. -/
theorem encodeString_base64 (bytes : Bytes) :
    encodeString (PlBase64.encode bytes) = PlBase64.encode bytes := by
  apply encodeString_of_plain
  intro b hb
  exact forall_byte (p := fun b => PlBase64.isCharacter b = true → encodeByte b = [b])
    (by decide) b (PlBase64.encode_isCharacter bytes b hb)

end Flpdf.Json
