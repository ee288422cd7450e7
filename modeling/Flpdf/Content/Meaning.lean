import Flpdf.Content.Normalizer
import Flpdf.Tokenizer.LexemeRuns

/-! # What normalization keeps

The normalized content is cut into the same lexemes, white space apart, unless a
stray `#` of a name captures two digits that were text.
-/

namespace Flpdf

open Tokenizer ContentNormalizer

variable {b : UInt8} {l raw rest w : Bytes} {x : Lexeme} {xs : List Lexeme}

/-! ## White space -/

/-- What is left of the line ends of white space. -/
theorem writeSpace_spec (h : w.all isWs = true) :
    (writeSpace w).all isWs = true ∧ 0x0d ∉ writeSpace w := by
  induction w with
  | nil => simp [writeSpace]
  | cons b w ih =>
    rw [List.all_cons, Bool.and_eq_true] at h
    obtain ⟨hall, hcr⟩ := ih h.2
    by_cases hb : b = 0x0d
    · by_cases hnext : w.head? = some 0x0a
      · simpa [writeSpace, hb, hnext] using ⟨by simpa using hall, hcr⟩
      · have hws : isWs 0x0a = true := rfl
        simpa [writeSpace, hb, hnext, hws] using ⟨by simpa using hall, hcr⟩
    · have hne : ¬0x0d = b := fun he => hb he.symm
      simpa [writeSpace, hb, hne, h.1] using ⟨by simpa using hall, hcr⟩

/-- The first byte of written white space. -/
theorem writeSpace_head (hb : isWs b = true) (w : Bytes) :
    ∃ d r, writeSpace (b :: w) = d :: r ∧ SameKind b d := by
  by_cases hcr : b = 0x0d
  · subst hcr
    by_cases hnext : w.head? = some 0x0a
    · cases w with
      | nil => simp at hnext
      | cons c w =>
        obtain rfl : c = 0x0a := by simpa using hnext
        exact ⟨0x0a, writeSpace w, by simp [writeSpace], rfl, rfl, rfl⟩
    · exact ⟨0x0a, writeSpace w, by simp [writeSpace, hnext], rfl, rfl, rfl⟩
  · exact ⟨b, writeSpace w, by simp [writeSpace, hcr], rfl, rfl, rfl⟩

/-! ## One lexeme -/

/-- What `handle_token` writes, told from the lexeme. -/
def normalized (x : Lexeme) : Bytes :=
  (match x.tokenType with
    | .space => writeSpace x.raw
    | .string | .name => (Token.new x.tokenType x.value).raw
    | _ => x.raw) ++
  if (x.tokenType = .string ∨ x.tokenType = .name) ∧ x.raw.any isLineByte then [0x0a] else []

theorem handleToken_snd (s : ContentNormalizer) (token : Token) :
    (s.handleToken token).2 = normalized (.ofToken token) := rfl

/-- The newline written behind a string or name that had a line end. -/
def newlineFor (raw : Bytes) : Bytes := if raw.any isLineByte then [0x0a] else []

theorem newlineFor_clean (raw : Bytes) : (newlineFor raw).all isWs = true ∧ 0x0d ∉ newlineFor raw := by
  unfold newlineFor
  split_ifs <;> decide

theorem normalized_space (h : x.tokenType = .space) : normalized x = writeSpace x.raw := by
  simp [normalized, h]

theorem normalized_string (h : x.tokenType = .string) :
    normalized x = writeStringValue x.value ++ newlineFor x.raw := by
  simp [normalized, h, Token.new, canonicalStringRaw_eq, newlineFor]

theorem normalized_name {n : Bytes} (h : x.tokenType = .name) (hv : x.value = 0x2f :: n) :
    normalized x = 0x2f :: (n.flatMap nameByte ++ newlineFor x.raw) := by
  simp [normalized, h, hv, Token.new, canonicalNameRaw, withoutSlash, writeNameEscaped_eq,
    newlineFor]

theorem normalized_other (h : x.tokenType ≠ .space) (hs : x.tokenType ≠ .string)
    (hn : x.tokenType ≠ .name) : normalized x = x.raw := by
  unfold normalized
  rw [if_neg (by simp [hs, hn]), List.append_nil]
  cases ht : x.tokenType <;> simp [ht] at h hs hn ⊢

/-- A written string has no line ends of its own. -/
theorem newlineFor_string (value : Bytes) : newlineFor (writeStringValue value) = [] := by
  have hliteral (b : UInt8) : (literalByte b).any isLineByte = false :=
    forall_byte (p := fun b => (literalByte b).any isLineByte = false) (by decide) b
  have hhex (b : UInt8) : (hexByteDigits b).any isLineByte = false :=
    forall_byte (p := fun b => (hexByteDigits b).any isLineByte = false) (by decide) b
  have hall (f : UInt8 → Bytes) (hf : ∀ b, (f b).any isLineByte = false) :
      (value.flatMap f).any isLineByte = false := by
    simp [List.any_flatMap, hf]
  have hends : isLineByte 0x28 = false ∧ isLineByte 0x29 = false ∧ isLineByte 0x3c = false ∧
      isLineByte 0x3e = false := by decide
  rw [writeStringValue]
  cases useHexString value with
  | true => simp [newlineFor, writeHexString, hall _ hhex, hends]
  | false => simp [newlineFor, writeLiteralString, hall _ hliteral, hends]

theorem newlineFor_name (n : Bytes) : newlineFor (0x2f :: n.flatMap nameByte) = [] := by
  have hbyte (b : UInt8) : (nameByte b).any isLineByte = false :=
    forall_byte (p := fun b => (nameByte b).any isLineByte = false) (by decide) b
  have hslash : isLineByte 0x2f = false := by decide
  simp [newlineFor, List.any_flatMap, hbyte, hslash]

/-! ## All lexemes -/

/-- What a list of lexemes says: types and values, white space apart. -/
def meaningOf (xs : List Lexeme) : List (TokenType × Bytes) :=
  (xs.filter fun x => x.tokenType != .space).map fun x => (x.tokenType, x.value)

theorem meaningOf_cons (x : Lexeme) (xs : List Lexeme) : meaningOf (x :: xs) =
    if x.tokenType = .space then meaningOf xs else (x.tokenType, x.value) :: meaningOf xs := by
  by_cases h : x.tokenType = .space <;> simp [meaningOf, h]

/-- No white space of the lexemes has a carriage return. -/
def NoReturns (xs : List Lexeme) : Prop := ∀ x ∈ xs, x.tokenType = .space → 0x0d ∉ x.raw

/-- The text written for the lexemes of a byte string. -/
def rewritten (l : Bytes) : Bytes := (lexemes l).flatMap normalized

theorem rewritten_nil : rewritten [] = [] := by rw [rewritten, lexemes_nil]; rfl

theorem rewritten_append (hne : raw ≠ []) (h : (lexeme (raw ++ rest)).raw = raw) :
    rewritten (raw ++ rest) = normalized (lexeme (raw ++ rest)) ++ rewritten rest := by
  rw [rewritten, lexemes_append hne h, List.flatMap_cons]
  rfl

/-- `l` says what `xs` say, and is written as it is. -/
structure Settled (xs : List Lexeme) (l : Bytes) : Prop where
  meaning : meaningOf (lexemes l) = meaningOf xs
  clean : NoReturns (lexemes l)
  fixed : rewritten l = l

/-- White space in front joins the white space behind it. -/
theorem lexemes_cons_space (hb : isWs b = true) (l : Bytes) :
    meaningOf (lexemes (b :: l)) = meaningOf (lexemes l) ∧
      (b ≠ 0x0d → rewritten (b :: l) = b :: rewritten l ∧
        (NoReturns (lexemes l) → NoReturns (lexemes (b :: l)))) := by
  have hspace := lexemes_space hb l
  have hwrite (w : Bytes) (hne : b ≠ 0x0d) : writeSpace (b :: w) = b :: writeSpace w := by
    rw [writeSpace, if_neg hne]
  have hsplit : ∃ w r, l.takeWhile isWs = w ∧ l.dropWhile isWs = r ∧
      meaningOf (lexemes l) = meaningOf (lexemes r) ∧ rewritten l = writeSpace w ++ rewritten r ∧
      (NoReturns (lexemes l) → 0x0d ∉ w ∧ NoReturns (lexemes r)) := by
    cases l with
    | nil => exact ⟨[], [], rfl, rfl, rfl, by simp [writeSpace], fun h => ⟨by simp, h⟩⟩
    | cons c l =>
      by_cases hc : isWs c = true
      · refine ⟨c :: l.takeWhile isWs, l.dropWhile isWs, by simp [hc], by simp [hc], ?_, ?_, ?_⟩
        · rw [lexemes_space hc, meaningOf_cons, if_pos rfl]
        · rw [rewritten, lexemes_space hc, List.flatMap_cons, normalized_space rfl]
          rfl
        · intro h
          rw [lexemes_space hc] at h
          exact ⟨h _ List.mem_cons_self rfl, fun x hx => h x (List.mem_cons_of_mem _ hx)⟩
      · exact ⟨[], c :: l, by simp [hc], by simp [hc], rfl, by simp [writeSpace],
          fun h => ⟨by simp, h⟩⟩
  obtain ⟨w, r, hw, hr, hmeaning, hrewritten, hclean⟩ := hsplit
  rw [hw, hr] at hspace
  refine ⟨?_, fun hne => ⟨?_, fun hl => ?_⟩⟩
  · rw [hspace, meaningOf_cons, if_pos rfl, hmeaning]
  · rw [rewritten, hspace, List.flatMap_cons, normalized_space rfl, hwrite w hne, hrewritten]
    rfl
  · obtain ⟨hcr, hrest⟩ := hclean hl
    rw [hspace]
    intro x hx hspace
    rcases List.mem_cons.mp hx with rfl | hx
    · simpa [Ne.symm hne] using hcr
    · exact hrest x hx hspace

theorem Settled.space (h : Settled xs l) (hw : w.all isWs = true ∧ 0x0d ∉ w) :
    Settled xs (w ++ l) := by
  induction w with
  | nil => exact h
  | cons b w ih =>
    rw [List.all_cons, Bool.and_eq_true, List.mem_cons, not_or] at hw
    obtain ⟨⟨hb, hall⟩, hne, hcr⟩ := hw
    have hrest := ih ⟨hall, hcr⟩
    obtain ⟨hmeaning, hcons⟩ := lexemes_cons_space hb (w ++ l)
    obtain ⟨hrewritten, hclean⟩ := hcons (Ne.symm hne)
    exact ⟨hmeaning.trans hrest.meaning, hclean hrest.clean,
      hrewritten.trans (congrArg (b :: ·) hrest.fixed)⟩

theorem meaningOf_space (h : w.all isWs = true) (l : Bytes) :
    meaningOf (lexemes (w ++ l)) = meaningOf (lexemes l) := by
  induction w with
  | nil => rfl
  | cons b w ih =>
    rw [List.all_cons, Bool.and_eq_true] at h
    rw [List.cons_append, (lexemes_cons_space h.1 (w ++ l)).1, ih h.2]

/-! ## The rewritten text -/

theorem sameKind_delimiters {d d' : UInt8} (hd : isTokenDelimiter d = true ∧ isWs d = false)
    (hd' : isTokenDelimiter d' = true ∧ isWs d' = false) : SameKind d d' := by
  have hline (b : UInt8) (hb : isWs b = false) : (b == 0x0d || b == 0x0a) = false :=
    forall_byte (p := fun b => isWs b = false → (b == 0x0d || b == 0x0a) = false)
      (by decide) b hb
  exact ⟨hd.2.trans hd'.2.symm, hd.1.trans hd'.1.symm, (hline d hd.2).trans (hline d' hd'.2).symm⟩

theorem writeStringValue_head (value : Bytes) : ∃ d r, writeStringValue value = d :: r ∧
    isTokenDelimiter d = true ∧ isWs d = false := by
  rw [writeStringValue]
  split_ifs
  · exact ⟨0x3c, _, rfl, rfl, rfl⟩
  · exact ⟨0x28, _, rfl, rfl, rfl⟩

/-- The rewritten text begins like the text. -/
theorem beginAlike_rewritten (l : Bytes) : BeginAlike l (rewritten l) := by
  cases l with
  | nil => exact .inl ⟨rfl, rewritten_nil⟩
  | cons b l =>
    obtain ⟨pre, post, rfl, hraw, -⟩ := lexeme_cons b l
    have hsplit : rewritten (b :: (pre ++ post)) =
        normalized (lexeme (b :: (pre ++ post))) ++ rewritten post :=
      rewritten_append (List.cons_ne_nil b pre) hraw
    generalize hx : lexeme (b :: (pre ++ post)) = x at hraw hsplit
    have key (d : UInt8) (r : Bytes) (hw : normalized x = d :: r) (hkind : SameKind b d) :
        BeginAlike (b :: (pre ++ post)) (rewritten (b :: (pre ++ post))) :=
      .inr ⟨b, d, _, r ++ rewritten post, rfl, by rw [hsplit, hw]; rfl, hkind⟩
    by_cases hspace : x.tokenType = .space
    · have hb : isWs b = true := isWs_of_space (l := pre ++ post) (hx ▸ hspace)
      obtain ⟨d, r, hw, hkind⟩ := writeSpace_head hb pre
      exact key d r (by rw [normalized_space hspace, hraw, hw]) hkind
    by_cases hstring : x.tokenType = .string
    · obtain ⟨hd, hws, -⟩ := lexeme_delimiter (b := b) (l := pre ++ post) (.inr (hx ▸ hstring))
      obtain ⟨d, r, hw, hd'⟩ := writeStringValue_head x.value
      exact key d (r ++ newlineFor x.raw) (by rw [normalized_string hstring, hw]; rfl)
        (sameKind_delimiters ⟨hd, hws⟩ hd')
    by_cases hname : x.tokenType = .name
    · obtain ⟨rfl, n, hn⟩ := lexeme_name (b := b) (l := pre ++ post) (hx ▸ hname)
      exact key 0x2f _ (normalized_name hname (hx ▸ hn)) ⟨rfl, rfl, rfl⟩
    · exact key b pre (by rw [normalized_other hspace hstring hname, hraw]) ⟨rfl, rfl, rfl⟩

/-- A name in which a stray `#` captures two digits when it is written. -/
def Captured (x : Lexeme) : Prop :=
  x.tokenType = .name ∧ strayHashCaptures (x.value.drop 1) = true

/-- What is written for a lexeme is read as that lexeme, up to white space. -/
theorem normalized_spec (hne : raw ≠ []) (hx : lexeme (raw ++ rest) = x) (hraw : x.raw = raw)
    (hbad : x.tokenType ≠ .bad) (hcap : ¬Captured x) (halike : BeginAlike rest l) :
    x.tokenType = .space ∧ (normalized x).all isWs = true ∧ 0x0d ∉ normalized x ∨
    x.tokenType ≠ .space ∧ ∃ y w, normalized x = y.raw ++ w ∧ w.all isWs = true ∧ 0x0d ∉ w ∧
      y.raw ≠ [] ∧ lexeme (y.raw ++ (w ++ l)) = y ∧ normalized y = y.raw ∧
        y.tokenType = x.tokenType ∧ y.value = x.value := by
  by_cases hspace : x.tokenType = .space
  · refine .inl ⟨hspace, ?_⟩
    rw [normalized_space hspace]
    refine writeSpace_spec ?_
    cases raw with
    | nil => exact absurd rfl hne
    | cons b raw =>
      rw [List.cons_append] at hx
      have hb : isWs b = true := isWs_of_space (hx ▸ hspace)
      rw [lexeme_space hb] at hx
      rw [← hx, List.all_cons, hb, Bool.true_and]
      exact List.all_takeWhile
  refine .inr ⟨hspace, ?_⟩
  obtain ⟨hclean, hcr⟩ := newlineFor_clean x.raw
  by_cases hstring : x.tokenType = .string
  · refine ⟨⟨.string, x.value, writeStringValue x.value⟩, newlineFor x.raw, normalized_string hstring,
      hclean, hcr, ?_, lexeme_writeStringValue _ _, ?_, hstring.symm, rfl⟩
    · obtain ⟨d, r, hw, -⟩ := writeStringValue_head x.value
      simp [hw]
    · rw [normalized_string rfl, newlineFor_string, List.append_nil]
  by_cases hname : x.tokenType = .name
  · have hn : ∃ n, x.value = 0x2f :: n := by
      cases raw with
      | nil => exact absurd rfl hne
      | cons b raw => exact hx ▸ (lexeme_name (b := b) (l := raw ++ rest) (hx ▸ hname)).2
    obtain ⟨n, hn⟩ := hn
    have hstray : strayHashCaptures n = false := by
      by_contra hstray
      exact hcap ⟨hname, by simpa [hn] using hstray⟩
    have hends : EndsNames (newlineFor x.raw ++ l) := by
      have hrest : EndsNames rest :=
        endsNames_of_name (hx.symm ▸ hraw) (hx.symm ▸ hname) hne
      unfold newlineFor
      split_ifs
      · simp [EndsNames, isTokenDelimiter, isWs]
      · rcases halike with ⟨-, rfl⟩ | ⟨d, d', r, r', rfl, rfl, -, hdelim, -⟩
        · simp [EndsNames]
        · simpa [EndsNames, ← hdelim] using hrest
    refine ⟨⟨.name, x.value, 0x2f :: n.flatMap nameByte⟩, newlineFor x.raw, normalized_name hname hn,
      hclean, hcr, by simp, ?_, ?_, hname.symm, rfl⟩
    · rw [List.cons_append, lexeme_writtenName hstray hends, hn]
    · have hagain : normalized ⟨.name, x.value, 0x2f :: n.flatMap nameByte⟩ =
          0x2f :: (n.flatMap nameByte ++ newlineFor (0x2f :: n.flatMap nameByte)) :=
        normalized_name rfl hn
      rw [hagain, newlineFor_name, List.append_nil]
  · have hother := normalized_other hspace hstring hname
    have hcopy : lexeme (x.raw ++ l) = x := by
      rw [hraw, lexeme_congr hne (hx ▸ hraw) (hx ▸ hbad) halike, hx]
    exact ⟨x, [], by simp [hother], rfl, by simp, hraw ▸ hne, hcopy, hother, rfl, rfl⟩

/-- The text of a byte string lexeme by lexeme. -/
theorem lexemes_induction {P : Bytes → Prop} (nil : P [])
    (cons : ∀ raw rest, raw ≠ [] → (lexeme (raw ++ rest)).raw = raw → P rest → P (raw ++ rest)) :
    ∀ l, P l := by
  intro l
  induction hlen : l.length using Nat.strong_induction_on generalizing l with
  | _ n ih =>
    by_cases hl : l = []
    · exact hl ▸ nil
    · obtain ⟨hne, rest, hrest⟩ := lexeme_append hl
      have hpos := List.length_pos_of_ne_nil hne
      have hlt : rest.length < n := by
        have hcount := congrArg List.length hrest
        rw [List.length_append] at hcount
        omega
      rw [hrest]
      exact cons _ _ hne (hrest ▸ rfl) (ih rest.length hlt rest rfl)

/-- Without captured digits the rewritten text says what the text says and stays as it is. -/
theorem settled_rewritten (l : Bytes) (hbad : ∀ x ∈ lexemes l, x.tokenType ≠ .bad)
    (hcap : ∀ x ∈ lexemes l, ¬Captured x) : Settled (lexemes l) (rewritten l) := by
  induction l using lexemes_induction with
  | nil =>
    rw [rewritten_nil]
    exact ⟨rfl, by simp [NoReturns, lexemes_nil], rewritten_nil⟩
  | cons raw rest hne hraw ih =>
    rw [lexemes_append hne hraw] at hbad hcap ⊢
    rw [rewritten_append hne hraw]
    have hrest := ih (fun x hx => hbad x (List.mem_cons_of_mem _ hx))
      (fun x hx => hcap x (List.mem_cons_of_mem _ hx))
    have hspec := normalized_spec hne rfl hraw (hbad _ List.mem_cons_self) (hcap _ List.mem_cons_self)
      (beginAlike_rewritten rest)
    generalize lexeme (raw ++ rest) = x at hspec ⊢
    rcases hspec with ⟨hspace, hclean⟩ | ⟨hspace, y, w, hw, hclean, hcr, hy, hlex, hagain, ht, hv⟩
    · obtain ⟨hmeaning, hreturns, hfixed⟩ := hrest.space hclean
      exact ⟨by rw [hmeaning, meaningOf_cons, if_pos hspace], hreturns, hfixed⟩
    · obtain ⟨hmeaning, hreturns, hfixed⟩ := hrest.space ⟨hclean, hcr⟩
      have hsplit : lexemes (y.raw ++ (w ++ rewritten rest)) =
          lexeme (y.raw ++ (w ++ rewritten rest)) :: lexemes (w ++ rewritten rest) :=
        lexemes_append hy (by rw [hlex])
      rw [hw, List.append_assoc]
      refine ⟨?_, ?_, ?_⟩
      · rw [hsplit, hlex, meaningOf_cons, meaningOf_cons, if_neg (ht ▸ hspace), if_neg hspace, hmeaning,
          ht, hv]
      · rw [hsplit, hlex]
        intro z hz hzspace
        rcases List.mem_cons.mp hz with rfl | hz
        · exact absurd (ht.symm.trans hzspace) hspace
        · exact hreturns z hz hzspace
      · rw [rewritten_append hy (by rw [hlex]), hlex, hagain, hfixed]

/-- A captured name changes what the text says. -/
theorem meaningOf_rewritten_ne (l : Bytes) (hbad : ∀ x ∈ lexemes l, x.tokenType ≠ .bad)
    (hcap : ∃ x ∈ lexemes l, Captured x) : meaningOf (lexemes (rewritten l)) ≠ meaningOf (lexemes l) := by
  induction l using lexemes_induction with
  | nil =>
    obtain ⟨x, hx, -⟩ := hcap
    simp [lexemes_nil] at hx
  | cons raw rest hne hraw ih =>
    rw [lexemes_append hne hraw] at hbad hcap ⊢
    rw [rewritten_append hne hraw]
    by_cases hhead : Captured (lexeme (raw ++ rest))
    · obtain ⟨hname, hstray⟩ := hhead
      obtain ⟨n, hn⟩ : ∃ n, (lexeme (raw ++ rest)).value = 0x2f :: n := by
        cases raw with
        | nil => exact absurd rfl hne
        | cons b raw => exact (lexeme_name (b := b) (l := raw ++ rest) hname).2
      have hstray : strayHashCaptures n = true := by simpa [hn] using hstray
      rw [normalized_name hname hn, List.cons_append, List.append_assoc,
        lexemes_of_ne (by simp), meaningOf_cons, meaningOf_cons]
      obtain ⟨hspace, hother⟩ :=
        lexeme_capturedName hstray (newlineFor (lexeme (raw ++ rest)).raw ++ rewritten rest)
      rw [if_neg hspace, if_neg (by simp [hname])]
      intro heq
      have hpair := (List.cons.inj heq).1
      rw [hname, hn] at hpair
      exact hother ⟨congrArg Prod.fst hpair, congrArg Prod.snd hpair⟩
    · have hrest : ∃ x ∈ lexemes rest, Captured x := by
        obtain ⟨x, hx, hcx⟩ := hcap
        rcases List.mem_cons.mp hx with rfl | hx
        · exact absurd hcx hhead
        · exact ⟨x, hx, hcx⟩
      have hdiff := ih (fun x hx => hbad x (List.mem_cons_of_mem _ hx)) hrest
      have hspec := normalized_spec hne rfl hraw (hbad _ List.mem_cons_self) hhead
        (beginAlike_rewritten rest)
      generalize lexeme (raw ++ rest) = x at hspec ⊢
      rcases hspec with ⟨hspace, hall, -⟩ | ⟨hspace, y, w, hw, hall, -, hy, hlex, -, ht, hv⟩
      · rw [meaningOf_space hall, meaningOf_cons, if_pos hspace]
        exact hdiff
      · rw [hw, List.append_assoc, lexemes_append hy (by rw [hlex]), hlex, meaningOf_cons,
          meaningOf_cons, if_neg (ht ▸ hspace), if_neg hspace, meaningOf_space hall]
        intro heq
        exact hdiff (List.cons.inj heq).2

/-! ## The whole stream -/

/-- `x` is neither bad nor the start of an inline image. -/
def Plain (x : Lexeme) : Prop := x.tokenType ≠ .bad ∧ ¬(x.tokenType = .word ∧ x.value = ascii "ID")

/-- Without inline images the stage writes the rewritten text. -/
theorem finishLoop_plain (n : ℕ) {o : Tokenizer} (output : Bytes) (hs : o.state ≠ .inlineImage)
    (ha : o.allowEof = true) (hi : o.includeIgnorable = true) (hp : o.pos ≤ o.input.length)
    (hn : o.input.length - o.pos < n) (hplain : ∀ x ∈ lexemes (o.input.drop o.pos), Plain x) :
    finishLoop n o {} output =
      some ⟨output ++ rewritten (o.input.drop o.pos), false, false⟩ := by
  induction n generalizing o output with
  | zero => omega
  | succ n ih =>
    obtain ⟨token, t', hread, hspec, hlex⟩ := readTokenWithOptions_lexeme hs ha hi hp
    have hraw : token.raw = (lexeme (o.input.drop o.pos)).raw := congrArg Lexeme.raw hlex
    have hwritten := handleToken_snd {} token
    rw [hlex] at hwritten
    simp only [finishLoop, hread]
    by_cases hend : o.input.drop o.pos = []
    · have htype : token.tokenType = .eof := by
        have htype := congrArg Lexeme.tokenType hlex
        rwa [hend, lexeme_nil] at htype
      have hstate : (handleToken {} token).1 = {} := by simp [handleToken, htype]
      rw [if_pos htype, hstate, hwritten, hend, lexeme_nil, rewritten_nil]
      rfl
    · have hne : token.raw ≠ [] := hraw ▸ (lexeme_append hend).1
      have hproper : token.tokenType ≠ .eof := (hspec.proper hne).1
      have hcut : lexemes (o.input.drop o.pos) = lexeme (o.input.drop o.pos) ::
          lexemes ((o.input.drop o.pos).drop token.raw.length) := by
        rw [lexemes_of_ne hend, hraw]
      have hpos := hspec.pos
      rw [hspec.endPos, ← hspec.ignorable hi] at hpos
      have horigin := hspec.origin
      simp only [origin, Prod.mk.injEq] at horigin
      obtain ⟨hin, ha', hi'⟩ := horigin
      have hdrop : t'.input.drop t'.pos = (o.input.drop o.pos).drop token.raw.length := by
        rw [hin, hpos, List.drop_drop]
      rw [hcut] at hplain
      obtain ⟨hbad, hid⟩ := hplain _ List.mem_cons_self
      rw [← hlex] at hbad hid
      have hstate : (handleToken {} token).1 = {} := by
        have hbad : token.tokenType ≠ .bad := hbad
        simp [handleToken, hbad]
      have hword : ¬token.isWordValue (ascii "ID") = true := by
        simpa [Token.isWordValue, Lexeme.ofToken] using hid
      have hlen := List.length_pos_of_ne_nil hne
      have hle := hspec.pos_le
      rw [if_neg hproper, if_neg hword, hstate, hwritten,
        ih _ (by simp [hspec.state]) (ha'.trans ha) (hi'.trans hi) (hin ▸ hle)
          (by rw [hin]; omega) (fun x hx => hplain x (List.mem_cons_of_mem _ (hdrop ▸ hx))),
        hdrop, rewritten, rewritten, hcut, List.flatMap_cons, List.append_assoc]

/-- The tokens of a content stream, white space and comments included. -/
def contentTokens (input : Bytes) : Option (List Token) :=
  (readAll (input.length + 1)
    { input := input, allowEof := true, includeIgnorable := true }).map fun calls =>
      calls.map Call.token

/-- What tokens say: types and values, white space apart. -/
def saidBy (tokens : List Token) : List (TokenType × Bytes) :=
  (tokens.filter fun t => t.tokenType != .space).map fun t => (t.tokenType, t.value)

/-- The result of normalizing a stream with the given tokens says the same, once and for all. -/
structure KeepsMeaning (tokens : List Token) (result : ContentNormalization) : Prop where
  meaning : ∃ again, contentTokens result.bytes = some again ∧ saidBy again = saidBy tokens ∧
    ∀ t ∈ again, t.tokenType = .space → 0x0d ∉ t.raw
  noBadTokens : result.anyBadTokens = false
  lastWasGood : result.lastTokenWasBad = false
  fixed : (normalizeContentStream result.bytes).map ContentNormalization.bytes = some result.bytes

theorem contentTokens_lexemes (input : Bytes) : ∃ tokens, contentTokens input = some tokens ∧
    tokens.map Lexeme.ofToken = lexemes input ++ [endLexeme] := by
  obtain ⟨calls, hcalls, hmap⟩ := readAll_lexemes (input.length + 1)
    (o := { input := input, allowEof := true, includeIgnorable := true }) (by simp) rfl rfl
    (Nat.zero_le _) (Nat.lt_succ_self _)
  refine ⟨calls.map Call.token, by rw [contentTokens, hcalls]; rfl, ?_⟩
  rw [List.map_map]
  exact hmap

theorem saidBy_eq {tokens : List Token} (h : tokens.map Lexeme.ofToken = xs ++ [endLexeme]) :
    saidBy tokens = meaningOf xs ++ [(.eof, [])] := by
  have hsaid : saidBy tokens = meaningOf (tokens.map Lexeme.ofToken) := by
    simp only [saidBy, meaningOf, List.filter_map, List.map_map]
    rfl
  rw [hsaid, h]
  simp [meaningOf, endLexeme]

theorem normalizeContentStream_plain {input : Bytes} (h : ∀ x ∈ lexemes input, Plain x) :
    normalizeContentStream input = some ⟨rewritten input, false, false⟩ :=
  finishLoop_plain (2 * input.length + 2)
    (o := { input := input, allowEof := true, includeIgnorable := true }) [] (by simp) rfl rfl
    (Nat.zero_le _) (by dsimp only; omega) h

theorem mem_meaningOf {p : TokenType × Bytes} :
    p ∈ meaningOf xs ↔ ∃ x ∈ xs, x.tokenType ≠ .space ∧ (x.tokenType, x.value) = p := by
  simp [meaningOf, and_assoc]

/-- Whether lexemes are plain can be told from what they say. -/
theorem plain_of_meaning {ys : List Lexeme} (h : meaningOf ys = meaningOf xs) (hx : ∀ x ∈ xs, Plain x) :
    ∀ y ∈ ys, Plain y := by
  intro y hy
  by_cases hspace : y.tokenType = .space
  · exact ⟨by simp [hspace], by simp [hspace]⟩
  · have hmem : (y.tokenType, y.value) ∈ meaningOf xs := h ▸ mem_meaningOf.mpr ⟨y, hy, hspace, rfl⟩
    obtain ⟨x, hmem, -, heq⟩ := mem_meaningOf.mp hmem
    obtain ⟨ht, hv⟩ := Prod.mk.inj heq
    have hplain := hx x hmem
    rwa [Plain, ht, hv] at hplain

/-- Normalization keeps what a stream says exactly when no NUL in the value of a name, the
mark of a stray `#`, is directly followed by two hexadecimal digits. -/
theorem normalizeContentStream_keepsMeaning_iff {input : Bytes} {tokens : List Token}
    (htokens : contentTokens input = some tokens) (hbad : ∀ t ∈ tokens, t.tokenType ≠ .bad)
    (hid : ∀ t ∈ tokens, t.isWordValue (ascii "ID") = false) :
    (∃ result, normalizeContentStream input = some result ∧ KeepsMeaning tokens result) ↔
      ∀ t ∈ tokens, t.tokenType = .name → strayHashCaptures (t.value.drop 1) = false := by
  obtain ⟨tokens', htokens', hmap⟩ := contentTokens_lexemes input
  obtain rfl : tokens' = tokens := Option.some.inj (htokens'.symm.trans htokens)
  have hmem (x : Lexeme) (hx : x ∈ lexemes input) : ∃ t ∈ tokens', Lexeme.ofToken t = x := by
    have hx : x ∈ tokens'.map Lexeme.ofToken := hmap ▸ List.mem_append_left _ hx
    simpa using hx
  have hplain : ∀ x ∈ lexemes input, Plain x := by
    intro x hx
    obtain ⟨t, ht, rfl⟩ := hmem x hx
    have hword := hid t ht
    exact ⟨hbad t ht, by simpa [Token.isWordValue, Lexeme.ofToken] using hword⟩
  have hrun := normalizeContentStream_plain hplain
  have hsaid := saidBy_eq hmap
  obtain ⟨again, hagain, hmap'⟩ := contentTokens_lexemes (rewritten input)
  have hsaid' := saidBy_eq hmap'
  constructor
  · rintro ⟨result, hresult, hkeeps⟩ t ht hname
    obtain rfl := Option.some.inj (hrun.symm.trans hresult)
    by_contra hstray
    obtain ⟨again', hagain', hsame, -⟩ := hkeeps.meaning
    obtain rfl : again = again' := Option.some.inj (hagain.symm.trans hagain')
    have htext : Lexeme.ofToken t ∈ lexemes input := by
      have hx : Lexeme.ofToken t ∈ lexemes input ++ [endLexeme] := hmap ▸ List.mem_map_of_mem ht
      rcases List.mem_append.mp hx with hx | hx
      · exact hx
      · have heof := congrArg Lexeme.tokenType (List.mem_singleton.mp hx)
        exact absurd (hname.symm.trans heof) (by decide)
    have hstray : strayHashCaptures ((Lexeme.ofToken t).value.drop 1) = true := by
      simpa [Lexeme.ofToken] using hstray
    refine meaningOf_rewritten_ne input (fun x hx => (hplain x hx).1)
      ⟨Lexeme.ofToken t, htext, hname, hstray⟩ ?_
    rw [hsaid, hsaid'] at hsame
    exact List.append_cancel_right hsame
  · intro hstray
    have hcap : ∀ x ∈ lexemes input, ¬Captured x := by
      rintro x hx ⟨hname, hcaptured⟩
      obtain ⟨t, ht, rfl⟩ := hmem x hx
      have hfine := hstray t ht hname
      rw [show t.value = (Lexeme.ofToken t).value from rfl, hcaptured] at hfine
      cases hfine
    have hsettled := settled_rewritten input (fun x hx => (hplain x hx).1) hcap
    refine ⟨_, hrun, ⟨again, hagain, ?_, ?_⟩, rfl, rfl, ?_⟩
    · rw [hsaid', hsettled.meaning, hsaid]
    · intro t ht hspace
      have hx : Lexeme.ofToken t ∈ lexemes (rewritten input) ++ [endLexeme] :=
        hmap' ▸ List.mem_map_of_mem ht
      rcases List.mem_append.mp hx with hx | hx
      · exact hsettled.clean _ hx hspace
      · have heof := congrArg Lexeme.tokenType (List.mem_singleton.mp hx)
        exact absurd (hspace.symm.trans heof) (by decide)
    · rw [normalizeContentStream_plain (plain_of_meaning hsettled.meaning hplain)]
      exact congrArg some hsettled.fixed

/-- The tokens of `BT /N#61me % x`. -/
def sampleTokens : List Token := (contentTokens (ascii "BT /N#61me % x")).getD []

theorem normalizeContentStream_keepsMeaning_sample :
    contentTokens (ascii "BT /N#61me % x") = some sampleTokens ∧
    ((∃ result, normalizeContentStream (ascii "BT /N#61me % x") = some result ∧
        KeepsMeaning sampleTokens result) ↔
      ∀ t ∈ sampleTokens, t.tokenType = .name → strayHashCaptures (t.value.drop 1) = false) :=
  ⟨by decide,
    normalizeContentStream_keepsMeaning_iff (by decide) (by decide)
      (by decide)⟩

/-- The tokens of `/a##41B `: a name with a NUL in front of `AB`, and a space. -/
def strayHashTokens : List Token := (contentTokens (ascii "/a##41B ")).getD []

theorem normalizeContentStream_stray_hash :
    contentTokens (ascii "/a##41B ") = some strayHashTokens ∧
    (∀ t ∈ strayHashTokens, t.tokenType ≠ .bad ∧ t.isWordValue (ascii "ID") = false) ∧
    normalizeContentStream (ascii "/a##41B ") = some ⟨ascii "/a#AB ", false, false⟩ ∧
    ¬KeepsMeaning strayHashTokens ⟨ascii "/a#AB ", false, false⟩ := by
  refine ⟨by decide, by decide, by decide, ?_⟩
  intro hkeeps
  obtain ⟨again, hagain, hsame, -⟩ := hkeeps.meaning
  have hread : (contentTokens (ascii "/a#AB ")).map saidBy ≠ some (saidBy strayHashTokens) := by
    decide
  exact hread (by rw [hagain, Option.map_some, hsame])

end Flpdf
