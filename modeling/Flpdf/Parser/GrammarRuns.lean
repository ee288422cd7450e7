import Flpdf.Parser.GrammarFrames
import Flpdf.Parser.ReadBack
import Flpdf.Parser.Totality

/-!
# The parser follows the grammar

The turns of the loop take the tokens of a container one after the other. The
integers that are held back belong to the items that have been read, and an `R`
turns the last two of them into a reference.
-/

namespace Flpdf

open Tokenizer LiveFrame

namespace LiveParser

variable {input : Bytes} {p p' q : LiveParser} {t t' t'' : Tokenizer} {token : Token}
  {tokens : List Token} {frames : List LiveFrame}

/-! ## The tokens -/

/-- An integer has 64 bits. -/
def Converts (token : Token) : Prop :=
  token.tokenType = .integer → -2 ^ 63 ≤ intValue token.raw ∧ intValue token.raw < 2 ^ 63

instance : DecidablePred Converts := fun token =>
  inferInstanceAs (Decidable (token.tokenType = .integer →
    -2 ^ 63 ≤ intValue token.raw ∧ intValue token.raw < 2 ^ 63))

/-- The tokenizer gives the tokens, one after the other. -/
inductive Supplies : Tokenizer → List Token → Tokenizer → Prop where
  | nil {t : Tokenizer} : Supplies t [] t
  | cons {t t' t'' : Tokenizer} {token : Token} {tokens : List Token}
      (hread : t.readQpdfToken 0 = (.ok token, t')) (hrest : Supplies t' tokens t'') :
      Supplies t (token :: tokens) t''

/-- The next tokens, as long as there are any. -/
def takeTokens : ℕ → Tokenizer → List Token × Tokenizer
  | 0, t => ([], t)
  | n + 1, t =>
    match t.readQpdfToken 0 with
    | (.ok token, t') => (token :: (takeTokens n t').1, (takeTokens n t').2)
    | (.error _, t') => ([], t')

theorem supplies_takeTokens {n : ℕ} (h : (takeTokens n t).1.length = n) :
    Supplies t (takeTokens n t).1 (takeTokens n t).2 := by
  induction n generalizing t with
  | zero => exact .nil
  | succ n ih =>
    rw [takeTokens] at h ⊢
    rcases hread : t.readQpdfToken 0 with ⟨e | token, t'⟩
    · rw [hread] at h
      cases h
    · rw [hread] at h
      exact .cons hread (ih (Nat.succ.inj h))

/-- The parser of a document that has not given up. -/
structure Ready (input : Bytes) (p : LiveParser) : Prop where
  stands : Stands input p.tokens
  ignorable : p.tokens.includeIgnorable = false
  hasContext : p.hasContext = true
  giveUp : p.giveUp = false

theorem Ready.of_calm (h : Ready input p) (hcalm : Calm p p') : Ready input p' :=
  ⟨hcalm.tokens ▸ h.stands, hcalm.tokens ▸ h.ignorable, hcalm.hasContext.trans h.hasContext,
    hcalm.giveUp.trans h.giveUp⟩

theorem Ready.noted (h : Ready input p) (warnings : List (ℕ × Bytes)) :
    Ready input (p.noted warnings) :=
  ⟨h.stands, h.ignorable, h.hasContext, h.giveUp⟩

/-- Where a token is read, the tokenizer goes on inside the same input. -/
theorem Ready.read (h : Ready input p) (hread : p.tokens.readQpdfToken 0 = (.ok token, t')) :
    Stands input t' ∧ t'.includeIgnorable = false ∧
      (token.tokenType = .integer → isIntText token.raw = true) := by
  obtain ⟨token', t'', hspec, hread'⟩ := readTokenWithOptions_spec
    (t := { p.tokens with allowEof := true }) h.stands.state
    (h.stands.same ▸ h.stands.pos_le) true 0
  have hsame : ((.ok token, t') : Except (ℕ × Bytes) Token × Tokenizer) = (.ok token', t'') := by
    rw [← hread, readQpdfToken, hread', if_neg]
    simp
  obtain ⟨htoken, rfl⟩ := Prod.mk.inj hsame
  refine ⟨⟨hspec.input_eq.trans h.stands.same, ?_, h.stands.same ▸ hspec.pos_le⟩,
    hspec.ignorable_eq.trans h.ignorable, ?_⟩
  · rw [hspec.state]
    simp
  · have hlex := readQpdfToken_eq (m := 0) h.stands.state
    rw [hread] at hlex
    obtain rfl := Except.ok.inj hlex
    exact isIntText_of_integer (t := { p.tokens with allowEof := true }) h.ignorable

theorem Ready.nextToken (h : Ready input p) (hread : p.tokens.readQpdfToken 0 = (.ok token, t'))
    (hconverts : Converts token) :
    ∃ warnings, p.nextToken =
        .ok (token, ({ p with tokens := t', lastOffset := token.start } : LiveParser).noted
          warnings) ∧
      Ready input { p with tokens := t', lastOffset := token.start } := by
  obtain ⟨hstands, hignorable, hint⟩ := h.read hread
  have hready : Ready input { p with tokens := t', lastOffset := token.start } :=
    ⟨hstands, hignorable, h.hasContext, h.giveUp⟩
  have hlive : p.nextLiveToken =
      .ok (token, { p with tokens := t', lastOffset := token.start }) := by
    rw [nextLiveToken, hread]
    dsimp only
    split_ifs with hinteger
    · have htype : token.tokenType = .integer := by simpa [Token.isInteger] using hinteger
      rw [parseIntegerBytes, if_pos (hint htype), if_pos (hconverts htype)]
      rfl
    · rfl
  cases herror : token.errorMessage with
  | none =>
    refine ⟨[], ?_, hready⟩
    rw [LiveParser.nextToken, hlive]
    dsimp only [bind, Except.bind]
    rw [herror, noted_nil]
    rfl
  | some message =>
    refine ⟨[(token.start, message)], ?_, hready⟩
    rw [LiveParser.nextToken, hlive]
    dsimp only [bind, Except.bind]
    rw [herror]
    dsimp only
    rw [warn_noted hready.hasContext]
    rfl

/-- A turn begins with the next token. -/
theorem Ready.remainderTurn (h : Ready input p)
    (hread : p.tokens.readQpdfToken 0 = (.ok token, t')) (hconverts : Converts token)
    (frames : List LiveFrame) :
    ∃ warnings, p.remainderTurn frames =
        ((p.took t' token.start).noted warnings).remainderToken frames token ∧
      Ready input ((p.took t' token.start).noted warnings) := by
  obtain ⟨warnings, hnext, hready⟩ := h.nextToken hread hconverts
  refine ⟨warnings, ?_, hready.stands, hready.ignorable, hready.hasContext, hready.giveUp⟩
  rw [remainderTurn_eq, hnext]
  rfl

/-! ## One turn -/

variable {base frame frame' : LiveFrame} {stack : List LiveFrame} {run init : List PendingInteger}
  {a b : PendingInteger} {bad bad' : ℕ}

/-- With the integers that are held back the top frame is `frame`. -/
def Held (p : LiveParser) (frames : List LiveFrame) (frame : LiveFrame) (stack : List LiveFrame) :
    Prop :=
  ∃ base run, Pending p (base :: stack) run frames ∧ (integers run).foldl accept base = frame

/-- The parser goes on behind some tokens, `bad` of which were bad. -/
structure After (input : Bytes) (p : LiveParser) (t' : Tokenizer) (bad : ℕ) (p' : LiveParser) :
    Prop where
  ready : Ready input p'
  tokens : p'.tokens = t'
  badCount : p'.badCount ≤ p.badCount + bad

theorem After.of_calm {warnings warnings' : List (ℕ × Bytes)} {start : ℕ}
    (hready : Ready input ((p.took t' start).noted warnings))
    (hcalm : Calm ((p.took t' start).noted warnings) p') :
    After input p t' 0 (p'.noted warnings') :=
  ⟨(hready.of_calm hcalm).noted _, hcalm.tokens, hcalm.badCount.le⟩

theorem Ready.receives (h : Ready input p) (frame : LiveFrame) (stack : List LiveFrame) :
    Receives p (frame :: stack) :=
  ⟨List.cons_ne_nil _ _, .inl h.hasContext⟩

/-- An integer is held back. -/
theorem turn_integer (hready : Ready input p)
    (hread : p.tokens.readQpdfToken 0 = (.ok token, t')) (hconverts : Converts token)
    (htype : token.tokenType = .integer) (hpending : Pending p (base :: stack) run frames) :
    ∃ i p' frames', i.value = intValue token.raw ∧ p.remainderTurn frames = .ok (frames', p', none) ∧
      Pending p' (base :: stack) (run ++ [i]) frames' ∧ After input p t' 0 p' := by
  obtain ⟨warnings, hturn, hready'⟩ := hready.remainderTurn hread hconverts frames
  have htook : Pending ((p.took t' token.start).noted warnings) (base :: stack) run frames :=
    hpending.congr rfl rfl rfl
  obtain ⟨frames', p', warnings', hbuffer, hpending', hcalm, -⟩ :=
    htook.buffered (hready'.receives base stack) ⟨intValue token.raw, token.start⟩
  refine ⟨⟨intValue token.raw, token.start⟩, p'.noted warnings', frames', rfl, ?_,
    hpending'.congr rfl rfl rfl, .of_calm hready' hcalm⟩
  rw [hturn, remainderToken, if_pos (by simp [Token.isInteger, htype])]
  exact congrArg _ hbuffer

/-- An `R` makes a reference of the last two of the integers. -/
theorem turn_reference (hready : Ready input p)
    (hread : p.tokens.readQpdfToken 0 = (.ok token, t')) (hword : token.isWordValue (ascii "R"))
    (hpending : Pending p (base :: stack) (init ++ [a, b]) frames)
    (ha : FitsInt a.value) (hb : FitsInt b.value) :
    ∃ p', p.remainderTurn frames = .ok (((integers init).foldl accept base).accept
        (reference a.value b.value) :: stack, p', none) ∧
      p'.integerCount = 0 ∧ After input p t' 0 p' := by
  have hnot : ¬token.isInteger = true := by
    simp only [Token.isWordValue, Token.isInteger, Bool.and_eq_true, beq_iff_eq] at hword ⊢
    rw [hword.1]
    simp
  have hconverts : Converts token := by
    intro htype
    exact absurd (by simp [Token.isInteger, htype]) hnot
  obtain ⟨warnings, hturn, hready'⟩ := hready.remainderTurn hread hconverts frames
  have htook : Pending ((p.took t' token.start).noted warnings) (base :: stack) (init ++ [a, b])
      frames :=
    hpending.congr rfl rfl rfl
  have htwo : 2 ≤ ((p.took t' token.start).noted warnings).integerCount := by
    rw [htook.count, List.length_append]
    exact Nat.le_add_left _ _
  obtain ⟨p', warnings', hfinish, hcount, hcalm, -⟩ :=
    htook.finished (hready'.receives base stack) hready'.hasContext ha hb
  refine ⟨p'.noted warnings', ?_, hcount, .of_calm hready' hcalm⟩
  rw [hturn, remainderToken, if_neg hnot, if_pos ⟨htwo, hword⟩, hfinish, acceptAll,
    List.foldl_append]
  rfl

/-- Any other token finds the integers in the top frame. -/
theorem turn_other (hready : Ready input p)
    (hread : p.tokens.readQpdfToken 0 = (.ok token, t')) (htype : token.tokenType ≠ .integer)
    (hword : token.isWordValue (ascii "R") = true → run.length < 2)
    (hpending : Pending p (base :: stack) run frames) :
    ∃ q, p.remainderTurn frames = q.dispatch ((integers run).foldl accept base :: stack) token ∧
      q.integerCount = 0 ∧ After input p t' 0 q := by
  have hconverts : Converts token := fun hinteger => absurd hinteger htype
  obtain ⟨warnings, hturn, hready'⟩ := hready.remainderTurn hread hconverts frames
  have htook : Pending ((p.took t' token.start).noted warnings) (base :: stack) run frames :=
    hpending.congr rfl rfl rfl
  obtain ⟨p', warnings', hflush, hcount, hcalm, -⟩ := htook.flushed (hready'.receives base stack)
  refine ⟨p'.noted warnings', ?_, hcount, .of_calm hready' hcalm⟩
  rw [hturn, remainderToken, if_neg (by simpa [Token.isInteger] using htype), if_neg, hflush]
  · rfl
  · rintro ⟨htwo, hletter⟩
    have hlength := hword hletter
    rw [htook.count] at htwo
    omega

/-! ## Tokens that are not held back -/

variable {kind : ContainerKind} {items : List Item}

/-- The parser has only more warnings and bad tokens. -/
structure Suffers (p p' : LiveParser) (bad : ℕ) : Prop where
  tokens : p'.tokens = p.tokens
  hasContext : p'.hasContext = p.hasContext
  giveUp : p'.giveUp = p.giveUp
  integerCount : p'.integerCount = p.integerCount
  badCount : p'.badCount ≤ p.badCount + bad

theorem Suffers.refl (p : LiveParser) : Suffers p p 0 := ⟨rfl, rfl, rfl, rfl, le_rfl⟩

theorem suffers_noted (p : LiveParser) (warnings : List (ℕ × Bytes)) :
    Suffers p (p.noted warnings) 0 :=
  ⟨rfl, rfl, rfl, rfl, le_rfl⟩

theorem After.suffers (h : After input p t' bad q) (hsuffers : Suffers q p' bad') :
    After input p t' (bad + bad') p' := by
  have hready := h.ready
  refine ⟨⟨hsuffers.tokens ▸ hready.stands, hsuffers.tokens ▸ hready.ignorable,
    hsuffers.hasContext.trans hready.hasContext, hsuffers.giveUp.trans hready.giveUp⟩,
    hsuffers.tokens.trans h.tokens, ?_⟩
  have hfirst := h.badCount
  have hsecond := hsuffers.badCount
  omega

/-- Up to five bad tokens do not make the parser give up. -/
theorem tooManyBadTokens_eq (hbad : p.badCount + 1 ≤ 5) (offset : ℕ) :
    ∃ p', p.tooManyBadTokens offset = .ok p' ∧ Suffers p p' 1 := by
  rw [tooManyBadTokens]
  by_cases hgood : p.goodCount ≤ 4
  · rw [if_pos hgood]
    dsimp only
    rw [if_neg (by omega)]
    exact ⟨_, rfl, rfl, rfl, rfl, rfl, le_rfl⟩
  · rw [if_neg hgood]
    exact ⟨_, rfl, rfl, rfl, rfl, rfl, Nat.le_add_left _ _⟩

theorem warned_bad (hcontext : p.hasContext = true) (hbad : p.badCount + 1 ≤ 5) (offset : ℕ)
    (message : Bytes) : ∃ q p', p.warn offset message = .ok q ∧
      q.tooManyBadTokens offset = .ok p' ∧ Suffers p p' 1 := by
  obtain ⟨p', htoo, hsuffers⟩ :=
    tooManyBadTokens_eq (p := p.noted [(offset, message)]) hbad offset
  exact ⟨_, p', warn_noted hcontext offset message, htoo,
    ⟨hsuffers.tokens, hsuffers.hasContext, hsuffers.giveUp, hsuffers.integerCount,
      hsuffers.badCount⟩⟩

theorem unexpected_eq (hcontext : p.hasContext = true) (hbad : p.badCount + 1 ≤ 5) (offset : ℕ)
    (message : Bytes) : ∃ p', p.unexpected offset message = .ok (.null, p') ∧ Suffers p p' 1 := by
  obtain ⟨q, p', hwarn, htoo, hsuffers⟩ := warned_bad hcontext hbad offset message
  refine ⟨p', ?_, hsuffers⟩
  rw [unexpected, hwarn]
  dsimp only [bind, Except.bind]
  rw [htoo]
  rfl

/-- The value of a token is that of its atom. -/
theorem parseScalarToken_inside (hinside : Inside kind token) (hcontext : p.hasContext = true)
    (hbad : p.badCount + (atomOf token).item.bad ≤ 5) :
    ∃ p', p.parseScalarToken token = .ok ((atomOf token).item.value, p') ∧
      Suffers p p' (atomOf token).item.bad := by
  cases htype : token.tokenType with
  | arrayOpen => exact absurd htype (hinside.opening .array)
  | dictOpen => exact absurd htype (hinside.opening .dictionary)
  | eof => exact absurd htype hinside.eof
  | integer | name | string | bool | null | real =>
    refine ⟨p, ?_, ?_⟩
    · simp only [parseScalarToken, atomOf, htype, Atom.item, Item.value]
    · simp only [atomOf, htype, Atom.item, Item.bad]
      exact .refl p
  | word =>
    have hitem : (atomOf token).item = .other (.string token.value) 1 := by
      simp only [atomOf, htype]
      split_ifs with hletter
      · rw [Atom.item, hletter]
      · rfl
    rw [hitem] at hbad ⊢
    obtain ⟨q, p', hwarn, htoo, hsuffers⟩ := warned_bad hcontext hbad token.start
      (ascii "unknown token while reading object; treating as string")
    refine ⟨p', ?_, hsuffers⟩
    simp only [parseScalarToken, htype]
    rw [hwarn]
    dsimp only [bind, Except.bind]
    rw [htoo]
    rfl
  | bad =>
    have hitem : (atomOf token).item = .other .null 1 := by
      simp only [atomOf, htype, Atom.item]
    rw [hitem] at hbad ⊢
    obtain ⟨p', htoo, hsuffers⟩ := tooManyBadTokens_eq hbad token.start
    refine ⟨p', ?_, hsuffers⟩
    simp only [parseScalarToken, htype]
    rw [htoo]
    rfl
  | braceOpen | braceClose | arrayClose | dictClose | space | comment | inlineImage =>
    have hitem : (atomOf token).item = .other .null 1 := by
      simp only [atomOf, htype, Atom.item]
    rw [hitem] at hbad ⊢
    simp only [parseScalarToken, htype]
    exact unexpected_eq hcontext hbad token.start _

theorem Suffers.noted (h : Suffers p p' bad) (warnings : List (ℕ × Bytes)) :
    Suffers p (p'.noted warnings) bad :=
  ⟨h.tokens, h.hasContext, h.giveUp, h.integerCount, h.badCount⟩

/-- The value of a token goes to the top frame. -/
theorem addScalar_inside (hinside : Inside kind token) (hready : Ready input p)
    (hbad : p.badCount + (atomOf token).item.bad ≤ 5) :
    ∃ p', p.addScalar (frame :: stack) token =
        .ok (frame.accept (atomOf token).item.value :: stack, p', none) ∧
      Suffers p p' (atomOf token).item.bad := by
  obtain ⟨q, hscalar, hsuffers⟩ := parseScalarToken_inside hinside hready.hasContext hbad
  have hgiveUp : q.giveUp = false := hsuffers.giveUp.trans hready.giveUp
  have hreceives : Receives q (frame :: stack) :=
    (hready.receives frame stack).congr hsuffers.hasContext
  obtain ⟨warnings, hadd, -⟩ := addToTopFrame_noted hreceives (atomOf token).item.value
  refine ⟨q.noted warnings, ?_, hsuffers.noted warnings⟩
  rw [addScalar, hscalar]
  dsimp only [bind, Except.bind]
  rw [if_neg (by rw [hgiveUp]; exact Bool.false_ne_true), hadd]
  dsimp only
  rw [if_neg (by rw [noted, hgiveUp]; exact Bool.false_ne_true)]
  rfl

/-- Only name tokens are names. -/
theorem type_of_name {text : Bytes} (h : (atomOf token).item = .name text) :
    token.tokenType = .name := by
  cases htype : token.tokenType with
  | name => rfl
  | word =>
    simp only [atomOf, htype] at h
    split_ifs at h <;> cases h
  | _ =>
    simp only [atomOf, htype, Atom.item] at h
    cases h

/-- A token inside a container is an item of the top frame. -/
theorem dispatch_inside (stack : List LiveFrame) (hinside : Inside kind token)
    (hkind : frame.kind = kind) (hready : Ready input p) (hbad : p.badCount + (atomOf token).item.bad ≤ 5) :
    ∃ p', p.dispatch (frame :: stack) token =
        .ok (frame.take (atomOf token).item :: stack, p', none) ∧
      Suffers p p' (atomOf token).item.bad := by
  subst hkind
  by_cases hkey : ∃ values orphanValues frameOffset,
      frame = .dictionary values orphanValues none frameOffset ∧ token.tokenType = .name
  · obtain ⟨values, orphanValues, frameOffset, rfl, htype⟩ := hkey
    have hitem : (atomOf token).item = .name token.value := by
      simp only [atomOf, htype, Atom.item]
    refine ⟨p, ?_, ?_⟩
    · simp only [dispatch, htype, hitem, take]
    · rw [hitem]
      exact .refl p
  · have htake : frame.take (atomOf token).item = frame.accept (atomOf token).item.value := by
      generalize hitem : (atomOf token).item = item
      fun_cases take frame item with
      | case1 values orphanValues frameOffset text =>
        exact absurd ⟨values, orphanValues, frameOffset, rfl, type_of_name hitem⟩ hkey
      | case2 => rfl
    have hdispatch : p.dispatch (frame :: stack) token = p.addScalar (frame :: stack) token := by
      unfold dispatch
      split
      next htype => exact absurd htype (hinside.opening .array)
      next htype => exact absurd htype (hinside.opening .dictionary)
      next htype heq =>
        obtain ⟨rfl, rfl⟩ := List.cons.inj heq
        exact absurd htype hinside.closing
      next htype heq =>
        obtain ⟨rfl, rfl⟩ := List.cons.inj heq
        exact absurd htype hinside.closing
      next htype => exact absurd htype hinside.eof
      next htype heq =>
        obtain ⟨rfl, rfl⟩ := List.cons.inj heq
        exact absurd ⟨_, _, _, rfl, htype⟩ hkey
      next => rfl
    rw [hdispatch, htake]
    exact addScalar_inside hinside hready hbad

/-! ## Containers -/

/-- The frame of a container that has no items yet. -/
def emptyFrame (kind : ContainerKind) (frameOffset : ℕ) : LiveFrame :=
  match kind with
  | .array => .array []
  | .dictionary => .dictionary [] [] none frameOffset

theorem kind_emptyFrame (kind : ContainerKind) (frameOffset : ℕ) :
    (emptyFrame kind frameOffset).kind = kind := by
  cases kind <;> rfl

theorem pushFrame_opening (p : LiveParser) (frames : List LiveFrame) (hopening : token.tokenType = kind.opening)
    (hdepth : frames.length < maxParseDepth) :
    p.pushFrame frames token = .ok (some (emptyFrame kind token.endPos :: frames), p) := by
  rw [pushFrame, if_neg (by omega)]
  cases kind with
  | array =>
    rw [ContainerKind.opening] at hopening
    rw [if_pos hopening, emptyFrame]
  | dictionary =>
    rw [ContainerKind.opening] at hopening
    rw [if_neg (by rw [hopening]; exact nofun), emptyFrame]

theorem dispatch_opening (frames : List LiveFrame) (hready : Ready input p)
    (hopening : token.tokenType = kind.opening) (hdepth : frames.length < maxParseDepth) :
    p.dispatch frames token = .ok (emptyFrame kind token.endPos :: frames, p, none) := by
  have hpush := pushFrame_opening p frames hopening hdepth
  have hgiveUp : ¬p.giveUp = true := by
    rw [hready.giveUp]
    exact Bool.false_ne_true
  cases kind <;>
    · simp only [ContainerKind.opening] at hopening
      simp only [dispatch, hopening, hpush, bind, Except.bind, if_neg hgiveUp]
      rfl

/-- The frame of all items ends as the container of the items. -/
theorem dispatch_closing (hready : Ready input p) (hclosing : token.tokenType = kind.closing)
    (frameOffset : ℕ) (items : List Item) (stack : List LiveFrame) :
    ∃ warnings, p.dispatch (items.foldl take (emptyFrame kind frameOffset) :: stack) token =
      (p.noted warnings).complete stack (kind.build items) := by
  cases kind with
  | array =>
    refine ⟨[], ?_⟩
    rw [ContainerKind.closing] at hclosing
    rw [emptyFrame, array_foldl_take, List.nil_append, noted_nil, ContainerKind.build]
    simp only [dispatch, hclosing]
  | dictionary =>
    rw [ContainerKind.closing] at hclosing
    have hkind := kind_foldl_take (emptyFrame .dictionary frameOffset) items
    have hsettled := dictionary_foldl_take items [] [] frameOffset
    rw [List.nil_append] at hsettled
    rw [emptyFrame] at hkind ⊢
    generalize items.foldl take (.dictionary [] [] none frameOffset) = frame at hkind hsettled
    cases frame with
    | array values => cases hkind
    | dictionary values orphanValues pendingKey frameOffset' =>
      obtain ⟨warnings, hfinish⟩ := finishDictionary_eq hready.hasContext hsettled
      refine ⟨warnings, ?_⟩
      simp only [dispatch, hclosing, hfinish, bind, Except.bind, ContainerKind.build]

/-- A container inside another is an item of it. -/
theorem complete_inner (hready : Ready input p) (frame : LiveFrame) (stack : List LiveFrame)
    (value : ObjectValue) : ∃ warnings,
      p.complete (frame :: stack) value = .ok (frame.accept value :: stack, p.noted warnings, none) := by
  obtain ⟨warnings, hadd, -⟩ := addToTopFrame_noted (hready.receives frame stack) value
  refine ⟨warnings, ?_⟩
  rw [complete, hadd]
  · dsimp only [bind, Except.bind]
    rw [if_neg (by rw [noted, hready.giveUp]; exact Bool.false_ne_true)]
    rfl
  · simp

/-! ## Runs -/

/-- Some turns take the parser behind its next tokens. -/
def Reaches (input : Bytes) (p : LiveParser) (frames : List LiveFrame) (t' : Tokenizer)
    (frame' : LiveFrame) (stack : List LiveFrame) (bad : ℕ) : Prop :=
  ∃ n p' frames', Turns n p frames p' frames' ∧ Held p' frames' frame' stack ∧
    After input p t' bad p'

theorem After.trans (h : After input p t' bad q) (h' : After input q t'' bad' p') :
    After input p t'' (bad + bad') p' := by
  refine ⟨h'.ready, h'.tokens, ?_⟩
  have hfirst := h.badCount
  have hsecond := h'.badCount
  omega

theorem Reaches.of_turns {n : ℕ} {frames' : List LiveFrame}
    (hturns : Turns n p frames q frames') (hafter : After input p t' bad q)
    (h : Reaches input q frames' t'' frame' stack bad') :
    Reaches input p frames t'' frame' stack (bad + bad') := by
  obtain ⟨m, p', frames'', hrest, hheld, hafter'⟩ := h
  exact ⟨n + m, p', frames'', hturns.trans hrest, hheld, hafter.trans hafter'⟩

/-- The integers of a run. -/
def atomsOf (run : List PendingInteger) : List Atom := run.map fun i => .integer i.value

theorem group_integer {number : ℤ} {atoms : List Atom}
    (h : ∀ generation rest, atoms ≠ .integer generation :: .letterR :: rest) :
    group (.integer number :: atoms) = .other (.integer number) 0 :: group atoms := by
  rw [group, Atom.item]
  rintro number' generation rest - rfl
  exact h generation rest rfl

theorem group_cons {atom : Atom} {atoms : List Atom} (h : ∀ number, atom ≠ .integer number) :
    group (atom :: atoms) = atom.item :: group atoms := by
  rw [group]
  rintro number generation rest rfl
  exact absurd rfl (h number)

/-- Integers in front of another atom are items of their own. -/
theorem group_run {rest : List Atom} (hinteger : ∀ number, rest.head? ≠ some (.integer number))
    (hletter : rest.head? = some .letterR → run.length < 2) :
    group (atomsOf run ++ rest) = (atomsOf run).map Atom.item ++ group rest := by
  induction run with
  | nil => rfl
  | cons i run ih =>
    have hrest := ih fun hhead => Nat.lt_of_succ_lt (hletter hhead)
    rw [atomsOf, List.map_cons, List.cons_append, group_integer, ← atomsOf, hrest]
    · rfl
    · intro generation rest' heq
      cases run with
      | nil => exact hinteger generation (congrArg List.head? heq)
      | cons j run =>
        have htail := (List.cons.inj heq).2
        cases run with
        | nil =>
          have hlt := hletter (congrArg List.head? htail)
          exact absurd hlt (by simp)
        | cons k run => cases htail

/-- Of the integers in front of an `R` the last two are a reference. -/
theorem group_run_reference (init : List PendingInteger) (a b : PendingInteger)
    (atoms : List Atom) : group (atomsOf (init ++ [a, b]) ++ .letterR :: atoms) =
      (atomsOf init).map Atom.item ++ .reference a.value b.value :: group atoms := by
  induction init with
  | nil => rfl
  | cons i init ih =>
    rw [List.cons_append, atomsOf, List.map_cons, List.cons_append, group_integer, ← atomsOf, ih]
    · rfl
    · intro generation rest heq
      rcases init with _ | ⟨j, _ | ⟨k, init⟩⟩ <;> cases heq

theorem badTotal_run (run : List PendingInteger) (items : List Item) :
    badTotal ((atomsOf run).map Atom.item ++ items) = badTotal items := by
  induction run with
  | nil => rfl
  | cons i run ih =>
    rw [badTotal, badTotal] at ih ⊢
    rw [atomsOf, List.map_cons, List.map_cons, List.cons_append, List.map_cons, List.sum_cons,
      ← atomsOf, ih, Atom.item, Item.bad, Nat.zero_add]

theorem foldl_take_run (base : LiveFrame) (run : List PendingInteger) (items : List Item) :
    ((atomsOf run).map Atom.item ++ items).foldl take base =
      items.foldl take ((integers run).foldl accept base) := by
  induction run generalizing base with
  | nil => rfl
  | cons i run ih =>
    have htake : base.take (Atom.integer i.value).item = base.accept (.integer i.value) :=
      take_other base fun _ => nofun
    rw [atomsOf, List.map_cons, List.map_cons, List.cons_append, List.foldl_cons, ← atomsOf, ih,
      htake]
    rfl

theorem badTotal_cons (item : Item) (items : List Item) :
    badTotal (item :: items) = item.bad + badTotal items := by
  rw [badTotal, List.map_cons, List.sum_cons, badTotal]

/-- A run of two integers or more ends with two. -/
theorem exists_last_two (h : 2 ≤ run.length) : ∃ init a b, run = init ++ [a, b] := by
  rcases List.eq_nil_or_concat run with rfl | ⟨front, b, rfl⟩
  · cases h
  · rcases List.eq_nil_or_concat front with rfl | ⟨init, a, rfl⟩
    · simp at h
    · exact ⟨init, a, b, by simp⟩

/-- What a container's tokens do to the frames, behind the integers of a run. -/
def Takes (input : Bytes) (d : ℕ) (kind : ContainerKind) (tokens : List Token)
    (atoms : List Atom) : Prop :=
  ∀ (p : LiveParser) (frames : List LiveFrame) (base : LiveFrame) (stack : List LiveFrame)
    (run : List PendingInteger) (t' : Tokenizer), Ready input p →
    Pending p (base :: stack) run frames → base.kind = kind →
    stack.length + 1 + d ≤ maxParseDepth → Supplies p.tokens tokens t' →
    (∀ token ∈ tokens, Converts token) → (∀ item ∈ group (atomsOf run ++ atoms), item.Fits) →
    p.badCount + badTotal (group (atomsOf run ++ atoms)) ≤ 5 →
    Reaches input p frames t' ((group (atomsOf run ++ atoms)).foldl take base) stack
      (badTotal (group (atomsOf run ++ atoms)))

variable {d : ℕ} {atoms atoms' : List Atom} {kind' : ContainerKind}

theorem takes_nil : Takes input d kind [] [] := by
  intro p frames base stack run t' hready hpending _ _ hsupplies _ _ _
  cases hsupplies
  have hitems : group (atomsOf run ++ []) = (atomsOf run).map Atom.item ++ [] :=
    group_run (fun _ => nofun) nofun
  refine ⟨0, p, frames, turns_zero p frames, ⟨base, run, hpending, ?_⟩, hready, rfl, ?_⟩
  · rw [hitems, foldl_take_run]
    rfl
  · exact Nat.le_add_right _ _

/-- An integer joins the run. -/
theorem takes_integer (htype : token.tokenType = .integer) (hrest : Takes input d kind tokens atoms) :
    Takes input d kind (token :: tokens) (atomOf token :: atoms) := by
  intro p frames base stack run t' hready hpending hkind hdepth hsupplies hconverts hfits hbad
  rw [List.forall_mem_cons] at hconverts
  cases hsupplies with
  | cons hread hsupplies =>
    obtain ⟨i, q, frames', hvalue, hturn, hpending', hafter⟩ :=
      turn_integer hready hread hconverts.1 htype hpending
    have hatoms : atomsOf run ++ atomOf token :: atoms = atomsOf (run ++ [i]) ++ atoms := by
      simp only [atomsOf, atomOf, htype, List.map_append, List.map_cons, List.map_nil, hvalue,
        List.append_assoc, List.singleton_append]
    rw [hatoms] at hfits hbad ⊢
    rw [← hafter.tokens] at hsupplies
    have hcount := hafter.badCount
    have hgoes := hrest q frames' base stack (run ++ [i]) t' hafter.ready hpending' hkind hdepth
      hsupplies hconverts.2 hfits (by omega)
    have hreaches := hgoes.of_turns (turns_one hturn) hafter
    rwa [Nat.zero_add] at hreaches

/-- After an item the next ones are taken with no integer held back. -/
theorem Takes.resume {n : ℕ} {item : Item} {items : List Item} (hrest : Takes input d kind tokens atoms)
    (hitems : items = (atomsOf run).map Atom.item ++ item :: group atoms)
    (hturns : Turns n p frames q (((integers run).foldl accept base).take item :: stack))
    (hcount : q.integerCount = 0) (hafter : After input p t' item.bad q)
    (hkind : base.kind = kind) (hdepth : stack.length + 1 + d ≤ maxParseDepth)
    (hsupplies : Supplies t' tokens t'') (hconverts : ∀ token ∈ tokens, Converts token)
    (hfits : ∀ item ∈ items, item.Fits) (hbad : p.badCount + badTotal items ≤ 5) :
    Reaches input p frames t'' (items.foldl take base) stack (badTotal items) := by
  subst hitems
  rw [badTotal_run, badTotal_cons] at hbad ⊢
  rw [foldl_take_run, List.foldl_cons]
  have hkind' : (((integers run).foldl accept base).take item).kind = kind := by
    rw [kind_take, kind_foldl_accept, hkind]
  have hfits' : ∀ item ∈ group atoms, item.Fits := fun item hitem =>
    hfits item (List.mem_append_right _ (List.mem_cons_of_mem _ hitem))
  have hbad' : q.badCount + badTotal (group atoms) ≤ 5 := by
    have hbadCount := hafter.badCount
    omega
  rw [← hafter.tokens] at hsupplies
  exact (hrest q _ _ stack [] t'' hafter.ready (.empty hcount) hkind' hdepth hsupplies hconverts
    hfits' hbad').of_turns hturns hafter

/-- A token that is neither an integer nor the end of a reference is an item. -/
theorem turn_inside (hinside : Inside kind token) (hready : Ready input p)
    (hread : p.tokens.readQpdfToken 0 = (.ok token, t')) (htype : token.tokenType ≠ .integer)
    (hword : token.isWordValue (ascii "R") = true → run.length < 2)
    (hpending : Pending p (base :: stack) run frames) (hkind : base.kind = kind)
    (hbad : p.badCount + (atomOf token).item.bad ≤ 5) :
    ∃ q, p.remainderTurn frames =
        .ok (((integers run).foldl accept base).take (atomOf token).item :: stack, q, none) ∧
      q.integerCount = 0 ∧ After input p t' (atomOf token).item.bad q := by
  obtain ⟨q, hturn, hcount, hafter⟩ := turn_other hready hread htype hword hpending
  have hbad' : q.badCount + (atomOf token).item.bad ≤ 5 := by
    have hbadCount := hafter.badCount
    omega
  have hkind' : ((integers run).foldl accept base).kind = kind := by
    rw [kind_foldl_accept, hkind]
  obtain ⟨p', hdispatch, hsuffers⟩ := dispatch_inside stack hinside hkind' hafter.ready hbad'
  have hafter' := hafter.suffers hsuffers
  rw [Nat.zero_add] at hafter'
  exact ⟨p', hturn.trans hdispatch, hsuffers.integerCount.trans hcount, hafter'⟩

/-- The atom of an `R`. -/
theorem atomOf_eq_letterR : atomOf token = .letterR ↔ token.isWordValue (ascii "R") = true := by
  cases htype : token.tokenType <;> simp [atomOf, Token.isWordValue, htype]

/-- Only integer tokens are integers. -/
theorem type_of_integer {number : ℤ} (h : atomOf token = .integer number) :
    token.tokenType = .integer := by
  cases htype : token.tokenType with
  | integer => rfl
  | word =>
    simp only [atomOf, htype] at h
    split_ifs at h
  | _ =>
    simp only [atomOf, htype] at h
    cases h

theorem takes_token (hinside : Inside kind token) (hrest : Takes input d kind tokens atoms) :
    Takes input d kind (token :: tokens) (atomOf token :: atoms) := by
  by_cases htype : token.tokenType = .integer
  · exact takes_integer htype hrest
  intro p frames base stack run t'' hready hpending hkind hdepth hsupplies hconverts hfits hbad
  have hconverts' := (List.forall_mem_cons.mp hconverts).2
  cases hsupplies with
  | @cons _ t' _ _ _ hread hsupplies =>
    by_cases hreference : token.isWordValue (ascii "R") = true ∧ 2 ≤ run.length
    · obtain ⟨hletter, htwo⟩ := hreference
      obtain ⟨init, a, b, rfl⟩ := exists_last_two htwo
      have hitems := group_run_reference init a b atoms
      rw [← atomOf_eq_letterR.mpr hletter] at hitems
      obtain ⟨ha, hb⟩ : FitsInt a.value ∧ FitsInt b.value :=
        hfits (.reference a.value b.value) (by rw [hitems]; simp)
      obtain ⟨q, hturn, hcount, hafter⟩ := turn_reference hready hread hletter hpending ha hb
      have htake : ((integers init).foldl accept base).take (.reference a.value b.value) =
          ((integers init).foldl accept base).accept (reference a.value b.value) :=
        take_other _ fun _ => nofun
      rw [← htake] at hturn
      exact hrest.resume hitems (turns_one hturn) hcount hafter hkind hdepth hsupplies hconverts'
        hfits hbad
    · have hword : token.isWordValue (ascii "R") = true → run.length < 2 := fun hletter =>
        not_le.mp fun htwo => hreference ⟨hletter, htwo⟩
      have hitems : group (atomsOf run ++ atomOf token :: atoms) =
          (atomsOf run).map Atom.item ++ (atomOf token).item :: group atoms := by
        rw [group_run, group_cons]
        · intro number hatom
          exact htype (type_of_integer hatom)
        · intro number hhead
          exact htype (type_of_integer (Option.some.inj hhead))
        · intro hhead
          exact hword (atomOf_eq_letterR.mp (Option.some.inj hhead))
      have hbad' : p.badCount + (atomOf token).item.bad ≤ 5 := by
        rw [hitems, badTotal_run, badTotal_cons] at hbad
        omega
      obtain ⟨q, hturn, hcount, hafter⟩ :=
        turn_inside hinside hready hread htype hword hpending hkind hbad'
      exact hrest.resume hitems (turns_one hturn) hcount hafter hkind hdepth hsupplies hconverts'
        hfits hbad

/-- A supply of more tokens goes on behind some of them. -/
theorem Supplies.split {tokens' : List Token} (h : Supplies t (tokens ++ tokens') t'') :
    ∃ t', Supplies t tokens t' ∧ Supplies t' tokens' t'' := by
  induction tokens generalizing t with
  | nil => exact ⟨t, .nil, h⟩
  | cons token tokens ih =>
    cases h with
    | cons hread hrest =>
      obtain ⟨t', htokens, htokens'⟩ := ih hrest
      exact ⟨t', .cons hread htokens, htokens'⟩

/-- The tokens of a container behind its opening, up to where the closing is dispatched. -/
theorem Takes.closes {closing : Token} (stack : List LiveFrame)
    (hinner : Takes input d kind tokens atoms)
    (hready : Ready input p) (hcount : p.integerCount = 0) (frameOffset : ℕ)
    (hdepth : stack.length + 1 + d ≤ maxParseDepth)
    (hsupplies : Supplies p.tokens (tokens ++ [closing]) t')
    (hconverts : ∀ token ∈ tokens, Converts token) (hclosing : closing.tokenType = kind.closing)
    (hfits : ∀ item ∈ group atoms, item.Fits) (hbad : p.badCount + badTotal (group atoms) ≤ 5) :
    ∃ n p' frames' q, Turns n p (emptyFrame kind frameOffset :: stack) p' frames' ∧
      p'.remainderTurn frames' = q.complete stack (kind.build (group atoms)) ∧
      q.integerCount = 0 ∧ After input p t' (badTotal (group atoms)) q := by
  obtain ⟨tmid, hsupplies, hlast⟩ := hsupplies.split
  obtain ⟨n, p', frames', hturns, ⟨base, run, hpending, hframe⟩, hafter⟩ :=
    hinner p _ _ stack [] tmid hready (.empty hcount) (kind_emptyFrame kind frameOffset) hdepth
      hsupplies hconverts hfits hbad
  cases hlast with
  | cons hread hnil =>
    cases hnil
    have htype : closing.tokenType ≠ .integer := by
      rw [hclosing]
      cases kind <;> exact nofun
    have hword : closing.isWordValue (ascii "R") = true → run.length < 2 := by
      intro hletter
      rw [Token.isWordValue, hclosing] at hletter
      cases kind <;> simp [ContainerKind.closing] at hletter
    rw [← hafter.tokens] at hread
    obtain ⟨q, hturn, hcount', hafter'⟩ := turn_other hafter.ready hread htype hword hpending
    rw [hframe] at hturn
    obtain ⟨warnings, hdispatch⟩ :=
      dispatch_closing hafter'.ready hclosing frameOffset (group atoms) stack
    have hall := (hafter.trans hafter').suffers (suffers_noted q warnings)
    exact ⟨n, p', frames', q.noted warnings, hturns, hturn.trans hdispatch, hcount', hall⟩

/-- A container is an item of the one around it. -/
theorem takes_container {opening closing : Token} {inner : List Token}
    (hopening : opening.tokenType = kind'.opening) (hinner : Takes input d kind' inner atoms')
    (hfitsInner : ∀ item ∈ group atoms', item.Fits) (hclosing : closing.tokenType = kind'.closing)
    (hrest : Takes input (d + 1) kind tokens atoms) :
    Takes input (d + 1) kind (opening :: (inner ++ closing :: tokens))
      (.other (kind'.build (group atoms')) (badTotal (group atoms')) :: atoms) := by
  intro p frames base stack run t'' hready hpending hkind hdepth hsupplies hconverts hfits hbad
  have hitems : group (atomsOf run ++
      .other (kind'.build (group atoms')) (badTotal (group atoms')) :: atoms) =
        (atomsOf run).map Atom.item ++
          .other (kind'.build (group atoms')) (badTotal (group atoms')) :: group atoms := by
    rw [group_run, group_cons, Atom.item]
    · simp
    · simp
    · simp
  have hbadInner : p.badCount + badTotal (group atoms') ≤ 5 := by
    rw [hitems, badTotal_run, badTotal_cons, Item.bad] at hbad
    omega
  have htokens : opening :: (inner ++ closing :: tokens) =
      [opening] ++ (inner ++ [closing] ++ tokens) := by
    simp
  rw [htokens] at hsupplies hconverts
  have hconvertsInner : ∀ token ∈ inner, Converts token := fun token hmem =>
    hconverts token (by simp [hmem])
  have hconvertsRest : ∀ token ∈ tokens, Converts token := fun token hmem =>
    hconverts token (by simp [hmem])
  obtain ⟨topen, hfirst, hsupplies⟩ := hsupplies.split
  obtain ⟨tclose, hsupplies, hlast⟩ := hsupplies.split
  cases hfirst with
  | cons hread hnil =>
    cases hnil
    have htype : opening.tokenType ≠ .integer := by
      rw [hopening]
      cases kind' <;> decide
    have hword : opening.isWordValue (ascii "R") = true → run.length < 2 := by
      intro hletter
      rw [Token.isWordValue, hopening] at hletter
      cases kind' <;> simp [ContainerKind.opening] at hletter
    obtain ⟨q, hturn, hcount, hafter⟩ := turn_other hready hread htype hword hpending
    have hpush := dispatch_opening ((integers run).foldl accept base :: stack) hafter.ready hopening
      (by rw [List.length_cons]; omega)
    rw [hpush] at hturn
    rw [← hafter.tokens] at hsupplies
    have hbadCount := hafter.badCount
    obtain ⟨n, p', frames', q', hturns, hend, hcount', hafter'⟩ :=
      hinner.closes ((integers run).foldl accept base :: stack) hafter.ready hcount
        opening.endPos (by rw [List.length_cons]; omega) hsupplies hconvertsInner hclosing hfitsInner
        (by omega)
    obtain ⟨warnings, hcomplete⟩ := complete_inner hafter'.ready
      ((integers run).foldl accept base) stack (kind'.build (group atoms'))
    rw [hcomplete] at hend
    have htake : ((integers run).foldl accept base).take
        (.other (kind'.build (group atoms')) (badTotal (group atoms'))) =
          ((integers run).foldl accept base).accept (kind'.build (group atoms')) :=
      take_other _ (by simp)
    rw [← htake] at hend
    have hall := (hafter.trans hafter').suffers (suffers_noted q' warnings)
    rw [Nat.zero_add, Nat.add_zero] at hall
    exact hrest.resume hitems (((turns_one hturn).trans hturns).trans (turns_one hend)) hcount' hall
      hkind hdepth hlast hconvertsRest hfits hbad

/-- The parser takes the items of a container as the grammar has them. -/
theorem takes_of_content (input : Bytes) (hcontent : Content d kind tokens atoms) :
    Takes input d kind tokens atoms := by
  induction hcontent with
  | nil => exact takes_nil
  | token hinside hrest ih => exact takes_token hinside ih
  | container hopening hinner hfits hclosing hrest ihinner ihrest =>
    exact takes_container hopening ihinner hfits hclosing ihrest

/-! ## Whole containers -/

/-- More fuel changes nothing. -/
theorem parseRemainder_more {fuel : ℕ} {outcome : Except ParseError (ObjectValue × LiveParser)}
    (more : ℕ) (h : parseRemainder fuel p frames = some outcome) :
    parseRemainder (fuel + more) p frames = some outcome := by
  induction fuel generalizing p frames with
  | zero => cases h
  | succ fuel ih =>
    rw [Nat.succ_add]
    rw [parseRemainder] at h ⊢
    rcases hturn : p.remainderTurn frames with e | ⟨frames', q, _ | value⟩
    · rw [hturn] at h
      exact h
    · rw [hturn] at h
      exact ih h
    · rw [hturn] at h
      exact h

/-- The loop ends where its turns lead to an end. -/
theorem parseRemainder_ends {n fuel : ℕ} {frames' frames'' : List LiveFrame} {value : ObjectValue}
    (hrunning : Running input p frames) (hturns : Turns n p frames p' frames')
    (hend : p'.remainderTurn frames' = .ok (frames'', q, some value)) (hfuel : input.length < fuel) :
    parseRemainder fuel p frames = some (.ok (value, q)) := by
  have hroom : input.length - p.tokens.pos < fuel := by omega
  obtain ⟨outcome, houtcome, -⟩ := remainder_total false hrunning hroom
  rw [remainder_file, Option.map_eq_some_iff] at houtcome
  obtain ⟨result, hresult, -⟩ := houtcome
  have hreached : parseRemainder (fuel + 1 + n) p frames = some (.ok (value, q)) := by
    rw [hturns, parseRemainder, hend]
  have hmore := parseRemainder_more (1 + n) hresult
  rw [← Nat.add_assoc, hreached] at hmore
  rw [hresult, hmore]

/-- A parser at the beginning of an object. -/
structure Begins (p : LiveParser) : Prop where
  ready : Ready p.tokens.input p
  integerCount : p.integerCount = 0
  badCount : p.badCount = 0

end LiveParser

open LiveParser

/-- The keys that are made up are different, no other value has them, and each value is
found under its key. -/
structure WellKeyed (items : List Item) : Prop where
  length : (fakeNames items).length = (keyless items).length
  nodup : (fakeNames items).Nodup
  fresh : ∀ key ∈ fakeNames items,
    (∃ n, key = fakeName n) ∧ key ∉ (keyed items).map Prod.fst
  ascending : Ascending (dictionaryOf items)
  lookup : ∀ key, (dictionaryOf items).lookup key =
    (keyed items ++ (fakeNames items).zip (keyless items)).reverse.lookup key

theorem wellKeyed (items : List Item) : WellKeyed items :=
  ⟨length_fakeNames items, nodup_fakeNames items, fun _ h => fakeNames_fresh items h,
    ascending_dictionaryOf items, lookup_dictionaryOf items⟩

/-- A container is read as the grammar has it, up to its end. -/
theorem LiveParser.parseBody_grammar {p : LiveParser} {kind : ContainerKind} {opening closing : Token}
    {inner : List Token} {atoms : List Atom} {t' : Tokenizer} (hbegins : Begins p)
    (hsupplies : Supplies p.tokens (opening :: (inner ++ [closing])) t')
    (hopening : opening.tokenType = kind.opening)
    (hcontent : Content (maxParseDepth - 1) kind inner atoms)
    (hclosing : closing.tokenType = kind.closing) (hconverts : ∀ token ∈ inner, Converts token)
    (hfits : ∀ item ∈ group atoms, item.Fits) (hbad : badTotal (group atoms) ≤ 5) :
    (∃ q, p.parseBody = some (.ok (kind.build (group atoms), q)) ∧ q.tokens = t') ∧
      ∀ items, WellKeyed items := by
  refine ⟨?_, wellKeyed⟩
  cases hsupplies with
  | @cons _ topen _ _ _ hread hsupplies =>
    have htype : opening.tokenType ≠ .integer := by
      rw [hopening]
      cases kind <;> exact nofun
    obtain ⟨warnings, hnext, hready⟩ :=
      hbegins.ready.nextToken hread fun hinteger => absurd hinteger htype
    have hready' := hready.noted warnings
    have hpush := pushFrame_opening (({ p with
      tokens := topen, lastOffset := opening.start } : LiveParser).noted warnings) [] hopening
      (by decide)
    have hbody : p.parseBody = parseRemainder (topen.input.length + 2)
        (({ p with tokens := topen, lastOffset := opening.start } : LiveParser).noted warnings)
        [emptyFrame kind opening.endPos] := by
      rw [parseBody, hnext]
      dsimp only
      rw [if_neg, if_pos, hpush]
      · rfl
      · rw [hopening]
        cases kind
        · exact .inl rfl
        · exact .inr rfl
      · rw [Token.isWordValue, hopening]
        cases kind <;> simp [ContainerKind.opening]
    have htakes := takes_of_content p.tokens.input hcontent
    obtain ⟨n, p', frames', q, hturns, hend, -, hafter⟩ :=
      htakes.closes [] hready' hbegins.integerCount opening.endPos (by decide) hsupplies
        hconverts hclosing hfits (by
          have hzero := hbegins.badCount
          rw [noted]
          dsimp only
          omega)
    have hrunning : Running p.tokens.input
        (({ p with tokens := topen, lastOffset := opening.start } : LiveParser).noted warnings)
        [emptyFrame kind opening.endPos] :=
      ⟨List.cons_ne_nil _ _, show 1 ≤ maxParseDepth by decide, .of_zero hbegins.integerCount,
        hready'.stands⟩
    refine ⟨q, ?_, hafter.tokens⟩
    rw [hbody]
    apply parseRemainder_ends hrunning hturns hend
    rw [← hready.stands.same]
    exact Nat.lt_add_of_pos_right (by decide)

theorem begins_start (text : Bytes) : Begins (start text true) :=
  ⟨⟨stands_start text true, rfl, rfl, rfl⟩, rfl, rfl⟩

theorem LiveParser.parseBody_grammar_array : ∃ q, (start (ascii "[7 1 0 R]") true).parseBody =
    some (.ok (.array [.integer 7, .indirect ⟨1, 0⟩], q)) := by
  have hsupplies : Supplies (start (ascii "[7 1 0 R]") true).tokens
      (spelledToken 0 .arrayOpen [0x5b] [0x5b] ::
        ([spelledToken 1 .integer [0x37] [0x37], spelledToken 3 .integer [0x31] [0x31],
          spelledToken 5 .integer [0x30] [0x30], spelledToken 7 .word [0x52] [0x52]] ++
        [spelledToken 8 .arrayClose [0x5d] [0x5d]])) _ :=
    supplies_takeTokens (n := 6) (by decide)
  obtain ⟨⟨q, hbody, -⟩, -⟩ := parseBody_grammar (begins_start _) hsupplies
    (show _ = ContainerKind.array.opening from rfl) (content_of_inside (by decide)) rfl (by decide)
    (by decide) (by decide)
  exact ⟨q, hbody⟩

/-- The text is an array without a bad token, and still there is no value. -/
def Refused (text : Bytes) : Prop :=
  ∃ opening inner closing t', Supplies (start text true).tokens (opening :: (inner ++ [closing])) t' ∧
    opening.tokenType = .arrayOpen ∧ Content (maxParseDepth - 1) .array inner (inner.map atomOf) ∧
    closing.tokenType = .arrayClose ∧ badTotal (group (inner.map atomOf)) = 0 ∧
    ∃ e, (start text true).parseBody = some (.error e)

/-- A reference with a number of more than 32 bits and an integer of more than 64 bits. -/
theorem LiveParser.numbers_refused :
    Refused (ascii "[3000000000 0 R]") ∧ Refused (ascii "[9223372036854775808]") := by
  constructor
  · refine ⟨spelledToken 0 .arrayOpen [0x5b] [0x5b],
      [spelledToken 1 .integer (ascii "3000000000") (ascii "3000000000"),
        spelledToken 12 .integer [0x30] [0x30], spelledToken 14 .word [0x52] [0x52]],
      spelledToken 15 .arrayClose [0x5d] [0x5d], _,
      supplies_takeTokens (n := 5) (by decide), rfl, content_of_inside (by decide), rfl,
      by decide, _, rfl⟩
  · refine ⟨spelledToken 0 .arrayOpen [0x5b] [0x5b],
      [spelledToken 1 .integer (ascii "9223372036854775808") (ascii "9223372036854775808")],
      spelledToken 20 .arrayClose [0x5d] [0x5d], _,
      supplies_takeTokens (n := 3) (by decide), rfl, content_of_inside (by decide), rfl,
      by decide, _, rfl⟩

end Flpdf
