import Flpdf.Parser.Totality
import Flpdf.Tokenizer.Windows

/-!
# Objects of a window

Behind its tokens the parser does not look at its input.  A parse whose last token ends in front
of the end of a window is therefore the parse of every input that begins with the window.
-/

namespace Flpdf

open Tokenizer

/-- A computation on changed values goes on as the one on the values, changed at its end. -/
theorem map_bind_comm {ε α β γ δ : Type} {f : α → β} {f' : γ → δ} {x : Except ε α}
    {y : Except ε β} {g : α → Except ε γ} {g' : β → Except ε δ} (h : y = x.map f)
    (hnext : ∀ a, g' (f a) = (g a).map f') : (y >>= g') = (x >>= g).map f' := by
  rw [h]
  cases x with
  | error e => rfl
  | ok a => exact hnext a

namespace LiveParser

variable {p q : LiveParser} {frames : List LiveFrame} {token : Token} {window : Bytes}

/-! ## Another tokenizer -/

/-- The parser with another tokenizer. -/
def withTokens (k : Tokenizer) (p : LiveParser) : LiveParser := { p with tokens := k }

variable (k : Tokenizer)

def valueWithTokens {α : Type} (r : α × LiveParser) : α × LiveParser := (r.1, r.2.withTokens k)

def turnWithTokens (r : List LiveFrame × LiveParser × Option ObjectValue) :
    List LiveFrame × LiveParser × Option ObjectValue := (r.1, r.2.1.withTokens k, r.2.2)

theorem warn_withTokens (p : LiveParser) (offset : ℕ) (message : Bytes) :
    (p.withTokens k).warn offset message = (p.warn offset message).map (withTokens k) := by
  rw [warn, warn]
  change (if p.hasContext then _ else _) = _
  split_ifs <;> rfl

theorem tooManyBadTokens_withTokens (p : LiveParser) (offset : ℕ) :
    (p.withTokens k).tooManyBadTokens offset = (p.tooManyBadTokens offset).map (withTokens k) := by
  rw [tooManyBadTokens, tooManyBadTokens]
  change (if p.goodCount ≤ 4 then if p.badCount + 1 > 5 then _ else _ else _) =
    Except.map _ (if p.goodCount ≤ 4 then if p.badCount + 1 > 5 then _ else _ else _)
  split_ifs
  · exact map_bind_comm (warn_withTokens k { p with badCount := p.badCount + 1 } _ _) fun _ => rfl
  · rfl
  · rfl

theorem unexpected_withTokens (p : LiveParser) (offset : ℕ) (message : Bytes) :
    (p.withTokens k).unexpected offset message =
      (p.unexpected offset message).map (valueWithTokens k) := by
  refine map_bind_comm (warn_withTokens k p _ _) fun q => ?_
  exact map_bind_comm (tooManyBadTokens_withTokens k q _) fun _ => rfl

theorem parseScalarToken_withTokens (p : LiveParser) (token : Token) :
    (p.withTokens k).parseScalarToken token =
      (p.parseScalarToken token).map (valueWithTokens k) := by
  rw [parseScalarToken.eq_def, parseScalarToken.eq_def]
  cases token.tokenType with
  | integer | name | string | bool | null | real | dictOpen | arrayOpen => rfl
  | word =>
    refine map_bind_comm (warn_withTokens k p _ _) fun q => ?_
    exact map_bind_comm (tooManyBadTokens_withTokens k q _) fun _ => rfl
  | bad => exact map_bind_comm (tooManyBadTokens_withTokens k p _) fun _ => rfl
  | eof => exact map_bind_comm (warn_withTokens k p _ _) fun _ => rfl
  | braceOpen | braceClose | arrayClose | dictClose | space | comment | inlineImage =>
    exact unexpected_withTokens k p _ _

theorem insertDictionaryValue_withTokens (p : LiveParser) (values : List (Bytes × ObjectValue))
    (key : Bytes) (value : ObjectValue) (offset : ℕ) :
    (p.withTokens k).insertDictionaryValue values key value offset =
      (p.insertDictionaryValue values key value offset).map (valueWithTokens k) := by
  rw [insertDictionaryValue, insertDictionaryValue]
  split_ifs
  · exact map_bind_comm (warn_withTokens k p _ _) fun _ => rfl
  · rfl

theorem addToFrame_withTokens (p : LiveParser) (frame : LiveFrame) (value : ObjectValue) :
    (p.withTokens k).addToFrame frame value =
      (p.addToFrame frame value).map (valueWithTokens k) := by
  rcases frame with values | ⟨values, orphanValues, _ | key, frameOffset⟩
  · rfl
  · rfl
  · exact map_bind_comm (insertDictionaryValue_withTokens k p values key value frameOffset)
      fun _ => rfl

theorem addToTopFrame_withTokens (p : LiveParser) (frames : List LiveFrame)
    (value : ObjectValue) : (p.withTokens k).addToTopFrame frames value =
      (p.addToTopFrame frames value).map (valueWithTokens k) := by
  cases frames with
  | nil => rfl
  | cons frame frames => exact map_bind_comm (addToFrame_withTokens k p frame value) fun _ => rfl

theorem pushFrame_withTokens (p : LiveParser) (frames : List LiveFrame) (token : Token) :
    (p.withTokens k).pushFrame frames token =
      (p.pushFrame frames token).map (valueWithTokens k) := by
  rw [pushFrame, pushFrame]
  split_ifs
  · exact map_bind_comm (warn_withTokens k p _ _) fun _ => rfl
  · rfl
  · rfl

theorem insertOrphans_withTokens (orphanNames : List Bytes) (frameOffset : ℕ)
    (orphanValues : List ObjectValue) (fake : ℕ) (values : List (Bytes × ObjectValue))
    (p : LiveParser) :
    insertOrphans orphanNames frameOffset orphanValues fake values (p.withTokens k) =
      (insertOrphans orphanNames frameOffset orphanValues fake values p).map
        (valueWithTokens k) := by
  induction orphanValues generalizing fake values p with
  | nil => rfl
  | cons value orphanValues ih =>
    rw [insertOrphans, insertOrphans]
    exact map_bind_comm (warn_withTokens k p _ _) fun q => ih _ _ q

theorem finishDictionary_withTokens (p : LiveParser) (values : List (Bytes × ObjectValue))
    (orphanValues : List ObjectValue) (pendingKey : Option Bytes) (frameOffset : ℕ) :
    (p.withTokens k).finishDictionary values orphanValues pendingKey frameOffset =
      (p.finishDictionary values orphanValues pendingKey frameOffset).map
        (valueWithTokens k) := by
  rw [finishDictionary.eq_def, finishDictionary.eq_def]
  refine map_bind_comm (f := valueWithTokens k) ?_ fun r => ?_
  · cases pendingKey with
    | some key => exact map_bind_comm (warn_withTokens k p _ _) fun _ => rfl
    | none => rfl
  · exact map_bind_comm (insertOrphans_withTokens k _ frameOffset orphanValues 1 r.1 r.2)
      fun _ => rfl

/-! ## Integers -/

theorem setInteger_withTokens (p : LiveParser) (count : ℕ) (integer : Option PendingInteger) :
    (p.withTokens k).setInteger count integer = (p.setInteger count integer).withTokens k := by
  rw [setInteger, setInteger]
  split_ifs <;> rfl

theorem takeInteger_withTokens (p : LiveParser) (count : ℕ) :
    (p.withTokens k).takeInteger count = (p.takeInteger count).map (valueWithTokens k) := by
  rw [takeInteger, takeInteger, show (p.withTokens k).integerAt count = p.integerAt count from rfl]
  cases p.integerAt count with
  | none => rfl
  | some integer =>
    exact congrArg (fun q => Except.ok (integer, q)) (setInteger_withTokens k p count none)

theorem bufferInteger_withTokens (p : LiveParser) (integer : PendingInteger)
    (frames : List LiveFrame) : (p.withTokens k).bufferInteger integer frames =
      (p.bufferInteger integer frames).map (valueWithTokens k) := by
  have hcounted := setInteger_withTokens k { p with integerCount := p.integerCount + 1 }
  rw [bufferInteger, bufferInteger]
  change (if p.integerCount + 1 > 2 then _ else _) = _
  split_ifs
  · refine map_bind_comm
      (takeInteger_withTokens k { p with integerCount := p.integerCount + 1 } _) fun r => ?_
    refine map_bind_comm (addToTopFrame_withTokens k r.2 frames _) fun r' => ?_
    exact congrArg (fun q => Except.ok (r'.1, q))
      (setInteger_withTokens k r'.2 (p.integerCount + 1) (some integer))
  · exact congrArg (fun q => Except.ok (frames, q)) (hcounted (p.integerCount + 1) (some integer))

theorem flushIntegerBuffer_withTokens (p : LiveParser) (frames : List LiveFrame) :
    (p.withTokens k).flushIntegerBuffer frames =
      (p.flushIntegerBuffer frames).map (valueWithTokens k) := by
  rw [flushIntegerBuffer, flushIntegerBuffer,
    show (p.withTokens k).integerCount = p.integerCount from rfl]
  split_ifs
  · rfl
  · refine map_bind_comm (takeInteger_withTokens k p 1) fun r => ?_
    exact map_bind_comm (addToTopFrame_withTokens k r.2 frames _) fun _ => rfl
  · refine map_bind_comm (takeInteger_withTokens k p _) fun first => ?_
    refine map_bind_comm (takeInteger_withTokens k first.2 _) fun second => ?_
    refine map_bind_comm (addToTopFrame_withTokens k second.2 frames _) fun r => ?_
    exact map_bind_comm (addToTopFrame_withTokens k r.2 r.1 _) fun _ => rfl

theorem finishIntegerReference_withTokens (p : LiveParser) (frames : List LiveFrame) :
    (p.withTokens k).finishIntegerReference frames =
      (p.finishIntegerReference frames).map (valueWithTokens k) := by
  rw [finishIntegerReference, finishIntegerReference,
    show (p.withTokens k).integerCount = p.integerCount from rfl]
  refine map_bind_comm (takeInteger_withTokens k p _) fun first => ?_
  refine map_bind_comm (takeInteger_withTokens k first.2 _) fun second => ?_
  change (if second.2.hasContext then _ else _) =
    Except.map _ (if second.2.hasContext then _ else _)
  split_ifs
  · cases qpdfInt first.1 with
    | error e => rfl
    | ok number =>
      cases qpdfInt second.1 with
      | error e => rfl
      | ok generation =>
        exact addToTopFrame_withTokens k { second.2 with integerCount := 0 } frames _
  · rfl

/-! ## Turns -/

theorem complete_withTokens (p : LiveParser) (frames : List LiveFrame) (value : ObjectValue) :
    (p.withTokens k).complete frames value =
      (p.complete frames value).map (turnWithTokens k) := by
  cases frames with
  | nil => rfl
  | cons frame frames =>
    exact map_bind_comm (addToTopFrame_withTokens k p (frame :: frames) value) fun _ => rfl

theorem addScalar_withTokens (p : LiveParser) (frames : List LiveFrame) (token : Token) :
    (p.withTokens k).addScalar frames token =
      (p.addScalar frames token).map (turnWithTokens k) := by
  rw [addScalar, addScalar]
  refine map_bind_comm (parseScalarToken_withTokens k p token) fun r => ?_
  change (if r.2.giveUp then _ else _) = Except.map _ (if r.2.giveUp then _ else _)
  split_ifs
  · rfl
  · exact map_bind_comm (addToTopFrame_withTokens k r.2 frames r.1) fun _ => rfl

theorem dispatch_withTokens (p : LiveParser) (frames : List LiveFrame) (token : Token) :
    (p.withTokens k).dispatch frames token =
      (p.dispatch frames token).map (turnWithTokens k) := by
  have hscalar := addScalar_withTokens k p frames token
  rw [dispatch.eq_def, dispatch.eq_def]
  cases token.tokenType with
  | arrayOpen | dictOpen =>
    refine map_bind_comm (pushFrame_withTokens k p frames token) ?_
    rintro ⟨_ | frames', q⟩ <;> rfl
  | arrayClose =>
    rcases frames with _ | ⟨values | ⟨values, orphanValues, pendingKey, frameOffset⟩, frames⟩
    · exact hscalar
    · exact complete_withTokens k p frames _
    · exact hscalar
  | dictClose =>
    rcases frames with _ | ⟨values | ⟨values, orphanValues, pendingKey, frameOffset⟩, frames⟩
    · exact hscalar
    · exact hscalar
    · exact map_bind_comm (finishDictionary_withTokens k p values orphanValues pendingKey
        frameOffset) fun r => complete_withTokens k r.2 frames r.1
  | name =>
    rcases frames with _ | ⟨values | ⟨values, orphanValues, _ | key, frameOffset⟩, frames⟩
    · exact hscalar
    · exact hscalar
    · rfl
    · exact hscalar
  | eof =>
    refine map_bind_comm (warn_withTokens k p _ _) fun q => ?_
    exact map_bind_comm (warn_withTokens k q _ _) fun _ => rfl
  | _ => exact hscalar

theorem remainderToken_withTokens (p : LiveParser) (frames : List LiveFrame) (token : Token) :
    (p.withTokens k).remainderToken frames token =
      (p.remainderToken frames token).map (turnWithTokens k) := by
  rw [remainderToken, remainderToken, show (p.withTokens k).integerCount = p.integerCount from rfl]
  split_ifs
  · rw [bufferInteger_withTokens]
    cases p.bufferInteger ⟨intValue token.raw, token.start⟩ frames <;> rfl
  · rw [finishIntegerReference_withTokens]
    cases p.finishIntegerReference frames <;> rfl
  · exact map_bind_comm (flushIntegerBuffer_withTokens k p frames) fun r =>
      dispatch_withTokens k r.2 r.1 token

/-! ## Tokens of a window -/

/-- What `next_token` does with a token that was read. -/
def tokenRead (p : LiveParser) (token : Token) : Except ParseError (Token × LiveParser) := do
  let p := { p with lastOffset := token.start }
  if token.isInteger then
    let _ ← parseIntegerBytes token.raw token.start
  match token.errorMessage with
  | some message =>
    let p ← p.warn token.start message
    return (token, p)
  | none => return (token, p)

theorem nextToken_eq {t : Tokenizer} (hread : p.tokens.readQpdfToken 0 = (.ok token, t)) :
    p.nextToken = (p.withTokens t).tokenRead token := by
  rw [nextToken, nextLiveToken, hread, tokenRead]
  dsimp only
  split_ifs with hinteger
  · cases parseIntegerBytes token.raw token.start <;> rfl
  · rfl

theorem tokenRead_withTokens (p : LiveParser) (token : Token) :
    (p.withTokens k).tokenRead token = (p.tokenRead token).map (valueWithTokens k) := by
  have hrest : (match token.errorMessage with
      | some message => do
        let p ← (({ p with lastOffset := token.start } : LiveParser).withTokens k).warn token.start
          message
        pure (token, p)
      | none => pure (token, ({ p with lastOffset := token.start } : LiveParser).withTokens k) :
        Except ParseError (Token × LiveParser)) =
      (match token.errorMessage with
      | some message => do
        let p ← ({ p with lastOffset := token.start } : LiveParser).warn token.start message
        pure (token, p)
      | none => pure (token, ({ p with lastOffset := token.start } : LiveParser)) :
        Except ParseError (Token × LiveParser)).map (valueWithTokens k) := by
    cases token.errorMessage with
    | none => rfl
    | some message => exact map_bind_comm (warn_withTokens k _ _ _) fun _ => rfl
  rw [tokenRead, tokenRead]
  dsimp only
  split_ifs
  · cases parseIntegerBytes token.raw token.start with
    | error e => rfl
    | ok _ => exact hrest
  · exact hrest

/-- The parser with its tokenizer on another input. -/
def onInput (input : Bytes) (p : LiveParser) : LiveParser :=
  p.withTokens (p.tokens.onInput input)

theorem tokens_of_map {α : Type} {x : Except ParseError α} {f : Tokenizer → α → α}
    (tokens : α → Tokenizer) {a : α} (hf : ∀ k a, tokens (f k a) = k)
    (hself : x = x.map (f k)) (hx : x = .ok a) : tokens a = k := by
  rw [hx] at hself
  have hok : a = f k a := Except.ok.inj hself
  rw [hok, hf]

/-- A token in front of the end of the window is read again when more input follows. -/
theorem nextToken_onInput (back : Bytes) (h : Stands window p.tokens)
    (hnext : p.nextToken = .ok (token, q)) :
    Stands window q.tokens ∧ p.tokens.pos ≤ q.tokens.pos ∧ (q.tokens.pos < window.length →
      (p.onInput (window ++ back)).nextToken = .ok (token, q.onInput (window ++ back))) := by
  obtain ⟨token', t, hspec, hread⟩ := readTokenWithOptions_spec
    (t := { p.tokens with allowEof := true }) h.state (h.same ▸ h.pos_le) true 0
  have hread' : p.tokens.readQpdfToken 0 = (.ok token', t) := by
    rw [readQpdfToken, hread, if_neg]
    simp
  have hrun : (p.withTokens t).tokenRead token' = .ok (token, q) := nextToken_eq hread' ▸ hnext
  have htokens : q.tokens = t :=
    tokens_of_map (f := fun k r => valueWithTokens k r) t (fun r => r.2.tokens) (fun _ _ => rfl)
      (tokenRead_withTokens t (p.withTokens t) token') hrun
  have hle : p.tokens.pos ≤ t.pos := by
    rw [hspec.pos, hspec.endPos]
    exact hspec.le.trans (Nat.le_add_right _ _)
  refine ⟨htokens ▸ ⟨hspec.input_eq.trans h.same, ?_, ?_⟩, htokens ▸ hle, ?_⟩
  · rw [hspec.state]
    simp
  · exact h.same ▸ hspec.pos_le
  · intro hend
    rw [htokens] at hend
    have hwhole := readQpdfToken_onInput back h.state h.same h.pos_le
      (by rw [hread']; exact hend)
    rw [hread'] at hwhole
    have hrun' := tokenRead_withTokens (t.onInput (window ++ back)) (p.withTokens t) token'
    rw [hrun] at hrun'
    rw [nextToken_eq (p := p.onInput (window ++ back)) hwhole]
    refine hrun'.trans ?_
    rw [onInput, htokens]
    rfl

/-! ## Parses of a window -/

variable {frames' : List LiveFrame} {outcome : Option ObjectValue} {value : ObjectValue}
  {fuel fuel' : ℕ}

theorem remainderTurn_onInput (back : Bytes) (h : Stands window p.tokens)
    (hturn : p.remainderTurn frames = .ok (frames', q, outcome)) :
    Stands window q.tokens ∧ p.tokens.pos ≤ q.tokens.pos ∧ (q.tokens.pos < window.length →
      (p.onInput (window ++ back)).remainderTurn frames =
        .ok (frames', q.onInput (window ++ back), outcome)) := by
  rw [remainderTurn_eq] at hturn
  cases hnext : p.nextToken with
  | error e => rw [hnext] at hturn; cases hturn
  | ok read =>
    obtain ⟨token, r⟩ := read
    rw [hnext] at hturn
    obtain ⟨hstands, hle, hmore⟩ := nextToken_onInput back h hnext
    have hrun : remainderToken { r with goodCount := r.goodCount + 1 } frames token =
        .ok (frames', q, outcome) := hturn
    have htokens : q.tokens = r.tokens :=
      tokens_of_map (f := turnWithTokens) r.tokens (fun r => r.2.1.tokens) (fun _ _ => rfl)
        (remainderToken_withTokens r.tokens { r with goodCount := r.goodCount + 1 } frames token)
        hrun
    refine ⟨htokens ▸ hstands, htokens ▸ hle, ?_⟩
    intro hend
    rw [htokens] at hend
    have hrun' := remainderToken_withTokens (r.tokens.onInput (window ++ back))
      { r with goodCount := r.goodCount + 1 } frames token
    rw [hrun] at hrun'
    rw [remainderTurn_eq, hmore hend]
    refine Eq.trans hrun' ?_
    rw [onInput, htokens]
    rfl

/-- The loop goes the same way as long as its tokens end in front of the end of the window. -/
theorem parseRemainder_onInput (back : Bytes) (h : Stands window p.tokens)
    (hrun : parseRemainder fuel p frames = some (.ok (value, q))) (hfuel : fuel ≤ fuel') :
    p.tokens.pos ≤ q.tokens.pos ∧ (q.tokens.pos < window.length →
      parseRemainder fuel' (p.onInput (window ++ back)) frames =
        some (.ok (value, q.onInput (window ++ back)))) := by
  induction fuel generalizing fuel' p frames with
  | zero => cases hrun
  | succ fuel ih =>
    obtain ⟨fuel', rfl⟩ := Nat.exists_eq_add_of_le' (Nat.one_le_of_lt hfuel)
    rw [parseRemainder] at hrun
    cases hturn : p.remainderTurn frames with
    | error e => rw [hturn] at hrun; cases hrun
    | ok turned =>
      obtain ⟨frames', q', outcome⟩ := turned
      obtain ⟨hstands, hle, hmore⟩ := remainderTurn_onInput back h hturn
      rw [hturn] at hrun
      cases outcome with
      | some value' =>
        cases hrun
        refine ⟨hle, ?_⟩
        intro hend
        rw [parseRemainder, hmore hend]
      | none =>
        obtain ⟨hle', hmore'⟩ := ih hstands hrun (Nat.le_of_succ_le_succ hfuel)
        refine ⟨hle.trans hle', ?_⟩
        intro hend
        rw [parseRemainder, hmore (hle'.trans_lt hend)]
        exact hmore' hend

/-- A parse whose last token ends in front of the end of the window. -/
theorem parseBody_onInput {hasContext : Bool} (back : Bytes)
    (hnext : (start window hasContext).nextToken = .ok (token, q))
    (hobject : token.isWordValue (ascii "endobj") = false) {p : LiveParser}
    (hbody : (start window hasContext).parseBody = some (.ok (value, p)))
    (hend : p.tokens.pos < window.length) :
    q.tokens.pos ≤ p.tokens.pos ∧ (start (window ++ back) hasContext).parseBody =
      some (.ok (value, p.onInput (window ++ back))) := by
  obtain ⟨hstands, -, hmore⟩ :=
    nextToken_onInput back (stands_start window hasContext) hnext
  have hmore' : q.tokens.pos < window.length →
      (start (window ++ back) hasContext).nextToken = .ok (token, q.onInput (window ++ back)) :=
    hmore
  rw [parseBody, hnext] at hbody
  dsimp only at hbody
  rw [hobject, if_neg Bool.false_ne_true] at hbody
  rw [parseBody]
  split_ifs at hbody with hopen
  · cases hpush : q.pushFrame [] token with
    | error e => rw [hpush] at hbody; cases hbody
    | ok pushed =>
      obtain ⟨frames, q'⟩ := pushed
      rw [hpush] at hbody
      have htokens : q'.tokens = q.tokens :=
        tokens_of_map (f := fun k r => valueWithTokens k r) q.tokens (fun r => r.2.tokens)
          (fun _ _ => rfl) (pushFrame_withTokens q.tokens q [] token) hpush
      have hstands' : Stands window q'.tokens := htokens ▸ hstands
      have hinput : q'.tokens.input = window := hstands'.same
      dsimp only at hbody
      have hfuel : q'.tokens.input.length + 2 ≤
          (q'.onInput (window ++ back)).tokens.input.length + 2 := by
        change q'.tokens.input.length + 2 ≤ (window ++ back).length + 2
        rw [hinput, List.length_append]
        omega
      obtain ⟨hle, hrun⟩ := parseRemainder_onInput back hstands' hbody hfuel
      refine ⟨htokens ▸ hle, ?_⟩
      have hpush' := pushFrame_withTokens (q.tokens.onInput (window ++ back)) q [] token
      rw [hpush] at hpush'
      rw [hmore' (htokens ▸ hle.trans_lt hend)]
      dsimp only
      rw [hobject, if_neg Bool.false_ne_true, if_pos hopen]
      rw [show (q.onInput (window ++ back)).pushFrame [] token = _ from hpush']
      have hself : q'.withTokens (q.tokens.onInput (window ++ back)) =
          q'.onInput (window ++ back) := by rw [onInput, htokens]
      dsimp only [Except.map, valueWithTokens]
      rw [hself]
      exact hrun hend
  · have hscalar : q.parseScalarToken token = .ok (value, p) := Option.some.inj hbody
    have htokens : p.tokens = q.tokens :=
      tokens_of_map (f := fun k r => valueWithTokens k r) q.tokens (fun r => r.2.tokens)
        (fun _ _ => rfl) (parseScalarToken_withTokens q.tokens q token) hscalar
    refine ⟨(congrArg Tokenizer.pos htokens).ge, ?_⟩
    have hscalar' := parseScalarToken_withTokens (q.tokens.onInput (window ++ back)) q token
    rw [hscalar] at hscalar'
    rw [hmore' (htokens ▸ hend)]
    dsimp only
    rw [hobject, if_neg Bool.false_ne_true, if_neg hopen]
    refine congrArg some (Eq.trans hscalar' ?_)
    rw [onInput, htokens]
    rfl

end LiveParser

end Flpdf
