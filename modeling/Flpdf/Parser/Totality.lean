import Flpdf.Effects.Checked
import Flpdf.Parser.TokenSource
import Flpdf.Parser.Turns

/-!
# The object parser always ends

No turn of the parser finds an empty slot of the integer ring or no frame, and
each takes a byte of the input until its end.
-/

namespace Flpdf

open Tokenizer Relation

/-- The messages of the parser's `expect` and `unreachable!`. -/
def panicMessages : List Bytes :=
  [ascii "live parser has an open frame", ascii "frame loop",
    ascii "qpdf integer ring contains the oldest candidate"]

def Panics (e : ParseError) : Prop := ∃ message ∈ panicMessages, e = .internal message

theorem not_panics_of_ne {e : ParseError} (h : ∀ message, e ≠ .internal message) : ¬Panics e := by
  rintro ⟨message, -, rfl⟩
  exact h message rfl

namespace LiveParser

variable {p p' p'' : LiveParser} {frames : List LiveFrame} {token : Token}

/-! ## What every step keeps -/

/-- The input and the integer ring are left alone. -/
structure Keeps (p p' : LiveParser) : Prop where
  tokens : p'.tokens = p.tokens
  count : p'.integerCount = p.integerCount
  even : p'.evenInteger = p.evenInteger
  odd : p'.oddInteger = p.oddInteger

theorem Keeps.refl (p : LiveParser) : Keeps p p := ⟨rfl, rfl, rfl, rfl⟩

theorem Keeps.trans (h : Keeps p p') (h' : Keeps p' p'') : Keeps p p'' :=
  ⟨h'.tokens.trans h.tokens, h'.count.trans h.count, h'.even.trans h.even, h'.odd.trans h.odd⟩

theorem Keeps.integerAt (h : Keeps p p') (n : ℕ) : p'.integerAt n = p.integerAt n := by
  rw [LiveParser.integerAt, LiveParser.integerAt, h.even, h.odd]

/-- The slots of the ring that the count says are filled are filled. -/
structure RingHolds (p : LiveParser) : Prop where
  one : p.integerCount = 1 → (p.integerAt 1).isSome = true
  more : 2 ≤ p.integerCount → ∀ n, (p.integerAt n).isSome = true

theorem RingHolds.of_zero (h : p.integerCount = 0) : RingHolds p :=
  ⟨fun hone => by omega, fun htwo => by omega⟩

theorem RingHolds.of_keeps (h : RingHolds p) (hkeeps : Keeps p p') : RingHolds p' := by
  refine ⟨?_, ?_⟩
  · rw [hkeeps.count, hkeeps.integerAt]
    exact h.one
  · rw [hkeeps.count]
    intro htwo n
    rw [hkeeps.integerAt]
    exact h.more htwo n

/-! ## Scalars and frames -/

theorem warn_safe (offset : ℕ) (message : Bytes) : Safe Panics (p.warn offset message) (Keeps p) := by
  unfold warn
  split_ifs
  · exact .ok ⟨rfl, rfl, rfl, rfl⟩
  · exact .error (not_panics_of_ne nofun)

theorem tooManyBadTokens_safe (offset : ℕ) :
    Safe Panics (p.tooManyBadTokens offset) (Keeps p) := by
  unfold tooManyBadTokens
  split_ifs
  · dsimp only
    split_ifs
    · refine (warn_safe offset _).bind ?_
      intro p' hkeeps
      exact .pure ⟨hkeeps.tokens, hkeeps.count, hkeeps.even, hkeeps.odd⟩
    · exact .pure ⟨rfl, rfl, rfl, rfl⟩
  · exact .pure ⟨rfl, rfl, rfl, rfl⟩

/-- A value of a scalar token is no container. -/
def IsContainer : ObjectValue → Prop
  | .array _ | .dictionary _ => True
  | _ => False

theorem unexpected_scalar (offset : ℕ) (message : Bytes) :
    Safe Panics (p.unexpected offset message) fun r => Keeps p r.2 ∧ ¬IsContainer r.1 := by
  refine (warn_safe offset message).bind ?_
  intro p' hwarn
  refine (tooManyBadTokens_safe offset).bind ?_
  intro p'' hbad
  exact .pure ⟨hwarn.trans hbad, id⟩

theorem parseScalarToken_safe (harray : token.tokenType ≠ .arrayOpen)
    (hdict : token.tokenType ≠ .dictOpen) :
    Safe Panics (p.parseScalarToken token) fun r => Keeps p r.2 ∧ ¬IsContainer r.1 := by
  unfold parseScalarToken
  cases htype : token.tokenType with
  | arrayOpen => exact absurd htype harray
  | dictOpen => exact absurd htype hdict
  | integer | name | string | bool | null | real => exact .ok ⟨.refl p, id⟩
  | word =>
    refine (warn_safe _ _).bind ?_
    intro p' hwarn
    refine (tooManyBadTokens_safe _).bind ?_
    intro p'' hbad
    exact .pure ⟨hwarn.trans hbad, id⟩
  | bad =>
    refine (tooManyBadTokens_safe _).bind ?_
    intro p' hbad
    exact .pure ⟨hbad, id⟩
  | eof =>
    refine (warn_safe _ _).bind ?_
    intro p' hwarn
    exact .pure ⟨hwarn, id⟩
  | _ => exact unexpected_scalar _ _

theorem parseContentToken_safe (harray : token.tokenType ≠ .arrayOpen)
    (hdict : token.tokenType ≠ .dictOpen) :
    Safe Panics (p.parseContentToken token) fun r => Keeps p r.2 ∧ ¬IsContainer r.1 := by
  unfold parseContentToken
  split_ifs
  · exact .ok ⟨.refl p, id⟩
  · exact parseScalarToken_safe harray hdict

theorem addToFrame_safe (frame : LiveFrame) (value : ObjectValue) :
    Safe Panics (p.addToFrame frame value) fun r => Keeps p r.2 := by
  unfold addToFrame
  rcases frame with values | ⟨values, orphanValues, _ | key, frameOffset⟩
  · exact .ok (.refl p)
  · exact .ok (.refl p)
  · have hinsert : Safe Panics (p.insertDictionaryValue values key value frameOffset)
        fun r => Keeps p r.2 := by
      unfold insertDictionaryValue
      split_ifs
      · refine (warn_safe _ _).bind ?_
        intro p' hwarn
        exact .pure hwarn
      · exact .pure (.refl p)
    refine hinsert.bind ?_
    intro r hkeeps
    exact .pure hkeeps

/-- What an addition to the top frame keeps. -/
def Adds (p : LiveParser) (frames : List LiveFrame) (r : List LiveFrame × LiveParser) : Prop :=
  r.1.length = frames.length ∧ Keeps p r.2

theorem addToTopFrame_safe (hne : frames ≠ []) (value : ObjectValue) :
    Safe Panics (p.addToTopFrame frames value) (Adds p frames) := by
  cases frames with
  | nil => exact absurd rfl hne
  | cons frame frames =>
    refine (addToFrame_safe frame value).bind ?_
    intro r hkeeps
    exact .pure ⟨rfl, hkeeps⟩

theorem ne_nil_of_length {frames' : List LiveFrame} (hne : frames ≠ [])
    (h : frames'.length = frames.length) : frames' ≠ [] := by
  rintro rfl
  exact hne (List.length_eq_zero_iff.mp h.symm)

theorem pushFrame_safe :
    Safe Panics (p.pushFrame frames token) fun r => Keeps p r.2 ∧
      ∀ frames' ∈ r.1, frames' ≠ [] ∧ frames'.length ≤ maxParseDepth := by
  unfold pushFrame
  split_ifs with hlimit htype
  · refine (warn_safe _ _).bind ?_
    intro p' hwarn
    exact .pure ⟨⟨hwarn.tokens, hwarn.count, hwarn.even, hwarn.odd⟩, nofun⟩
  all_goals
    refine .ok ⟨.refl p, ?_⟩
    rintro frames' ⟨⟩
    refine ⟨List.cons_ne_nil _ _, ?_⟩
    rw [List.length_cons]
    omega

theorem insertOrphans_safe (orphanNames : List Bytes) (frameOffset : ℕ)
    (orphanValues : List ObjectValue) (fake : ℕ) (values : List (Bytes × ObjectValue))
    (p : LiveParser) :
    Safe Panics (insertOrphans orphanNames frameOffset orphanValues fake values p)
      fun r => Keeps p r.2 := by
  induction orphanValues generalizing fake values p with
  | nil => exact .ok (.refl p)
  | cons value orphanValues ih =>
    refine (warn_safe _ _).bind ?_
    intro p' hwarn
    exact (ih _ _ p').mono fun r hkeeps => hwarn.trans hkeeps

theorem finishDictionary_safe (values : List (Bytes × ObjectValue))
    (orphanValues : List ObjectValue) (pendingKey : Option Bytes) (frameOffset : ℕ) :
    Safe Panics (p.finishDictionary values orphanValues pendingKey frameOffset)
      fun r => Keeps p r.2 ∧ ∃ entries, r.1 = .dictionary entries := by
  unfold finishDictionary
  cases pendingKey with
  | none =>
    refine (Safe.pure (Q := fun r : List (Bytes × ObjectValue) × LiveParser => Keeps p r.2)
      (.refl p)).bind ?_
    intro r hkeeps
    refine (insertOrphans_safe _ _ _ _ _ _).bind ?_
    intro r' horphans
    exact .pure ⟨hkeeps.trans horphans, _, rfl⟩
  | some key =>
    have hlast : Safe Panics (do
        let p ← p.warn frameOffset
          (ascii "dictionary ended prematurely; using null as value for last key")
        return (insertSorted key .null values, p) :
          Except ParseError (List (Bytes × ObjectValue) × LiveParser)) fun r => Keeps p r.2 := by
      refine (warn_safe _ _).bind ?_
      intro p' hwarn
      exact .pure hwarn
    refine hlast.bind ?_
    intro r hkeeps
    refine (insertOrphans_safe _ _ _ _ _ _).bind ?_
    intro r' horphans
    exact .pure ⟨hkeeps.trans horphans, _, rfl⟩

/-! ## The integer ring -/

/-- What a step on the ring keeps. -/
structure RingStep (p : LiveParser) (frames : List LiveFrame) (r : List LiveFrame × LiveParser) :
    Prop where
  length : r.1.length = frames.length
  ring : RingHolds r.2
  tokens : r.2.tokens = p.tokens

theorem calm_tokens_setInteger (count : ℕ) (integer : Option PendingInteger) :
    (p.setInteger count integer).tokens = p.tokens :=
  (calm_setInteger count integer).tokens

/-- An integer takes its slot; the oldest of three is there to leave it. -/
theorem bufferInteger_safe (hring : RingHolds p) (hne : frames ≠ []) (integer : PendingInteger) :
    Safe Panics (p.bufferInteger integer frames) (RingStep p frames) := by
  unfold bufferInteger
  dsimp only
  split_ifs with hmore
  · obtain ⟨oldest, holdest⟩ := Option.isSome_iff_exists.mp
      (hring.more (by omega) (p.integerCount + 1))
    have htake : ({ p with integerCount := p.integerCount + 1 } : LiveParser).takeInteger
        (p.integerCount + 1) = .ok (oldest, ({ p with integerCount := p.integerCount + 1 } :
          LiveParser).setInteger (p.integerCount + 1) none) :=
      takeInteger_eq holdest
    rw [htake, ok_bind]
    refine (addToTopFrame_safe hne _).bind ?_
    rintro ⟨frames', p'⟩ ⟨hlength, hkeeps⟩
    refine .pure ⟨hlength, ⟨?_, ?_⟩, ?_⟩
    · intro hone
      rw [integerCount_setInteger, hkeeps.count, integerCount_setInteger] at hone
      simp only at hone
      omega
    · intro _ n
      rw [integerAt_setInteger]
      split_ifs with hslot
      · rfl
      · rw [hkeeps.integerAt, integerAt_setInteger, if_neg hslot]
        exact hring.more (by omega) n
    · rw [calm_tokens_setInteger, hkeeps.tokens, calm_tokens_setInteger]
  · refine .pure ⟨rfl, ⟨?_, ?_⟩, calm_tokens_setInteger _ _⟩
    · intro hone
      rw [integerCount_setInteger] at hone
      simp only at hone
      rw [integerAt_setInteger, if_pos (by omega)]
      rfl
    · intro htwo n
      rw [integerCount_setInteger] at htwo
      simp only at htwo
      rw [integerAt_setInteger]
      split_ifs with hslot
      · rfl
      · have hn : ({ p with integerCount := p.integerCount + 1 } : LiveParser).integerAt n =
            p.integerAt 1 :=
          integerAt_congr (p := p) (by omega)
        rw [hn]
        exact hring.one (by omega)

/-- Two integers wait in the slots of a longer run. -/
theorem RingHolds.take_two (hring : RingHolds p) (htwo : 2 ≤ p.integerCount) :
    ∃ a b q, p.takeInteger (firstIndex p.integerCount) = .ok (a, q) ∧
      ∃ q', q.takeInteger p.integerCount = .ok (b, q') ∧ q'.tokens = p.tokens ∧
        q'.hasContext = p.hasContext := by
  obtain ⟨m, hm⟩ := Nat.exists_eq_add_of_le' htwo
  obtain ⟨a, ha⟩ := Option.isSome_iff_exists.mp (hring.more htwo (m + 1))
  obtain ⟨b, hb⟩ := Option.isSome_iff_exists.mp (hring.more htwo (m + 2))
  obtain ⟨hfirst, hsecond⟩ := LiveParser.take_two ha hb
  rw [hm]
  have hcalm : Calm p ((p.setInteger (firstIndex (m + 2)) none).setInteger (m + 2) none) :=
    (calm_setInteger _ _).trans (calm_setInteger _ _)
  exact ⟨a, b, _, hfirst, _, hsecond, hcalm.tokens, hcalm.hasContext⟩

theorem flushIntegerBuffer_safe (hring : RingHolds p) (hne : frames ≠ []) :
    Safe Panics (p.flushIntegerBuffer frames) (RingStep p frames) := by
  unfold flushIntegerBuffer
  split_ifs with hzero hone
  · exact .pure ⟨rfl, hring, rfl⟩
  · obtain ⟨integer, hinteger⟩ := Option.isSome_iff_exists.mp (hring.one hone)
    rw [takeInteger_eq hinteger, ok_bind]
    refine (addToTopFrame_safe hne _).bind ?_
    rintro ⟨frames', p'⟩ ⟨hlength, hkeeps⟩
    exact .pure ⟨hlength, .of_zero rfl, hkeeps.tokens.trans (calm_tokens_setInteger _ _)⟩
  · obtain ⟨a, b, q, hfirst, q', hsecond, htokens, -⟩ := hring.take_two (by omega)
    dsimp only
    rw [hfirst, ok_bind]
    dsimp only
    rw [hsecond, ok_bind]
    refine (addToTopFrame_safe hne _).bind ?_
    rintro ⟨frames', p'⟩ ⟨hlength, hkeeps⟩
    refine (addToTopFrame_safe (ne_nil_of_length hne hlength) _).bind ?_
    rintro ⟨frames'', p''⟩ ⟨hlength', hkeeps'⟩
    exact .pure ⟨hlength'.trans hlength, .of_zero rfl,
      hkeeps'.tokens.trans (hkeeps.tokens.trans htokens)⟩

theorem qpdfInt_safe (integer : PendingInteger) :
    Safe Panics (qpdfInt integer) fun _ => True := by
  unfold qpdfInt
  split
  · exact .ok trivial
  · exact .error (not_panics_of_ne nofun)

theorem finishIntegerReference_safe (hring : RingHolds p) (htwo : 2 ≤ p.integerCount)
    (hne : frames ≠ []) :
    Safe Panics (p.finishIntegerReference frames) (RingStep p frames) := by
  unfold finishIntegerReference
  obtain ⟨a, b, q, hfirst, q', hsecond, htokens, -⟩ := hring.take_two htwo
  dsimp only
  rw [hfirst, ok_bind]
  dsimp only
  rw [hsecond, ok_bind]
  dsimp only
  split_ifs
  · refine (qpdfInt_safe a).bind ?_
    intro number _
    refine (qpdfInt_safe b).bind ?_
    intro generation _
    refine (addToTopFrame_safe hne _).mono ?_
    rintro ⟨frames', p'⟩ ⟨hlength, hkeeps⟩
    exact ⟨hlength, .of_zero hkeeps.count, hkeeps.tokens.trans htokens⟩
  · refine .error ?_
    unfold Panics
    decide

/-! ## One turn -/

/-- The token completes the outermost container. -/
def ClosesWith (frames : List LiveFrame) (token : Token) (value : ObjectValue) : Prop :=
  frames.length = 1 ∧
    (token.tokenType = .arrayClose ∧ (∃ items, value = .array items) ∨
      token.tokenType = .dictClose ∧ ∃ entries, value = .dictionary entries)

/-- What the match on a token's type does to the frames. -/
structure Dispatched (p : LiveParser) (frames : List LiveFrame) (token : Token)
    (r : List LiveFrame × LiveParser × Option ObjectValue) : Prop where
  keeps : Keeps p r.2.1
  goesOn : r.2.2 = none → r.1 ≠ [] ∧ r.1.length ≤ maxParseDepth ∧ token.tokenType ≠ .eof
  ends : ∀ value, r.2.2 = some value → IsContainer value → ClosesWith frames token value

/-- A turn that only adds to the frames, or gives up. -/
theorem dispatched_of_adds {r : List LiveFrame × LiveParser} (hne : frames ≠ [])
    (hdepth : frames.length ≤ maxParseDepth) (heof : token.tokenType ≠ .eof)
    (hkeeps : Keeps p r.2) (hlength : r.1.length = frames.length) (giveUp : Bool) :
    Dispatched p frames token (r.1, r.2, if giveUp then some .null else none) where
  keeps := hkeeps
  goesOn := fun _ => ⟨ne_nil_of_length hne hlength, hlength ▸ hdepth, heof⟩
  ends := by
    intro value hvalue hcontainer
    cases giveUp with
    | false => cases hvalue
    | true =>
      cases hvalue
      exact hcontainer.elim

theorem addScalar_safe (hne : frames ≠ []) (hdepth : frames.length ≤ maxParseDepth)
    (harray : token.tokenType ≠ .arrayOpen) (hdict : token.tokenType ≠ .dictOpen)
    (heof : token.tokenType ≠ .eof) :
    Safe Panics (p.addScalar frames token) (Dispatched p frames token) := by
  unfold addScalar
  refine (parseScalarToken_safe harray hdict).bind ?_
  rintro ⟨value, p'⟩ ⟨hkeeps, -⟩
  dsimp only
  split_ifs
  · exact .pure (dispatched_of_adds (r := (frames, p')) hne hdepth heof hkeeps rfl true)
  · refine (addToTopFrame_safe hne value).bind ?_
    rintro ⟨frames', p''⟩ ⟨hlength, hkeeps'⟩
    exact .pure (dispatched_of_adds (r := (frames', p'')) hne hdepth heof (hkeeps.trans hkeeps')
      hlength _)

theorem addOperator_safe (hne : frames ≠ []) (hdepth : frames.length ≤ maxParseDepth)
    (hword : token.tokenType = .word) :
    Safe Panics (p.addOperator frames token) (Dispatched p frames token) := by
  have heof : token.tokenType ≠ .eof := by
    rw [hword]
    exact nofun
  unfold addOperator
  refine (parseContentToken_safe (by rw [hword]; exact nofun) (by rw [hword]; exact nofun)).bind ?_
  rintro ⟨value, p'⟩ ⟨hkeeps, -⟩
  dsimp only
  split_ifs
  · exact .pure (dispatched_of_adds (r := (frames, p')) hne hdepth heof hkeeps rfl true)
  · refine (addToTopFrame_safe hne value).bind ?_
    rintro ⟨frames', p''⟩ ⟨hlength, hkeeps'⟩
    exact .pure (dispatched_of_adds (r := (frames', p'')) hne hdepth heof (hkeeps.trans hkeeps')
      hlength _)

/-- A completed container is the result or goes to its parent. -/
theorem complete_safe {frame : LiveFrame} {value : ObjectValue} {start : LiveParser}
    (hkeeps : Keeps start p) (hdepth : (frame :: frames).length ≤ maxParseDepth)
    (hcloses : frames = [] → ClosesWith (frame :: frames) token value)
    (heof : token.tokenType ≠ .eof) :
    Safe Panics (p.complete frames value) (Dispatched start (frame :: frames) token) := by
  cases frames with
  | nil =>
    refine .ok ⟨hkeeps, nofun, ?_⟩
    rintro value' ⟨⟩ _
    exact hcloses rfl
  | cons parent frames =>
    rw [complete]
    · refine (addToTopFrame_safe (List.cons_ne_nil _ _) value).bind ?_
      rintro ⟨frames', p'⟩ ⟨hlength, hkeeps'⟩
      refine .pure ⟨hkeeps.trans hkeeps', ?_, ?_⟩
      · intro _
        refine ⟨ne_nil_of_length (List.cons_ne_nil _ _) hlength, ?_, heof⟩
        rw [List.length_cons] at hdepth
        simp only at hlength ⊢
        omega
      · intro value' hvalue hcontainer
        dsimp only at hvalue
        split_ifs at hvalue
        cases hvalue
        exact hcontainer.elim
    · exact List.cons_ne_nil _ _

/-- An opening token adds a frame, or the parser gives up. -/
theorem open_safe (heof : token.tokenType ≠ .eof) :
    Safe Panics (do
      let (pushed, p) ← p.pushFrame frames token
      match pushed with
      | some frames => return (frames, p, if p.giveUp then some .null else none)
      | none => return (frames, p, some .null)) (Dispatched p frames token) := by
  refine pushFrame_safe.bind ?_
  rintro ⟨pushed, p'⟩ ⟨hkeeps, hpushed⟩
  cases pushed with
  | none =>
    refine .pure ⟨hkeeps, nofun, ?_⟩
    rintro value ⟨⟩ hcontainer
    exact hcontainer.elim
  | some frames' =>
    obtain ⟨hne', hdepth'⟩ := hpushed frames' rfl
    refine .pure ⟨hkeeps, fun _ => ⟨hne', hdepth', heof⟩, ?_⟩
    intro value hvalue hcontainer
    dsimp only at hvalue
    split_ifs at hvalue
    cases hvalue
    exact hcontainer.elim

theorem dispatch_safe (hne : frames ≠ []) (hdepth : frames.length ≤ maxParseDepth) :
    Safe Panics (p.dispatch frames token) (Dispatched p frames token) := by
  fun_cases dispatch p frames token with
  | case1 =>
    rename_i htype
    exact open_safe (by rw [htype]; exact nofun)
  | case2 =>
    rename_i htype
    exact open_safe (by rw [htype]; exact nofun)
  | case3 values frames htype =>
    refine complete_safe (.refl p) hdepth ?_ (by rw [htype]; exact nofun)
    rintro rfl
    exact ⟨rfl, .inl ⟨htype, _, rfl⟩⟩
  | case4 values orphanValues pendingKey frameOffset frames htype =>
    refine (finishDictionary_safe _ _ _ _).bind ?_
    rintro ⟨value, p'⟩ ⟨hkeeps, entries, rfl⟩
    refine complete_safe hkeeps hdepth ?_ (by rw [htype]; exact nofun)
    rintro rfl
    exact ⟨rfl, .inr ⟨htype, _, rfl⟩⟩
  | case5 htype =>
    refine (warn_safe _ _).bind ?_
    intro p' hwarn
    refine (warn_safe _ _).bind ?_
    intro p'' hwarn'
    exact .pure ⟨hwarn.trans hwarn', nofun, by rintro value ⟨⟩ hcontainer; exact hcontainer.elim⟩
  | case6 values orphanValues frameOffset frames htype =>
    exact .ok ⟨.refl p, fun _ => ⟨List.cons_ne_nil _ _, hdepth, by rw [htype]; exact nofun⟩, nofun⟩
  | case7 => 
    refine addScalar_safe hne hdepth ?_ ?_ ?_ <;> grind

variable {input : Bytes} {q : LiveParser}

/-- The tokenizer stands inside its input. -/
structure Stands (input : Bytes) (t : Tokenizer) : Prop where
  same : t.input = input
  state : t.state ≠ .inlineImage
  pos_le : t.pos ≤ input.length

/-- A token was read: the parser stands behind it, and the ring is as it was. -/
structure TokenRead (input : Bytes) (p : LiveParser) (r : Token × LiveParser) : Prop where
  stands : Stands input r.2.tokens
  endPos : r.2.tokens.pos = r.1.endPos
  takes : r.1.tokenType ≠ .eof → p.tokens.pos < r.2.tokens.pos
  keeps : Keeps { p with tokens := r.2.tokens } r.2

theorem nextToken_safe (h : Stands input p.tokens) :
    Safe Panics p.nextToken (TokenRead input p) := by
  obtain ⟨token, t', hspec, hread⟩ := readTokenWithOptions_spec
    (t := { p.tokens with allowEof := true }) h.state (h.same ▸ h.pos_le) true 0
  have hread' : p.tokens.readQpdfToken 0 = (.ok token, t') := by
    rw [readQpdfToken, hread, if_neg]
    simp
  have hstands : Stands input t' := by
    refine ⟨hspec.input_eq.trans h.same, ?_, ?_⟩
    · rw [hspec.state]
      simp
    · exact h.same ▸ hspec.pos_le
  have hlive : Safe Panics p.nextLiveToken (TokenRead input p) := by
    have hgiven : TokenRead input p (token, { p with tokens := t', lastOffset := token.start }) :=
      ⟨hstands, hspec.pos, hspec.pos_lt rfl, ⟨rfl, rfl, rfl, rfl⟩⟩
    rw [nextLiveToken, hread']
    dsimp only
    split_ifs
    · have hparse : Safe Panics (parseIntegerBytes token.raw token.start) fun _ => True := by
        unfold parseIntegerBytes
        split_ifs
        · exact .ok trivial
        · exact .error (not_panics_of_ne (by simp))
        · exact .error (not_panics_of_ne (by simp))
      exact hparse.map fun _ _ => hgiven
    · exact .ok hgiven
  refine hlive.bind ?_
  rintro ⟨token', p'⟩ hgiven
  dsimp only
  cases token'.errorMessage with
  | none => exact .pure hgiven
  | some message =>
    refine (warn_safe token'.start message).bind ?_
    intro p'' hwarn
    have htokens : p''.tokens = p'.tokens := hwarn.tokens
    exact .pure ⟨htokens ▸ hgiven.stands, htokens ▸ hgiven.endPos, htokens ▸ hgiven.takes,
      ⟨rfl, hwarn.count.trans hgiven.keeps.count, hwarn.even.trans hgiven.keeps.even,
        hwarn.odd.trans hgiven.keeps.odd⟩⟩

/-- What holds of the parser between two turns. -/
structure Running (input : Bytes) (p : LiveParser) (frames : List LiveFrame) : Prop where
  ne : frames ≠ []
  depth : frames.length ≤ maxParseDepth
  ring : RingHolds p
  stands : Stands input p.tokens

/-- What a turn has done when the next one begins, and when it ends the loop with a container. -/
structure Turned (input : Bytes) (p : LiveParser) (frames : List LiveFrame)
    (r : List LiveFrame × LiveParser × Option (Option ObjectValue)) : Prop where
  goesOn : r.2.2 = none → Running input r.2.1 r.1 ∧ p.tokens.pos < r.2.1.tokens.pos
  ends : ∀ value, r.2.2 = some (some value) → IsContainer value → ∃ token q,
    p.nextToken = .ok (token, q) ∧ ClosesWith frames token value ∧ r.2.1.tokens.pos = token.endPos

/-- The turn behind its token: `frames'` are the frames once the ring is settled. -/
theorem turned_of_dispatched {frames' : List LiveFrame}
    {r : List LiveFrame × LiveParser × Option ObjectValue} (hnext : p.nextToken = .ok (token, q))
    (hread : TokenRead input p (token, q)) (hlength : frames'.length = frames.length)
    (hring : RingHolds p') (htokens : p'.tokens = q.tokens) (h : Dispatched p' frames' token r) :
    Turned input p frames (r.1, r.2.1, r.2.2.map some) := by
  have htokens' : r.2.1.tokens = q.tokens := h.keeps.tokens.trans htokens
  constructor
  · intro hnone
    obtain ⟨hne, hdepth, heof⟩ := h.goesOn (Option.map_eq_none_iff.mp hnone)
    refine ⟨⟨hne, hdepth, hring.of_keeps h.keeps, ?_⟩, ?_⟩
    · rw [htokens']
      exact hread.stands
    · rw [htokens']
      exact hread.takes heof
  · intro value hvalue hcontainer
    have hsome : r.2.2 = some value := by simpa using hvalue
    obtain ⟨hone, hkind⟩ := h.ends value hsome hcontainer
    exact ⟨token, q, hnext, ⟨hlength ▸ hone, hkind⟩, (congrArg Tokenizer.pos htokens').trans
      hread.endPos⟩

/-- A turn that only moves integers between the ring and the frames. -/
theorem turned_of_ringStep {r : List LiveFrame × LiveParser} (h : Running input p frames)
    (hread : TokenRead input p (token, q)) (heof : token.tokenType ≠ .eof)
    (hstep : RingStep p' frames r) (htokens : p'.tokens = q.tokens) :
    Turned input p frames (r.1, r.2, none) where
  goesOn := by
    intro _
    have htokens' : r.2.tokens = q.tokens := hstep.tokens.trans htokens
    refine ⟨⟨ne_nil_of_length h.ne hstep.length, hstep.length ▸ h.depth, hstep.ring, ?_⟩, ?_⟩
    · rw [htokens']
      exact hread.stands
    · rw [htokens']
      exact hread.takes heof
  ends := nofun

theorem turn_safe (contentStream : Bool) (h : Running input p frames) :
    Safe Panics (p.turn contentStream frames) (Turned input p frames) := by
  have hnext := nextToken_safe h.stands
  have hstart : Safe Panics p.nextToken fun r =>
      p.nextToken = .ok r ∧ TokenRead input p r := by
    cases heq : p.nextToken with
    | error e => exact .error (hnext.of_error heq)
    | ok r => exact .ok ⟨rfl, hnext.of_ok heq⟩
  have hcounted : ∀ r : Token × LiveParser, TokenRead input p r →
      RingHolds { r.2 with goodCount := r.2.goodCount + 1 } := by
    intro r hread
    have hring : RingHolds { p with tokens := r.2.tokens } := ⟨h.ring.one, h.ring.more⟩
    exact hring.of_keeps ⟨rfl, hread.keeps.count, hread.keeps.even, hread.keeps.odd⟩
  cases contentStream with
  | true =>
    rw [turn, if_pos rfl]
    refine hstart.bind ?_
    rintro ⟨token, q⟩ ⟨hnextToken, hread⟩
    have hring := hcounted _ hread
    dsimp only at hring ⊢
    split_ifs with heof hword
    · refine (warn_safe _ _).bind ?_
      intro p' _
      exact .pure ⟨by rintro ⟨⟩, by rintro _ ⟨⟩⟩
    · refine (addOperator_safe h.ne h.depth hword).bind ?_
      intro r hdispatched
      exact .pure (turned_of_dispatched hnextToken hread rfl hring rfl hdispatched)
    · refine (dispatch_safe h.ne h.depth).bind ?_
      intro r hdispatched
      exact .pure (turned_of_dispatched hnextToken hread rfl hring rfl hdispatched)
  | false =>
    rw [turn, if_neg Bool.false_ne_true, remainderTurn_eq]
    refine Safe.map (Q := fun r => Turned input p frames (r.1, r.2.1, r.2.2.map some)) ?_
      fun _ h => h
    refine hstart.bind ?_
    rintro ⟨token, q⟩ ⟨hnextToken, hread⟩
    have hring := hcounted _ hread
    dsimp only at hring ⊢
    rw [remainderToken]
    split_ifs with hinteger hreference
    · have heof : token.tokenType ≠ .eof := by
        rintro heof
        simp [Token.isInteger, heof] at hinteger
      exact (bufferInteger_safe hring h.ne _).map fun r hstep =>
        turned_of_ringStep h hread heof hstep rfl
    · have heof : token.tokenType ≠ .eof := by
        rintro heof
        simp [Token.isWordValue, heof] at hreference
      exact (finishIntegerReference_safe hring hreference.1 h.ne).map fun r hstep =>
        turned_of_ringStep h hread heof hstep rfl
    · refine (flushIntegerBuffer_safe hring h.ne).bind ?_
      rintro ⟨frames', p'⟩ hstep
      refine (dispatch_safe (ne_nil_of_length h.ne hstep.length) (hstep.length ▸ h.depth)).mono ?_
      intro r hdispatched
      exact turned_of_dispatched hnextToken hread hstep.length hstep.ring hstep.tokens hdispatched

/-! ## Whole parses -/

/-- A parser at the start of a slice. -/
def start (input : Bytes) (hasContext : Bool) : LiveParser :=
  { tokens := { input := input }, hasContext := hasContext }

/-- One turn leads to the next. -/
def NextTurn (contentStream : Bool) (s s' : LiveParser × List LiveFrame) : Prop :=
  s.1.turn contentStream s.2 = .ok (s'.2, s'.1, none)

/-- The parser and its frames between two turns of a parse. -/
def LoopState (contentStream : Bool) (p : LiveParser) (s : LiveParser × List LiveFrame) : Prop :=
  ∃ token q frames q', p.nextToken = .ok (token, q) ∧
    (token.tokenType = .arrayOpen ∨ token.tokenType = .dictOpen) ∧
    q.pushFrame [] token = .ok (some frames, q') ∧
    ReflTransGen (NextTurn contentStream) (q', frames) s

/-- The next token completes the outermost container with the value, and the
parser that is left stands at its end. -/
def Closes (s : LiveParser × List LiveFrame) (value : ObjectValue) (p' : LiveParser) : Prop :=
  ∃ token q, s.1.nextToken = .ok (token, q) ∧ ClosesWith s.2 token value ∧
    p'.tokens.pos = token.endPos

theorem NextTurn.running {contentStream : Bool} {s s' : LiveParser × List LiveFrame}
    (hturn : NextTurn contentStream s s') (h : Running input s.1 s.2) : Running input s'.1 s'.2 :=
  (((turn_safe contentStream h).of_ok hturn).goesOn rfl).1

theorem running_of_turns {contentStream : Bool} {s s' : LiveParser × List LiveFrame}
    (hturns : ReflTransGen (NextTurn contentStream) s s') (h : Running input s.1 s.2) :
    Running input s'.1 s'.2 := by
  induction hturns with
  | refl => exact h
  | tail _ hturn ih => exact hturn.running ih

/-- Each turn takes a byte, so that the loop ends before the fuel does. -/
theorem remainder_total (contentStream : Bool) {fuel : ℕ} (h : Running input p frames)
    (hfuel : input.length - p.tokens.pos < fuel) :
    ∃ outcome, remainder contentStream fuel p frames = some outcome ∧
      Safe Panics outcome fun r => ∀ value, r.1 = some value → IsContainer value →
        ∃ s, ReflTransGen (NextTurn contentStream) (p, frames) s ∧ Closes s value r.2 := by
  induction fuel generalizing p frames with
  | zero => omega
  | succ fuel ih =>
    have hturn := turn_safe contentStream h
    rw [remainder]
    cases heq : p.turn contentStream frames with
    | error e => exact ⟨_, rfl, .error (hturn.of_error heq)⟩
    | ok r =>
      obtain ⟨frames', p', value⟩ := r
      have hturned := hturn.of_ok heq
      cases value with
      | some value =>
        refine ⟨_, rfl, .ok ?_⟩
        rintro value' rfl hcontainer
        exact ⟨(p, frames), .refl, hturned.ends value' rfl hcontainer⟩
      | none =>
        obtain ⟨hrunning, hpos⟩ := hturned.goesOn rfl
        have hle := hrunning.stands.pos_le
        dsimp only at hrunning hpos hle
        obtain ⟨outcome, hrun, hsafe⟩ := ih hrunning (by omega)
        refine ⟨outcome, hrun, hsafe.mono ?_⟩
        intro r hcloses value hvalue hcontainer
        obtain ⟨s, hturns, hs⟩ := hcloses value hvalue hcontainer
        have hfirst : NextTurn contentStream (p, frames) (p', frames') := heq
        exact ⟨s, .head hfirst hturns, hs⟩

theorem stands_start (input : Bytes) (hasContext : Bool) :
    Stands input (start input hasContext).tokens :=
  ⟨rfl, nofun, Nat.zero_le _⟩

/-- The first frame is that of the opening token. -/
theorem running_of_open {hasContext : Bool} {r : Option (List LiveFrame) × LiveParser}
    (hnext : (start input hasContext).nextToken = .ok (token, q))
    (hpush : q.pushFrame [] token = .ok r) :
    ∃ frames, r.1 = some frames ∧ Running input r.2 frames := by
  have hread := (nextToken_safe (stands_start input hasContext)).of_ok hnext
  have hkeeps : Keeps q r.2 := ((pushFrame_safe (p := q)).of_ok hpush).1
  have hring : RingHolds q := .of_zero hread.keeps.count
  have hpushed := ((pushFrame_safe (p := q)).of_ok hpush).2
  unfold pushFrame at hpush
  rw [if_neg (by decide)] at hpush
  have hsome : ∃ frames, r.1 = some frames := by
    split_ifs at hpush <;> cases hpush <;> exact ⟨_, rfl⟩
  obtain ⟨frames, hframes⟩ := hsome
  obtain ⟨hne, hdepth⟩ := hpushed frames hframes
  refine ⟨frames, hframes, hne, hdepth, hring.of_keeps hkeeps, ?_⟩
  rw [hkeeps.tokens]
  exact hread.stands

theorem parse_safe (input : Bytes) (contentStream hasContext : Bool) :
    ∃ outcome, (start input hasContext).parse contentStream = some outcome ∧
      Safe Panics outcome fun r => ∀ value, r.1 = some value → IsContainer value →
        ∃ s, LoopState contentStream (start input hasContext) s ∧ Closes s value r.2 := by
  have hread := nextToken_safe (stands_start input hasContext)
  unfold parse
  cases hnext : (start input hasContext).nextToken with
  | error e => exact ⟨_, rfl, .error (hread.of_error hnext)⟩
  | ok r =>
    obtain ⟨token, q⟩ := r
    dsimp only
    split_ifs with heof hendobj hopen
    · exact ⟨_, rfl, .ok nofun⟩
    · refine ⟨_, rfl, .ok ?_⟩
      rintro value ⟨⟩ hcontainer
      exact hcontainer.elim
    · cases hpush : q.pushFrame [] token with
      | error e => exact ⟨_, rfl, .error ((pushFrame_safe (p := q)).of_error hpush)⟩
      | ok pushed =>
        obtain ⟨frames, hframes, hrunning⟩ := running_of_open hnext hpush
        obtain ⟨_, q'⟩ := pushed
        dsimp only at hframes hrunning ⊢
        subst hframes
        have hfuel : input.length - q'.tokens.pos < q'.tokens.input.length + 2 := by
          rw [hrunning.stands.same]
          omega
        obtain ⟨outcome, hrun, hsafe⟩ := remainder_total contentStream hrunning hfuel
        refine ⟨outcome, hrun, hsafe.mono ?_⟩
        intro r hcloses value hvalue hcontainer
        obtain ⟨s, hturns, hs⟩ := hcloses value hvalue hcontainer
        exact ⟨s, ⟨token, q, frames, q', hnext, hopen, hpush, hturns⟩, hs⟩
    · rw [not_or] at hopen
      exact ⟨_, rfl, (parseContentToken_safe hopen.1 hopen.2).map fun r hr value hvalue hcontainer =>
        absurd (Option.some.inj hvalue ▸ hcontainer) hr.2⟩
    · rw [not_or] at hopen
      exact ⟨_, rfl, (parseScalarToken_safe hopen.1 hopen.2).map fun r hr value hvalue hcontainer =>
        absurd (Option.some.inj hvalue ▸ hcontainer) hr.2⟩

end LiveParser

namespace LiveTokenSource

/-- The source after some of its tokens. -/
def Reads (input : Bytes) (s : LiveTokenSource) : Prop :=
  ReflTransGen (fun s s' => ∃ live, s.nextLiveToken = .ok (live, s')) (new input) s

theorem Reads.follows {input : Bytes} {s : LiveTokenSource} (h : Reads input s) :
    ∃ t, Follows s t := by
  induction h with
  | refl => exact ⟨_, follows_new input⟩
  | tail _ hstep ih =>
    obtain ⟨t, hfollows⟩ := ih
    obtain ⟨live, hlive⟩ := hstep
    obtain ⟨token, t', -, -, ⟨e, herror, -⟩ | ⟨live', s', hok, -, -, -, -, -, hfollows'⟩⟩ :=
      nextLiveToken_eq hfollows
    · rw [herror] at hlive
      cases hlive
    · rw [hok] at hlive
      cases hlive
      exact ⟨t', hfollows'⟩

/-- A token takes a byte until the end of the input, and has the form that the
parser expects of its type; only the conversion of an integer fails. -/
theorem Reads.next {input : Bytes} {s : LiveTokenSource} (h : Reads input s) :
    Safe (fun e => e = stateError ∨ Panics e) s.nextLiveToken fun r =>
      r.1.Compact ∧ (r.1.tokenType ≠ .eof → s.pos < r.2.pos) := by
  obtain ⟨t, hfollows⟩ := h.follows
  obtain ⟨token, t', -, hspec, ⟨e, herror, -, hparse⟩ |
      ⟨live, s', hok, hcompact, htype, -, -, -, hfollows'⟩⟩ :=
    nextLiveToken_eq hfollows
  · rw [herror]
    refine .error ?_
    have hinternal : ∀ message, e ≠ .internal message := by
      rintro message rfl
      unfold parseIntegerBytes at hparse
      split_ifs at hparse <;> cases hparse
    rintro (heq | hpanic)
    · exact hinternal _ heq
    · exact not_panics_of_ne hinternal hpanic
  · rw [hok]
    refine .ok ⟨hcompact, ?_⟩
    intro heof
    rw [htype] at heof
    rw [hfollows.pos, hfollows'.pos]
    exact hspec.pos_lt rfl heof

end LiveTokenSource

namespace LiveParser

/-- For every input and in both modes, a parse ends without a panic, with a
container only behind the token that closes it; it never holds more containers
than the limit, and every token takes a byte until the end of the input. -/
theorem parse_total (input : Bytes) (contentStream hasContext : Bool) :
    (∃ outcome, (start input hasContext).parse contentStream = some outcome ∧
      (∀ e, outcome = .error e → ¬Panics e) ∧
      ∀ value p', outcome = .ok (some value, p') → IsContainer value →
        ∃ s, LoopState contentStream (start input hasContext) s ∧ Closes s value p') ∧
    (∀ s, LoopState contentStream (start input hasContext) s →
      s.2 ≠ [] ∧ s.2.length ≤ maxParseDepth ∧
        ∀ token q, s.1.nextToken = .ok (token, q) → token.tokenType ≠ .eof →
          s.1.tokens.pos < q.tokens.pos) ∧
    ∀ s, LiveTokenSource.Reads input s →
      s.nextLiveToken ≠ .error LiveTokenSource.stateError ∧
        ∀ live s', s.nextLiveToken = .ok (live, s') →
          live.Compact ∧ (live.tokenType ≠ .eof → s.pos < s'.pos) := by
  refine ⟨?_, ?_, ?_⟩
  · obtain ⟨outcome, hparse, hsafe⟩ := parse_safe input contentStream hasContext
    exact ⟨outcome, hparse, fun e he => hsafe.of_error he,
      fun value p' hok hcontainer => hsafe.of_ok hok value rfl hcontainer⟩
  · rintro s ⟨token, q, frames, q', hnext, -, hpush, hturns⟩
    obtain ⟨frames', hframes, hrunning⟩ := running_of_open hnext hpush
    obtain rfl := Option.some.inj hframes
    have hs := running_of_turns hturns hrunning
    refine ⟨hs.ne, hs.depth, ?_⟩
    intro token' r hread heof
    exact ((nextToken_safe hs.stands).of_ok hread).takes heof
  · intro s hs
    have hnext := hs.next
    refine ⟨fun herror => hnext.of_error herror (.inl rfl), ?_⟩
    intro live s' hlive
    exact hnext.of_ok hlive

end LiveParser

end Flpdf
