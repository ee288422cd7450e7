import Flpdf.Object.Unparse
import Flpdf.Parser.Totality
import Flpdf.Tokenizer.LexemeRuns

/-!
# What the parser accepts

Whatever bytes it is given, the parser makes values that a file can hold: their numbers fit, their
references name objects, their keys ascend, and no container is nested too deep.
-/

namespace Flpdf

open Tokenizer

/-! ## Tokens -/

section Tokens

variable {o : Tokenizer}

/-- A token of type `Real` is one wherever it stands. -/
theorem isRealToken_of_lexToken (hi : o.includeIgnorable = false)
    (htype : (o.lexToken 0).tokenType = .real) : isRealToken (o.lexToken 0).value = true := by
  have hrun : regularRun o.upcoming ≠ [] := by
    intro hnil
    have hother := lexToken_other hi (.inl rfl) (.inl hnil)
    rw [htype] at hother
    cases hother
  rw [lexToken_run hi hrun (.inl rfl)] at htype ⊢
  have hspelling := Spelling.run hrun fun _ hb => regular_of_mem_regularRun hb
  have hreal : runType (runState (regularRun o.upcoming)) (regularRun o.upcoming) = .real := htype
  rw [hreal] at hspelling
  have htoken := lexToken_spelling (o := { input := regularRun o.upcoming, allowEof := true })
    LexState.noConfusion rfl hspelling (List.append_nil _).symm (.inr (by simp))
  rw [isRealToken, readQpdfToken_eq LexState.noConfusion]
  have hvalue : (runToken o.upcomingStart (runState (regularRun o.upcoming))
      (regularRun o.upcoming)).value = regularRun o.upcoming := rfl
  rw [hvalue, htoken]
  simp [spelledToken]

theorem noName_skipping {b : UInt8} (hd : isTokenDelimiter b = true) (hws : isWs b = false)
    (hpercent : b ≠ 0x25) (hslash : b ≠ 0x2f) : NoName ((o.skipping false).readByte 0 b) := by
  rcases delimiter_cases hd hws hpercent hslash with rfl | rfl | rfl | rfl | rfl | rfl | rfl | rfl <;>
    exact ⟨rfl, nofun, nofun⟩

theorem takeReadyToken_name (htype : o.tokenType = .name) :
    o.unread.takeReadyToken.value = o.value := by
  unfold unread
  split_ifs <;> simp [takeReadyToken, htype]

theorem takeReadyToken_message : o.unread.takeReadyToken.errorMessage = o.errorMessage := by
  unfold unread
  split_ifs <;> rfl

/-- A name has its slash, and there is a complaint about a NUL in it. -/
theorem name_of_lexToken (hi : o.includeIgnorable = false)
    (htype : (o.lexToken 0).tokenType = .name) : ∃ n, (o.lexToken 0).value = 0x2f :: n ∧
      ((o.lexToken 0).errorMessage = none → 0 ∉ n) := by
  by_cases hrun : regularRun o.upcoming = []
  swap
  · rw [lexToken_run hi hrun (.inl rfl)] at htype
    exact absurd htype (runType_ne _ _).1
  obtain ⟨c, htoken, hc⟩ := lexToken_eq (m := 0) hi
  rw [htoken] at htype ⊢
  rw [takeReadyToken_unread_type] at htype
  cases hup : o.upcoming with
  | nil =>
    rw [hup, readLoop, if_neg (skipping_not_ready c)] at htype
    cases c <;>
      simp only [readEof, presentEof, skipping, reset, endWith, hi, if_true, if_false,
        Bool.false_eq_true] at htype <;> split_ifs at htype
  | cons b rest =>
    obtain rfl := hc (by simp [hup])
    have hhead := skipGap_head hup
    have hdelimiter : isTokenDelimiter b = true := by
      by_contra hd
      rw [hup, regularRun_cons_of_regular (by simpa [isRegular] using hd)] at hrun
      cases hrun
    rw [hup, readLoop_cons (skipping_not_ready false)] at htype
    rw [readLoop_cons (skipping_not_ready false)]
    have hslash : b = 0x2f := by
      by_contra hslash
      exact (noName_readLoop (noName_skipping hdelimiter hhead.1 hhead.2 hslash) rest).1 htype
    subst hslash
    obtain ⟨-, n, hn⟩ := readLoop_name rfl htype
    have hends : EndsName (readLoop 0 rest
        ((({ o with pos := o.upcomingStart } : Tokenizer).skipping false).readByte 0 0x2f)) :=
      endsName_readLoop (inNameText_slash { o with pos := o.upcomingStart })
    rw [takeReadyToken_name htype, takeReadyToken_message]
    refine ⟨n, hn.symm, ?_⟩
    intro hnone hzero
    have hcomplains := hends.complains (hn ▸ List.mem_cons_of_mem _ hzero)
    rw [hnone] at hcomplains
    cases hcomplains

end Tokens

/-! ## Values -/

/-- A key of a name token. -/
def IsKey (clean : Prop) (key : Bytes) : Prop := ∃ n : Bytes, key = 0x2f :: n ∧ (clean → 0 ∉ n)

theorem IsKey.mono {clean clean' : Prop} {key : Bytes} (h : IsKey clean key)
    (hclean : clean' → clean) : IsKey clean' key := by
  obtain ⟨n, hkey, hn⟩ := h
  exact ⟨n, hkey, fun h => hn (hclean h)⟩

/-- A value a parse can give, with containers nested at most `d` deep; where `clean` holds there
was nothing to warn about, and so no NUL in a name. -/
inductive Accepted (clean : Prop) : ℕ → ObjectValue → Prop where
  | null {d : ℕ} : Accepted clean d .null
  | boolean {d : ℕ} (value : Bool) : Accepted clean d (.boolean value)
  | integer {d : ℕ} {value : ℤ} (hlower : -2 ^ 63 ≤ value) (hupper : value < 2 ^ 63) :
      Accepted clean d (.integer value)
  | real {d : ℕ} {encoded : Bytes} (h : isRealToken encoded = true) :
      Accepted clean d (.real encoded)
  | name {d : ℕ} {value : Bytes} (h : clean → 0 ∉ value) : Accepted clean d (.name value)
  | string {d : ℕ} (value : Bytes) : Accepted clean d (.string value)
  | reference {d : ℕ} {number generation : ℤ} (hnumber : 1 ≤ number ∧ number < 2 ^ 31)
      (hgeneration : 0 ≤ generation ∧ generation < 65535) :
      Accepted clean d (.indirect ⟨number, generation⟩)
  | array {d : ℕ} {items : List ObjectValue} (hitems : ∀ item ∈ items, Accepted clean d item) :
      Accepted clean (d + 1) (.array items)
  | dictionary {d : ℕ} {entries : List (Bytes × ObjectValue)} (hascending : Ascending entries)
      (hkeys : ∀ e ∈ entries, IsKey clean e.1)
      (hentries : ∀ e ∈ entries, Accepted clean d e.2) :
      Accepted clean (d + 1) (.dictionary entries)

section Values

variable {clean clean' : Prop} {d : ℕ} {value : ObjectValue}

theorem Accepted.mono (h : Accepted clean d value) (hclean : clean' → clean) :
    Accepted clean' d value := by
  induction h with
  | null => exact .null
  | boolean value => exact .boolean value
  | integer hlower hupper => exact .integer hlower hupper
  | real hreal => exact .real hreal
  | name hn => exact .name fun h => hn (hclean h)
  | string value => exact .string value
  | reference hnumber hgeneration => exact .reference hnumber hgeneration
  | array hitems ih => exact .array ih
  | dictionary hascending hkeys hentries ih =>
    exact .dictionary hascending (fun e he => (hkeys e he).mono hclean) ih

/-- Without a warning the value can be written and read back. -/
theorem Accepted.readable (h : Accepted clean d value) (hclean : clean) : Readable d value := by
  induction h with
  | null => exact .null
  | boolean value => exact .boolean value
  | integer hlower hupper => exact .integer hlower hupper
  | real hreal => exact .real hreal
  | name hn => exact .name (hn hclean)
  | string value => exact .string value
  | reference hnumber hgeneration => exact .reference hnumber hgeneration
  | array hitems ih => exact .array ih
  | dictionary hascending hkeys hentries ih =>
    refine .dictionary hascending ?_ ih
    intro e he
    obtain ⟨n, hkey, hn⟩ := hkeys e he
    exact ⟨n, hkey, hn hclean⟩

end Values

/-! ## Frames -/

/-- The entries of a dictionary. -/
def EntriesAccept (clean : Prop) (d : ℕ) (values : List (Bytes × ObjectValue)) : Prop :=
  Ascending values ∧ ∀ e ∈ values, IsKey clean e.1 ∧ Accepted clean d e.2

namespace EntriesAccept

variable {clean clean' : Prop} {d : ℕ} {key : Bytes} {value : ObjectValue}
  {values : List (Bytes × ObjectValue)}

theorem mono (h : EntriesAccept clean d values) (hclean : clean' → clean) :
    EntriesAccept clean' d values :=
  ⟨h.1, fun e he => ⟨(h.2 e he).1.mono hclean, (h.2 e he).2.mono hclean⟩⟩

theorem insertSorted (h : EntriesAccept clean d values) (hkey : IsKey clean key)
    (hvalue : Accepted clean d value) : EntriesAccept clean d (insertSorted key value values) := by
  refine ⟨h.1.insertSorted, fun e he => ?_⟩
  rcases mem_insertSorted he with rfl | he
  · exact ⟨hkey, hvalue⟩
  · exact h.2 e he

end EntriesAccept

/-- What an open container has taken, all of it nested at most `d` deep. -/
def LiveFrame.Accepts (clean : Prop) (d : ℕ) : LiveFrame → Prop
  | .array values => ∀ value ∈ values, Accepted clean d value
  | .dictionary values orphanValues pendingKey _ =>
    EntriesAccept clean d values ∧ (∀ value ∈ orphanValues, Accepted clean d value) ∧
      ∀ key ∈ pendingKey, IsKey clean key

/-- The room below a container that has some others around it. -/
def roomBelow (around : ℕ) : ℕ := maxParseDepth - around - 1

theorem roomBelow_succ {around : ℕ} (h : around < maxParseDepth) :
    roomBelow around + 1 = maxParseDepth - around := by
  rw [roomBelow]
  omega

def FramesAccept (clean : Prop) : List LiveFrame → Prop
  | [] => True
  | frame :: frames => frame.Accepts clean (roomBelow frames.length) ∧ FramesAccept clean frames

theorem LiveFrame.Accepts.mono {clean clean' : Prop} {d : ℕ} {frame : LiveFrame}
    (h : frame.Accepts clean d) (hclean : clean' → clean) : frame.Accepts clean' d := by
  cases frame with
  | array values => exact fun value hvalue => (h value hvalue).mono hclean
  | dictionary values orphanValues pendingKey frameOffset =>
    obtain ⟨hvalues, horphans, hpending⟩ := h
    exact ⟨hvalues.mono hclean, fun value hvalue => (horphans value hvalue).mono hclean,
      fun key hkey => (hpending key hkey).mono hclean⟩

theorem FramesAccept.mono {clean clean' : Prop} {frames : List LiveFrame}
    (h : FramesAccept clean frames) (hclean : clean' → clean) : FramesAccept clean' frames := by
  induction frames with
  | nil => trivial
  | cons frame frames ih => exact ⟨h.1.mono hclean, ih h.2⟩

namespace LiveParser

variable {p p' p'' : LiveParser} {frames : List LiveFrame} {token : Token} {value : ObjectValue}
  {d : ℕ}

/-! ## Steps that leave the ring alone -/

/-- Every value satisfies `Q`, whatever the errors are. -/
abbrev Ensures {α : Type} (x : Except ParseError α) (Q : α → Prop) : Prop :=
  Safe (fun _ => False) x Q

/-- Nothing has been warned about. -/
def Clean (p : LiveParser) : Prop := p.diagnostics = []

/-- The input and the ring are left alone, and no warning is taken back. -/
structure Later (p p' : LiveParser) : Prop where
  keeps : Keeps p p'
  clean : p'.Clean → p.Clean

theorem Later.refl (p : LiveParser) : Later p p := ⟨.refl p, id⟩

theorem Later.trans (h : Later p p') (h' : Later p' p'') : Later p p'' :=
  ⟨h.keeps.trans h'.keeps, fun hclean => h.clean (h'.clean hclean)⟩

theorem warn_later (offset : ℕ) (message : Bytes) :
    Ensures (p.warn offset message) fun p' => Later p p' ∧ ¬p'.Clean := by
  unfold warn
  split_ifs
  · have hdirty : ¬({ p with diagnostics := p.diagnostics ++ [(offset, message)] } :
        LiveParser).Clean := by
      simp [Clean]
    exact .ok ⟨⟨⟨rfl, rfl, rfl, rfl⟩, fun hclean => absurd hclean hdirty⟩, hdirty⟩
  · exact .error id

theorem tooManyBadTokens_later (offset : ℕ) : Ensures (p.tooManyBadTokens offset) (Later p) := by
  unfold tooManyBadTokens
  split_ifs
  · dsimp only
    split_ifs
    · refine (warn_later offset _).bind ?_
      rintro p' ⟨hlater, -⟩
      exact .pure ⟨⟨hlater.keeps.tokens, hlater.keeps.count, hlater.keeps.even, hlater.keeps.odd⟩,
        hlater.clean⟩
    · exact .pure ⟨⟨rfl, rfl, rfl, rfl⟩, id⟩
  · exact .pure ⟨⟨rfl, rfl, rfl, rfl⟩, id⟩

/-- A step that gives a value. -/
def Gives (p : LiveParser) (d : ℕ) (r : ObjectValue × LiveParser) : Prop :=
  Later p r.2 ∧ IsDirect r.1 ∧ Accepted r.2.Clean d r.1

theorem unexpected_gives (offset : ℕ) (message : Bytes) :
    Ensures (p.unexpected offset message) (Gives p d) := by
  refine (warn_later offset message).bind ?_
  rintro p' ⟨hwarn, -⟩
  refine (tooManyBadTokens_later offset).bind ?_
  intro p'' hbad
  exact .pure ⟨hwarn.trans hbad, trivial, .null⟩

/-- What the parser relies on in a token that it has read. -/
structure Fit (clean : Prop) (token : Token) : Prop where
  integer : token.tokenType = .integer → -2 ^ 63 ≤ intValue token.raw ∧ intValue token.raw < 2 ^ 63
  real : token.tokenType = .real → isRealToken token.value = true
  name : token.tokenType = .name → IsKey clean token.value

theorem parseScalarToken_gives (h : Fit p.Clean token) :
    Ensures (p.parseScalarToken token) (Gives p d) := by
  unfold parseScalarToken
  cases htype : token.tokenType with
  | integer =>
    obtain ⟨hlower, hupper⟩ := h.integer htype
    exact .ok ⟨.refl p, trivial, .integer hlower hupper⟩
  | name =>
    obtain ⟨n, hn, hnul⟩ := h.name htype
    refine .ok ⟨.refl p, trivial, ?_⟩
    rw [hn]
    exact .name hnul
  | real => exact .ok ⟨.refl p, trivial, .real (h.real htype)⟩
  | string => exact .ok ⟨.refl p, trivial, .string _⟩
  | bool => exact .ok ⟨.refl p, trivial, .boolean _⟩
  | null => exact .ok ⟨.refl p, trivial, .null⟩
  | word =>
    refine (warn_later _ _).bind ?_
    rintro p' ⟨hwarn, -⟩
    refine (tooManyBadTokens_later _).bind ?_
    intro p'' hbad
    exact .pure ⟨hwarn.trans hbad, trivial, .string _⟩
  | bad =>
    refine (tooManyBadTokens_later _).bind ?_
    intro p' hbad
    exact .pure ⟨hbad, trivial, .null⟩
  | eof =>
    refine (warn_later _ _).bind ?_
    rintro p' ⟨hwarn, -⟩
    exact .pure ⟨hwarn, trivial, .null⟩
  | dictOpen | arrayOpen => exact .error id
  | _ => exact unexpected_gives _ _

/-! ## Steps on the frames -/

/-- The frame takes a value. -/
theorem addToFrame_accepts {frame : LiveFrame} (h : frame.Accepts p.Clean d)
    (hvalue : Accepted p.Clean d value) :
    Ensures (p.addToFrame frame value) fun r => Later p r.2 ∧ r.1.Accepts r.2.Clean d := by
  unfold addToFrame
  rcases frame with values | ⟨values, orphanValues, _ | key, frameOffset⟩
  · refine .ok ⟨.refl p, ?_⟩
    intro item hitem
    rcases List.mem_append.mp hitem with hitem | hitem
    · exact h item hitem
    · exact List.mem_singleton.mp hitem ▸ hvalue
  · obtain ⟨hvalues, horphans, hpending⟩ := h
    refine .ok ⟨.refl p, hvalues, ?_, hpending⟩
    intro item hitem
    rcases List.mem_append.mp hitem with hitem | hitem
    · exact horphans item hitem
    · exact List.mem_singleton.mp hitem ▸ hvalue
  · obtain ⟨hvalues, horphans, hpending⟩ := h
    have hinsert : Ensures (p.insertDictionaryValue values key value frameOffset) fun r =>
        Later p r.2 ∧ r.1 = insertSorted key value values := by
      unfold insertDictionaryValue
      split_ifs
      · refine (warn_later _ _).bind ?_
        rintro p' ⟨hwarn, -⟩
        exact .pure ⟨hwarn, rfl⟩
      · exact .pure ⟨.refl p, rfl⟩
    refine hinsert.bind ?_
    rintro ⟨values', p'⟩ ⟨hlater, rfl⟩
    exact .pure ⟨hlater, (hvalues.insertSorted (hpending key rfl) hvalue).mono hlater.clean,
      fun item hitem => (horphans item hitem).mono hlater.clean, nofun⟩

/-- As many frames, and all of them as they should be. -/
def FramesStep (p : LiveParser) (frames : List LiveFrame) (r : List LiveFrame × LiveParser) : Prop :=
  Later p r.2 ∧ r.1.length = frames.length ∧ FramesAccept r.2.Clean r.1

theorem addToTopFrame_accepts (h : FramesAccept p.Clean frames)
    (hvalue : Accepted p.Clean (roomBelow (frames.length - 1)) value) :
    Ensures (p.addToTopFrame frames value) (FramesStep p frames) := by
  cases frames with
  | nil => exact .error id
  | cons frame frames =>
    refine (addToFrame_accepts h.1 hvalue).bind ?_
    rintro ⟨frame', p'⟩ ⟨hlater, hframe⟩
    exact .pure ⟨hlater, rfl, hframe, h.2.mono hlater.clean⟩

theorem pushFrame_accepts (h : FramesAccept p.Clean frames) :
    Ensures (p.pushFrame frames token) fun r => Later p r.2 ∧
      ∀ frames' ∈ r.1, frames'.length ≤ maxParseDepth ∧ FramesAccept r.2.Clean frames' := by
  unfold pushFrame
  split_ifs with hlimit htype
  · refine (warn_later _ _).bind ?_
    rintro p' ⟨hwarn, -⟩
    exact .pure ⟨hwarn.trans ⟨⟨rfl, rfl, rfl, rfl⟩, id⟩, nofun⟩
  · refine .ok ⟨.refl p, ?_⟩
    rintro frames' ⟨⟩
    exact ⟨by rw [List.length_cons]; omega, nofun, h⟩
  · refine .ok ⟨.refl p, ?_⟩
    rintro frames' ⟨⟩
    exact ⟨by rw [List.length_cons]; omega, ⟨⟨.nil, nofun⟩, nofun, nofun⟩, h⟩

theorem fakeKey_slash (taken : Bytes → Bool) (fuel fake : ℕ) :
    ∃ n, (fakeKey taken fuel fake).1 = 0x2f :: n := by
  have hslash (fake : ℕ) : ∃ n, ascii s!"/QPDFFake{fake}" = 0x2f :: n := by
    refine ⟨ascii "QPDFFake" ++ ascii (toString fake), ?_⟩
    simp only [ascii, String.toList_append, List.map_append]
    rfl
  induction fuel generalizing fake with
  | zero => exact hslash fake
  | succ fuel ih =>
    rw [fakeKey]
    split_ifs
    · exact ih (fake + 1)
    · exact hslash fake

/-- An orphaned value has been warned about when it gets its key. -/
theorem insertOrphans_accepts {orphanNames : List Bytes} {frameOffset : ℕ}
    {orphanValues : List ObjectValue} {fake : ℕ} {values : List (Bytes × ObjectValue)}
    (h : EntriesAccept p.Clean d values)
    (horphans : ∀ value ∈ orphanValues, Accepted p.Clean d value) :
    Ensures (insertOrphans orphanNames frameOffset orphanValues fake values p) fun r =>
      Later p r.2 ∧ EntriesAccept r.2.Clean d r.1 := by
  induction orphanValues generalizing fake values p with
  | nil => exact .ok ⟨.refl p, h⟩
  | cons value orphanValues ih =>
    rw [insertOrphans]
    dsimp only
    obtain ⟨n, hn⟩ := fakeKey_slash
      (fun key => (values.lookup key).isSome || orphanNames.contains key)
      (values.length + orphanNames.length) fake
    refine (warn_later _ _).bind ?_
    rintro p' ⟨hwarn, hdirty⟩
    have hentries : EntriesAccept p'.Clean d (insertSorted (fakeKey
        (fun key => (values.lookup key).isSome || orphanNames.contains key)
        (values.length + orphanNames.length) fake).1 value values) :=
      (h.mono hwarn.clean).insertSorted ⟨n, hn, fun hclean => absurd hclean hdirty⟩
        ((horphans value List.mem_cons_self).mono hwarn.clean)
    refine (ih hentries fun item hitem =>
      (horphans item (List.mem_cons_of_mem _ hitem)).mono hwarn.clean).mono ?_
    rintro r ⟨hlater, hvalues⟩
    exact ⟨hwarn.trans hlater, hvalues⟩

theorem finishDictionary_gives {values : List (Bytes × ObjectValue)}
    {orphanValues : List ObjectValue} {pendingKey : Option Bytes} {frameOffset : ℕ}
    (h : (LiveFrame.dictionary values orphanValues pendingKey frameOffset).Accepts p.Clean d) :
    Ensures (p.finishDictionary values orphanValues pendingKey frameOffset) (Gives p (d + 1)) := by
  obtain ⟨hvalues, horphans, hpending⟩ := h
  have hrest {values' : List (Bytes × ObjectValue)} {p' : LiveParser} (hlater : Later p p')
      (hentries : EntriesAccept p'.Clean d values') :
      Ensures (insertOrphans ((orphanValues.filterMap asName).map (0x2f :: ·)) frameOffset
        orphanValues 1 values' p' >>= fun r => return (.dictionary r.1, r.2)) (Gives p (d + 1)) := by
    refine (insertOrphans_accepts hentries fun item hitem =>
      (horphans item hitem).mono hlater.clean).bind ?_
    rintro ⟨values'', p''⟩ ⟨hlater', hascending', hvalues'⟩
    exact .pure ⟨hlater.trans hlater', trivial,
      .dictionary hascending' (fun e he => (hvalues' e he).1) fun e he => (hvalues' e he).2⟩
  unfold finishDictionary
  cases pendingKey with
  | none => exact hrest (.refl p) hvalues
  | some key =>
    refine ((warn_later frameOffset _).bind (R := fun r => Later p r.2 ∧ r.1 =
      insertSorted key .null values) ?_).bind ?_
    · rintro p' ⟨hwarn, -⟩
      exact .pure ⟨hwarn, rfl⟩
    · rintro ⟨values', p'⟩ ⟨hlater, rfl⟩
      exact hrest hlater ((hvalues.insertSorted (hpending key rfl) .null).mono hlater.clean)

/-! ## The parser between two turns -/

variable {input : Bytes} {n : ℕ} {integer : PendingInteger}

def InRange (integer : PendingInteger) : Prop := -2 ^ 63 ≤ integer.value ∧ integer.value < 2 ^ 63

structure Sound (input : Bytes) (p : LiveParser) (frames : List LiveFrame) : Prop where
  depth : frames.length ≤ maxParseDepth
  accepts : FramesAccept p.Clean frames
  ring : ∀ n, ∀ integer ∈ p.integerAt n, InRange integer
  stands : Stands input p.tokens
  plain : p.tokens.includeIgnorable = false

theorem Sound.later (h : Sound input p frames) (hlater : Later p p') : Sound input p' frames where
  depth := h.depth
  accepts := h.accepts.mono hlater.clean
  ring := fun n => hlater.keeps.integerAt n ▸ h.ring n
  stands := hlater.keeps.tokens ▸ h.stands
  plain := hlater.keeps.tokens ▸ h.plain

theorem Sound.step {r : List LiveFrame × LiveParser} (h : Sound input p frames)
    (hstep : FramesStep p frames r) : Sound input r.2 r.1 where
  depth := hstep.2.1 ▸ h.depth
  accepts := hstep.2.2
  ring := (h.later hstep.1).ring
  stands := (h.later hstep.1).stands
  plain := (h.later hstep.1).plain

/-- How many integers are held back does not matter. -/
theorem Sound.counted (h : Sound input p frames) (count : ℕ) :
    Sound input { p with integerCount := count } frames :=
  ⟨h.depth, h.accepts, h.ring, h.stands, h.plain⟩

theorem Sound.setInteger (h : Sound input p frames) {slot : Option PendingInteger}
    (hslot : ∀ integer ∈ slot, InRange integer) : Sound input (p.setInteger n slot) frames where
  depth := h.depth
  accepts := by
    rw [Clean, (calm_setInteger n slot).diagnostics]
    exact h.accepts
  ring := by
    intro m
    rw [integerAt_setInteger]
    split_ifs
    · exact hslot
    · exact h.ring m
  stands := by
    rw [calm_tokens_setInteger]
    exact h.stands
  plain := by
    rw [calm_tokens_setInteger]
    exact h.plain

/-- A step that goes on, and takes no warning back. -/
def GoesOn (input : Bytes) (p : LiveParser) (r : List LiveFrame × LiveParser) : Prop :=
  Sound input r.2 r.1 ∧ (r.2.Clean → p.Clean)

theorem clean_setInteger {slot : Option PendingInteger} :
    (p.setInteger n slot).Clean ↔ p.Clean := by
  rw [Clean, Clean, (calm_setInteger n slot).diagnostics]

theorem takeInteger_sound (h : Sound input p frames) :
    Ensures (p.takeInteger n) fun r =>
      InRange r.1 ∧ Sound input r.2 frames ∧ (r.2.Clean → p.Clean) := by
  unfold takeInteger
  cases hinteger : p.integerAt n with
  | none => exact .error id
  | some integer =>
    exact .ok ⟨h.ring n integer hinteger, h.setInteger nofun, clean_setInteger.mp⟩

theorem addPendingInteger_sound (h : Sound input p frames) (hrange : InRange integer) :
    Ensures (p.addPendingInteger integer frames) (GoesOn input p) :=
  (addToTopFrame_accepts h.accepts (.integer hrange.1 hrange.2)).mono fun _ hstep =>
    ⟨h.step hstep, hstep.1.clean⟩

theorem bufferInteger_sound (h : Sound input p frames) (hrange : InRange integer) :
    Ensures (p.bufferInteger integer frames) (GoesOn input p) := by
  have hslot : ∀ i ∈ some integer, InRange i := by
    rintro i ⟨⟩
    exact hrange
  unfold bufferInteger
  dsimp only
  split_ifs
  · refine (takeInteger_sound (h.counted _)).bind ?_
    rintro ⟨oldest, p'⟩ ⟨holdest, h', hclean⟩
    refine (addPendingInteger_sound h' holdest).bind ?_
    rintro ⟨frames', p''⟩ ⟨h'', hclean'⟩
    exact .pure ⟨h''.setInteger hslot, fun hall => hclean (hclean' (clean_setInteger.mp hall))⟩
  · exact .pure ⟨(h.counted _).setInteger hslot, clean_setInteger.mp⟩

theorem flushIntegerBuffer_sound (h : Sound input p frames) :
    Ensures (p.flushIntegerBuffer frames) (GoesOn input p) := by
  unfold flushIntegerBuffer
  split_ifs
  · exact .pure ⟨h, id⟩
  · refine (takeInteger_sound h).bind ?_
    rintro ⟨first, p'⟩ ⟨hfirst, h', hclean⟩
    refine (addPendingInteger_sound h' hfirst).bind ?_
    rintro ⟨frames', p''⟩ ⟨h'', hclean'⟩
    exact .pure ⟨h''.counted 0, fun hall => hclean (hclean' hall)⟩
  · refine (takeInteger_sound h).bind ?_
    rintro ⟨first, p'⟩ ⟨hfirst, h', hclean⟩
    refine (takeInteger_sound h').bind ?_
    rintro ⟨second, p''⟩ ⟨hsecond, h'', hclean'⟩
    refine (addPendingInteger_sound h'' hfirst).bind ?_
    rintro ⟨frames₁, p₁⟩ ⟨h₁, hclean₁⟩
    refine (addPendingInteger_sound h₁ hsecond).bind ?_
    rintro ⟨frames₂, p₂⟩ ⟨h₂, hclean₂⟩
    exact .pure ⟨h₂.counted 0, fun hall => hclean (hclean' (hclean₁ (hclean₂ hall)))⟩

/-- A number of a reference fits an `int`. -/
theorem qpdfInt_fits : Ensures (qpdfInt integer) fun value => value < 2 ^ 31 := by
  unfold qpdfInt qpdfI64ToIntChecked
  by_cases hfits : FitsInt integer.value
  · rw [if_pos hfits]
    exact .ok (by unfold FitsInt at hfits; omega)
  · rw [if_neg hfits]
    exact .error id

theorem finishIntegerReference_sound (h : Sound input p frames) :
    Ensures (p.finishIntegerReference frames) fun r => Sound input r.2 r.1 := by
  unfold finishIntegerReference
  refine (takeInteger_sound h).bind ?_
  rintro ⟨first, p'⟩ ⟨-, h', -⟩
  refine (takeInteger_sound h').bind ?_
  rintro ⟨second, p''⟩ ⟨-, h'', -⟩
  dsimp only
  split_ifs
  · refine qpdfInt_fits.bind ?_
    intro number hnumber
    refine qpdfInt_fits.bind ?_
    intro generation _
    have hsound := h''.counted 0
    refine (addToTopFrame_accepts hsound.accepts ?_).mono fun _ => hsound.step
    split_ifs with hvalid
    · exact .reference ⟨hvalid.1, hnumber⟩ ⟨hvalid.2.1, hvalid.2.2⟩
    · exact .null
  · exact .error id

/-! ## Turns -/

/-- The loop goes on, or it ends with a value. -/
structure Turn (input : Bytes) (r : List LiveFrame × LiveParser × Option ObjectValue) : Prop where
  goesOn : r.2.2 = none → Sound input r.2.1 r.1
  ends : ∀ value ∈ r.2.2, IsDirect value ∧ Accepted r.2.1.Clean maxParseDepth value

theorem turn_of_sound {r : List LiveFrame × LiveParser} (h : Sound input r.2 r.1) (giveUp : Bool) :
    Turn input (r.1, r.2, if giveUp then some .null else none) where
  goesOn := fun _ => h
  ends := by
    intro value hvalue
    cases giveUp with
    | false => cases hvalue
    | true =>
      cases hvalue
      exact ⟨trivial, .null⟩

theorem addScalar_turn (h : Sound input p frames) (hfit : Fit p.Clean token) :
    Ensures (p.addScalar frames token) (Turn input) := by
  unfold addScalar
  refine (parseScalarToken_gives (d := roomBelow (frames.length - 1)) hfit).bind ?_
  rintro ⟨value, p'⟩ ⟨hlater, -, hvalue⟩
  have h' := h.later hlater
  dsimp only
  split_ifs
  · exact .pure (turn_of_sound (r := (frames, p')) h' true)
  · refine (addToTopFrame_accepts h'.accepts hvalue).bind ?_
    rintro ⟨frames', p''⟩ hstep
    exact .pure (turn_of_sound (h'.step hstep) _)

/-- A completed container has the room of its frame and one level more. -/
theorem complete_turn (h : Sound input p frames) (hroom : frames.length < maxParseDepth)
    (hdirect : IsDirect value) (hvalue : Accepted p.Clean (maxParseDepth - frames.length) value) :
    Ensures (p.complete frames value) (Turn input) := by
  cases frames with
  | nil =>
    refine .ok ⟨nofun, ?_⟩
    rintro value' ⟨⟩
    exact ⟨hdirect, hvalue⟩
  | cons parent frames =>
    have hparent : maxParseDepth - (parent :: frames).length =
        roomBelow ((parent :: frames).length - 1) := by
      rw [roomBelow, List.length_cons]
      omega
    rw [hparent] at hvalue
    rw [complete]
    · refine (addToTopFrame_accepts h.accepts hvalue).bind ?_
      rintro ⟨frames', p'⟩ hstep
      exact .pure (turn_of_sound (h.step hstep) _)
    · exact List.cons_ne_nil _ _

theorem open_turn (h : Sound input p frames) : Ensures (do
    let (pushed, p) ← p.pushFrame frames token
    match pushed with
    | some frames => return (frames, p, if p.giveUp then some .null else none)
    | none => return (frames, p, some .null)) (Turn input) := by
  refine (pushFrame_accepts h.accepts).bind ?_
  rintro ⟨pushed, p'⟩ ⟨hlater, hpushed⟩
  cases pushed with
  | none => exact .pure (turn_of_sound (r := (frames, p')) (h.later hlater) true)
  | some frames' =>
    obtain ⟨hdepth, haccepts⟩ := hpushed frames' rfl
    have h' := h.later hlater
    have hsound : Sound input p' frames' := ⟨hdepth, haccepts, h'.ring, h'.stands, h'.plain⟩
    exact .pure (turn_of_sound (r := (frames', p')) hsound _)

theorem dispatch_turn (h : Sound input p frames) (hfit : Fit p.Clean token) :
    Ensures (p.dispatch frames token) (Turn input) := by
  fun_cases dispatch p frames token with
  | case1 => exact open_turn h
  | case2 => exact open_turn h
  | case3 values frames htype =>
    have hroom : frames.length < maxParseDepth := h.depth
    have hvalue := Accepted.array h.accepts.1
    rw [roomBelow_succ hroom] at hvalue
    exact complete_turn ⟨hroom.le, h.accepts.2, h.ring, h.stands, h.plain⟩ hroom trivial hvalue
  | case4 values orphanValues pendingKey frameOffset frames htype =>
    have hroom : frames.length < maxParseDepth := h.depth
    refine (finishDictionary_gives h.accepts.1).bind ?_
    rintro ⟨value, p'⟩ ⟨hlater, hdirect, hvalue⟩
    rw [roomBelow_succ hroom] at hvalue
    have h' : Sound input p' frames :=
      Sound.later ⟨hroom.le, h.accepts.2, h.ring, h.stands, h.plain⟩ hlater
    exact complete_turn h' hroom hdirect hvalue
  | case5 htype =>
    refine (warn_later _ _).bind ?_
    rintro p' ⟨hwarn, -⟩
    refine (warn_later _ _).bind ?_
    rintro p'' ⟨hwarn', -⟩
    exact .pure (turn_of_sound (r := (frames, p'')) (h.later (hwarn.trans hwarn')) true)
  | case6 values orphanValues frameOffset frames htype =>
    obtain ⟨⟨hvalues, horphans, -⟩, hframes⟩ := h.accepts
    refine .ok ⟨fun _ => ⟨h.depth, ⟨⟨hvalues, horphans, ?_⟩, hframes⟩, h.ring, h.stands, h.plain⟩,
      by simp⟩
    rintro key ⟨⟩
    exact hfit.name htype
  | case7 => exact addScalar_turn h hfit

theorem Fit.mono {clean clean' : Prop} (h : Fit clean token) (hclean : clean' → clean) :
    Fit clean' token :=
  ⟨h.integer, h.real, fun htype => (h.name htype).mono hclean⟩

/-- A token that was read, and the parser behind it. -/
structure TokenFits (input : Bytes) (p : LiveParser) (r : Token × LiveParser) : Prop where
  later : Later { p with tokens := r.2.tokens } r.2
  stands : Stands input r.2.tokens
  plain : r.2.tokens.includeIgnorable = false
  fit : Fit r.2.Clean r.1

/-- The tokens an object is made of are fit for it. -/
theorem nextToken_fits (hstands : Stands input p.tokens)
    (hplain : p.tokens.includeIgnorable = false) : Ensures p.nextToken (TokenFits input p) := by
  obtain ⟨token, t', hspec, hread⟩ := readTokenWithOptions_spec
    (t := { p.tokens with allowEof := true }) hstands.state (hstands.same ▸ hstands.pos_le) true 0
  have hread' : p.tokens.readQpdfToken 0 = (.ok token, t') := by
    rw [readQpdfToken, hread, if_neg]
    simp
  have htoken : ({ p.tokens with allowEof := true } : Tokenizer).lexToken 0 = token := by
    have hlex := readQpdfToken_eq (m := 0) hstands.state
    rw [hread'] at hlex
    exact (Except.ok.inj hlex).symm
  have hstands' : Stands input t' := by
    refine ⟨hspec.input_eq.trans hstands.same, ?_, ?_⟩
    · rw [hspec.state]
      simp
    · exact hstands.same ▸ hspec.pos_le
  have hplain' : t'.includeIgnorable = false := by
    have horigin := congrArg (fun origin => origin.2.2) hspec.origin
    exact horigin.trans hplain
  have hi : ({ p.tokens with allowEof := true } : Tokenizer).includeIgnorable = false := hplain
  have hfit {clean : Prop} (hnone : clean → token.errorMessage = none)
      (hinteger : token.isInteger = true → -2 ^ 63 ≤ intValue token.raw ∧
        intValue token.raw < 2 ^ 63) : Fit clean token := by
    refine ⟨fun htype => hinteger (by simp [Token.isInteger, htype]), ?_, ?_⟩
    · intro htype
      rw [← htoken] at htype ⊢
      exact isRealToken_of_lexToken hi htype
    · intro htype
      rw [← htoken] at htype
      obtain ⟨n, hn, hnul⟩ := name_of_lexToken hi htype
      rw [htoken] at hn hnul
      exact ⟨n, hn, fun hclean => hnul (hnone hclean)⟩
  have hlive : Ensures p.nextLiveToken fun r => r.1 = token ∧ r.2.tokens = t' ∧
      Later { p with tokens := t' } r.2 ∧ (token.isInteger = true →
        -2 ^ 63 ≤ intValue token.raw ∧ intValue token.raw < 2 ^ 63) := by
    have hlater : Later { p with tokens := t' }
        { p with tokens := t', lastOffset := token.start } := ⟨⟨rfl, rfl, rfl, rfl⟩, id⟩
    rw [nextLiveToken, hread']
    dsimp only
    split_ifs with hinteger
    · have hparse : Ensures (parseIntegerBytes token.raw token.start) fun _ =>
          -2 ^ 63 ≤ intValue token.raw ∧ intValue token.raw < 2 ^ 63 := by
        unfold parseIntegerBytes
        split_ifs with htext hrange
        · exact .ok hrange
        · exact .error id
        · exact .error id
      exact hparse.map fun _ hrange => ⟨rfl, rfl, hlater, fun _ => hrange⟩
    · exact .ok ⟨rfl, rfl, hlater, fun h => absurd h hinteger⟩
  refine hlive.bind ?_
  rintro ⟨token', p'⟩ ⟨rfl, rfl, hlater, hinteger⟩
  dsimp only
  cases hmessage : token'.errorMessage with
  | none => exact .pure ⟨hlater, hstands', hplain', hfit (fun _ => hmessage) hinteger⟩
  | some message =>
    refine (warn_later token'.start message).bind ?_
    rintro p'' ⟨hwarn, hdirty⟩
    have htokens : p''.tokens = p'.tokens := hwarn.keeps.tokens
    rw [← htokens] at hlater hstands' hplain'
    exact .pure ⟨hlater.trans hwarn, hstands', hplain',
      hfit (fun hclean => absurd hclean hdirty) hinteger⟩

theorem remainderTurn_turn (h : Sound input p frames) :
    Ensures (p.remainderTurn frames) (Turn input) := by
  rw [remainderTurn_eq]
  refine (nextToken_fits h.stands h.plain).bind ?_
  rintro ⟨token, q⟩ ⟨hlater, hstands, hplain, hfit⟩
  have hmoved : Sound input { p with tokens := q.tokens } frames :=
    ⟨h.depth, h.accepts, h.ring, hstands, hplain⟩
  have hq := hmoved.later hlater
  have hcounted : Sound input { q with goodCount := q.goodCount + 1 } frames :=
    ⟨hq.depth, hq.accepts, hq.ring, hq.stands, hq.plain⟩
  dsimp only
  rw [remainderToken]
  split_ifs with hinteger
  · have hrange : InRange ⟨intValue token.raw, token.start⟩ :=
      hfit.integer (by simpa [Token.isInteger] using hinteger)
    exact (bufferInteger_sound hcounted hrange).map fun r hr => turn_of_sound hr.1 false
  · exact (finishIntegerReference_sound hcounted).map fun r hr => turn_of_sound hr false
  · refine (flushIntegerBuffer_sound hcounted).bind ?_
    rintro ⟨frames', p'⟩ ⟨h', hclean⟩
    exact dispatch_turn h' (hfit.mono hclean)

/-! ## Whole parses -/

theorem parseRemainder_accepted {fuel : ℕ} {outcome : Except ParseError (ObjectValue × LiveParser)}
    (h : Sound input p frames) (hrun : parseRemainder fuel p frames = some outcome) :
    Ensures outcome fun r => IsDirect r.1 ∧ Accepted r.2.Clean maxParseDepth r.1 := by
  induction fuel generalizing p frames with
  | zero => cases hrun
  | succ fuel ih =>
    rw [parseRemainder] at hrun
    have hturn := remainderTurn_turn h
    cases heq : p.remainderTurn frames with
    | error e =>
      rw [heq] at hrun
      obtain rfl := Option.some.inj hrun
      exact .error id
    | ok r =>
      obtain ⟨frames', p', value⟩ := r
      rw [heq] at hrun
      have hr := hturn.of_ok heq
      cases value with
      | none => exact ih (hr.goesOn rfl) hrun
      | some value =>
        obtain rfl := Option.some.inj hrun
        exact .ok (hr.ends value rfl)

theorem parseBody_accepted {outcome : Except ParseError (ObjectValue × LiveParser)}
    (hstands : Stands input p.tokens) (hplain : p.tokens.includeIgnorable = false)
    (hring : ∀ n, ∀ integer ∈ p.integerAt n, InRange integer) (hbody : parseBody p = some outcome) :
    Ensures outcome fun r => IsDirect r.1 ∧ Accepted r.2.Clean maxParseDepth r.1 := by
  rw [parseBody] at hbody
  have hnext := nextToken_fits hstands hplain
  cases heq : p.nextToken with
  | error e =>
    rw [heq] at hbody
    obtain rfl := Option.some.inj hbody
    exact .error id
  | ok r =>
    obtain ⟨token, q⟩ := r
    rw [heq] at hbody
    obtain ⟨hlater, hstands', hplain', hfit⟩ := hnext.of_ok heq
    have hmoved : Sound input { p with tokens := q.tokens } [] :=
      ⟨Nat.zero_le _, trivial, hring, hstands', hplain'⟩
    have hq : Sound input q [] := hmoved.later hlater
    dsimp only at hbody
    split_ifs at hbody
    · obtain rfl := Option.some.inj hbody
      exact .ok ⟨trivial, .null⟩
    · have hpush := @pushFrame_accepts q [] token hq.accepts
      cases hpushed : q.pushFrame [] token with
      | error e =>
        rw [hpushed] at hbody
        obtain rfl := Option.some.inj hbody
        exact .error id
      | ok pushed =>
        rw [hpushed] at hbody
        obtain ⟨hlater', hframes⟩ := hpush.of_ok hpushed
        obtain ⟨frames, q'⟩ := pushed
        have hq' := hq.later hlater'
        cases frames with
        | none => exact parseRemainder_accepted hq' hbody
        | some frames =>
          obtain ⟨hdepth, haccepts⟩ := hframes frames rfl
          exact parseRemainder_accepted ⟨hdepth, haccepts, hq'.ring, hq'.stands, hq'.plain⟩ hbody
    · obtain rfl := Option.some.inj hbody
      exact (parseScalarToken_gives hfit).mono fun r hr => hr.2

end LiveParser

theorem parsed_accepted {hasContext : Bool} {input : Bytes} {value : ObjectValue}
    {diagnostics : List (ℕ × Bytes)}
    (h : parseObject hasContext input = some (.ok (value, diagnostics))) :
    LiveParser.IsDirect value ∧ Accepted (diagnostics = []) maxParseDepth value := by
  rw [parseObject] at h
  obtain ⟨outcome, hbody, hend⟩ := Option.map_eq_some_iff.mp h
  obtain ⟨⟨parsed, p⟩, hok, hend⟩ := bind_eq_ok.mp hend
  have hring : ∀ n, ∀ integer ∈ (LiveParser.start input hasContext).integerAt n,
      LiveParser.InRange integer := by
    intro n integer hinteger
    rw [LiveParser.integerAt] at hinteger
    split_ifs at hinteger <;> cases hinteger
  have haccepted := (LiveParser.parseBody_accepted (LiveParser.stands_start input hasContext) rfl
    hring hbody).of_ok hok
  dsimp only at hend haccepted
  cases htrailing : trailingDataError input p.tokens.pos p.lastOffset with
  | some e =>
    rw [htrailing] at hend
    cases hend
  | none =>
    rw [htrailing] at hend
    obtain ⟨rfl, rfl⟩ : parsed = value ∧ p.diagnostics = diagnostics := by
      simpa [pure, Except.pure] using hend
    exact haccepted

section Written

variable {resolve : QpdfObjGen → Except Bytes ObjectValue} {d : ℕ} {value : ObjectValue}

theorem tryIsNull_kept (value : ObjectValue) :
    tryIsNull resolve (kept (isNullHandle resolve) value) = tryIsNull resolve value := by
  cases value <;> rfl

/-- The entries that are left out are not written in the first place. -/
theorem unparse_kept (h : Readable d value) :
    unparseResolvedValue resolve (kept (isNullHandle resolve) value) =
      unparseResolvedValue resolve value := by
  induction h with
  | @array d items hitems ih =>
    have hall : unparseResolvedItems resolve (keptItems (isNullHandle resolve) items) =
        unparseResolvedItems resolve items := by
      clear hitems
      induction items with
      | nil => rfl
      | cons item items ihitems =>
        rw [keptItems, unparseResolvedItems, unparseResolvedItems, ih item List.mem_cons_self,
          ihitems fun item hitem => ih item (List.mem_cons_of_mem _ hitem)]
    rw [kept, unparseResolvedValue, unparseResolvedValue, hall]
  | @dictionary d entries hascending hkeys hentries ih =>
    have hall : unparseResolvedEntries resolve (keptEntries (isNullHandle resolve) entries) =
        unparseResolvedEntries resolve entries := by
      clear hascending hkeys hentries
      induction entries with
      | nil => rfl
      | cons e entries ihentries =>
        obtain ⟨key, child⟩ := e
        have hchild := ih (key, child) List.mem_cons_self
        have hrest := ihentries fun e he => ih e (List.mem_cons_of_mem _ he)
        dsimp only at hchild
        rw [keptEntries, isNullHandle]
        cases hnull : tryIsNull resolve child with
        | error e =>
          rw [if_neg Bool.false_ne_true, unparseResolvedEntries, unparseResolvedEntries,
            tryIsNull_kept, hnull]
          rfl
        | ok isNull =>
          cases isNull with
          | true =>
            rw [if_pos rfl, unparseResolvedEntries, hnull]
            exact hrest
          | false =>
            rw [if_neg Bool.false_ne_true, unparseResolvedEntries, unparseResolvedEntries,
              tryIsNull_kept, hnull, hchild, hrest]
    rw [kept, unparseResolvedValue, unparseResolvedValue, hall]
  | _ => rfl

end Written

/-- A text that is read without a warning has a normal form: its value is written, what is written
is read back as the value without its null entries, and that value is written the same way. -/
theorem parse_unparse_parse (resolve : QpdfObjGen → Except Bytes ObjectValue)
    (hresolve : ∀ objectGen, ∃ value, resolve objectGen = .ok value) (input : Bytes)
    (value : ObjectValue) (h : parseObject true input = some (.ok (value, []))) :
    ∃ text, unparseResolved resolve value = .ok text ∧
      parseObject true text = some (.ok (kept (isNullHandle resolve) value, [])) ∧
      unparseResolved resolve (kept (isNullHandle resolve) value) = .ok text := by
  obtain ⟨hdirect, haccepted⟩ := parsed_accepted h
  have hreadable := haccepted.readable rfl
  have hresolved {value : ObjectValue} (hdirect : LiveParser.IsDirect value) :
      unparseResolved resolve value = unparseResolvedValue resolve value := by
    cases value with
    | indirect objectGen => exact hdirect.elim
    | _ => rfl
  have hkept : LiveParser.IsDirect (kept (isNullHandle resolve) value) := by
    cases value with
    | indirect objectGen => exact hdirect.elim
    | _ => trivial
  obtain ⟨text, htext⟩ := unparse_total hresolve hreadable
  obtain ⟨row, hspells, hwrites⟩ := unparses_of_readable hreadable text htext
  refine ⟨text, (hresolved hdirect).trans htext, parseObject_of_writes hspells hwrites hkept le_rfl,
    ?_⟩
  rw [hresolved hkept, unparse_kept hreadable, htext]

/-- A name with a space, an entry that is null and a comment. -/
theorem parse_unparse_parse_sample :
    ∃ text, unparseResolved (fun _ => .ok .null)
        (.dictionary [(ascii "/A", .name (ascii "x y")), (ascii "/B", .null)]) = .ok text ∧
      parseObject true text = some (.ok (.dictionary [(ascii "/A", .name (ascii "x y"))], [])) ∧
      unparseResolved (fun _ => .ok .null)
        (.dictionary [(ascii "/A", .name (ascii "x y"))]) = .ok text :=
  parse_unparse_parse (fun _ => .ok .null) (fun _ => ⟨_, rfl⟩)
    (ascii "<</A/x#20y%\n/B null>>") _ rfl

end Flpdf
