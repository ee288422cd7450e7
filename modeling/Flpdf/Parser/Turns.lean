import Flpdf.Parser.LiveParser
import Flpdf.Tokenizer.Spellings

/-!
# Turns of the object parser

The parser reads a text of spellings token by token. What it does with a token is told
by the frames as they would be without the two slots that hold integers back, and by
the run of integers read since another token.
-/

namespace Flpdf

open Tokenizer

/-- A spelling, with the type and the value of its token. -/
structure Spelled where
  raw : Bytes
  type : TokenType
  value : Bytes

/-- A text of spellings with white space in front of each, and what follows behind them. -/
inductive Spaced (tail : Bytes) : List Spelled → Bytes → Prop where
  | nil : Spaced tail [] tail
  | cons {gap rest : Bytes} {spelled : Spelled} {row : List Spelled}
      (hgap : ∀ b ∈ gap, isWs b = true)
      (hspelling : Spelling spelled.raw spelled.type spelled.value)
      (hrest : LetsEnd spelled.type rest) (hrow : Spaced tail row rest) :
      Spaced tail (spelled :: row) (gap ++ spelled.raw ++ rest)

namespace Spaced

variable {tail rest text gap : Bytes} {row row' : List Spelled}

theorem append (h : Spaced rest row text) (h' : Spaced tail row' rest) :
    Spaced tail (row ++ row') text := by
  induction h with
  | nil => exact h'
  | cons hgap hspelling hrest hrow ih => exact .cons hgap hspelling hrest ih

/-- White space in front belongs to the first gap. -/
theorem gap_append (hgap : ∀ b ∈ gap, isWs b = true) (hne : row ≠ []) (h : Spaced tail row text) :
    Spaced tail row (gap ++ text) := by
  cases h with
  | nil => exact absurd rfl hne
  | @cons gap' rest spelled row hgap' hspelling hrest hrow =>
    have hgaps : ∀ b ∈ gap ++ gap', isWs b = true := by
      intro b hb
      rcases List.mem_append.mp hb with hb | hb
      · exact hgap b hb
      · exact hgap' b hb
    simpa [List.append_assoc] using Spaced.cons hgaps hspelling hrest hrow

/-- Every spelling takes a byte. -/
theorem length_le (h : Spaced tail row text) : row.length + tail.length ≤ text.length := by
  induction h with
  | nil => simp
  | cons hgap hspelling hrest hrow ih =>
    have hpos := hspelling.length_pos
    simp only [List.length_cons, List.length_append]
    omega

end Spaced

/-- A text of a row of spellings, in front of a delimiter or of the end. -/
def Writes (row : List Spelled) (text : Bytes) : Prop :=
  ∀ tail : Bytes, (∀ d ∈ tail.head?, isTokenDelimiter d = true) → Spaced tail row (text ++ tail)

theorem Spelled.writes (spelled : Spelled)
    (h : Spelling spelled.raw spelled.type spelled.value) : Writes [spelled] spelled.raw :=
  fun tail htail => @Spaced.cons tail [] tail spelled [] (by simp) h (.inr htail) .nil

/-- White space keeps two rows apart. -/
theorem Writes.append {row row' : List Spelled} {text text' : Bytes} (h : Writes row text)
    (gap : Bytes) (h' : Writes row' text') (hgap : ∀ b ∈ gap, isWs b = true) (hne : gap ≠ []) (hrow : row' ≠ []) :
    Writes (row ++ row') (text ++ gap ++ text') := by
  intro tail htail
  have hdelimiter : ∀ d ∈ (gap ++ (text' ++ tail)).head?, isTokenDelimiter d = true := by
    cases gap with
    | nil => exact absurd rfl hne
    | cons b gap =>
      intro d hd
      cases hd
      rw [isTokenDelimiter, hgap b List.mem_cons_self, Bool.true_or]
  have hspaced := (h _ hdelimiter).append ((h' tail htail).gap_append hgap hrow)
  rwa [← List.append_assoc, ← List.append_assoc] at hspaced

/-! ## Frames -/

namespace LiveFrame

/-- A frame with one more value, whatever there is to warn about. -/
def accept : LiveFrame → ObjectValue → LiveFrame
  | .array values, value => .array (values ++ [value])
  | .dictionary values orphanValues (some key) frameOffset, value =>
    .dictionary (insertSorted key value values) orphanValues none frameOffset
  | .dictionary values orphanValues none frameOffset, value =>
    .dictionary values (orphanValues ++ [value]) none frameOffset

/-- The key that waits for a value has none yet. -/
def Fresh : LiveFrame → Prop
  | .dictionary values _ (some key) _ => values.lookup key = none
  | _ => True

theorem fresh_accept (frame : LiveFrame) (value : ObjectValue) : (frame.accept value).Fresh := by
  rcases frame with values | ⟨values, orphanValues, _ | key, frameOffset⟩ <;> trivial

/-- The top frame with values, one after the other. -/
def acceptAll : List LiveFrame → List ObjectValue → List LiveFrame
  | [], _ => []
  | frame :: frames, values => values.foldl accept frame :: frames

/-- There is a top frame and it is fresh. -/
def Open : List LiveFrame → Prop
  | [] => False
  | frame :: _ => frame.Fresh

variable {frames : List LiveFrame}

@[simp] theorem acceptAll_nil (frames : List LiveFrame) : acceptAll frames [] = frames := by
  cases frames <;> rfl

@[simp] theorem acceptAll_append (frames : List LiveFrame) (values values' : List ObjectValue) :
    acceptAll frames (values ++ values') = acceptAll (acceptAll frames values) values' := by
  cases frames with
  | nil => rfl
  | cons frame frames => simp [acceptAll]

@[simp] theorem length_acceptAll (frames : List LiveFrame) (values : List ObjectValue) :
    (acceptAll frames values).length = frames.length := by
  cases frames <;> simp [acceptAll]

theorem fresh_foldl {frame : LiveFrame} (h : frame.Fresh) (values : List ObjectValue) :
    (values.foldl accept frame).Fresh := by
  induction values generalizing frame with
  | nil => exact h
  | cons value values ih => exact ih (fresh_accept frame value)

theorem Open.acceptAll (h : Open frames) (values : List ObjectValue) :
    Open (acceptAll frames values) := by
  cases frames with
  | nil => exact h.elim
  | cons frame frames => exact fresh_foldl h values

end LiveFrame

open LiveFrame

namespace LiveParser

variable {p p' : LiveParser} {frames F : List LiveFrame}

/-- The parser with more warnings. -/
def noted (p : LiveParser) (warnings : List (ℕ × Bytes)) : LiveParser :=
  { p with diagnostics := p.diagnostics ++ warnings }

theorem noted_nil (p : LiveParser) : p.noted [] = p := by
  rw [noted, List.append_nil]

theorem noted_noted (warnings warnings' : List (ℕ × Bytes)) :
    (p.noted warnings).noted warnings' = p.noted (warnings ++ warnings') := by
  rw [noted, noted, noted, List.append_assoc]

/-- A document receives the warnings. -/
theorem warn_noted (h : p.hasContext = true) (offset : ℕ) (message : Bytes) :
    p.warn offset message = .ok (p.noted [(offset, message)]) := by
  rw [warn, if_pos h, noted]

/-- There is a top frame, and either a document for the warning about a key that has a
value already or no such key. -/
structure Receives (p : LiveParser) (frames : List LiveFrame) : Prop where
  ne : frames ≠ []
  warns : p.hasContext = true ∨ Open frames

theorem Receives.of_open (h : Open frames) : Receives p frames := by
  refine ⟨?_, .inr h⟩
  rintro rfl
  exact h.elim

theorem Receives.acceptAll (h : Receives p frames) (values : List ObjectValue) :
    Receives p (acceptAll frames values) := by
  refine ⟨?_, h.warns.imp id fun hopen => hopen.acceptAll values⟩
  intro hnil
  have hlength := length_acceptAll frames values
  rw [hnil, List.length_nil] at hlength
  exact h.ne (List.length_eq_zero_iff.mp hlength.symm)

theorem Receives.congr (h : Receives p frames) (hcontext : p'.hasContext = p.hasContext) :
    Receives p' frames :=
  ⟨h.ne, hcontext ▸ h.warns⟩

theorem addToTopFrame_noted (h : Receives p frames) (value : ObjectValue) :
    ∃ warnings, p.addToTopFrame frames value = .ok (acceptAll frames [value], p.noted warnings) ∧
      (Open frames → warnings = []) := by
  obtain ⟨hne, hwarns⟩ := h
  cases frames with
  | nil => exact absurd rfl hne
  | cons frame frames =>
    rcases frame with values | ⟨values, orphanValues, _ | key, frameOffset⟩
    · exact ⟨[], by rw [noted_nil]; rfl, fun _ => rfl⟩
    · exact ⟨[], by rw [noted_nil]; rfl, fun _ => rfl⟩
    · by_cases hlookup : (values.lookup key).isSome = true
      · have hclosed : ¬Open (.dictionary values orphanValues (some key) frameOffset :: frames) := by
          intro hopen
          have hnone : values.lookup key = none := hopen
          rw [hnone] at hlookup
          cases hlookup
        have hcontext := hwarns.resolve_right hclosed
        refine ⟨[(frameOffset, ascii "dictionary has duplicated key " ++ key ++
          ascii "; last occurrence overrides earlier ones")], ?_, fun hopen => absurd hopen hclosed⟩
        simp only [addToTopFrame, addToFrame, insertDictionaryValue, if_pos hlookup, warn,
          if_pos hcontext, LiveFrame.acceptAll, List.foldl_cons, List.foldl_nil, LiveFrame.accept,
          bind, Except.bind, pure, Except.pure]
        rfl
      · refine ⟨[], ?_, fun _ => rfl⟩
        rw [noted_nil]
        simp only [addToTopFrame, addToFrame, insertDictionaryValue, if_neg hlookup,
          LiveFrame.acceptAll, List.foldl_cons, List.foldl_nil, LiveFrame.accept, bind, Except.bind,
          pure, Except.pure]

theorem addToTopFrame_eq (h : Open frames) (value : ObjectValue) :
    p.addToTopFrame frames value = .ok (acceptAll frames [value], p) := by
  obtain ⟨warnings, hadd, hnone⟩ := addToTopFrame_noted (p := p) (.of_open h) value
  rw [hadd, hnone h, noted_nil]

/-! ## The integers that are held back -/

/-- The values of a run of integers. -/
def integers (run : List PendingInteger) : List ObjectValue :=
  run.map fun integer => .integer integer.value

@[simp] theorem integers_append (run run' : List PendingInteger) :
    integers (run ++ run') = integers run ++ integers run' :=
  List.map_append

/-- Since another token, after which the frames were `F`, the integers of `run` were read:
the slots hold the last two, the others are in the frames. -/
inductive Pending (p : LiveParser) (F : List LiveFrame) :
    List PendingInteger → List LiveFrame → Prop where
  | empty (hcount : p.integerCount = 0) : Pending p F [] F
  | one {i : PendingInteger} (hcount : p.integerCount = 1) (hodd : p.oddInteger = some i) :
      Pending p F [i] F
  | more {init : List PendingInteger} {a b : PendingInteger}
      (hcount : p.integerCount = init.length + 2) (hfirst : p.integerAt (init.length + 1) = some a)
      (hsecond : p.integerAt (init.length + 2) = some b) :
      Pending p F (init ++ [a, b]) (acceptAll F (integers init))

variable {run init : List PendingInteger} {a b i : PendingInteger}

theorem Pending.congr (h : Pending p F run frames) (hcount : p'.integerCount = p.integerCount)
    (heven : p'.evenInteger = p.evenInteger) (hodd : p'.oddInteger = p.oddInteger) :
    Pending p' F run frames := by
  have hat : ∀ count, p'.integerAt count = p.integerAt count := by
    intro count
    rw [integerAt, integerAt, heven, hodd]
  cases h with
  | empty hzero => exact .empty (hcount.trans hzero)
  | one hone hslot => exact .one (hcount.trans hone) (hodd.trans hslot)
  | more hmore hfirst hsecond =>
    exact .more (hcount.trans hmore) ((hat _).trans hfirst) ((hat _).trans hsecond)

/-- The ring counts the integers of the run. -/
theorem Pending.count (h : Pending p F run frames) : p.integerCount = run.length := by
  cases h with
  | empty hcount => exact hcount
  | one hcount hodd => exact hcount
  | more hcount hfirst hsecond =>
    rw [hcount, List.length_append]
    rfl

/-- The parser goes on with the same warnings and in the same place. -/
structure Calm (p p' : LiveParser) : Prop where
  tokens : p'.tokens = p.tokens
  diagnostics : p'.diagnostics = p.diagnostics
  giveUp : p'.giveUp = p.giveUp
  hasContext : p'.hasContext = p.hasContext
  badCount : p'.badCount = p.badCount

theorem Calm.refl (p : LiveParser) : Calm p p := ⟨rfl, rfl, rfl, rfl, rfl⟩

theorem Calm.trans {p'' : LiveParser} (h : Calm p p') (h' : Calm p' p'') : Calm p p'' :=
  ⟨h'.tokens.trans h.tokens, h'.diagnostics.trans h.diagnostics, h'.giveUp.trans h.giveUp,
    h'.hasContext.trans h.hasContext, h'.badCount.trans h.badCount⟩

theorem calm_setInteger (count : ℕ) (integer : Option PendingInteger) :
    Calm p (p.setInteger count integer) := by
  rw [setInteger]
  split_ifs <;> exact ⟨rfl, rfl, rfl, rfl, rfl⟩

@[simp] theorem integerCount_setInteger (count : ℕ) (integer : Option PendingInteger) :
    (p.setInteger count integer).integerCount = p.integerCount := by
  rw [setInteger]
  split_ifs <;> rfl

theorem integerAt_setInteger (count count' : ℕ) (integer : Option PendingInteger) :
    (p.setInteger count integer).integerAt count' =
      if count % 2 = count' % 2 then integer else p.integerAt count' := by
  rw [setInteger, integerAt, integerAt]
  rcases Nat.mod_two_eq_zero_or_one count with h | h <;>
    rcases Nat.mod_two_eq_zero_or_one count' with h' | h' <;> simp [h, h']

theorem integerAt_congr {count count' : ℕ} (h : count % 2 = count' % 2) :
    p.integerAt count = p.integerAt count' := by
  rw [integerAt, integerAt, h]

theorem takeInteger_eq {count : ℕ} (h : p.integerAt count = some i) :
    p.takeInteger count = .ok (i, p.setInteger count none) := by
  rw [takeInteger, h]

/-- The two integers of the slots, taken in order. -/
theorem take_two {count : ℕ} (hfirst : p.integerAt (count + 1) = some a)
    (hsecond : p.integerAt (count + 2) = some b) :
    p.takeInteger (firstIndex (count + 2)) =
        .ok (a, p.setInteger (firstIndex (count + 2)) none) ∧
      (p.setInteger (firstIndex (count + 2)) none).takeInteger (count + 2) =
        .ok (b, (p.setInteger (firstIndex (count + 2)) none).setInteger (count + 2) none) := by
  have hparity : firstIndex (count + 2) % 2 = (count + 1) % 2 := by
    rw [firstIndex]
    split_ifs <;> omega
  refine ⟨takeInteger_eq ((integerAt_congr hparity).trans hfirst), takeInteger_eq ?_⟩
  rw [integerAt_setInteger, if_neg (by omega), hsecond]

/-- The parser after an integer that takes the slot of the oldest of three. -/
def displaced (p : LiveParser) (i : PendingInteger) : LiveParser :=
  (({ p with integerCount := p.integerCount + 1 } : LiveParser).setInteger (p.integerCount + 1)
    none).setInteger (p.integerCount + 1) (some i)

theorem calm_displaced (i : PendingInteger) : Calm p (p.displaced i) := by
  have hcounted : Calm p { p with integerCount := p.integerCount + 1 } := ⟨rfl, rfl, rfl, rfl, rfl⟩
  exact (hcounted.trans (calm_setInteger _ _)).trans (calm_setInteger _ _)

theorem setInteger_noted (count : ℕ) (integer : Option PendingInteger)
    (warnings : List (ℕ × Bytes)) :
    (p.noted warnings).setInteger count integer = (p.setInteger count integer).noted warnings := by
  rw [setInteger, setInteger]
  split_ifs <;> rfl

theorem bufferInteger_more (hcount : 2 ≤ p.integerCount)
    (holdest : p.integerAt (p.integerCount + 1) = some a) (h : Receives p frames)
    (i : PendingInteger) : ∃ warnings, p.bufferInteger i frames =
      .ok (acceptAll frames [.integer a.value], (p.displaced i).noted warnings) ∧
        (Open frames → warnings = []) := by
  have htake : ({ p with integerCount := p.integerCount + 1 } : LiveParser).takeInteger
      (p.integerCount + 1) =
        .ok (a, ({ p with integerCount := p.integerCount + 1 } : LiveParser).setInteger
          (p.integerCount + 1) none) :=
    takeInteger_eq holdest
  have hreceives : Receives (({ p with integerCount := p.integerCount + 1 } : LiveParser).setInteger
      (p.integerCount + 1) none) frames :=
    h.congr (calm_setInteger _ _).hasContext
  obtain ⟨warnings, hadd, hnone⟩ := addToTopFrame_noted hreceives (.integer a.value)
  refine ⟨warnings, ?_, hnone⟩
  rw [bufferInteger]
  dsimp only
  rw [if_pos (by omega), htake]
  dsimp only [bind, Except.bind]
  rw [addPendingInteger, hadd]
  dsimp only
  rw [setInteger_noted]
  rfl

/-- One more integer of the run; the oldest of three goes to the frames. -/
theorem Pending.buffered (h : Pending p F run frames) (hF : Receives p F) (i : PendingInteger) :
    ∃ frames' p' warnings, p.bufferInteger i frames = .ok (frames', p'.noted warnings) ∧
      Pending p' F (run ++ [i]) frames' ∧ Calm p p' ∧ (Open F → warnings = []) := by
  cases h with
  | empty hcount =>
    refine ⟨frames, { p with integerCount := 1, oddInteger := some i }, [], ?_, .one rfl rfl,
      ⟨rfl, rfl, rfl, rfl, rfl⟩, fun _ => rfl⟩
    rw [noted_nil, LiveParser.bufferInteger, hcount]
    rfl
  | @one j hcount hodd =>
    have hmore : Pending { p with integerCount := 2, evenInteger := some i } frames
        ([] ++ [j, i]) (acceptAll frames (integers [])) :=
      .more rfl hodd rfl
    refine ⟨frames, { p with integerCount := 2, evenInteger := some i }, [], ?_, ?_,
      ⟨rfl, rfl, rfl, rfl, rfl⟩, fun _ => rfl⟩
    · rw [noted_nil, LiveParser.bufferInteger, hcount]
      rfl
    · simpa [integers] using hmore
  | @more init a b hcount hfirst hsecond =>
    have holdest : p.integerAt (p.integerCount + 1) = some a := by
      rw [hcount, ← hfirst]
      exact integerAt_congr (by omega)
    obtain ⟨warnings, hbuffer, hnone⟩ :=
      bufferInteger_more (by omega) holdest (hF.acceptAll (integers init)) i
    rw [← acceptAll_append] at hbuffer
    have hfirst' : (p.displaced i).integerAt ((init ++ [a]).length + 1) = some b := by
      rw [displaced, integerAt_setInteger, if_neg, integerAt_setInteger, if_neg]
      · rw [List.length_append, List.length_singleton]
        exact hsecond
      · rw [hcount, List.length_append, List.length_singleton]
        omega
      · rw [hcount, List.length_append, List.length_singleton]
        omega
    have hsecond' : (p.displaced i).integerAt ((init ++ [a]).length + 2) = some i := by
      rw [displaced, integerAt_setInteger, if_pos]
      rw [hcount, List.length_append, List.length_singleton]
    have hcount' : (p.displaced i).integerCount = (init ++ [a]).length + 2 := by
      rw [displaced, integerCount_setInteger, integerCount_setInteger, hcount, List.length_append]
      rfl
    refine ⟨_, p.displaced i, warnings, hbuffer, ?_, calm_displaced i,
      fun hopen => hnone (hopen.acceptAll _)⟩
    simpa [integers] using Pending.more (F := F) hcount' hfirst' hsecond'

theorem Pending.bufferInteger (h : Pending p F run frames) (hopen : Open F) (i : PendingInteger) :
    ∃ frames' p', p.bufferInteger i frames = .ok (frames', p') ∧
      Pending p' F (run ++ [i]) frames' ∧ Calm p p' := by
  obtain ⟨frames', p', warnings, hbuffer, hpending, hcalm, hnone⟩ := h.buffered (.of_open hopen) i
  rw [hnone hopen, noted_nil] at hbuffer
  exact ⟨frames', p', hbuffer, hpending, hcalm⟩

/-- Any other token lets the integers that were held back go to the frames. -/
theorem Pending.flushed (h : Pending p F run frames) (hF : Receives p F) :
    ∃ p' warnings, p.flushIntegerBuffer frames =
        .ok (acceptAll F (integers run), p'.noted warnings) ∧
      p'.integerCount = 0 ∧ Calm p p' ∧ (Open F → warnings = []) := by
  cases h with
  | empty hcount =>
    refine ⟨p, [], ?_, hcount, .refl p, fun _ => rfl⟩
    rw [noted_nil, LiveParser.flushIntegerBuffer, if_pos hcount]
    simp [integers, pure, Except.pure]
  | @one i hcount hodd =>
    have htake : p.takeInteger 1 = .ok (i, p.setInteger 1 none) := takeInteger_eq hodd
    obtain ⟨warnings, hadd, hnone⟩ := addToTopFrame_noted (p := p.setInteger 1 none)
      (hF.congr (calm_setInteger _ _).hasContext) (.integer i.value)
    refine ⟨{ p.setInteger 1 none with integerCount := 0 }, warnings, ?_, rfl,
      (calm_setInteger 1 none).trans ⟨rfl, rfl, rfl, rfl, rfl⟩, hnone⟩
    rw [LiveParser.flushIntegerBuffer, if_neg (by omega), if_pos hcount, htake]
    dsimp only [bind, Except.bind]
    rw [addPendingInteger, hadd]
    rfl
  | @more init a b hcount hfirst hsecond =>
    obtain ⟨htake, htake'⟩ := take_two hfirst hsecond
    have hcalm : Calm p ((p.setInteger (firstIndex (init.length + 2)) none).setInteger
        (init.length + 2) none) :=
      (calm_setInteger _ _).trans (calm_setInteger _ _)
    have hreceives := (hF.congr hcalm.hasContext).acceptAll (integers init)
    obtain ⟨warnings, hadd, hnone⟩ := addToTopFrame_noted hreceives (.integer a.value)
    have hreceives' : Receives (((p.setInteger (firstIndex (init.length + 2)) none).setInteger
        (init.length + 2) none).noted warnings)
          (acceptAll (acceptAll F (integers init)) [.integer a.value]) :=
      (hreceives.acceptAll _).congr rfl
    obtain ⟨warnings', hadd', hnone'⟩ := addToTopFrame_noted hreceives' (.integer b.value)
    refine ⟨{ (p.setInteger (firstIndex (init.length + 2)) none).setInteger (init.length + 2) none
        with integerCount := 0 }, warnings ++ warnings', ?_, rfl,
      hcalm.trans ⟨rfl, rfl, rfl, rfl, rfl⟩, ?_⟩
    · rw [LiveParser.flushIntegerBuffer, if_neg (by omega), if_neg (by omega)]
      dsimp only
      rw [hcount, htake]
      dsimp only [bind, Except.bind]
      rw [htake']
      dsimp only
      rw [addPendingInteger, hadd]
      dsimp only
      rw [addPendingInteger, hadd', ← acceptAll_append, ← acceptAll_append, integers_append]
      simp only [noted, List.append_assoc]
      rfl
    · intro hopen
      rw [hnone (hopen.acceptAll _), hnone' ((hopen.acceptAll _).acceptAll _)]
      rfl

theorem Pending.flushIntegerBuffer (h : Pending p F run frames) (hopen : Open F) :
    ∃ p', p.flushIntegerBuffer frames = .ok (acceptAll F (integers run), p') ∧
      p'.integerCount = 0 ∧ Calm p p' := by
  obtain ⟨p', warnings, hflush, hcount, hcalm, hnone⟩ := h.flushed (.of_open hopen)
  rw [hnone hopen, noted_nil] at hflush
  exact ⟨p', hflush, hcount, hcalm⟩

/-- The object of a reference. -/
def reference (number generation : ℤ) : ObjectValue :=
  if 1 ≤ number ∧ 0 ≤ generation ∧ generation < 65535 then .indirect ⟨number, generation⟩
  else .null

/-- The last two integers of a run become a reference. -/
theorem Pending.finished (h : Pending p F (init ++ [a, b]) frames) (hF : Receives p F)
    (hcontext : p.hasContext = true) (ha : FitsInt a.value) (hb : FitsInt b.value) :
    ∃ p' warnings, p.finishIntegerReference frames =
        .ok (acceptAll F (integers init ++ [reference a.value b.value]), p'.noted warnings) ∧
      p'.integerCount = 0 ∧ Calm p p' ∧ (Open F → warnings = []) := by
  generalize hrun : init ++ [a, b] = run at h
  cases h with
  | empty hcount => simp at hrun
  | one hcount hodd =>
    have hlength := congrArg List.length hrun
    simp at hlength
  | @more init' a' b' hcount hfirst hsecond =>
    obtain ⟨rfl, hlast⟩ := List.append_inj' hrun rfl
    simp only [List.cons.injEq, and_true] at hlast
    obtain ⟨rfl, rfl⟩ := hlast
    obtain ⟨htake, htake'⟩ := take_two hfirst hsecond
    have hcalm : Calm p ((p.setInteger (firstIndex (init.length + 2)) none).setInteger
        (init.length + 2) none) :=
      (calm_setInteger _ _).trans (calm_setInteger _ _)
    have hcleared : Calm p { (p.setInteger (firstIndex (init.length + 2)) none).setInteger
        (init.length + 2) none with integerCount := 0 } :=
      hcalm.trans ⟨rfl, rfl, rfl, rfl, rfl⟩
    have hnumber : qpdfInt a = .ok a.value := by
      rw [qpdfInt, qpdfI64ToIntChecked, if_pos ha]
    have hgeneration : qpdfInt b = .ok b.value := by
      rw [qpdfInt, qpdfI64ToIntChecked, if_pos hb]
    obtain ⟨warnings, hadd, hnone⟩ := addToTopFrame_noted
      ((hF.congr hcleared.hasContext).acceptAll (integers init)) (reference a.value b.value)
    refine ⟨_, warnings, ?_, rfl, hcleared, fun hopen => hnone (hopen.acceptAll _)⟩
    rw [LiveParser.finishIntegerReference]
    dsimp only
    rw [hcount, htake]
    dsimp only [bind, Except.bind]
    rw [htake']
    dsimp only
    rw [if_pos (hcalm.hasContext.trans hcontext), hnumber]
    dsimp only
    rw [hgeneration]
    dsimp only
    rw [acceptAll_append]
    exact hadd

theorem Pending.finishIntegerReference (h : Pending p F (init ++ [a, b]) frames) (hopen : Open F)
    (hcontext : p.hasContext = true) (ha : 1 ≤ a.value ∧ a.value < 2 ^ 31)
    (hb : 0 ≤ b.value ∧ b.value < 65535) :
    ∃ p', p.finishIntegerReference frames =
        .ok (acceptAll F (integers init ++ [.indirect ⟨a.value, b.value⟩]), p') ∧
      p'.integerCount = 0 ∧ Calm p p' := by
  obtain ⟨p', warnings, hfinish, hcount, hcalm, hnone⟩ := h.finished (.of_open hopen) hcontext
    ⟨by omega, by omega⟩ ⟨by omega, by omega⟩
  rw [hnone hopen, noted_nil, reference, if_pos ⟨ha.1, hb.1, hb.2⟩] at hfinish
  exact ⟨p', hfinish, hcount, hcalm⟩

/-! ## What is left to read -/

/-- The parser has a row of spellings of the input to read, in front of `tail`. -/
structure Reads (input tail : Bytes) (p : LiveParser) (row : List Spelled) : Prop where
  input : p.tokens.input = input
  text : ∃ text, StandsAt p.tokens text ∧ Spaced tail row text
  hasContext : p.hasContext = true
  giveUp : p.giveUp = false
  diagnostics : p.diagnostics = []

variable {input tail : Bytes} {row : List Spelled} {spelled : Spelled}

theorem Reads.of_calm (h : Reads input tail p row) (hcalm : Calm p p') :
    Reads input tail p' row :=
  ⟨hcalm.tokens ▸ h.input, hcalm.tokens ▸ h.text, hcalm.hasContext.trans h.hasContext,
    hcalm.giveUp.trans h.giveUp, hcalm.diagnostics.trans h.diagnostics⟩

/-- Behind the row the text goes on with `tail`. -/
theorem Reads.standsAt (h : Reads input tail p []) : StandsAt p.tokens tail := by
  obtain ⟨text, hstands, htext⟩ := h.text
  cases htext
  exact hstands

/-- Integers of a token have 64 bits. -/
def Fits (spelled : Spelled) : Prop :=
  spelled.type = .integer → -2 ^ 63 ≤ intValue spelled.raw ∧ intValue spelled.raw < 2 ^ 63

theorem Reads.nextToken (h : Reads input tail p (spelled :: row)) (hfits : Fits spelled) :
    ∃ start tokens, p.nextToken =
        .ok (spelledToken start spelled.type spelled.value spelled.raw,
          { p with tokens := tokens, lastOffset := start }) ∧
      Reads input tail { p with tokens := tokens, lastOffset := start } row := by
  obtain ⟨text, hstands, htext⟩ := h.text
  cases htext with
  | @cons gap rest _ _ hgap hspelling hrest hrow =>
    obtain ⟨tokens, hread, hstands', hinput⟩ := hstands.readQpdfToken hgap hspelling hrest
    refine ⟨p.tokens.pos + gap.length, tokens, ?_, hinput.trans h.input,
      ⟨rest, hstands', hrow⟩, h.hasContext, h.giveUp, h.diagnostics⟩
    have hlive : p.nextLiveToken = .ok (spelledToken (p.tokens.pos + gap.length) spelled.type
        spelled.value spelled.raw,
        { p with tokens := tokens, lastOffset := p.tokens.pos + gap.length }) := by
      rw [nextLiveToken, hread]
      dsimp only
      split_ifs with hinteger
      · have htype : spelled.type = .integer := by
          simpa [Token.isInteger, spelledToken] using hinteger
        have htext := hspelling.isIntText htype
        rw [parseIntegerBytes, spelledToken, if_pos htext, if_pos (hfits htype)]
        rfl
      · rfl
    rw [LiveParser.nextToken, hlive]
    rfl

/-! ## One turn -/

/-- The parser after it has taken a token. -/
def took (p : LiveParser) (tokens : Tokenizer) (start : ℕ) : LiveParser :=
  { p with tokens := tokens, lastOffset := start, goodCount := p.goodCount + 1 }

/-- What a turn does with its token. -/
def remainderToken (p : LiveParser) (frames : List LiveFrame) (token : Token) :
    Except ParseError (List LiveFrame × LiveParser × Option ObjectValue) :=
  if token.isInteger then
    (p.bufferInteger ⟨intValue token.raw, token.start⟩ frames).map fun (frames, p) =>
      (frames, p, none)
  else if 2 ≤ p.integerCount ∧ token.isWordValue (ascii "R") then
    (p.finishIntegerReference frames).map fun (frames, p) => (frames, p, none)
  else (p.flushIntegerBuffer frames).bind fun (frames, p) => p.dispatch frames token

theorem remainderTurn_eq (p : LiveParser) (frames : List LiveFrame) :
    p.remainderTurn frames = p.nextToken.bind fun (token, p) =>
      remainderToken { p with goodCount := p.goodCount + 1 } frames token := by
  rw [LiveParser.remainderTurn]
  cases p.nextToken with
  | error e => rfl
  | ok outcome =>
    dsimp only [bind, Except.bind]
    rw [remainderToken]
    split_ifs
    · cases LiveParser.bufferInteger _ _ _ <;> rfl
    · cases LiveParser.finishIntegerReference _ _ <;> rfl
    · rfl

/-- A turn begins with the next spelling. -/
theorem Reads.remainderTurn (h : Reads input tail p (spelled :: row)) (hfits : Fits spelled)
    (frames : List LiveFrame) : ∃ start tokens, Reads input tail (p.took tokens start) row ∧
      p.remainderTurn frames = (p.took tokens start).remainderToken frames
        (spelledToken start spelled.type spelled.value spelled.raw) := by
  obtain ⟨start, tokens, htoken, hreads⟩ := h.nextToken hfits
  refine ⟨start, tokens, hreads.of_calm ⟨rfl, rfl, rfl, rfl, rfl⟩, ?_⟩
  rw [remainderTurn_eq, htoken]
  rfl

/-- An integer is held back. -/
theorem remainderTurn_integer (h : Reads input tail p (spelled :: row)) (hfits : Fits spelled)
    (htype : spelled.type = .integer) (hopen : Open F) (hpending : Pending p F run frames) :
    ∃ i p' frames', i.value = intValue spelled.raw ∧
      p.remainderTurn frames = .ok (frames', p', none) ∧ Reads input tail p' row ∧
      Pending p' F (run ++ [i]) frames' := by
  obtain ⟨start, tokens, hreads, hturn⟩ := h.remainderTurn hfits frames
  have htook : Pending (p.took tokens start) F run frames := hpending.congr rfl rfl rfl
  obtain ⟨frames', p', hbuffer, hbuffered, hcalm⟩ :=
    Pending.bufferInteger htook hopen ⟨intValue spelled.raw, start⟩
  have hinteger : (spelledToken start spelled.type spelled.value spelled.raw).isInteger = true := by
    simp [Token.isInteger, spelledToken, htype]
  refine ⟨_, p', frames', rfl, ?_, hreads.of_calm hcalm, hbuffered⟩
  rw [hturn, remainderToken, if_pos hinteger]
  exact congrArg _ hbuffer

/-- Two integers and an `R` are a reference. -/
theorem remainderTurn_reference (h : Reads input tail p (spelled :: row))
    (htype : spelled.type = .word) (hvalue : spelled.value = ascii "R") (hopen : Open F)
    (hpending : Pending p F (init ++ [a, b]) frames) (ha : 1 ≤ a.value ∧ a.value < 2 ^ 31)
    (hb : 0 ≤ b.value ∧ b.value < 65535) :
    ∃ p', p.remainderTurn frames =
        .ok (acceptAll F (integers init ++ [.indirect ⟨a.value, b.value⟩]), p', none) ∧
      Reads input tail p' row ∧ p'.integerCount = 0 := by
  have hfits : Fits spelled := fun hinteger => by rw [htype] at hinteger; cases hinteger
  obtain ⟨start, tokens, hreads, hturn⟩ := h.remainderTurn hfits frames
  have htook : Pending (p.took tokens start) F (init ++ [a, b]) frames :=
    hpending.congr rfl rfl rfl
  obtain ⟨p', hfinish, hcount, hcalm⟩ :=
    htook.finishIntegerReference hopen hreads.hasContext ha hb
  have htwo : 2 ≤ (p.took tokens start).integerCount := by
    rw [htook.count, List.length_append]
    exact Nat.le_add_left _ _
  refine ⟨p', ?_, hreads.of_calm hcalm, hcount⟩
  rw [hturn, remainderToken, if_neg (by simp [Token.isInteger, spelledToken, htype]),
    if_pos ⟨htwo, by simp [Token.isWordValue, spelledToken, htype, hvalue]⟩, hfinish]
  rfl

/-- Any other token finds the integers in the frames. -/
theorem remainderTurn_other (h : Reads input tail p (spelled :: row))
    (htype : spelled.type ≠ .integer) (hvalue : spelled.type = .word → spelled.value ≠ ascii "R")
    (hopen : Open F) (hpending : Pending p F run frames) :
    ∃ start p', Reads input tail p' row ∧ p'.integerCount = 0 ∧
      p.remainderTurn frames = p'.dispatch (acceptAll F (integers run))
        (spelledToken start spelled.type spelled.value spelled.raw) := by
  obtain ⟨start, tokens, hreads, hturn⟩ := h.remainderTurn (fun hinteger => absurd hinteger htype)
    frames
  have htook : Pending (p.took tokens start) F run frames := hpending.congr rfl rfl rfl
  obtain ⟨p', hflush, hcount, hcalm⟩ := Pending.flushIntegerBuffer htook hopen
  refine ⟨start, p', hreads.of_calm hcalm, hcount, ?_⟩
  rw [hturn, remainderToken, if_neg (by simpa [Token.isInteger, spelledToken] using htype),
    if_neg (by simpa [Token.isWordValue, spelledToken] using fun _ => hvalue), hflush]
  rfl

end LiveParser

end Flpdf
