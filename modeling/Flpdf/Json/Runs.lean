import Flpdf.Json.Parser
import Flpdf.Json.Tokens

/-!
# Runs of the JSON parser

An accepting run, turn by turn: every turn but the last takes one token, and a
value changes the stack in the same way whether it is a scalar or a container
that has been closed.
-/

namespace Flpdf.Json

theorem TokenText.ne_top {o : ℤ} {core token : Bytes} {st : LexState}
    (h : TokenText o core st token) : st ≠ .top := by
  cases h with
  | delimiter hdelimiter =>
    unfold Lexer.delimiter at hdelimiter
    split_ifs at hdelimiter <;> obtain rfl := Option.some.inj hdelimiter <;> decide
  | number => decide
  | keyword => decide
  | string => decide

theorem TokenText.length_pos {o : ℤ} {core token : Bytes} {st : LexState}
    (h : TokenText o core st token) : 0 < core.length := by
  cases h with
  | delimiter => exact Nat.one_pos
  | number hnumber =>
    obtain ⟨b, body, _, rfl, _⟩ := isNumber_iff.mp hnumber
    exact Nat.succ_pos _
  | keyword hne => exact List.length_pos_iff.mpr hne
  | string => exact Nat.succ_pos _

namespace Parser

variable {p p' q q' : Parser} {pos n : ℕ} {o : ℤ} {rest rest' core pre key : Bytes}
  {ps ps' : ParseState} {st : LexState} {stack stack' stack₁ : List StackEntry} {v w : Json}

def Accepts (p : Parser) (v : Json) : Prop := ∃ fuel, parseFrom fuel p = some (.ok v)

theorem Accepts.cases (h : Accepts p v) :
    p.lexer.done = true ∧ p.result = .ok v ∨
      p.lexer.done = false ∧ ∃ p', p.turn = .ok p' ∧ Accepts p' v := by
  obtain ⟨fuel, h⟩ := h
  cases fuel with
  | zero => cases h
  | succ fuel =>
    rw [parseFrom] at h
    cases hdone : p.lexer.done with
    | true =>
      rw [hdone, if_pos rfl] at h
      exact .inl ⟨rfl, Option.some.inj h⟩
    | false =>
      rw [hdone, if_neg (by decide)] at h
      cases hturn : p.turn with
      | error e =>
        rw [hturn] at h
        cases h
      | ok p' =>
        rw [hturn] at h
        exact .inr ⟨rfl, p', rfl, fuel, h⟩

theorem Accepts.of_result (hdone : p.lexer.done = true) (h : p.result = .ok v) : Accepts p v :=
  ⟨1, by rw [parseFrom, if_pos hdone, h]⟩

theorem Accepts.of_turn (hdone : p.lexer.done = false) (hturn : p.turn = .ok p')
    (h : Accepts p' v) : Accepts p v := by
  obtain ⟨fuel, h⟩ := h
  exact ⟨fuel + 1, by rw [parseFrom, hdone, if_neg (by decide), hturn]; exact h⟩

/-- The parser between two tokens. -/
structure Ready (p : Parser) (pos : ℕ) (rest : Bytes) (ps : ParseState)
    (stack : List StackEntry) (key : Bytes) : Prop where
  state : p.lexer.state = .top
  pos : p.lexer.pos = pos
  rest : p.rest = rest
  parseState : p.parseState = ps
  stack : p.stack = stack
  key : p.dictKey = key
  done : p.lexer.done = true → p.rest = []

/-- The parser with a token to dispatch on. -/
structure Taken (q : Parser) (o : ℤ) (core : Bytes) (st : LexState) : Prop where
  text : TokenText o core st q.lexer.token
  start : recordsStart st = true → q.lexer.tokenStart = o

theorem Ready.rest_nil (h : Ready p pos rest ps stack key) (hdone : p.lexer.done = true) :
    rest = [] :=
  h.rest.symm.trans (h.done hdone)

theorem Ready.offset (h : Ready p pos rest ps stack key) : p.offset = pos := by
  rw [Parser.offset, Lexer.offset, h.pos]

theorem Ready.update (h : Ready p pos rest ps stack key) (ps' : ParseState)
    (stack' : List StackEntry) :
    Ready { p with parseState := ps', stack := stack' } pos rest ps' stack' key :=
  ⟨h.state, h.pos, h.rest, rfl, rfl, h.key, h.done⟩

theorem Ready.of_pos (h : Ready p pos rest ps stack key) (hpos : pos = n) :
    Ready p n rest ps stack key :=
  hpos ▸ h

/-- One turn of an accepting run: the end of the input, or one token. -/
theorem turn_cases (hready : Ready p pos rest ps stack key) (h : Accepts p v) :
    (Blank rest ∧ ps = .done ∧ ∃ entry stack', stack = entry :: stack' ∧ entry.item = v) ∨
    ∃ (pre core rest' : Bytes) (st : LexState) (q p' : Parser), rest = pre ++ (core ++ rest') ∧
      Blank pre ∧ ps ≠ .done ∧ Taken q (pos + pre.length) core st ∧
      Ready q (pos + pre.length + core.length) rest' ps stack key ∧
      q.dispatch st = .ok p' ∧ Accepts p' v := by
  have hend : ∀ p : Parser, p.parseState = ps → p.stack = stack → p.result = .ok v →
      ps = .done ∧ ∃ entry stack', stack = entry :: stack' ∧ entry.item = v := by
    intro p hps hstack hresult
    unfold result at hresult
    split_ifs at hresult with hdone
    rw [hstack] at hresult
    cases hcases : stack with
    | nil =>
      rw [hcases] at hresult
      cases hresult
    | cons entry stack' =>
      rw [hcases] at hresult
      exact ⟨hps ▸ hdone, entry, stack', rfl, Except.ok.inj hresult⟩
  rcases h.cases with ⟨hdone, hresult⟩ | ⟨hdone, p₁, hturn, haccepts⟩
  · rw [hready.rest_nil hdone]
    exact .inl ⟨by simp [Blank], hend p hready.parseState hready.stack hresult⟩
  · unfold turn at hturn
    rw [hready.rest] at hturn
    cases htoken : p.lexer.getToken rest with
    | error e =>
      rw [htoken] at hturn
      cases hturn
    | ok read =>
      obtain ⟨l, rest'⟩ := read
      rw [htoken] at hturn
      dsimp only at hturn
      rcases Lexer.getToken_cases hready.state hdone htoken with ⟨hblank, rfl, htop, hl⟩ | hpartial |
        ⟨pre, core, rfl, hpre, hreads⟩
      · -- Nothing but whitespace is left, and the next turn is the last.
        rw [handleToken, if_pos htop] at hturn
        obtain rfl := Except.ok.inj hturn
        rcases haccepts.cases with ⟨_, hresult⟩ | ⟨hl', _⟩
        · exact .inl ⟨hblank, hend _ hready.parseState hready.stack hresult⟩
        · rw [show l.done = false from hl'] at hl
          cases hl
      · exfalso
        unfold handleToken at hturn
        cases hl : l.state <;> rw [hl] at hpartial <;> try cases hpartial
        all_goals
          dsimp only at hturn
          rw [hl, if_neg (by decide)] at hturn
          split_ifs at hturn
          cases hturn
      · right
        unfold handleToken at hturn
        dsimp only at hturn
        rw [if_neg hreads.text.ne_top] at hturn
        by_cases hps : p.parseState = .done
        · rw [if_pos hps] at hturn
          cases hturn
        · rw [if_neg hps] at hturn
          rw [hready.parseState] at hps
          refine ⟨pre, core, rest', l.state,
            { p with lexer := { l with state := .top }, rest := rest' }, p₁, rfl, hpre, hps,
            ⟨?_, ?_⟩, ⟨rfl, ?_, rfl, hready.parseState, hready.stack, hready.key, hreads.done⟩,
            hturn, haccepts⟩
          · have htext := hreads.text
            rwa [Lexer.offset, hready.pos] at htext
          · intro hrecords
            have hstart := hreads.start hrecords
            rwa [Lexer.offset, hready.pos] at hstart
          · have hpos := hreads.pos
            rwa [hready.pos] at hpos

/-- A token text is taken by one turn. -/
theorem turn_of_text {token : Bytes} (hready : Ready p pos (pre ++ (core ++ rest)) ps stack key)
    (hpre : Blank pre) (hps : ps ≠ .done) (htext : TokenText (pos + pre.length) core st token)
    (hbreaks : isOpenEnded st = true → Breaks rest) :
    ∃ q, Taken q (pos + pre.length) core st ∧ q.lexer.token = token ∧
      Ready q (pos + pre.length + core.length) rest ps stack key ∧
      ∀ p' v, q.dispatch st = .ok p' → Accepts p' v → Accepts p v := by
  have hdone : p.lexer.done = false := by
    cases hdone : p.lexer.done with
    | false => rfl
    | true =>
      have hcore := List.ne_nil_of_length_pos htext.length_pos
      exact absurd (hready.rest_nil hdone) (by simp [hcore])
  have htext' : TokenText (p.lexer.offset + pre.length) core st token := by
    rwa [Lexer.offset, hready.pos]
  obtain ⟨l, htoken, hst, hl, hreads⟩ :=
    Lexer.getToken_of_text htext' hready.state hdone hpre hbreaks
  refine ⟨{ p with lexer := { l with state := .top }, rest := rest }, ⟨?_, ?_⟩, hl,
    ⟨rfl, ?_, rfl, hready.parseState, hready.stack, hready.key, hreads.done⟩, ?_⟩
  · rw [← hl] at htext
    exact htext
  · intro hrecords
    rw [← hst] at hrecords
    have hstart := hreads.start hrecords
    rwa [Lexer.offset, hready.pos] at hstart
  · have hpos := hreads.pos
    rwa [hready.pos] at hpos
  · intro p' v hdispatch haccepts
    refine .of_turn hdone ?_ haccepts
    rw [turn, hready.rest, htoken]
    dsimp only
    rw [handleToken]
    dsimp only
    rw [hst, if_neg htext.ne_top, if_neg (by rwa [hready.parseState])]
    exact hdispatch

/-! ## Values and the stack -/

/-- The stack has the container that the state speaks of. -/
inductive Fits : ParseState → List StackEntry → Prop where
  | top : Fits .top []
  | item {ps st : ParseState} {items : List Json} {a b : ℤ} {keys : List Bytes} {k : Bytes}
      {stack : List StackEntry} : ps = .arrayBegin ∨ ps = .arrayAfterComma →
      Fits ps (⟨st, .array items a b, keys, k⟩ :: stack)
  | member {st : ParseState} {ms : List (Bytes × Json)} {a b : ℤ} {keys : List Bytes} {k : Bytes}
      {stack : List StackEntry} :
      Fits .dictionaryAfterColon (⟨st, .dictionary ms a b, keys, k⟩ :: stack)

/-- What the beginning of a value does to the state and the stack. -/
inductive Opens : ParseState → Bytes → List StackEntry → ParseState → List StackEntry → Prop where
  | top {key : Bytes} : Opens .top key [] .done []
  | item {ps st : ParseState} {items : List Json} {a b : ℤ} {keys : List Bytes} {key k : Bytes}
      {stack : List StackEntry} : ps = .arrayBegin ∨ ps = .arrayAfterComma →
      Opens ps key (⟨st, .array items a b, keys, k⟩ :: stack) .arrayAfterItem
        (⟨st, .array items a b, keys, k⟩ :: stack)
  | member {st : ParseState} {ms : List (Bytes × Json)} {a b : ℤ} {keys : List Bytes}
      {key k : Bytes} {stack : List StackEntry} : key ∉ keys →
      Opens .dictionaryAfterColon key (⟨st, .dictionary ms a b, keys, k⟩ :: stack)
        .dictionaryAfterItem (⟨st, .dictionary ms a b, key :: keys, k⟩ :: stack)

/-- What its end does: the value is the result, an item or a member. -/
inductive Attaches : ParseState → Bytes → List StackEntry → Json → List StackEntry → Prop where
  | top {key : Bytes} {keys : List Bytes} {w : Json} :
      Attaches .done key [] w [⟨.done, w, keys, key⟩]
  | item {st : ParseState} {items : List Json} {a b : ℤ} {keys : List Bytes} {key k : Bytes}
      {stack : List StackEntry} {w : Json} :
      Attaches .arrayAfterItem key (⟨st, .array items a b, keys, k⟩ :: stack) w
        (⟨st, .array (items ++ [w]) a b, keys, k⟩ :: stack)
  | member {st : ParseState} {ms : List (Bytes × Json)} {a b : ℤ} {keys : List Bytes}
      {key k : Bytes} {stack : List StackEntry} {w : Json} :
      Attaches .dictionaryAfterItem key (⟨st, .dictionary ms a b, keys, k⟩ :: stack) w
        (⟨st, .dictionary (insertSorted (encodeString key) w ms) a b, keys, k⟩ :: stack)

theorem Opens.ne_done (h : Opens ps key stack ps' stack₁) : ps ≠ .done := by
  cases h with
  | top => decide
  | item hps => rcases hps with rfl | rfl <;> decide
  | member => decide

theorem Opens.length_eq (h : Opens ps key stack ps' stack₁) : stack₁.length = stack.length := by
  cases h <;> rfl

theorem afterValue_of_opens (h : Opens q.parseState q.dictKey q.stack ps' stack₁) :
    q.afterValue = .ok { q with parseState := ps', stack := stack₁ } := by
  cases q
  dsimp only at h
  cases h with
  | top => rfl
  | item hps => rcases hps with rfl | rfl <;> rfl
  | member hnew =>
    unfold afterValue
    dsimp only
    unfold checkKey
    dsimp only
    rw [if_neg hnew]
    rfl

theorem opens_of_afterValue (hfits : Fits q.parseState q.stack) (h : q.afterValue = .ok q') :
    ∃ ps' stack₁, Opens q.parseState q.dictKey q.stack ps' stack₁ ∧
      q' = { q with parseState := ps', stack := stack₁ } := by
  have hopens : ∃ ps' stack₁, Opens q.parseState q.dictKey q.stack ps' stack₁ := by
    generalize hps : q.parseState = ps at hfits
    generalize hstack : q.stack = stack at hfits
    cases hfits with
    | top => exact ⟨_, _, .top⟩
    | item hps => exact ⟨_, _, .item hps⟩
    | @member st ms a b keys k stack =>
      refine ⟨_, _, .member ?_⟩
      intro hold
      unfold afterValue at h
      rw [hps] at h
      dsimp only at h
      rw [checkKey, hstack] at h
      dsimp only at h
      rw [if_pos hold] at h
      cases h
  obtain ⟨ps', stack₁, hopens⟩ := hopens
  rw [afterValue_of_opens hopens] at h
  exact ⟨ps', stack₁, hopens, (Except.ok.inj h).symm⟩

theorem attach_array {st : ParseState} {items : List Json} {a b : ℤ} {keys : List Bytes}
    {k : Bytes} : attach key w (⟨st, .array items a b, keys, k⟩ :: stack) =
      .ok (⟨st, .array (items ++ [w.orNull]) a b, keys, k⟩ :: stack) := rfl

theorem attach_dictionary {st : ParseState} {ms : List (Bytes × Json)} {a b : ℤ}
    {keys : List Bytes} {k : Bytes} :
    attach key w (⟨st, .dictionary ms a b, keys, k⟩ :: stack) =
      .ok (⟨st, .dictionary (insertSorted (encodeString key) w.orNull ms) a b, keys, k⟩ ::
        stack) := rfl

/-- A value can be attached wherever it was opened. -/
theorem Opens.attach (h : Opens ps key stack ps' stack₁) (hw : w.orNull = w) (keys : List Bytes) :
    ∃ stack', Attaches ps' key stack₁ w stack' ∧
      (ps' = .done → stack' = ⟨.done, w, keys, key⟩ :: stack₁) ∧
      (ps' ≠ .done → Parser.attach key w stack₁ = .ok stack') := by
  cases h with
  | top => exact ⟨_, .top, fun _ => rfl, fun h => absurd rfl h⟩
  | item =>
    refine ⟨_, .item, by simp, fun _ => ?_⟩
    rw [attach_array, hw]
  | member =>
    refine ⟨_, .member, by simp, fun _ => ?_⟩
    rw [attach_dictionary, hw]

/-- Scalars, as far as the parser can tell. -/
def IsScalar (w : Json) : Prop := (w.isDictionary || w.isArray) = false ∧ w.orNull = w

theorem placeValue_scalar (hw : IsScalar w)
    (h : Opens q.parseState q.dictKey q.stack ps' stack₁) :
    ∃ stack', Attaches ps' q.dictKey stack₁ w stack' ∧
      q.placeValue w = .ok { q with parseState := ps', stack := stack' } := by
  obtain ⟨stack', hattaches, hdone, hother⟩ := h.attach hw.2 []
  refine ⟨stack', hattaches, ?_⟩
  rw [placeValue, afterValue_of_opens h]
  dsimp only
  rw [hw.1, if_neg (by decide)]
  by_cases hps : ps' = .done
  · rw [if_pos hps, hdone hps]
  · rw [if_neg hps, hother hps]
    rfl

theorem placeValue_container (hw : (w.isDictionary || w.isArray) = true)
    (h : Opens q.parseState q.dictKey q.stack ps' stack₁) (hdepth : q.stack.length < 500) :
    q.placeValue w = .ok
      { q with
        parseState := if w.isDictionary then .dictionaryBegin else .arrayBegin
        stack := ⟨ps', w, [], q.dictKey⟩ :: stack₁ } := by
  rw [placeValue, afterValue_of_opens h]
  dsimp only
  rw [if_pos hw, openContainer]
  dsimp only
  rw [if_neg]
  rw [List.length_cons, h.length_eq]
  omega

/-- A value that is placed was opened, and a container found room. -/
theorem opens_of_placeValue (hfits : Fits q.parseState q.stack) (h : q.placeValue w = .ok q') :
    ∃ ps' stack₁, Opens q.parseState q.dictKey q.stack ps' stack₁ ∧
      ((w.isDictionary || w.isArray) = true → q.stack.length < 500) := by
  unfold placeValue at h
  cases hafter : q.afterValue with
  | error e =>
    rw [hafter] at h
    cases h
  | ok q₁ =>
    obtain ⟨ps', stack₁, hopens, rfl⟩ := opens_of_afterValue hfits hafter
    refine ⟨ps', stack₁, hopens, ?_⟩
    intro hw
    rw [hafter] at h
    dsimp only at h
    rw [if_pos hw, openContainer] at h
    dsimp only at h
    by_contra hlength
    rw [if_pos] at h
    · cases h
    · rw [List.length_cons, hopens.length_eq]
      omega

/-- Closing a container attaches it where it was opened. -/
theorem closeContainer_of_opens {keys : List Bytes}
    (hend : (w.setEnd q.offset).orNull = w.setEnd q.offset)
    (hstack : q.stack = ⟨ps', w, keys, key⟩ :: stack₁) (h : Opens ps key stack ps' stack₁) :
    ∃ stack', Attaches ps' key stack₁ (w.setEnd q.offset) stack' ∧
      q.closeContainer = .ok { q with parseState := ps', stack := stack' } := by
  obtain ⟨stack', hattaches, hdone, hother⟩ := h.attach hend keys
  refine ⟨stack', hattaches, ?_⟩
  rw [closeContainer, hstack]
  dsimp only
  by_cases hps : ps' = .done
  · rw [if_pos hps, hdone hps, hps]
  · rw [if_neg hps, hother hps]
    rfl

end Parser

end Flpdf.Json
