import Flpdf.Json.Runs

/-!
# What the JSON parser accepts

Behind every accepting run stands a derivation of the grammar: from a state in
which a value is expected the run passes over the text of a value, and from the
middle of a container over the rest of the container's text.
-/

namespace Flpdf.Json

/-! ## Texts of containers -/

/-- What follows an item: whitespace, or a comma and more items. -/
def Tail {α : Type} (item : ℤ → Bytes → α → Prop) (o : ℤ) (tail : Bytes) (more : List α) : Prop :=
  Blank tail ∧ more = [] ∨
    ∃ post rest, Blank post ∧ tail = post ++ 0x2c :: rest ∧
      Separated item (o + post.length + 1) rest more

theorem separated_of_tail {α : Type} {item : ℤ → Bytes → α → Prop} {o : ℤ} {text tail : Bytes}
    {a : α} {more : List α} (hitem : ∀ post, Blank post → item o (text ++ post) a)
    (htail : Tail item (o + text.length) tail more) :
    Separated item o (text ++ tail) (a :: more) := by
  rcases htail with ⟨hblank, rfl⟩ | ⟨post, rest, hpost, rfl, hmore⟩
  · exact .last (hitem tail hblank)
  · rw [← List.append_assoc]
    refine .cons (hitem post hpost) ?_
    rwa [List.length_append, Int.natCast_add, ← Int.add_assoc]

theorem scalar_isScalar {o : ℤ} {text : Bytes} {w : Json} (h : Scalar o text w) :
    Parser.IsScalar w := by
  cases h <;> exact ⟨rfl, rfl⟩

theorem value_of_scalar {depth : ℕ} {o : ℤ} {text : Bytes} {w : Json} (h : Scalar o text w) :
    Value depth o text w := by
  cases depth with
  | zero => exact h
  | succ depth => exact .inl h

namespace Parser

variable {p p' q q' : Parser} {pos n : ℕ} {o : ℤ} {rest rest' core pre key : Bytes}
  {ps ps' : ParseState} {st : LexState} {stack stack' stack₁ : List StackEntry} {v w : Json}

/-! ## Single tokens -/

/-- The texts that begin a value, with the value they begin. -/
def Begins (o : ℤ) (core : Bytes) (w : Json) : Prop :=
  Scalar o core w ∨ core = [0x5b] ∧ w = .array [] o (o + 1) ∨
    core = [0x7b] ∧ w = .dictionary [] o (o + 1)

/-- The dispatch on each kind of token. -/
theorem dispatch_cases (htaken : Taken q o core st) (hoffset : q.offset = o + core.length)
    (h : q.dispatch st = .ok p') :
    (core = [0x2c] ∧ q.handleComma = .ok p') ∨ (core = [0x3a] ∧ q.handleColon = .ok p') ∨
    (core = [0x5d] ∧ q.handleEndArray = .ok p') ∨
    (core = [0x7d] ∧ q.handleEndDictionary = .ok p') ∨
    (∃ body, core = 0x22 :: (body ++ [0x22]) ∧ StringText (o + 1) body q.lexer.token ∧
      q.lexer.tokenStart = o ∧ q.handleString = .ok p') ∨
    ∃ w, Begins o core w ∧ q.placeValue w = .ok p' := by
  have htext := htaken.text
  have hstart := htaken.start
  generalize htoken : q.lexer.token = token at htext
  cases htext with
  | @delimiter b st hdelimiter =>
    unfold Lexer.delimiter at hdelimiter
    split_ifs at hdelimiter with h2c h3a h7b h7d h5b h5d <;>
      obtain rfl := Option.some.inj hdelimiter <;> subst b <;> dsimp only [dispatch] at h
    · exact .inl ⟨rfl, h⟩
    · exact .inr (.inl ⟨rfl, h⟩)
    · rw [hstart rfl, hoffset] at h
      exact .inr (.inr (.inr (.inr (.inr ⟨_, .inr (.inr ⟨rfl, rfl⟩), h⟩))))
    · exact .inr (.inr (.inr (.inl ⟨rfl, h⟩)))
    · rw [hstart rfl, hoffset] at h
      exact .inr (.inr (.inr (.inr (.inr ⟨_, .inr (.inl ⟨rfl, rfl⟩), h⟩))))
    · exact .inr (.inr (.inl ⟨rfl, h⟩))
  | number hnumber =>
    dsimp only [dispatch] at h
    rw [hstart rfl, hoffset, htoken] at h
    exact .inr (.inr (.inr (.inr (.inr ⟨_, .inl (.number hnumber), h⟩))))
  | keyword hne hlower =>
    dsimp only [dispatch] at h
    unfold handleKeyword at h
    rw [hstart rfl, hoffset, htoken] at h
    split_ifs at h with htrue hfalse hnull
    · subst htrue
      exact .inr (.inr (.inr (.inr (.inr ⟨_, .inl (.true o), h⟩))))
    · subst hfalse
      exact .inr (.inr (.inr (.inr (.inr ⟨_, .inl (.false o), h⟩))))
    · subst hnull
      exact .inr (.inr (.inr (.inr (.inr ⟨_, .inl (.null o), h⟩))))
  | @string body s htext =>
    exact .inr (.inr (.inr (.inr (.inl ⟨body, rfl, htext, hstart rfl, h⟩))))

/-- Only where a value is expected is one placed. -/
theorem not_placeValue (hps : q.parseState = .arrayAfterItem ∨ q.parseState = .dictionaryAfterItem ∨
    q.parseState = .dictionaryAfterKey ∨ q.parseState = .dictionaryBegin ∨
    q.parseState = .dictionaryAfterComma) : q.placeValue w ≠ .ok p' := by
  intro h
  rcases hps with hps | hps | hps | hps | hps <;> unfold placeValue afterValue at h <;>
    rw [hps] at h <;> cases h

/-- A string that is no key is a value. -/
theorem handleString_value (hps : ¬(q.parseState = .dictionaryBegin ∨
    q.parseState = .dictionaryAfterComma)) {body : Bytes}
    (hoffset : q.offset = o + ((0x22 :: (body ++ [0x22]) : Bytes).length : ℤ))
    (htext : StringText (o + 1) body q.lexer.token) (hstart : q.lexer.tokenStart = o)
    (h : q.handleString = .ok p') :
    ∃ w, Begins o (0x22 :: (body ++ [0x22])) w ∧ q.placeValue w = .ok p' := by
  rw [handleString, if_neg hps, hstart, hoffset] at h
  have hlength : o + ((0x22 :: (body ++ [0x22]) : Bytes).length : ℤ) = o + body.length + 2 := by
    simp only [List.length_cons, List.length_append, List.length_nil]
    omega
  rw [hlength] at h
  exact ⟨_, .inl (.string htext), h⟩

/-- Where a value is expected, a token begins one or closes an empty array. -/
theorem value_token (hfits : Fits q.parseState q.stack) (htaken : Taken q o core st)
    (hoffset : q.offset = o + core.length) (h : q.dispatch st = .ok p') :
    (q.parseState = .arrayBegin ∧ core = [0x5d] ∧ q.closeContainer = .ok p') ∨
    ∃ w, Begins o core w ∧ q.placeValue w = .ok p' := by
  have hps : q.parseState = .top ∨ q.parseState = .arrayBegin ∨ q.parseState = .arrayAfterComma ∨
      q.parseState = .dictionaryAfterColon := by
    generalize q.parseState = ps at hfits
    generalize q.stack = stack at hfits
    cases hfits with
    | top => exact .inl rfl
    | item hps => rcases hps with rfl | rfl <;> simp
    | member => simp
  rcases dispatch_cases htaken hoffset h with ⟨_, h⟩ | ⟨_, h⟩ | ⟨hcore, h⟩ | ⟨_, h⟩ |
    ⟨body, rfl, htext, hstart, h⟩ | hvalue
  · rcases hps with hps | hps | hps | hps <;> rw [handleComma, hps] at h <;> cases h
  · rcases hps with hps | hps | hps | hps <;> rw [handleColon, hps, if_neg (by decide)] at h <;>
      cases h
  · left
    unfold handleEndArray at h
    rcases hps with hps | hps | hps | hps <;> rw [hps] at h
    · cases h
    · exact ⟨hps, hcore, h⟩
    · cases h
    · cases h
  · unfold handleEndDictionary at h
    rcases hps with hps | hps | hps | hps <;> rw [hps, if_neg (by decide)] at h <;> cases h
  · refine .inr (handleString_value ?_ hoffset htext hstart h)
    rcases hps with hps | hps | hps | hps <;> rw [hps] <;> decide
  · exact .inr hvalue

/-- Behind an item a token is a comma or closes the array. -/
theorem item_token (htaken : Taken q o core st) (hoffset : q.offset = o + core.length)
    (hps : q.parseState = .arrayAfterItem) (h : q.dispatch st = .ok p') :
    core = [0x2c] ∧ p' = { q with parseState := .arrayAfterComma } ∨
      core = [0x5d] ∧ q.closeContainer = .ok p' := by
  rcases dispatch_cases htaken hoffset h with ⟨hcore, h⟩ | ⟨_, h⟩ | ⟨hcore, h⟩ | ⟨_, h⟩ |
    ⟨body, rfl, htext, hstart, h⟩ | ⟨w, _, h⟩
  · rw [handleComma, hps] at h
    exact .inl ⟨hcore, (Except.ok.inj h).symm⟩
  · rw [handleColon, hps, if_neg (by decide)] at h
    cases h
  · rw [handleEndArray, hps, if_pos (by decide)] at h
    exact .inr ⟨hcore, h⟩
  · rw [handleEndDictionary, hps, if_neg (by decide)] at h
    cases h
  · obtain ⟨w, _, h⟩ := handleString_value (by rw [hps]; decide) hoffset htext hstart h
    exact absurd h (not_placeValue (.inl hps))
  · exact absurd h (not_placeValue (.inl hps))

/-- Behind a member a token is a comma or closes the dictionary. -/
theorem member_token (htaken : Taken q o core st) (hoffset : q.offset = o + core.length)
    (hps : q.parseState = .dictionaryAfterItem) (h : q.dispatch st = .ok p') :
    core = [0x2c] ∧ p' = { q with parseState := .dictionaryAfterComma } ∨
      core = [0x7d] ∧ q.closeContainer = .ok p' := by
  rcases dispatch_cases htaken hoffset h with ⟨hcore, h⟩ | ⟨_, h⟩ | ⟨_, h⟩ | ⟨hcore, h⟩ |
    ⟨body, rfl, htext, hstart, h⟩ | ⟨w, _, h⟩
  · rw [handleComma, hps] at h
    exact .inl ⟨hcore, (Except.ok.inj h).symm⟩
  · rw [handleColon, hps, if_neg (by decide)] at h
    cases h
  · rw [handleEndArray, hps, if_neg (by decide)] at h
    cases h
  · rw [handleEndDictionary, hps, if_pos (by decide)] at h
    exact .inr ⟨hcore, h⟩
  · obtain ⟨w, _, h⟩ := handleString_value (by rw [hps]; decide) hoffset htext hstart h
    exact absurd h (not_placeValue (.inr (.inl hps)))
  · exact absurd h (not_placeValue (.inr (.inl hps)))

/-- Where a key is expected, a token is one or closes an empty dictionary. -/
theorem key_token (htaken : Taken q o core st) (hoffset : q.offset = o + core.length)
    (hps : q.parseState = .dictionaryBegin ∨ q.parseState = .dictionaryAfterComma)
    (h : q.dispatch st = .ok p') :
    (q.parseState = .dictionaryBegin ∧ core = [0x7d] ∧ q.closeContainer = .ok p') ∨
    ∃ body, core = 0x22 :: (body ++ [0x22]) ∧ StringText (o + 1) body q.lexer.token ∧
      p' = { q with
        dictKey := q.lexer.token
        dictKeyOffset := q.lexer.tokenStart
        parseState := .dictionaryAfterKey } := by
  have hplace : ∀ w, q.placeValue w ≠ .ok p' := by
    intro w
    exact not_placeValue (.inr (.inr (.inr hps)))
  rcases dispatch_cases htaken hoffset h with ⟨_, h⟩ | ⟨_, h⟩ | ⟨_, h⟩ | ⟨hcore, h⟩ |
    ⟨body, rfl, htext, hstart, h⟩ | ⟨w, _, h⟩
  · rcases hps with hps | hps <;> rw [handleComma, hps] at h <;> cases h
  · rcases hps with hps | hps <;> rw [handleColon, hps, if_neg (by decide)] at h <;> cases h
  · rcases hps with hps | hps <;> rw [handleEndArray, hps, if_neg (by decide)] at h <;> cases h
  · unfold handleEndDictionary at h
    rcases hps with hps | hps <;> rw [hps] at h
    · exact .inl ⟨hps, hcore, h⟩
    · cases h
  · rw [handleString, if_pos hps] at h
    exact .inr ⟨body, rfl, htext, (Except.ok.inj h).symm⟩
  · exact absurd h (hplace w)

/-- Behind a key stands a colon. -/
theorem colon_token (htaken : Taken q o core st) (hoffset : q.offset = o + core.length)
    (hps : q.parseState = .dictionaryAfterKey) (h : q.dispatch st = .ok p') :
    core = [0x3a] ∧ p' = { q with parseState := .dictionaryAfterColon } := by
  have hplace : ∀ w, q.placeValue w ≠ .ok p' := by
    intro w
    exact not_placeValue (.inr (.inr (.inl hps)))
  rcases dispatch_cases htaken hoffset h with ⟨_, h⟩ | ⟨hcore, h⟩ | ⟨_, h⟩ | ⟨_, h⟩ |
    ⟨body, rfl, htext, hstart, h⟩ | ⟨w, _, h⟩
  · rw [handleComma, hps] at h
    cases h
  · rw [handleColon, if_pos hps] at h
    exact ⟨hcore, (Except.ok.inj h).symm⟩
  · rw [handleEndArray, hps, if_neg (by decide)] at h
    cases h
  · rw [handleEndDictionary, hps, if_neg (by decide)] at h
    cases h
  · obtain ⟨w, _, h⟩ := handleString_value (by rw [hps]; decide) hoffset htext hstart h
    exact absurd h (hplace w)
  · exact absurd h (hplace w)

/-! ## Containers -/

/-- The run passes over the text of a value. -/
def PassesValue (pos : ℕ) (rest : Bytes) (ps : ParseState) (stack : List StackEntry) (key : Bytes)
    (v : Json) : Prop :=
  ∃ pre core rest' w ps' stack₁ stack' key' p', rest = pre ++ (core ++ rest') ∧ Blank pre ∧
    Value (500 - stack.length) (pos + pre.length) core w ∧ Opens ps key stack ps' stack₁ ∧
    Attaches ps' key stack₁ w stack' ∧
    Ready p' (pos + pre.length + core.length) rest' ps' stack' key' ∧ Accepts p' v

/-- The run closes the container on the top of the stack. -/
def Closes (close : UInt8) (pos : ℕ) (rest : Bytes) (stack : List StackEntry) (v : Json) : Prop :=
  ∃ pre rest' ps key q p', rest = pre ++ close :: rest' ∧ Blank pre ∧
    Ready q (pos + pre.length + 1) rest' ps stack key ∧ q.closeContainer = .ok p' ∧ Accepts p' v

/-- Values are passed over in all texts below some length. -/
def PassesBelow (n : ℕ) (v : Json) : Prop :=
  ∀ (p : Parser) (pos : ℕ) (rest : Bytes) (ps : ParseState) (stack : List StackEntry)
    (key : Bytes), rest.length < n → Ready p pos rest ps stack key → Fits ps stack → Accepts p v →
    ps = .arrayBegin ∧ Closes 0x5d pos rest stack v ∨ PassesValue pos rest ps stack key v

/-- From behind an item a run passes over the rest of the array. -/
theorem passes_items (hbelow : PassesBelow n v) {a b : ℤ} {keys : List Bytes} {k : Bytes}
    {items : List Json} (hn : rest.length ≤ n)
    (hready : Ready p pos rest .arrayAfterItem (⟨ps', .array items a b, keys, k⟩ :: stack) key)
    (h : Accepts p v) :
    ∃ tail rest' more ps key q p', rest = tail ++ 0x5d :: rest' ∧
      Tail (Padded (Value (500 - (stack.length + 1)))) pos tail more ∧
      Ready q (pos + tail.length + 1) rest' ps
        (⟨ps', .array (items ++ more) a b, keys, k⟩ :: stack) key ∧
      q.closeContainer = .ok p' ∧ Accepts p' v := by
  induction hlength : rest.length using Nat.strong_induction_on generalizing p pos rest items key with
  | _ m ih =>
    subst hlength
    rcases turn_cases hready h with ⟨_, hdone, _⟩ |
      ⟨pre, core, rest₁, st, q, p₁, rfl, hpre, _, htaken, hq, hdispatch, haccepts⟩
    · cases hdone
    have hoffset : q.offset = (pos : ℤ) + pre.length + core.length := by
      rw [hq.offset]
      omega
    rcases item_token htaken hoffset hq.parseState hdispatch with ⟨rfl, rfl⟩ | ⟨rfl, hclose⟩
    · have hready₁ : Ready { q with parseState := .arrayAfterComma } (pos + pre.length + 1) rest₁
          .arrayAfterComma (⟨ps', .array items a b, keys, k⟩ :: stack) key :=
        ⟨hq.state, hq.pos, hq.rest, rfl, hq.stack, hq.key, hq.done⟩
      have hshort : rest₁.length < (pre ++ ([0x2c] ++ rest₁)).length := by
        simp only [List.length_append, List.length_singleton]
        omega
      rcases hbelow _ _ _ _ _ _ (by omega) hready₁ (.item (.inr rfl)) haccepts with ⟨hps, _⟩ |
        ⟨pre₂, core₂, rest₂, w, _, _, _, key₂, p₂, rfl, hpre₂, hvalue, hopens, hattaches, hready₂,
          haccepts₂⟩
      · cases hps
      cases hopens with
      | item _ =>
        cases hattaches with
        | item =>
          obtain ⟨tail, rest', more, ps₃, key₃, q₃, p₃, rfl, htail, hready₃, hclose, haccepts₃⟩ :=
            ih rest₂.length (by simp only [List.length_append] at hshort ⊢; omega)
              (by simp only [List.length_append] at hn ⊢; omega) hready₂ haccepts₂ rfl
          refine ⟨pre ++ 0x2c :: (pre₂ ++ core₂ ++ tail), rest', w :: more, ps₃, key₃, q₃, p₃,
            by simp, .inr ⟨pre, pre₂ ++ core₂ ++ tail, hpre, rfl, ?_⟩, ?_, hclose, haccepts₃⟩
          · apply separated_of_tail
            · intro post hpost
              refine ⟨pre₂, core₂, post, hpre₂, hpost, ?_, List.append_assoc _ _ _⟩
              simpa using hvalue
            · rw [List.length_append]
              convert htail using 1
              omega
          · convert hready₃ using 1
            · simp only [List.length_append, List.length_cons]
              omega
            · simp
    · exact ⟨pre, rest₁, [], _, key, q, p₁, rfl, .inl ⟨hpre, rfl⟩,
        by rw [List.append_nil]; exact hq, hclose, haccepts⟩

/-- Where a key is expected a run passes over a member, or closes the dictionary. -/
theorem passes_member (hbelow : PassesBelow n v) {a b : ℤ} {keys : List Bytes} {k : Bytes}
    {ms : List (Bytes × Json)} (hn : rest.length ≤ n)
    (hps : ps = .dictionaryBegin ∨ ps = .dictionaryAfterComma)
    (hready : Ready p pos rest ps (⟨ps', .dictionary ms a b, keys, k⟩ :: stack) key)
    (h : Accepts p v) :
    (ps = .dictionaryBegin ∧
      Closes 0x7d pos rest (⟨ps', .dictionary ms a b, keys, k⟩ :: stack) v) ∨
    ∃ text rest' m key' p', rest = text ++ rest' ∧ text ≠ [] ∧
      (∀ post, Blank post → Member (Value (500 - (stack.length + 1))) pos (text ++ post) m) ∧
      m.1 ∉ keys ∧
      Ready p' (pos + text.length) rest' .dictionaryAfterItem
        (⟨ps', .dictionary (insertSorted (encodeString m.1) m.2 ms) a b, m.1 :: keys, k⟩ :: stack)
        key' ∧ Accepts p' v := by
  rcases turn_cases hready h with ⟨_, rfl, _⟩ |
    ⟨pre, core, rest₁, st, q, p₁, rfl, hpre, _, htaken, hq, hdispatch, haccepts⟩
  · rcases hps with hps | hps <;> cases hps
  have hoffset : q.offset = (pos : ℤ) + pre.length + core.length := by
    rw [hq.offset]
    omega
  rcases key_token htaken hoffset (by rwa [hq.parseState]) hdispatch with
    ⟨hbegin, rfl, hclose⟩ | ⟨body, rfl, htext, rfl⟩
  · left
    rw [hq.parseState] at hbegin
    exact ⟨hbegin, pre, rest₁, _, key, q, p₁, rfl, hpre, hq, hclose, haccepts⟩
  right
  generalize hkey : q.lexer.token = newKey at htext
  have hready₁ : Ready { q with
        dictKey := q.lexer.token
        dictKeyOffset := q.lexer.tokenStart
        parseState := .dictionaryAfterKey }
      (pos + pre.length + (0x22 :: (body ++ [0x22])).length) rest₁ .dictionaryAfterKey
      (⟨ps', .dictionary ms a b, keys, k⟩ :: stack) newKey :=
    ⟨hq.state, hq.pos, hq.rest, rfl, hq.stack, hkey, hq.done⟩
  rcases turn_cases hready₁ haccepts with ⟨_, hdone, _⟩ |
    ⟨mid, core, rest₂, st, q₂, p₂, rfl, hmid, _, htaken₂, hq₂, hdispatch₂, haccepts₂⟩
  · cases hdone
  have hoffset₂ : q₂.offset = ((pos + pre.length + (0x22 :: (body ++ [0x22])).length : ℕ) : ℤ) +
      mid.length + core.length := by
    rw [hq₂.offset]
    omega
  obtain ⟨rfl, rfl⟩ := colon_token htaken₂ hoffset₂ hq₂.parseState hdispatch₂
  have hready₂ : Ready { q₂ with parseState := .dictionaryAfterColon }
      (pos + pre.length + (0x22 :: (body ++ [0x22])).length + mid.length + 1) rest₂
      .dictionaryAfterColon (⟨ps', .dictionary ms a b, keys, k⟩ :: stack) newKey :=
    ⟨hq₂.state, hq₂.pos, hq₂.rest, rfl, hq₂.stack, hq₂.key, hq₂.done⟩
  rcases hbelow _ _ _ _ _ _ (by simp only [List.length_append, List.length_cons] at hn ⊢; omega)
    hready₂ .member haccepts₂ with ⟨hps, _⟩ |
    ⟨pre₂, core₂, rest₃, w, _, _, _, key₃, p₃, rfl, hpre₂, hvalue, hopens, hattaches, hready₃,
      haccepts₃⟩
  · cases hps
  cases hopens with
  | member hnew =>
    cases hattaches with
    | member =>
      refine ⟨pre ++ 0x22 :: (body ++ 0x22 :: (mid ++ 0x3a :: (pre₂ ++ core₂))), rest₃, (newKey, w),
        key₃, p₃, by simp, by simp, ?_, hnew, ?_, haccepts₃⟩
      · intro post hpost
        refine ⟨pre, body, mid, pre₂ ++ (core₂ ++ post), hpre, htext, hmid,
          ⟨pre₂, core₂, post, hpre₂, hpost, ?_, rfl⟩, by simp⟩
        convert hvalue using 1
        · rfl
        · simp only [List.length_append, List.length_cons, List.length_nil]
          omega
      · convert hready₃ using 1
        simp only [List.length_append, List.length_cons, List.length_nil]
        omega

/-- The members of a dictionary with some more members put in. -/
def insertMembers (entries members : List (Bytes × Json)) : List (Bytes × Json) :=
  members.foldl (fun entries m => insertSorted (encodeString m.1) m.2 entries) entries

/-- From behind a member a run passes over the rest of the dictionary. -/
theorem passes_members (hbelow : PassesBelow n v) {a b : ℤ} {keys : List Bytes} {k : Bytes}
    {ms : List (Bytes × Json)} (hn : rest.length ≤ n)
    (hready : Ready p pos rest .dictionaryAfterItem (⟨ps', .dictionary ms a b, keys, k⟩ :: stack)
      key) (h : Accepts p v) :
    ∃ tail rest' more ps keys' key q p', rest = tail ++ 0x7d :: rest' ∧
      Tail (Member (Value (500 - (stack.length + 1)))) pos tail more ∧
      (more.map Prod.fst).Nodup ∧ (∀ m ∈ more, m.1 ∉ keys) ∧
      Ready q (pos + tail.length + 1) rest' ps
        (⟨ps', .dictionary (insertMembers ms more) a b, keys', k⟩ :: stack) key ∧
      q.closeContainer = .ok p' ∧ Accepts p' v := by
  induction hlength : rest.length using Nat.strong_induction_on generalizing p pos rest ms keys key with
  | _ m ih =>
    subst hlength
    rcases turn_cases hready h with ⟨_, hdone, _⟩ |
      ⟨pre, core, rest₁, st, q, p₁, rfl, hpre, _, htaken, hq, hdispatch, haccepts⟩
    · cases hdone
    have hoffset : q.offset = (pos : ℤ) + pre.length + core.length := by
      rw [hq.offset]
      omega
    rcases member_token htaken hoffset hq.parseState hdispatch with ⟨rfl, rfl⟩ | ⟨rfl, hclose⟩
    · have hready₁ : Ready { q with parseState := .dictionaryAfterComma } (pos + pre.length + 1)
          rest₁ .dictionaryAfterComma (⟨ps', .dictionary ms a b, keys, k⟩ :: stack) key :=
        ⟨hq.state, hq.pos, hq.rest, rfl, hq.stack, hq.key, hq.done⟩
      simp only [List.length_append, List.length_singleton] at hn ih
      rcases passes_member hbelow (by omega) (.inr rfl) hready₁ haccepts with ⟨hps, _⟩ |
        ⟨text, rest₂, m, key₂, p₂, rfl, _, hmember, hnew, hready₂, haccepts₂⟩
      · cases hps
      rw [List.length_append] at hn ih
      obtain ⟨tail, rest', more, ps₃, keys₃, key₃, q₃, p₃, rfl, htail, hnodup, hfresh, hready₃,
        hclose, haccepts₃⟩ := ih rest₂.length (by omega) (by omega) hready₂ haccepts₂ rfl
      refine ⟨pre ++ 0x2c :: (text ++ tail), rest', m :: more, ps₃, keys₃, key₃, q₃, p₃, by simp,
        .inr ⟨pre, text ++ tail, hpre, rfl, ?_⟩, ?_, ?_, ?_, hclose, haccepts₃⟩
      · apply separated_of_tail
        · intro post hpost
          simpa using hmember post hpost
        · convert htail using 1
          omega
      · rw [List.map_cons, List.nodup_cons]
        refine ⟨?_, hnodup⟩
        intro hin
        obtain ⟨m', hm', heq⟩ := List.mem_map.mp hin
        exact hfresh m' hm' (heq ▸ List.mem_cons_self)
      · intro m' hm'
        rcases List.mem_cons.mp hm' with rfl | hm'
        · exact hnew
        · intro hold
          exact hfresh m' hm' (List.mem_cons_of_mem _ hold)
      · convert hready₃ using 1
        · simp only [List.length_append, List.length_cons]
          omega
        · rfl
    · exact ⟨pre, rest₁, [], _, keys, key, q, p₁, rfl, .inl ⟨hpre, rfl⟩, List.nodup_nil, by simp,
        hq, hclose, haccepts⟩

/-! ## Values -/

/-- The array on the top of the stack is closed. -/
theorem passes_array (hbelow : PassesBelow n v) {a b : ℤ} (hn : rest.length < n)
    (hopens : Opens ps key stack ps' stack₁) (hlength : stack.length < 500)
    (hpos : (pos : ℤ) = a + 1)
    (hready : Ready p pos rest .arrayBegin (⟨ps', .array [] a b, [], key⟩ :: stack₁) key)
    (h : Accepts p v) :
    ∃ core rest' w stack' key' p', rest = core ++ rest' ∧
      Value (500 - stack.length) a (0x5b :: core) w ∧ Attaches ps' key stack₁ w stack' ∧
      Ready p' (pos + core.length) rest' ps' stack' key' ∧ Accepts p' v := by
  obtain ⟨depth, hdepth⟩ : ∃ depth, 500 - stack.length = depth + 1 := ⟨499 - stack.length, by omega⟩
  have hstack : 500 - (⟨ps', .array [] a b, [], key⟩ :: stack₁).length = depth := by
    rw [List.length_cons, hopens.length_eq]
    omega
  have hinner : 500 - (stack₁.length + 1) = depth := hstack
  rw [hdepth]
  rcases hbelow _ _ _ _ _ _ hn hready (.item (.inl rfl)) h with
    ⟨_, pre, rest', ps₂, key₂, q, p₂, rfl, hpre, hq, hclose, haccepts⟩ |
    ⟨pre, core, rest₂, w, _, _, _, key₂, p₂, rfl, hpre, hvalue, hopens₂, hattaches₂, hready₂,
      haccepts₂⟩
  · obtain ⟨stack', hattaches, hclosed⟩ :=
      closeContainer_of_opens (q := q) rfl hq.stack hopens
    rw [hclosed] at hclose
    obtain rfl := Except.ok.inj hclose
    refine ⟨pre ++ [0x5d], rest', _, stack', key₂, _, by simp, ?_, hattaches,
      (hq.update ps' stack').of_pos ?_, haccepts⟩
    · have hoffset : q.offset = a + pre.length + 2 := by
        rw [hq.offset]
        omega
      rw [hoffset]
      exact .inr (.emptyArray hpre)
    · rw [List.length_append, List.length_singleton, ← Nat.add_assoc]
  · rw [hstack] at hvalue
    cases hopens₂ with
    | item _ =>
      cases hattaches₂ with
      | item =>
        obtain ⟨tail, rest', more, ps₃, key₃, q, p₃, rfl, htail, hq, hclose, haccepts⟩ :=
          passes_items hbelow (by simp only [List.length_append] at hn; omega) hready₂ haccepts₂
        rw [hinner] at htail
        obtain ⟨stack', hattaches, hclosed⟩ :=
          closeContainer_of_opens (q := q) rfl hq.stack hopens
        rw [hclosed] at hclose
        obtain rfl := Except.ok.inj hclose
        refine ⟨pre ++ core ++ tail ++ [0x5d], rest', _, stack', key₃, _, by simp, ?_, hattaches,
          (hq.update ps' stack').of_pos ?_, haccepts⟩
        · have hoffset : q.offset = a + (pre ++ core ++ tail).length + 2 := by
            rw [hq.offset]
            simp only [List.length_append]
            omega
          rw [hoffset]
          refine .inr (.array (separated_of_tail ?_ ?_))
          · intro post hpost
            refine ⟨pre, core, post, hpre, hpost, ?_, List.append_assoc _ _ _⟩
            rwa [← hpos]
          · have ho : ((pos + pre.length + core.length : ℕ) : ℤ) = a + 1 + (pre ++ core).length := by
              rw [List.length_append]
              omega
            rw [ho] at htail
            exact htail
        · simp only [List.length_append, List.length_singleton]
          omega

/-- The dictionary on the top of the stack is closed. -/
theorem passes_dictionary (hbelow : PassesBelow n v) {a b : ℤ} {dictKey : Bytes}
    (hn : rest.length < n) (hopens : Opens ps key stack ps' stack₁) (hlength : stack.length < 500)
    (hpos : (pos : ℤ) = a + 1)
    (hready : Ready p pos rest .dictionaryBegin (⟨ps', .dictionary [] a b, [], key⟩ :: stack₁)
      dictKey) (h : Accepts p v) :
    ∃ core rest' w stack' key' p', rest = core ++ rest' ∧
      Value (500 - stack.length) a (0x7b :: core) w ∧ Attaches ps' key stack₁ w stack' ∧
      Ready p' (pos + core.length) rest' ps' stack' key' ∧ Accepts p' v := by
  obtain ⟨depth, hdepth⟩ : ∃ depth, 500 - stack.length = depth + 1 := ⟨499 - stack.length, by omega⟩
  have hinner : 500 - (stack₁.length + 1) = depth := by
    rw [hopens.length_eq]
    omega
  rw [hdepth]
  rcases passes_member hbelow (by omega) (.inl rfl) hready h with
    ⟨_, pre, rest', ps₂, key₂, q, p₂, rfl, hpre, hq, hclose, haccepts⟩ |
    ⟨text, rest₂, m, key₂, p₂, rfl, _, hmember, _, hready₂, haccepts₂⟩
  · obtain ⟨stack', hattaches, hclosed⟩ :=
      closeContainer_of_opens (q := q) rfl hq.stack hopens
    rw [hclosed] at hclose
    obtain rfl := Except.ok.inj hclose
    refine ⟨pre ++ [0x7d], rest', _, stack', key₂, _, by simp, ?_, hattaches,
      (hq.update ps' stack').of_pos ?_, haccepts⟩
    · have hoffset : q.offset = a + pre.length + 2 := by
        rw [hq.offset]
        omega
      rw [hoffset]
      exact .inr (.emptyDictionary hpre)
    · rw [List.length_append, List.length_singleton, ← Nat.add_assoc]
  · obtain ⟨tail, rest', more, ps₃, keys₃, key₃, q, p₃, rfl, htail, hnodup, hfresh, hq, hclose,
      haccepts⟩ :=
      passes_members hbelow (by simp only [List.length_append] at hn; omega) hready₂ haccepts₂
    rw [hinner] at htail hmember
    obtain ⟨stack', hattaches, hclosed⟩ :=
      closeContainer_of_opens (q := q) rfl hq.stack hopens
    rw [hclosed] at hclose
    obtain rfl := Except.ok.inj hclose
    refine ⟨text ++ tail ++ [0x7d], rest', _, stack', key₃, _, by simp, ?_, hattaches,
      (hq.update ps' stack').of_pos ?_, haccepts⟩
    · have hoffset : q.offset = a + (text ++ tail).length + 2 := by
        rw [hq.offset, List.length_append]
        omega
      rw [hoffset]
      have ho : ((pos + text.length : ℕ) : ℤ) = a + 1 + text.length := by
        omega
      rw [ho] at htail
      rw [hpos] at hmember
      have hkeys : ((m :: more).map Prod.fst).Nodup := by
        rw [List.map_cons, List.nodup_cons]
        refine ⟨?_, hnodup⟩
        intro hin
        obtain ⟨m', hm', heq⟩ := List.mem_map.mp hin
        exact hfresh m' hm' (heq ▸ List.mem_cons_self)
      have hcontainer := Container.dictionary (separated_of_tail hmember htail) hkeys
      exact .inr hcontainer
    · simp only [List.length_append, List.length_singleton]
      omega

/-- Where a value is expected a run passes over one. -/
theorem passes_value (hbelow : PassesBelow n v) (hn : rest.length ≤ n)
    (hready : Ready p pos rest ps stack key) (hfits : Fits ps stack) (h : Accepts p v) :
    ps = .arrayBegin ∧ Closes 0x5d pos rest stack v ∨ PassesValue pos rest ps stack key v := by
  rcases turn_cases hready h with ⟨_, rfl, _⟩ |
    ⟨pre, core, rest₁, st, q, p₁, rfl, hpre, _, htaken, hq, hdispatch, haccepts⟩
  · cases hfits with
    | item hps => rcases hps with hps | hps <;> cases hps
  have hoffset : q.offset = (pos : ℤ) + pre.length + core.length := by
    rw [hq.offset]
    omega
  have hfits' : Fits q.parseState q.stack := by
    rwa [hq.parseState, hq.stack]
  rcases value_token hfits' htaken hoffset hdispatch with ⟨hbegin, rfl, hclose⟩ | ⟨w, hbegins, hplace⟩
  · left
    rw [hq.parseState] at hbegin
    exact ⟨hbegin, pre, rest₁, _, key, q, p₁, rfl, hpre, hq, hclose, haccepts⟩
  right
  obtain ⟨ps₁, stack₁, hopens, hdepth⟩ := opens_of_placeValue hfits' hplace
  rcases hbegins with hscalar | ⟨rfl, rfl⟩ | ⟨rfl, rfl⟩
  · obtain ⟨stack', hattaches, hplaced⟩ := placeValue_scalar (scalar_isScalar hscalar) hopens
    rw [hplaced] at hplace
    obtain rfl := Except.ok.inj hplace
    rw [hq.parseState, hq.key, hq.stack] at hopens
    rw [hq.key] at hattaches
    exact ⟨pre, core, rest₁, w, ps₁, stack₁, stack', key, _, rfl, hpre, value_of_scalar hscalar,
      hopens, hattaches, hq.update ps₁ stack', haccepts⟩
  · have hlength := hdepth rfl
    rw [placeValue_container rfl hopens hlength] at hplace
    obtain rfl := Except.ok.inj hplace
    rw [hq.parseState, hq.key, hq.stack] at hopens
    rw [hq.stack] at hlength
    have hready₁ := hq.update .arrayBegin
      (⟨ps₁, .array [] (pos + pre.length) (pos + pre.length + 1), [], q.dictKey⟩ :: stack₁)
    rw [hq.key] at hready₁ haccepts
    obtain ⟨core, rest', w, stack', key', p', rfl, hvalue, hattaches, hready', haccepts'⟩ :=
      passes_array hbelow (by simp only [List.length_append, List.length_singleton] at hn; omega)
        hopens hlength (by simp) hready₁ haccepts
    exact ⟨pre, 0x5b :: core, rest', w, ps₁, stack₁, stack', key', p', rfl, hpre, hvalue, hopens,
      hattaches, hready'.of_pos (by simp only [List.length_cons, List.length_nil]; omega), haccepts'⟩
  · have hlength := hdepth rfl
    rw [placeValue_container rfl hopens hlength] at hplace
    obtain rfl := Except.ok.inj hplace
    rw [hq.parseState, hq.key, hq.stack] at hopens
    rw [hq.stack] at hlength
    have hready₁ := hq.update .dictionaryBegin
      (⟨ps₁, .dictionary [] (pos + pre.length) (pos + pre.length + 1), [], q.dictKey⟩ :: stack₁)
    rw [hq.key] at hready₁ haccepts
    obtain ⟨core, rest', w, stack', key', p', rfl, hvalue, hattaches, hready', haccepts'⟩ :=
      passes_dictionary hbelow
        (by simp only [List.length_append, List.length_singleton] at hn; omega)
        hopens hlength (by simp) hready₁ haccepts
    exact ⟨pre, 0x7b :: core, rest', w, ps₁, stack₁, stack', key', p', rfl, hpre, hvalue, hopens,
      hattaches, hready'.of_pos (by simp only [List.length_cons, List.length_nil]; omega), haccepts'⟩

theorem passesBelow (n : ℕ) (v : Json) : PassesBelow n v := by
  induction n with
  | zero =>
    intro p pos rest ps stack key hn
    omega
  | succ n ih =>
    intro p pos rest ps stack key hn hready hfits h
    exact passes_value ih (by omega) hready hfits h

/-- An accepting run of the parser reads a document. -/
theorem document_of_accepts {input : Bytes} (h : Accepts { rest := input } v) :
    Document input v := by
  have hready : Ready { rest := input } 0 input .top [] [] :=
    ⟨rfl, rfl, rfl, rfl, rfl, rfl, by simp⟩
  rcases passesBelow (input.length + 1) v _ _ _ _ _ _ (Nat.lt_succ_self _) hready .top h with
    ⟨hps, _⟩ | ⟨pre, core, post, w, _, _, _, key, p, rfl, hpre, hvalue, hopens, hattaches, hready',
      haccepts⟩
  · cases hps
  cases hopens with
  | top =>
    cases hattaches with
    | top =>
      rcases turn_cases hready' haccepts with ⟨hpost, _, entry, stack', hentry, rfl⟩ |
        ⟨_, _, _, _, _, _, _, _, hps, _⟩
      · cases hentry
        exact ⟨pre, core, post, hpre, hpost, hvalue, rfl⟩
      · exact absurd rfl hps

end Parser

end Flpdf.Json
