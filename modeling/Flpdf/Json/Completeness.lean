import Flpdf.Json.Soundness

/-!
# What the JSON parser has to accept

Along a derivation of the grammar the parser takes token after token: over the
text of a value to the state behind it, and over the text of a container to the
delimiter that closes it.
-/

namespace Flpdf.Json.Parser

variable {p p' q q' : Parser} {pos n depth : ℕ} {o : ℤ} {rest rest' core pre post key : Bytes}
  {ps ps' : ParseState} {st : LexState} {stack stack' stack₁ : List StackEntry} {v w : Json}

/-! ## Single tokens -/

theorem breaks_of_blank (h : Blank post) : Breaks post := by
  rintro b rest rfl
  exact .inl (h b List.mem_cons_self)

theorem breaks_of_delimiter {c : UInt8} (h : Blank post) (hc : (Lexer.delimiter c).isSome = true) :
    Breaks (post ++ c :: rest) := by
  intro b rest' heq
  cases post with
  | nil =>
    cases heq
    exact .inr hc
  | cons b' post =>
    cases heq
    exact .inl (h _ List.mem_cons_self)

/-- A delimiter is taken by one turn. -/
theorem take_delimiter {c : UInt8} (hready : Ready p pos (pre ++ c :: rest) ps stack key)
    (hpre : Blank pre) (hps : ps ≠ .done) (hc : Lexer.delimiter c = some st) :
    ∃ q, Taken q (pos + pre.length) [c] st ∧ Ready q (pos + pre.length + 1) rest ps stack key ∧
      ∀ p' v, q.dispatch st = .ok p' → Accepts p' v → Accepts p v := by
  have hopen : isOpenEnded st = true → Breaks rest := by
    intro hopen
    unfold Lexer.delimiter at hc
    split_ifs at hc <;> obtain rfl := Option.some.inj hc <;> cases hopen
  have hready' : Ready p pos (pre ++ ([c] ++ rest)) ps stack key := hready
  obtain ⟨q, htaken, _, hq, hnext⟩ :=
    turn_of_text hready' hpre hps (.delimiter hc) hopen
  exact ⟨q, htaken, hq, hnext⟩

/-- The text of a scalar is a token text, and its token is placed. -/
theorem take_scalar (hready : Ready p pos (pre ++ (core ++ rest)) ps stack key) (hpre : Blank pre)
    (hscalar : Scalar (pos + pre.length) core w) (hopens : Opens ps key stack ps' stack₁)
    (hbreaks : Breaks rest) :
    ∃ q, Ready q (pos + pre.length + core.length) rest ps stack key ∧
      ∀ p' v, q.placeValue w = .ok p' → Accepts p' v → Accepts p v := by
  have hps := hopens.ne_done
  have hkey : ¬(ps = .dictionaryBegin ∨ ps = .dictionaryAfterComma) := by
    rintro (rfl | rfl)
    · cases hopens with
      | item hps => rcases hps with hps | hps <;> cases hps
    · cases hopens with
      | item hps => rcases hps with hps | hps <;> cases hps
  generalize ho : ((pos : ℤ) + pre.length) = o at hscalar
  have hoffset : ∀ q : Parser, Ready q (pos + pre.length + core.length) rest ps stack key →
      q.offset = o + core.length := by
    intro q hq
    rw [hq.offset]
    omega
  cases hscalar with
  | null =>
    obtain ⟨q, htaken, htoken, hq, hnext⟩ := turn_of_text hready hpre hps
      (.keyword (by decide) (List.all_eq_true.mp rfl)) (fun _ => hbreaks)
    refine ⟨q, hq, fun p' v hplace => hnext p' v ?_⟩
    rw [dispatch, handleKeyword, htoken, if_neg (by decide), if_neg (by decide), if_pos rfl,
      htaken.start rfl, hoffset q hq, ho]
    exact hplace
  | «true» =>
    obtain ⟨q, htaken, htoken, hq, hnext⟩ := turn_of_text hready hpre hps
      (.keyword (by decide) (List.all_eq_true.mp rfl)) (fun _ => hbreaks)
    refine ⟨q, hq, fun p' v hplace => hnext p' v ?_⟩
    rw [dispatch, handleKeyword, htoken, if_pos rfl, htaken.start rfl, hoffset q hq, ho]
    exact hplace
  | «false» =>
    obtain ⟨q, htaken, htoken, hq, hnext⟩ := turn_of_text hready hpre hps
      (.keyword (by decide) (List.all_eq_true.mp rfl)) (fun _ => hbreaks)
    refine ⟨q, hq, fun p' v hplace => hnext p' v ?_⟩
    rw [dispatch, handleKeyword, htoken, if_neg (by decide), if_pos rfl, htaken.start rfl,
      hoffset q hq, ho]
    exact hplace
  | number hnumber =>
    obtain ⟨q, htaken, htoken, hq, hnext⟩ := turn_of_text hready hpre hps
      (.number hnumber) (fun _ => hbreaks)
    refine ⟨q, hq, fun p' v hplace => hnext p' v ?_⟩
    rw [dispatch, htoken, htaken.start rfl, hoffset q hq, ho]
    exact hplace
  | @string body s htext =>
    rw [← ho] at htext
    obtain ⟨q, htaken, htoken, hq, hnext⟩ := turn_of_text hready hpre hps
      (.string htext) (fun _ => hbreaks)
    refine ⟨q, hq, fun p' v hplace => hnext p' v ?_⟩
    have hlength : o + ((0x22 :: (body ++ [0x22]) : Bytes).length : ℤ) = o + body.length + 2 := by
      simp only [List.length_cons, List.length_append, List.length_nil]
      omega
    rw [dispatch, handleString, hq.parseState, if_neg hkey, htoken, htaken.start rfl,
      hoffset q hq, ho, hlength]
    exact hplace

theorem take_scalar_value (hscalar : Scalar o core w)
    (hready : Ready p pos (pre ++ (core ++ rest)) ps stack key) (hpre : Blank pre)
    (ho : o = pos + pre.length) (hopens : Opens ps key stack ps' stack₁) (hbreaks : Breaks rest) :
    ∃ p' stack' key', Attaches ps' key stack₁ w stack' ∧
      Ready p' (pos + pre.length + core.length) rest ps' stack' key' ∧
      ∀ v, Accepts p' v → Accepts p v := by
  rw [ho] at hscalar
  obtain ⟨q, hq, hnext⟩ := take_scalar hready hpre hscalar hopens hbreaks
  have hopens' : Opens q.parseState q.dictKey q.stack ps' stack₁ := by
    rwa [hq.parseState, hq.key, hq.stack]
  obtain ⟨stack', hattaches, hplace⟩ := placeValue_scalar (scalar_isScalar hscalar) hopens'
  rw [hq.key] at hattaches
  exact ⟨_, stack', key, hattaches, hq.update ps' stack', fun v => hnext _ v hplace⟩

/-! ## Containers -/

/-- The parser takes every value of some depth. -/
def TakesValues (depth : ℕ) : Prop :=
  ∀ (o : ℤ) (core : Bytes) (w : Json), Value depth o core w →
    ∀ (p : Parser) (pos : ℕ) (pre rest : Bytes) (ps : ParseState) (stack : List StackEntry)
      (key : Bytes) (ps' : ParseState) (stack₁ : List StackEntry),
      Ready p pos (pre ++ (core ++ rest)) ps stack key → Blank pre → o = pos + pre.length →
      Opens ps key stack ps' stack₁ → stack.length + depth ≤ 500 → Breaks rest →
      ∃ p' stack' key', Attaches ps' key stack₁ w stack' ∧
        Ready p' (pos + pre.length + core.length) rest ps' stack' key' ∧
        ∀ v, Accepts p' v → Accepts p v

/-- The items of an array are taken, and then its closing bracket. -/
theorem take_items (hvalues : TakesValues depth) {body : Bytes} {items : List Json}
    (h : Separated (Padded (Value depth)) o body items) {a b : ℤ} {keys : List Bytes} {k : Bytes}
    {before : List Json} (ho : o = pos)
    (hready : Ready p pos (body ++ 0x5d :: rest) ps (⟨ps', .array before a b, keys, k⟩ :: stack)
      key) (hps : ps = .arrayBegin ∨ ps = .arrayAfterComma) (hdepth : stack.length + 1 + depth ≤ 500) :
    ∃ q key', Ready q (pos + body.length + 1) rest .arrayAfterItem
        (⟨ps', .array (before ++ items) a b, keys, k⟩ :: stack) key' ∧
      ∀ p' v, q.closeContainer = .ok p' → Accepts p' v → Accepts p v := by
  induction h generalizing p pos ps before key with
  | @last o text w hitem =>
    obtain ⟨pre, core, post, hpre, hpost, hvalue, rfl⟩ := hitem
    rw [List.append_assoc, List.append_assoc] at hready
    obtain ⟨p₁, stack', key₁, hattaches, hready₁, hnext₁⟩ := hvalues _ _ _ hvalue _ _ _ _ _ _ _ _ _
      hready hpre (by rw [ho]) (.item hps) hdepth (breaks_of_delimiter hpost rfl)
    cases hattaches
    obtain ⟨q, _, hq, hnext⟩ := take_delimiter hready₁ hpost (by decide) rfl
    refine ⟨q, key₁, hq.of_pos ?_, ?_⟩
    · simp only [List.length_append]
      omega
    · intro p' v hclose haccepts
      apply hnext₁
      apply hnext p' v _ haccepts
      rw [dispatch, handleEndArray, hq.parseState, if_pos (.inr rfl), hclose]
  | @cons o text rest₁ w items hitem _ ih =>
    obtain ⟨pre, core, post, hpre, hpost, hvalue, rfl⟩ := hitem
    rw [List.append_assoc, List.append_assoc, List.append_assoc] at hready
    obtain ⟨p₁, stack', key₁, hattaches, hready₁, hnext₁⟩ := hvalues _ _ _ hvalue _ _ _ _ _ _ _ _ _
      hready hpre (by rw [ho]) (.item hps) hdepth (breaks_of_delimiter hpost rfl)
    cases hattaches
    obtain ⟨q, _, hq, hnext⟩ := take_delimiter hready₁ hpost (by decide) rfl
    obtain ⟨q₂, key₂, hq₂, hnext₂⟩ := ih
      (by simp only [List.length_append]; omega)
      (hq.update .arrayAfterComma (⟨ps', .array (before ++ [w]) a b, keys, k⟩ :: stack)) (.inr rfl)
    refine ⟨q₂, key₂, ?_, ?_⟩
    · rw [List.append_assoc, List.singleton_append] at hq₂
      apply hq₂.of_pos
      simp only [List.length_append, List.length_cons]
      omega
    · intro p' v hclose haccepts
      apply hnext₁
      refine hnext _ v ?_ (hnext₂ p' v hclose haccepts)
      rw [dispatch, handleComma, hq.parseState]
      dsimp only
      rw [hq.stack]

/-- A member is taken up to the whitespace behind its value. -/
theorem take_member (hvalues : TakesValues depth) {text : Bytes} {m : Bytes × Json} {c : UInt8}
    (h : Member (Value depth) o text m) {a b : ℤ} {keys : List Bytes} {k : Bytes}
    {ms : List (Bytes × Json)} (ho : o = pos)
    (hready : Ready p pos (text ++ c :: rest) ps (⟨ps', .dictionary ms a b, keys, k⟩ :: stack) key)
    (hps : ps = .dictionaryBegin ∨ ps = .dictionaryAfterComma) (hnew : m.1 ∉ keys)
    (hc : (Lexer.delimiter c).isSome = true) (hdepth : stack.length + 1 + depth ≤ 500) :
    ∃ post p' pos' key', Blank post ∧ pos' + post.length = pos + text.length ∧
      Ready p' pos' (post ++ c :: rest) .dictionaryAfterItem
        (⟨ps', .dictionary (insertSorted (encodeString m.1) m.2 ms) a b, m.1 :: keys, k⟩ :: stack)
        key' ∧ ∀ v, Accepts p' v → Accepts p v := by
  obtain ⟨pre, keyText, mid, _, hpre, hkey, hmid, ⟨pre₂, core, post, hpre₂, hpost, hvalue, rfl⟩,
    rfl⟩ := h
  have hdone : ps ≠ .done := by
    rcases hps with rfl | rfl <;> decide
  -- The key.
  have hready₀ : Ready p pos (pre ++ ((0x22 :: (keyText ++ [0x22])) ++
      (mid ++ 0x3a :: (pre₂ ++ (core ++ (post ++ c :: rest)))))) ps
      (⟨ps', .dictionary ms a b, keys, k⟩ :: stack) key := by
    convert hready using 1
    simp
  rw [ho] at hkey
  obtain ⟨q, htaken, htoken, hq, hnext⟩ := turn_of_text hready₀ hpre hdone
    (.string hkey) (by intro h; cases h)
  have hready₁ : Ready { q with
        dictKey := q.lexer.token
        dictKeyOffset := q.lexer.tokenStart
        parseState := .dictionaryAfterKey }
      (pos + pre.length + (0x22 :: (keyText ++ [0x22])).length)
      (mid ++ 0x3a :: (pre₂ ++ (core ++ (post ++ c :: rest)))) .dictionaryAfterKey
      (⟨ps', .dictionary ms a b, keys, k⟩ :: stack) m.1 :=
    ⟨hq.state, hq.pos, hq.rest, rfl, hq.stack, htoken, hq.done⟩
  -- The colon.
  obtain ⟨q₂, _, hq₂, hnext₂⟩ := take_delimiter hready₁ hmid (by decide) rfl
  -- The value.
  obtain ⟨p₃, stack', key₃, hattaches, hready₃, hnext₃⟩ := hvalues _ _ _ hvalue _ _ _ _ _ _ _ _ _
    (hq₂.update .dictionaryAfterColon (⟨ps', .dictionary ms a b, keys, k⟩ :: stack)) hpre₂
    (by simp only [List.length_append, List.length_cons, List.length_nil]; omega)
    (.member hnew) hdepth (breaks_of_delimiter hpost hc)
  cases hattaches
  refine ⟨post, p₃, _, key₃, hpost, ?_, hready₃, ?_⟩
  · simp only [List.length_append, List.length_cons, List.length_nil]
    omega
  · intro v haccepts
    refine hnext _ v ?_ (hnext₂ _ v ?_ (hnext₃ v haccepts))
    · rw [dispatch, handleString, hq.parseState, if_pos hps]
    · rw [dispatch, handleColon, hq₂.parseState, if_pos rfl, hq₂.stack]

/-- The members of a dictionary are taken, and then its closing brace. -/
theorem take_members (hvalues : TakesValues depth) {body : Bytes} {members : List (Bytes × Json)}
    (h : Separated (Member (Value depth)) o body members) {a b : ℤ} {keys : List Bytes} {k : Bytes}
    {before : List (Bytes × Json)} (ho : o = pos)
    (hready : Ready p pos (body ++ 0x7d :: rest) ps
      (⟨ps', .dictionary before a b, keys, k⟩ :: stack) key)
    (hps : ps = .dictionaryBegin ∨ ps = .dictionaryAfterComma)
    (hnodup : (members.map Prod.fst).Nodup) (hfresh : ∀ m ∈ members, m.1 ∉ keys)
    (hdepth : stack.length + 1 + depth ≤ 500) :
    ∃ q keys' key', Ready q (pos + body.length + 1) rest .dictionaryAfterItem
        (⟨ps', .dictionary (insertMembers before members) a b, keys', k⟩ :: stack) key' ∧
      ∀ p' v, q.closeContainer = .ok p' → Accepts p' v → Accepts p v := by
  induction h generalizing p pos ps before keys key with
  | @last o text m hmember =>
    obtain ⟨post, p₁, pos₁, key₁, hpost, hpos₁, hready₁, hnext₁⟩ := take_member hvalues hmember ho
      hready hps (hfresh m List.mem_cons_self) rfl hdepth
    obtain ⟨q, _, hq, hnext⟩ := take_delimiter hready₁ hpost (by decide) rfl
    refine ⟨q, _, key₁, hq.of_pos (by omega), ?_⟩
    intro p' v hclose haccepts
    apply hnext₁
    apply hnext p' v _ haccepts
    rw [dispatch, handleEndDictionary, hq.parseState, if_pos (.inr rfl), hclose]
  | @cons o text rest₁ m members hmember _ ih =>
    rw [List.append_assoc] at hready
    obtain ⟨post, p₁, pos₁, key₁, hpost, hpos₁, hready₁, hnext₁⟩ := take_member hvalues hmember ho
      hready hps (hfresh m List.mem_cons_self) rfl hdepth
    obtain ⟨q, _, hq, hnext⟩ := take_delimiter hready₁ hpost (by decide) rfl
    rw [List.map_cons, List.nodup_cons] at hnodup
    have hfresh₂ : ∀ m' ∈ members, m'.1 ∉ m.1 :: keys := by
      intro m' hm' hin
      rcases List.mem_cons.mp hin with heq | hold
      · exact hnodup.1 (heq ▸ List.mem_map_of_mem hm')
      · exact hfresh m' (List.mem_cons_of_mem _ hm') hold
    obtain ⟨q₂, keys₂, key₂, hq₂, hnext₂⟩ := ih (by omega)
      (hq.update .dictionaryAfterComma
        (⟨ps', .dictionary (insertSorted (encodeString m.1) m.2 before) a b, m.1 :: keys, k⟩ ::
          stack))
      (.inr rfl) hnodup.2 hfresh₂
    refine ⟨q₂, keys₂, key₂, hq₂.of_pos ?_, ?_⟩
    · simp only [List.length_append, List.length_cons]
      omega
    · intro p' v hclose haccepts
      apply hnext₁
      refine hnext _ v ?_ (hnext₂ p' v hclose haccepts)
      rw [dispatch, handleComma, hq.parseState]
      dsimp only
      rw [hq.stack]

/-! ## Values -/

/-- An opening delimiter pushes its container. -/
theorem take_open {c : UInt8} (w : Json) (begin : ParseState)
    (hready : Ready p pos (pre ++ c :: rest) ps stack key) (hpre : Blank pre)
    (hopens : Opens ps key stack ps' stack₁) (hlength : stack.length < 500)
    (hc : Lexer.delimiter c = some st) (hrecords : recordsStart st = true)
    (hdispatch : ∀ q : Parser, q.lexer.tokenStart = pos + pre.length →
      q.offset = pos + pre.length + 1 → q.dispatch st = q.placeValue w)
    (hw : (w.isDictionary || w.isArray) = true)
    (hbegin : begin = if w.isDictionary then .dictionaryBegin else .arrayBegin) :
    ∃ q, Ready q (pos + pre.length + 1) rest begin (⟨ps', w, [], key⟩ :: stack₁) key ∧
      ∀ v, Accepts q v → Accepts p v := by
  have hps := hopens.ne_done
  obtain ⟨q, htaken, hq, hnext⟩ := take_delimiter hready hpre hps hc
  refine ⟨_, hq.update begin (⟨ps', w, [], key⟩ :: stack₁), ?_⟩
  intro v haccepts
  refine hnext _ v ?_ haccepts
  have hopens' : Opens q.parseState q.dictKey q.stack ps' stack₁ := by
    rwa [hq.parseState, hq.key, hq.stack]
  rw [hdispatch q (htaken.start hrecords) (by rw [hq.offset]; omega),
    placeValue_container hw hopens' (by rwa [hq.stack]), hbegin, hq.key]

theorem take_open_array (hready : Ready p pos (pre ++ 0x5b :: rest) ps stack key)
    (hpre : Blank pre) (hopens : Opens ps key stack ps' stack₁) (hlength : stack.length < 500) :
    ∃ q, Ready q (pos + pre.length + 1) rest .arrayBegin
        (⟨ps', .array [] (pos + pre.length) (pos + pre.length + 1), [], key⟩ :: stack₁) key ∧
      ∀ v, Accepts q v → Accepts p v := by
  apply take_open (.array [] (pos + pre.length) (pos + pre.length + 1)) .arrayBegin hready hpre
    hopens hlength rfl rfl _ rfl rfl
  intro q hstart hoffset
  rw [dispatch, hstart, hoffset]

theorem take_open_dictionary (hready : Ready p pos (pre ++ 0x7b :: rest) ps stack key)
    (hpre : Blank pre) (hopens : Opens ps key stack ps' stack₁) (hlength : stack.length < 500) :
    ∃ q, Ready q (pos + pre.length + 1) rest .dictionaryBegin
        (⟨ps', .dictionary [] (pos + pre.length) (pos + pre.length + 1), [], key⟩ :: stack₁) key ∧
      ∀ v, Accepts q v → Accepts p v := by
  apply take_open (.dictionary [] (pos + pre.length) (pos + pre.length + 1)) .dictionaryBegin
    hready hpre hopens hlength rfl rfl _ rfl rfl
  intro q hstart hoffset
  rw [dispatch, hstart, hoffset]

/-- A closed container is attached where it was opened. -/
theorem take_close (stop : ℤ) {keys : List Bytes} {key' : Bytes} {ps₀ : ParseState}
    (hend : (w.setEnd stop).orNull = w.setEnd stop)
    (hq : Ready q pos rest ps (⟨ps', w, keys, key⟩ :: stack₁) key') (hstop : stop = pos)
    (hopens : Opens ps₀ key stack ps' stack₁)
    (hnext : ∀ p' v, q.closeContainer = .ok p' → Accepts p' v → Accepts p v) :
    ∃ p' stack', Attaches ps' key stack₁ (w.setEnd stop) stack' ∧
      Ready p' pos rest ps' stack' key' ∧ ∀ v, Accepts p' v → Accepts p v := by
  rw [hstop, ← hq.offset] at hend ⊢
  obtain ⟨stack', hattaches, hclosed⟩ := closeContainer_of_opens hend hq.stack hopens
  exact ⟨_, stack', hattaches, hq.update ps' stack', fun v => hnext _ v hclosed⟩

theorem take_container (hvalues : TakesValues depth) (h : Container (Value depth) o core w)
    (hready : Ready p pos (pre ++ (core ++ rest)) ps stack key) (hpre : Blank pre)
    (ho : o = pos + pre.length) (hopens : Opens ps key stack ps' stack₁)
    (hdepth : stack.length + (depth + 1) ≤ 500) :
    ∃ p' stack' key', Attaches ps' key stack₁ w stack' ∧
      Ready p' (pos + pre.length + core.length) rest ps' stack' key' ∧
      ∀ v, Accepts p' v → Accepts p v := by
  have hlength := hopens.length_eq
  cases h with
  | @emptyArray body hbody =>
    rw [List.cons_append, List.append_assoc, List.singleton_append] at hready
    obtain ⟨q, hq, hopen⟩ := take_open_array hready hpre hopens (by omega)
    obtain ⟨q₂, _, hq₂, hnext⟩ := take_delimiter hq hbody (by decide) rfl
    obtain ⟨p', stack', hattaches, hready', hclose⟩ := take_close (p := q)
      (o + body.length + 2) rfl hq₂ (by omega) hopens (by
        intro p' v hclose haccepts
        refine hnext p' v ?_ haccepts
        rw [dispatch, handleEndArray, hq₂.parseState, if_pos (.inl rfl), hclose])
    rw [← ho] at hattaches
    refine ⟨p', stack', key, hattaches, hready'.of_pos ?_, fun v h => hopen v (hclose v h)⟩
    simp only [List.length_cons, List.length_append, List.length_nil]
    omega
  | @array body items hitems =>
    rw [List.cons_append, List.append_assoc, List.singleton_append] at hready
    obtain ⟨q, hq, hopen⟩ := take_open_array hready hpre hopens (by omega)
    obtain ⟨q₂, key₂, hq₂, hnext⟩ := take_items hvalues hitems (by omega) hq (.inl rfl) (by omega)
    obtain ⟨p', stack', hattaches, hready', hclose⟩ := take_close (p := q)
      (o + body.length + 2) rfl hq₂ (by omega) hopens hnext
    rw [← ho] at hattaches
    refine ⟨p', stack', key₂, hattaches, hready'.of_pos ?_, fun v h => hopen v (hclose v h)⟩
    simp only [List.length_cons, List.length_append, List.length_nil]
    omega
  | @emptyDictionary body hbody =>
    rw [List.cons_append, List.append_assoc, List.singleton_append] at hready
    obtain ⟨q, hq, hopen⟩ := take_open_dictionary hready hpre hopens (by omega)
    obtain ⟨q₂, _, hq₂, hnext⟩ := take_delimiter hq hbody (by decide) rfl
    obtain ⟨p', stack', hattaches, hready', hclose⟩ := take_close (p := q)
      (o + body.length + 2) rfl hq₂ (by omega) hopens (by
        intro p' v hclose haccepts
        refine hnext p' v ?_ haccepts
        rw [dispatch, handleEndDictionary, hq₂.parseState, if_pos (.inl rfl), hclose])
    rw [← ho] at hattaches
    refine ⟨p', stack', key, hattaches, hready'.of_pos ?_, fun v h => hopen v (hclose v h)⟩
    simp only [List.length_cons, List.length_append, List.length_nil]
    omega
  | @dictionary body members hmembers hnodup =>
    rw [List.cons_append, List.append_assoc, List.singleton_append] at hready
    obtain ⟨q, hq, hopen⟩ := take_open_dictionary hready hpre hopens (by omega)
    obtain ⟨q₂, keys₂, key₂, hq₂, hnext⟩ := take_members hvalues hmembers (by omega) hq (.inl rfl)
      hnodup (by simp) (by omega)
    obtain ⟨p', stack', hattaches, hready', hclose⟩ := take_close (p := q)
      (o + body.length + 2) rfl hq₂ (by omega) hopens hnext
    rw [← ho] at hattaches
    refine ⟨p', stack', key₂, hattaches, hready'.of_pos ?_, fun v h => hopen v (hclose v h)⟩
    simp only [List.length_cons, List.length_append, List.length_nil]
    omega

theorem takesValues (depth : ℕ) : TakesValues depth := by
  induction depth with
  | zero =>
    intro o core w hvalue p pos pre rest ps stack key ps' stack₁ hready hpre ho hopens _ hbreaks
    exact take_scalar_value hvalue hready hpre ho hopens hbreaks
  | succ depth ih =>
    intro o core w hvalue p pos pre rest ps stack key ps' stack₁ hready hpre ho hopens hdepth hbreaks
    rcases hvalue with hscalar | hcontainer
    · exact take_scalar_value hscalar hready hpre ho hopens hbreaks
    · exact take_container ih hcontainer hready hpre ho hopens hdepth

/-- Behind the value of a document the run ends with it. -/
theorem accepts_of_blank {entry : StackEntry}
    (hready : Ready p pos rest .done (entry :: stack) key) (hrest : Blank rest) :
    Accepts p entry.item := by
  have hresult : ∀ q : Parser, q.parseState = .done → q.stack = entry :: stack →
      q.result = .ok entry.item := by
    intro q hps hstack
    rw [result, if_pos hps, hstack]
  cases hdone : p.lexer.done with
  | true => exact .of_result hdone (hresult p hready.parseState hready.stack)
  | false =>
    obtain ⟨l, htoken, hl, hldone⟩ := Lexer.getToken_of_blank hready.state hrest
    have hturn : p.turn = .ok { p with lexer := l, rest := [] } := by
      rw [turn, hready.rest, htoken]
      exact if_pos hl
    exact .of_turn hdone hturn (.of_result hldone (hresult _ hready.parseState hready.stack))

/-- A document is read by an accepting run of the parser. -/
theorem accepts_of_document {input : Bytes} (h : Document input v) :
    Accepts { rest := input } v := by
  obtain ⟨pre, core, post, hpre, hpost, hvalue, rfl⟩ := h
  have hready : Ready { rest := pre ++ (core ++ post) } 0 (pre ++ (core ++ post)) .top [] [] :=
    ⟨rfl, rfl, rfl, rfl, rfl, rfl, by simp⟩
  obtain ⟨p', stack', key', hattaches, hready', hnext⟩ := takesValues 500 _ _ _ hvalue _ _ _ _ _ _ _
    _ _ hready hpre rfl .top (by simp) (breaks_of_blank hpost)
  apply hnext
  cases hattaches
  exact accepts_of_blank hready' hpost

end Flpdf.Json.Parser
