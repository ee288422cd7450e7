import Flpdf.Effects.Program
import Flpdf.Tokenizer.Lexemes
import Flpdf.Tokenizer.Locality
import Flpdf.Tokenizer.Push

/-! # Push mode and pull mode

A tokenizer that reads its input and one whose bytes are presented go through the same states;
they differ in their place only.  So both have the same token ready, and the bytes behind it are
the same.
-/

namespace Flpdf

namespace Tokenizer

variable {t u v : Tokenizer} {b : UInt8} {rest : Bytes} {s₀ : ℕ}

/-! ## The same state at another place -/

def Alike (t u : Tokenizer) : Prop := t.place [] 0 0 false = u.place [] 0 0 false

/-- What does not look at the place is the same. -/
theorem Alike.congr {α : Type} {f : Tokenizer → α} (h : Alike t u) (hf : ∀ t, f (t.place [] 0 0 false) = f t) :
    f t = f u := by
  rw [← hf t, ← hf u]
  exact congrArg f h

theorem Alike.state (h : Alike t u) : t.state = u.state := h.congr fun _ => rfl

theorem Alike.unread (h : Alike t u) : Alike t.unread u := by
  have hsame : t.unread.place [] 0 0 false = t.place [] 0 0 false := by
    rw [Tokenizer.unread]
    split_ifs <;> rfl
  exact hsame.trans h

theorem Alike.reset (h : Alike t u) : Alike t.reset u.reset := congrArg Tokenizer.reset h

theorem place_afterCharacter : (t.afterCharacter 0 b).place [] 0 0 false =
    (if t.inToken then { t with raw := t.raw ++ [b] } else t).place [] 0 0 false := by
  by_cases hbefore : t.beforeToken = true <;> by_cases hin : t.inToken = true <;>
    simp [afterCharacter, hbefore, hin, place]

theorem Alike.presentCharacter (h : Alike t u) : Alike (t.readByte 0 b) (u.presentCharacter b) := by
  calc (t.readByte 0 b).place [] 0 0 false
      = ((t.advance 1).presentCharacter b).place [] 0 0 false := place_afterCharacter
    _ = (t.place [] 0 0 false).presentCharacter b := place_presentCharacter
    _ = (u.place [] 0 0 false).presentCharacter b := congrArg (Tokenizer.presentCharacter · b) h
    _ = (u.presentCharacter b).place [] 0 0 false := place_presentCharacter.symm

theorem readEof_of_allowEof (ha : t.allowEof = true) : t.readEof = t.presentEof := by
  have hallow : t.presentEof.allowEof = t.allowEof :=
    (congrArg allowEof (@place_presentEof t t.input t.pos t.tokenStart t.allowEof)).symm
  rw [readEof, hallow, ha]
  simp

theorem Alike.presentEof (h : Alike t u) (ha : t.allowEof = true) : Alike t.readEof u.presentEof := by
  calc t.readEof.place [] 0 0 false
      = (t.place [] 0 0 false).presentEof := by rw [readEof_of_allowEof ha, place_presentEof]
    _ = (u.place [] 0 0 false).presentEof := congrArg Tokenizer.presentEof h
    _ = u.presentEof.place [] 0 0 false := place_presentEof.symm

/-! ## The byte that is given back -/

theorem Alike.unreadByte (h : Alike t u) : t.unreadByte = u.unreadByte := h.congr fun _ => rfl

/-- A byte that a token does not take is the one that has been read last. -/
theorem charToUnread_readByte (h : Reading s₀ t) (hr : t.state ≠ .tokenReady)
    (hbefore : (t.readByte 0 b).beforeToken = false) (hin : (t.readByte 0 b).inToken = false) :
    (t.readByte 0 b).charToUnread = some b := by
  have hflags : ∀ w : Tokenizer, (w.afterCharacter 0 b).beforeToken = w.beforeToken ∧
      (w.afterCharacter 0 b).inToken = w.inToken ∧ (w.afterCharacter 0 b).charToUnread = w.charToUnread := by
    intro w
    by_cases hbefore : w.beforeToken = true <;> by_cases hin : w.inToken = true <;>
      simp [afterCharacter, hbefore, hin]
  rw [readByte, (hflags _).1] at hbefore
  rw [readByte, (hflags _).2.1] at hin
  rw [readByte, (hflags _).2.2]
  cases h with
  | skipping h =>
    rcases h.state with hs | ⟨hs, hign⟩
    · rw [Skipping.beforeToken_char hs] at hbefore hin ⊢
      rcases h.inBeforeToken_cases b (t.pos + 1) with ⟨hc, -⟩ | ⟨-, s, hu, -⟩
      · rw [hc.collects] at hin
        cases hin
      · rw [hu] at hbefore
        cases h.before.symm.trans hbefore
    · rw [Skipping.inComment_char hs hign] at hbefore
      cases h.before.symm.trans hbefore
  | collecting hc hs =>
    rcases (step_handleCharacter (b := b) (hc.withPos (t.pos + 1))).outcome with hu | hu
    · rw [hu.collects] at hin
      cases hin
    · exact hu.unread
  | ended _ _ hready => exact absurd hready hr

theorem presentEof_state : t.presentEof.state = .tokenReady := by
  unfold presentEof
  cases hs : t.state with
  | tokenReady => exact hs
  | _ => rfl

/-- Nothing is given back at the end of the input. -/
theorem presentEof_keeps (h : Reading s₀ t) (hr : t.state ≠ .tokenReady) :
    (!t.presentEof.inToken && !t.presentEof.beforeToken) = false := by
  cases h with
  | skipping h =>
    have hbefore : t.presentEof.beforeToken = true := by
      rcases h.state with hs | ⟨hs, -⟩ <;> simp [presentEof, hs, endWith, h.before]
    rw [hbefore, Bool.not_true, Bool.and_false]
  | collecting hc hs => rw [(presentEof_collecting hc hs).1, Bool.not_true, Bool.false_and]
  | ended _ _ hready => exact absurd hready hr

/-! ## One token -/

/-- What a caller in push mode meets when a token is ready. -/
structure PushedReady (rest : Bytes) (t u v : Tokenizer) (rest' : Bytes) : Prop where
  alike : Alike (readLoop 0 rest t).unread v
  ready : v.state = .tokenReady
  unread : v.unreadByte = (readLoop 0 rest t).unreadByte
  left : t.input.drop (readLoop 0 rest t).unread.pos = v.unreadByte.toList ++ rest'
  pushToken_eq : ∀ {α : Type} {get : Tokenizer → Option (α × Tokenizer)} (unread : α → Option UInt8)
    {token : α} {v' : Tokenizer}, (∀ w : Tokenizer, w.state ≠ .tokenReady → get w = none) →
    get v = some (token, v') →
    pushToken get unread rest u = .ok (some (token, (unread token).toList ++ rest', v'))

/-- The caller presents the bytes that the loop reads. -/
theorem exists_pushedReady (hr : t.state ≠ .tokenReady) (h : Reading s₀ t)
    (hrest : t.input.drop t.pos = rest) (hle : t.pos ≤ t.input.length) (ha : t.allowEof = true)
    (hu : Alike t u) : ∃ v rest', PushedReady rest t u v rest' := by
  induction rest generalizing t u with
  | nil =>
    have hloop : readLoop 0 [] t = t.presentEof := by
      rw [readLoop, if_neg hr, readEof_of_allowEof ha]
    have hpos : t.presentEof.pos = t.pos :=
      (congrArg pos (@place_presentEof t t.input t.pos t.tokenStart t.allowEof)).symm
    have hkeeps := presentEof_keeps h hr
    have halike : Alike t.presentEof u.presentEof := readEof_of_allowEof ha ▸ hu.presentEof ha
    have hnone : t.presentEof.unreadByte = none := by rw [unreadByte, hkeeps]; rfl
    have hsame : t.presentEof.unread = t.presentEof := by rw [unread, hkeeps]; rfl
    refine ⟨u.presentEof, [], ?_, presentEof_state, ?_, ?_, ?_⟩
    · rw [hloop, hsame]
      exact halike
    · rw [hloop, halike.unreadByte]
    · rw [hloop, hsame, hpos, hrest, ← halike.unreadByte, hnone]
      rfl
    · intro α get unread token v' hnot hget
      rw [pushToken, hget, List.append_nil]
  | cons b rest ih =>
    obtain ⟨hb, hdrop⟩ := drop_eq_cons_iff.mp hrest
    obtain ⟨hread, hconf⟩ := h.readByte 0 hr hb
    simp only [config, Prod.mk.injEq] at hconf
    obtain ⟨hin, hp, ha', -⟩ := hconf
    have hu' : Alike (t.readByte 0 b) (u.presentCharacter b) := hu.presentCharacter
    have hpresent : u.present b = .ok (u.presentCharacter b) := by
      rw [present, if_neg (hu.state ▸ hr)]
    by_cases hready : (t.readByte 0 b).state = .tokenReady
    · have hloop : readLoop 0 (b :: rest) t = t.readByte 0 b := by
        rw [readLoop_cons hr, readLoop_of_ready hready]
      refine ⟨u.presentCharacter b, rest, ?_, hu'.state ▸ hready, ?_, ?_, ?_⟩
      · rw [hloop]
        exact hu'.unread
      · rw [hloop, hu'.unreadByte]
      · rw [hloop, ← hu'.unreadByte]
        cases hread with
        | skipping hskip => rcases hskip.state with hs | ⟨hs, -⟩ <;> simp [hs] at hready
        | collecting hc hs =>
          have hsame : (t.readByte 0 b).unread = t.readByte 0 b := by simp [Tokenizer.unread, hc.collects]
          have hnone : (t.readByte 0 b).unreadByte = none := by simp [Tokenizer.unreadByte, hc.collects]
          rw [hsame, hnone, hp, hdrop]
          rfl
        | ended hbefore hinside _ _ hs =>
          have hback : (t.readByte 0 b).unread.pos = t.pos := by
            simp [Tokenizer.unread, hbefore, hinside, hp]
          have hsome : (t.readByte 0 b).unreadByte = some b := by
            simp [Tokenizer.unreadByte, hbefore, hinside, charToUnread_readByte h hr hbefore hinside]
          rw [hback, hsome, hrest]
          rfl
      · intro α get unread token v' hnot hget
        rw [pushToken, hpresent]
        simp only [ok_bind]
        rw [hget]
        rfl
    · have hdrop' : (t.readByte 0 b).input.drop (t.readByte 0 b).pos = rest := by rw [hin, hp, hdrop]
      have hle' : (t.readByte 0 b).pos ≤ (t.readByte 0 b).input.length := by
        rw [hin, hp]
        exact (List.getElem?_eq_some_iff.mp hb).1
      obtain ⟨v, rest', hv⟩ := ih hready hread hdrop' hle' (ha'.trans ha) hu'
      refine ⟨v, rest', ?_, hv.ready, ?_, ?_, ?_⟩
      · rw [readLoop_cons hr]
        exact hv.alike
      · rw [readLoop_cons hr]
        exact hv.unread
      · rw [readLoop_cons hr, ← hv.left, hin]
      · intro α get unread token v' hnot hget
        rw [pushToken, hpresent]
        simp only [ok_bind]
        rw [hnot _ (hu'.state ▸ hready)]
        exact hv.pushToken_eq unread hnot hget

/-! ## The sequence of tokens -/

/-- Where the next token can be read. -/
structure Between (t : Tokenizer) : Prop where
  state : t.state ≠ .inlineImage
  pos_le : t.pos ≤ t.input.length
  allowEof : t.allowEof = true

/-- The loop that reads the next token. -/
def nextLoop (t : Tokenizer) : Tokenizer := readLoop 0 (t.input.drop t.pos) t.reset

theorem lexToken_eq_nextLoop : t.lexToken 0 = t.nextLoop.unread.takeReadyToken := rfl

theorem Between.next (h : Between t) : Between t.nextLoop.unread.reset ∧
    t.nextLoop.unread.input = t.input ∧ t.nextLoop.unread.includeIgnorable = t.includeIgnorable := by
  obtain ⟨hf, ho⟩ := finished_readLoop 0 (.skipping (skipping_reset t)) rfl h.pos_le
  have ho : t.nextLoop.unread.origin = t.origin := ho
  simp only [origin, Prod.mk.injEq] at ho
  obtain ⟨hin, ha, hg⟩ := ho
  exact ⟨⟨by rintro ⟨⟩, hf.pos_le, ha.trans h.allowEof⟩, hin, hg⟩

/-- The first tokens of a tokenizer that reads its input, each with the byte it gives back. -/
def pullCalls : ℕ → Tokenizer → List (Token × Option UInt8)
  | 0, _ => []
  | count + 1, t => (t.lexToken 0, t.nextLoop.unreadByte) :: pullCalls count t.nextLoop.unread.reset

theorem Between.read (h : Between t) :
    t.readTokenWithOptions true 0 = (.ok (t.lexToken 0), t.nextLoop.unread.reset) := by
  rw [readTokenWithOptions, beginRead_eq h.state]
  simp [lexToken, nextLoop]

theorem pullTokens_eq (h : Between t) (count : ℕ) :
    pullTokens count t = .ok ((pullCalls count t).map Prod.fst) := by
  induction count generalizing t with
  | zero => rfl
  | succ count ih =>
    rw [pullTokens, h.read]
    simp only [ok_bind, ih h.next.1]
    rfl

section Sequences

variable {α : Type} {get : Tokenizer → Option (α × Tokenizer)} {unread : α → Option UInt8}
  {R : Token × Option UInt8 → α → Prop} {ignorable : Bool}

/-- In push mode each token corresponds to the one of pull mode. -/
theorem pushTokens_eq (hnot : ∀ w : Tokenizer, w.state ≠ .tokenReady → get w = none)
    (hget : ∀ {t v : Tokenizer}, t.includeIgnorable = ignorable → Alike t.nextLoop.unread v →
      v.state = .tokenReady → v.unreadByte = t.nextLoop.unreadByte →
      ∃ token, get v = some (token, v.reset) ∧ unread token = v.unreadByte ∧
        R (t.lexToken 0, t.nextLoop.unreadByte) token)
    (h : Between t) (hi : t.includeIgnorable = ignorable) (hu : Alike t.reset u) (count : ℕ) :
    ∃ tokens, pushTokens get unread count (t.input.drop t.pos) u = .ok tokens ∧
      List.Forall₂ R (pullCalls count t) tokens := by
  induction count generalizing t u with
  | zero => exact ⟨[], rfl, .nil⟩
  | succ count ih =>
    obtain ⟨v, rest', hv⟩ := exists_pushedReady (t := t.reset) nofun (.skipping (skipping_reset t)) rfl
      h.pos_le h.allowEof hu
    obtain ⟨token, htoken, hunread, hR⟩ := hget hi hv.alike hv.ready hv.unread
    obtain ⟨hnext, hin, hg⟩ := h.next
    have hleft : t.nextLoop.unread.reset.input.drop t.nextLoop.unread.reset.pos = (unread token).toList ++ rest' := by
      rw [hunread, ← hv.left]
      exact congrArg (List.drop t.nextLoop.unread.pos) hin
    obtain ⟨tokens, htokens, hrel⟩ := ih hnext (hg.trans hi) hv.alike.reset.reset
    have hreset : v.reset.reset = v.reset := rfl
    rw [hleft, hreset] at htokens
    refine ⟨token :: tokens, ?_, .cons hR hrel⟩
    rw [pushTokens]
    have hpush : pushToken get unread (t.input.drop t.pos) u = .ok (some (token, _, v.reset)) :=
      hv.pushToken_eq unread hnot htoken
    simp only [hpush, ok_bind, htokens]
    rfl

end Sequences

/-! ## Live tokens -/

/-- Without ignorable tokens the next token is none. -/
theorem lexToken_kind (hi : t.includeIgnorable = false) :
    (t.lexToken 0).tokenType ≠ .space ∧ (t.lexToken 0).tokenType ≠ .comment ∧
      (t.lexToken 0).tokenType ≠ .inlineImage := by
  by_cases hrun : regularRun t.upcoming = []
  · have hkind := lexToken_delimited hi (.inl rfl) (.inl hrun)
    refine ⟨?_, ?_, ?_⟩ <;> intro htype <;> rw [htype] at hkind <;> cases hkind
  · rw [lexToken_run hi hrun (.inl rfl), runToken]
    have hkind : ∀ s raw, runType s raw ≠ .space ∧ runType s raw ≠ .comment ∧ runType s raw ≠ .inlineImage := by
      intro s raw
      cases s <;> simp only [runType, ne_eq, reduceCtorEq, not_false_eq_true, and_self] <;>
        split_ifs <;> simp
    exact hkind _ _

theorem isIntText_of_integer (hi : t.includeIgnorable = false) (h : (t.lexToken 0).tokenType = .integer) :
    isIntText (t.lexToken 0).raw = true := by
  have hint := ((lexToken_isInteger hi (.inl rfl)).mp (by rw [Token.isInteger, h]; rfl)).1
  have hrun : regularRun t.upcoming ≠ [] := by
    intro hnil
    rw [hnil] at hint
    cases hint
  rw [lexToken_run hi hrun (.inl rfl)]
  exact hint

/-- The offset of an integer is used for an error only. -/
theorem parseIntegerBytes_offset {raw : Bytes} (h : isIntText raw = true) (offset offset' : ℕ) :
    parseIntegerBytes raw offset = parseIntegerBytes raw offset' := by
  rw [parseIntegerBytes, parseIntegerBytes, if_pos h, if_pos h]

/-- A live token reports a token and the byte that is given back. -/
structure Reports (call : Token × Option UInt8) (live : PushedLiveToken) : Prop where
  tokenType : live.tokenType = call.1.tokenType
  rawLen : live.rawLen = call.1.raw.length
  value : live.value = call.1.parsedValue
  unread : live.unread = call.2

theorem getLiveToken_reports (hi : t.includeIgnorable = false) (halike : Alike t.nextLoop.unread v)
    (hready : v.state = .tokenReady) (hunread : v.unreadByte = t.nextLoop.unreadByte) :
    ∃ live, v.getLiveToken = some (live, v.reset) ∧ live.unread = v.unreadByte ∧
      Reports (t.lexToken 0, t.nextLoop.unreadByte) live := by
  have htype : (t.lexToken 0).tokenType = v.tokenType :=
    halike.congr (f := fun t => t.takeReadyToken.tokenType) fun _ => rfl
  have hraw : (t.lexToken 0).raw = v.raw := halike.congr (f := fun t => t.takeReadyToken.raw) fun _ => rfl
  have hvalue : (t.lexToken 0).value = v.takeReadyToken.value :=
    halike.congr (f := fun t => t.takeReadyToken.value) fun _ => rfl
  obtain ⟨hspace, hcomment, himage⟩ := lexToken_kind hi
  have hint := isIntText_of_integer hi
  rw [htype] at hspace hcomment himage hint
  rw [getLiveToken, if_pos hready]
  cases hcase : v.tokenType with
  | space => exact absurd hcase hspace
  | comment => exact absurd hcase hcomment
  | inlineImage => exact absurd hcase himage
  | integer =>
    have hbytes : (t.lexToken 0).value = v.raw := by rw [hvalue, takeReadyToken, hcase]; rfl
    refine ⟨_, rfl, rfl, ⟨by rw [htype, hcase]; rfl, by rw [hraw]; rfl, ?_, hunread⟩⟩
    rw [Token.parsedValue, htype, hcase, hbytes]
    exact congrArg TokenValue.integer (parseIntegerBytes_offset (hraw ▸ hint hcase) _ _)
  | bool =>
    have hbytes : (t.lexToken 0).value = v.raw := by rw [hvalue, takeReadyToken, hcase]; rfl
    refine ⟨_, rfl, rfl, ⟨by rw [htype, hcase]; rfl, by rw [hraw]; rfl, ?_, hunread⟩⟩
    rw [Token.parsedValue, htype, hcase, hbytes]
    rfl
  | name | string =>
    have hbytes : (t.lexToken 0).value = v.value := by rw [hvalue, takeReadyToken, hcase]; rfl
    refine ⟨_, rfl, rfl, ⟨by rw [htype, hcase]; rfl, by rw [hraw]; rfl, ?_, hunread⟩⟩
    rw [Token.parsedValue, htype, hcase, hbytes]
    rfl
  | real | word =>
    have hbytes : (t.lexToken 0).value = v.raw := by rw [hvalue, takeReadyToken, hcase]; rfl
    refine ⟨_, rfl, rfl, ⟨by rw [htype, hcase]; rfl, by rw [hraw]; rfl, ?_, hunread⟩⟩
    rw [Token.parsedValue, htype, hcase, hbytes]
    rfl
  | _ =>
    refine ⟨_, rfl, rfl, ⟨by rw [htype, hcase]; rfl, by rw [hraw]; rfl, ?_, hunread⟩⟩
    rw [Token.parsedValue, htype, hcase]
    rfl

theorem getToken_content (halike : Alike t.nextLoop.unread v) (hready : v.state = .tokenReady)
    (hunread : v.unreadByte = t.nextLoop.unreadByte) :
    ∃ pushed, v.getToken = some (pushed, v.reset) ∧ pushed.unread = v.unreadByte ∧
      ((t.lexToken 0).content, t.nextLoop.unreadByte) = (pushed.token.content, pushed.unread) := by
  refine ⟨⟨v.takeReadyToken, v.unreadByte⟩, by rw [getToken, if_pos hready], rfl, ?_⟩
  rw [hunread]
  exact congrArg (·, _) (halike.congr (f := fun t => t.takeReadyToken.content) fun _ => rfl)

theorem alike_push (input : Bytes) (pullEof pushEof ignorable : Bool) :
    Alike { input, allowEof := pullEof, includeIgnorable := ignorable : Tokenizer }.reset
      { input := [], allowEof := pushEof, includeIgnorable := ignorable } := rfl

/-- A list that corresponds entry by entry has the same images. -/
theorem map_eq_of_forall₂ {α β γ : Type} {l : List α} {l' : List β} {f : α → γ} {g : β → γ}
    (h : List.Forall₂ (fun a b => f a = g b) l l') : l.map f = l'.map g := by
  induction h with
  | nil => rfl
  | cons hhead _ ih => rw [List.map_cons, List.map_cons, hhead, ih]

/-- Presenting the bytes of an input, with every byte that is given back presented again, and the end
of the input behind them, gives the tokens that are read from the input, with or without ignorable
ones; and the live tokens report these tokens. -/
theorem push_agrees_with_pull (input : Bytes) (pushEof : Bool) (count : ℕ) :
    (∀ ignorable, ∃ pulled pushed,
      pullTokens count { input, allowEof := true, includeIgnorable := ignorable } = .ok pulled ∧
      pushTokens getToken PushedToken.unread count input
        { input := [], allowEof := pushEof, includeIgnorable := ignorable } = .ok pushed ∧
      pulled.map Token.content = pushed.map fun pushed => pushed.token.content) ∧
    ∃ pulled pushed lives,
      pullTokens count { input, allowEof := true } = .ok pulled ∧
      pushTokens getToken PushedToken.unread count input { input := [], allowEof := pushEof } = .ok pushed ∧
      pushTokens getLiveToken PushedLiveToken.unread count input { input := [], allowEof := pushEof } =
        .ok lives ∧
      List.Forall₂ Reports (pulled.zip (pushed.map PushedToken.unread)) lives := by
  have hnot : ∀ w : Tokenizer, w.state ≠ .tokenReady → w.getToken = none := fun w hw => by
    rw [getToken, if_neg hw]
  have hnotLive : ∀ w : Tokenizer, w.state ≠ .tokenReady → w.getLiveToken = none := fun w hw => by
    rw [getLiveToken, if_neg hw]
  have hstart : ∀ ignorable,
      Between ({ input, allowEof := true, includeIgnorable := ignorable } : Tokenizer) :=
    fun ignorable => ⟨nofun, Nat.zero_le _, rfl⟩
  have hpush : ∀ ignorable, ∃ pushed,
      pushTokens getToken PushedToken.unread count input
        { input := [], allowEof := pushEof, includeIgnorable := ignorable } = .ok pushed ∧
      List.Forall₂ (fun call pushed => (call.1.content, call.2) = (pushed.token.content, pushed.unread))
        (pullCalls count { input, allowEof := true, includeIgnorable := ignorable }) pushed :=
    fun ignorable => pushTokens_eq hnot (fun _ halike hready hunread => getToken_content halike hready hunread)
      (hstart ignorable) rfl (alike_push input true pushEof ignorable) count
  refine ⟨fun ignorable => ?_, ?_⟩
  · obtain ⟨pushed, hpushed, hrel⟩ := hpush ignorable
    refine ⟨_, pushed, pullTokens_eq (hstart ignorable) count, hpushed, ?_⟩
    rw [List.map_map]
    exact map_eq_of_forall₂ (hrel.imp fun _ _ h => congrArg Prod.fst h)
  · obtain ⟨pushed, hpushed, hrel⟩ := hpush false
    obtain ⟨lives, hlives, hreports⟩ := pushTokens_eq hnotLive
      (fun hi halike hready hunread => getLiveToken_reports hi halike hready hunread)
      (hstart false) rfl (alike_push input true pushEof false) count
    refine ⟨_, pushed, lives, pullTokens_eq (hstart false) count, hpushed, hlives, ?_⟩
    rw [← map_eq_of_forall₂ (hrel.imp fun _ _ h => congrArg Prod.snd h), List.zip_map']
    simpa using hreports

end Tokenizer

end Flpdf
