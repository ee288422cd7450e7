import Flpdf.Tokenizer.PushPull

/-! # Tokens of a window

A tokenizer runs on the front of an input as on the whole of it, as long as bytes are left.  A
token that ends before its window does is therefore the token of the whole input.
-/

namespace Flpdf.Tokenizer

variable {o t u : Tokenizer} {b : UInt8} {l front back window : Bytes} {s₀ : ℕ}

/-! ## Another input -/

def onInput (input : Bytes) (t : Tokenizer) : Tokenizer := { t with input := input }

/-- What commutes with a change of the place commutes with one of the input. -/
theorem onInput_of_place {f : Tokenizer → Tokenizer}
    (hf : ∀ t i p s e, (f t).place i p s e = f (t.place i p s e)) (input : Bytes) :
    f (t.onInput input) = (f t).onInput input := by
  have hself : (f t).place t.input t.pos t.tokenStart t.allowEof = f t := hf _ _ _ _ _
  calc f (t.onInput input) = (f t).place input t.pos t.tokenStart t.allowEof := (hf _ _ _ _ _).symm
    _ = ((f t).place t.input t.pos t.tokenStart t.allowEof).onInput input := rfl
    _ = (f t).onInput input := by rw [hself]

theorem handleCharacter_onInput (input : Bytes) :
    (t.onInput input).handleCharacter b = (t.handleCharacter b).onInput input :=
  onInput_of_place (f := fun t => t.handleCharacter b) (fun _ _ _ _ _ => place_handleCharacter)
    input

theorem afterCharacter_onInput (input : Bytes) :
    (t.onInput input).afterCharacter 0 b = (t.afterCharacter 0 b).onInput input := by
  by_cases hbefore : t.beforeToken = true <;> by_cases hin : t.inToken = true <;>
    simp [afterCharacter, hbefore, hin, onInput]

theorem readByte_onInput (input : Bytes) :
    (t.onInput input).readByte 0 b = (t.readByte 0 b).onInput input := by
  calc (t.onInput input).readByte 0 b
      = (((t.advance 1).onInput input).handleCharacter b).afterCharacter 0 b := rfl
    _ = (((t.advance 1).handleCharacter b).afterCharacter 0 b).onInput input := by
      rw [handleCharacter_onInput, afterCharacter_onInput]
    _ = (t.readByte 0 b).onInput input := rfl

theorem unread_onInput (input : Bytes) : (t.onInput input).unread = t.unread.onInput input := by
  simp only [unread, apply_ite (onInput input)]
  rfl

/-! ## The front of an input -/

/-- The tokenizer behind the bytes of its token that are in front. -/
def consume (front : Bytes) (t : Tokenizer) : Tokenizer :=
  front.foldl (fun t b => if t.state = .tokenReady then t else t.readByte 0 b) t

theorem consume_of_ready (h : t.state = .tokenReady) (front : Bytes) : consume front t = t := by
  induction front with
  | nil => rfl
  | cons b front ih =>
    rw [consume, List.foldl_cons, if_pos h]
    exact ih

theorem consume_cons (h : t.state ≠ .tokenReady) (b : UInt8) (front : Bytes) :
    consume (b :: front) t = consume front (t.readByte 0 b) := by
  rw [consume, List.foldl_cons, if_neg h]
  rfl

theorem readLoop_append (front back : Bytes) (t : Tokenizer) :
    readLoop 0 (front ++ back) t = readLoop 0 back (consume front t) := by
  induction front generalizing t with
  | nil => rfl
  | cons b front ih =>
    by_cases hr : t.state = .tokenReady
    · rw [consume_of_ready hr, readLoop_of_ready hr, readLoop_of_ready hr]
    · rw [List.cons_append, readLoop_cons hr, ih, consume_cons hr]

theorem consume_onInput (input front : Bytes) :
    consume front (t.onInput input) = (consume front t).onInput input := by
  induction front generalizing t with
  | nil => rfl
  | cons b front ih =>
    by_cases hr : t.state = .tokenReady
    · rw [consume_of_ready hr, consume_of_ready (t := t.onInput input) hr]
    · rw [consume_cons hr, consume_cons (t := t.onInput input) hr, readByte_onInput, ih]

/-- A token read so far, with the place of the tokenizer. -/
structure Consumed (s₀ : ℕ) (front : Bytes) (t u : Tokenizer) : Prop where
  reading : Reading s₀ u
  origin : u.origin = t.origin
  pos : u.state ≠ .tokenReady → u.pos = t.pos + front.length
  pos_le : u.pos ≤ t.pos + front.length

theorem consumed (h : Reading s₀ t) (hinput : t.input.drop t.pos = front ++ back) :
    Consumed s₀ front t (consume front t) := by
  induction front generalizing t with
  | nil => exact ⟨h, rfl, fun _ => rfl, le_rfl⟩
  | cons b front ih =>
    by_cases hr : t.state = .tokenReady
    · rw [consume_of_ready hr]
      exact ⟨h, rfl, fun hnot => absurd hr hnot, Nat.le_add_right _ _⟩
    · obtain ⟨hb, hdrop⟩ := drop_eq_cons_iff.mp hinput
      obtain ⟨hread, hconf⟩ := h.readByte 0 hr hb
      simp only [config, Prod.mk.injEq] at hconf
      obtain ⟨hin, hp, ha, hi⟩ := hconf
      have hrest := ih hread (by rw [hin, hp, hdrop, List.append_eq])
      have hlength : (t.readByte 0 b).pos + front.length = t.pos + (b :: front).length := by
        rw [hp, List.length_cons, Nat.add_assoc, Nat.add_comm 1]
      rw [consume_cons hr]
      refine ⟨hrest.reading, ?_, ?_, ?_⟩
      · rw [hrest.origin, origin, origin, hin, ha, hi]
      · intro hnot
        rw [hrest.pos hnot, hlength]
      · rw [← hlength]
        exact hrest.pos_le

/-! ## A token in front of the end of its window -/

theorem unread_presentEof (h : Reading s₀ t) (hr : t.state ≠ .tokenReady) :
    t.presentEof.unread = t.presentEof := by
  rw [unread, presentEof_keeps h hr]
  rfl

theorem pos_presentEof : t.presentEof.pos = t.pos :=
  (congrArg pos (@place_presentEof t t.input t.pos t.tokenStart t.allowEof)).symm

/-- Without a complete token the whole window is read. -/
theorem pos_nextLoop_of_not_ready (h : Between o)
    (hr : (consume (o.input.drop o.pos) o.reset).state ≠ .tokenReady) :
    o.nextLoop.unread.pos = o.input.length := by
  have hsplit : o.input.drop o.pos = o.input.drop o.pos ++ [] := (List.append_nil _).symm
  have hu := consumed (.skipping (skipping_reset o)) (t := o.reset) hsplit
  have hloop : o.nextLoop = readLoop 0 [] (consume (o.input.drop o.pos) o.reset) := by
    rw [← readLoop_append, List.append_nil, nextLoop]
  have hallow : (consume (o.input.drop o.pos) o.reset).allowEof = true :=
    (congrArg (fun c => c.2.1) hu.origin).trans h.allowEof
  have hpos := hu.pos hr
  have hstart : o.reset.pos = o.pos := rfl
  have hle := h.pos_le
  rw [hloop, readLoop, if_neg hr, readEof_of_allowEof hallow, unread_presentEof hu.reading hr,
    pos_presentEof, hpos, hstart, List.length_drop]
  omega

/-- A token that ends in front of the end of its window is the token of the whole input. -/
theorem nextLoop_of_window (h : Between (o.onInput window)) (hinput : o.input = window ++ back)
    (hend : (o.onInput window).nextLoop.unread.pos < window.length) :
    (o.onInput window).nextLoop = o.nextLoop.onInput window := by
  have hle : o.pos ≤ window.length := h.pos_le
  have hready : (consume (window.drop o.pos) (o.onInput window).reset).state = .tokenReady := by
    by_contra hr
    have hpos := pos_nextLoop_of_not_ready h hr
    change _ = window.length at hpos
    omega
  have hconsume : consume (window.drop o.pos) (o.onInput window).reset =
      (consume (window.drop o.pos) o.reset).onInput window :=
    consume_onInput (t := o.reset) window (window.drop o.pos)
  rw [hconsume] at hready
  have hready' : (consume (window.drop o.pos) o.reset).state = .tokenReady := hready
  have hwindow : (o.onInput window).nextLoop =
      (consume (window.drop o.pos) o.reset).onInput window := by
    have hdrop : (o.onInput window).nextLoop =
        readLoop 0 (window.drop o.pos ++ []) (o.onInput window).reset := by
      rw [List.append_nil]
      rfl
    rw [hdrop, readLoop_append, hconsume, readLoop_of_ready hready]
  have hwhole : o.nextLoop = consume (window.drop o.pos) o.reset := by
    rw [nextLoop, hinput, List.drop_append_of_le_length hle, readLoop_append,
      readLoop_of_ready hready']
  rw [hwindow, hwhole]

theorem between_start (input : Bytes) :
    Between { ({ input := input } : Tokenizer) with allowEof := true } :=
  ⟨nofun, Nat.zero_le _, rfl⟩

/-- Reading always returns a token. -/
theorem readQpdfToken_start (input : Bytes) : ({ input := input } : Tokenizer).readQpdfToken 0 =
    (.ok (({ input := input, allowEof := true } : Tokenizer).lexToken 0),
      ({ input := input, allowEof := true } : Tokenizer).nextLoop.unread.reset) :=
  (between_start input).read

/-- A token that ends in front of the end of its input is read again when more input follows. -/
theorem readQpdfToken_onInput (back : Bytes) (hstate : t.state ≠ .inlineImage)
    (hinput : t.input = window)
    (hle : t.pos ≤ window.length) (hend : (t.readQpdfToken 0).2.pos < window.length) :
    (t.onInput (window ++ back)).readQpdfToken 0 =
      ((t.readQpdfToken 0).1, (t.readQpdfToken 0).2.onInput (window ++ back)) := by
  have hbetween : Between { t with allowEof := true } := ⟨hstate, hinput ▸ hle, rfl⟩
  have hwhole : Between { t.onInput (window ++ back) with allowEof := true } := by
    refine ⟨hstate, ?_, rfl⟩
    change t.pos ≤ (window ++ back).length
    rw [List.length_append]
    omega
  have hread : t.readQpdfToken 0 = _ := hbetween.read
  have hself : ({ t.onInput (window ++ back) with allowEof := true } : Tokenizer).onInput window =
      { t with allowEof := true } := by
    rw [← hinput]
    rfl
  rw [hread] at hend
  have hloop : ({ t with allowEof := true } : Tokenizer).nextLoop =
      ({ t.onInput (window ++ back) with allowEof := true } : Tokenizer).nextLoop.onInput
        window := by
    rw [← hself]
    exact nextLoop_of_window (hself ▸ hbetween) rfl (hself ▸ hend)
  have hself' : ∀ x : Tokenizer, x.input = window ++ back → x = x.onInput (window ++ back) := by
    rintro x hx
    rw [← hx]
    rfl
  rw [hread, show (t.onInput (window ++ back)).readQpdfToken 0 = _ from hwhole.read,
    lexToken_eq_nextLoop, lexToken_eq_nextLoop, hloop, unread_onInput]
  exact Prod.ext rfl (hself' _ hwhole.next.2.1)

theorem readQpdfToken_of_window (window back : Bytes)
    (hend : (({ input := window } : Tokenizer).readQpdfToken 0).2.pos < window.length) :
    (({ input := window ++ back } : Tokenizer).readQpdfToken 0).1 =
        (({ input := window } : Tokenizer).readQpdfToken 0).1 ∧
      (({ input := window ++ back } : Tokenizer).readQpdfToken 0).2.pos =
        (({ input := window } : Tokenizer).readQpdfToken 0).2.pos := by
  have hread : ({ input := window ++ back } : Tokenizer).readQpdfToken 0 = _ :=
    readQpdfToken_onInput (t := { input := window }) back nofun rfl (Nat.zero_le _) hend
  rw [hread]
  exact ⟨rfl, rfl⟩

/-- At the end of its input the only other result is that the whole of it is read. -/
theorem readQpdfToken_pos_le (input : Bytes) :
    (({ input := input } : Tokenizer).readQpdfToken 0).2.pos ≤ input.length := by
  rw [readQpdfToken_start]
  obtain ⟨hnext, hinput, -⟩ := (between_start input).next
  have hle := hnext.pos_le
  change _ ≤ ({ input := input, allowEof := true } : Tokenizer).nextLoop.unread.input.length at hle
  rwa [hinput] at hle

end Flpdf.Tokenizer
