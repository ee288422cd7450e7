import Flpdf.Tokenizer.Machine
import Flpdf.Bytes.Slice

/-! # What one byte can do to a token

Inside a token a handler has two outcomes only: the byte joins the token, or
the token is ready and the byte goes back.  Every fact about positions and raw
bytes is derived from this one classification.
-/

namespace Flpdf.Tokenizer

variable {t t' : Tokenizer} {b : UInt8}

/-- What no handler touches. -/
def frame (t : Tokenizer) : Bytes × ℕ × ℕ × Bytes × Bool × Bool :=
  (t.input, t.pos, t.tokenStart, t.raw, t.allowEof, t.includeIgnorable)

/-- The states that skipped text and ignorable tokens are never in. -/
def isInside : LexState → Bool
  | .beforeToken | .inSpace | .inComment => false
  | _ => true

/-- The current byte belongs to the token being read. -/
structure Collecting (t : Tokenizer) : Prop where
  started : t.beforeToken = false
  collects : t.inToken = true
  state_ne : t.state ≠ .beforeToken
  ignorable : t.state = .inSpace ∨ t.state = .inComment → t.includeIgnorable = true

/-- The token is complete without the current byte. -/
structure EndedBefore (b : UInt8) (t : Tokenizer) : Prop where
  started : t.beforeToken = false
  stopped : t.inToken = false
  ready : t.state = .tokenReady
  unread : t.charToUnread = some b

structure Step (b : UInt8) (t t' : Tokenizer) : Prop where
  frame : t'.frame = t.frame
  eof_of_eof : t'.tokenType = .eof → t.tokenType = .eof
  outcome : Collecting t' ∨ EndedBefore b t'

theorem collecting_of_inside (hb : t.beforeToken = false) (hi : t.inToken = true)
    (hs : isInside t.state = true) : Collecting t where
  started := hb
  collects := hi
  state_ne he := by simp [he, isInside] at hs
  ignorable he := by rcases he with he | he <;> simp [he, isInside] at hs

theorem step_refl (h : Collecting t) : Step b t t := ⟨rfl, id, .inl h⟩

theorem Step.of_frame {u : Tokenizer} (h : Step b u t') (hf : u.frame = t.frame)
    (ht : u.tokenType = t.tokenType) : Step b t t' :=
  ⟨h.frame.trans hf, fun he => ht ▸ h.eof_of_eof he, h.outcome⟩

/-- A handler that only moves to another state of the token. -/
theorem Collecting.move (h : Collecting t) (hs : isInside t'.state = true)
    (hb : t'.beforeToken = t.beforeToken) (hi : t'.inToken = t.inToken) : Collecting t' :=
  collecting_of_inside (hb.trans h.started) (hi.trans h.collects) hs

theorem step_endBefore (h : Collecting t) {type : TokenType} (ht : type ≠ .eof) :
    Step b t (t.endBefore type b) :=
  ⟨rfl, fun he => absurd he ht, .inr ⟨h.started, rfl, rfl, rfl⟩⟩

theorem step_endWith (h : Collecting t) {type : TokenType} (ht : type ≠ .eof) :
    Step b t (t.endWith type) :=
  ⟨rfl, fun he => absurd he ht, .inl (h.move rfl rfl rfl)⟩

theorem step_badWith (h : Collecting t) (message : Bytes) : Step b t (t.badWith message) :=
  ⟨rfl, nofun, .inl (h.move rfl rfl rfl)⟩

theorem step_goto (h : Collecting t) {s : LexState} (hs : isInside s = true) :
    Step b t (t.goto s) :=
  ⟨rfl, id, .inl (h.move hs rfl rfl)⟩

theorem step_push (h : Collecting t) (bytes : Bytes) : Step b t (t.push bytes) :=
  ⟨rfl, id, .inl ⟨h.started, h.collects, h.state_ne, h.ignorable⟩⟩

/-- The first byte of a token settles its state, whatever the state was. -/
theorem inTop_inside (t : Tokenizer) (b : UInt8) :
    isInside (t.inTop b).state = true ∧ (t.inTop b).frame = t.frame ∧
      (t.inTop b).beforeToken = t.beforeToken ∧ (t.inTop b).inToken = t.inToken ∧
      ((t.inTop b).tokenType = .eof → t.tokenType = .eof) := by
  unfold inTop
  let motive (u : Tokenizer) : Prop :=
    isInside u.state = true ∧ u.frame = t.frame ∧ u.beforeToken = t.beforeToken ∧
      u.inToken = t.inToken ∧ (u.tokenType = .eof → t.tokenType = .eof)
  have keep (u : Tokenizer) (hs : isInside u.state = true) (hf : u.frame = t.frame)
      (hb : u.beforeToken = t.beforeToken) (hi : u.inToken = t.inToken)
      (ht : u.tokenType = t.tokenType) : motive u := ⟨hs, hf, hb, hi, fun he => ht ▸ he⟩
  have ready (type : TokenType) (ht : type ≠ .eof) : motive (t.endWith type) :=
    ⟨rfl, rfl, rfl, rfl, fun he => absurd he ht⟩
  -- `split` would traverse the rest of the chain once for each of its thirteen conditions
  refine iteInduction (motive := motive) (fun _ => keep _ rfl rfl rfl rfl rfl) fun _ => ?_
  refine iteInduction (motive := motive) (fun _ => keep _ rfl rfl rfl rfl rfl) fun _ => ?_
  refine iteInduction (motive := motive) (fun _ => keep _ rfl rfl rfl rfl rfl) fun _ => ?_
  refine iteInduction (motive := motive) (fun _ => ⟨rfl, rfl, rfl, rfl, nofun⟩) fun _ => ?_
  refine iteInduction (motive := motive) (fun _ => ready _ (by decide)) fun _ => ?_
  refine iteInduction (motive := motive) (fun _ => ready _ (by decide)) fun _ => ?_
  refine iteInduction (motive := motive) (fun _ => ready _ (by decide)) fun _ => ?_
  refine iteInduction (motive := motive) (fun _ => ready _ (by decide)) fun _ => ?_
  refine iteInduction (motive := motive) (fun _ => keep _ rfl rfl rfl rfl rfl) fun _ => ?_
  refine iteInduction (motive := motive) (fun _ => keep _ rfl rfl rfl rfl rfl) fun _ => ?_
  refine iteInduction (motive := motive) (fun _ => keep _ rfl rfl rfl rfl rfl) fun _ => ?_
  exact iteInduction (motive := motive) (fun _ => keep _ rfl rfl rfl rfl rfl)
    fun _ => keep _ rfl rfl rfl rfl rfl

theorem step_handleInSpace (h : Collecting t) : Step b t (t.handleInSpace b) := by
  unfold handleInSpace
  split_ifs
  · exact step_refl h
  · exact step_endBefore h (by decide)

theorem step_handleInComment (h : Collecting t) (hi : t.includeIgnorable = true) :
    Step b t (t.handleInComment b) := by
  unfold handleInComment
  split_ifs
  · exact step_endBefore h (by decide)
  · exact step_refl h

theorem step_handleInString (h : Collecting t) : Step b t (t.handleInString b) := by
  unfold handleInString
  split_ifs
  · exact step_goto h rfl
  · exact ⟨rfl, id, .inl ⟨h.started, h.collects, h.state_ne, h.ignorable⟩⟩
  · exact ⟨rfl, nofun, .inl (h.move rfl rfl rfl)⟩
  · exact ⟨rfl, id, .inl ⟨h.started, h.collects, h.state_ne, h.ignorable⟩⟩
  · exact ⟨rfl, id, .inl (h.move rfl rfl rfl)⟩
  · exact step_push h _

theorem step_inName (h : Collecting t) : Step b t (t.inName b) := by
  unfold inName
  split_ifs
  · exact step_endBefore h (by decide)
  · exact step_endBefore h (by decide)
  · exact ⟨rfl, id, .inl (h.move rfl rfl rfl)⟩
  · exact step_push h _

theorem step_inNameHex1 (h : Collecting t) : Step b t (t.inNameHex1 b) := by
  unfold inNameHex1
  split
  · exact ⟨rfl, id, .inl (h.move rfl rfl rfl)⟩
  · exact .of_frame (u := _) (step_inName (h.move rfl rfl rfl)) rfl rfl

theorem step_inNameHex2 (h : Collecting t) : Step b t (t.inNameHex2 b) := by
  unfold inNameHex2
  split
  · exact .of_frame (u := _) (step_inName (h.move rfl rfl rfl)) rfl rfl
  · dsimp only
    split_ifs <;> exact ⟨rfl, id, .inl (h.move rfl rfl rfl)⟩

theorem step_inLiteral (h : Collecting t) : Step b t (t.inLiteral b) := by
  unfold inLiteral
  split_ifs
  any_goals exact step_endBefore h (by decide)
  exact step_refl h

theorem step_inSign (h : Collecting t) : Step b t (t.inSign b) := by
  unfold inSign
  split_ifs
  · exact step_goto h rfl
  · exact step_goto h rfl
  · exact .of_frame (u := _) (step_inLiteral (h.move rfl rfl rfl)) rfl rfl

theorem step_inDecimal (h : Collecting t) : Step b t (t.inDecimal b) := by
  unfold inDecimal
  split_ifs
  · exact step_goto h rfl
  · exact .of_frame (u := _) (step_inLiteral (h.move rfl rfl rfl)) rfl rfl

theorem step_inNumber (h : Collecting t) : Step b t (t.inNumber b) := by
  unfold inNumber
  split_ifs
  · exact step_refl h
  · exact step_goto h rfl
  · exact step_endBefore h (by decide)
  · exact step_goto h rfl

theorem step_inReal (h : Collecting t) : Step b t (t.inReal b) := by
  unfold inReal
  split_ifs
  · exact step_refl h
  · exact step_endBefore h (by decide)
  · exact step_goto h rfl

theorem step_inCharCode (h : Collecting t) : Step b t (t.inCharCode b) := by
  unfold inCharCode
  dsimp only
  split_ifs
  · exact ⟨rfl, id, .inl ⟨h.started, h.collects, h.state_ne, h.ignorable⟩⟩
  · exact ⟨rfl, id, .inl (h.move rfl rfl rfl)⟩
  · exact .of_frame (u := _) (step_handleInString (h.move rfl rfl rfl)) rfl rfl

theorem step_inStringEscape (h : Collecting t) : Step b t (t.inStringEscape b) := by
  unfold inStringEscape
  split_ifs
  · exact .of_frame (u := _) (step_inCharCode (h.move rfl rfl rfl)) rfl rfl
  all_goals exact ⟨rfl, id, .inl (h.move rfl rfl rfl)⟩

theorem step_inStringAfterCr (h : Collecting t) : Step b t (t.inStringAfterCr b) := by
  unfold inStringAfterCr
  split_ifs
  · exact step_goto h rfl
  · exact .of_frame (u := _) (step_handleInString (h.move rfl rfl rfl)) rfl rfl

theorem step_handleInHexString (h : Collecting t) : Step b t (t.handleInHexString b) := by
  unfold handleInHexString
  split
  · exact ⟨rfl, id, .inl (h.move rfl rfl rfl)⟩
  · split_ifs
    · exact step_endWith h (by decide)
    · exact step_refl h
    · exact step_badWith h _

theorem step_handleInHexStringSecond (h : Collecting t) :
    Step b t (t.handleInHexStringSecond b) := by
  unfold handleInHexStringSecond
  split
  · exact ⟨rfl, id, .inl (h.move rfl rfl rfl)⟩
  · split_ifs
    · exact ⟨rfl, nofun, .inl (h.move rfl rfl rfl)⟩
    · exact step_refl h
    · exact step_badWith h _

theorem step_inLt (h : Collecting t) : Step b t (t.inLt b) := by
  unfold inLt
  split_ifs
  · exact step_endWith h (by decide)
  · exact .of_frame (u := _) (step_handleInHexString (h.move rfl rfl rfl)) rfl rfl

theorem step_inGt (h : Collecting t) : Step b t (t.inGt b) := by
  unfold inGt
  split_ifs
  · exact step_endWith h (by decide)
  · exact ⟨rfl, nofun, .inr ⟨h.started, rfl, rfl, rfl⟩⟩

theorem step_inInlineImage (h : Collecting t) : Step b t (t.inInlineImage b) := by
  unfold inInlineImage
  split_ifs
  · exact ⟨rfl, nofun, .inl (h.move rfl rfl rfl)⟩
  · exact step_refl h

/-- Inside a token every byte either joins it or ends it. -/
theorem step_handleCharacter (h : Collecting t) : Step b t (t.handleCharacter b) := by
  unfold handleCharacter
  split
  case h_1 => exact step_handleInSpace h
  case h_2 hs => exact step_handleInComment h (h.ignorable (.inr hs))
  case h_3 => exact step_inLt h
  case h_4 => exact step_inGt h
  case h_5 => exact step_handleInString h
  case h_6 => exact step_inName h
  case h_7 => exact step_inNumber h
  case h_8 => exact step_inReal h
  case h_9 => exact step_inStringAfterCr h
  case h_10 => exact step_inStringEscape h
  case h_11 => exact step_inCharCode h
  case h_12 => exact step_inLiteral h
  case h_13 => exact step_inInlineImage h
  case h_14 => exact step_handleInHexString h
  case h_15 => exact step_handleInHexStringSecond h
  case h_16 => exact step_inNameHex1 h
  case h_17 => exact step_inNameHex2 h
  case h_18 => exact step_inSign h
  case h_19 => exact step_inDecimal h
  case h_20 hs => exact absurd hs h.state_ne
  case h_21 => exact step_refl h

end Flpdf.Tokenizer
