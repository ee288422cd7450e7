import Flpdf.Json.Grammar

/-!
# JSON numbers

The number states of the lexer accept exactly the numbers of the grammar. What
a state has still to read is a grammar of its own.
-/

namespace Flpdf.Json

open Lexer

/-- The number states in which the number may end. -/
def isFinalState : LexState → Bool
  | .numberLeadingZero | .numberBeforePoint | .numberAfterPoint | .number => true
  | _ => false

/-- The first state of a number. -/
def numberStart (byte : UInt8) : Option LexState :=
  if byte = 0x2d then some .numberMinus
  else if isNonzeroDigit byte then some .numberBeforePoint
  else if byte = 0x30 then some .numberLeadingZero
  else none

def numberRun : LexState → Bytes → Option LexState
  | state, [] => some state
  | state, byte :: text => (numberStep state byte).bind fun state => numberRun state text

/-- The number states accept a text from some state on. -/
def NumberAccepts (state : LexState) (text : Bytes) : Prop :=
  ∃ final, numberRun state text = some final ∧ isFinalState final = true

/-- What a number state has still to read. -/
def NumberTail (state : LexState) (text : Bytes) : Prop :=
  match state with
  | .numberMinus => ∃ int frac exp, IntPart int ∧ FracPart frac ∧ ExpPart exp ∧
      text = int ++ (frac ++ exp)
  | .numberLeadingZero => ∃ frac exp, FracPart frac ∧ ExpPart exp ∧ text = frac ++ exp
  | .numberBeforePoint => ∃ digits frac exp, Digits digits ∧ FracPart frac ∧ ExpPart exp ∧
      text = digits ++ (frac ++ exp)
  | .numberPoint => ∃ digits exp, digits ≠ [] ∧ Digits digits ∧ ExpPart exp ∧ text = digits ++ exp
  | .numberAfterPoint => ∃ digits exp, Digits digits ∧ ExpPart exp ∧ text = digits ++ exp
  | .numberE => ∃ sign digits, (sign = [] ∨ sign = [0x2b] ∨ sign = [0x2d]) ∧ digits ≠ [] ∧
      Digits digits ∧ text = sign ++ digits
  | .numberESign => text ≠ [] ∧ Digits text
  | .number => Digits text
  | _ => False

variable {state next : LexState} {byte : UInt8} {text : Bytes}

theorem digits_nil : Digits [] := by
  intro byte h
  cases h

theorem digits_cons (hbyte : isAsciiDigit byte = true) (h : Digits text) :
    Digits (byte :: text) := by
  intro b hb
  rcases List.mem_cons.mp hb with rfl | hb
  · exact hbyte
  · exact h b hb

/-! ## From the states to the grammar -/

theorem numberTail_nil (h : isFinalState state = true) : NumberTail state [] := by
  cases state <;> try cases h
  · exact ⟨[], [], .absent, .absent, rfl⟩
  · exact ⟨[], [], [], digits_nil, .absent, .absent, rfl⟩
  · exact ⟨[], [], digits_nil, .absent, rfl⟩
  · exact digits_nil

/-- A point leaves a fraction, an `e` an exponent. -/
theorem frac_of_tail (h : NumberTail .numberPoint text) :
    ∃ frac exp, FracPart frac ∧ ExpPart exp ∧ 0x2e :: text = frac ++ exp := by
  obtain ⟨digits, exp, hne, hdigits, hexp, rfl⟩ := h
  exact ⟨0x2e :: digits, exp, .point hne hdigits, hexp, rfl⟩

theorem exp_of_tail (hbyte : isExponent byte = true) (h : NumberTail .numberE text) :
    ExpPart (byte :: text) := by
  obtain ⟨sign, digits, hsign, hne, hdigits, rfl⟩ := h
  exact .exponent hbyte hsign hne hdigits

theorem numberTail_cons (hstep : numberStep state byte = some next) (h : NumberTail next text) :
    NumberTail state (byte :: text) := by
  cases state <;> simp only [numberStep] at hstep <;> try cases hstep
  case numberMinus =>
    split_ifs at hstep with hdigit hzero
    · obtain rfl := Option.some.inj hstep
      obtain ⟨digits, frac, exp, hdigits, hfrac, hexp, rfl⟩ := h
      exact ⟨byte :: digits, frac, exp, .nonzero hdigit hdigits, hfrac, hexp, rfl⟩
    · obtain rfl := Option.some.inj hstep
      obtain ⟨frac, exp, hfrac, hexp, rfl⟩ := h
      exact ⟨[byte], frac, exp, hzero ▸ .zero, hfrac, hexp, rfl⟩
  case numberLeadingZero =>
    split_ifs at hstep with hpoint hexponent
    · obtain rfl := Option.some.inj hstep
      exact hpoint ▸ frac_of_tail h
    · obtain rfl := Option.some.inj hstep
      exact ⟨[], byte :: text, .absent, exp_of_tail hexponent h, rfl⟩
  case numberBeforePoint =>
    split_ifs at hstep with hdigit hpoint hexponent
    · obtain rfl := Option.some.inj hstep
      obtain ⟨digits, frac, exp, hdigits, hfrac, hexp, rfl⟩ := h
      exact ⟨byte :: digits, frac, exp, digits_cons hdigit hdigits, hfrac, hexp, rfl⟩
    · obtain rfl := Option.some.inj hstep
      obtain ⟨frac, exp, hfrac, hexp, heq⟩ := frac_of_tail h
      exact ⟨[], frac, exp, digits_nil, hfrac, hexp, hpoint ▸ heq⟩
    · obtain rfl := Option.some.inj hstep
      exact ⟨[], [], byte :: text, digits_nil, .absent, exp_of_tail hexponent h, rfl⟩
  case numberPoint =>
    split_ifs at hstep with hdigit
    obtain rfl := Option.some.inj hstep
    obtain ⟨digits, exp, hdigits, hexp, rfl⟩ := h
    exact ⟨byte :: digits, exp, List.cons_ne_nil _ _, digits_cons hdigit hdigits, hexp, rfl⟩
  case numberAfterPoint =>
    split_ifs at hstep with hdigit hexponent
    · obtain rfl := Option.some.inj hstep
      obtain ⟨digits, exp, hdigits, hexp, rfl⟩ := h
      exact ⟨byte :: digits, exp, digits_cons hdigit hdigits, hexp, rfl⟩
    · obtain rfl := Option.some.inj hstep
      exact ⟨[], byte :: text, digits_nil, exp_of_tail hexponent h, rfl⟩
  case numberE =>
    split_ifs at hstep with hdigit hsign
    · obtain rfl := Option.some.inj hstep
      exact ⟨[], byte :: text, .inl rfl, List.cons_ne_nil _ _, digits_cons hdigit h, rfl⟩
    · obtain rfl := Option.some.inj hstep
      refine ⟨[byte], text, .inr ?_, h.1, h.2, rfl⟩
      rcases hsign with rfl | rfl
      · exact .inl rfl
      · exact .inr rfl
  case numberESign =>
    split_ifs at hstep with hdigit
    obtain rfl := Option.some.inj hstep
    exact ⟨List.cons_ne_nil _ _, digits_cons hdigit h⟩
  case number =>
    split_ifs at hstep with hdigit
    obtain rfl := Option.some.inj hstep
    exact digits_cons hdigit h

theorem NumberAccepts.tail (h : NumberAccepts state text) : NumberTail state text := by
  induction text generalizing state with
  | nil =>
    obtain ⟨final, hrun, hfinal⟩ := h
    obtain rfl := Option.some.inj hrun
    exact numberTail_nil hfinal
  | cons byte text ih =>
    obtain ⟨final, hrun, hfinal⟩ := h
    obtain ⟨next, hstep, hrest⟩ := Option.bind_eq_some_iff.mp hrun
    exact numberTail_cons hstep (ih ⟨final, hrest, hfinal⟩)

/-! ## From the grammar to the states -/

theorem numberAccepts_nil (h : isFinalState state = true) : NumberAccepts state [] :=
  ⟨state, rfl, h⟩

theorem NumberAccepts.cons (hstep : numberStep state byte = some next)
    (h : NumberAccepts next text) : NumberAccepts state (byte :: text) := by
  obtain ⟨final, hrun, hfinal⟩ := h
  exact ⟨final, by rw [numberRun, hstep, Option.bind_some, hrun], hfinal⟩

/-- A state that digits do not leave. -/
theorem NumberAccepts.digits {digits : Bytes}
    (hloop : ∀ b, isAsciiDigit b = true → numberStep state b = some state)
    (hdigits : Digits digits) (h : NumberAccepts state text) :
    NumberAccepts state (digits ++ text) := by
  induction digits with
  | nil => exact h
  | cons b digits ih =>
    have hb := hdigits b List.mem_cons_self
    have htail : Digits digits := by
      intro c hc
      exact hdigits c (List.mem_cons_of_mem _ hc)
    exact .cons (hloop b hb) (ih htail)

/-- A state that one digit moves to a state that further digits do not leave. -/
theorem NumberAccepts.nonempty {digits : Bytes} (hne : digits ≠ []) (hdigits : Digits digits)
    (hfirst : ∀ b, isAsciiDigit b = true → numberStep state b = some next)
    (hloop : ∀ b, isAsciiDigit b = true → numberStep next b = some next)
    (h : NumberAccepts next text) : NumberAccepts state (digits ++ text) := by
  cases digits with
  | nil => exact absurd rfl hne
  | cons b digits =>
    have htail : Digits digits := by
      intro c hc
      exact hdigits c (List.mem_cons_of_mem _ hc)
    exact .cons (hfirst b (hdigits b List.mem_cons_self)) (.digits hloop htail h)

theorem number_loop (b : UInt8) (h : isAsciiDigit b = true) :
    numberStep .number b = some .number :=
  -- In a state that is known, `numberStep` is the `if` of this state.
  if_pos h

/-- A state that one digit moves into the last digits of an exponent. -/
theorem accepts_digits {digits : Bytes}
    (hfirst : ∀ b, isAsciiDigit b = true → numberStep state b = some .number)
    (hne : digits ≠ []) (hdigits : Digits digits) : NumberAccepts state digits := by
  have hend : NumberAccepts .number [] := numberAccepts_nil rfl
  have haccepts := NumberAccepts.nonempty hne hdigits hfirst number_loop hend
  rwa [List.append_nil] at haccepts

theorem accepts_eSign {digits : Bytes} (hne : digits ≠ []) (hdigits : Digits digits) :
    NumberAccepts .numberESign digits :=
  accepts_digits (fun _ hb => if_pos hb) hne hdigits

/-- The states that may be followed by an exponent. -/
theorem accepts_expPart (hfinal : isFinalState state = true)
    (hstep : ∀ e, isExponent e = true → numberStep state e = some .numberE)
    {exp : Bytes} (h : ExpPart exp) : NumberAccepts state exp := by
  cases h with
  | absent => exact numberAccepts_nil hfinal
  | @exponent e sign digits he hsign hne hdigits =>
    apply NumberAccepts.cons (hstep e he)
    rcases hsign with rfl | rfl | rfl
    · exact accepts_digits (fun _ hb => if_pos hb) hne hdigits
    · exact .cons rfl (accepts_eSign hne hdigits)
    · exact .cons rfl (accepts_eSign hne hdigits)

theorem exponent_not_digit {e : UInt8} (h : isExponent e = true) :
    isAsciiDigit e ≠ true ∧ e ≠ 0x2e := by
  revert h
  exact forall_byte (p := fun e => isExponent e = true → isAsciiDigit e ≠ true ∧ e ≠ 0x2e)
    (by decide) e

theorem accepts_fracPart (hfinal : isFinalState state = true)
    (hpoint : numberStep state 0x2e = some .numberPoint)
    (hstep : ∀ e, isExponent e = true → numberStep state e = some .numberE)
    {frac exp : Bytes} (hfrac : FracPart frac) (hexp : ExpPart exp) :
    NumberAccepts state (frac ++ exp) := by
  cases hfrac with
  | absent => exact accepts_expPart hfinal hstep hexp
  | point hne hdigits =>
    have hafter : NumberAccepts .numberAfterPoint exp := by
      apply accepts_expPart rfl _ hexp
      intro e he
      exact (if_neg (exponent_not_digit he).1).trans (if_pos he)
    apply NumberAccepts.cons hpoint
    exact .nonempty hne hdigits (fun _ hb => if_pos hb) (fun _ hb => if_pos hb) hafter

theorem accepts_leadingZero {frac exp : Bytes} (hfrac : FracPart frac) (hexp : ExpPart exp) :
    NumberAccepts .numberLeadingZero (frac ++ exp) := by
  apply accepts_fracPart rfl rfl _ hfrac hexp
  intro e he
  exact (if_neg (exponent_not_digit he).2).trans (if_pos he)

theorem accepts_beforePoint {digits frac exp : Bytes} (hdigits : Digits digits)
    (hfrac : FracPart frac) (hexp : ExpPart exp) :
    NumberAccepts .numberBeforePoint (digits ++ (frac ++ exp)) := by
  refine .digits (fun _ hb => if_pos hb) hdigits ?_
  apply accepts_fracPart rfl rfl _ hfrac hexp
  intro e he
  obtain ⟨hdigit, hpoint⟩ := exponent_not_digit he
  exact (if_neg hdigit).trans ((if_neg hpoint).trans (if_pos he))

/-! ## Numbers -/

theorem nonzeroDigit_ne {b : UInt8} (h : isNonzeroDigit b = true) : b ≠ 0x2d ∧ b ≠ 0x30 := by
  revert h
  exact forall_byte (p := fun b => isNonzeroDigit b = true → b ≠ 0x2d ∧ b ≠ 0x30)
    (by decide) b

theorem numberStart_nonzero {b : UInt8} (h : isNonzeroDigit b = true) :
    numberStart b = some .numberBeforePoint := by
  simp only [numberStart, if_neg (nonzeroDigit_ne h).1, if_pos h]

/-- A number is what the number states accept. -/
theorem isNumber_iff : IsNumber text ↔
    ∃ byte rest state, text = byte :: rest ∧ numberStart byte = some state ∧
      NumberAccepts state rest := by
  constructor
  · rintro ⟨sign, int, frac, exp, rfl | rfl, hint, hfrac, hexp, rfl⟩
    · cases hint with
      | zero =>
        exact ⟨0x30, frac ++ exp, .numberLeadingZero, rfl, rfl, accepts_leadingZero hfrac hexp⟩
      | @nonzero first rest hfirst hrest =>
        exact ⟨first, rest ++ (frac ++ exp), .numberBeforePoint, rfl, numberStart_nonzero hfirst,
          accepts_beforePoint hrest hfrac hexp⟩
    · refine ⟨0x2d, int ++ (frac ++ exp), .numberMinus, rfl, rfl, ?_⟩
      cases hint with
      | zero =>
        have hzero := accepts_leadingZero hfrac hexp
        exact hzero.cons rfl
      | nonzero hfirst hrest =>
        apply NumberAccepts.cons _ (accepts_beforePoint hrest hfrac hexp)
        exact if_pos hfirst
  · rintro ⟨byte, rest, state, rfl, hstart, haccepts⟩
    have htail := haccepts.tail
    unfold numberStart at hstart
    split_ifs at hstart with hminus hdigit hzero
    · obtain rfl := Option.some.inj hstart
      obtain ⟨int, frac, exp, hint, hfrac, hexp, rfl⟩ := htail
      exact ⟨[byte], int, frac, exp, .inr (hminus ▸ rfl), hint, hfrac, hexp, rfl⟩
    · obtain rfl := Option.some.inj hstart
      obtain ⟨digits, frac, exp, hdigits, hfrac, hexp, rfl⟩ := htail
      exact ⟨[], byte :: digits, frac, exp, .inl rfl, .nonzero hdigit hdigits, hfrac, hexp, rfl⟩
    · obtain rfl := Option.some.inj hstart
      obtain ⟨frac, exp, hfrac, hexp, rfl⟩ := htail
      exact ⟨[], [byte], frac, exp, .inl rfl, hzero ▸ .zero, hfrac, hexp, rfl⟩

end Flpdf.Json
