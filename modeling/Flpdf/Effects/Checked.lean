import Flpdf.Bytes.Slice
import Flpdf.Effects.Program
import Mathlib.Logic.Relation

/-!
# Computations that check their indices

A slice or an index out of bounds and a difference below zero are panics, and a
loop that uses up its fuel is endless. What is proved of a computation is that
it ends in neither way, and what holds of its value.
-/

/-! ## Computations that may not fail in some ways

A computation ends with a value that satisfies a property or with an error that
is not excluded. The rules follow the computation's steps. -/

namespace Flpdf

variable {ε α β : Type} {excluded : ε → Prop} {x : Except ε α} {f : α → Except ε β}
  {Q Q' : α → Prop} {R : β → Prop}

/-- Every value satisfies `Q`, and no error is excluded. -/
def Safe (excluded : ε → Prop) (x : Except ε α) (Q : α → Prop) : Prop :=
  match x with
  | .ok a => Q a
  | .error e => ¬excluded e

namespace Safe

theorem ok {a : α} (h : Q a) : Safe excluded (.ok a) Q := h

theorem pure {a : α} (h : Q a) : Safe excluded (Pure.pure a) Q := h

theorem error {e : ε} (h : ¬excluded e) : Safe excluded (.error e : Except ε α) Q := h

theorem mono (h : Safe excluded x Q) (himp : ∀ a, Q a → Q' a) : Safe excluded x Q' := by
  cases x with
  | ok a => exact himp a h
  | error e => exact h

/-- Fewer errors are excluded. -/
theorem weaken {excluded' : ε → Prop} (h : Safe excluded x Q)
    (himp : ∀ e, excluded' e → excluded e) : Safe excluded' x Q := by
  cases x with
  | ok a => exact h
  | error e => exact fun he => h (himp e he)

theorem bind (h : Safe excluded x Q) (hnext : ∀ a, Q a → Safe excluded (f a) R) :
    Safe excluded (x >>= f) R := by
  cases x with
  | ok a => exact hnext a h
  | error e => exact h

theorem map {g : α → β} (h : Safe excluded x Q) (himp : ∀ a, Q a → R (g a)) :
    Safe excluded (x.map g) R := by
  cases x with
  | ok a => exact himp a h
  | error e => exact h

theorem of_ok {a : α} (h : Safe excluded x Q) (heq : x = .ok a) : Q a := by
  rw [heq] at h
  exact h

theorem of_error {e : ε} (h : Safe excluded x Q) (heq : x = .error e) : ¬excluded e := by
  rw [heq] at h
  exact h

end Safe

end Flpdf

namespace Flpdf

/-- How a computation ends without a value. -/
inductive Stop (ε : Type) where
  | error (e : ε)
  | panic
  | endless

abbrev Checked (ε α : Type) := Except (Stop ε) α

/-- Anything but an error that is returned. -/
def Stop.IsFault {ε : Type} : Stop ε → Prop
  | .error _ => False
  | _ => True

variable {ε σ α β : Type} {Q : α → Prop}

/-- The computation ends with an error, or with a value that satisfies `Q`. -/
abbrev Sound (x : Checked ε α) (Q : α → Prop) : Prop := Safe Stop.IsFault x Q

namespace Checked

/-! ## Bounds -/

/-- `l[i..j]`. -/
def sliceBetween (l : List α) (i j : ℕ) : Checked ε (List α) :=
  if i ≤ j ∧ j ≤ l.length then .ok (slice l i j) else .error .panic

/-- `l[i..]`. -/
def sliceFrom (l : List α) (i : ℕ) : Checked ε (List α) :=
  if i ≤ l.length then .ok (l.drop i) else .error .panic

/-- `l[i]`. -/
def index (l : List α) (i : ℕ) : Checked ε α :=
  match l[i]? with
  | some a => .ok a
  | none => .error .panic

/-- `m - n`. -/
def sub (m n : ℕ) : Checked ε ℕ :=
  if n ≤ m then .ok (m - n) else .error .panic

variable {l : List α} {i j m n : ℕ}

theorem sliceBetween_eq (hij : i ≤ j) (hj : j ≤ l.length) :
    (sliceBetween l i j : Checked ε (List α)) = .ok (slice l i j) :=
  if_pos ⟨hij, hj⟩

theorem sliceBetween_panic (h : j < i) : (sliceBetween l i j : Checked ε (List α)) = .error .panic :=
  if_neg fun hbounds => absurd hbounds.1 (by omega)

theorem sliceFrom_eq (h : i ≤ l.length) :
    (sliceFrom l i : Checked ε (List α)) = .ok (l.drop i) :=
  if_pos h

theorem sub_eq (h : n ≤ m) : (sub m n : Checked ε ℕ) = .ok (m - n) :=
  if_pos h

theorem index_eq (h : i < l.length) : (index l i : Checked ε α) = .ok l[i] := by
  rw [index, List.getElem?_eq_getElem h]

/-! ## Loops -/

/-- A step goes on with a state or ends the loop with a value. -/
def loop (step : σ → Checked ε (σ ⊕ α)) : ℕ → σ → Checked ε α
  | 0, _ => .error .endless
  | fuel + 1, s =>
    match step s with
    | .error e => .error e
    | .ok (.inl s) => loop step fuel s
    | .ok (.inr a) => .ok a

/-- A step keeps the invariant and makes the variant smaller, or ends with `Q`. -/
def Steps (inv : σ → Prop) (variant : σ → ℕ) (Q : α → Prop) (s : σ) : σ ⊕ α → Prop
  | .inl s' => inv s' ∧ variant s' < variant s
  | .inr a => Q a

variable {step : σ → Checked ε (σ ⊕ α)} {inv : σ → Prop} {variant : σ → ℕ} {fuel : ℕ} {s s' : σ}

theorem loop_sound (hstep : ∀ s, inv s → Sound (step s) (Steps inv variant Q s)) (h : inv s)
    (hfuel : variant s < fuel) : Sound (loop step fuel s) Q := by
  induction fuel generalizing s with
  | zero => omega
  | succ fuel ih =>
    have hs := hstep s h
    rw [loop]
    rcases heq : step s with e | s' | a
    · exact .error (hs.of_error heq)
    · obtain ⟨h', hlt⟩ := hs.of_ok heq
      exact ih h' (by omega)
    · exact .ok (hs.of_ok heq)

/-- A loop comes to every state that its steps lead to. -/
theorem loop_reaches
    (hstep : ∀ s s', inv s → step s = .ok (.inl s') → inv s' ∧ variant s' < variant s) (h : inv s)
    (hfuel : variant s < fuel) (hreach : Relation.ReflTransGen (fun s s' => step s = .ok (.inl s')) s s') :
    ∃ fuel', variant s' < fuel' ∧ loop step fuel s = loop step fuel' s' := by
  induction hreach using Relation.ReflTransGen.head_induction_on generalizing fuel with
  | refl => exact ⟨fuel, hfuel, rfl⟩
  | @head s t hfirst _ ih =>
    obtain ⟨ht, hlt⟩ := hstep s t h hfirst
    cases fuel with
    | zero => omega
    | succ fuel =>
      have hroom : variant t < fuel := by omega
      obtain ⟨fuel', hfuel', heq⟩ := ih ht hroom
      refine ⟨fuel', hfuel', ?_⟩
      rw [loop, hfirst]
      exact heq

end Checked

end Flpdf
