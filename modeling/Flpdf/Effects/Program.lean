import Mathlib.Order.Defs.Unbundled

/-!
# Programs that may run out of fuel

A program changes a state and ends with a value or an error; whichever it is, the
state it leaves is kept. Running out of fuel is no result at all. What a program
guarantees of its results, and that it has one, are proved apart and composed along
its steps.
-/

namespace Flpdf

/-- A computation of two steps succeeds when both do. -/
theorem bind_eq_ok {ε α β : Type} {x : Except ε α} {f : α → Except ε β} {b : β} :
    x >>= f = .ok b ↔ ∃ a, x = .ok a ∧ f a = .ok b := by
  cases x <;> simp [bind, Except.bind]

theorem map_eq_ok {ε α β : Type} {x : Except ε α} {f : α → β} {b : β} :
    x.map f = .ok b ↔ ∃ a, x = .ok a ∧ f a = b := by
  cases x <;> simp [Except.map]

theorem ok_bind {ε α β : Type} (a : α) (next : α → Except ε β) : (Except.ok a >>= next) = next a := rfl

/-! What remains of a computation whose error does not matter. -/

theorem toOption_eq_some {ε α : Type} {x : Except ε α} {a : α} :
    x.toOption = some a ↔ x = .ok a := by
  cases x <;> simp [Except.toOption]

/-- A computation over `σ` that may fail with an `ε`, or not answer. -/
def Program (σ ε α : Type) : Type := σ → Option (Except ε α × σ)

namespace Program

variable {σ ε ε' α β : Type} {p : Program σ ε α} {f : α → Program σ ε β} {s s' : σ}
  {Q Q' : Except ε α → σ → Prop} {R : Except ε β → σ → Prop}

protected def bind (p : Program σ ε α) (f : α → Program σ ε β) : Program σ ε β := fun s =>
  match p s with
  | none => none
  | some (.error e, s') => some (.error e, s')
  | some (.ok a, s') => f a s'

instance : Monad (Program σ ε) where
  pure a := fun s => some (.ok a, s)
  bind := Program.bind

def fail (e : ε) : Program σ ε α := fun s => some (.error e, s)

def get : Program σ ε σ := fun s => some (.ok s, s)

def modify (update : σ → σ) : Program σ ε Unit := fun s => some (.ok (), update s)

def outOfFuel : Program σ ε α := fun _ => none

/-- The result of a program as a value. -/
def attempt (p : Program σ ε α) : Program σ ε' (Except ε α) := fun s =>
  (p s).map fun result => (.ok result.1, result.2)

/-- A result computed without the state. -/
def ofExcept (result : Except ε α) : Program σ ε α := fun s => some (result, s)

/-- The program if the condition holds. -/
def onlyIf (condition : Bool) (p : Program σ ε Unit) : Program σ ε Unit :=
  if condition then p else pure ()

/-- A program for each element, in order. -/
def forEach (body : α → Program σ ε Unit) : List α → Program σ ε Unit
  | [] => pure ()
  | a :: rest => do
    body a
    forEach body rest

/-! ## Programs that succeed and programs that fail -/

/-- The program has a value from `s`, and it satisfies `Q` with the state that is left. -/
def Yields (p : Program σ ε α) (s : σ) (Q : α → σ → Prop) : Prop :=
  ∃ a s', p s = some (.ok a, s') ∧ Q a s'

/-- The program ends with the error from `s`. -/
def FailsWith (p : Program σ ε α) (s : σ) (e : ε) : Prop := ∃ s', p s = some (.error e, s')

section

variable {P P' : α → σ → Prop} {T : β → σ → Prop} {a : α} {e : ε}

theorem Yields.mono (h : p.Yields s P) (himp : ∀ a s', P a s' → P' a s') : p.Yields s P' := by
  obtain ⟨a, s', hrun, hP⟩ := h
  exact ⟨a, s', hrun, himp a s' hP⟩

theorem yields_pure (h : P a s) : (pure a : Program σ ε α).Yields s P := ⟨a, s, rfl, h⟩

theorem yields_modify {P : Unit → σ → Prop} {update : σ → σ} (h : P () (update s)) :
    (modify update : Program σ ε Unit).Yields s P :=
  ⟨(), update s, rfl, h⟩

theorem yields_get_bind {f : σ → Program σ ε β} (h : (f s).Yields s T) :
    (get >>= f).Yields s T := h

theorem yields_modify_bind {update : σ → σ} {f : Unit → Program σ ε β}
    (h : (f ()).Yields (update s) T) : (modify update >>= f).Yields s T := h

/-- A program whose first step has a value goes on with it. -/
theorem run_bind (h : p s = some (.ok a, s')) : (p >>= f) s = f a s' := by
  change Program.bind p f s = f a s'
  rw [Program.bind, h]

theorem run_bind_error (h : p s = some (.error e, s')) : (p >>= f) s = some (.error e, s') := by
  change Program.bind p f s = _
  rw [Program.bind, h]

theorem attempt_run {result : Except ε α} (h : p s = some (result, s')) :
    (p.attempt : Program σ ε' (Except ε α)) s = some (.ok result, s') := by
  rw [Program.attempt, h]
  rfl

theorem run_modify_bind {update : σ → σ} {f : Unit → Program σ ε β} (h : update s = s') :
    (modify update >>= f) s = f () s' := by
  rw [← h]
  rfl

theorem run_ofExcept_bind {result : Except ε α} (h : result = .ok a) :
    (ofExcept result >>= f) s = f a s := by
  rw [h]
  rfl

theorem Yields.bind (hp : p.Yields s P) (hf : ∀ a s', P a s' → (f a).Yields s' T) :
    (p >>= f).Yields s T := by
  obtain ⟨a, s', hrun, hP⟩ := hp
  obtain ⟨b, t, hnext, hT⟩ := hf a s' hP
  exact ⟨b, t, (run_bind hrun).trans hnext, hT⟩

theorem Yields.bind_fails (hp : p.Yields s P) (hf : ∀ a s', P a s' → (f a).FailsWith s' e) :
    (p >>= f).FailsWith s e := by
  obtain ⟨a, s', hrun, hP⟩ := hp
  obtain ⟨t, hnext⟩ := hf a s' hP
  exact ⟨t, (run_bind hrun).trans hnext⟩

theorem FailsWith.bind (hp : p.FailsWith s e) : (p >>= f).FailsWith s e := by
  obtain ⟨s', hrun⟩ := hp
  exact ⟨s', run_bind_error hrun⟩

theorem failsWith_fail (e : ε) : (fail e : Program σ ε α).FailsWith s e := ⟨s, rfl⟩

theorem FailsWith.not_yields (h : p.FailsWith s e) : ¬p.Yields s P := by
  rintro ⟨a, s', hrun, -⟩
  obtain ⟨t, hfail⟩ := h
  rw [hrun] at hfail
  cases hfail

end

/-! ## What holds of every result -/

/-- Every result of the program from `s` satisfies `Q`. -/
def Meets (p : Program σ ε α) (s : σ) (Q : Except ε α → σ → Prop) : Prop :=
  ∀ result s', p s = some (result, s') → Q result s'

theorem Meets.mono (h : p.Meets s Q) (himp : ∀ result s', Q result s' → Q' result s') :
    p.Meets s Q' := by
  intro result s' hrun
  exact himp result s' (h result s' hrun)

theorem Meets.of_eq {q : Program σ ε α} (h : q.Meets s' Q) (heq : p s = q s') :
    p.Meets s Q := by
  intro result t hrun
  rw [heq] at hrun
  exact h result t hrun

theorem meets_pure {a : α} (h : Q (.ok a) s) : (pure a : Program σ ε α).Meets s Q := by
  intro result s' hrun
  cases hrun
  exact h

theorem meets_fail {e : ε} (h : Q (.error e) s) : (fail e : Program σ ε α).Meets s Q := by
  intro result s' hrun
  cases hrun
  exact h

theorem meets_get {Q : Except ε σ → σ → Prop} (h : Q (.ok s) s) :
    (get : Program σ ε σ).Meets s Q := by
  intro result s' hrun
  cases hrun
  exact h

theorem meets_modify {Q : Except ε Unit → σ → Prop} {update : σ → σ} (h : Q (.ok ()) (update s)) :
    (modify update : Program σ ε Unit).Meets s Q := by
  intro result s' hrun
  cases hrun
  exact h

theorem meets_ofExcept {result : Except ε α} (h : Q result s) :
    (ofExcept result : Program σ ε α).Meets s Q := by
  intro result' s' hrun
  cases hrun
  exact h

theorem meets_outOfFuel : (outOfFuel : Program σ ε α).Meets s Q := by
  intro result s' hrun
  cases hrun

theorem Meets.bind (hp : p.Meets s Q) (hok : ∀ a s', Q (.ok a) s' → (f a).Meets s' R)
    (herror : ∀ e s', Q (.error e) s' → R (.error e) s') : (p >>= f).Meets s R := by
  intro result s' hrun
  change Program.bind p f s = some (result, s') at hrun
  unfold Program.bind at hrun
  cases hp' : p s with
  | none => simp [hp'] at hrun
  | some outcome =>
    obtain ⟨result', t⟩ := outcome
    rw [hp'] at hrun
    cases result' with
    | error e =>
      simp only [Option.some.injEq, Prod.mk.injEq] at hrun
      rw [← hrun.1, ← hrun.2]
      exact herror e t (hp _ _ hp')
    | ok a => exact hok a t (hp _ _ hp') result s' hrun

/-- The state that is read is the state of the moment. -/
theorem meets_get_bind {f : σ → Program σ ε β} (h : (f s).Meets s R) : (get >>= f).Meets s R := h

theorem meets_modify_bind {update : σ → σ} {f : Unit → Program σ ε β}
    (h : (f ()).Meets (update s) R) : (modify update >>= f).Meets s R := h

theorem Meets.attempt (h : p.Meets s Q) :
    (p.attempt : Program σ ε' (Except ε α)).Meets s fun result s' =>
      ∃ result', result = .ok result' ∧ Q result' s' := by
  intro result s' hrun
  simp only [Program.attempt, Option.map_eq_some_iff, Prod.mk.injEq, Prod.exists] at hrun
  obtain ⟨result', t, hp, rfl, rfl⟩ := hrun
  exact ⟨result', rfl, h _ _ hp⟩

/-! ## Relations between the state before and the state after -/

/-- The state after is related to the state before, whatever the result. -/
def Relates (r : σ → σ → Prop) (p : Program σ ε α) : Prop :=
  ∀ s, p.Meets s fun _ s' => r s s'

theorem Relates.mono {r r' : σ → σ → Prop} (h : p.Relates r) (himp : ∀ s s', r s s' → r' s s') :
    p.Relates r' :=
  fun s => (h s).mono fun _ s' => himp s s'

section Relations

variable {r : σ → σ → Prop} [IsPreorder σ r]

theorem relates_pure (a : α) : (pure a : Program σ ε α).Relates r :=
  fun s => meets_pure (refl s)

theorem relates_fail (e : ε) : (fail e : Program σ ε α).Relates r :=
  fun s => meets_fail (refl s)

theorem relates_get : (get : Program σ ε σ).Relates r :=
  fun s => meets_get (refl s)

theorem relates_ofExcept (result : Except ε α) : (ofExcept result : Program σ ε α).Relates r :=
  fun s => meets_ofExcept (refl s)

omit [IsPreorder σ r] in
theorem relates_modify {update : σ → σ} (h : ∀ s, r s (update s)) :
    (modify update : Program σ ε Unit).Relates r :=
  fun s => meets_modify (h s)

omit [IsPreorder σ r] in
theorem Relates.attempt (h : p.Relates r) :
    (p.attempt : Program σ ε' (Except ε α)).Relates r := by
  intro s
  refine (h s).attempt.mono ?_
  rintro _ s' ⟨_, _, hr⟩
  exact hr

/-- What comes next may rely on the state that was read or left. -/
theorem Relates.bind_from (hp : p.Meets s fun _ s' => r s s')
    (hf : ∀ a s', p s = some (.ok a, s') → (f a).Meets s' fun _ s'' => r s' s'') :
    (p >>= f).Meets s fun _ s'' => r s s'' := by
  have hp' : p.Meets s fun result s' => p s = some (result, s') ∧ r s s' :=
    fun result s' hrun => ⟨hrun, hp result s' hrun⟩
  refine hp'.bind ?_ ?_
  · intro a s' h
    refine (hf a s' h.1).mono ?_
    intro _ s'' h'
    exact IsTrans.trans s s' s'' h.2 h'
  · intro e s' h
    exact h.2

theorem Relates.bind (hp : p.Relates r) (hf : ∀ a, (f a).Relates r) : (p >>= f).Relates r :=
  fun s => Relates.bind_from (hp s) fun a s' _ => hf a s'

theorem relates_modify_bind {update : σ → σ} {f : Unit → Program σ ε β}
    (h : ∀ s, r s (update s)) (hf : (f ()).Relates r) : (modify update >>= f).Relates r :=
  Relates.bind (relates_modify h) fun _ => hf

theorem relates_onlyIf {condition : Bool} {p : Program σ ε Unit} (h : p.Relates r) :
    (onlyIf condition p).Relates r := by
  cases condition with
  | false => exact relates_pure ()
  | true => exact h

theorem relates_forEach {body : α → Program σ ε Unit} {l : List α}
    (h : ∀ a ∈ l, (body a).Relates r) : (forEach body l).Relates r := by
  induction l with
  | nil => exact relates_pure ()
  | cons a rest ih =>
    apply Relates.bind (h a List.mem_cons_self)
    intro _
    exact ih fun b hb => h b (List.mem_cons_of_mem _ hb)

end Relations

/-- A property of the state that the program does not break. -/
def Preserved (P : σ → Prop) : σ → σ → Prop := fun s s' => P s → P s'

instance (P : σ → Prop) : IsPreorder σ (Preserved P) where
  refl _ h := h
  trans _ _ _ h h' hs := h' (h hs)

/-- An invariant of every round holds after all of them. -/
theorem meets_forEach {P : σ → Prop} {body : α → Program σ ε Unit} {l : List α}
    (h : ∀ a ∈ l, ∀ s, P s → (body a).Meets s fun _ s' => P s') (hs : P s) :
    (forEach body l).Meets s fun _ s' => P s' := by
  have hrelates : (forEach body l).Relates (Preserved P) := by
    apply relates_forEach
    intro a ha t result t' hrun ht
    exact h a ha t ht result t' hrun
  intro result s' hrun
  exact hrelates s result s' hrun hs

/-! ## Programs that answer -/

/-- The program does not run out of fuel from `s`. -/
def Halts (p : Program σ ε α) (s : σ) : Prop := (p s).isSome

theorem halts_pure (a : α) : (pure a : Program σ ε α).Halts s := rfl

theorem halts_fail (e : ε) : (fail e : Program σ ε α).Halts s := rfl

theorem halts_get : (get : Program σ ε σ).Halts s := rfl

theorem halts_modify (update : σ → σ) : (modify update : Program σ ε Unit).Halts s := rfl

theorem halts_ofExcept (result : Except ε α) : (ofExcept result : Program σ ε α).Halts s := rfl

theorem Halts.attempt (h : p.Halts s) : (p.attempt : Program σ ε' (Except ε α)).Halts s := by
  simpa [Halts, Program.attempt] using h

theorem Halts.bind (hp : p.Halts s) (hf : ∀ a s', p s = some (.ok a, s') → (f a).Halts s') :
    (p >>= f).Halts s := by
  change (Program.bind p f s).isSome
  unfold Program.bind
  cases hp' : p s with
  | none => simp [Halts, hp'] at hp
  | some outcome =>
    obtain ⟨result, t⟩ := outcome
    cases result with
    | error e => rfl
    | ok a => exact hf a t hp'

theorem Halts.of_eq {q : Program σ ε α} (h : q.Halts s') (heq : p s = q s') : p.Halts s := by
  rw [Halts, heq]
  exact h

/-- From every state with `P` the program answers, and it leaves a state with `P`. -/
def TotalOn (P : σ → Prop) (p : Program σ ε α) : Prop :=
  ∀ s, P s → p.Halts s ∧ p.Meets s fun _ s' => P s'

section TotalOn

variable {P : σ → Prop}

theorem totalOn_pure (a : α) : (pure a : Program σ ε α).TotalOn P :=
  fun _ hs => ⟨halts_pure a, meets_pure hs⟩

theorem totalOn_fail (e : ε) : (fail e : Program σ ε α).TotalOn P :=
  fun _ hs => ⟨halts_fail e, meets_fail hs⟩

theorem totalOn_get : (get : Program σ ε σ).TotalOn P :=
  fun _ hs => ⟨halts_get, meets_get hs⟩

theorem totalOn_modify {update : σ → σ} (h : ∀ s, P s → P (update s)) :
    (modify update : Program σ ε Unit).TotalOn P :=
  fun s hs => ⟨halts_modify update, meets_modify (h s hs)⟩

theorem totalOn_ofExcept (result : Except ε α) : (ofExcept result : Program σ ε α).TotalOn P :=
  fun _ hs => ⟨halts_ofExcept result, meets_ofExcept hs⟩

theorem TotalOn.attempt (h : p.TotalOn P) :
    (p.attempt : Program σ ε' (Except ε α)).TotalOn P := by
  intro s hs
  refine ⟨(h s hs).1.attempt, (h s hs).2.attempt.mono ?_⟩
  rintro _ s' ⟨_, _, hs'⟩
  exact hs'

theorem TotalOn.bind (hp : p.TotalOn P) (hf : ∀ a, (f a).TotalOn P) : (p >>= f).TotalOn P := by
  intro s hs
  constructor
  · apply (hp s hs).1.bind
    intro a s' hrun
    exact (hf a s' ((hp s hs).2 _ s' hrun)).1
  · refine Meets.bind (hp s hs).2 ?_ ?_
    · intro a s' hs'
      exact (hf a s' hs').2
    · intro e s' hs'
      exact hs'

theorem totalOn_modify_bind {update : σ → σ} {f : Unit → Program σ ε β}
    (h : ∀ s, P s → P (update s)) (hf : (f ()).TotalOn P) : (modify update >>= f).TotalOn P :=
  (totalOn_modify h).bind fun _ => hf

theorem totalOn_onlyIf {condition : Bool} {p : Program σ ε Unit} (h : p.TotalOn P) :
    (onlyIf condition p).TotalOn P := by
  cases condition with
  | false => exact totalOn_pure ()
  | true => exact h

theorem totalOn_forEach {body : α → Program σ ε Unit} (h : ∀ a, (body a).TotalOn P)
    (l : List α) : (forEach body l).TotalOn P := by
  induction l with
  | nil => exact totalOn_pure ()
  | cons a rest ih => exact (h a).bind fun _ => ih

end TotalOn

/-! ## More fuel -/

/-- Where the first program answers, the second gives the same answer. -/
def ExtendedBy (p q : Program σ ε α) : Prop := ∀ s result, p s = some result → q s = some result

section ExtendedBy

variable {q : Program σ ε α} {f' : α → Program σ ε β}

theorem ExtendedBy.refl (p : Program σ ε α) : p.ExtendedBy p := fun _ _ h => h

theorem extendedBy_outOfFuel (q : Program σ ε α) : (outOfFuel : Program σ ε α).ExtendedBy q := by
  intro s result hrun
  cases hrun

theorem ExtendedBy.bind (hp : p.ExtendedBy q) (hf : ∀ a, (f a).ExtendedBy (f' a)) :
    (p >>= f).ExtendedBy (q >>= f') := by
  intro s result hrun
  change Program.bind p f s = some result at hrun
  change Program.bind q f' s = some result
  unfold Program.bind at hrun ⊢
  cases hp' : p s with
  | none => simp [hp'] at hrun
  | some outcome =>
    rw [hp'] at hrun
    rw [hp s outcome hp']
    rcases outcome with ⟨e | a, t⟩
    · exact hrun
    · exact hf a t result hrun

theorem ExtendedBy.attempt (h : p.ExtendedBy q) :
    (p.attempt : Program σ ε' (Except ε α)).ExtendedBy q.attempt := by
  intro s result hrun
  simp only [Program.attempt, Option.map_eq_some_iff] at hrun ⊢
  obtain ⟨outcome, hp, heq⟩ := hrun
  exact ⟨outcome, h s outcome hp, heq⟩

theorem extendedBy_forEach {body body' : α → Program σ ε Unit}
    (h : ∀ a, (body a).ExtendedBy (body' a)) (l : List α) :
    (forEach body l).ExtendedBy (forEach body' l) := by
  induction l with
  | nil => exact .refl _
  | cons a rest ih => exact (h a).bind fun _ => ih

end ExtendedBy

/-! ## Programs that end, with a promise for success -/

/-- The program does not run out of fuel, and a value satisfies `Q` with the state that is left. -/
def Ends (p : Program σ ε α) (s : σ) (Q : α → σ → Prop) : Prop :=
  ∃ result s', p s = some (result, s') ∧ ∀ a, result = .ok a → Q a s'

section Ends

variable {P P' : α → σ → Prop} {T : β → σ → Prop} {a : α} {e : ε}

theorem Ends.mono (h : p.Ends s P) (himp : ∀ a s', P a s' → P' a s') : p.Ends s P' := by
  obtain ⟨result, s', hrun, hP⟩ := h
  exact ⟨result, s', hrun, fun a ha => himp a s' (hP a ha)⟩

theorem ends_pure (h : P a s) : (pure a : Program σ ε α).Ends s P :=
  ⟨.ok a, s, rfl, fun _ ha => by cases ha; exact h⟩

theorem ends_fail (e : ε) : (fail e : Program σ ε α).Ends s P :=
  ⟨.error e, s, rfl, fun _ ha => by cases ha⟩

theorem Ends.bind (hp : p.Ends s P) (hf : ∀ a s', P a s' → (f a).Ends s' T) :
    (p >>= f).Ends s T := by
  obtain ⟨result, s', hrun, hP⟩ := hp
  cases result with
  | error e => exact ⟨.error e, s', run_bind_error hrun, fun _ ha => by cases ha⟩
  | ok a =>
    obtain ⟨result, t, hnext, hT⟩ := hf a s' (hP a rfl)
    exact ⟨result, t, (run_bind hrun).trans hnext, hT⟩

theorem ends_get_bind {f : σ → Program σ ε β} (h : (f s).Ends s T) : (get >>= f).Ends s T := h

theorem ends_modify {P : Unit → σ → Prop} {update : σ → σ} (h : P () (update s)) :
    (modify update : Program σ ε Unit).Ends s P :=
  ⟨.ok (), update s, rfl, fun _ _ => h⟩

theorem ends_ofExcept {result : Except ε α} (h : ∀ a, result = .ok a → P a s) :
    (ofExcept result).Ends s P :=
  ⟨result, s, rfl, h⟩

theorem ends_ofExcept_bind {result : Except ε α} (h : ∀ a, result = .ok a → (f a).Ends s T) :
    (ofExcept result >>= f).Ends s T := by
  apply Ends.bind (P := fun a s' => s' = s ∧ result = .ok a)
    (ends_ofExcept fun a ha => ⟨rfl, ha⟩)
  rintro a _ ⟨rfl, ha⟩
  exact h a ha

theorem ends_modify_bind {update : σ → σ} {f : Unit → Program σ ε β}
    (h : (f ()).Ends (update s) T) : (modify update >>= f).Ends s T := h

/-- What is promised with the rest of the list still to come is kept along the list. -/
theorem ends_forEach {body : α → Program σ ε Unit} {I : List α → σ → Prop} {l : List α}
    (h : ∀ a rest s, I (a :: rest) s → (body a).Ends s fun _ s' => I rest s') (hs : I l s) :
    (forEach body l).Ends s fun _ s' => I [] s' := by
  induction l generalizing s with
  | nil => exact ends_pure hs
  | cons a rest ih =>
    apply (h a rest s hs).bind
    intro _ s' hs'
    exact ih hs'

end Ends

end Program

end Flpdf
