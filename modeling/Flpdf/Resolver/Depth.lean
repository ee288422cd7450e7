import Flpdf.Resolver.Termination

/-!
# The bound on the depth does not matter

A resolution that answers within some depth answers the same within any greater one, so
every depth that is enough describes the same call.
-/

namespace Flpdf.Resolver

open Program

variable {source : Source} {ε α : Type} {deref deref' : ℕ → Program State Error Unit}

theorem extendedBy_mapError {ε' : Type} {wrap : ε → ε'} {p q : Program State ε α}
    (h : p.ExtendedBy q) : (mapError wrap p).ExtendedBy (mapError wrap q) :=
  h.attempt.bind fun _ => .refl _

section

variable (hderef : ∀ h, (deref h).ExtendedBy (deref' h))

include hderef

theorem extendedBy_run (reading : Reading α) :
    (reading.run source deref : Program State ε α).ExtendedBy (reading.run source deref') := by
  induction reading with
  | done result => exact .refl _
  | warn next ih => exact (ExtendedBy.refl _).bind ih
  | indirectHandle g next ih => exact (ExtendedBy.refl _).bind ih
  | directHandle v next ih => exact (ExtendedBy.refl _).bind ih
  | dereference h next ih =>
    apply (hderef h).attempt.bind
    intro result
    exact (ExtendedBy.refl _).bind fun s => ih _

theorem extendedBy_readObjectAtOffset (offset : ℕ) (expected : QpdfObjGen) (tryRecovery : Bool) :
    (readObjectAtOffset source deref offset expected tryRecovery).ExtendedBy
      (readObjectAtOffset source deref' offset expected tryRecovery) := by
  apply (ExtendedBy.refl _).bind
  intro s
  apply (ExtendedBy.refl _).bind
  intro _
  apply (ExtendedBy.refl _).bind
  intro found
  apply extendedBy_mapError
  apply (extendedBy_run hderef _).bind
  intro parsed
  apply (ExtendedBy.refl _).bind
  intro value
  apply (ExtendedBy.refl _).bind
  intro _
  exact (extendedBy_run hderef _).bind fun _ => .refl _

theorem extendedBy_reconstructXrefAndRetry (trigger : Error) (expected : QpdfObjGen) :
    (reconstructXrefAndRetry source deref trigger expected).ExtendedBy
      (reconstructXrefAndRetry source deref' trigger expected) := by
  rw [reconstructXrefAndRetry, reconstructXrefAndRetry]
  split
  · apply (ExtendedBy.refl _).bind
    intro _
    apply (ExtendedBy.refl _).bind
    intro s
    split
    · apply (extendedBy_mapError (extendedBy_readObjectAtOffset hderef _ _ _)).bind
      intro parsed
      exact .refl _
    · exact .refl _
  · exact .refl _

theorem extendedBy_resolveAtOffset (g : QpdfObjGen) (h offset : ℕ) :
    (resolveAtOffset source deref g h offset).ExtendedBy
      (resolveAtOffset source deref' g h offset) := by
  rw [resolveAtOffset, resolveAtOffset]
  split
  · exact .refl _
  · apply (extendedBy_readObjectAtOffset hderef offset g _).attempt.bind
    intro result
    rcases result with (e | e) | parsed
    · dsimp only
      split
      · apply (extendedBy_reconstructXrefAndRetry hderef e g).attempt.bind
        intro result
        exact .refl _
      · exact .refl _
    · exact .refl _
    · exact .refl _

theorem extendedBy_resolveMember (k : ℕ) (decoded : DecodedObjectStream) (member : ℕ × ℕ) :
    (resolveMember source deref k decoded member).ExtendedBy
      (resolveMember source deref' k decoded member) := by
  apply (ExtendedBy.refl _).bind
  intro s
  dsimp only
  split
  · exact .refl _
  · split
    · apply (ExtendedBy.refl _).bind
      intro h
      exact (extendedBy_run hderef _).bind fun _ => .refl _
    · exact .refl _

theorem extendedBy_resolveObjectStreamWithFailureKind (k : ℕ) :
    (resolveObjectStreamWithFailureKind source deref k).ExtendedBy
      (resolveObjectStreamWithFailureKind source deref' k) := by
  apply (ExtendedBy.refl _).bind
  intro s
  split_ifs
  · exact .refl _
  · exact .refl _
  · apply (ExtendedBy.refl _).bind
    intro _
    apply (ExtendedBy.refl _).bind
    intro h
    apply (extendedBy_mapError (hderef h)).bind
    intro _
    apply (ExtendedBy.refl _).bind
    intro t
    split
    · apply (ExtendedBy.refl _).bind
      intro _
      apply (extendedBy_run hderef _).bind
      intro result
      apply (ExtendedBy.refl _).bind
      intro decoded
      cases decoded with
      | none => exact .refl _
      | some decoded => exact extendedBy_forEach (extendedBy_resolveMember hderef _ _) _
    · exact .refl _

theorem extendedBy_resolveMarked (g : QpdfObjGen) (h : ℕ) :
    (resolveMarked source deref g h).ExtendedBy (resolveMarked source deref' g h) := by
  apply (ExtendedBy.refl _).bind
  intro s
  split
  · exact .refl _
  · have hdispatch : ∀ entry, (dispatch source deref g h entry).ExtendedBy
        (dispatch source deref' g h entry) := by
      rintro (_ | (_ | offset | ⟨stream, index⟩))
      · exact .refl _
      · exact .refl _
      · exact extendedBy_resolveAtOffset hderef g h offset
      · apply ExtendedBy.attempt
        apply (extendedBy_resolveObjectStreamWithFailureKind hderef stream).attempt.bind
        intro result
        exact .refl _
    exact (hdispatch _).bind fun _ => .refl _

theorem extendedBy_resolveIndirectInner (g : QpdfObjGen) (h : ℕ) :
    (resolveIndirectInner source deref g h).ExtendedBy
      (resolveIndirectInner source deref' g h) := by
  apply (ExtendedBy.refl _).bind
  intro s
  split
  · exact .refl _
  · apply (ExtendedBy.refl _).bind
    intro _
    exact (extendedBy_resolveMarked hderef g h).attempt.bind fun _ => .refl _

end

theorem extendedBy_tryDereferenceWith {resolve resolve' : QpdfObjGen → ℕ → Program State Error Unit}
    (hresolve : ∀ g h, (resolve g h).ExtendedBy (resolve' g h)) (h : ℕ) :
    (tryDereferenceWith resolve h).ExtendedBy (tryDereferenceWith resolve' h) := by
  apply (ExtendedBy.refl _).bind
  intro s
  cases s.objGen h with
  | none => exact .refl _
  | some g =>
    dsimp only
    split
    · exact .refl _
    · exact hresolve g h

/-- A greater depth gives the same answers. -/
theorem extendedBy_resolveQpdfObjGen {depth depth' : ℕ} (hle : depth ≤ depth') (g : QpdfObjGen)
    (h : ℕ) : (resolveQpdfObjGen source depth g h).ExtendedBy
      (resolveQpdfObjGen source depth' g h) := by
  induction depth generalizing depth' g h with
  | zero => exact extendedBy_outOfFuel _
  | succ depth ih =>
    obtain ⟨depth', rfl⟩ : ∃ k, depth' = k + 1 := ⟨depth' - 1, by omega⟩
    apply extendedBy_resolveIndirectInner
    apply extendedBy_tryDereferenceWith
    exact ih (Nat.le_of_succ_le_succ hle)

theorem extendedBy_perform {depth depth' : ℕ} (hle : depth ≤ depth') (op : Op) :
    (op.perform source depth).ExtendedBy (op.perform source depth') := by
  have hresolved : ∀ g, (resolvedHandle source depth g).ExtendedBy
      (resolvedHandle source depth' g) := by
    intro g
    apply (ExtendedBy.refl _).bind
    intro h
    have hresolve : (resolveIfUnresolved source depth g h).ExtendedBy
        (resolveIfUnresolved source depth' g h) := by
      apply (ExtendedBy.refl _).bind
      intro s
      split
      · exact .refl _
      · exact extendedBy_resolveQpdfObjGen hle g h
    exact hresolve.bind fun _ => .refl _
  cases op with
  | dereference h => exact extendedBy_tryDereferenceWith (extendedBy_resolveQpdfObjGen hle) h
  | swapObjects first second =>
    apply (hresolved first).bind
    intro h
    exact (hresolved second).bind fun _ => .refl _
  | _ => exact .refl _

end Flpdf.Resolver
