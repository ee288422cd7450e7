import Flpdf.Resolver.Edits
import Mathlib.Data.Finset.Card

/-!
# Every resolution ends

An object is resolved below a mark of its own, and only an object with a row asks for
others. The rows there are and the rows a line scan can add are finitely many, so the
objects that are not marked bound the depth.
-/

namespace Flpdf.Resolver

open Program Std

variable {source : Source} {s : State} {h : ℕ} {g : QpdfObjGen} {ε α : Type}
  {U R : Finset QpdfObjGen}

/-- The rows are among some objects, and the marks are known. -/
structure Confined (source : Source) (U R : Finset QpdfObjGen) (s : State) : Prop where
  rows : ∀ g ∈ s.rawEntries, g ∈ U
  scanned : ∀ g ∈ source.scannedEntries.map Prod.fst, g ∈ U
  resolving : s.resolving = R

/-- The two states have the same table and the same marks. -/
def State.SameTable (s t : State) : Prop :=
  t.rawEntries = s.rawEntries ∧ t.resolving = s.resolving

theorem Confined.of_sameTable {t : State} (hs : Confined source U R s) (hst : s.SameTable t) :
    Confined source U R t := by
  refine ⟨?_, hs.scanned, ?_⟩
  · rw [hst.1]
    exact hs.rows
  · rw [hst.2]
    exact hs.resolving

namespace State

theorem sameTable_setResolved (s : State) (h : ℕ) (v : ObjectValue) :
    s.SameTable (s.setResolved h v) := by
  rw [setResolved]
  split
  · exact ⟨rfl, rfl⟩
  · split_ifs <;> exact ⟨rfl, rfl⟩

theorem sameTable_getObjectHandle (s : State) (g : QpdfObjGen) :
    s.SameTable (s.getObjectHandle g) := by
  rw [getObjectHandle]
  split
  · rw [promoteToIndirect]
    split <;> exact ⟨rfl, rfl⟩
  · exact ⟨rfl, rfl⟩

end State

/-! ## Reading -/

theorem totalOn_pushWarning : source.pushWarning.TotalOn (Confined source U R) := by
  apply totalOn_get.bind
  intro s
  apply totalOn_modify_bind
  · intro t ht
    exact ht.of_sameTable ⟨rfl, rfl⟩
  · exact totalOn_ofExcept _

theorem totalOn_getObjectHandle (g : QpdfObjGen) :
    (getObjectHandle g : Program State ε ℕ).TotalOn (Confined source U R) := by
  apply totalOn_get.bind
  intro s
  apply totalOn_modify_bind
  · intro t ht
    exact ht.of_sameTable (t.sameTable_getObjectHandle g)
  · exact totalOn_pure _

theorem totalOn_newDirect (v : ObjectValue) :
    (newDirect v : Program State ε ℕ).TotalOn (Confined source U R) := by
  apply totalOn_get.bind
  intro s
  apply totalOn_modify_bind
  · intro t ht
    exact ht.of_sameTable ⟨rfl, rfl⟩
  · exact totalOn_pure _

theorem totalOn_setResolved (h : ℕ) (v : ObjectValue) :
    (setResolved h v : Program State ε Unit).TotalOn (Confined source U R) := by
  apply totalOn_modify
  intro t ht
  exact ht.of_sameTable (t.sameTable_setResolved h v)

theorem totalOn_mapError {ε' : Type} {wrap : ε → ε'} {p : Program State ε α}
    (hp : p.TotalOn (Confined source U R)) : (mapError wrap p).TotalOn (Confined source U R) := by
  apply hp.attempt.bind
  intro result
  exact totalOn_ofExcept _

theorem totalOn_nullIfUnresolved (h : ℕ) :
    (nullIfUnresolved h).TotalOn (Confined source U R) := by
  apply totalOn_get.bind
  intro s
  split_ifs
  · exact totalOn_pure ()
  · exact totalOn_setResolved h _

theorem totalOn_warnDefaultXrefEntry (g : QpdfObjGen) :
    (warnDefaultXrefEntry source g).TotalOn (Confined source U R) := by
  apply totalOn_get.bind
  intro s
  split_ifs
  · apply totalOn_pushWarning.bind
    intro _
    apply totalOn_modify
    intro t ht
    exact ht.of_sameTable ⟨rfl, rfl⟩
  · exact totalOn_pure ()

theorem totalOn_cacheForRequest (g : QpdfObjGen) (h : ℕ) (parsed : ParsedObjectAtOffset) :
    (cacheForRequest g h parsed).TotalOn (Confined source U R) := by
  have hcache : (cacheParsedObjectIfUnresolved parsed).TotalOn (Confined source U R) := by
    apply totalOn_get.bind
    intro s
    split_ifs
    · exact totalOn_pure ()
    · apply (totalOn_getObjectHandle parsed.objectGen).bind
      intro h
      exact totalOn_setResolved h _
  apply hcache.bind
  intro _
  split_ifs
  · exact totalOn_pure ()
  · exact totalOn_setResolved h _

/-! ## The table -/

theorem Confined.removeUncompressedEntries (hs : Confined source U R s) :
    Confined source U R s.removeUncompressedEntries := by
  refine ⟨?_, hs.scanned, hs.resolving⟩
  intro g hg
  exact hs.rows g (ExtTreeMap.mem_of_mem_filter hg)

theorem Confined.insertReconstructedEntries (hs : Confined source U R s) :
    Confined source U R (s.insertReconstructedEntries source.scannedEntries) := by
  refine ⟨?_, hs.scanned, hs.resolving⟩
  intro g hg
  obtain ⟨entry, hentry⟩ := Option.isSome_iff_exists.mp (ExtTreeMap.mem_iff_isSome_getElem?.mp hg)
  rcases getElem?_insertReconstructedEntries _ _ g entry hentry with hrow | ⟨_, hscan⟩
  · exact hs.rows g (ExtTreeMap.mem_iff_isSome_getElem?.mpr (Option.isSome_of_mem hrow))
  · exact hs.scanned g hscan

theorem totalOn_reconstructXref (trigger : Error) :
    (reconstructXref source trigger).TotalOn (Confined source U R) := by
  apply totalOn_get.bind
  intro s
  split_ifs
  · exact totalOn_fail trigger
  · apply totalOn_modify_bind
    · intro t ht
      exact ht.of_sameTable ⟨rfl, rfl⟩
    apply (totalOn_forEach (fun _ => totalOn_pushWarning) _).bind
    intro _
    apply totalOn_modify_bind
    · intro t ht
      exact ht.removeUncompressedEntries
    apply totalOn_modify_bind
    · intro t ht
      exact ht.insertReconstructedEntries
    exact totalOn_ofExcept _

/-! ## Through every function -/

section

variable {tryDereference : ℕ → Program State Error Unit}
  (hderef : ∀ h, (tryDereference h).TotalOn (Confined source U R))

include hderef

theorem totalOn_run (reading : Reading α) :
    (reading.run source tryDereference : Program State ε α).TotalOn (Confined source U R) := by
  induction reading with
  | done result => exact totalOn_pure result
  | warn next ih => exact totalOn_pushWarning.attempt.bind fun result => ih result
  | indirectHandle g next ih => exact (totalOn_getObjectHandle g).bind fun h => ih h
  | directHandle v next ih => exact (totalOn_newDirect v).bind fun h => ih h
  | dereference h next ih =>
    apply (hderef h).attempt.bind
    intro result
    exact totalOn_get.bind fun s => ih _

theorem totalOn_readObjectAtOffset (offset : ℕ) (expected : QpdfObjGen) (tryRecovery : Bool) :
    (readObjectAtOffset source tryDereference offset expected tryRecovery).TotalOn
      (Confined source U R) := by
  apply totalOn_get.bind
  intro s
  apply (totalOn_mapError (totalOn_ofExcept _)).bind
  intro _
  apply (totalOn_mapError (totalOn_ofExcept _)).bind
  intro found
  apply totalOn_mapError
  apply (totalOn_run hderef _).bind
  intro parsed
  apply (totalOn_ofExcept parsed).bind
  intro value
  apply (totalOn_onlyIf totalOn_pushWarning).bind
  intro _
  apply (totalOn_run hderef _).bind
  intro finished
  apply (totalOn_ofExcept finished).bind
  intro value
  apply totalOn_get.bind
  intro s
  apply (totalOn_onlyIf (totalOn_ofExcept _)).bind
  intro _
  exact totalOn_pure _

theorem totalOn_reconstructXrefAndRetry (trigger : Error) (expected : QpdfObjGen) :
    (reconstructXrefAndRetry source tryDereference trigger expected).TotalOn
      (Confined source U R) := by
  rw [reconstructXrefAndRetry]
  split_ifs
  · apply (totalOn_reconstructXref trigger).bind
    intro _
    apply totalOn_get.bind
    intro s
    split
    · apply (totalOn_mapError (totalOn_readObjectAtOffset hderef _ _ _)).bind
      intro parsed
      exact totalOn_pure _
    · exact totalOn_pure _
  · exact totalOn_fail trigger

theorem totalOn_resolveAtOffset (g : QpdfObjGen) (h offset : ℕ) :
    (resolveAtOffset source tryDereference g h offset).TotalOn (Confined source U R) := by
  have hwarned : (do
      source.pushWarning
      setResolved h .null
      pure (.ok ()) : Program State Error (Except Error Unit)).TotalOn (Confined source U R) := by
    apply totalOn_pushWarning.bind
    intro _
    apply (totalOn_setResolved h _).bind
    intro _
    exact totalOn_pure _
  have hcached : ∀ parsed, (do
      cacheForRequest g h parsed
      pure (.ok ()) : Program State Error (Except Error Unit)).TotalOn (Confined source U R) := by
    intro parsed
    apply (totalOn_cacheForRequest g h parsed).bind
    intro _
    exact totalOn_pure _
  rw [resolveAtOffset]
  split
  · exact hwarned
  · apply (totalOn_readObjectAtOffset hderef offset g _).attempt.bind
    intro result
    rcases result with (e | e) | parsed
    · dsimp only
      split
      · apply (totalOn_reconstructXrefAndRetry hderef e g).attempt.bind
        intro result
        rcases result with e | (_ | parsed)
        · exact totalOn_pure _
        · exact hwarned
        · exact hcached parsed
      · exact totalOn_pure _
    · exact totalOn_pure _
    · exact hcached parsed

theorem totalOn_resolveMember (streamNumber : ℕ) (decoded : DecodedObjectStream)
    (member : ℕ × ℕ) :
    (resolveMember source tryDereference streamNumber decoded member).TotalOn
      (Confined source U R) := by
  apply totalOn_get.bind
  intro s
  dsimp only
  split_ifs
  · exact totalOn_pure ()
  · apply (totalOn_getObjectHandle _).bind
    intro h
    apply (totalOn_run hderef _).bind
    intro parsed
    apply (totalOn_mapError (totalOn_ofExcept parsed)).bind
    intro value
    exact totalOn_setResolved h value
  · apply totalOn_modify
    intro t ht
    exact ht.of_sameTable ⟨rfl, rfl⟩
  · exact totalOn_pure ()

theorem totalOn_resolveObjectStreamWithFailureKind (streamNumber : ℕ) :
    (resolveObjectStreamWithFailureKind source tryDereference streamNumber).TotalOn
      (Confined source U R) := by
  apply totalOn_get.bind
  intro s
  split_ifs
  · exact totalOn_pure ()
  · apply totalOn_modify_bind
    · intro t ht
      exact ht.of_sameTable ⟨rfl, rfl⟩
    exact totalOn_fail _
  · apply totalOn_modify_bind
    · intro t ht
      exact ht.of_sameTable ⟨rfl, rfl⟩
    apply (totalOn_getObjectHandle _).bind
    intro h
    apply (totalOn_mapError (hderef h)).bind
    intro _
    apply totalOn_get.bind
    intro t
    split
    · apply totalOn_modify_bind
      · intro t ht
        exact ht.of_sameTable ⟨rfl, rfl⟩
      apply (totalOn_run hderef _).bind
      intro result
      apply (totalOn_mapError (totalOn_ofExcept result)).bind
      intro decoded
      cases decoded with
      | none => exact totalOn_pure ()
      | some decoded => exact totalOn_forEach (totalOn_resolveMember hderef _ _) _
    · exact totalOn_mapError totalOn_pushWarning

theorem totalOn_resolveObjectStreamOrNull (streamNumber h : ℕ) :
    (resolveObjectStreamOrNull source tryDereference streamNumber h).TotalOn
      (Confined source U R) := by
  apply (totalOn_resolveObjectStreamWithFailureKind hderef streamNumber).attempt.bind
  intro result
  rcases result with (_ | e | e) | _
  · apply totalOn_pushWarning.bind
    intro _
    exact totalOn_nullIfUnresolved h
  · exact totalOn_fail e
  · exact totalOn_fail e
  · exact totalOn_nullIfUnresolved h

theorem totalOn_dispatch (g : QpdfObjGen) (h : ℕ) (entry : Option XrefEntry) :
    (dispatch source tryDereference g h entry).TotalOn (Confined source U R) := by
  rcases entry with _ | (_ | offset | ⟨stream, index⟩)
  · exact (totalOn_setResolved h _).bind fun _ => totalOn_pure _
  · exact (totalOn_setResolved h _).bind fun _ => totalOn_pure _
  · exact totalOn_resolveAtOffset hderef g h offset
  · exact (totalOn_resolveObjectStreamOrNull hderef stream h).attempt

theorem totalOn_resolveMarked (g : QpdfObjGen) (h : ℕ) :
    (resolveMarked source tryDereference g h).TotalOn (Confined source U R) := by
  apply totalOn_get.bind
  intro s
  split
  · apply (totalOn_warnDefaultXrefEntry g).bind
    intro _
    exact totalOn_setResolved h _
  · apply (totalOn_dispatch hderef g h _).bind
    intro result
    rcases result with e | _
    · apply totalOn_pushWarning.bind
      intro _
      exact totalOn_nullIfUnresolved h
    · exact totalOn_pure ()

end

/-! ## The depth -/

/-- The marks of before are back after a resolution below a mark of its own. -/
theorem totalOn_resolveIndirectInner {tryDereference : ℕ → Program State Error Unit}
    (hmarked : g ∉ R →
      (resolveMarked source tryDereference g h).TotalOn (Confined source U (insert g R))) :
    (resolveIndirectInner source tryDereference g h).TotalOn (Confined source U R) := by
  have hloop : (do
      source.pushWarning
      modify fun s => s.breakLoop g h : Program State Error Unit).TotalOn
        (Confined source U R) := by
    apply totalOn_pushWarning.bind
    intro _
    apply totalOn_modify
    intro t ht
    exact (ht.of_sameTable (t.sameTable_setResolved h .null)).of_sameTable ⟨rfl, rfl⟩
  intro s hs
  by_cases hg : g ∈ s.resolving
  · have heq : resolveIndirectInner source tryDereference g h s = (do
        source.pushWarning
        modify fun s => s.breakLoop g h : Program State Error Unit) s := by
      change (if g ∈ s.resolving then _ else _ : Program State Error Unit) s = _
      rw [if_pos hg]
    exact ⟨(hloop s hs).1.of_eq heq, (hloop s hs).2.of_eq heq⟩
  · have heq : resolveIndirectInner source tryDereference g h s = (do
        let result ← (resolveMarked source tryDereference g h).attempt
        modify fun s => s.unmark g
        ofExcept result : Program State Error Unit) (s.mark g) := by
      change (if g ∈ s.resolving then _ else _ : Program State Error Unit) s = _
      rw [if_neg hg]
      rfl
    have hR : g ∉ R := hs.resolving ▸ hg
    have hmark : Confined source U (insert g R) (s.mark g) :=
      ⟨hs.rows, hs.scanned, congrArg (insert g) hs.resolving⟩
    obtain ⟨hhalts, hmeets⟩ := hmarked hR (s.mark g) hmark
    constructor
    · refine Halts.of_eq ?_ heq
      apply hhalts.attempt.bind
      intro result t _
      rfl
    · refine Meets.of_eq ?_ heq
      refine Meets.bind hmeets.attempt ?_ ?_
      · rintro result t ⟨_, _, ht⟩
        apply meets_modify_bind
        apply meets_ofExcept
        refine ⟨ht.rows, ht.scanned, ?_⟩
        show t.resolving.erase g = R
        rw [ht.resolving, Finset.erase_insert hR]
      · rintro e t ⟨_, herror, _⟩
        cases herror

theorem totalOn_tryDereferenceWith {resolve : QpdfObjGen → ℕ → Program State Error Unit}
    (hresolve : ∀ g h, (resolve g h).TotalOn (Confined source U R)) (h : ℕ) :
    (tryDereferenceWith resolve h).TotalOn (Confined source U R) := by
  apply totalOn_get.bind
  intro s
  cases s.objGen h with
  | none => exact totalOn_pure ()
  | some g =>
    dsimp only
    split_ifs
    · exact totalOn_pure ()
    · exact hresolve g h

/-- An object without a row asks for no other object. -/
theorem totalOn_resolveMarked_of_absent (tryDereference : ℕ → Program State Error Unit)
    (hg : g ∉ U) :
    (resolveMarked source tryDereference g h).TotalOn (Confined source U R) := by
  intro s hs
  have hrow : s.rawEntries[g]? = none :=
    ExtTreeMap.getElem?_eq_none fun hmem => hg (hs.rows g hmem)
  have heq : resolveMarked source tryDereference g h s =
      resolveMarked source (fun _ => pure ()) g h s := by
    change (if s.rawEntries[g]?.isNone && _ && _ then _ else _ : Program State Error Unit) s =
      (if s.rawEntries[g]?.isNone && _ && _ then _ else _ : Program State Error Unit) s
    rw [hrow]
    rfl
  have htotal : (resolveMarked source (fun _ => pure ()) g h).TotalOn (Confined source U R) :=
    totalOn_resolveMarked (fun _ => totalOn_pure ()) g h
  exact ⟨(htotal s hs).1.of_eq heq, (htotal s hs).2.of_eq heq⟩

/-- The objects that are not marked bound the depth. -/
theorem totalOn_resolveQpdfObjGen (depth : ℕ) (hdepth : (U \ R).card < depth) (g : QpdfObjGen)
    (h : ℕ) : (resolveQpdfObjGen source depth g h).TotalOn (Confined source U R) := by
  induction depth generalizing R g h with
  | zero => exact absurd hdepth (Nat.not_lt_zero _)
  | succ depth ih =>
    apply totalOn_resolveIndirectInner
    intro hmark
    by_cases hU : g ∈ U
    · apply totalOn_resolveMarked
      apply totalOn_tryDereferenceWith
      apply ih
      have hlt : (U \ insert g R).card < (U \ R).card := by
        apply Finset.card_lt_card
        rw [Finset.ssubset_iff_of_subset (Finset.sdiff_subset_sdiff le_rfl (Finset.subset_insert g R))]
        exact ⟨g, Finset.mem_sdiff.mpr ⟨hU, hmark⟩, by simp⟩
      omega
    · exact totalOn_resolveMarked_of_absent _ hU

/-! ## Calls -/

/-- A depth that is enough: one more than the rows and what a line scan can add. -/
def State.depthBound (source : Source) (s : State) : ℕ :=
  s.rawEntries.size + source.scannedEntries.length + 1

/-- The objects that have a row or can get one. -/
def State.objects (source : Source) (s : State) : Finset QpdfObjGen :=
  (s.rawEntries.keys ++ source.scannedEntries.map Prod.fst).toFinset

theorem confined_objects (source : Source) (s : State) :
    Confined source (s.objects source) s.resolving s := by
  refine ⟨?_, ?_, rfl⟩
  · intro g hg
    exact List.mem_toFinset.mpr (List.mem_append_left _ (ExtTreeMap.mem_keys.mpr hg))
  · intro g hg
    exact List.mem_toFinset.mpr (List.mem_append_right _ hg)

theorem card_objects_lt (source : Source) (s : State) (R : Finset QpdfObjGen) :
    (s.objects source \ R).card < s.depthBound source := by
  have hsdiff : (s.objects source \ R).card ≤ (s.objects source).card :=
    Finset.card_le_card Finset.sdiff_subset
  have hlength : (s.objects source).card ≤
      (s.rawEntries.keys ++ source.scannedEntries.map Prod.fst).length := List.toFinset_card_le _
  rw [List.length_append, List.length_map, ExtTreeMap.length_keys] at hlength
  rw [State.depthBound]
  omega

section

variable {depth : ℕ} (hdepth : ∀ R, (U \ R).card < depth)

include hdepth

theorem totalOn_dereference (h : ℕ) :
    (dereference source depth h).TotalOn (Confined source U R) :=
  totalOn_tryDereferenceWith (totalOn_resolveQpdfObjGen depth (hdepth R)) h

theorem totalOn_resolvedHandle (g : QpdfObjGen) :
    (resolvedHandle source depth g).TotalOn (Confined source U R) := by
  have hcanonical : (canonicalHandle g).TotalOn (Confined source U R) := by
    apply totalOn_get.bind
    intro s
    cases s.objectCache[g]? with
    | none => exact totalOn_getObjectHandle g
    | some h => exact totalOn_pure h
  apply hcanonical.bind
  intro h
  have hresolve : (resolveIfUnresolved source depth g h).TotalOn (Confined source U R) := by
    apply totalOn_get.bind
    intro s
    split_ifs
    · exact totalOn_pure ()
    · exact totalOn_resolveQpdfObjGen depth (hdepth R) g h
  exact hresolve.bind fun _ => totalOn_pure h

end

/-- Every call answers. -/
theorem halts_perform (source : Source) (s : State) (op : Op) (depth : ℕ)
    (hdepth : s.depthBound source ≤ depth) : (op.perform source depth).Halts s := by
  have hbound : ∀ R, (s.objects source \ R).card < depth := fun R =>
    (card_objects_lt source s R).trans_le hdepth
  have hs := confined_objects source s
  cases op with
  | fetch g => rfl
  | direct v => rfl
  | dereference h => exact (totalOn_dereference hbound h s hs).1
  | replaceObject r w =>
    apply Halts.bind
    · apply Halts.bind halts_get
      intro u _ _
      split_ifs <;> rfl
    · intro _ _ _
      rfl
  | swapObjects first second =>
    have hfirst := totalOn_resolvedHandle hbound first s hs
    apply hfirst.1.bind
    intro h t ht
    have hsecond := totalOn_resolvedHandle hbound second t (hfirst.2 _ t ht)
    apply hsecond.1.bind
    intro h' u _
    rfl
  | removeObject r => rfl

end Flpdf.Resolver
