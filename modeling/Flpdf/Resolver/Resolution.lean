import Flpdf.Resolver.Runs

/-!
# A resolution settles its handle

A resolution that is asked for an unresolved handle and does not fail leaves a value
in it; the marks of the objects being resolved are the ones of before, and every
value that was there stays.
-/

namespace Flpdf.Resolver

open Program Std

variable {source : Source} {streamed : QpdfObjGen → Prop} {s t : State} {h : ℕ} {g : QpdfObjGen}
  {tryDereference : ℕ → Program State Error Unit}

/-- The shared value behind a handle. -/
def State.behind (s : State) (h c : ℕ) : Prop := s.slot h = some c

/-- The resolution of a handle went on from `s` to `t`, and with that success the
handle has a value. -/
def Settled (source : Source) (streamed : QpdfObjGen → Prop) (s : State) (h : ℕ)
    (success : Prop) (t : State) : Prop :=
  Since source (s.behind h) streamed s t ∧ (success → (t.value h).isSome)

theorem relates_warnDefaultXrefEntry {opened : ℕ → Prop} (g : QpdfObjGen) :
    (warnDefaultXrefEntry source g).Relates (Keeps source opened streamed) := by
  apply Relates.bind relates_get
  intro s
  split_ifs
  · apply Relates.bind relates_pushWarning
    intro _
    exact relates_modify fun t => keeps_bookkeeping t.warningCount _ _ _
  · exact relates_pure _

section

variable (hs : s.WellFormed) (hin : ∀ g k, s.InStream g k → streamed g)
  (hcached : s.objectCache[g]? = some h)

include hs hcached in
/-- The handle stays the registered one. -/
theorem Since.cached (ht : Since source (s.behind h) streamed s t) :
    t.objGen h = some g ∧ ∀ c, t.slot h = some c → s.behind h c := by
  refine ⟨ht.wellFormed.cached (ht.progress.cache hcached), ?_⟩
  intro c hc
  obtain ⟨c', hc', _⟩ := State.slot_of_objGen (hs.cached hcached)
  rw [ht.progress.slot hc', Option.some.injEq] at hc
  rw [← hc]
  exact hc'

include hs hin hcached

theorem settled_setResolved_null (ht : Since source (s.behind h) streamed s t) (success : Prop) :
    Settled source streamed s h success (t.setResolved h .null) := by
  obtain ⟨hg, hback⟩ := ht.cached hs hcached
  refine ⟨ht.keeps hin (keeps_setResolved_null hback), ?_⟩
  intro _
  rw [State.value_setResolved_self hg]
  rfl

theorem meets_nullIfUnresolved (ht : Since source (s.behind h) streamed s t) :
    (nullIfUnresolved h).Meets t fun result t' =>
      Settled source streamed s h (result = .ok ()) t' := by
  apply meets_get_bind
  split_ifs with hresolved
  · exact meets_pure ⟨ht, fun _ => hresolved⟩
  · exact meets_modify (settled_setResolved_null hs hin hcached ht _)

theorem meets_cacheForRequest (parsed : ParsedObjectAtOffset)
    (ht : Since source (s.behind h) streamed s t) :
    (cacheForRequest g h parsed).Meets t fun result t' =>
      Settled source streamed s h (result = .ok ()) t' := by
  have hcache : (cacheParsedObjectIfUnresolved parsed).Meets t fun _ t' =>
      Since source (s.behind h) streamed s t' ∧ (parsed.objectGen = g → (t'.value h).isSome) := by
    intro result t' hrun
    have hsince := ht.meets hin (relates_cacheParsedObjectIfUnresolved parsed) result t' hrun
    refine ⟨hsince, ?_⟩
    intro hg
    change (if t.registeredIsResolved parsed.objectGen then pure () else cacheParsedObject parsed :
      Program State Error Unit) t = some (result, t') at hrun
    have hreg := ht.progress.cache hcached
    split_ifs at hrun with hresolved
    · cases hrun
      rwa [State.registeredIsResolved, hg, hreg, Option.any_some] at hresolved
    · have ht' : t' = (t.getObjectHandle parsed.objectGen).setResolved
          (t.handleOf parsed.objectGen) parsed.value := by
        cases hrun
        rfl
      rw [hg, State.getObjectHandle_of_cached ht.wellFormed hreg, State.handleOf, hreg,
        Option.getD_some] at ht'
      rw [ht', State.value_setResolved_self (ht.wellFormed.cached hreg)]
      rfl
  refine hcache.bind ?_ ?_
  · rintro _ t' ⟨ht', hsome⟩
    split_ifs with hg
    · exact meets_pure ⟨ht', fun _ => hsome hg⟩
    · exact meets_modify (settled_setResolved_null hs hin hcached ht' _)
  · rintro e t' ⟨ht', _⟩
    exact ⟨ht', fun h => by cases h⟩

section

variable (hderef : ∀ h, (tryDereference h).Relates (Keeps source (fun _ => False) streamed))

include hderef

theorem meets_resolveObjectStreamOrNull (streamNumber : ℕ)
    (ht : Since source (s.behind h) streamed s t) :
    (resolveObjectStreamOrNull source tryDereference streamNumber h).Meets t fun result t' =>
      Settled source streamed s h (result = .ok ()) t' := by
  refine Meets.bind (ht.meets hin
    (relates_resolveObjectStreamWithFailureKind hderef streamNumber).attempt) ?_ ?_
  · intro result t₁ ht₁
    cases result with
    | ok _ => exact meets_nullIfUnresolved hs hin hcached ht₁
    | error e =>
      cases e with
      | memberWarning =>
        refine Meets.bind (ht₁.meets hin relates_pushWarning) ?_ ?_
        · intro _ t₂ ht₂
          exact meets_nullIfUnresolved hs hin hcached ht₂
        · intro _ t₂ ht₂
          exact ⟨ht₂, fun h => by cases h⟩
      | warningDelivery e => exact meets_fail ⟨ht₁, fun h => by cases h⟩
      | operation e => exact meets_fail ⟨ht₁, fun h => by cases h⟩
  · intro _ t₁ ht₁
    exact ⟨ht₁, fun h => by cases h⟩

/-- The outcome of a dispatch is a success when nothing was raised. -/
theorem meets_resolveAtOffset (offset : ℕ) (ht : Since source (s.behind h) streamed s t) :
    (resolveAtOffset source tryDereference g h offset).Meets t fun result t' =>
      Settled source streamed s h (result = .ok (.ok ())) t' := by
  have hwarned : ∀ t, Since source (s.behind h) streamed s t →
      (do
        source.pushWarning
        setResolved h .null
        pure (.ok ()) : Program State Error (Except Error Unit)).Meets t fun result t' =>
          Settled source streamed s h (result = .ok (.ok ())) t' := by
    intro t ht
    refine Meets.bind (ht.meets hin relates_pushWarning) ?_ ?_
    · intro _ t₁ ht₁
      apply meets_modify_bind
      exact meets_pure (settled_setResolved_null hs hin hcached ht₁ _)
    · intro _ t₁ ht₁
      exact ⟨ht₁, fun h => by cases h⟩
  have hcachedRequest : ∀ parsed t, Since source (s.behind h) streamed s t →
      (do
        cacheForRequest g h parsed
        pure (.ok ()) : Program State Error (Except Error Unit)).Meets t fun result t' =>
          Settled source streamed s h (result = .ok (.ok ())) t' := by
    intro parsed t ht
    refine Meets.bind (meets_cacheForRequest hs hin hcached parsed ht) ?_ ?_
    · intro _ t₁ ht₁
      exact meets_pure ⟨ht₁.1, fun _ => ht₁.2 rfl⟩
    · intro _ t₁ ht₁
      exact ⟨ht₁.1, fun h => by cases h⟩
  have hderef' : ∀ h', (tryDereference h').Relates (Keeps source (s.behind h) streamed) :=
    relates_tryDereference hderef
  rw [resolveAtOffset]
  split
  · exact hwarned t ht
  · refine Meets.bind (ht.meets hin (relates_readObjectAtOffset hderef' offset g _).attempt) ?_ ?_
    · intro result t₁ ht₁
      cases result with
      | ok parsed => exact hcachedRequest parsed t₁ ht₁
      | error e =>
        cases e with
        | body e => exact meets_pure ⟨ht₁, fun h => by cases h⟩
        | header e =>
          dsimp only
          split
          · refine Meets.bind (ht₁.meets hin
              (relates_reconstructXrefAndRetry hderef' e g).attempt) ?_ ?_
            · intro result t₂ ht₂
              cases result with
              | ok parsed =>
                cases parsed with
                | some parsed => exact hcachedRequest parsed t₂ ht₂
                | none => exact hwarned t₂ ht₂
              | error e => exact meets_pure ⟨ht₂, fun h => by cases h⟩
            · intro _ t₂ ht₂
              exact ⟨ht₂, fun h => by cases h⟩
          · exact meets_pure ⟨ht₁, fun h => by cases h⟩
    · intro _ t₁ ht₁
      exact ⟨ht₁, fun h => by cases h⟩

theorem meets_dispatch (entry : Option XrefEntry) (ht : Since source (s.behind h) streamed s t) :
    (dispatch source tryDereference g h entry).Meets t fun result t' =>
      Settled source streamed s h (result = .ok (.ok ())) t' := by
  have hnull : (do
      setResolved h .null
      pure (.ok ()) : Program State Error (Except Error Unit)).Meets t fun result t' =>
        Settled source streamed s h (result = .ok (.ok ())) t' := by
    apply meets_modify_bind
    exact meets_pure (settled_setResolved_null hs hin hcached ht _)
  cases entry with
  | none => exact hnull
  | some entry =>
    cases entry with
    | free next => exact hnull
    | uncompressed offset => exact meets_resolveAtOffset hs hin hcached hderef offset ht
    | compressed stream index =>
      refine (meets_resolveObjectStreamOrNull hs hin hcached hderef stream ht).attempt.mono ?_
      rintro _ t' ⟨result, rfl, hsettled⟩
      refine ⟨hsettled.1, ?_⟩
      intro heq
      rw [Except.ok.injEq] at heq
      exact hsettled.2 heq

theorem meets_resolveMarked :
    (resolveMarked source tryDereference g h).Meets s fun result t =>
      Settled source streamed s h (result = .ok ()) t := by
  have hstart : Since source (s.behind h) streamed s s := .refl hs
  apply meets_get_bind
  split
  · refine Meets.bind (hstart.meets hin (relates_warnDefaultXrefEntry g)) ?_ ?_
    · intro _ t₁ ht₁
      exact meets_modify (settled_setResolved_null hs hin hcached ht₁ _)
    · intro _ t₁ ht₁
      exact ⟨ht₁, fun h => by cases h⟩
  · refine Meets.bind (meets_dispatch hs hin hcached hderef _ hstart) ?_ ?_
    · intro result t₁ ht₁
      cases result with
      | ok _ => exact meets_pure ⟨ht₁.1, fun _ => ht₁.2 rfl⟩
      | error e =>
        refine Meets.bind (ht₁.1.meets hin relates_pushWarning) ?_ ?_
        · intro _ t₂ ht₂
          exact meets_nullIfUnresolved hs hin hcached ht₂
        · intro _ t₂ ht₂
          exact ⟨ht₂, fun h => by cases h⟩
    · intro _ t₁ ht₁
      exact ⟨ht₁.1, fun h => by cases h⟩

end

end

/-! ## The marks -/

theorem State.WellFormed.marked (hs : s.WellFormed) (resolving : Finset QpdfObjGen) :
    ({ s with resolving := resolving } : State).WellFormed :=
  ⟨hs.slot_lt, hs.cached, hs.registered, hs.decoded_nodup, hs.decoded_subset, hs.rebuilds_le,
    hs.rebuilds_eq⟩

/-- What happened between a mark and its removal happened between the states without it. -/
theorem Since.unmark {opened : ℕ → Prop} (ht : Since source opened streamed (s.mark g) t)
    (hg : g ∉ s.resolving) : Since source opened streamed s (t.unmark g) := by
  obtain ⟨hwf, hprogress⟩ := ht
  refine ⟨hwf.marked _, ⟨hprogress.slot, hprogress.sharedCount, hprogress.objGen, hprogress.cache,
    hprogress.inStream, hprogress.rows, hprogress.streams, hprogress.decoded, ?_,
    hprogress.resolved, hprogress.value, hprogress.nulls, hprogress.loops⟩⟩
  show t.resolving.erase g = s.resolving
  rw [hprogress.resolving]
  exact Finset.erase_insert hg

/-- The value of a handle that was unresolved is nothing that had to be kept. -/
theorem Since.closeHandle (ht : Since source (s.behind h) streamed s t) (hun : s.value h = none) :
    Since source (fun _ => False) streamed s t := by
  obtain ⟨hwf, hprogress⟩ := ht
  refine ⟨hwf, ⟨hprogress.slot, hprogress.sharedCount, hprogress.objGen, hprogress.cache,
    hprogress.inStream, hprogress.rows, hprogress.streams, hprogress.decoded, hprogress.resolving,
    hprogress.resolved, ?_, hprogress.nulls, hprogress.loops⟩⟩
  intro c hc hv
  rcases hprogress.value c hc hv with hopen | hrest
  · rw [State.value_of_slot hopen] at hun
    exact absurd hun hv
  · exact .inr hrest

theorem meets_pushWarning (hs : s.WellFormed) (hin : ∀ g k, s.InStream g k → streamed g) (h : ℕ) :
    source.pushWarning.Meets s fun _ t => Since source (fun _ => False) streamed s t ∧
      t.value h = s.value h ∧ t.objGen h = s.objGen h := by
  intro result t hrun
  cases hrun
  exact ⟨(Since.refl hs).keeps hin (keeps_bookkeeping _ _ _ _), rfl, rfl⟩

/-- The loop gives null to the handle that is being resolved. -/
theorem since_breakLoop (hs : s.WellFormed) (hun : s.value h = none) (hg : s.objGen h = some g) :
    Since source (fun _ => False) streamed s (s.breakLoop g h) := by
  obtain ⟨c, hc, hobj⟩ := State.slot_of_objGen hg
  have hsome := Option.isSome_of_mem hobj
  have hopen : (s.shared c).value = none := by rwa [State.value_of_slot hc] at hun
  have hset : Progress source (fun _ => False) streamed s (s.setResolved h .null) :=
    progress_setResolved hs hc hsome (.inr hopen) (.inl rfl)
  have hwf := wellFormed_setResolved (v := ObjectValue.null) hs hc hsome
  refine ⟨⟨hwf.slot_lt, hwf.cached, hwf.registered, hwf.decoded_nodup, hwf.decoded_subset,
    hwf.rebuilds_le, hwf.rebuilds_eq⟩, ⟨hset.slot, hset.sharedCount, hset.objGen, hset.cache,
    hset.inStream, hset.rows, hset.streams, hset.decoded, hset.resolving, hset.resolved,
    hset.value, hset.nulls, ?_⟩⟩
  intro g' hin hlt
  have hloops : (s.breakLoop g h).loops = s.loops ++ [g] := rfl
  by_cases hgg : g' = g
  · subst hgg
    obtain ⟨g'', hobj', hcached⟩ := hs.registered hun
    rw [hg, Option.some.injEq] at hobj'
    have hcached' : (s.setResolved h .null).objectCache[g']? = some h := by
      rw [hobj']
      exact hset.cache hcached
    exact ⟨h, hcached', State.value_setResolved_self hg⟩
  · have hcount : (s.loops ++ [g]).count g' = s.loops.count g' := by
      rw [List.count_append, List.count_singleton, if_neg (by simpa using Ne.symm hgg)]
      rfl
    rw [hloops, hcount] at hlt
    exact absurd hlt (lt_irrefl _)

section

variable (hs : s.WellFormed) (hin : ∀ g k, s.InStream g k → streamed g)

include hs hin

/-- A resolution of an unresolved handle. -/
theorem meets_resolveIndirectInner
    (hderef : ∀ h, (tryDereference h).Relates (Keeps source (fun _ => False) streamed))
    (hg : s.objGen h = some g) (hun : s.value h = none) :
    (resolveIndirectInner source tryDereference g h).Meets s fun result t =>
      Since source (fun _ => False) streamed s t ∧ (result = .ok () → (t.value h).isSome) := by
  have hcached : s.objectCache[g]? = some h := by
    obtain ⟨g', hobj, hcached⟩ := hs.registered hun
    rw [hg, Option.some.injEq] at hobj
    rwa [hobj]
  apply meets_get_bind
  split_ifs with hloop
  · refine Meets.bind (meets_pushWarning hs hin h) ?_ ?_
    · rintro _ t ⟨ht, hvalue, hobj⟩
      rw [← hobj] at hg
      apply meets_modify
      have hbreak : Since source (fun _ => False) streamed t (t.breakLoop g h) :=
        since_breakLoop ht.wellFormed (hvalue.trans hun) hg
      refine ⟨⟨hbreak.wellFormed, ht.progress.trans hbreak.progress⟩, ?_⟩
      intro _
      show ((t.setResolved h .null).value h).isSome
      rw [State.value_setResolved_self hg]
      rfl
    · rintro _ t ⟨ht, _⟩
      exact ⟨ht, fun h => by cases h⟩
  · apply meets_modify_bind
    have hmarked : (resolveMarked source tryDereference g h).Meets (s.mark g) fun result t =>
        Settled source streamed (s.mark g) h (result = .ok ()) t :=
      meets_resolveMarked (hs.marked _) hin hcached hderef
    have hunmark : ∀ t, Since source ((s.mark g).behind h) streamed (s.mark g) t →
        Since source (fun _ => False) streamed s (t.unmark g) := fun t ht =>
      (ht.unmark hloop).closeHandle hun
    refine Meets.bind hmarked.attempt ?_ ?_
    · rintro result t ⟨result', heq, hsettled⟩
      cases heq
      apply meets_modify_bind
      exact meets_ofExcept ⟨hunmark t hsettled.1, hsettled.2⟩
    · rintro _ t ⟨_, heq, _⟩
      cases heq

end

theorem tryDereferenceWith_of_objGen {resolve : QpdfObjGen → ℕ → Program State Error Unit}
    (hg : s.objGen h = some g) : tryDereferenceWith resolve h s =
      (if s.isResolved h then pure () else resolve g h : Program State Error Unit) s := by
  rw [tryDereferenceWith]
  change Program.bind Program.get _ s = _
  simp only [Program.bind, Program.get, hg]

/-- Dereferencing settles a handle that was ever made, and leaves the rest. -/
theorem meets_tryDereferenceWith {resolve : QpdfObjGen → ℕ → Program State Error Unit}
    (hresolve : ∀ s, s.WellFormed → (∀ g k, s.InStream g k → streamed g) → ∀ g h,
      s.objGen h = some g → s.value h = none → (resolve g h).Meets s fun result t =>
        Since source (fun _ => False) streamed s t ∧ (result = .ok () → (t.value h).isSome))
    (hs : s.WellFormed) (hin : ∀ g k, s.InStream g k → streamed g) (h : ℕ) :
    (tryDereferenceWith resolve h).Meets s fun result t =>
      Since source (fun _ => False) streamed s t ∧ (result = .ok () → (t.value h).isSome) := by
  apply meets_get_bind
  cases hun : s.value h with
  | some v =>
    have hresolved : s.isResolved h = true := by rw [State.isResolved, hun]; rfl
    have hdone : (pure () : Program State Error Unit).Meets s fun result t =>
        Since source (fun _ => False) streamed s t ∧ (result = .ok () → (t.value h).isSome) :=
      meets_pure ⟨.refl hs, fun _ => hresolved⟩
    cases hg : s.objGen h with
    | none => exact hdone
    | some g =>
      dsimp only
      rw [if_pos hresolved]
      exact hdone
  | none =>
    obtain ⟨g, hg, _⟩ := hs.registered hun
    have hresolved : ¬s.isResolved h = true := by rw [State.isResolved, hun]; simp
    rw [hg]
    dsimp only
    rw [if_neg hresolved]
    exact hresolve s hs hin g h hg hun

/-- Resolution at every depth. -/
theorem meets_resolveQpdfObjGen (depth : ℕ) (hs : s.WellFormed)
    (hin : ∀ g k, s.InStream g k → streamed g) (hg : s.objGen h = some g)
    (hun : s.value h = none) :
    (resolveQpdfObjGen source depth g h).Meets s fun result t =>
      Since source (fun _ => False) streamed s t ∧ (result = .ok () → (t.value h).isSome) := by
  induction depth generalizing s g h with
  | zero => exact meets_outOfFuel
  | succ depth ih =>
    apply meets_resolveIndirectInner hs hin ?_ hg hun
    intro h'
    apply relates_of_since
    intro t ht hin'
    exact (meets_tryDereferenceWith (fun _ hs hin _ _ => ih hs hin) ht hin' h').mono
      fun _ _ h => h.1

end Flpdf.Resolver
