import Flpdf.Resolver.Progress

/-!
# Every part of a resolution keeps what is there

The functions of a resolution are followed one by one, for any dereferencing that
keeps the state in order. A handle that is being resolved is the only value open to
assignment; a first decoding opens the members of its object stream.
-/

namespace Flpdf.Resolver

open Program Std

variable {source : Source} {opened : ℕ → Prop} {streamed : QpdfObjGen → Prop} {s t t' : State}
  {h c k : ℕ} {g : QpdfObjGen} {v : ObjectValue} {ε α β : Type}

/-! ## States since a state -/

/-- What a resolution has reached from a state in order. -/
structure Since (source : Source) (opened : ℕ → Prop) (streamed : QpdfObjGen → Prop)
    (s t : State) : Prop where
  wellFormed : t.WellFormed
  progress : Progress source opened streamed s t

theorem Since.keeps (ht : Since source opened streamed s t)
    (hin : ∀ g k, s.InStream g k → streamed g) (hkeeps : Keeps source opened streamed t t') :
    Since source opened streamed s t' := by
  have hstep := hkeeps ht.wellFormed fun g k hk => hin g k (ht.progress.inStream hk)
  exact ⟨hstep.1, ht.progress.trans hstep.2⟩

theorem Since.meets {p : Program State ε α} (ht : Since source opened streamed s t)
    (hin : ∀ g k, s.InStream g k → streamed g) (hp : p.Relates (Keeps source opened streamed)) :
    p.Meets t fun _ t' => Since source opened streamed s t' := by
  refine (hp t).mono ?_
  intro _ t' hkeeps
  exact ht.keeps hin hkeeps

/-- What follows a state since `s`, with the way from the one to the other. -/
theorem Since.meets_progress {p : Program State ε α} (ht : Since source opened streamed s t)
    (hin : ∀ g k, s.InStream g k → streamed g) (hp : p.Relates (Keeps source opened streamed)) :
    p.Meets t fun _ t' => Since source opened streamed s t' ∧
      Progress source opened streamed t t' := by
  refine (hp t).mono ?_
  intro _ t' hkeeps
  have hstep := hkeeps ht.wellFormed fun g k hk => hin g k (ht.progress.inStream hk)
  exact ⟨⟨hstep.1, ht.progress.trans hstep.2⟩, hstep.2⟩

/-- A program that goes on from every state since a state in order keeps that order. -/
theorem relates_of_since {p : Program State ε α}
    (hp : ∀ s, s.WellFormed → (∀ g k, s.InStream g k → streamed g) →
      p.Meets s fun _ t => Since source opened streamed s t) :
    p.Relates (Keeps source opened streamed) := by
  intro s result t hrun hs hin
  have hsince := hp s hs hin result t hrun
  exact ⟨hsince.wellFormed, hsince.progress⟩

theorem Since.refl (hs : s.WellFormed) : Since source opened streamed s s :=
  ⟨hs, .refl source opened streamed s⟩

/-! ## Reading -/

theorem relates_newDirect : (newDirect v : Program State ε ℕ).Relates
    (Keeps source opened streamed) := by
  apply Relates.bind relates_get
  intro s
  apply Relates.bind
  · exact relates_modify fun _ => keeps_newSlot
  · intro _
    exact relates_pure _

variable {tryDereference : ℕ → Program State Error Unit}

section

variable (hderef : ∀ h, (tryDereference h).Relates (Keeps source opened streamed))

include hderef

theorem relates_run (reading : Reading α) :
    (reading.run source tryDereference : Program State ε α).Relates
      (Keeps source opened streamed) := by
  induction reading with
  | done result => exact relates_pure result
  | warn next ih => exact Relates.bind relates_pushWarning.attempt fun result => ih result
  | indirectHandle g next ih => exact Relates.bind relates_getObjectHandle fun h => ih h
  | directHandle v next ih => exact Relates.bind relates_newDirect fun h => ih h
  | dereference h next ih =>
    apply Relates.bind (hderef h).attempt
    intro result
    exact Relates.bind relates_get fun s => ih _

theorem relates_readBody (offset : ℕ) (expected found : QpdfObjGen) (initiallyResolved : Bool) :
    (readBody source tryDereference offset expected found initiallyResolved).Relates
      (Keeps source opened streamed) := by
  apply Relates.bind (relates_run hderef _)
  intro parsed
  apply Relates.bind (relates_ofExcept parsed)
  intro value
  apply Relates.bind (relates_onlyIf relates_pushWarning)
  intro _
  apply Relates.bind (relates_run hderef _)
  intro finished
  apply Relates.bind (relates_ofExcept finished)
  intro value
  apply Relates.bind relates_get
  intro s
  apply Relates.bind (relates_onlyIf (relates_ofExcept _))
  intro _
  exact relates_pure _

theorem relates_readObjectAtOffset (offset : ℕ) (expected : QpdfObjGen) (tryRecovery : Bool) :
    (readObjectAtOffset source tryDereference offset expected tryRecovery).Relates
      (Keeps source opened streamed) := by
  apply Relates.bind relates_get
  intro s
  apply Relates.bind (relates_mapError (relates_ofExcept _))
  intro _
  apply Relates.bind (relates_mapError (relates_ofExcept _))
  intro found
  exact relates_mapError (relates_readBody hderef _ _ _ _)

end

/-! ## The cache -/

theorem keeps_cacheParsedObject (hun : s.registeredIsResolved g = false) :
    Keeps source opened streamed s ((s.getObjectHandle g).setResolved (s.handleOf g) v) := by
  have hget : Keeps source opened streamed s (s.getObjectHandle g) := keeps_getObjectHandle
  intro hs hin
  have hstep := hget hs hin
  have hvalue : (s.getObjectHandle g).value (s.handleOf g) = none := by
    cases hg : s.objectCache[g]? with
    | some h =>
      rw [State.registeredIsResolved, hg, Option.any_some, State.isResolved_eq_false] at hun
      rw [State.getObjectHandle_of_cached hs hg, State.handleOf, hg, Option.getD_some, hun]
    | none =>
      rw [State.getObjectHandle_of_absent hg, State.handleOf, hg, Option.getD_none]
      show (s.newSlot ⟨some g, none⟩).value s.slotCount = none
      rw [hs.newSlot_value, if_pos rfl]
  have hset : Keeps source opened streamed _ ((s.getObjectHandle g).setResolved (s.handleOf g) v) :=
    keeps_setResolved hvalue
  have hlast := hset hstep.1 fun g' k hk => hin g' k (hstep.2.inStream hk)
  exact ⟨hlast.1, hstep.2.trans hlast.2⟩

theorem relates_cacheParsedObjectIfUnresolved (parsed : ParsedObjectAtOffset) :
    (cacheParsedObjectIfUnresolved parsed).Relates (Keeps source opened streamed) := by
  intro s result t hrun
  change (if s.registeredIsResolved parsed.objectGen then pure () else cacheParsedObject parsed :
    Program State Error Unit) s = some (result, t) at hrun
  split_ifs at hrun with hun
  · exact relates_pure () s result t hrun
  · have ht : t = (s.getObjectHandle parsed.objectGen).setResolved (s.handleOf parsed.objectGen)
        parsed.value := by
      cases hrun
      rfl
    rw [ht]
    exact keeps_cacheParsedObject (Bool.not_eq_true _ ▸ hun)

/-! ## Rebuilding the table -/

/-- The rows a change of the table may leave: rows of before, and rows of the line scan
with an offset. -/
theorem keeps_rows (rows : ExtTreeMap QpdfObjGen XrefEntry)
    (hrows : ∀ g entry, rows[g]? = some entry → s.rawEntries[g]? = some entry ∨
      isUncompressed entry = true ∧ g ∈ source.scannedEntries.map Prod.fst) :
    Keeps source opened streamed s { s with rawEntries := rows } := by
  intro hs _
  have hrefl := Progress.refl source opened streamed s
  refine ⟨⟨hs.slot_lt, hs.cached, hs.registered, hs.decoded_nodup, hs.decoded_subset,
    hs.rebuilds_le, hs.rebuilds_eq⟩, ⟨hrefl.slot, hrefl.sharedCount, hrefl.objGen, hrefl.cache,
    ?_, ?_, hrefl.streams, hrefl.decoded, hrefl.resolving, hrefl.resolved, ?_, hrefl.nulls, hrefl.loops⟩⟩
  · rintro g k ⟨i, hi⟩
    rcases hrows g _ hi with hrow | ⟨hfalse, _⟩
    · exact ⟨i, hrow⟩
    · cases hfalse
  · intro g hg
    obtain ⟨entry, hentry⟩ := Option.isSome_iff_exists.mp (ExtTreeMap.mem_iff_isSome_getElem?.mp hg)
    rcases hrows g entry hentry with hrow | ⟨_, hscan⟩
    · exact .inl (ExtTreeMap.mem_iff_isSome_getElem?.mpr (Option.isSome_of_mem hrow))
    · exact .inr hscan
  · intro c _ _
    exact .inr (.inl rfl)

theorem keeps_removeUncompressedEntries :
    Keeps source opened streamed s s.removeUncompressedEntries := by
  apply keeps_rows
  intro g entry hentry
  rw [ExtTreeMap.getElem?_filter', Option.filter_eq_some_iff] at hentry
  exact .inl hentry.1

theorem getElem?_insertReconstructedEntries (scanned : List (QpdfObjGen × ℕ))
    (rows : ExtTreeMap QpdfObjGen XrefEntry) (g : QpdfObjGen) (entry : XrefEntry)
    (hentry : (scanned.foldl (fun rows row => rows.insert row.1 (.uncompressed row.2)) rows)[g]? =
      some entry) :
    rows[g]? = some entry ∨ isUncompressed entry = true ∧ g ∈ scanned.map Prod.fst := by
  induction scanned generalizing rows with
  | nil => exact .inl hentry
  | cons row rest ih =>
    rcases ih _ hentry with hrow | ⟨hun, hmem⟩
    · rw [getElem?_insert_ite] at hrow
      by_cases hg : row.1 = g
      · rw [if_pos hg, Option.some.injEq] at hrow
        rw [← hrow, ← hg]
        exact .inr ⟨rfl, List.mem_cons_self⟩
      · rw [if_neg hg] at hrow
        exact .inl hrow
    · exact .inr ⟨hun, List.mem_cons_of_mem _ hmem⟩

theorem keeps_insertReconstructedEntries :
    Keeps source opened streamed s (s.insertReconstructedEntries source.scannedEntries) :=
  keeps_rows _ (getElem?_insertReconstructedEntries source.scannedEntries s.rawEntries)

theorem keeps_beginXrefReconstruction (hrec : s.reconstructedXref = false) :
    Keeps source opened streamed s s.beginXrefReconstruction := by
  intro hs _
  have hrefl := Progress.refl source opened streamed s
  have hzero := hs.rebuilds_eq hrec
  refine ⟨⟨hs.slot_lt, hs.cached, hs.registered, hs.decoded_nodup, hs.decoded_subset, ?_, ?_⟩,
    ⟨hrefl.slot, hrefl.sharedCount, hrefl.objGen, hrefl.cache, hrefl.inStream, hrefl.rows,
      hrefl.streams, hrefl.decoded, hrefl.resolving, hrefl.resolved, hrefl.value, hrefl.nulls, hrefl.loops⟩⟩
  · show s.rebuilds + 1 ≤ 1
    omega
  · intro h
    cases h

theorem relates_reconstructXref (trigger : Error) :
    (reconstructXref source trigger).Relates (Keeps source opened streamed) := by
  apply relates_of_since
  intro s hs hin
  have hafter : (do
      forEach (fun _ => source.pushWarning) [(), (), ()]
      modify State.removeUncompressedEntries
      modify fun t => t.insertReconstructedEntries source.scannedEntries
      ofExcept source.scanResult : Program State Error Unit).Relates
        (Keeps source opened streamed) := by
    apply Relates.bind (relates_forEach fun _ _ => relates_pushWarning)
    intro _
    apply relates_modify_bind
    · intro t
      exact keeps_removeUncompressedEntries
    apply relates_modify_bind
    · intro t
      exact keeps_insertReconstructedEntries
    exact relates_ofExcept _
  apply meets_get_bind
  split_ifs with hrec
  · exact meets_fail (.refl hs)
  · apply meets_modify_bind
    have hbegin : Since source opened streamed s s.beginXrefReconstruction :=
      (Since.refl hs).keeps hin (keeps_beginXrefReconstruction (Bool.eq_false_iff.mpr hrec))
    exact hbegin.meets hin hafter

theorem relates_reconstructXrefAndRetry
    (hderef : ∀ h, (tryDereference h).Relates (Keeps source opened streamed)) (trigger : Error)
    (expected : QpdfObjGen) :
    (reconstructXrefAndRetry source tryDereference trigger expected).Relates
      (Keeps source opened streamed) := by
  unfold reconstructXrefAndRetry
  split_ifs
  · apply Relates.bind (relates_reconstructXref trigger)
    intro _
    apply Relates.bind relates_get
    intro s
    split
    · apply Relates.bind (relates_mapError (relates_readObjectAtOffset hderef _ _ _))
      intro parsed
      exact relates_pure _
    · exact relates_pure _
  · exact relates_fail trigger

/-! ## Object streams -/

/-- The values a decoding of object stream `k` may assign. -/
def openedMembers (opened : ℕ → Prop) (s : State) (k c : ℕ) : Prop :=
  opened c ∨ s.sharedCount ≤ c ∨ ∃ g, (s.shared c).objGen = some g ∧ s.InStream g k

/-- A first decoding accounts for the values it assigned. -/
theorem Since.closeMembers (ht : Since source opened streamed s t)
    (ht' : Since source (openedMembers opened t k) streamed t t')
    (hnot : k ∉ s.resolvedObjectStreams) (hmem : k ∈ t.resolvedObjectStreams) :
    Since source opened streamed s t' := by
  have hprogress : Progress source (openedMembers opened t k) streamed s t' :=
    (ht.progress.mono fun _ => .inl).trans ht'.progress
  refine ⟨ht'.wellFormed, ⟨hprogress.slot, hprogress.sharedCount, hprogress.objGen,
    hprogress.cache, hprogress.inStream, hprogress.rows, hprogress.streams, hprogress.decoded,
    hprogress.resolving, hprogress.resolved, ?_, hprogress.nulls, hprogress.loops⟩⟩
  intro c hc hv
  rcases hprogress.value c hc hv with hopen | hrest
  · rcases hopen with hopen | hle | ⟨g, hg, hin⟩
    · exact .inl hopen
    · exact absurd (hc.trans_le ht.progress.sharedCount) (Nat.not_lt.mpr hle)
    · rw [ht.progress.objGen c hc] at hg
      exact .inr (.inr ⟨g, k, hg, ht.progress.inStream hin, hnot, ht'.progress.streams hmem⟩)
  · exact .inr hrest

/-- A member is assigned without a look at what its slot holds. -/
theorem Since.setResolved_member (ht : Since source (openedMembers opened s k) streamed s t)
    (hin : ∀ g k, s.InStream g k → streamed g) (hcached : t.objectCache[g]? = some h)
    (hmember : s.InStream g k) :
    Since source (openedMembers opened s k) streamed s (t.setResolved h v) := by
  obtain ⟨c, hc, hobj⟩ := State.slot_of_objGen (ht.wellFormed.cached hcached)
  have hsome := Option.isSome_of_mem hobj
  have hopen : openedMembers opened s k c := by
    by_cases hlt : c < s.sharedCount
    · rw [ht.progress.objGen c hlt] at hobj
      exact .inr (.inr ⟨g, hobj, hmember⟩)
    · exact .inr (.inl (Nat.le_of_not_lt hlt))
  exact ⟨wellFormed_setResolved ht.wellFormed hc hsome,
    ht.progress.trans (progress_setResolved ht.wellFormed hc hsome (.inl hopen)
      (.inr (.inr ⟨g, hobj, hin g k hmember⟩)))⟩

theorem State.handleOf_cached (hs : s.WellFormed) :
    (s.getObjectHandle g).objectCache[g]? = some (s.handleOf g) := by
  cases hg : s.objectCache[g]? with
  | some h =>
    rw [State.getObjectHandle_of_cached hs hg, hg, State.handleOf, hg, Option.getD_some]
  | none =>
    rw [State.getObjectHandle_of_absent hg, State.cache_getElem?, if_pos rfl, State.handleOf, hg,
      Option.getD_none]

/-- The handle that is returned is the registered one. -/
theorem Since.meets_getObjectHandle (ht : Since source opened streamed s t)
    (hin : ∀ g k, s.InStream g k → streamed g) :
    (getObjectHandle g : Program State ε ℕ).Meets t fun result t' =>
      Since source opened streamed s t' ∧
        ∃ h, result = .ok h ∧ t'.objectCache[g]? = some h := by
  apply meets_get_bind
  apply meets_modify_bind
  apply meets_pure
  exact ⟨ht.keeps hin keeps_getObjectHandle, _, rfl, State.handleOf_cached ht.wellFormed⟩

theorem State.inStream_of_isMemberOf (hmember : s.isMemberOf g k = true) : s.InStream g k := by
  rw [State.isMemberOf] at hmember
  split at hmember
  · next stream index hrow =>
    rw [beq_iff_eq] at hmember
    exact ⟨index, hmember ▸ hrow⟩
  · cases hmember

theorem keeps_markObjectStream : Keeps source opened streamed s (s.markObjectStream k) := by
  intro hs _
  have hrefl := Progress.refl source opened streamed s
  refine ⟨⟨hs.slot_lt, hs.cached, hs.registered, hs.decoded_nodup, ?_, hs.rebuilds_le,
    hs.rebuilds_eq⟩, ⟨hrefl.slot, hrefl.sharedCount, hrefl.objGen, hrefl.cache, hrefl.inStream,
    hrefl.rows, Finset.subset_insert _ _, hrefl.decoded, hrefl.resolving, hrefl.resolved, ?_,
    hrefl.nulls, hrefl.loops⟩⟩
  · intro k' hk'
    exact Finset.mem_insert_of_mem (hs.decoded_subset k' hk')
  · intro c _ _
    exact .inr (.inl rfl)

section

variable (hderef : ∀ h, (tryDereference h).Relates (Keeps source (fun _ => False) streamed))

include hderef

/-- Dereferencing keeps every value, so it keeps those that are not open. -/
theorem relates_tryDereference (h : ℕ) :
    (tryDereference h).Relates (Keeps source opened streamed) :=
  (hderef h).mono fun _ _ hkeeps => hkeeps.mono fun _ => False.elim

theorem since_resolveMember (hin : ∀ g k, s.InStream g k → streamed g)
    (decoded : DecodedObjectStream) (member : ℕ × ℕ)
    (ht : Since source (openedMembers opened s k) streamed s t) :
    (resolveMember source tryDereference k decoded member).Meets t fun _ t' =>
      Since source (openedMembers opened s k) streamed s t' := by
  apply meets_get_bind
  dsimp only
  split_ifs with hint hmember hrow
  · exact meets_pure ht
  · have hstream := ht.progress.inStream (State.inStream_of_isMemberOf hmember)
    refine Meets.bind (ht.meets_getObjectHandle hin) ?_ ?_
    · rintro h t₁ ⟨ht₁, h', heq, hcached⟩
      cases heq
      refine Meets.bind (ht₁.meets_progress hin (relates_run (relates_tryDereference hderef) _)) ?_ ?_
      · rintro parsed t₂ ⟨ht₂, hprogress⟩
        refine Meets.bind (ht₂.meets_progress hin (relates_mapError (relates_ofExcept _))) ?_ ?_
        · rintro value t₃ ⟨ht₃, hprogress'⟩
          apply meets_modify
          exact ht₃.setResolved_member hin (hprogress'.cache (hprogress.cache hcached)) hstream
        · rintro _ t₃ ⟨ht₃, _⟩
          exact ht₃
      · rintro _ t₂ ⟨ht₂, _⟩
        exact ht₂
    · rintro _ t₁ ⟨ht₁, _⟩
      exact ht₁
  · apply meets_modify
    exact ht.keeps hin (keeps_bookkeeping _ _ _ _)
  · exact meets_pure ht

theorem since_decodeMembers (hin : ∀ g k, s.InStream g k → streamed g)
    (ht : Since source opened streamed s t) (hnot : k ∉ s.resolvedObjectStreams)
    (hmem : k ∈ t.resolvedObjectStreams) (hdecoded : k ∉ t.decodedStreams) (stream : ObjectValue) :
    (decodeMembers source tryDereference k stream).Meets t fun _ t' =>
      Since source opened streamed s t' := by
  apply meets_modify_bind
  -- the entry of `k` in the record is the only one that was not there at the start
  have hbegin : Since source opened streamed s
      { t with decodedStreams := t.decodedStreams ++ [k] } := by
    obtain ⟨hwf, hprogress⟩ := ht
    refine ⟨⟨hwf.slot_lt, hwf.cached, hwf.registered, ?_, ?_, hwf.rebuilds_le, hwf.rebuilds_eq⟩,
      ⟨hprogress.slot, hprogress.sharedCount, hprogress.objGen, hprogress.cache,
        hprogress.inStream, hprogress.rows, hprogress.streams, ?_, hprogress.resolving,
        hprogress.resolved, hprogress.value, hprogress.nulls, hprogress.loops⟩⟩
    · exact List.nodup_append'.mpr ⟨hwf.decoded_nodup, List.nodup_singleton k,
        List.disjoint_singleton.mpr hdecoded⟩
    · intro k' hk'
      rcases List.mem_append.mp hk' with hold | hnew
      · exact hwf.decoded_subset k' hold
      · rw [List.mem_singleton.mp hnew]
        exact hmem
    · intro k' hk' hdec
      rcases List.mem_append.mp hdec with hold | hnew
      · exact hprogress.decoded k' hk' hold
      · rw [List.mem_singleton.mp hnew] at hk'
        exact absurd hk' hnot
  generalize hu : { t with decodedStreams := t.decodedStreams ++ [k] } = u at hbegin ⊢
  have hmem' : k ∈ u.resolvedObjectStreams := by rw [← hu]; exact hmem
  have hin' : ∀ g k, u.InStream g k → streamed g := fun g k hk =>
    hin g k (hbegin.progress.inStream hk)
  have hstart : Since source (openedMembers opened u k) streamed u u := .refl hbegin.wellFormed
  have hclose : ∀ t', Since source (openedMembers opened u k) streamed u t' →
      Since source opened streamed s t' := fun t' ht' => hbegin.closeMembers ht' hnot hmem'
  refine Meets.bind (hstart.meets hin' (relates_run (relates_tryDereference hderef) _)) ?_ ?_
  · intro result t₁ ht₁
    refine Meets.bind (ht₁.meets hin' (relates_mapError (relates_ofExcept _))) ?_ ?_
    · intro decoded t₂ ht₂
      cases decoded with
      | none => exact meets_pure (hclose t₂ ht₂)
      | some decoded =>
        have hmembers : (forEach (resolveMember source tryDereference k decoded)
            (memberOffsets decoded.pairs)).Meets t₂ fun _ t' =>
              Since source (openedMembers opened u k) streamed u t' :=
          meets_forEach (fun member _ t ht => since_resolveMember hderef hin' decoded member ht) ht₂
        exact hmembers.mono fun _ t' => hclose t'
    · intro _ t₂ ht₂
      exact hclose t₂ ht₂
  · intro _ t₁ ht₁
    exact hclose t₁ ht₁

theorem relates_resolveObjectStreamWithFailureKind (k : ℕ) :
    (resolveObjectStreamWithFailureKind source tryDereference k).Relates
      (Keeps source opened streamed) := by
  apply relates_of_since
  intro s hs hin
  apply meets_get_bind
  have hmark : Since source opened streamed s (s.markObjectStream k) :=
    (Since.refl hs).keeps hin keeps_markObjectStream
  split_ifs with hmem hint
  · exact meets_pure (.refl hs)
  · apply meets_modify_bind
    exact meets_fail hmark
  · apply meets_modify_bind
    have hin' : ∀ g k', (s.markObjectStream k).InStream g k' → streamed g := hin
    have hstart : Since source opened streamed (s.markObjectStream k) (s.markObjectStream k) :=
      .refl hmark.wellFormed
    have hback : ∀ t, Since source opened streamed (s.markObjectStream k) t →
        Since source opened streamed s t := fun t ht =>
      ⟨ht.wellFormed, hmark.progress.trans ht.progress⟩
    refine Meets.bind (hstart.meets hin' relates_getObjectHandle) ?_ ?_
    · intro h t₁ ht₁
      refine Meets.bind (ht₁.meets hin'
        (relates_mapError (relates_tryDereference hderef h))) ?_ ?_
      · intro _ t₂ ht₂
        apply meets_get_bind
        split
        · apply since_decodeMembers hderef hin (hback t₂ ht₂) hmem
          · exact ht₂.progress.streams (Finset.mem_insert_self k _)
          · intro hdec
            exact hmem (hs.decoded_subset k
              (ht₂.progress.decoded k (Finset.mem_insert_self k _) hdec))
        · exact (hback t₂ ht₂).meets hin (relates_mapError relates_pushWarning)
      · intro _ t₂ ht₂
        exact hback t₂ ht₂
    · intro _ t₁ ht₁
      exact hback t₁ ht₁

end

end Flpdf.Resolver
