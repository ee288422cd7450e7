import Flpdf.Resolver.Resolve
import Flpdf.Xref.Registration
import Mathlib.Data.List.Nodup

/-!
# What resolution can change

Resolution registers handles, marks object streams, rebuilds the table at most once
and assigns values to unresolved slots. What a slot already holds stays, unless the
object stream its row names is decoded for the first time.
-/

namespace Flpdf.Resolver

open Program Std

/-- Slots and shared values are allocated, the cache agrees with the identities, an
unresolved handle is the registered one, and the guards agree with what happened. -/
structure State.WellFormed (s : State) : Prop where
  slot_lt : ∀ {h c : ℕ}, s.slot h = some c → h < s.slotCount ∧ c < s.sharedCount
  cached : ∀ {g : QpdfObjGen} {h : ℕ}, s.objectCache[g]? = some h → s.objGen h = some g
  registered : ∀ {h : ℕ}, s.value h = none →
    ∃ g, s.objGen h = some g ∧ s.objectCache[g]? = some h
  decoded_nodup : s.decodedStreams.Nodup
  decoded_subset : ∀ k ∈ s.decodedStreams, k ∈ s.resolvedObjectStreams
  rebuilds_le : s.rebuilds ≤ 1
  rebuilds_eq : s.reconstructedXref = false → s.rebuilds = 0

/-- The row of the object puts it into an object stream. -/
def State.InStream (s : State) (g : QpdfObjGen) (k : ℕ) : Prop :=
  ∃ i, s.rawEntries[g]? = some (.compressed k i)

/-- Between the two states the object stream of a shared value was first decoded. -/
def FirstDecode (s s' : State) (c : ℕ) : Prop :=
  ∃ g k, (s.shared c).objGen = some g ∧ s.InStream g k ∧
    k ∉ s.resolvedObjectStreams ∧ k ∈ s'.resolvedObjectStreams

/-- What any part of a resolution may do to the state, with some shared values open
to assignment and some objects to be found in object streams. -/
structure Progress (source : Source) (opened : ℕ → Prop) (streamed : QpdfObjGen → Prop)
    (s s' : State) : Prop where
  slot : ∀ {h c : ℕ}, s.slot h = some c → s'.slot h = some c
  sharedCount : s.sharedCount ≤ s'.sharedCount
  objGen : ∀ c < s.sharedCount, (s'.shared c).objGen = (s.shared c).objGen
  cache : ∀ {g : QpdfObjGen} {h : ℕ}, s.objectCache[g]? = some h → s'.objectCache[g]? = some h
  inStream : ∀ {g : QpdfObjGen} {k : ℕ}, s'.InStream g k → s.InStream g k
  rows : ∀ g ∈ s'.rawEntries, g ∈ s.rawEntries ∨ g ∈ source.scannedEntries.map Prod.fst
  streams : s.resolvedObjectStreams ⊆ s'.resolvedObjectStreams
  decoded : ∀ k ∈ s.resolvedObjectStreams, k ∈ s'.decodedStreams → k ∈ s.decodedStreams
  resolving : s'.resolving = s.resolving
  resolved : ∀ c < s.sharedCount, (s.shared c).value ≠ none →
    (s'.shared c).value ≠ none
  value : ∀ c < s.sharedCount, (s.shared c).value ≠ none →
    opened c ∨ (s'.shared c).value = (s.shared c).value ∨ FirstDecode s s' c
  nulls : ∀ {g : QpdfObjGen} {h : ℕ}, s.objectCache[g]? = some h → ¬streamed g →
    s.value h = some .null → s'.value h = some .null
  loops : ∀ {g : QpdfObjGen}, ¬streamed g → s.loops.count g < s'.loops.count g →
    ∃ h, s'.objectCache[g]? = some h ∧ s'.value h = some .null

variable {source : Source} {opened opened' : ℕ → Prop} {streamed : QpdfObjGen → Prop} {s t s' : State} {h h' c k : ℕ}
  {g g' : QpdfObjGen} {v : ObjectValue}

namespace Progress

theorem refl (source : Source) (opened : ℕ → Prop) (streamed : QpdfObjGen → Prop)
    (s : State) : Progress source opened streamed s s where
  slot hc := hc
  sharedCount := le_rfl
  objGen _ _ := rfl
  cache hg := hg
  inStream hg := hg
  rows _ hg := .inl hg
  streams := Finset.Subset.refl _
  decoded _ _ hk := hk
  resolving := rfl
  resolved _ _ hv := hv
  value _ _ _ := .inr (.inl rfl)
  nulls _ _ hnull := hnull
  loops _ hlt := absurd hlt (lt_irrefl _)

theorem firstDecode_right (hst : Progress source opened streamed s t) (hc : c < s.sharedCount)
    (hdecode : FirstDecode t s' c) : FirstDecode s s' c := by
  obtain ⟨g, k, hg, hin, hnot, hmem⟩ := hdecode
  rw [hst.objGen c hc] at hg
  exact ⟨g, k, hg, hst.inStream hin, fun hk => hnot (hst.streams hk), hmem⟩

theorem firstDecode_left (hts : Progress source opened streamed t s') (hdecode : FirstDecode s t c) :
    FirstDecode s s' c := by
  obtain ⟨g, k, hg, hin, hnot, hmem⟩ := hdecode
  exact ⟨g, k, hg, hin, hnot, hts.streams hmem⟩

theorem trans (hst : Progress source opened streamed s t) (hts : Progress source opened streamed t s') :
    Progress source opened streamed s s' where
  slot hc := hts.slot (hst.slot hc)
  sharedCount := hst.sharedCount.trans hts.sharedCount
  objGen c hc := (hts.objGen c (hc.trans_le hst.sharedCount)).trans (hst.objGen c hc)
  cache hg := hts.cache (hst.cache hg)
  inStream hg := hst.inStream (hts.inStream hg)
  rows g hg := by
    rcases hts.rows g hg with hrow | hrow
    · exact hst.rows g hrow
    · exact .inr hrow
  streams := hst.streams.trans hts.streams
  decoded k hk hmem := hst.decoded k hk (hts.decoded k (hst.streams hk) hmem)
  resolving := hts.resolving.trans hst.resolving
  resolved c hc hv := hts.resolved c (hc.trans_le hst.sharedCount) (hst.resolved c hc hv)
  value c hc hv := by
    have hct : c < t.sharedCount := hc.trans_le hst.sharedCount
    rcases hst.value c hc hv with hopen | heq | hdecode
    · exact .inl hopen
    · rcases hts.value c hct (hst.resolved c hc hv) with hopen | heq' | hdecode
      · exact .inl hopen
      · exact .inr (.inl (heq'.trans heq))
      · exact .inr (.inr (hst.firstDecode_right hc hdecode))
    · exact .inr (.inr (hts.firstDecode_left hdecode))
  nulls hg hin hnull := hts.nulls (hst.cache hg) hin (hst.nulls hg hin hnull)
  loops {g} hin hlt := by
    by_cases hcount : s.loops.count g < t.loops.count g
    · obtain ⟨h, hg, hnull⟩ := hst.loops hin hcount
      exact ⟨h, hts.cache hg, hts.nulls hg hin hnull⟩
    · exact hts.loops hin ((Nat.le_of_not_lt hcount).trans_lt hlt)

theorem mono (hst : Progress source opened streamed s t) (hopen : ∀ c, opened c → opened' c) :
    Progress source opened' streamed s t where
  slot := hst.slot
  sharedCount := hst.sharedCount
  objGen := hst.objGen
  cache := hst.cache
  inStream := hst.inStream
  rows := hst.rows
  streams := hst.streams
  decoded := hst.decoded
  resolving := hst.resolving
  resolved := hst.resolved
  value c hc hv := (hst.value c hc hv).imp_left (hopen c)
  nulls := hst.nulls
  loops := hst.loops

end Progress

/-- A well-formed state stays so, and resolution goes on. -/
def Keeps (source : Source) (opened : ℕ → Prop) (streamed : QpdfObjGen → Prop)
    (s s' : State) : Prop :=
  s.WellFormed → (∀ g k, s.InStream g k → streamed g) →
    s'.WellFormed ∧ Progress source opened streamed s s'

instance : IsPreorder State (Keeps source opened streamed) where
  refl s hs _ := ⟨hs, .refl source opened streamed s⟩
  trans s t s' hst hts hs hin := by
    obtain ⟨ht, hst⟩ := hst hs hin
    obtain ⟨hs', hts⟩ := hts ht fun g k hk => hin g k (hst.inStream hk)
    exact ⟨hs', hst.trans hts⟩

theorem Keeps.mono (hst : Keeps source opened streamed s t) (hopen : ∀ c, opened c → opened' c) :
    Keeps source opened' streamed s t :=
  fun hs hin => ⟨(hst hs hin).1, (hst hs hin).2.mono hopen⟩

/-! ## Steps that leave the slots alone -/

/-- Warnings and default rows are of no consequence. -/
theorem keeps_bookkeeping (count : ℕ) (fixed : Bool) (rows : ExtTreeSet QpdfObjGen)
    (warned : Finset QpdfObjGen) :
    Keeps source opened streamed s
      { s with
        warningCount := count
        fixedDanglingRefs := fixed
        defaultXrefEntries := rows
        defaultXrefWarnings := warned } := by
  intro hs _
  have hprogress := Progress.refl source opened streamed s
  exact ⟨⟨hs.slot_lt, hs.cached, hs.registered, hs.decoded_nodup, hs.decoded_subset,
    hs.rebuilds_le, hs.rebuilds_eq⟩, ⟨hprogress.slot, hprogress.sharedCount, hprogress.objGen,
    hprogress.cache, hprogress.inStream, hprogress.rows, hprogress.streams, hprogress.decoded,
    hprogress.resolving, hprogress.resolved, hprogress.value, hprogress.nulls, hprogress.loops⟩⟩

theorem relates_pushWarning : source.pushWarning.Relates (Keeps source opened streamed) := by
  apply Relates.bind relates_get
  intro s
  apply Relates.bind
  · exact relates_modify fun t => keeps_bookkeeping _ t.fixedDanglingRefs t.defaultXrefEntries _
  · intro _
    exact relates_ofExcept _

theorem relates_mapError {ε ε' α : Type} {r : State → State → Prop} [IsPreorder State r]
    {wrap : ε → ε'} {p : Program State ε α} (hp : p.Relates r) : (mapError wrap p).Relates r :=
  Relates.bind hp.attempt fun _ => relates_ofExcept _

/-! ## New slots -/

theorem State.WellFormed.lt_of_objGen (hs : s.WellFormed) (hg : s.objGen h = some g) :
    h < s.slotCount := by
  obtain ⟨c, hc, _⟩ := State.slot_of_objGen hg
  exact (hs.slot_lt hc).1

theorem State.WellFormed.lt_of_cached (hs : s.WellFormed) (hg : s.objectCache[g]? = some h) :
    h < s.slotCount :=
  hs.lt_of_objGen (hs.cached hg)

/-- A handle in use points to a shared value in use. -/
theorem State.WellFormed.newSlot_slot (hs : s.WellFormed) (shared : SharedValue)
    (hc : s.slot h = some c) : (s.newSlot shared).slot h = some c ∧
      (s.newSlot shared).shared c = s.shared c := by
  have hlt := hs.slot_lt hc
  constructor
  · rw [State.slot_newSlot, Function.update_of_ne hlt.1.ne, hc]
  · rw [State.shared_newSlot, Function.update_of_ne hlt.2.ne]

theorem State.WellFormed.newSlot_value (hs : s.WellFormed) (shared : SharedValue) :
    (s.newSlot shared).value h = if h = s.slotCount then shared.value else s.value h := by
  by_cases hh : h = s.slotCount
  · simp [State.value, State.newSlot, hh]
  · rw [if_neg hh]
    cases hc : s.slot h with
    | none => simp [State.value, State.newSlot, Function.update_of_ne hh, hc]
    | some c =>
      obtain ⟨hslot, hshared⟩ := hs.newSlot_slot shared hc
      rw [State.value_of_slot hslot, hshared, State.value_of_slot hc]

theorem State.WellFormed.newSlot_objGen (hs : s.WellFormed) (shared : SharedValue) :
    (s.newSlot shared).objGen h = if h = s.slotCount then shared.objGen else s.objGen h := by
  by_cases hh : h = s.slotCount
  · simp [State.objGen, State.newSlot, hh]
  · rw [if_neg hh]
    cases hc : s.slot h with
    | none => simp [State.objGen, State.newSlot, Function.update_of_ne hh, hc]
    | some c =>
      obtain ⟨hslot, hshared⟩ := hs.newSlot_slot shared hc
      rw [State.objGen_of_slot hslot, hshared, State.objGen_of_slot hc]

theorem State.WellFormed.newSlot_lt (hs : s.WellFormed) {shared : SharedValue}
    (hc : (s.newSlot shared).slot h = some c) : h < s.slotCount + 1 ∧ c < s.sharedCount + 1 := by
  by_cases hh : h = s.slotCount
  · subst hh
    simp only [State.slot_newSlot, Function.update_self, Option.some.injEq] at hc
    omega
  · rw [State.slot_newSlot, Function.update_of_ne hh] at hc
    have hlt := hs.slot_lt hc
    omega

theorem progress_newSlot (hs : s.WellFormed) (shared : SharedValue) :
    Progress source opened streamed s (s.newSlot shared) where
  slot hc := (hs.newSlot_slot shared hc).1
  sharedCount := Nat.le_succ _
  objGen c hc := by rw [State.shared_newSlot, Function.update_of_ne hc.ne]
  cache hg := hg
  inStream hg := hg
  rows _ hg := .inl hg
  streams := Finset.Subset.refl _
  decoded _ _ hk := hk
  resolving := rfl
  resolved c hc hv := by rwa [State.shared_newSlot, Function.update_of_ne hc.ne]
  value c hc _ := by rw [State.shared_newSlot, Function.update_of_ne hc.ne]; exact .inr (.inl rfl)
  nulls hg _ hnull := by rwa [hs.newSlot_value, if_neg (hs.lt_of_cached hg).ne]
  loops _ hlt := absurd hlt (lt_irrefl _)

/-- A new direct handle. -/
theorem keeps_newSlot : Keeps source opened streamed s (s.newSlot ⟨none, some v⟩) := by
  intro hs _
  refine ⟨⟨hs.newSlot_lt, ?_, ?_, hs.decoded_nodup, hs.decoded_subset, hs.rebuilds_le,
    hs.rebuilds_eq⟩, progress_newSlot hs _⟩
  · intro g h hg
    rw [hs.newSlot_objGen, if_neg (hs.lt_of_cached hg).ne]
    exact hs.cached hg
  · intro h hvalue
    rw [hs.newSlot_value] at hvalue
    rw [hs.newSlot_objGen]
    by_cases hh : h = s.slotCount
    · rw [if_pos hh] at hvalue
      cases hvalue
    · rw [if_neg hh] at hvalue ⊢
      exact hs.registered hvalue

/-! ## Registered handles -/

theorem State.promoteToIndirect_eq_self (hg : s.objGen h = some g) :
    s.promoteToIndirect h g = s := by
  obtain ⟨c, hc, hobj⟩ := State.slot_of_objGen hg
  have hshared : ({ s.shared c with objGen := some g } : SharedValue) = s.shared c := by
    rw [← hobj]
  rw [State.promoteToIndirect, hc]
  simp only [State.setShared, hshared, Function.update_eq_self]

theorem State.getObjectHandle_of_cached (hs : s.WellFormed) (hg : s.objectCache[g]? = some h) :
    s.getObjectHandle g = s := by
  rw [State.getObjectHandle, hg]
  exact State.promoteToIndirect_eq_self (hs.cached hg)

theorem State.getObjectHandle_of_absent (hg : s.objectCache[g]? = none) :
    s.getObjectHandle g = (s.newSlot ⟨some g, none⟩).cache g s.slotCount := by
  rw [State.getObjectHandle, hg]

theorem State.cache_getElem? : (s.cache g h).objectCache[g']? =
    if g = g' then some h else s.objectCache[g']? :=
  getElem?_insert_ite s.objectCache g g' h

theorem keeps_getObjectHandle : Keeps source opened streamed s (s.getObjectHandle g) := by
  intro hs _
  cases hg : s.objectCache[g]? with
  | some h =>
    rw [State.getObjectHandle_of_cached hs hg]
    exact ⟨hs, .refl source opened streamed s⟩
  | none =>
    rw [State.getObjectHandle_of_absent hg]
    have hne : ∀ {g' h'}, s.objectCache[g']? = some h' → g ≠ g' := by
      rintro g' h' hg' rfl
      rw [hg] at hg'
      cases hg'
    refine ⟨⟨?_, ?_, ?_, hs.decoded_nodup, hs.decoded_subset, hs.rebuilds_le,
      hs.rebuilds_eq⟩, (progress_newSlot hs ⟨some g, none⟩).trans ?_⟩
    · intro h' c hc
      have hlt : (s.newSlot ⟨some g, none⟩).slot h' = some c := hc
      exact hs.newSlot_lt hlt
    · intro g' h' hg'
      rw [State.cache_getElem?] at hg'
      show (s.newSlot ⟨some g, none⟩).objGen h' = some g'
      rw [hs.newSlot_objGen]
      by_cases hgg : g = g'
      · rw [if_pos hgg, Option.some.injEq] at hg'
        rw [if_pos hg'.symm, hgg]
      · rw [if_neg hgg] at hg'
        rw [if_neg (hs.lt_of_cached hg').ne]
        exact hs.cached hg'
    · intro h' hvalue
      replace hvalue : (s.newSlot ⟨some g, none⟩).value h' = none := hvalue
      show ∃ g', (s.newSlot ⟨some g, none⟩).objGen h' = some g' ∧ _
      rw [hs.newSlot_value] at hvalue
      rw [hs.newSlot_objGen]
      by_cases hh : h' = s.slotCount
      · exact ⟨g, by rw [if_pos hh], by rw [State.cache_getElem?, if_pos rfl, hh]⟩
      · rw [if_neg hh] at hvalue
        obtain ⟨g', hobj, hcached⟩ := hs.registered hvalue
        exact ⟨g', by rw [if_neg hh, hobj], by
          rw [State.cache_getElem?, if_neg (hne hcached)]; exact hcached⟩
    · have hprogress := Progress.refl source opened streamed (s.newSlot ⟨some g, none⟩)
      refine ⟨hprogress.slot, hprogress.sharedCount, hprogress.objGen, ?_, hprogress.inStream,
        hprogress.rows, hprogress.streams, hprogress.decoded, hprogress.resolving,
        hprogress.resolved, hprogress.value, hprogress.nulls,
        fun _ hlt => absurd hlt (lt_irrefl _)⟩
      intro g' h' hg'
      rw [State.cache_getElem?, if_neg (hne hg')]
      exact hg'

theorem relates_getObjectHandle {ε : Type} :
    (getObjectHandle g : Program State ε ℕ).Relates (Keeps source opened streamed) := by
  apply Relates.bind relates_get
  intro s
  apply Relates.bind
  · exact relates_modify fun _ => keeps_getObjectHandle
  · intro _
    exact relates_pure _

/-! ## Assigning a value -/

theorem State.setResolved_of_slot (hc : s.slot h = some c) (hg : (s.shared c).objGen.isSome) :
    s.setResolved h v = s.setShared c { s.shared c with value := some v } := by
  rw [State.setResolved, hc]
  exact if_pos hg

theorem State.slot_setResolved : (s.setResolved h v).slot = s.slot := by
  unfold State.setResolved
  split
  · rfl
  · split <;> rfl

theorem State.objGen_setResolved_shared (s : State) (h : ℕ) (v : ObjectValue) (c : ℕ) :
    ((s.setResolved h v).shared c).objGen = (s.shared c).objGen := by
  unfold State.setResolved
  split
  · rfl
  · next c' hc =>
    split
    · by_cases hcc : c = c'
      · subst hcc
        simp [State.setShared]
      · simp [State.setShared, Function.update_of_ne hcc]
    · rfl

theorem State.objGen_setResolved (s : State) (h : ℕ) (v : ObjectValue) (h' : ℕ) :
    (s.setResolved h v).objGen h' = s.objGen h' := by
  simp only [State.objGen, State.slot_setResolved, State.objGen_setResolved_shared]

/-- The value is seen through every slot that shares it. -/
theorem State.value_setResolved (hc : s.slot h = some c) (hg : (s.shared c).objGen.isSome) :
    (s.setResolved h v).value h' = if s.slot h' = some c then some v else s.value h' := by
  rw [State.setResolved_of_slot hc hg]
  cases hc' : s.slot h' with
  | none => simp [State.value, State.setShared, hc']
  | some c' =>
    by_cases hcc : c' = c
    · subst hcc
      simp [State.value, State.setShared, hc']
    · simp [State.value, State.setShared, hc', hcc]

theorem State.setResolved_of_direct (hg : s.objGen h = none) : s.setResolved h v = s := by
  rw [State.setResolved]
  cases hc : s.slot h with
  | none => rfl
  | some c =>
    rw [State.objGen_of_slot hc] at hg
    simp [hg]

/-- The handle is not left unresolved. -/
theorem State.value_setResolved_self (hg : s.objGen h = some g) :
    (s.setResolved h v).value h = some v := by
  obtain ⟨c, hc, hobj⟩ := State.slot_of_objGen hg
  rw [State.value_setResolved hc (Option.isSome_of_mem hobj), if_pos hc]

section

variable (hs : s.WellFormed) (hc : s.slot h = some c) (hg : (s.shared c).objGen.isSome)

include hs hc hg

theorem wellFormed_setResolved : (s.setResolved h v).WellFormed := by
  rw [State.setResolved_of_slot hc hg]
  refine ⟨hs.slot_lt, ?_, ?_, hs.decoded_nodup, hs.decoded_subset, hs.rebuilds_le, hs.rebuilds_eq⟩
  · intro g' h' hg'
    rw [← State.setResolved_of_slot hc hg, State.objGen_setResolved]
    exact hs.cached hg'
  · intro h' hvalue
    rw [← State.setResolved_of_slot hc hg] at hvalue ⊢
    rw [State.value_setResolved hc hg] at hvalue
    rw [State.objGen_setResolved, State.setResolved_of_slot hc hg]
    by_cases hslot : s.slot h' = some c
    · rw [if_pos hslot] at hvalue
      cases hvalue
    · rw [if_neg hslot] at hvalue
      exact hs.registered hvalue

/-- A value that may be assigned: it is open or unresolved, and only a member of an
object stream loses a null. -/
theorem progress_setResolved
    (hopen : opened c ∨ (s.shared c).value = none)
    (hloop : v = .null ∨ (s.shared c).value = none ∨
      ∃ g, (s.shared c).objGen = some g ∧ streamed g) :
    Progress source opened streamed s (s.setResolved h v) := by
  have hrefl := Progress.refl source opened streamed s
  have hvalue : ∀ c', ((s.setResolved h v).shared c').value =
      if c' = c then some v else (s.shared c').value := by
    intro c'
    rw [State.setResolved_of_slot hc hg]
    by_cases hcc : c' = c
    · subst hcc
      simp [State.setShared]
    · simp [State.setShared, hcc]
  have hsame := State.setResolved_of_slot (v := v) hc hg
  refine ⟨?_, ?_, fun c' _ => State.objGen_setResolved_shared s h v c', ?_, ?_, ?_, ?_, ?_, ?_,
    ?_, ?_, ?_, ?_⟩
  · intro h' c' hc'
    rwa [State.slot_setResolved]
  · rw [hsame]; exact hrefl.sharedCount
  · rw [hsame]; exact hrefl.cache
  · rw [hsame]; exact hrefl.inStream
  · rw [hsame]; exact hrefl.rows
  · rw [hsame]; exact hrefl.streams
  · rw [hsame]; exact hrefl.decoded
  · rw [hsame]; exact hrefl.resolving
  · intro c' _ hc'
    rw [hvalue]
    split_ifs
    · simp
    · exact hc'
  · intro c' _ hc'
    rw [hvalue]
    by_cases hcc : c' = c
    · subst hcc
      exact .inl (hopen.resolve_right hc')
    · exact .inr (.inl (if_neg hcc))
  · intro g' h' hg' hin hnull
    rw [State.value_setResolved hc hg]
    by_cases hslot : s.slot h' = some c
    · rw [if_pos hslot]
      rw [State.value_of_slot hslot] at hnull
      rcases hloop with hv' | hun | ⟨g, hobj, hstreamed⟩
      · rw [hv']
      · rw [hun] at hnull
        cases hnull
      · have hgg := hs.cached hg'
        rw [State.objGen_of_slot hslot, hobj, Option.some.injEq] at hgg
        subst hgg
        exact absurd hstreamed hin
    · rw [if_neg hslot]
      exact hnull
  · intro g' _ hlt
    have hcount : (s.setResolved h v).loops = s.loops := by rw [hsame]; rfl
    rw [hcount] at hlt
    exact absurd hlt (lt_irrefl _)

end

/-- Null for the handle that is being resolved. -/
theorem keeps_setResolved_null (hopen : ∀ c, s.slot h = some c → opened c) :
    Keeps source opened streamed s (s.setResolved h .null) := by
  intro hs _
  cases hg : s.objGen h with
  | none =>
    rw [State.setResolved_of_direct hg]
    exact ⟨hs, .refl source opened streamed s⟩
  | some g =>
    obtain ⟨c, hc, hobj⟩ := State.slot_of_objGen hg
    have hsome := Option.isSome_of_mem hobj
    exact ⟨wellFormed_setResolved hs hc hsome,
      progress_setResolved hs hc hsome (.inl (hopen c hc)) (.inl rfl)⟩

/-- A value for a handle that is still unresolved. -/
theorem keeps_setResolved (hun : s.value h = none) :
    Keeps source opened streamed s (s.setResolved h v) := by
  intro hs _
  obtain ⟨g, hg, _⟩ := hs.registered hun
  obtain ⟨c, hc, hobj⟩ := State.slot_of_objGen hg
  rw [State.value_of_slot hc] at hun
  have hsome := Option.isSome_of_mem hobj
  exact ⟨wellFormed_setResolved hs hc hsome,
    progress_setResolved hs hc hsome (.inr hun) (.inr (.inl hun))⟩

end Flpdf.Resolver
