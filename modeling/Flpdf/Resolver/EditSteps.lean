import Flpdf.Resolver.Edits

/-!
# What an edit does

Each edit keeps the state in order and leaves the registered handles of the other
objects, and what they show, alone.
-/

namespace Flpdf.Resolver

open Program Std

variable {s t s' : State} {h h' w c c' : ℕ} {g r r' : QpdfObjGen}

/-- No object got into another stream, no decoding is forgotten and the marks are the same. -/
structure Onward (s s' : State) : Prop where
  inStream : ∀ {g : QpdfObjGen} {k : ℕ}, s'.InStream g k → s.InStream g k
  streams : s.resolvedObjectStreams ⊆ s'.resolvedObjectStreams
  resolving : s'.resolving = s.resolving

theorem Onward.refl (s : State) : Onward s s := ⟨fun h => h, Finset.Subset.refl _, rfl⟩

theorem Onward.trans (hst : Onward s t) (hts : Onward t s') : Onward s s' :=
  ⟨fun h => hst.inStream (hts.inStream h), hst.streams.trans hts.streams,
    hts.resolving.trans hst.resolving⟩

/-- The handle of an object and what it shows are those of before. -/
def State.Same (r : QpdfObjGen) (s s' : State) : Prop :=
  ∀ h, s.objectCache[r]? = some h → s'.objectCache[r]? = some h ∧ s'.value h = s.value h

/-- Two handles with different identities have different shared values. -/
theorem State.slot_ne_of_objGen (hc : s.slot h = some c) (hc' : s.slot h' = some c')
    (hne : s.objGen h ≠ s.objGen h') : c ≠ c' := by
  rintro rfl
  apply hne
  rw [State.objGen_of_slot hc, State.objGen_of_slot hc']

theorem State.value_setShared (x : SharedValue) :
    (s.setShared c x).value h = if s.slot h = some c then x.value else s.value h := by
  cases hc : s.slot h with
  | none => simp [State.value, State.setShared, hc]
  | some c' =>
    by_cases hcc : c' = c
    · subst hcc
      simp [State.value, State.setShared, hc]
    · simp [State.value, State.setShared, hc, hcc]

theorem State.objGen_setShared (x : SharedValue) :
    (s.setShared c x).objGen h = if s.slot h = some c then x.objGen else s.objGen h := by
  cases hc : s.slot h with
  | none => simp [State.objGen, State.setShared, hc]
  | some c' =>
    by_cases hcc : c' = c
    · subst hcc
      simp [State.objGen, State.setShared, hc]
    · simp [State.objGen, State.setShared, hc, hcc]

/-! ## Replacing -/

section

variable (hs : s.WellFormed) (hw : s.objGen w = none) (hc : s.slot w = some c)

include hs hw hc

/-- The value of a replacement is known. -/
theorem State.WellFormed.direct_isSome : (s.shared c).value.isSome := by
  by_contra hnone
  have hun : s.value w = none := by
    rw [State.value_of_slot hc]
    simpa using hnone
  obtain ⟨g, hg, _⟩ := hs.registered hun
  rw [hw] at hg
  cases hg

/-- Nothing registered shares its value with a direct handle. -/
theorem State.WellFormed.slot_ne_direct (hg : s.objectCache[g]? = some h) :
    s.slot h ≠ some c := by
  intro hslot
  have hobj := hs.cached hg
  rw [State.objGen_of_slot hslot, ← State.objGen_of_slot hc, hw] at hobj
  cases hobj

omit hs hw in
theorem State.promoteToIndirect_of_slot : s.promoteToIndirect w r =
    s.setShared c { s.shared c with objGen := some r } := by
  rw [State.promoteToIndirect, hc]

omit hs hw in
/-- The handle of the object points to the shared value of the replacement. -/
theorem State.slot_replaceObject (h : ℕ) : (s.replaceObject r w).slot h =
    if h = (s.objectCache[r]?).getD w then some c else s.slot h := by
  rw [State.replaceObject, State.promoteToIndirect_of_slot hc]
  cases hr : s.objectCache[r]? with
  | none =>
    rw [Option.getD_none]
    by_cases hh : h = w
    · rw [if_pos hh, hh]
      exact hc
    · rw [if_neg hh]
      rfl
  | some target =>
    rw [Option.getD_some]
    show Function.update s.slot target (s.slot w) h = _
    rw [Function.update_apply, hc]

omit hs hw in
theorem State.shared_replaceObject : (s.replaceObject r w).shared =
    Function.update s.shared c { s.shared c with objGen := some r } := by
  rw [State.replaceObject, State.promoteToIndirect_of_slot hc]
  split <;> rfl

omit hs hw in
theorem State.objectCache_replaceObject (g : QpdfObjGen) :
    (s.replaceObject r w).objectCache[g]? =
      if r = g then some ((s.objectCache[r]?).getD w) else s.objectCache[g]? := by
  rw [State.replaceObject, State.promoteToIndirect_of_slot hc]
  cases hr : s.objectCache[r]? with
  | none =>
    rw [Option.getD_none]
    exact State.cache_getElem?
  | some target =>
    rw [Option.getD_some]
    show s.objectCache[g]? = _
    by_cases hg : r = g
    · rw [if_pos hg, ← hg, hr]
    · rw [if_neg hg]

omit hs hw in
theorem State.observe_replacement (hh : (s.replaceObject r w).slot h = some c) :
    (s.replaceObject r w).objGen h = some r ∧
      (s.replaceObject r w).value h = (s.shared c).value := by
  rw [State.objGen_of_slot hh, State.value_of_slot hh, State.shared_replaceObject hc,
    Function.update_self]
  exact ⟨rfl, rfl⟩

omit hs hw in
theorem State.observe_replaceObject_of_ne (hh : (s.replaceObject r w).slot h ≠ some c) :
    (s.replaceObject r w).objGen h = s.objGen h ∧ (s.replaceObject r w).value h = s.value h := by
  have hslot : (s.replaceObject r w).slot h = s.slot h := by
    rw [State.slot_replaceObject hc] at hh ⊢
    split_ifs at hh ⊢
    · exact absurd rfl hh
    · rfl
  simp only [State.objGen, State.value, hslot, State.shared_replaceObject hc]
  cases hsl : s.slot h with
  | none => simp
  | some c' =>
    have hcc : c' ≠ c := by
      rintro rfl
      exact hh (hslot.trans hsl)
    simp [Function.update_of_ne hcc]

/-- Only the handle of the object itself is registered behind the replaced value. -/
theorem State.WellFormed.slot_replaceObject_ne (hg : s.objectCache[g]? = some h) (hgr : g ≠ r) :
    (s.replaceObject r w).slot h ≠ some c := by
  rw [State.slot_replaceObject hc]
  split_ifs with hh
  · have hobj := hs.cached hg
    cases hr : s.objectCache[r]? with
    | none =>
      rw [hr, Option.getD_none] at hh
      rw [hh, hw] at hobj
      cases hobj
    | some target =>
      rw [hr, Option.getD_some] at hh
      rw [hh, hs.cached hr, Option.some.injEq] at hobj
      exact absurd hobj.symm hgr
  · exact hs.slot_ne_direct hw hc hg

omit hw in
theorem State.WellFormed.replacement_lt : (s.objectCache[r]?).getD w < s.slotCount := by
  cases hr : s.objectCache[r]? with
  | none => exact (hs.slot_lt hc).1
  | some target => exact hs.lt_of_cached hr

theorem wellFormed_replaceObject : (s.replaceObject r w).WellFormed := by
  have hsome := hs.direct_isSome hw hc
  have hsame : (s.replaceObject r w).slotCount = s.slotCount ∧
      (s.replaceObject r w).sharedCount = s.sharedCount ∧
      (s.replaceObject r w).decodedStreams = s.decodedStreams ∧
      (s.replaceObject r w).resolvedObjectStreams = s.resolvedObjectStreams ∧
      (s.replaceObject r w).rebuilds = s.rebuilds ∧
      (s.replaceObject r w).reconstructedXref = s.reconstructedXref := by
    rw [State.replaceObject, State.promoteToIndirect_of_slot hc]
    split <;> exact ⟨rfl, rfl, rfl, rfl, rfl, rfl⟩
  obtain ⟨hslots, hcells, hdecoded, hstreams, hrebuilds, hrec⟩ := hsame
  refine ⟨?_, ?_, ?_, ?_, ?_, ?_, ?_⟩
  · intro h c' hsl
    rw [hslots, hcells]
    rw [State.slot_replaceObject hc] at hsl
    split_ifs at hsl with hh
    · rw [Option.some.injEq] at hsl
      rw [hh, ← hsl]
      exact ⟨hs.replacement_lt hc, (hs.slot_lt hc).2⟩
    · exact hs.slot_lt hsl
  · intro g h hg
    rw [State.objectCache_replaceObject hc] at hg
    by_cases hgr : r = g
    · rw [if_pos hgr, Option.some.injEq] at hg
      rw [← hgr]
      apply (State.observe_replacement hc _).1
      rw [State.slot_replaceObject hc, if_pos hg.symm]
    · rw [if_neg hgr] at hg
      have hne := hs.slot_replaceObject_ne hw hc hg (Ne.symm hgr)
      rw [(State.observe_replaceObject_of_ne hc hne).1]
      exact hs.cached hg
  · intro h hvalue
    by_cases hh : (s.replaceObject r w).slot h = some c
    · rw [(State.observe_replacement hc hh).2] at hvalue
      rw [hvalue] at hsome
      cases hsome
    · rw [(State.observe_replaceObject_of_ne hc hh).2] at hvalue
      rw [(State.observe_replaceObject_of_ne hc hh).1]
      obtain ⟨g, hobj, hcached⟩ := hs.registered hvalue
      refine ⟨g, hobj, ?_⟩
      rw [State.objectCache_replaceObject hc, if_neg]
      · exact hcached
      · rintro rfl
        apply hh
        rw [State.slot_replaceObject hc, if_pos]
        rw [hcached, Option.getD_some]
  · rw [hdecoded]
    exact hs.decoded_nodup
  · rw [hdecoded, hstreams]
    exact hs.decoded_subset
  · rw [hrebuilds]
    exact hs.rebuilds_le
  · rw [hrebuilds, hrec]
    exact hs.rebuilds_eq

theorem same_replaceObject (hgr : g ≠ r) : State.Same g s (s.replaceObject r w) := by
  intro h hg
  have hne := hs.slot_replaceObject_ne hw hc hg hgr
  refine ⟨?_, (State.observe_replaceObject_of_ne hc hne).2⟩
  rw [State.objectCache_replaceObject hc, if_neg (Ne.symm hgr)]
  exact hg

end

/-! ## Swapping -/

section

variable (hs : s.WellFormed) (hne : r ≠ r') (hr : s.objectCache[r]? = some h)
  (hr' : s.objectCache[r']? = some h')

include hs hne hr hr'

theorem State.WellFormed.handle_ne : h ≠ h' := by
  rintro rfl
  have hobj := hs.cached hr
  rw [hs.cached hr', Option.some.injEq] at hobj
  exact hne hobj.symm

/-- The shared values of two registered handles are two. -/
theorem State.WellFormed.exists_slots : ∃ c c', s.slot h = some c ∧ s.slot h' = some c' ∧ c ≠ c' ∧
    (s.shared c).objGen = some r ∧ (s.shared c').objGen = some r' := by
  obtain ⟨c, hc, hobj⟩ := State.slot_of_objGen (hs.cached hr)
  obtain ⟨c', hc', hobj'⟩ := State.slot_of_objGen (hs.cached hr')
  refine ⟨c, c', hc, hc', State.slot_ne_of_objGen hc hc' ?_, hobj, hobj'⟩
  rw [hs.cached hr, hs.cached hr', Ne, Option.some.injEq]
  exact hne

end

section

variable (hh : h ≠ h') (hc : s.slot h = some c) (hc' : s.slot h' = some c') (hcc : c ≠ c')

include hh hc hc' hcc

theorem State.slot_swap (x : ℕ) : (s.swapValueStateWith h h').slot x =
    if x = h' then some c else if x = h then some c' else s.slot x := by
  rw [State.swapValueStateWith, hc, hc']
  simp only [hh, hcc, or_self, if_false, State.setShared]
  rw [Function.update_apply, Function.update_apply]

theorem State.shared_swap : (s.swapValueStateWith h h').shared =
    Function.update (Function.update s.shared c' { s.shared c' with objGen := (s.shared c).objGen }) c
      { s.shared c with objGen := (s.shared c').objGen } := by
  rw [State.swapValueStateWith, hc, hc']
  simp only [hh, hcc, or_self, if_false, State.setShared]

/-- The values of the shared values stay where they are. -/
theorem State.value_shared_swap (x : ℕ) :
    ((s.swapValueStateWith h h').shared x).value = (s.shared x).value := by
  rw [State.shared_swap hh hc hc' hcc, Function.update_apply, Function.update_apply]
  split_ifs with hx hx'
  · rw [hx]
  · rw [hx']
  · rfl

theorem State.value_swap (x : ℕ) : (s.swapValueStateWith h h').value x =
    if x = h' then s.value h else if x = h then s.value h' else s.value x := by
  simp only [State.value, State.slot_swap hh hc hc' hcc]
  by_cases hx' : x = h'
  · simp only [hx', if_true, hc, State.value_shared_swap hh hc hc' hcc]
  · by_cases hx : x = h
    · simp only [hx, hh, if_true, if_false, hc', State.value_shared_swap hh hc hc' hcc]
    · simp only [hx, hx', if_false, State.value_shared_swap hh hc hc' hcc]

theorem State.objGen_swap (x : ℕ) (hx : x = h ∨ x = h' ∨ s.slot x ≠ some c ∧ s.slot x ≠ some c') :
    (s.swapValueStateWith h h').objGen x = s.objGen x := by
  rw [State.objGen, State.slot_swap hh hc hc' hcc, State.shared_swap hh hc hc' hcc]
  by_cases hxh' : x = h'
  · simp [hxh', State.objGen_of_slot hc']
  · by_cases hxh : x = h
    · simp [hxh, hh, Ne.symm hcc, State.objGen_of_slot hc]
    · rw [if_neg hxh', if_neg hxh, State.objGen]
      obtain ⟨hne, hne'⟩ := (hx.resolve_left hxh).resolve_left hxh'
      cases hsl : s.slot x with
      | none => simp
      | some d =>
        rw [hsl, Ne, Option.some.injEq] at hne hne'
        simp [hne, hne']

end

section

variable (hs : s.WellFormed) (hne : r ≠ r') (hr : s.objectCache[r]? = some h)
  (hr' : s.objectCache[r']? = some h') (hv : (s.value h).isSome) (hv' : (s.value h').isSome)

include hs hne hr hr'

omit hne hr' in
/-- No other registered handle shares the value of one. -/
theorem State.WellFormed.slot_ne_of_cached (hc : s.slot h = some c) (hg : s.objectCache[g]? = some w)
    (hgr : g ≠ r) : s.slot w ≠ some c := by
  intro hslot
  have hobj := hs.cached hg
  rw [State.objGen_of_slot hslot, ← State.objGen_of_slot hc, hs.cached hr, Option.some.injEq] at hobj
  exact hgr hobj.symm

theorem same_swapValueStateWith (hgr : g ≠ r) (hgr' : g ≠ r') :
    State.Same g s (s.swapValueStateWith h h') := by
  obtain ⟨c, c', hc, hc', hcc, _, _⟩ := hs.exists_slots hne hr hr'
  have hh := hs.handle_ne hne hr hr'
  intro x hx
  constructor
  · rw [State.swapValueStateWith, hc, hc']
    simp only [hh, hcc, or_self, if_false]
    exact hx
  · rw [State.value_swap hh hc hc' hcc, if_neg (hs.handle_ne hgr' hx hr'),
      if_neg (hs.handle_ne hgr hx hr)]

include hv hv'

theorem wellFormed_swapValueStateWith : (s.swapValueStateWith h h').WellFormed := by
  obtain ⟨c, c', hc, hc', hcc, hobj, hobj'⟩ := hs.exists_slots hne hr hr'
  have hh := hs.handle_ne hne hr hr'
  have hsame : s.swapValueStateWith h h' =
      { s with
        slot := (s.swapValueStateWith h h').slot
        shared := (s.swapValueStateWith h h').shared } := by
    rw [State.swapValueStateWith, hc, hc']
    simp only [hh, hcc, or_self, if_false]
    rfl
  have hkeep : ∀ {g x}, s.objectCache[g]? = some x → (s.swapValueStateWith h h').objGen x = some g := by
    intro g x hx
    rw [State.objGen_swap hh hc hc' hcc, hs.cached hx]
    by_cases hgr : g = r
    · subst hgr
      rw [hr, Option.some.injEq] at hx
      exact .inl hx.symm
    · by_cases hgr' : g = r'
      · subst hgr'
        rw [hr', Option.some.injEq] at hx
        exact .inr (.inl hx.symm)
      · exact .inr (.inr ⟨hs.slot_ne_of_cached hr hc hx hgr,
          hs.slot_ne_of_cached hr' hc' hx hgr'⟩)
  have hcache : (s.swapValueStateWith h h').objectCache = s.objectCache := by rw [hsame]
  refine ⟨?_, ?_, ?_, ?_, ?_, ?_, ?_⟩
  · intro x d hsl
    rw [State.slot_swap hh hc hc' hcc] at hsl
    rw [hsame]
    show x < s.slotCount ∧ d < s.sharedCount
    split_ifs at hsl with hx' hx
    · rw [Option.some.injEq] at hsl
      rw [hx', ← hsl]
      exact ⟨(hs.slot_lt hc').1, (hs.slot_lt hc).2⟩
    · rw [Option.some.injEq] at hsl
      rw [hx, ← hsl]
      exact ⟨(hs.slot_lt hc).1, (hs.slot_lt hc').2⟩
    · exact hs.slot_lt hsl
  · intro g x hx
    rw [hcache] at hx
    exact hkeep hx
  · intro x hvalue
    rw [State.value_swap hh hc hc' hcc] at hvalue
    rw [hcache]
    split_ifs at hvalue with hx' hx
    · rw [hvalue] at hv
      cases hv
    · rw [hvalue] at hv'
      cases hv'
    · obtain ⟨g, _, hcached⟩ := hs.registered hvalue
      exact ⟨g, hkeep hcached, hcached⟩
  all_goals rw [hsame]
  · exact hs.decoded_nodup
  · exact hs.decoded_subset
  · exact hs.rebuilds_le
  · exact hs.rebuilds_eq

end

/-! ## Removing -/

section

variable (hs : s.WellFormed) (hindirect : r.isIndirect = true) (hr : s.objectCache[r]? = some h)

include hs hindirect hr

/-- A handle that leaves its document shows a null of its own. -/
theorem State.WellFormed.removeFromDocument_self :
    (s.removeFromDocument h).objGen h = none ∧ (s.removeFromDocument h).value h = some .null := by
  obtain ⟨c, hc, hobj⟩ := State.slot_of_objGen (hs.cached hr)
  have hind : s.isIndirect h = true := by
    rw [State.isIndirect, hs.cached hr]
    exact hindirect
  rw [State.removeFromDocument, hc]
  simp only [hind, Bool.not_true, Bool.false_eq_true, if_false]
  split_ifs
  · rw [State.objGen_setShared, State.value_setShared, if_pos hc, if_pos hc]
    exact ⟨rfl, rfl⟩
  · simp [State.objGen, State.value]

/-- The other handles do not notice. -/
theorem State.WellFormed.removeFromDocument_of_ne {x : ℕ} (hx : x ≠ h) :
    (s.removeFromDocument h).objGen x = s.objGen x ∧
      (s.removeFromDocument h).value x = s.value x := by
  obtain ⟨c, hc, hobj⟩ := State.slot_of_objGen (hs.cached hr)
  have hind : s.isIndirect h = true := by
    rw [State.isIndirect, hs.cached hr]
    exact hindirect
  rw [State.removeFromDocument, hc]
  simp only [hind, Bool.not_true, Bool.false_eq_true, if_false]
  split_ifs with hown
  · have hslot : s.slot x ≠ some c := by
      intro hslot
      have hmem := List.all_eq_true.mp hown x (List.mem_range.mpr (hs.slot_lt hslot).1)
      simp [hx, hslot, hc] at hmem
    rw [State.objGen_setShared, State.value_setShared, if_neg hslot, if_neg hslot]
    exact ⟨rfl, rfl⟩
  · simp only [State.objGen, State.value, Function.update_of_ne hx]
    cases hsl : s.slot x with
    | none => exact ⟨rfl, rfl⟩
    | some d => simp [Function.update_of_ne (hs.slot_lt hsl).2.ne]

omit hindirect hr in
theorem State.WellFormed.slot_lt_removeFromDocument {x d : ℕ}
    (hsl : (s.removeFromDocument h).slot x = some d) :
    x < (s.removeFromDocument h).slotCount ∧ d < (s.removeFromDocument h).sharedCount := by
  cases hc : s.slot h with
  | none =>
    rw [State.removeFromDocument, hc] at hsl ⊢
    exact hs.slot_lt hsl
  | some c =>
    rw [State.removeFromDocument, hc] at hsl ⊢
    split_ifs at hsl ⊢
    · exact hs.slot_lt hsl
    · exact hs.slot_lt hsl
    · by_cases hx : x = h
      · rw [hx]
        simp only [hx, Function.update_self, Option.some.injEq] at hsl
        exact ⟨(hs.slot_lt hc).1, by rw [← hsl]; exact Nat.lt_succ_self _⟩
      · simp only [Function.update_of_ne hx] at hsl
        exact ⟨(hs.slot_lt hsl).1, (hs.slot_lt hsl).2.trans (Nat.lt_succ_self _)⟩

end

/-- The part of the state no handle touches. -/
theorem State.removeFromDocument_rest (s : State) (h : ℕ) :
    s.removeFromDocument h =
      { s with
        slot := (s.removeFromDocument h).slot
        shared := (s.removeFromDocument h).shared
        sharedCount := (s.removeFromDocument h).sharedCount } := by
  rw [State.removeFromDocument]
  split
  · rfl
  · split_ifs <;> rfl

theorem State.WellFormed.removeRows (hs : s.WellFormed) : (s.removeRows r).WellFormed :=
  ⟨hs.slot_lt, hs.cached, hs.registered, hs.decoded_nodup, hs.decoded_subset, hs.rebuilds_le,
    hs.rebuilds_eq⟩

theorem State.getElem?_uncache : (s.uncache r).objectCache[g]? =
    if r = g then none else s.objectCache[g]? :=
  getElem?_erase_ite s.objectCache r g

/-- The handle of a removed object, and the entry of the cache. -/
theorem State.WellFormed.uncacheRemoved (hs : s.WellFormed) (hindirect : r.isIndirect = true)
    (hr : s.objectCache[r]? = some h) : ((s.removeFromDocument h).uncache r).WellFormed := by
  have hne : ∀ {g x}, s.objectCache[g]? = some x → r ≠ g → x ≠ h := by
    rintro g x hg hgr rfl
    exact hs.handle_ne hgr hr hg rfl
  have hcache : ∀ g, ((s.removeFromDocument h).uncache r).objectCache[g]? =
      if r = g then none else s.objectCache[g]? := by
    intro g
    rw [State.getElem?_uncache, State.removeFromDocument_rest]
  refine ⟨hs.slot_lt_removeFromDocument, ?_, ?_, ?_, ?_, ?_, ?_⟩
  · intro g x hg
    rw [hcache] at hg
    split_ifs at hg with hgr
    show (s.removeFromDocument h).objGen x = some g
    rw [(hs.removeFromDocument_of_ne hindirect hr (hne hg hgr)).1]
    exact hs.cached hg
  · intro x hvalue
    replace hvalue : (s.removeFromDocument h).value x = none := hvalue
    show ∃ g, (s.removeFromDocument h).objGen x = some g ∧ _
    by_cases hx : x = h
    · rw [hx, (hs.removeFromDocument_self hindirect hr).2] at hvalue
      cases hvalue
    · have hobs := hs.removeFromDocument_of_ne hindirect hr hx
      rw [hobs.2] at hvalue
      obtain ⟨g, hg, hcached⟩ := hs.registered hvalue
      refine ⟨g, by rw [hobs.1, hg], ?_⟩
      rw [hcache, if_neg]
      · exact hcached
      · rintro rfl
        rw [hr, Option.some.injEq] at hcached
        exact hx hcached.symm
  all_goals rw [State.removeFromDocument_rest]
  · exact hs.decoded_nodup
  · exact hs.decoded_subset
  · exact hs.rebuilds_le
  · exact hs.rebuilds_eq

theorem wellFormed_removeObject (hs : s.WellFormed) (hindirect : r.isIndirect = true) :
    (s.removeObject r).WellFormed := by
  rw [State.removeObject]
  cases hr : s.objectCache[r]? with
  | none => exact hs.removeRows
  | some h => exact hs.removeRows.uncacheRemoved hindirect hr

theorem same_removeObject (hs : s.WellFormed) (hindirect : r.isIndirect = true) (hgr : g ≠ r) :
    State.Same g s (s.removeObject r) := by
  intro x hx
  rw [State.removeObject]
  cases hr : s.objectCache[r]? with
  | none => exact ⟨hx, rfl⟩
  | some h =>
    have hne : x ≠ h := hs.handle_ne hgr hx hr
    have hr' : (s.removeRows r).objectCache[r]? = some h := hr
    refine ⟨?_, (hs.removeRows.removeFromDocument_of_ne hindirect hr' hne).2⟩
    show (((s.removeRows r).removeFromDocument h).uncache r).objectCache[g]? = some x
    rw [State.getElem?_uncache, if_neg (Ne.symm hgr), State.removeFromDocument_rest]
    exact hx

theorem onward_removeObject : Onward s (s.removeObject r) := by
  have hrows : (s.removeObject r).rawEntries = s.rawEntries.erase r ∧
      (s.removeObject r).resolvedObjectStreams = s.resolvedObjectStreams ∧
      (s.removeObject r).resolving = s.resolving := by
    rw [State.removeObject]
    split
    · refine ⟨?_, ?_, ?_⟩
      · show ((s.removeRows r).removeFromDocument _).rawEntries = _
        rw [State.removeFromDocument_rest]
        rfl
      · show ((s.removeRows r).removeFromDocument _).resolvedObjectStreams = _
        rw [State.removeFromDocument_rest]
        rfl
      · show ((s.removeRows r).removeFromDocument _).resolving = _
        rw [State.removeFromDocument_rest]
        rfl
    · exact ⟨rfl, rfl, rfl⟩
  refine ⟨?_, ?_, hrows.2.2⟩
  · rintro g k ⟨i, hi⟩
    rw [hrows.1, getElem?_erase_ite] at hi
    split_ifs at hi
    exact ⟨i, hi⟩
  · rw [hrows.2.1]

end Flpdf.Resolver
