import Flpdf.Resolver.EditSteps

/-!
# Resolution does not undo an edit

A registered handle keeps the value it was assigned or resolved to through every
call that does not edit its object, except that the first decoding of the object
stream its row names assigns every member.
-/

namespace Flpdf.Resolver

open Program Std

variable {source : Source} {s t u : State} {h h' w k depth : ℕ} {g r : QpdfObjGen}
  {ops : List Op}

/-- The object stream the table puts the object into was first decoded in between. -/
def FirstDecodeOf (r : QpdfObjGen) (s t : State) : Prop :=
  ∃ k, s.InStream r k ∧ k ∉ s.resolvedObjectStreams ∧ k ∈ t.resolvedObjectStreams

/-- The handle of the object stays, and its value does up to a first decoding. -/
structure KeptFor (r : QpdfObjGen) (s t : State) : Prop where
  handle : ∀ h, s.objectCache[r]? = some h → t.objectCache[r]? = some h
  value : ∀ h v, s.objectCache[r]? = some h → s.value h = some v →
    t.value h = some v ∨ FirstDecodeOf r s t

theorem FirstDecodeOf.left (hdecode : FirstDecodeOf r s t) (htu : Onward t u) :
    FirstDecodeOf r s u := by
  obtain ⟨k, hin, hnot, hmem⟩ := hdecode
  exact ⟨k, hin, hnot, htu.streams hmem⟩

theorem FirstDecodeOf.right (hst : Onward s t) (hdecode : FirstDecodeOf r t u) :
    FirstDecodeOf r s u := by
  obtain ⟨k, hin, hnot, hmem⟩ := hdecode
  exact ⟨k, hst.inStream hin, fun hk => hnot (hst.streams hk), hmem⟩

theorem KeptFor.trans (hkept : KeptFor r s t) (hkept' : KeptFor r t u) (hst : Onward s t)
    (htu : Onward t u) : KeptFor r s u := by
  refine ⟨fun h hr => hkept'.handle h (hkept.handle h hr), ?_⟩
  intro h v hr hv
  rcases hkept.value h v hr hv with hv' | hdecode
  · rcases hkept'.value h v (hkept.handle h hr) hv' with hv'' | hdecode
    · exact .inl hv''
    · exact .inr (hdecode.right hst)
  · exact .inr (hdecode.left htu)

theorem KeptFor.of_same (hsame : State.Same r s t) : KeptFor r s t := by
  refine ⟨fun h hr => (hsame h hr).1, ?_⟩
  intro h v hr hv
  rw [(hsame h hr).2]
  exact .inl hv

/-- What a call leaves behind. -/
structure Performed (op : Op) (s t : State) : Prop where
  wellFormed : t.WellFormed
  onward : Onward s t
  kept : ∀ r, ¬op.Edits r → KeptFor r s t

theorem Since.onward {opened : ℕ → Prop} {streamed : QpdfObjGen → Prop}
    (ht : Since source opened streamed s t) : Onward s t :=
  ⟨ht.progress.inStream, ht.progress.streams, ht.progress.resolving⟩

/-- Resolution keeps every object. -/
theorem Since.kept {streamed : QpdfObjGen → Prop}
    (ht : Since source (fun _ => False) streamed s t) (hs : s.WellFormed) (r : QpdfObjGen) :
    KeptFor r s t := by
  obtain ⟨_, hprogress⟩ := ht
  refine ⟨fun _ => hprogress.cache, ?_⟩
  intro h v hr hv
  obtain ⟨c, hc, hobj⟩ := State.slot_of_objGen (hs.cached hr)
  have hsome : (s.shared c).value ≠ none := by
    rw [← State.value_of_slot hc, hv]
    simp
  rcases hprogress.value c (hs.slot_lt hc).2 hsome with hopen | heq | hdecode
  · exact hopen.elim
  · refine .inl ?_
    rw [State.value_of_slot (hprogress.slot hc), heq, ← State.value_of_slot hc, hv]
  · obtain ⟨g, k, hg, hin, hnot, hmem⟩ := hdecode
    rw [hobj, Option.some.injEq] at hg
    subst hg
    exact .inr ⟨k, hin, hnot, hmem⟩

theorem Performed.of_since {op : Op} {streamed : QpdfObjGen → Prop} (hs : s.WellFormed)
    (ht : Since source (fun _ => False) streamed s t) : Performed op s t :=
  ⟨ht.wellFormed, ht.onward, fun r _ => ht.kept hs r⟩

/-! ## The calls -/

theorem relates_dereference (h : ℕ) :
    (dereference source depth h).Relates (Keeps source (fun _ => False) (fun _ => True)) := by
  apply relates_of_since
  intro s hs hin
  refine (meets_tryDereferenceWith ?_ hs hin h).mono fun _ _ h => h.1
  intro s hs hin g h hg hun
  exact meets_resolveQpdfObjGen depth hs hin hg hun

theorem canonicalHandle_eq (hs : s.WellFormed) :
    canonicalHandle g s = some (.ok (s.handleOf g), s.getObjectHandle g) := by
  show handleOrCanonical g s.objectCache[g]? s = _
  cases hg : s.objectCache[g]? with
  | none => rfl
  | some h =>
    rw [State.getObjectHandle_of_cached hs hg, State.handleOf, hg]
    rfl

theorem resolveIfUnresolved_eq (hs : s.WellFormed) (hg : s.objectCache[g]? = some h) :
    resolveIfUnresolved source depth g h s = dereference source depth h s := by
  exact (tryDereferenceWith_of_objGen (hs.cached hg)).symm

/-- Both objects of a swap have been fetched and resolved. -/
structure SwapReady (source : Source) (s : State) (first second : QpdfObjGen) (h h' : ℕ)
    (u : State) : Prop where
  runs : Runs source s [.fetch first, .dereference h, .fetch second, .dereference h'] u
  first : u.objectCache[first]? = some h
  second : u.objectCache[second]? = some h'
  first_isSome : (u.value h).isSome
  second_isSome : (u.value h').isSome

/-- A step of a run whose outcome is known. -/
theorem Runs.single {op : Op} {result : Except Error Unit} (depth : ℕ) (hproper : op.Proper s)
    (hstep : op.perform source depth s = some (result, t)) : Runs source s [op] t :=
  .cons hproper hstep (.nil t)

theorem Runs.append {ops' : List Op} (hst : Runs source s ops t) (htu : Runs source t ops' u) :
    Runs source s (ops ++ ops') u := by
  induction hst with
  | nil => exact htu
  | cons hproper hstep _ ih => exact .cons hproper hstep (ih htu)

/-- Fetching an object and dereferencing its handle. -/
theorem meets_resolvedHandle (hs : s.WellFormed) :
    (resolvedHandle source depth g).Meets s fun result t =>
      Since source (fun _ => False) (fun _ => True) s t ∧
        ∀ h, result = .ok h → Runs source s [.fetch g, .dereference h] t ∧
          t.objectCache[g]? = some h ∧ (t.value h).isSome := by
  have hget : Since source (fun _ => False) (fun _ => True) s (s.getObjectHandle g) :=
    (Since.refl hs).keeps (fun _ _ _ => trivial) keeps_getObjectHandle
  have hcached := State.handleOf_cached (g := g) hs
  have hfetch : Runs source s [.fetch g] (s.getObjectHandle g) :=
    Runs.single 0 trivial (rfl : _ = some (Except.ok (), s.getObjectHandle g))
  have hcanonical : (canonicalHandle g).Meets s fun result t =>
      result = .ok (s.handleOf g) ∧ t = s.getObjectHandle g := by
    intro result t hrun
    rw [canonicalHandle_eq hs] at hrun
    cases hrun
    exact ⟨rfl, rfl⟩
  refine hcanonical.bind ?_ ?_
  · rintro h t ⟨heq, rfl⟩
    cases heq
    have hresolve : (resolveIfUnresolved source depth g (s.handleOf g)).Meets (s.getObjectHandle g)
        fun result t => Since source (fun _ => False) (fun _ => True) s t ∧
          Runs source s [.fetch g, .dereference (s.handleOf g)] t ∧
          t.objectCache[g]? = some (s.handleOf g) ∧
          (result = .ok () → (t.value (s.handleOf g)).isSome) := by
      intro result t hrun
      rw [resolveIfUnresolved_eq hget.wellFormed hcached] at hrun
      have hderef : Runs source (s.getObjectHandle g) [.dereference (s.handleOf g)] t :=
        Runs.single depth trivial hrun
      have hsettles : (dereference source depth (s.handleOf g)).Meets (s.getObjectHandle g)
          fun result t => Since source (fun _ => False) (fun _ => True) (s.getObjectHandle g) t ∧
            (result = .ok () → (t.value (s.handleOf g)).isSome) :=
        meets_tryDereferenceWith (fun _ hs hin _ _ => meets_resolveQpdfObjGen depth hs hin)
          hget.wellFormed (fun _ _ _ => trivial) _
      obtain ⟨hsince, hsome⟩ := hsettles result t hrun
      exact ⟨⟨hsince.wellFormed, hget.progress.trans hsince.progress⟩, hfetch.append hderef,
        hsince.progress.cache hcached, hsome⟩
    refine hresolve.bind ?_ ?_
    · rintro _ t ⟨ht, hruns, hcached, hsome⟩
      apply meets_pure
      refine ⟨ht, ?_⟩
      intro h heq
      cases heq
      exact ⟨hruns, hcached, hsome rfl⟩
    · rintro e t ⟨ht, _⟩
      exact ⟨ht, fun h heq => by cases heq⟩
  · rintro e t ⟨heq, _⟩
    cases heq

/-- A registered handle that is resolved stays so. -/
theorem Since.isSome_of_cached {streamed : QpdfObjGen → Prop}
    (ht : Since source (fun _ => False) streamed s t) (hs : s.WellFormed)
    (hr : s.objectCache[r]? = some h) (hsome : (s.value h).isSome) : (t.value h).isSome := by
  obtain ⟨c, hc, _⟩ := State.slot_of_objGen (hs.cached hr)
  rw [State.value_of_slot hc, Option.isSome_iff_ne_none] at hsome
  rw [State.value_of_slot (ht.progress.slot hc), Option.isSome_iff_ne_none]
  exact ht.progress.resolved c (hs.slot_lt hc).2 hsome

/-- A swap that succeeds exchanges two resolved values; one that fails exchanges none. -/
theorem meets_swapObjects (hs : s.WellFormed) (first second : QpdfObjGen) :
    (swapObjects source depth first second).Meets s fun result t =>
      (∃ e, result = .error e ∧ Since source (fun _ => False) (fun _ => True) s t) ∨
        ∃ h h' u, result = .ok () ∧ Since source (fun _ => False) (fun _ => True) s u ∧
          SwapReady source s first second h h' u ∧ t = u.swapValueStateWith h h' := by
  refine Meets.bind (meets_resolvedHandle hs) ?_ ?_
  · rintro h t ⟨ht, hfirst⟩
    obtain ⟨hruns, hcached, hsome⟩ := hfirst h rfl
    refine Meets.bind (meets_resolvedHandle ht.wellFormed) ?_ ?_
    · rintro h' u ⟨hu, hsecond⟩
      obtain ⟨hruns', hcached', hsome'⟩ := hsecond h' rfl
      apply meets_modify
      refine .inr ⟨h, h', u, rfl, ⟨hu.wellFormed, ht.progress.trans hu.progress⟩, ?_, rfl⟩
      exact ⟨hruns.append hruns', hu.progress.cache hcached, hcached',
        hu.isSome_of_cached ht.wellFormed hcached hsome, hsome'⟩
    · rintro e u ⟨hu, _⟩
      exact .inl ⟨e, rfl, hu.wellFormed, ht.progress.trans hu.progress⟩
  · rintro e t ⟨ht, _⟩
    exact .inl ⟨e, rfl, ht⟩

theorem State.swapValueStateWith_self (s : State) (h : ℕ) : s.swapValueStateWith h h = s := by
  rw [State.swapValueStateWith]
  split
  · rw [if_pos (.inl rfl)]
  · rfl

theorem onward_swapValueStateWith : Onward s (s.swapValueStateWith h h') := by
  rw [State.swapValueStateWith]
  split
  · split_ifs
    · exact .refl s
    · exact ⟨fun h => h, Finset.Subset.refl _, rfl⟩
  · exact .refl s

theorem State.replaceObject_rest (s : State) (r : QpdfObjGen) (w : ℕ) :
    (s.replaceObject r w).rawEntries = s.rawEntries ∧
      (s.replaceObject r w).resolvedObjectStreams = s.resolvedObjectStreams ∧
      (s.replaceObject r w).resolving = s.resolving := by
  rw [State.replaceObject, State.promoteToIndirect]
  split <;> split <;> exact ⟨rfl, rfl, rfl⟩

theorem onward_replaceObject : Onward s (s.replaceObject r w) := by
  obtain ⟨hrows, hstreams, hresolving⟩ := State.replaceObject_rest s r w
  refine ⟨?_, ?_, hresolving⟩
  · rintro g k ⟨i, hi⟩
    rw [hrows] at hi
    exact ⟨i, hi⟩
  · rw [hstreams]

/-- A replacement that succeeds, or nothing. -/
theorem meets_replaceObject :
    (replaceObject r w).Meets s fun result t =>
      t = s ∧ (∃ e, result = .error e) ∨ ∃ c, s.slot w = some c ∧ t = s.replaceObject r w ∧
        result = .ok ((s.objectCache[r]?).getD w) := by
  apply meets_get_bind
  split_ifs with hreject
  · exact meets_fail (.inl ⟨rfl, _, rfl⟩)
  · apply meets_modify_bind
    apply meets_pure
    cases hc : s.slot w with
    | none => simp [hc] at hreject
    | some c => exact .inr ⟨c, rfl, rfl, rfl⟩

theorem meets_perform {op : Op} (hs : s.WellFormed) (hproper : op.Proper s) :
    (op.perform source depth).Meets s fun _ t => Performed op s t := by
  have hstart : Since source (fun _ => False) (fun _ => True) s s := .refl hs
  have hrefl : Performed op s s := .of_since hs hstart
  cases op with
  | fetch g =>
    have hget : (getObjectHandle g : Program State Error ℕ).Relates
        (Keeps source (fun _ => False) (fun _ => True)) := relates_getObjectHandle
    exact (hstart.meets (fun _ _ _ => trivial) (hget.bind fun _ => relates_pure ())).mono
      fun _ t ht => .of_since hs ht
  | direct v =>
    have hnew : (newDirect v : Program State Error ℕ).Relates
        (Keeps source (fun _ => False) (fun _ => True)) := relates_newDirect
    exact (hstart.meets (fun _ _ _ => trivial) (hnew.bind fun _ => relates_pure ())).mono
      fun _ t ht => .of_since hs ht
  | dereference h =>
    exact (hstart.meets (fun _ _ _ => trivial) (relates_dereference h)).mono
      fun _ t ht => .of_since hs ht
  | replaceObject r w =>
    refine Meets.bind meets_replaceObject ?_ ?_
    · rintro h t (⟨rfl, _⟩ | ⟨c, hc, rfl, _⟩)
      · exact meets_pure hrefl
      · apply meets_pure
        refine ⟨wellFormed_replaceObject hs hproper hc, onward_replaceObject, ?_⟩
        intro r' hedit
        exact .of_same (same_replaceObject hs hproper hc (Ne.symm hedit))
    · rintro e t (⟨rfl, _⟩ | ⟨c, hc, rfl, heq⟩)
      · exact hrefl
      · cases heq
  | swapObjects first second =>
    refine (meets_swapObjects hs first second).mono ?_
    rintro result t (⟨e, _, ht⟩ | ⟨h, h', u, _, hu, hready, rfl⟩)
    · exact .of_since hs ht
    · by_cases hne : first = second
      · subst hne
        have hsame := hready.first
        rw [hready.second, Option.some.injEq] at hsame
        rw [hsame, State.swapValueStateWith_self]
        exact .of_since hs hu
      · refine ⟨wellFormed_swapValueStateWith hu.wellFormed hne hready.first hready.second
          hready.first_isSome hready.second_isSome, hu.onward.trans onward_swapValueStateWith, ?_⟩
        intro r hedit
        have hkept : KeptFor r u (u.swapValueStateWith h h') :=
          .of_same (same_swapValueStateWith hu.wellFormed hne hready.first hready.second
            (fun h => hedit (.inl h.symm)) fun h => hedit (.inr h.symm))
        exact (hu.kept hs r).trans hkept hu.onward onward_swapValueStateWith
  | removeObject r =>
    apply meets_modify
    refine ⟨wellFormed_removeObject hs hproper, onward_removeObject, ?_⟩
    intro r' hedit
    exact .of_same (same_removeObject hs hproper (Ne.symm hedit))

/-! ## Runs -/

theorem wellFormed_opened (rows : ExtTreeMap QpdfObjGen XrefEntry) (reconstructed : Bool) :
    (State.opened rows reconstructed).WellFormed where
  slot_lt hc := by cases hc
  cached hg := by simp [State.opened] at hg
  registered hv := by cases hv
  decoded_nodup := List.nodup_nil
  decoded_subset _ hk := by cases hk
  rebuilds_le := by
    show (if reconstructed then 1 else 0) ≤ 1
    split_ifs <;> omega
  rebuilds_eq hrec := by
    cases reconstructed with
    | false => rfl
    | true => cases hrec

theorem Runs.wellFormed (hruns : Runs source s ops t) (hs : s.WellFormed) : t.WellFormed := by
  induction hruns with
  | nil => exact hs
  | cons hproper hstep _ ih => exact ih (meets_perform hs hproper _ _ hstep).wellFormed

theorem Reachable.wellFormed (hs : Reachable source s) : s.WellFormed := by
  obtain ⟨rows, reconstructed, ops, hruns⟩ := hs
  exact hruns.wellFormed (wellFormed_opened rows reconstructed)

/-- Between two calls nothing is marked. -/
theorem Runs.resolving (hruns : Runs source s ops t) (hs : s.WellFormed) :
    t.resolving = s.resolving := by
  induction hruns with
  | nil => rfl
  | cons hproper hstep _ ih =>
    have hperformed := meets_perform hs hproper _ _ hstep
    rw [ih hperformed.wellFormed, hperformed.onward.resolving]

theorem Reachable.resolving (hs : Reachable source s) : s.resolving = ∅ := by
  obtain ⟨rows, reconstructed, ops, hruns⟩ := hs
  exact hruns.resolving (wellFormed_opened rows reconstructed)

theorem Runs.kept (hruns : Runs source s ops t) (hs : s.WellFormed)
    (hedits : ∀ op ∈ ops, ¬op.Edits r) : Onward s t ∧ KeptFor r s t := by
  induction hruns with
  | nil s => exact ⟨.refl s, fun _ hr => hr, fun _ _ _ hv => .inl hv⟩
  | cons hproper hstep _ ih =>
    have hperformed := meets_perform hs hproper _ _ hstep
    obtain ⟨honward, hkept⟩ := ih hperformed.wellFormed
      fun op hop => hedits op (List.mem_cons_of_mem _ hop)
    exact ⟨hperformed.onward.trans honward,
      (hperformed.kept r (hedits _ List.mem_cons_self)).trans hkept hperformed.onward honward⟩

/-- In every state a run of calls leads to: a handle keeps its value through any calls
that do not edit its object, up to the first decoding of the object stream the table
names for it; a replacement is what the handle of the object shows; and a swap
exchanges the values the two resolved handles had. -/
theorem resolution_keeps_edits (source : Source) (s : State) (hs : Reachable source s) :
    (∀ r h v ops t, s.objectCache[r]? = some h → s.value h = some v →
      (∀ op ∈ ops, ¬op.Edits r) → Runs source s ops t →
      t.objectCache[r]? = some h ∧ (t.value h = some v ∨ FirstDecodeOf r s t)) ∧
    (∀ r w h t, s.objGen w = none → replaceObject r w s = some (.ok h, t) →
      t.objectCache[r]? = some h ∧ t.value h = s.value w ∧ (t.value h).isSome ∧
        ∀ h', s.objectCache[r]? = some h' → h' = h) ∧
    ∀ depth first second t, swapObjects source depth first second s = some (.ok (), t) →
      ∃ h h' u, SwapReady source s first second h h' u ∧
        t.objectCache[first]? = some h ∧ t.objectCache[second]? = some h' ∧
        t.value h = u.value h' ∧ t.value h' = u.value h := by
  have hwf := hs.wellFormed
  refine ⟨?_, ?_, ?_⟩
  · intro r h v ops t hr hv hedits hruns
    have hkept := (hruns.kept hwf hedits).2
    exact ⟨hkept.handle h hr, hkept.value h v hr hv⟩
  · intro r w h t hw hrun
    rcases meets_replaceObject _ _ hrun with ⟨_, e, heq⟩ | ⟨c, hc, rfl, heq⟩
    · cases heq
    · rw [Except.ok.injEq] at heq
      have hslot : (s.replaceObject r w).slot h = some c := by
        rw [State.slot_replaceObject hc, if_pos heq]
      rw [(State.observe_replacement hc hslot).2, State.value_of_slot hc]
      refine ⟨?_, rfl, hwf.direct_isSome hw hc, ?_⟩
      · rw [State.objectCache_replaceObject hc, if_pos rfl, heq]
      · intro h' hr
        rw [heq, hr, Option.getD_some]
  · intro depth first second t hrun
    rcases meets_swapObjects hwf first second _ _ hrun with
      ⟨e, heq, _⟩ | ⟨h, h', u, _, hu, hready, rfl⟩
    · cases heq
    · refine ⟨h, h', u, hready, ?_⟩
      by_cases hne : first = second
      · subst hne
        have hsame := hready.first
        rw [hready.second, Option.some.injEq] at hsame
        rw [hsame, State.swapValueStateWith_self]
        exact ⟨hready.first, hready.first, rfl, rfl⟩
      · obtain ⟨c, c', hc, hc', hcc, _, _⟩ :=
          hu.wellFormed.exists_slots hne hready.first hready.second
        have hh := hu.wellFormed.handle_ne hne hready.first hready.second
        have hcache : (u.swapValueStateWith h h').objectCache = u.objectCache := by
          rw [State.swapValueStateWith, hc, hc']
          simp only [hh, hcc, or_self, if_false, State.setShared]
        rw [hcache, State.value_swap hh hc hc' hcc, State.value_swap hh hc hc' hcc, if_neg hh,
          if_pos rfl, if_pos rfl]
        exact ⟨hready.first, hready.second, rfl, rfl⟩

/-! ## Members of one object stream -/

/-- A file with objects 1 and 2 in object stream 5. -/
def sampleSource : Source where
  attemptRecovery := true
  deliverWarning := fun _ => .ok ()
  seek := fun _ => .ok ()
  header := fun _ => .ok ⟨5, 0⟩
  parseObject := fun _ => .done (.ok (.dictionary []))
  readStream := fun offset dictionary =>
    .directHandle dictionary fun h => .done (.ok (.stream h offset 5))
  objectEndOffsets := fun _ => .ok ()
  decodeObjectStream := fun _ _ => .done (.ok (some ⟨[(1, 0), (2, 3)], 8, ascii "10 20"⟩))
  parseMember := fun _ offset => .done (.ok (.integer (if offset = 0 then 10 else 20)))
  scannedEntries := []
  scanResult := .ok ()

def sampleRows : ExtTreeMap QpdfObjGen XrefEntry :=
  ((∅ : ExtTreeMap QpdfObjGen XrefEntry).insert ⟨1, 0⟩ (.compressed 5 0)).insert ⟨2, 0⟩
    (.compressed 5 1) |>.insert ⟨5, 0⟩ (.uncompressed 15)

/-- A replacement is what every handle of the object shows until the object is edited
again. -/
def EditsSurvive (source : Source) : Prop :=
  ∀ s, Reachable source s → ∀ r w h t, s.objGen w = none →
    replaceObject r w s = some (.ok h, t) →
    ∀ ops u, (∀ op ∈ ops, ¬op.Edits r) → Runs source t ops u → u.value h = s.value w

/-- Fetching and resolving object 2 decodes the stream, and its member 1 replaces the edit. -/
theorem not_editsSurvive : ¬∀ source, EditsSurvive source := by
  intro hall
  let s := (State.opened sampleRows false).newSlot ⟨none, some (.integer 99)⟩
  let t := s.replaceObject ⟨1, 0⟩ 0
  have hstart : performAll sampleSource 0 [.direct (.integer 99)]
      (State.opened sampleRows false) = some s := rfl
  have hanswer : (performAll sampleSource 5 [.fetch ⟨2, 0⟩, .dereference 1] t).map
      (fun u => u.value 0) = some (some (.integer 10)) := by decide
  obtain ⟨u, hu, hvalue⟩ := Option.map_eq_some_iff.mp hanswer
  have hreach : Reachable sampleSource s := ⟨_, _, _, runs_performAll hstart⟩
  have hsame := hall sampleSource s hreach ⟨1, 0⟩ 0 0 t rfl rfl _ u (by simp [Op.Edits])
    (runs_performAll hu)
  rw [hvalue] at hsame
  cases hsame

/-- The same edit, seen right after it. -/
theorem resolution_keeps_edits_sample :
    ∃ s h t, Reachable sampleSource s ∧ replaceObject ⟨1, 0⟩ 0 s = some (.ok h, t) ∧
      t.objectCache[(⟨1, 0⟩ : QpdfObjGen)]? = some h ∧ t.value h = some (.integer 99) := by
  let s := (State.opened sampleRows false).newSlot ⟨none, some (.integer 99)⟩
  have hstart : performAll sampleSource 0 [.direct (.integer 99)]
      (State.opened sampleRows false) = some s := rfl
  have hreach : Reachable sampleSource s := ⟨_, _, _, runs_performAll hstart⟩
  have hreplace : replaceObject ⟨1, 0⟩ 0 s = some (.ok 0, s.replaceObject ⟨1, 0⟩ 0) := rfl
  have hkept := (resolution_keeps_edits sampleSource s hreach).2.1 ⟨1, 0⟩ 0 0 _ rfl hreplace
  exact ⟨s, 0, _, hreach, hreplace, hkept.1, hkept.2.1⟩

end Flpdf.Resolver
