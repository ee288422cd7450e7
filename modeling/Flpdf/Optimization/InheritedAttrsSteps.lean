import Flpdf.Optimization.InheritedAttrs

/-!
# One step of the inherited-attribute walk

What opening a node and reaching a page change: the inheritable keys of that
node or page, the stacks above, and the identity of values that become indirect.
-/

namespace Flpdf

open Std

variable {heap heap' heap'' : Heap} {a n kid v : Handle} {key k : Bytes}
  {keyAncestors : KeyAncestors} {targets targets' : List Handle}

/-- The value that the nodes above hand down for a key. -/
def envOf (keyAncestors : KeyAncestors) (key : Bytes) : Option Handle :=
  (keyAncestors.getD key []).head?

/-- Only the inheritable keys of the targets change; nothing but a direct container
under such a key becomes indirect. -/
structure Effect (heap heap' : Heap) (targets : List Handle) : Prop where
  value_eq : ∀ a, a ∉ targets → heap'.value a = heap.value a
  value_of_not_dictionary : ∀ a, heap.isDictionary a = false → heap'.value a = heap.value a
  dictionary_eq : ∀ a, heap'.isDictionary a = heap.isDictionary a
  getKey_eq : ∀ a key, key ∉ inheritableKeys → heap'.getKey a key = heap.getKey a key
  identity_eq : ∀ a, heap'.identity a = heap.identity a ∨
    heap.identity a = none ∧ heap.isScalar a = false ∧
      ∃ n ∈ targets, ∃ key ∈ inheritableKeys, heap.visible n key = some a

namespace Effect

theorem refl (heap : Heap) (targets : List Handle) : Effect heap heap targets :=
  ⟨fun _ _ => rfl, fun _ _ => rfl, fun _ => rfl, fun _ _ _ => rfl, fun _ => .inl rfl⟩

theorem isNull_eq (h : Effect heap heap' targets) (a : Handle) : heap'.isNull a = heap.isNull a := by
  cases hdictionary : heap.isDictionary a with
  | true =>
    have hdictionary' := (h.dictionary_eq a).trans hdictionary
    rw [Heap.isNull_of_isDictionary hdictionary, Heap.isNull_of_isDictionary hdictionary']
  | false => exact Heap.isNull_congr (h.value_of_not_dictionary a hdictionary)

theorem isScalar_eq (h : Effect heap heap' targets) (a : Handle) :
    heap'.isScalar a = heap.isScalar a := by
  cases hdictionary : heap.isDictionary a with
  | true =>
    obtain ⟨entries, hvalue⟩ := Heap.isDictionary_iff.mp hdictionary
    obtain ⟨entries', hvalue'⟩ := Heap.isDictionary_iff.mp ((h.dictionary_eq a).trans hdictionary)
    rw [Heap.isScalar, Heap.isScalar, hvalue, hvalue']
  | false => rw [Heap.isScalar, Heap.isScalar, h.value_of_not_dictionary a hdictionary]

theorem visible_eq (h : Effect heap heap' targets) (ha : a ∉ targets) (key : Bytes) :
    heap'.visible a key = heap.visible a key := by
  rw [Heap.visible, Heap.visible, Heap.getKey_congr (h.value_eq a ha)]
  congr 1
  funext child
  rw [h.isNull_eq]

theorem isIndirect_of (h : Effect heap heap' targets) (ha : heap.isIndirect a = true) :
    heap'.isIndirect a = true ∧ heap'.identity a = heap.identity a := by
  rcases h.identity_eq a with hsame | ⟨hnone, -⟩
  · rw [Heap.isIndirect, hsame]
    exact ⟨ha, rfl⟩
  · rw [Heap.isIndirect, hnone] at ha
    cases ha

theorem trans (h : Effect heap heap' targets) (h' : Effect heap' heap'' targets')
    (hdisjoint : ∀ n ∈ targets', n ∉ targets) : Effect heap heap'' (targets ++ targets') where
  value_eq a ha := by
    rw [List.mem_append, not_or] at ha
    rw [h'.value_eq a ha.2, h.value_eq a ha.1]
  value_of_not_dictionary a ha := by
    rw [h'.value_of_not_dictionary a ((h.dictionary_eq a).trans ha),
      h.value_of_not_dictionary a ha]
  dictionary_eq a := (h'.dictionary_eq a).trans (h.dictionary_eq a)
  getKey_eq a key hkey := (h'.getKey_eq a key hkey).trans (h.getKey_eq a key hkey)
  identity_eq a := by
    have hfirst := h.identity_eq a
    have hsecond := h'.identity_eq a
    rcases hfirst with hsame | ⟨hnone, hscalar, n, hn, key, hkey, hvisible⟩
    · rcases hsecond with hsame' | ⟨hnone, hscalar, n, hn, key, hkey, hvisible⟩
      · exact .inl (hsame'.trans hsame)
      · rw [hsame] at hnone
        rw [h.isScalar_eq] at hscalar
        rw [h.visible_eq (hdisjoint n hn)] at hvisible
        exact .inr ⟨hnone, hscalar, n, List.mem_append_right _ hn, key, hkey, hvisible⟩
    · exact .inr ⟨hnone, hscalar, n, List.mem_append_left _ hn, key, hkey, hvisible⟩

theorem isNameAndEquals_eq (h : Effect heap heap' targets) (name : Bytes) (a : Handle) :
    heap'.isNameAndEquals name a = heap.isNameAndEquals name a := by
  cases hdictionary : heap.isDictionary a with
  | true =>
    obtain ⟨entries, hvalue⟩ := Heap.isDictionary_iff.mp hdictionary
    obtain ⟨entries', hvalue'⟩ := Heap.isDictionary_iff.mp ((h.dictionary_eq a).trans hdictionary)
    rw [Heap.isNameAndEquals, Heap.isNameAndEquals, hvalue, hvalue']
  | false => rw [Heap.isNameAndEquals, Heap.isNameAndEquals, h.value_of_not_dictionary a hdictionary]

theorem arrayItems_eq (h : Effect heap heap' targets) (a : Handle) :
    heap'.arrayItems a = heap.arrayItems a := by
  cases hdictionary : heap.isDictionary a with
  | true =>
    obtain ⟨entries, hvalue⟩ := Heap.isDictionary_iff.mp hdictionary
    obtain ⟨entries', hvalue'⟩ := Heap.isDictionary_iff.mp ((h.dictionary_eq a).trans hdictionary)
    rw [Heap.arrayItems, Heap.arrayItems, hvalue, hvalue']
  | false => rw [Heap.arrayItems, Heap.arrayItems, h.value_of_not_dictionary a hdictionary]

theorem type_not_inheritable : ascii "/Type" ∉ inheritableKeys := by
  decide

theorem kids_not_inheritable : ascii "/Kids" ∉ inheritableKeys := by
  decide

theorem isDictionaryOfType_eq (h : Effect heap heap' targets) (a : Handle) (type : Bytes) :
    heap'.isDictionaryOfType a type = heap.isDictionaryOfType a type := by
  rw [Heap.isDictionaryOfType, Heap.isDictionaryOfType, h.dictionary_eq,
    h.getKey_eq a _ type_not_inheritable, funext (h.isNameAndEquals_eq type)]

theorem arrayAt_eq (h : Effect heap heap' targets) (a : Handle) :
    heap'.arrayAt a (ascii "/Kids") = heap.arrayAt a (ascii "/Kids") := by
  rw [Heap.arrayAt, Heap.arrayAt, h.getKey_eq a _ kids_not_inheritable, funext h.arrayItems_eq]

end Effect

/-! ## Single changes -/

theorem effect_removeKey (hkey : key ∈ inheritableKeys) : Effect heap (heap.removeKey n key) [n] where
  value_eq a ha := Heap.value_removeKey_of_ne (mt List.mem_singleton.mpr ha)
  value_of_not_dictionary a ha := by
    by_cases h : a = n
    · subst h
      rw [Heap.removeKey]
      split
      · rename_i entries hvalue
        rw [Heap.isDictionary, hvalue] at ha
        cases ha
      · rfl
    · exact Heap.value_removeKey_of_ne h
  dictionary_eq _ := Heap.isDictionary_removeKey
  getKey_eq a other hother := by
    by_cases h : a = n
    · subst h
      have hne : key ≠ other := fun h => hother (h ▸ hkey)
      rw [Heap.getKey_removeKey, if_neg hne]
    · exact Heap.getKey_congr (Heap.value_removeKey_of_ne h)
  identity_eq _ := .inl Heap.identity_removeKey

theorem effect_replaceKey (hkey : key ∈ inheritableKeys) (hdictionary : heap.isDictionary kid = true)
    (hnull : heap.isNull v = false) : Effect heap (heap.replaceKey kid key v) [kid] where
  value_eq a ha := Heap.value_replaceKey_of_ne (mt List.mem_singleton.mpr ha)
  value_of_not_dictionary a ha := by
    by_cases h : a = kid
    · subst h
      rw [hdictionary] at ha
      cases ha
    · exact Heap.value_replaceKey_of_ne h
  dictionary_eq _ := Heap.isDictionary_replaceKey
  getKey_eq a other hother := by
    by_cases h : a = kid
    · subst h
      have hne : key ≠ other := fun h => hother (h ▸ hkey)
      rw [Heap.getKey_replaceKey hdictionary hnull, if_neg hne]
    · exact Heap.getKey_congr (Heap.value_replaceKey_of_ne h)
  identity_eq _ := .inl Heap.identity_replaceKey

namespace Heap

@[simp] theorem value_promoteInherited : (heap.promoteInherited v).value a = heap.value a := by
  rw [promoteInherited]
  split
  · rfl
  · split
    · exact value_makeIndirect
    · rfl

theorem identity_promoteInherited (heap : Heap) (v a : Handle) :
    (heap.promoteInherited v).identity a = heap.identity a ∨
    a = v ∧ heap.identity a = none ∧ heap.isScalar a = false := by
  rw [promoteInherited]
  split
  · exact .inl rfl
  · rename_i hdirect
    split
    · rename_i hscalar
      rw [identity_makeIndirect]
      by_cases h : a = v
      · subst h
        right
        refine ⟨rfl, ?_, by simpa using hscalar⟩
        rw [isIndirect, Bool.not_eq_true, Option.isSome_eq_false_iff, Option.isNone_iff_eq_none]
          at hdirect
        exact hdirect
      · exact .inl (if_neg h)
    · exact .inl rfl

end Heap

/-! ## Opening a node -/

/-- The state after some of the inheritable keys have been taken from a node. -/
structure Taken (heap : Heap) (n : Handle) (keyAncestors : KeyAncestors) (done : List Bytes)
    (st : Heap × KeyAncestors × List Bytes) : Prop where
  effect : Effect heap st.1 [n]
  getKey_todo : ∀ key, key ∉ done → st.1.getKey n key = heap.getKey n key
  visible_done : ∀ key ∈ done, st.1.visible n key = none
  ancestors : ∀ k, st.2.1[k]? =
    if k ∈ done ∧ (heap.visible n k).isSome then
      some ((heap.visible n k).toList ++ keyAncestors.getD k [])
    else keyAncestors[k]?
  ownKeys : st.2.2 = done.filter fun key => (heap.visible n key).isSome

theorem Taken.start : Taken heap n keyAncestors [] (heap, keyAncestors, []) where
  effect := .refl heap [n]
  getKey_todo _ _ := rfl
  visible_done _ h := absurd h List.not_mem_nil
  ancestors k := by
    rw [if_neg]
    exact fun h => absurd h.1 List.not_mem_nil
  ownKeys := rfl

theorem Taken.visible_todo {done : List Bytes} {st : Heap × KeyAncestors × List Bytes}
    (h : Taken heap n keyAncestors done st) (hkey : key ∉ done) :
    st.1.visible n key = heap.visible n key := by
  rw [Heap.visible, Heap.visible, h.getKey_todo key hkey]
  congr 1
  funext child
  rw [h.effect.isNull_eq]

theorem Taken.step {done : List Bytes} {st : Heap × KeyAncestors × List Bytes}
    (h : Taken heap n keyAncestors done st) (hnew : key ∉ done) (hkey : key ∈ inheritableKeys) :
    Taken heap n keyAncestors (done ++ [key]) (Heap.pushNodeAttribute n st key) := by
  have hvisible := h.visible_todo hnew
  rw [Heap.pushNodeAttribute]
  cases hvalue : st.1.visible n key with
  | none =>
    rw [hvalue] at hvisible
    constructor
    · exact h.effect
    · intro other hother
      rw [List.mem_append, not_or] at hother
      exact h.getKey_todo other hother.1
    · intro other hother
      rcases List.mem_append.mp hother with hother | hother
      · exact h.visible_done other hother
      · rw [List.mem_singleton.mp hother]
        exact hvalue
    · intro k
      rw [h.ancestors k]
      by_cases hk : k = key
      · subst hk
        simp [← hvisible]
      · simp [hk]
    · rw [h.ownKeys, List.filter_append]
      simp [← hvisible]
  | some v =>
    rw [hvalue] at hvisible
    have hsome := Heap.visible_eq_some.mp hvisible.symm
    have hremove : Effect st.1 (st.1.removeKey n key) [n] := effect_removeKey hkey
    have hgetKey : ∀ other,
        ((st.1.removeKey n key).promoteInherited v).getKey n other =
          if key = other then none else st.1.getKey n other := by
      intro other
      rw [Heap.getKey_congr Heap.value_promoteInherited, Heap.getKey_removeKey]
    have heffect : Effect heap ((st.1.removeKey n key).promoteInherited v) [n] := by
      constructor
      · intro a ha
        rw [Heap.value_promoteInherited, hremove.value_eq a ha, h.effect.value_eq a ha]
      · intro a ha
        have ha' := (h.effect.dictionary_eq a).trans ha
        rw [Heap.value_promoteInherited, hremove.value_of_not_dictionary a ha',
          h.effect.value_of_not_dictionary a ha]
      · intro a
        rw [Heap.isDictionary, Heap.value_promoteInherited]
        exact (hremove.dictionary_eq a).trans (h.effect.dictionary_eq a)
      · intro a other hother
        rw [Heap.getKey_congr Heap.value_promoteInherited, hremove.getKey_eq a other hother,
          h.effect.getKey_eq a other hother]
      · intro a
        rcases Heap.identity_promoteInherited (st.1.removeKey n key) v a with
          hsame | ⟨rfl, hnone, hscalar⟩
        · rw [hsame, Heap.identity_removeKey]
          exact h.effect.identity_eq a
        · right
          rw [Heap.identity_removeKey] at hnone
          refine ⟨?_, ?_, n, List.mem_cons_self, key, hkey, hvisible.symm⟩
          · rcases h.effect.identity_eq a with hsame | ⟨hnone', -⟩
            · rw [← hsame]
              exact hnone
            · exact hnone'
          · rw [hremove.isScalar_eq, h.effect.isScalar_eq] at hscalar
            exact hscalar
    constructor
    · exact heffect
    · intro other hother
      rw [List.mem_append, List.mem_singleton, not_or] at hother
      rw [hgetKey, if_neg fun h => hother.2 h.symm]
      exact h.getKey_todo other hother.1
    · intro other hother
      by_cases heq : key = other
      · rw [Heap.visible, hgetKey, if_pos heq]
        rfl
      · rcases List.mem_append.mp hother with hother | hother
        · have hnone := h.visible_done other hother
          rw [Heap.visible, hgetKey, if_neg heq, ← hnone, Heap.visible]
          congr 1
          funext child
          rw [heffect.isNull_eq, h.effect.isNull_eq]
        · exact absurd (List.mem_singleton.mp hother).symm heq
    · intro k
      have hstack : st.2.1.getD key [] = keyAncestors.getD key [] := by
        rw [ExtTreeMap.getD_eq_getD_getElem?, ExtTreeMap.getD_eq_getD_getElem?, h.ancestors,
          if_neg fun h => hnew h.1]
      simp only [pushAncestor, ExtTreeMap.getElem?_insert, LawfulEqCmp.compare_eq_iff_eq, hstack]
      by_cases hk : key = k
      · subst hk
        simp [← hvisible]
      · rw [if_neg hk, h.ancestors k]
        have hk' : k ≠ key := Ne.symm hk
        simp [hk']
    · rw [h.ownKeys, List.filter_append]
      simp [← hvisible]

/-- All inheritable keys are taken one after the other. -/
theorem taken_pushNodeAttributes (heap : Heap) (n : Handle) (keyAncestors : KeyAncestors) :
    Taken heap n keyAncestors inheritableKeys (heap.pushNodeAttributes n keyAncestors) := by
  have hrun : ∀ todo done st, (done ++ todo).Nodup → (∀ key ∈ todo, key ∈ inheritableKeys) →
      Taken heap n keyAncestors done st →
      Taken heap n keyAncestors (done ++ todo) (todo.foldl (Heap.pushNodeAttribute n) st) := by
    intro todo
    induction todo with
    | nil =>
      intro done st _ _ h
      rw [List.append_nil]
      exact h
    | cons key todo ih =>
      intro done st hnodup hkeys h
      have hnew : key ∉ done := by
        intro hmem
        exact (List.nodup_append.mp hnodup).2.2 key hmem key List.mem_cons_self rfl
      have hstep := h.step hnew (hkeys key List.mem_cons_self)
      have hrest := ih (done ++ [key]) _ (by simpa using hnodup)
        (fun k hk => hkeys k (List.mem_cons_of_mem _ hk)) hstep
      simpa using hrest
  exact hrun inheritableKeys [] (heap, keyAncestors, []) (by decide) (fun _ h => h) Taken.start

/-! ## The stacks -/

/-- Every stack belongs to an inheritable key, is not empty and holds no null. -/
def Stacked (heap : Heap) (keyAncestors : KeyAncestors) : Prop :=
  ∀ key stack, keyAncestors[key]? = some stack →
    key ∈ inheritableKeys ∧ stack ≠ [] ∧ ∀ v ∈ stack, heap.isNull v = false

theorem Stacked.of_effect (h : Stacked heap keyAncestors) (heffect : Effect heap heap' targets) :
    Stacked heap' keyAncestors := by
  intro key stack hget
  obtain ⟨hkey, hne, hnull⟩ := h key stack hget
  refine ⟨hkey, hne, ?_⟩
  intro v hv
  rw [heffect.isNull_eq]
  exact hnull v hv

theorem Stacked.taken {st : Heap × KeyAncestors × List Bytes} (h : Stacked heap keyAncestors)
    (htaken : Taken heap n keyAncestors inheritableKeys st) : Stacked st.1 st.2.1 := by
  intro key stack hget
  rw [htaken.ancestors key] at hget
  split at hget
  · rename_i hmem
    obtain ⟨v, hvisible⟩ := Option.isSome_iff_exists.mp hmem.2
    rw [hvisible] at hget
    cases hget
    refine ⟨hmem.1, List.cons_ne_nil _ _, ?_⟩
    intro w hw
    rw [htaken.effect.isNull_eq]
    rcases List.mem_cons.mp hw with rfl | hw
    · exact (Heap.visible_eq_some.mp hvisible).2
    · change w ∈ keyAncestors.getD key [] at hw
      rw [ExtTreeMap.getD_eq_getD_getElem?] at hw
      cases hold : keyAncestors[key]? with
      | none =>
        rw [hold] at hw
        cases hw
      | some old =>
        rw [hold] at hw
        exact (h key old hold).2.2 w hw
  · obtain ⟨hkey, hne, hnull⟩ := h key stack hget
    refine ⟨hkey, hne, ?_⟩
    intro v hv
    rw [htaken.effect.isNull_eq]
    exact hnull v hv

/-- The node comes before the nodes above it. -/
theorem Taken.envOf {st : Heap × KeyAncestors × List Bytes}
    (h : Taken heap n keyAncestors inheritableKeys st) (hkey : key ∈ inheritableKeys) :
    Flpdf.envOf st.2.1 key = (heap.visible n key).or (Flpdf.envOf keyAncestors key) := by
  rw [Flpdf.envOf, Flpdf.envOf, ExtTreeMap.getD_eq_getD_getElem?, h.ancestors key]
  cases hvisible : heap.visible n key with
  | none => simp [ExtTreeMap.getD_eq_getD_getElem?]
  | some v => simp [hkey]

theorem popAncestor_getElem? : (popAncestor keyAncestors key)[k]? =
    if key = k then
      (if (keyAncestors.getD k []).tail = [] then none else some (keyAncestors.getD k []).tail)
    else keyAncestors[k]? := by
  rw [popAncestor]
  by_cases hk : key = k
  · subst hk
    rw [if_pos rfl]
    cases (keyAncestors.getD key []).tail with
    | nil => simp only [if_true, ExtTreeMap.getElem?_erase, ReflCmp.compare_self]
    | cons v stack =>
      simp only [reduceCtorEq, if_false, if_true, ExtTreeMap.getElem?_insert, ReflCmp.compare_self]
  · rw [if_neg hk]
    split
    · rw [ExtTreeMap.getElem?_erase, if_neg (mt LawfulEqCmp.eq_of_compare hk)]
    · rw [ExtTreeMap.getElem?_insert, if_neg (mt LawfulEqCmp.eq_of_compare hk)]

theorem popNodeAttributes_getElem? {keys : List Bytes} (hnodup : keys.Nodup) :
    (popNodeAttributes keyAncestors keys)[k]? =
      if k ∈ keys then
        (if (keyAncestors.getD k []).tail = [] then none else some (keyAncestors.getD k []).tail)
      else keyAncestors[k]? := by
  induction keys generalizing keyAncestors with
  | nil => rfl
  | cons key keys ih =>
    obtain ⟨hnot, hrest⟩ := List.nodup_cons.mp hnodup
    rw [popNodeAttributes, List.foldl_cons, ← popNodeAttributes, ih hrest]
    by_cases hk : key = k
    · subst hk
      rw [if_neg hnot, if_pos List.mem_cons_self, popAncestor_getElem?, if_pos rfl]
    · have hk' : k ≠ key := Ne.symm hk
      simp only [List.mem_cons, hk', false_or, ExtTreeMap.getD_eq_getD_getElem?,
        popAncestor_getElem?, if_neg hk]

/-- Popping the keys of a node gives back the stacks from before it. -/
theorem Taken.pop {st : Heap × KeyAncestors × List Bytes}
    (h : Taken heap n keyAncestors inheritableKeys st) (hstacked : Stacked heap keyAncestors) :
    popNodeAttributes st.2.1 st.2.2 = keyAncestors := by
  have hnodup : st.2.2.Nodup := by
    rw [h.ownKeys]
    exact List.Nodup.filter _ (by decide)
  apply ExtTreeMap.ext_getElem?
  intro k
  rw [popNodeAttributes_getElem? hnodup]
  simp only [h.ownKeys, ExtTreeMap.getD_eq_getD_getElem?, h.ancestors k, List.mem_filter]
  by_cases hmem : k ∈ inheritableKeys ∧ (heap.visible n k).isSome = true
  · obtain ⟨v, hvisible⟩ := Option.isSome_iff_exists.mp hmem.2
    rw [if_pos hmem, if_pos hmem, hvisible]
    simp only [Option.toList_some, Option.getD_some, List.singleton_append, List.tail_cons]
    cases hold : keyAncestors[k]? with
    | none => rfl
    | some stack =>
      exact if_neg (hstacked k stack hold).2.1
  · rw [if_neg hmem, if_neg hmem]

/-! ## Reaching a page -/

theorem visible_installInherited {entry : Bytes × List Handle} (key : Bytes)
    (hdictionary : heap.isDictionary kid = true)
    (hnull : ∀ v ∈ entry.2, heap.isNull v = false) :
    (heap.installInherited kid entry).visible kid key =
      if entry.1 = key then (heap.visible kid key).or entry.2.head? else heap.visible kid key := by
  rw [Heap.installInherited, Heap.hasKey]
  cases hown : heap.visible kid entry.1 with
  | some v =>
    rw [Option.isSome_some, if_pos rfl]
    by_cases hk : entry.1 = key
    · rw [if_pos hk, ← hk, hown]
      rfl
    · rw [if_neg hk]
  | none =>
    rw [Option.isSome_none, if_neg Bool.false_ne_true]
    cases hstack : entry.2 with
    | nil =>
      simp only [List.head?_nil, Option.or_none]
      exact (ite_self _).symm
    | cons v rest =>
      have hv : heap.isNull v = false := hnull v (by rw [hstack]; exact List.mem_cons_self)
      simp only [Heap.visible, Heap.getKey_replaceKey hdictionary hv, Heap.isNull_replaceKey]
      by_cases hk : entry.1 = key
      · subst hk
        rw [Heap.visible] at hown
        rw [if_pos rfl, if_pos rfl, hown]
        simp [hv]
      · rw [if_neg hk, if_neg hk]

theorem effect_installInherited {entry : Bytes × List Handle} (hkey : entry.1 ∈ inheritableKeys)
    (hdictionary : heap.isDictionary kid = true) (hnull : ∀ v ∈ entry.2, heap.isNull v = false) :
    Effect heap (heap.installInherited kid entry) [kid] ∧
      ∀ a, (heap.installInherited kid entry).identity a = heap.identity a := by
  rw [Heap.installInherited]
  split
  · exact ⟨.refl heap [kid], fun _ => rfl⟩
  · split
    · exact ⟨.refl heap [kid], fun _ => rfl⟩
    · rename_i v rest hstack
      have hv : heap.isNull v = false := hnull v (by rw [hstack]; exact List.mem_cons_self)
      exact ⟨effect_replaceKey hkey hdictionary hv, fun _ => Heap.identity_replaceKey⟩

/-- A page gets the last value of every stack whose key it lacks. -/
theorem visible_install_foldl {entries : List (Bytes × List Handle)}
    (hdistinct : entries.Pairwise fun e e' => e.1 ≠ e'.1)
    (hentries : ∀ e ∈ entries, e.1 ∈ inheritableKeys ∧ ∀ v ∈ e.2, heap.isNull v = false)
    (hdictionary : heap.isDictionary kid = true) :
    Effect heap (entries.foldl (Heap.installInherited kid) heap) [kid] ∧
      (∀ a, (entries.foldl (Heap.installInherited kid) heap).identity a = heap.identity a) ∧
      (∀ e ∈ entries, (entries.foldl (Heap.installInherited kid) heap).visible kid e.1 =
        (heap.visible kid e.1).or e.2.head?) ∧
      ∀ key, (∀ e ∈ entries, e.1 ≠ key) →
        (entries.foldl (Heap.installInherited kid) heap).visible kid key = heap.visible kid key := by
  induction entries generalizing heap with
  | nil => exact ⟨.refl heap [kid], fun _ => rfl, fun _ h => absurd h List.not_mem_nil, fun _ _ => rfl⟩
  | cons entry entries ih =>
    obtain ⟨hhead, htail⟩ := List.pairwise_cons.mp hdistinct
    obtain ⟨hkey, hnull⟩ := hentries entry List.mem_cons_self
    obtain ⟨heffect, hidentity⟩ := effect_installInherited hkey hdictionary hnull
    have hvisible := fun key => visible_installInherited key hdictionary hnull
    have hentries' : ∀ e ∈ entries, e.1 ∈ inheritableKeys ∧
        ∀ v ∈ e.2, (heap.installInherited kid entry).isNull v = false := by
      intro e he
      obtain ⟨hk, hn⟩ := hentries e (List.mem_cons_of_mem _ he)
      refine ⟨hk, ?_⟩
      intro v hv
      rw [heffect.isNull_eq]
      exact hn v hv
    obtain ⟨heffect', hidentity', hpresent, habsent⟩ :=
      ih htail hentries' ((heffect.dictionary_eq kid).trans hdictionary)
    rw [List.foldl_cons]
    refine ⟨?_, ?_, ?_, ?_⟩
    · constructor
      · intro a ha
        rw [heffect'.value_eq a ha, heffect.value_eq a ha]
      · intro a ha
        rw [heffect'.value_of_not_dictionary a ((heffect.dictionary_eq a).trans ha),
          heffect.value_of_not_dictionary a ha]
      · intro a
        rw [heffect'.dictionary_eq, heffect.dictionary_eq]
      · intro a other hother
        rw [heffect'.getKey_eq a other hother, heffect.getKey_eq a other hother]
      · intro a
        exact .inl ((hidentity' a).trans (hidentity a))
    · intro a
      rw [hidentity', hidentity]
    · intro e he
      rcases List.mem_cons.mp he with rfl | he
      · rw [habsent e.1 fun e' he' => Ne.symm (hhead e' he'), hvisible, if_pos rfl]
      · rw [hpresent e he, hvisible, if_neg (hhead e he)]
    · intro key hkeys
      rw [habsent key fun e he => hkeys e (List.mem_cons_of_mem _ he), hvisible,
        if_neg (hkeys entry List.mem_cons_self)]

theorem visible_install_keyAncestors (hstacked : Stacked heap keyAncestors)
    (hdictionary : heap.isDictionary kid = true) :
    Effect heap (keyAncestors.toList.foldl (Heap.installInherited kid) heap) [kid] ∧
      ∀ key, (keyAncestors.toList.foldl (Heap.installInherited kid) heap).visible kid key =
        (heap.visible kid key).or (envOf keyAncestors key) := by
  have hdistinct : keyAncestors.toList.Pairwise fun e e' => e.1 ≠ e'.1 := by
    apply ExtTreeMap.distinct_keys_toList.imp
    intro e e' hne heq
    exact hne (by rw [heq]; exact ReflCmp.compare_self)
  have hentries : ∀ e ∈ keyAncestors.toList, e.1 ∈ inheritableKeys ∧
      ∀ v ∈ e.2, heap.isNull v = false := by
    intro e he
    obtain ⟨hkey, -, hnull⟩ :=
      hstacked e.1 e.2 (ExtTreeMap.mem_toList_iff_getElem?_eq_some.mp he)
    exact ⟨hkey, hnull⟩
  obtain ⟨heffect, -, hpresent, habsent⟩ := visible_install_foldl hdistinct hentries hdictionary
  refine ⟨heffect, ?_⟩
  intro key
  rw [envOf, ExtTreeMap.getD_eq_getD_getElem?]
  cases hget : keyAncestors[key]? with
  | some stack =>
    exact hpresent (key, stack) (ExtTreeMap.mem_toList_iff_getElem?_eq_some.mpr hget)
  | none =>
    rw [habsent key, Option.getD_none, List.head?_nil, Option.or_none]
    intro e he heq
    have hsome := ExtTreeMap.mem_toList_iff_getElem?_eq_some.mp he
    rw [heq, hget] at hsome
    cases hsome

end Flpdf
