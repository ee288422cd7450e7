import Flpdf.Handles.Frame
import Flpdf.StructTree.PageReferences

/-! # What the walk through the structure tree does

The walk enters every array and dictionary below the root once, in the order of a depth-first
search.  What it writes are `/Pg` entries, which the search does not read. -/

namespace Flpdf

open DepthFirst Program

namespace Heap

variable {heap heap' : Heap} {a b child root : Handle} {key : Bytes}

theorem objectGen_setValue {value : SlotValue} :
    ((heap.setValue a value).slot b).objectGen = (heap.slot b).objectGen := by
  by_cases h : b = a
  · subst h
    simp [setValue]
  · simp [setValue, h]

theorem objectGen_removeKey :
    ((heap.removeKey a key).slot b).objectGen = (heap.slot b).objectGen := by
  rw [removeKey]
  split
  · exact objectGen_setValue
  · rfl

theorem objectGen_replaceKey :
    ((heap.replaceKey a key child).slot b).objectGen = (heap.slot b).objectGen := by
  rw [replaceKey]
  split
  · exact objectGen_removeKey
  · split
    · exact objectGen_setValue
    · rfl

/-- An indirect value is entered, null or not. -/
theorem getKey_replaceKey_of_isIndirect (hdictionary : heap.isDictionary a = true)
    (hindirect : heap.isIndirect child = true) {key' : Bytes} :
    (heap.replaceKey a key child).getKey a key' =
      if key = key' then some child else heap.getKey a key' := by
  obtain ⟨entries, hvalue⟩ := isDictionary_iff.mp hdictionary
  rw [replaceKey, hindirect, Bool.not_true, Bool.and_false, if_neg Bool.false_ne_true, hvalue]
  simp only [getKey, value_setValue, if_true, hvalue, Std.ExtTreeMap.getElem?_insert,
    Std.LawfulEqCmp.compare_eq_iff_eq]

theorem isDictionary_of_getKey (h : heap.getKey a key = some child) :
    heap.isDictionary a = true := by
  rw [getKey] at h
  rw [isDictionary]
  cases hvalue : heap.value a <;> simp [hvalue] at h ⊢

/-! ## The graph below the root -/

def isContainer (heap : Heap) (a : Handle) : Bool := heap.isArray a || heap.isDictionary a

def typeIsOneOf (heap : Heap) (names : List Bytes) (dict : Handle) : Bool :=
  (heap.getKey dict (ascii "/Type")).any fun typeHandle =>
    names.any fun name => heap.isNameAndEquals name typeHandle

/-- The items of an array, and `/K` of a dictionary that is no marked-content or object
reference. -/
def kids (heap : Heap) (a : Handle) : List Handle :=
  match heap.arrayItems a with
  | some items => items
  | none =>
    if heap.typeIsOneOf [ascii "MCR", ascii "OBJR"] a then []
    else (heap.getKey a (ascii "/K")).toList

/-- What can be reached from the root through `/K`. -/
inductive Reachable (heap : Heap) (root : Handle) : Handle → Prop
  | root {k : Handle} (hk : heap.visible root (ascii "/K") = some k) : Reachable heap root k
  | kid {b c : Handle} (hb : Reachable heap root b) (hc : c ∈ heap.kids b) : Reachable heap root c

/-- The graph as the walk searches it. -/
def structSearch (heap : Heap) (root : Handle) : Search Handle ObjectRef where
  entry a :=
    match heap.objectRef a with
    | some ref => .mark ref
    | none => if a = root ∨ heap.isContainer a = true then .pass else .skip
  children a := if a = root then (heap.visible root (ascii "/K")).toList else heap.kids a

theorem entry_of_objectRef {ref : ObjectRef} (h : heap.objectRef a = some ref) :
    (heap.structSearch root).entry a = .mark ref := by
  simp [structSearch, h]

theorem entry_ne_skip (h : a = root ∨ heap.isContainer a = true) :
    (heap.structSearch root).entry a ≠ .skip := by
  cases href : heap.objectRef a with
  | none => simp [structSearch, href, h]
  | some ref => simp [structSearch, href]

/-- What is entered without a reference is entered without a mark. -/
theorem entry_eq_pass_of_ne_skip (href : heap.objectRef a = none)
    (h : (heap.structSearch root).entry a ≠ .skip) : (heap.structSearch root).entry a = .pass := by
  by_cases hcontainer : a = root ∨ heap.isContainer a = true
  · simp [structSearch, href, hcontainer]
  · simp [structSearch, href, hcontainer] at h

theorem children_root :
    (heap.structSearch root).children root = (heap.visible root (ascii "/K")).toList := by
  simp [structSearch]

theorem children_of_ne (h : a ≠ root) : (heap.structSearch root).children a = heap.kids a := by
  simp [structSearch, h]

theorem kids_of_arrayItems {items : List Handle} (h : heap.arrayItems a = some items) :
    heap.kids a = items := by
  rw [kids, h]

theorem kids_of_not_array (h : heap.arrayItems a = none) : heap.kids a =
    if heap.typeIsOneOf [ascii "MCR", ascii "OBJR"] a then []
    else (heap.getKey a (ascii "/K")).toList := by
  rw [kids, h]

theorem getKey_of_not_dictionary (h : heap.isDictionary a = false) : heap.getKey a key = none := by
  cases hget : heap.getKey a key with
  | none => rfl
  | some child =>
    rw [isDictionary_of_getKey hget] at h
    cases h

theorem isContainer_of_mem_kids (h : b ∈ heap.kids a) : heap.isContainer a = true := by
  rw [kids] at h
  rw [isContainer, Bool.or_eq_true]
  cases hitems : heap.arrayItems a with
  | some items => exact .inl (by simp [isArray, hitems])
  | none =>
    rw [hitems] at h
    dsimp only at h
    split at h
    · cases h
    · exact .inr (isDictionary_of_getKey (Option.mem_toList.mp h))

theorem Reachable.exists_visible (h : heap.Reachable root a) :
    ∃ k, heap.visible root (ascii "/K") = some k := by
  induction h with
  | root hk => exact ⟨_, hk⟩
  | kid _ _ ih => exact ih

/-- The kids of a dictionary are at most its `/K`. -/
theorem getKey_of_mem_kids (hdictionary : heap.isDictionary a = true) (h : b ∈ heap.kids a) :
    heap.getKey a (ascii "/K") = some b := by
  obtain ⟨entries, hvalue⟩ := isDictionary_iff.mp hdictionary
  rw [kids, arrayItems, hvalue] at h
  dsimp only at h
  split at h
  · cases h
  · exact Option.mem_toList.mp h

/-- The search reaches what can be reached through `/K`. -/
theorem Reachable.reached (hdictionary : heap.isDictionary root = true)
    (h : heap.Reachable root a) : (heap.structSearch root).Reached [root] a := by
  have hroot : (heap.structSearch root).Reached [root] root := .root List.mem_cons_self
  induction h with
  | root hk =>
    apply Search.Reached.child hroot (entry_ne_skip (.inl rfl))
    rw [children_root, hk]
    exact List.mem_cons_self
  | kid hb hc ih =>
    rename_i b c
    apply Search.Reached.child ih (entry_ne_skip (.inr (isContainer_of_mem_kids hc)))
    by_cases hne : b = root
    · -- the way leads through the root again, whose `/K` is not null
      subst hne
      obtain ⟨k, hk⟩ := hb.exists_visible
      have hget := (visible_eq_some.mp hk).1
      rw [getKey_of_mem_kids hdictionary hc] at hget
      rw [children_root, hk, ← hget]
      exact List.mem_cons_self
    · rwa [children_of_ne hne]

/-- Apart from the root, the search reaches nothing else. -/
theorem reachable_of_reached (h : (heap.structSearch root).Reached [root] a) :
    a = root ∨ heap.Reachable root a := by
  induction h with
  | root hb => exact .inl (List.mem_singleton.mp hb)
  | child hb hentry hc ih =>
    rename_i b c
    by_cases hne : b = root
    · subst hne
      rw [children_root] at hc
      exact .inr (.root (Option.mem_toList.mp hc))
    · rw [children_of_ne hne] at hc
      exact .inr (.kid (ih.resolve_left hne) hc)

/-! ## What `/Pg` entries leave alone -/

/-- The heaps differ in `/Pg` entries only. -/
structure SameButPg (heap heap' : Heap) : Prop where
  objectGen_eq : ∀ a, (heap'.slot a).objectGen = (heap.slot a).objectGen
  isDictionary_eq : ∀ a, heap'.isDictionary a = heap.isDictionary a
  value_eq : ∀ a, heap.isDictionary a = false → heap'.value a = heap.value a
  getKey_eq : ∀ a key, key ≠ ascii "/Pg" → heap'.getKey a key = heap.getKey a key

namespace SameButPg

theorem refl (heap : Heap) : SameButPg heap heap :=
  ⟨fun _ => rfl, fun _ => rfl, fun _ _ => rfl, fun _ _ _ => rfl⟩

theorem removeKey (h : SameButPg heap heap') (dict : Handle) :
    SameButPg heap (heap'.removeKey dict (ascii "/Pg")) where
  objectGen_eq a := objectGen_removeKey.trans (h.objectGen_eq a)
  isDictionary_eq a := isDictionary_removeKey.trans (h.isDictionary_eq a)
  value_eq a ha := by
    rw [← h.value_eq a ha]
    by_cases hne : a = dict
    · subst hne
      have hdictionary := (h.isDictionary_eq a).trans ha
      rw [Heap.removeKey]
      split
      · rename_i entries hvalue
        rw [isDictionary, hvalue] at hdictionary
        cases hdictionary
      · rfl
    · exact value_removeKey_of_ne hne
  getKey_eq a key hkey := by
    rw [← h.getKey_eq a key hkey]
    by_cases hne : a = dict
    · subst hne
      rw [getKey_removeKey, if_neg (Ne.symm hkey)]
    · exact getKey_congr (value_removeKey_of_ne hne)

theorem replaceKey (h : SameButPg heap heap') {dict value : Handle}
    (hdictionary : heap'.isDictionary dict = true) (hindirect : heap'.isIndirect value = true) :
    SameButPg heap (heap'.replaceKey dict (ascii "/Pg") value) where
  objectGen_eq a := objectGen_replaceKey.trans (h.objectGen_eq a)
  isDictionary_eq a := isDictionary_replaceKey.trans (h.isDictionary_eq a)
  value_eq a ha := by
    rw [← h.value_eq a ha]
    apply value_replaceKey_of_ne
    rintro rfl
    rw [h.isDictionary_eq, ha] at hdictionary
    cases hdictionary
  getKey_eq a key hkey := by
    rw [← h.getKey_eq a key hkey]
    by_cases hne : a = dict
    · subst hne
      rw [getKey_replaceKey_of_isIndirect hdictionary hindirect, if_neg (Ne.symm hkey)]
    · exact getKey_congr (value_replaceKey_of_ne hne)

variable (h : SameButPg heap heap')
include h

theorem objectRef_eq (a : Handle) : heap'.objectRef a = heap.objectRef a := by
  rw [Heap.objectRef_eq, Heap.objectRef_eq, h.objectGen_eq]

theorem isIndirect_eq (a : Handle) : heap'.isIndirect a = heap.isIndirect a := by
  rw [isIndirect, isIndirect, identity, identity, h.objectGen_eq]

theorem arrayItems_eq (a : Handle) : heap'.arrayItems a = heap.arrayItems a := by
  cases hdictionary : heap.isDictionary a with
  | false => rw [arrayItems, arrayItems, h.value_eq a hdictionary]
  | true =>
    obtain ⟨entries, hvalue⟩ := isDictionary_iff.mp hdictionary
    obtain ⟨entries', hvalue'⟩ := isDictionary_iff.mp ((h.isDictionary_eq a).trans hdictionary)
    rw [arrayItems, arrayItems, hvalue, hvalue']

theorem isNameAndEquals_eq (name : Bytes) (a : Handle) :
    heap'.isNameAndEquals name a = heap.isNameAndEquals name a := by
  cases hdictionary : heap.isDictionary a with
  | false => rw [isNameAndEquals, isNameAndEquals, h.value_eq a hdictionary]
  | true =>
    obtain ⟨entries, hvalue⟩ := isDictionary_iff.mp hdictionary
    obtain ⟨entries', hvalue'⟩ := isDictionary_iff.mp ((h.isDictionary_eq a).trans hdictionary)
    rw [isNameAndEquals, isNameAndEquals, hvalue, hvalue']

theorem typeIsOneOf_eq (names : List Bytes) (dict : Handle) :
    heap'.typeIsOneOf names dict = heap.typeIsOneOf names dict := by
  rw [typeIsOneOf, typeIsOneOf, h.getKey_eq dict _ (by decide)]
  simp only [h.isNameAndEquals_eq]

end SameButPg

end Heap

namespace RebuildResult

variable {result : RebuildResult} {pgGen : QpdfObjGen} {old new : ObjectRef}

theorem pgChange_of_surviving (hold : pgGen.toObjectRef = some old)
    (hnew : result.surviving old = some new) :
    result.pgChange pgGen = if new ≠ old then .remap new else .keep := by
  rw [pgChange, hold, Option.bind_some, hnew]
  rfl

theorem pgChange_of_not_surviving (h : ∀ old, pgGen.toObjectRef = some old →
    result.surviving old = none) :
    result.pgChange pgGen = if result.removedPageObjgens pgGen then .drop else .keep := by
  rw [pgChange]
  cases hold : pgGen.toObjectRef with
  | none => rfl
  | some old =>
    rw [Option.bind_some, h old hold]
    rfl

theorem surviving_number (h : result.surviving old = some new) :
    1 ≤ new.number ∧ new.number < 2 ^ 31 ∧ new.generation < 2 ^ 16 := by
  rw [surviving, Option.bind_eq_some_iff] at h
  obtain ⟨outputs, hmap, hhead⟩ := h
  exact result.outputs_are_objects old outputs new hmap (List.mem_of_mem_head? hhead)

theorem surviving_of_remap (h : result.pgChange pgGen = .remap new) :
    ∃ old, result.surviving old = some new := by
  by_cases hnone : ∀ old, pgGen.toObjectRef = some old → result.surviving old = none
  · rw [pgChange_of_not_surviving hnone] at h
    split at h <;> cases h
  · simp only [not_forall] at hnone
    obtain ⟨old, hold, hsome⟩ := hnone
    obtain ⟨output, houtput⟩ := Option.ne_none_iff_exists'.mp hsome
    rw [pgChange_of_surviving hold houtput] at h
    split at h
    · cases h
      exact ⟨old, houtput⟩
    · cases h

theorem remap_number (h : result.pgChange pgGen = .remap new) :
    1 ≤ new.number ∧ new.number < 2 ^ 31 ∧ new.generation < 2 ^ 16 := by
  obtain ⟨old, hold⟩ := surviving_of_remap h
  exact surviving_number hold

end RebuildResult

namespace LiveDocument

variable {document : LiveDocument}

theorem isIndirect_getObjectHandle {ref : ObjectRef}
    (h : 1 ≤ ref.number ∧ ref.number < 2 ^ 31 ∧ ref.generation < 2 ^ 16) :
    document.heap.isIndirect (document.getObjectHandle ref) = true := by
  have hpos : ref.number ≠ 0 := by
    omega
  rw [Heap.isIndirect, Heap.identity, document.handle_objectGen ref h]
  simp [Option.filter, QpdfObjGen.isIndirect, hpos]

end LiveDocument

namespace StructTree

open Heap

variable {document : LiveDocument} {result : RebuildResult} {maxDepth : ℕ} {s : WalkState}
  {a dict root : Handle} {done stack : List Handle}

/-! ## One dictionary -/

/-- What stands under `/Pg` afterwards. -/
def pgAfter (document : LiveDocument) (result : RebuildResult) (pg : Handle) : Option Handle :=
  match (document.heap.slot pg).objectGen with
  | none => some pg
  | some pgGen =>
    match result.pgChange pgGen with
    | .keep => some pg
    | .remap new => some (document.getObjectHandle new)
    | .drop => none

/-- The target of an object reference. -/
def objrTarget (heap : Heap) (dict : Handle) : Option ObjectRef :=
  if heap.typeIsOneOf [ascii "OBJR"] dict then (heap.getKey dict (ascii "/Obj")).bind heap.objectRef
  else none

theorem ends_hasType (names : List Bytes) :
    (hasType document names dict).Ends s fun found s' =>
      found = s.heap.typeIsOneOf names dict ∧ s' = s := by
  rw [hasType]
  apply ends_get_bind
  rw [typeIsOneOf]
  cases hget : s.heap.getKey dict (ascii "/Type") with
  | none => exact ends_pure ⟨rfl, rfl⟩
  | some typeHandle =>
    apply Ends.bind (P := fun _ s' => s' = s) (ends_ofExcept fun _ _ => rfl)
    rintro _ _ rfl
    exact ends_pure ⟨rfl, rfl⟩

theorem ends_collectObj :
    (collectObj document dict).Ends s fun _ s' => s' =
      { s with objrObjTargets := s.objrObjTargets ++ (objrTarget s.heap dict).toList } := by
  rw [collectObj]
  apply ends_get_bind
  rw [objrTarget]
  cases hget : s.heap.getKey dict (ascii "/Obj") with
  | none =>
    apply ends_pure
    simp
  | some obj =>
    apply Ends.bind (ends_hasType [ascii "OBJR"])
    rintro objr s' ⟨rfl, rfl⟩
    cases s'.heap.typeIsOneOf [ascii "OBJR"] dict with
    | false =>
      apply ends_pure
      simp
    | true =>
      cases href : s'.heap.objectRef obj with
      | none =>
        apply ends_pure
        simp [href]
      | some objRef =>
        apply ends_modify
        simp [href]

/-- `/Pg` of one dictionary is written, and nothing else. -/
theorem ends_processPg (hsame : SameButPg document.heap s.heap) :
    (processPg document result dict).Ends s fun _ s' =>
      s' = { s with heap := s'.heap } ∧ SameButPg document.heap s'.heap ∧
      ∀ b, s'.heap.getKey b (ascii "/Pg") =
        if b = dict then (s.heap.getKey dict (ascii "/Pg")).bind (pgAfter document result)
        else s.heap.getKey b (ascii "/Pg") := by
  rw [processPg]
  apply ends_get_bind
  have hkeep : ∀ pg, s.heap.getKey dict (ascii "/Pg") = pg →
      pg.bind (pgAfter document result) = pg → (pure () : Program WalkState Failure Unit).Ends s
        fun _ s' => s' = { s with heap := s'.heap } ∧ SameButPg document.heap s'.heap ∧
          ∀ b, s'.heap.getKey b (ascii "/Pg") =
            if b = dict then pg.bind (pgAfter document result)
            else s.heap.getKey b (ascii "/Pg") := by
    intro pg hget hafter
    refine ends_pure ⟨rfl, hsame, fun b => ?_⟩
    rw [hafter, ← hget]
    split
    · rename_i heq
      rw [heq]
    · rfl
  cases hget : s.heap.getKey dict (ascii "/Pg") with
  | none => exact hkeep none hget rfl
  | some pg =>
    have hgen := hsame.objectGen_eq pg
    dsimp only
    cases hobject : (s.heap.slot pg).objectGen with
    | none =>
      apply hkeep _ hget
      rw [Option.bind_some, pgAfter, ← hgen, hobject]
    | some pgGen =>
      have hafter : pgAfter document result pg = match result.pgChange pgGen with
          | .keep => some pg
          | .remap new => some (document.getObjectHandle new)
          | .drop => none := by
        rw [pgAfter, ← hgen, hobject]
      dsimp only
      cases hchange : result.pgChange pgGen with
      | keep =>
        apply hkeep _ hget
        rw [Option.bind_some, hafter, hchange]
      | remap new =>
        have hdictionary := isDictionary_of_getKey hget
        have hindirect : s.heap.isIndirect (document.getObjectHandle new) = true := by
          rw [hsame.isIndirect_eq]
          exact LiveDocument.isIndirect_getObjectHandle (RebuildResult.remap_number hchange)
        apply Ends.bind (P := fun _ s' => s' = s) (ends_ofExcept fun _ _ => rfl)
        rintro _ _ rfl
        refine ends_modify ⟨rfl, hsame.replaceKey hdictionary hindirect, fun b => ?_⟩
        by_cases hb : b = dict
        · subst hb
          rw [getKey_replaceKey_of_isIndirect hdictionary hindirect, if_pos rfl, if_pos rfl,
            Option.bind_some, hafter, hchange]
        · rw [if_neg hb]
          exact getKey_congr (value_replaceKey_of_ne hb)
      | drop =>
        refine ends_modify ⟨rfl, hsame.removeKey dict, fun b => ?_⟩
        by_cases hb : b = dict
        · subst hb
          rw [getKey_removeKey, if_pos rfl, if_pos rfl, Option.bind_some, hafter, hchange]
        · rw [if_neg hb]
          exact getKey_congr (value_removeKey_of_ne hb)

/-! ## The walk -/

/-- Where the walk stands: `done` are the nodes it has entered below the root, and `stack` those
that come next. -/
structure Walking (document : LiveDocument) (result : RebuildResult) (root : Handle)
    (done stack : List Handle) (s : WalkState) : Prop where
  progress : (document.heap.structSearch root).Progress root (root :: done) stack
  same : SameButPg document.heap s.heap
  getKey_pg : ∀ b, s.heap.getKey b (ascii "/Pg") =
    if b ∈ done then (document.heap.getKey b (ascii "/Pg")).bind (pgAfter document result)
    else document.heap.getKey b (ascii "/Pg")
  visited : ∀ ref, ref ∈ s.visited ↔ ∃ b ∈ root :: done, document.heap.objectRef b = some ref
  targets : ∀ b ∈ done, ∀ ref, objrTarget document.heap b = some ref → ref ∈ s.objrObjTargets

theorem objrTarget_eq {heap heap' : Heap} (h : SameButPg heap heap') (dict : Handle) :
    objrTarget heap' dict = objrTarget heap dict := by
  rw [objrTarget, objrTarget, h.typeIsOneOf_eq, h.getKey_eq dict _ (by decide)]
  congr 2
  funext obj
  exact h.objectRef_eq obj

namespace Walking

variable {k : Handle}

/-- What `enter` decides. -/
theorem ends_enter (h : Walking document result root done (k :: stack) s)
    (hembedded : (document.heap.structSearch root).Embedded root) :
    (enter k).Ends s fun first s' => s'.heap = s.heap ∧ s'.objrObjTargets = s.objrObjTargets ∧
      if first then
        ((document.heap.structSearch root).entry k ≠ .skip → k ∉ root :: done) ∧
        ∀ ref, ref ∈ s'.visited ↔ ref ∈ s.visited ∨ document.heap.objectRef k = some ref
      else Walking document result root done stack s' := by
  rw [enter]
  apply ends_get_bind
  have hobject := h.same.objectRef_eq k
  cases href : s.heap.objectRef k with
  | none =>
    rw [hobject] at href
    refine ends_pure ⟨rfl, rfl, fun hskip => ?_, fun ref => ?_⟩
    · -- without a mark it stands in this place only
      exact h.progress.not_mem_of_pass hembedded (entry_eq_pass_of_ne_skip href hskip)
    · rw [href]
      simp
  | some kidRef =>
    rw [hobject] at href
    dsimp only
    by_cases hmem : kidRef ∈ s.visited
    · rw [if_pos hmem]
      refine ends_pure ⟨rfl, rfl, ?_⟩
      obtain ⟨b, hb, hbref⟩ := (h.visited kidRef).mp hmem
      rw [document.canonical b k kidRef hbref href] at hb
      exact { h with progress := h.progress.taken (entry_of_objectRef href) hb }
    · rw [if_neg hmem]
      apply Ends.bind (ends_modify (P := fun _ s' => s' =
        { s with visited := insert kidRef s.visited }) rfl)
      rintro _ _ rfl
      refine ends_pure ⟨rfl, rfl, fun _ hk => ?_, fun ref => ?_⟩
      · exact hmem ((h.visited kidRef).mpr ⟨k, hk, href⟩)
      · rw [Finset.mem_insert, href, Option.some.injEq, or_comm, eq_comm]

/-- A node that is entered for the first time, with its `/Pg` written and its target on the
list. -/
theorem step (h : Walking document result root done (k :: stack) s) {s' : WalkState}
    (hskip : (document.heap.structSearch root).entry k ≠ .skip) (hfresh : k ∉ root :: done)
    (hsame : SameButPg document.heap s'.heap)
    (hpg : ∀ b, s'.heap.getKey b (ascii "/Pg") =
      if b = k then (s.heap.getKey k (ascii "/Pg")).bind (pgAfter document result)
      else s.heap.getKey b (ascii "/Pg"))
    (hvisited : ∀ ref, ref ∈ s'.visited ↔ ref ∈ s.visited ∨ document.heap.objectRef k = some ref)
    (htargets : ∀ ref, ref ∈ s.objrObjTargets ∨ objrTarget document.heap k = some ref →
      ref ∈ s'.objrObjTargets) :
    Walking document result root (done ++ [k]) (document.heap.kids k ++ stack) s' where
  progress := by
    have hne : k ≠ root := fun heq => hfresh (heq ▸ List.mem_cons_self)
    rw [← children_of_ne hne]
    exact h.progress.enter hskip hfresh
  same := hsame
  getKey_pg b := by
    have hnot : k ∉ done := fun hk => hfresh (List.mem_cons_of_mem _ hk)
    rw [hpg b]
    by_cases hb : b = k
    · subst hb
      rw [if_pos rfl, if_pos (List.mem_append_right _ List.mem_cons_self), h.getKey_pg,
        if_neg hnot]
    · rw [if_neg hb, h.getKey_pg b]
      simp [hb]
  visited ref := by
    rw [hvisited ref, h.visited ref]
    simp only [List.mem_cons, List.mem_append, List.not_mem_nil, or_false]
    constructor
    · rintro (⟨b, hb, href⟩ | href)
      · exact ⟨b, hb.imp_right .inl, href⟩
      · exact ⟨k, .inr (.inr rfl), href⟩
    · rintro ⟨b, hb | hb | rfl, href⟩
      · exact .inl ⟨b, .inl hb, href⟩
      · exact .inl ⟨b, .inr hb, href⟩
      · exact .inr href
  targets b hb ref href := by
    apply htargets
    rcases List.mem_append.mp hb with hb | hb
    · exact .inl (h.targets b hb ref href)
    · rw [List.mem_singleton.mp hb] at href
      exact .inr href

/-- What is neither array nor dictionary has nothing to be walked. -/
theorem leaf (h : Walking document result root done (k :: stack) s) {s' : WalkState}
    (hleaf : document.heap.isContainer k = false) (hheap : s'.heap = s.heap)
    (htargets : s'.objrObjTargets = s.objrObjTargets)
    (hfresh : (document.heap.structSearch root).entry k ≠ .skip → k ∉ root :: done)
    (hvisited : ∀ ref, ref ∈ s'.visited ↔
      ref ∈ s.visited ∨ document.heap.objectRef k = some ref) :
    ∃ more, Walking document result root (done ++ more) stack s' := by
  rw [isContainer, Bool.or_eq_false_iff, isArray, Option.isSome_eq_false_iff,
    Option.isNone_iff_eq_none] at hleaf
  obtain ⟨hitems, hdictionary⟩ := hleaf
  by_cases hskip : (document.heap.structSearch root).entry k = .skip
  · have href : document.heap.objectRef k = none := by
      cases href : document.heap.objectRef k with
      | none => rfl
      | some ref =>
        rw [entry_of_objectRef href] at hskip
        cases hskip
    have hsame : ∀ ref, ref ∈ s'.visited ↔ ref ∈ s.visited := by
      intro ref
      rw [hvisited, href]
      simp
    refine ⟨[], ?_⟩
    rw [List.append_nil]
    constructor
    · exact h.progress.skip hskip
    · rw [hheap]
      exact h.same
    · rw [hheap]
      exact h.getKey_pg
    · intro ref
      rw [hsame]
      exact h.visited ref
    · rw [htargets]
      exact h.targets
  · refine ⟨[k], ?_⟩
    have hnone : s.heap.getKey k (ascii "/Pg") = none :=
      getKey_of_not_dictionary ((h.same.isDictionary_eq k).trans hdictionary)
    have hkids : document.heap.kids k = [] := by
      rw [kids_of_not_array hitems, getKey_of_not_dictionary hdictionary]
      simp
    have hstep : Walking document result root (done ++ [k]) (document.heap.kids k ++ stack) s' := by
      apply h.step hskip (hfresh hskip)
      · rw [hheap]
        exact h.same
      · intro b
        rw [hheap, hnone]
        split
        · rename_i heq
          rw [heq, hnone]
          rfl
        · rfl
      · exact hvisited
      · rintro ref (href | href)
        · rwa [htargets]
        · rw [objrTarget, getKey_of_not_dictionary hdictionary] at href
          simp at href
    rwa [hkids] at hstep

/-- An array is done once it is entered, its items come next. -/
theorem array (h : Walking document result root done (k :: stack) s) {s' : WalkState}
    {items : List Handle} (hitems : document.heap.arrayItems k = some items)
    (hheap : s'.heap = s.heap) (htargets : s'.objrObjTargets = s.objrObjTargets)
    (hfresh : k ∉ root :: done) (hvisited : ∀ ref, ref ∈ s'.visited ↔
      ref ∈ s.visited ∨ document.heap.objectRef k = some ref) :
    Walking document result root (done ++ [k]) (items ++ stack) s' := by
  have hdictionary : document.heap.isDictionary k = false := by
    rw [arrayItems] at hitems
    rw [isDictionary]
    cases hvalue : document.heap.value k <;> simp [hvalue] at hitems ⊢
  have hnone : s.heap.getKey k (ascii "/Pg") = none :=
    getKey_of_not_dictionary ((h.same.isDictionary_eq k).trans hdictionary)
  have hcontainer : document.heap.isContainer k = true := by
    rw [isContainer, isArray, hitems]
    rfl
  rw [← kids_of_arrayItems hitems]
  apply h.step (entry_ne_skip (.inr hcontainer)) hfresh
  · rw [hheap]
    exact h.same
  · intro b
    rw [hheap, hnone]
    split
    · rename_i heq
      rw [heq, hnone]
      rfl
    · rfl
  · exact hvisited
  · rintro ref (href | href)
    · rwa [htargets]
    · rw [objrTarget, getKey_of_not_dictionary hdictionary] at href
      simp at href

/-- A dictionary is done when its own entries are, its `/K` comes next. -/
theorem ends_processElemDict (h : Walking document result root done (k :: stack) s)
    {s₁ : WalkState} {walk : Handle → Program WalkState Failure Unit}
    (hdictionary : document.heap.isDictionary k = true)
    (hheap : s₁.heap = s.heap) (htargets : s₁.objrObjTargets = s.objrObjTargets)
    (hfresh : k ∉ root :: done) (hvisited : ∀ ref, ref ∈ s₁.visited ↔
      ref ∈ s.visited ∨ document.heap.objectRef k = some ref)
    (hwalk : ∀ kid s', Walking document result root (done ++ [k]) (kid :: stack) s' →
      (walk kid).Ends s' fun _ s'' =>
        ∃ more, Walking document result root (done ++ more) stack s'') :
    (processElemDict document result walk k).Ends s₁ fun _ s' =>
      ∃ more, Walking document result root (done ++ more) stack s' := by
  have hsame₁ : SameButPg document.heap s₁.heap := by
    rw [hheap]
    exact h.same
  rw [processElemDict]
  apply (ends_processPg hsame₁).bind
  rintro _ s₂ ⟨hs₂, hsame₂, hpg⟩
  apply ends_collectObj.bind
  rintro _ s₃ rfl
  have hitems : document.heap.arrayItems k = none := by
    obtain ⟨entries, hvalue⟩ := isDictionary_iff.mp hdictionary
    rw [arrayItems, hvalue]
  have hstep : Walking document result root (done ++ [k]) _ { s₂ with
      objrObjTargets := s₂.objrObjTargets ++ (objrTarget s₂.heap k).toList } := h.step
    (entry_ne_skip (.inr (by rw [isContainer, hdictionary, Bool.or_true]))) hfresh hsame₂
    (by rw [← hheap]; exact hpg) (by rw [hs₂]; exact hvisited) (by
      rintro ref (href | href)
      · rw [← htargets] at href
        rw [hs₂]
        exact List.mem_append_left _ href
      · rw [objrTarget_eq hsame₂, href]
        exact List.mem_append_right _ List.mem_cons_self)
  rw [kids_of_not_array hitems] at hstep
  apply ends_get_bind
  dsimp only
  rw [hsame₂.getKey_eq k _ (by decide)]
  cases hk : document.heap.getKey k (ascii "/K") with
  | none =>
    apply ends_pure
    refine ⟨[k], ?_⟩
    rw [hk] at hstep
    simpa using hstep
  | some kid =>
    rw [hk] at hstep
    apply (ends_hasType [ascii "MCR", ascii "OBJR"]).bind
    rintro leaf s₄ ⟨rfl, rfl⟩
    dsimp only
    rw [hsame₂.typeIsOneOf_eq]
    cases hleaf : document.heap.typeIsOneOf [ascii "MCR", ascii "OBJR"] k with
    | true =>
      rw [hleaf] at hstep
      exact ends_pure ⟨[k], hstep⟩
    | false =>
      rw [hleaf] at hstep
      exact hwalk kid _ hstep

/-- The walk from one node ends, and when it succeeds the node and what is below it are done. -/
theorem ends_walkKids (hembedded : (document.heap.structSearch root).Embedded root)
    (hall : ∀ b, (document.heap.structSearch root).Reached [root] b → b < document.heap.size)
    {fuel depth : ℕ} (h : Walking document result root done (k :: stack) s)
    (hfuel : document.heap.size < done.length + 1 + fuel) :
    (walkKids document result maxDepth fuel depth k).Ends s fun _ s' =>
      ∃ more, Walking document result root (done ++ more) stack s' := by
  induction fuel generalizing depth k done stack s with
  | zero =>
    have hle : (root :: done).length ≤ (List.range document.heap.size).length :=
      h.progress.length_le fun b hb => List.mem_range.mpr (hall b hb)
    rw [List.length_cons, List.length_range] at hle
    omega
  | succ fuel ih =>
    rw [walkKids]
    split
    · exact ends_fail _
    · apply (h.ends_enter hembedded).bind
      intro first s₁ hs₁
      cases first with
      | false =>
        apply ends_pure
        refine ⟨[], ?_⟩
        rw [List.append_nil]
        exact hs₁.2.2
      | true =>
        obtain ⟨hheap, htargets, hfresh, hvisited⟩ := hs₁
        apply Ends.bind (P := fun _ s' => s' = s₁) (ends_ofExcept fun _ _ => rfl)
        rintro _ _ rfl
        apply ends_get_bind
        rw [hheap, h.same.arrayItems_eq]
        have hnext : ∀ more kid rest s' depth',
            Walking document result root (done ++ [k] ++ more) (kid :: rest) s' →
            (walkKids document result maxDepth fuel depth' kid).Ends s' fun _ s'' =>
              ∃ more, Walking document result root (done ++ [k] ++ more) rest s'' := by
          intro more kid rest s' depth' h'
          refine (ih h' ?_).mono ?_
          · simp only [List.length_append, List.length_singleton]
            omega
          · rintro _ s'' ⟨more', h''⟩
            exact ⟨more ++ more', by rwa [← List.append_assoc]⟩
        cases hitems : document.heap.arrayItems k with
        | some items =>
          have hcontainer : document.heap.isContainer k = true := by
            rw [isContainer, isArray, hitems]
            rfl
          have harray := h.array hitems hheap htargets
            (hfresh (entry_ne_skip (.inr hcontainer))) hvisited
          refine (ends_forEach (I := fun rest s' =>
            ∃ more, Walking document result root (done ++ [k] ++ more) (rest ++ stack) s')
            ?_ ⟨[], by rwa [List.append_nil]⟩).mono ?_
          · rintro kid rest s' ⟨more, h'⟩
            exact hnext more kid (rest ++ stack) s' depth h'
          · rintro _ s' ⟨more, h'⟩
            exact ⟨[k] ++ more, by rwa [← List.append_assoc]⟩
        | none =>
          dsimp only
          rw [h.same.isDictionary_eq]
          cases hdictionary : document.heap.isDictionary k with
          | true =>
            have hcontainer : document.heap.isContainer k = true := by
              rw [isContainer, hdictionary, Bool.or_true]
            apply h.ends_processElemDict hdictionary hheap htargets
              (hfresh (entry_ne_skip (.inr hcontainer))) hvisited
            intro kid s' h'
            refine (hnext [] kid stack s' (depth + 1) (by rwa [List.append_nil])).mono ?_
            rintro _ s'' ⟨more, h''⟩
            exact ⟨[k] ++ more, by rwa [← List.append_assoc]⟩
          | false =>
            apply ends_pure
            apply h.leaf _ hheap htargets hfresh hvisited
            rw [isContainer, isArray, hitems, hdictionary]
            rfl

end Walking

end StructTree

end Flpdf
