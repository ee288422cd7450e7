import Flpdf.StructTree.Walked

/-! # The structure tree after page selection

The pass ends and updates every element once, where the arrays and dictionaries that no reference
can name stand in one place.  An array that contains itself is walked for ever. -/

namespace Flpdf

open DepthFirst Program

namespace StructTree

open Heap

variable {document : LiveDocument} {result : RebuildResult} {maxDepth : ℕ} {s : WalkState}
  {a dict root : Handle} {done stack : List Handle}

/-- The dictionary under `/StructTreeRoot`. -/
def structTreeRoot (document : LiveDocument) : Option Handle :=
  document.rootRef.bind fun catalogRef =>
    if document.heap.isDictionary (document.getObjectHandle catalogRef) then
      (document.heap.visible (document.getObjectHandle catalogRef) (ascii "/StructTreeRoot")).filter
        document.heap.isDictionary
    else none

theorem ends_childIfPresent {parent : Handle} {key : Bytes} :
    (childIfPresent document parent key).Ends s fun child s' =>
      child = s.heap.visible parent key ∧ s' = s := by
  rw [childIfPresent]
  apply ends_get_bind
  cases hget : s.heap.getKey parent key with
  | none =>
    apply ends_pure
    rw [visible, hget]
    exact ⟨rfl, rfl⟩
  | some child =>
    apply Ends.bind (P := fun _ s' => s' = s) (ends_ofExcept fun _ _ => rfl)
    rintro _ _ rfl
    exact ends_pure ⟨rfl, rfl⟩

theorem ends_findRoot :
    (findRoot document).Ends (start document) fun root s =>
      root = structTreeRoot document ∧ s = start document := by
  rw [findRoot, structTreeRoot]
  cases document.rootRef with
  | none => exact ends_pure ⟨rfl, rfl⟩
  | some catalogRef =>
    apply Ends.bind (P := fun _ s' => s' = start document) (ends_ofExcept fun _ _ => rfl)
    rintro _ _ rfl
    apply ends_get_bind
    have hheap : (start document).heap = document.heap := rfl
    rw [Option.bind_some, hheap]
    cases document.heap.isDictionary (document.getObjectHandle catalogRef) with
    | false => exact ends_pure ⟨rfl, rfl⟩
    | true =>
      apply ends_childIfPresent.bind
      rintro child s ⟨rfl, rfl⟩
      rw [hheap]
      cases document.heap.visible (document.getObjectHandle catalogRef)
        (ascii "/StructTreeRoot") with
      | none => exact ends_pure ⟨rfl, rfl⟩
      | some root =>
        apply ends_pure
        refine ⟨?_, rfl⟩
        cases hdictionary : document.heap.isDictionary root <;> simp [Option.filter, hdictionary]

/-- All nodes that are reached are in use. -/
theorem lt_of_reached (hroot : structTreeRoot document = some root) :
    ∀ b, (document.heap.structSearch root).Reached [root] b → b < document.heap.size := by
  have hlt : root < document.heap.size := by
    rw [structTreeRoot, Option.bind_eq_some_iff] at hroot
    obtain ⟨catalogRef, hcatalog, hroot⟩ := hroot
    split at hroot
    · have hvisible := (Option.filter_eq_some_iff.mp hroot).1
      exact document.closed.getKey_lt (document.catalog_lt catalogRef hcatalog)
        (visible_eq_some.mp hvisible).1
    · cases hroot
  intro b hb
  induction hb with
  | root hb =>
    rw [List.mem_singleton.mp hb]
    exact hlt
  | child hb hentry hc ih =>
    rename_i b c
    by_cases hne : b = root
    · subst hne
      rw [children_root, Option.mem_toList] at hc
      exact document.closed.getKey_lt ih (visible_eq_some.mp hc).1
    · rw [children_of_ne hne] at hc
      cases hitems : document.heap.arrayItems b with
      | some items =>
        rw [kids_of_arrayItems hitems] at hc
        apply document.closed b ih c
        rw [arrayItems] at hitems
        split at hitems
        · rename_i array hvalue
          cases hitems
          rw [hvalue]
          exact hc
        · cases hitems
      | none =>
        rw [kids_of_not_array hitems] at hc
        split at hc
        · cases hc
        · exact document.closed.getKey_lt ih (Option.mem_toList.mp hc)

/-- What has become of the `/Pg` of one dictionary. -/
structure PgUpdated (document : LiveDocument) (result : RebuildResult) (heap : Heap)
    (dict : Handle) : Prop where
  absent : document.heap.getKey dict (ascii "/Pg") = none → heap.getKey dict (ascii "/Pg") = none
  direct : ∀ pg, document.heap.getKey dict (ascii "/Pg") = some pg →
    (document.heap.slot pg).objectGen = none → heap.getKey dict (ascii "/Pg") = some pg
  surviving : ∀ pg pgGen old new, document.heap.getKey dict (ascii "/Pg") = some pg →
    (document.heap.slot pg).objectGen = some pgGen → pgGen.toObjectRef = some old →
    result.surviving old = some new →
    heap.getKey dict (ascii "/Pg") = some (document.getObjectHandle new)
  removed : ∀ pg pgGen, document.heap.getKey dict (ascii "/Pg") = some pg →
    (document.heap.slot pg).objectGen = some pgGen →
    (∀ old, pgGen.toObjectRef = some old → result.surviving old = none) →
    result.removedPageObjgens pgGen = true → heap.getKey dict (ascii "/Pg") = none
  other : ∀ pg pgGen, document.heap.getKey dict (ascii "/Pg") = some pg →
    (document.heap.slot pg).objectGen = some pgGen →
    (∀ old, pgGen.toObjectRef = some old → result.surviving old = none) →
    result.removedPageObjgens pgGen = false → heap.getKey dict (ascii "/Pg") = some pg
  no_removed : ∀ pg pgGen, heap.getKey dict (ascii "/Pg") = some pg →
    (document.heap.slot pg).objectGen = some pgGen →
    (∀ old, pgGen.toObjectRef = some old → result.surviving old = none) →
    result.removedPageObjgens pgGen = true →
    ∃ old new, result.surviving old = some new ∧ pg = document.getObjectHandle new

/-- What the pass promises. -/
structure Updated (document : LiveDocument) (result : RebuildResult) (root : Handle) (heap : Heap)
    (targets : List ObjectRef) : Prop where
  elements : ∀ dict, document.heap.Reachable root dict → dict ≠ root →
    document.heap.isDictionary dict = true → PgUpdated document result heap dict
  entries : ∀ a key, ¬(key = ascii "/Pg" ∧ document.heap.Reachable root a ∧ a ≠ root) →
    heap.getKey a key = document.heap.getKey a key
  values : ∀ a, document.heap.isDictionary a = false → heap.value a = document.heap.value a
  dictionaries : ∀ a, heap.isDictionary a = document.heap.isDictionary a
  identities : ∀ a, (heap.slot a).objectGen = (document.heap.slot a).objectGen
  targets : ∀ dict, document.heap.Reachable root dict → dict ≠ root →
    document.heap.typeIsOneOf [ascii "OBJR"] dict = true →
    ∀ obj, document.heap.getKey dict (ascii "/Obj") = some obj →
    ∀ ref, document.heap.objectRef obj = some ref → ref ∈ targets

theorem pgUpdated_of_eq {heap : Heap} (h : heap.getKey dict (ascii "/Pg") =
    (document.heap.getKey dict (ascii "/Pg")).bind (pgAfter document result)) :
    PgUpdated document result heap dict where
  absent hnone := by
    rw [h, hnone]
    rfl
  direct pg hget hobject := by
    rw [h, hget, Option.bind_some, pgAfter, hobject]
  surviving pg pgGen old new hget hobject hold hnew := by
    rw [h, hget, Option.bind_some, pgAfter, hobject]
    dsimp only
    rw [RebuildResult.pgChange_of_surviving hold hnew]
    by_cases hne : new = old
    · -- the page keeps its object, and the object has one handle
      subst hne
      have hnumber := RebuildResult.surviving_number hnew
      have hpg : document.heap.objectRef pg = some new := by
        rw [objectRef_eq, hobject, Option.bind_some, hold]
      have hhandle : document.heap.objectRef (document.getObjectHandle new) = some new := by
        rw [objectRef_eq, document.handle_objectGen new hnumber, Option.bind_some,
          ← (QpdfObjGen.toObjectRef_eq_some.mp hold).1, hold]
      rw [if_neg (not_not_intro rfl), document.canonical _ _ _ hpg hhandle]
    · rw [if_pos hne]
  removed pg pgGen hget hobject hnone hremoved := by
    rw [h, hget, Option.bind_some, pgAfter, hobject]
    dsimp only
    rw [RebuildResult.pgChange_of_not_surviving hnone, if_pos hremoved]
  other pg pgGen hget hobject hnone hremoved := by
    rw [h, hget, Option.bind_some, pgAfter, hobject]
    dsimp only
    rw [RebuildResult.pgChange_of_not_surviving hnone, hremoved]
    rfl
  no_removed pg pgGen hget hobject hnone hremoved := by
    rw [h, Option.bind_eq_some_iff] at hget
    obtain ⟨pg', -, hafter⟩ := hget
    rw [pgAfter] at hafter
    cases hobject' : (document.heap.slot pg').objectGen with
    | none =>
      simp only [hobject', Option.some.injEq] at hafter
      rw [hafter, hobject] at hobject'
      cases hobject'
    | some pgGen' =>
      simp only [hobject'] at hafter
      cases hchange : result.pgChange pgGen' with
      | keep =>
        simp only [hchange, Option.some.injEq] at hafter
        rw [hafter, hobject, Option.some.injEq] at hobject'
        rw [← hobject', RebuildResult.pgChange_of_not_surviving hnone, if_pos hremoved] at hchange
        cases hchange
      | remap new =>
        simp only [hchange, Option.some.injEq] at hafter
        obtain ⟨old, hold⟩ := RebuildResult.surviving_of_remap hchange
        exact ⟨old, new, hold, hafter.symm⟩
      | drop => simp [hchange] at hafter

theorem Walking.updated (h : Walking document result root done [] s)
    (hdictionary : document.heap.isDictionary root = true) :
    Updated document result root s.heap s.objrObjTargets where
  elements dict hreachable hne hcontainer := by
    have hmem : dict ∈ root :: done := h.progress.complete (hreachable.reached hdictionary)
      (entry_ne_skip (.inr (by rw [isContainer, hcontainer, Bool.or_true])))
    apply pgUpdated_of_eq
    rw [h.getKey_pg, if_pos (List.mem_of_ne_of_mem hne hmem)]
  entries a key hnot := by
    by_cases hkey : key = ascii "/Pg"
    · subst hkey
      rw [h.getKey_pg, if_neg]
      intro hdone
      have hne : a ≠ root := by
        rintro rfl
        exact (List.nodup_cons.mp h.progress.nodup).1 hdone
      have hreached := h.progress.reached a
        (List.mem_append_left _ (List.mem_cons_of_mem _ hdone))
      exact hnot ⟨rfl, (reachable_of_reached hreached).resolve_left hne, hne⟩
    · exact h.same.getKey_eq a key hkey
  values := h.same.value_eq
  dictionaries := h.same.isDictionary_eq
  identities := h.same.objectGen_eq
  targets dict hreachable hne htype obj hobj ref href := by
    have hmem : dict ∈ root :: done := h.progress.complete (hreachable.reached hdictionary)
      (entry_ne_skip (.inr (by rw [isContainer, isDictionary_of_getKey hobj, Bool.or_true])))
    apply h.targets dict (List.mem_of_ne_of_mem hne hmem)
    rw [objrTarget, if_pos htype, hobj, Option.bind_some, href]

/-- The root alone is marked before the walk. -/
theorem ends_enter_root :
    (enter root).Ends (start document) fun _ s => s.heap = document.heap ∧
      s.objrObjTargets = [] ∧ ∀ ref, ref ∈ s.visited ↔ document.heap.objectRef root = some ref := by
  rw [enter]
  apply ends_get_bind
  rw [show (start document).heap = document.heap from rfl]
  cases href : document.heap.objectRef root with
  | none => exact ends_pure ⟨rfl, rfl, fun ref => by simp [start]⟩
  | some kidRef =>
    have hnot : kidRef ∉ (start document).visited := Finset.notMem_empty kidRef
    dsimp only
    rw [if_neg hnot]
    apply Ends.bind (ends_modify (P := fun _ s' => s' =
      { start document with visited := insert kidRef ∅ }) rfl)
    rintro _ _ rfl
    refine ends_pure ⟨rfl, rfl, fun ref => ?_⟩
    rw [Finset.mem_insert, Option.some.injEq, eq_comm]
    simp

section Numbered

/-- The address of an object is its number and its generation; the direct ones have number
zero. -/
def numberedHandle (ref : ObjectRef) : Handle := ref.number * 2 ^ 16 + ref.generation

def numberedHeap (values : List (Handle × SlotValue)) (size : ℕ) : Heap where
  slot a := ⟨if a / 2 ^ 16 = 0 then none else some ⟨(a / 2 ^ 16 : ℕ), (a % 2 ^ 16 : ℕ)⟩,
    (values.lookup a).getD .null⟩
  size := size
  objectCount := 0

variable {values : List (Handle × SlotValue)} {size : ℕ} {rootRef : Option ObjectRef}

theorem value_numberedHeap :
    (numberedHeap values size).value a = (values.lookup a).getD .null := rfl

theorem numberedHeap_closed (h : ∀ entry ∈ values, ∀ child ∈ entry.2.children, child < size) :
    (numberedHeap values size).Closed := by
  intro a _ child hchild
  rw [value_numberedHeap] at hchild
  cases hlookup : values.lookup a with
  | none =>
    rw [hlookup] at hchild
    cases hchild
  | some value =>
    rw [hlookup] at hchild
    obtain ⟨front, back, rfl, -⟩ := List.lookup_eq_some_iff.mp hlookup
    exact h (a, value) (List.mem_append_right _ List.mem_cons_self) child hchild

theorem numberedHeap_canonical {b : Handle} {ref : ObjectRef}
    (ha : (numberedHeap values size).objectRef a = some ref)
    (hb : (numberedHeap values size).objectRef b = some ref) : a = b := by
  have hof : ∀ c : Handle, (numberedHeap values size).objectRef c = some ref →
      c = numberedHandle ref := by
    intro c hc
    rw [objectRef_eq, numberedHeap, Option.bind_eq_some_iff] at hc
    obtain ⟨objectGen, hgen, href⟩ := hc
    dsimp only at hgen
    split at hgen
    · cases hgen
    · cases hgen
      have h := (QpdfObjGen.toObjectRef_eq_some.mp href).1
      simp only [QpdfObjGen.mk.injEq, Nat.cast_inj] at h
      rw [numberedHandle, ← h.1, ← h.2]
      exact (Nat.div_add_mod' c (2 ^ 16)).symm
  rw [hof a ha, hof b hb]

/-- Whether every node without a mark stands in one place is seen from the objects. -/
theorem numberedHeap_embedded (hroot : (values.lookup root).isSome = true)
    (honly : ((numberedHeap values size).structSearch root).entry root ≠ .pass)
    (hparent : ∀ b ∈ values.map Prod.fst,
      ∀ a ∈ ((numberedHeap values size).structSearch root).children b,
      ((numberedHeap values size).structSearch root).entry a = .pass →
      (((numberedHeap values size).structSearch root).children b).count a ≤ 1 ∧
      ∀ c ∈ values.map Prod.fst, a ∈ ((numberedHeap values size).structSearch root).children c →
        b = c) :
    ((numberedHeap values size).structSearch root).Embedded root := by
  have hmem : ∀ a b, a ∈ ((numberedHeap values size).structSearch root).children b →
      b ∈ values.map Prod.fst := by
    intro a b hab
    have hsome : (values.lookup b).isSome = true := by
      by_cases hne : b = root
      · rwa [hne]
      · rw [children_of_ne hne] at hab
        have hcontainer := isContainer_of_mem_kids hab
        cases hlookup : values.lookup b with
        | some value => rfl
        | none =>
          rw [isContainer, isArray, arrayItems, isDictionary, value_numberedHeap, hlookup]
            at hcontainer
          cases hcontainer
    obtain ⟨value, hvalue⟩ := Option.isSome_iff_exists.mp hsome
    obtain ⟨front, back, hvalues, -⟩ := List.lookup_eq_some_iff.mp hvalue
    rw [hvalues]
    simp
  constructor
  · intro hentry
    exact absurd hentry honly
  · intro a b c hentry _ _ hab hac
    exact (hparent b (hmem a b hab) a hab hentry).2 c (hmem a c hac) hac
  · intro a b hentry _
    by_cases hab : a ∈ ((numberedHeap values size).structSearch root).children b
    · exact (hparent b (hmem a b hab) a hab hentry).1
    · rw [List.count_eq_zero_of_not_mem hab]
      exact Nat.zero_le 1

def numberedDocument (values : List (Handle × SlotValue)) (size : ℕ) (rootRef : Option ObjectRef)
    (hclosed : ∀ entry ∈ values, ∀ child ∈ entry.2.children, child < size)
    (hcatalog : ∀ ref, rootRef = some ref → numberedHandle ref < size) : LiveDocument where
  heap := numberedHeap values size
  rootRef := rootRef
  getObjectHandle := numberedHandle
  tryDereference _ := .ok ()
  closed := numberedHeap_closed hclosed
  catalog_lt := hcatalog
  handle_objectGen ref h := by
    have hdiv : numberedHandle ref / 2 ^ 16 = ref.number := by
      rw [numberedHandle]
      omega
    have hmod : numberedHandle ref % 2 ^ 16 = ref.generation := by
      rw [numberedHandle]
      omega
    have hne : ref.number ≠ 0 := by
      omega
    simp only [numberedHeap, hdiv, hmod, hne, if_false]
  canonical _ _ _ := numberedHeap_canonical

end Numbered

/-- Two elements and an object reference in a direct array; one of the elements stands there twice
and leads back to the root. -/
def sharedElementValues : List (Handle × SlotValue) :=
  [(numberedHandle ⟨1, 0⟩,
    .dictionary (.ofList [(ascii "/StructTreeRoot", numberedHandle ⟨2, 0⟩)])),
   (numberedHandle ⟨2, 0⟩, .dictionary (.ofList [(ascii "/K", 1)])),
   (1, .array [numberedHandle ⟨3, 0⟩, numberedHandle ⟨4, 0⟩, numberedHandle ⟨3, 0⟩,
     numberedHandle ⟨6, 0⟩]),
   (2, .name (ascii "OBJR")),
   (numberedHandle ⟨3, 0⟩, .dictionary (.ofList
     [(ascii "/Pg", numberedHandle ⟨10, 0⟩), (ascii "/K", numberedHandle ⟨2, 0⟩)])),
   (numberedHandle ⟨4, 0⟩, .dictionary (.ofList [(ascii "/Type", 2),
     (ascii "/Pg", numberedHandle ⟨11, 0⟩), (ascii "/Obj", numberedHandle ⟨12, 0⟩)])),
   (numberedHandle ⟨6, 0⟩, .dictionary (.ofList [(ascii "/Pg", numberedHandle ⟨14, 0⟩)]))]

def sharedElement : LiveDocument :=
  numberedDocument sharedElementValues (numberedHandle ⟨20, 0⟩) (some ⟨1, 0⟩) (by decide)
    (by
      rintro ref h
      cases h
      decide)

/-- The output page of the first page is the number of the second. -/
def shiftedPages : RebuildResult where
  refMap old :=
    if old = ⟨10, 0⟩ then some [⟨11, 0⟩] else if old = ⟨11, 0⟩ then some [⟨13, 0⟩] else none
  removedPageObjgens pgGen := pgGen == ⟨14, 0⟩
  outputs_are_objects old outputs new h hnew := by
    split at h
    · cases h
      rw [List.mem_singleton.mp hnew]
      decide
    · split at h
      · cases h
        rw [List.mem_singleton.mp hnew]
        decide
      · cases h

/-- Below the root stands a direct array, which contains itself. -/
def arrayCycle : LiveDocument :=
  numberedDocument
    [(numberedHandle ⟨1, 0⟩,
      .dictionary (.ofList [(ascii "/StructTreeRoot", numberedHandle ⟨2, 0⟩)])),
     (numberedHandle ⟨2, 0⟩, .dictionary (.ofList [(ascii "/K", 1)])),
     (1, .array [1])]
    (numberedHandle ⟨3, 0⟩) (some ⟨1, 0⟩) (by decide) (by
      rintro ref h
      cases h
      decide)

def noPages : RebuildResult where
  refMap _ := none
  removedPageObjgens _ := false
  outputs_are_objects _ _ _ h := by cases h

theorem walkKids_arrayCycle (fuel : ℕ) : ∀ s : WalkState, s.heap = arrayCycle.heap →
    walkKids arrayCycle noPages 100 fuel 0 1 s = none := by
  have href : arrayCycle.heap.objectRef 1 = none := by decide
  have hitems : arrayCycle.heap.arrayItems 1 = some [1] := by decide
  induction fuel with
  | zero => exact fun _ _ => rfl
  | succ fuel ih =>
    intro s hs
    have henter : enter 1 s = some (.ok true, s) := by
      rw [← hs] at href
      rw [enter, run_bind rfl, href]
      rfl
    rw [walkKids, if_neg (by decide), run_bind henter, if_pos rfl, run_bind rfl, run_bind rfl, hs, hitems]
    change Program.bind (walkKids arrayCycle noPages 100 fuel 0 1) _ s = _
    rw [Program.bind, ih s hs]

end StructTree

end Flpdf
