import Flpdf.Linearization.SharedHints

/-!
# The sections of the shared object hints

The header of the shared object hint table against the list it stands in front of. The list
is folded to the units of the first-page section and those of Part 8; the header takes the
length of the first section from a count of the second one. Both agree as long as no
container is on one side of the count only.
-/

namespace Flpdf

/-- What an entry of the table stands for. -/
inductive SharedUnit where
  | object (object : QpdfObjGen)
  | container (number : ℕ)
  deriving DecidableEq, Repr

namespace RawSharedObjectHintEntry

def unit (entry : RawSharedObjectHintEntry) : Option SharedUnit :=
  match entry.container, entry.object with
  | some container, _ => some (.container container)
  | none, some object => some (.object object)
  | none, none => none

end RawSharedObjectHintEntry

namespace MemberToContainer

variable {map : MemberToContainer} {member : ObjectRef} {container : ℕ}

/-- A compressed member is replaced by its container. -/
def unitOf (map : MemberToContainer) (object : QpdfObjGen) : SharedUnit :=
  match object.toObjectRef.bind map.containerOf with
  | some container => .container container
  | none => .object object

theorem lookup_eq_some_of_mem {rows : List (ObjectRef × ℕ × ℕ)}
    (h : (rows.map Prod.fst).Nodup) {row : ObjectRef × ℕ × ℕ} (hrow : row ∈ rows) :
    rows.lookup row.1 = some row.2 := by
  obtain ⟨front, back, rfl⟩ := List.append_of_mem hrow
  rw [List.map_append, List.map_cons, List.nodup_middle, List.nodup_cons, List.mem_append] at h
  refine List.lookup_eq_some_iff.mpr ⟨front, back, rfl, fun e he => ?_⟩
  apply bne_iff_ne.mpr
  intro heq
  exact h.1 (.inl (heq ▸ List.mem_map_of_mem he))

theorem mem_of_lookup_eq_some {rows : List (ObjectRef × ℕ × ℕ)} {value : ℕ × ℕ}
    (h : rows.lookup member = some value) : (member, value) ∈ rows := by
  obtain ⟨front, back, rfl, -⟩ := List.lookup_eq_some_iff.mp h
  exact List.mem_append_right _ List.mem_cons_self

theorem mem_membersOf : member ∈ map.membersOf container ↔
    map.containerOf member = some container := by
  simp only [membersOf, containerOf, List.mem_map, List.mem_filter, decide_eq_true_eq,
    Option.map_eq_some_iff]
  constructor
  · rintro ⟨row, ⟨hrow, rfl⟩, rfl⟩
    exact ⟨row.2, lookup_eq_some_of_mem map.distinct hrow, rfl⟩
  · rintro ⟨value, hlookup, rfl⟩
    exact ⟨(member, value), ⟨mem_of_lookup_eq_some hlookup, rfl⟩, rfl⟩

theorem mem_containers : container ∈ map.containers ↔
    ∃ member, map.containerOf member = some container := by
  have hperm := List.perm_insertionSort (· ≤ ·) (map.rows.map fun row => row.2.1).dedup
  rw [containers, hperm.mem_iff, List.mem_dedup, List.mem_map]
  constructor
  · rintro ⟨row, hrow, rfl⟩
    refine ⟨row.1, ?_⟩
    rw [containerOf, lookup_eq_some_of_mem map.distinct hrow]
    rfl
  · rintro ⟨member, h⟩
    obtain ⟨value, hlookup, rfl⟩ := Option.map_eq_some_iff.mp h
    exact ⟨(member, value), mem_of_lookup_eq_some hlookup, rfl⟩

theorem nodup_containers : map.containers.Nodup :=
  (List.perm_insertionSort _ _).nodup_iff.mpr (List.nodup_dedup _)

theorem containerOf_of_isEmpty (h : map.rows.isEmpty) : map.containerOf member = none := by
  rw [containerOf, List.isEmpty_iff.mp h]
  rfl

theorem unitOf_eq_container {object : QpdfObjGen} : map.unitOf object = .container container ↔
    ∃ ref, object.toObjectRef = some ref ∧ map.containerOf ref = some container := by
  rw [unitOf, ← Option.bind_eq_some_iff]
  cases object.toObjectRef.bind map.containerOf <;> simp

theorem unitOf_eq_object {object object' : QpdfObjGen} : map.unitOf object = .object object' ↔
    object = object' ∧ ∀ ref, object.toObjectRef = some ref → map.containerOf ref = none := by
  rw [unitOf]
  cases h : object.toObjectRef with
  | none => simp
  | some ref =>
    cases hcontainer : map.containerOf ref with
    | none => simp [hcontainer]
    | some container => simp [hcontainer]

end MemberToContainer

namespace LinearizationPlan

variable (plan : LinearizationPlan) (map : MemberToContainer) (sections : ContainerSections)

/-! ## The units of the sections -/

/-- The references of Part 2, Part 3 and the outline objects of the first page. -/
def firstPageRefs : List ObjectRef :=
  plan.part2Objects ++ plan.part3Objects ++ plan.outlineFirstPageMembers

/-- The objects of the first-page section. -/
def firstPageObjects : List QpdfObjGen :=
  if plan.hasRawProjectionGap then
    plan.raw.part2Objects ++ plan.raw.part3Objects ++ plan.raw.part6OutlineObjects
  else rawIdentities plan.firstPageRefs

/-- The objects that several of the other pages share. -/
def otherPagesShared : List QpdfObjGen :=
  if plan.hasRawProjectionGap then plan.raw.part4OtherPagesShared
  else rawIdentities plan.part4OtherPagesShared

/-- The units of the first-page section; a container in another part is none of them. -/
def FirstPageUnit : SharedUnit → Prop
  | .object object => object ∈ plan.firstPageObjects ∧ map.unitOf object = .object object
  | .container container =>
    (∃ object ∈ plan.firstPageObjects, map.unitOf object = .container container) ∧
      container ∉ sections.openDocument ∧ container ∉ sections.secondHalf

/-- No member is an object of Part 2 or Part 3, and there is a shared member, or there are two
pages behind the first one that use members. -/
def SharedByLaterPages (container : ℕ) : Prop :=
  (∀ member, map.containerOf member = some container →
      member ∉ plan.part2Objects ++ plan.part3Objects) ∧
    ((∃ member, map.containerOf member = some container ∧ member ∈ plan.part4OtherPagesShared) ∨
      ∃ optimization, plan.optimization = some optimization ∧ ∃ page page' : UInt32,
        page ≠ page' ∧ page ≠ 0 ∧ page' ≠ 0 ∧
        (∃ member, map.containerOf member = some container ∧
          page ∈ optimization.pageUsers member) ∧
        ∃ member, map.containerOf member = some container ∧ page' ∈ optimization.pageUsers member)

/-- The units of Part 8. -/
def Part8Unit : SharedUnit → Prop
  | .object object => object ∈ plan.otherPagesShared ∧ map.unitOf object = .object object
  | .container container =>
    plan.SharedByLaterPages map container ∧ container ∉ sections.openDocument ∧
      container ∉ plan.restContainerNums map ∧
      ¬plan.FirstPageUnit map sections (.container container)

/-- The hints are those of the parts, which are disjoint; where an object of the raw parts has
no checked reference, the raw hints are those of the raw parts. -/
structure Consistent : Prop where
  hints : plan.sharedHints.map (·.objectRef) = plan.firstPageRefs ++ plan.part4OtherPagesShared
  disjoint : (plan.firstPageRefs ++ plan.part4OtherPagesShared).Nodup
  valid : ∀ ref ∈ plan.firstPageRefs ++ plan.part4OtherPagesShared, ref.Valid
  rawHints : plan.hasRawProjectionGap →
    plan.raw.sharedHints.map (fun entry => (entry.object, entry.container)) =
      (plan.firstPageObjects ++ plan.otherPagesShared).map fun object => (some object, none)
  rawDisjoint : plan.hasRawProjectionGap →
    (plan.firstPageObjects ++ plan.otherPagesShared).Nodup
  rawFirstPage : plan.hasRawProjectionGap →
    (plan.firstPageObjects.filterMap QpdfObjGen.toObjectRef).Perm plan.firstPageRefs
  rawShared : plan.hasRawProjectionGap →
    (plan.otherPagesShared.filterMap QpdfObjGen.toObjectRef).Perm plan.part4OtherPagesShared

/-! ## The loop -/

/-- The unit of a checked entry. -/
def entryUnit (entry : SharedObjectHintEntry) : SharedUnit :=
  if entry.objectRef.generation = containerGeneration then .container entry.objectRef.number
  else .object ⟨entry.objectRef.number, entry.objectRef.generation⟩

/-- The unit a reference asks for, unless its container is passed over. -/
def request (passedOver : ℕ → Bool) (ref : ObjectRef) : Option SharedUnit :=
  match map.containerOf ref with
  | some container => if passedOver container then none else some (.container container)
  | none => some (.object ⟨ref.number, ref.generation⟩)

/-- The units that hints from the front of the list ask for. -/
def requests (hints : List SharedObjectHintEntry) : List SharedUnit :=
  hints.zipIdx.filterMap fun input =>
    request map (plan.passesOver map sections input.2) input.1.objectRef

/-- The state of the loop behind some hints. -/
structure FoldedHints.Follows (s : FoldedHints) (hints : List SharedObjectHintEntry) : Prop where
  units : s.out.map entryUnit = firstOccurrences (plan.requests map sections hints)
  pos : ∀ container, (s.containerPos.lookup container).isSome ↔
    .container container ∈ firstOccurrences (plan.requests map sections hints)
  boundary : s.firstPageOutEnd =
    if plan.firstPageInput < hints.length then
      some (firstOccurrences
        (plan.requests map sections (hints.take plan.firstPageInput))).length
    else none

variable {plan map sections} {hints : List SharedObjectHintEntry} {hint : SharedObjectHintEntry}

theorem requests_concat : plan.requests map sections (hints ++ [hint]) =
    plan.requests map sections hints ++
      (request map (plan.passesOver map sections hints.length) hint.objectRef).toList := by
  rw [requests, List.zipIdx_append, List.filterMap_append, requests, Nat.zero_add]
  congr 1

theorem entryUnit_container (container : ℕ) (pages : List UInt32) :
    entryUnit ⟨⟨container, containerGeneration⟩, pages⟩ = .container container := if_pos rfl

theorem entryUnit_of_valid (h : hint.objectRef.Valid) :
    entryUnit hint = .object ⟨hint.objectRef.number, hint.objectRef.generation⟩ := by
  apply if_neg
  have := h.2.2
  rw [containerGeneration]
  omega

/-- Only a hint on the same reference asks for an object. -/
theorem object_notMem_requests (plan : LinearizationPlan) (map : MemberToContainer)
    (sections : ContainerSections) (h : ∀ hint' ∈ hints, hint'.objectRef ≠ hint.objectRef) :
    .object ⟨hint.objectRef.number, hint.objectRef.generation⟩ ∉
      plan.requests map sections hints := by
  intro hmem
  obtain ⟨⟨hint', index⟩, hinput, hrequest⟩ := List.mem_filterMap.mp hmem
  have hmem' : hint' ∈ hints := List.fst_mem_of_mem_zipIdx hinput
  apply h hint' hmem'
  rw [request] at hrequest
  split at hrequest
  · split at hrequest <;> simp at hrequest
  · simp only [Option.some.injEq, SharedUnit.object.injEq, QpdfObjGen.mk.injEq,
      Nat.cast_inj] at hrequest
    generalize hint'.objectRef = ref at hrequest ⊢
    generalize hint.objectRef = ref' at hrequest ⊢
    cases ref
    cases ref'
    simpa using hrequest

theorem lookup_append_isSome {rows : List (ℕ × ℕ)} {key value key' : ℕ} :
    ((rows ++ [(key, value)]).lookup key').isSome ↔ (rows.lookup key').isSome ∨ key' = key := by
  rw [List.lookup_append, Option.isSome_or, Bool.or_eq_true]
  by_cases h : key' = key <;> simp [List.lookup_cons, h, beq_false_of_ne]

/-- The boundary is frozen in front of the first hint of the second section. -/
theorem FoldedHints.Follows.freeze {s : FoldedHints} (h : s.Follows plan map sections hints)
    (hint : SharedObjectHintEntry) :
    (if hints.length = plan.firstPageInput then { s with firstPageOutEnd := some s.out.length }
      else s).firstPageOutEnd =
      if plan.firstPageInput < (hints ++ [hint]).length then
        some (firstOccurrences
          (plan.requests map sections ((hints ++ [hint]).take plan.firstPageInput))).length
      else none := by
  rw [List.length_append, List.length_singleton]
  by_cases heq : hints.length = plan.firstPageInput
  · rw [if_pos heq, if_pos (by omega), ← heq, List.take_left, ← h.units, List.length_map]
  · rw [if_neg heq, h.boundary]
    by_cases hlt : plan.firstPageInput < hints.length
    · rw [if_pos hlt, if_pos (by omega), List.take_append_of_le_length hlt.le]
    · rw [if_neg hlt, if_neg (by omega)]

/-- One round appends the unit of its hint, unless it is there. -/
theorem FoldedHints.Follows.foldHint {s : FoldedHints} (h : s.Follows plan map sections hints)
    (hvalid : hint.objectRef.Valid) (hnew : ∀ hint' ∈ hints, hint'.objectRef ≠ hint.objectRef) :
    (plan.foldHint map sections s (hint, hints.length)).Follows plan map sections
      (hints ++ [hint]) := by
  have hfreeze := h.freeze hint
  rw [LinearizationPlan.foldHint]
  generalize hs' : (if hints.length = plan.firstPageInput then
    { s with firstPageOutEnd := some s.out.length } else s) = s' at hfreeze ⊢
  have hout : s'.out = s.out := by
    rw [← hs']
    split <;> rfl
  have hpos : s'.containerPos = s.containerPos := by
    rw [← hs']
    split <;> rfl
  have hunits : s'.out.map entryUnit = firstOccurrences (plan.requests map sections hints) := by
    rw [hout, h.units]
  have hnone : request map (plan.passesOver map sections hints.length) hint.objectRef = none →
      firstOccurrences (plan.requests map sections (hints ++ [hint])) =
        firstOccurrences (plan.requests map sections hints) := by
    intro hrequest
    rw [requests_concat, hrequest, Option.toList_none, List.append_nil]
  have hsome : ∀ {unit},
      request map (plan.passesOver map sections hints.length) hint.objectRef = some unit →
      firstOccurrences (plan.requests map sections (hints ++ [hint])) =
        insertLast (firstOccurrences (plan.requests map sections hints)) unit := by
    intro unit hrequest
    rw [requests_concat, hrequest, Option.toList_some, firstOccurrences_concat]
  cases hcontainer : map.containerOf hint.objectRef with
  | none =>
    have hrequest : request map (plan.passesOver map sections hints.length) hint.objectRef =
        some (.object ⟨hint.objectRef.number, hint.objectRef.generation⟩) := by
      rw [request, hcontainer]
    have hnot := mt mem_firstOccurrences.mp
      (object_notMem_requests plan map sections hnew)
    have hnext := (hsome hrequest).trans (insertLast_of_notMem hnot)
    refine ⟨?_, ?_, hfreeze⟩
    · rw [hnext, List.map_append, hunits, List.map_singleton, entryUnit_of_valid hvalid]
    · intro container
      rw [hnext, List.mem_append, List.mem_singleton, hpos, h.pos]
      simp
  | some container =>
    by_cases hover : plan.passesOver map sections hints.length container
    · have hrequest : request map (plan.passesOver map sections hints.length) hint.objectRef =
          none := by
        simp only [request, hcontainer, if_pos hover]
      simp only [if_pos hover]
      refine ⟨?_, ?_, hfreeze⟩
      · rw [hnone hrequest, hunits]
      · rw [hnone hrequest, hpos]
        exact h.pos
    · have hrequest : request map (plan.passesOver map sections hints.length) hint.objectRef =
          some (.container container) := by
        simp only [request, hcontainer, if_neg hover]
      simp only [if_neg hover]
      cases hlookup : s'.containerPos.lookup container with
      | some pos =>
        have hmem := (h.pos container).mp (by rw [← hpos, hlookup]; rfl)
        have hnext := (hsome hrequest).trans (insertLast_of_mem hmem)
        refine ⟨?_, ?_, hfreeze⟩
        · rw [hnext, ← hunits]
          apply List.ext_getElem?
          intro index
          rw [List.getElem?_map, List.getElem?_map, List.getElem?_modify]
          cases s'.out[index]? with
          | none => simp
          | some entry =>
            by_cases hindex : pos = index
            · simp [hindex, entryUnit]
            · simp [hindex]
        · rw [hnext, hpos]
          exact h.pos
      | none =>
        have hnot : .container container ∉
            firstOccurrences (plan.requests map sections hints) := by
          rw [← h.pos, ← hpos, hlookup]
          simp
        have hnext := (hsome hrequest).trans (insertLast_of_notMem hnot)
        refine ⟨?_, ?_, hfreeze⟩
        · rw [hnext, List.map_append, hunits, List.map_singleton, entryUnit_container]
        · intro container'
          rw [hnext, lookup_append_isSome, hpos, h.pos, List.mem_append, List.mem_singleton,
            SharedUnit.container.injEq]

/-- The loop serves the requests in order. -/
theorem follows_foldHint (hvalid : ∀ hint ∈ hints, hint.objectRef.Valid)
    (hnodup : (hints.map (·.objectRef)).Nodup) :
    (hints.zipIdx.foldl (plan.foldHint map sections) {}).Follows plan map sections hints := by
  induction hints using List.reverseRecOn with
  | nil =>
    refine ⟨rfl, ?_, rfl⟩
    intro container
    simp [requests, firstOccurrences]
  | append_singleton hints hint ih =>
    rw [List.map_append, List.map_singleton, List.nodup_append'] at hnodup
    have ih := ih (fun hint' hmem => hvalid hint' (List.mem_append_left _ hmem)) hnodup.1
    rw [List.zipIdx_append, List.foldl_append, Nat.zero_add]
    apply ih.foldHint (hvalid hint (by simp))
    intro hint' hmem heq
    exact hnodup.2.2 (List.mem_map.mpr ⟨hint', hmem, heq⟩) (List.mem_singleton_self _)

/-! ## The checked list -/

theorem mem_requests {unit : SharedUnit} : unit ∈ plan.requests map sections hints ↔
    ∃ index ref, (hints.map (·.objectRef))[index]? = some ref ∧
      request map (plan.passesOver map sections index) ref = some unit := by
  simp only [requests, List.mem_filterMap, Prod.exists, List.mem_zipIdx_iff_getElem?,
    List.getElem?_map, Option.map_eq_some_iff]
  constructor
  · rintro ⟨hint, index, hget, hrequest⟩
    exact ⟨index, hint.objectRef, ⟨hint, hget, rfl⟩, hrequest⟩
  · rintro ⟨index, ref, ⟨hint, hget, rfl⟩, hrequest⟩
    exact ⟨hint, index, hget, hrequest⟩

/-- The containers that the first-page section passes over. -/
def passedFirst (sections : ContainerSections) (container : ℕ) : Bool :=
  container ∈ sections.openDocument || container ∈ sections.secondHalf

/-- The containers that the second section passes over. -/
def passedBehind (plan : LinearizationPlan) (map : MemberToContainer)
    (sections : ContainerSections) (container : ℕ) : Bool :=
  container ∈ sections.openDocument || container ∈ plan.restContainerNums map

theorem passesOver_of_lt {index : ℕ} (h : index < plan.firstPageInput) :
    plan.passesOver map sections index = passedFirst sections := by
  funext container
  simp [passesOver, passedFirst, h, Nat.not_le.mpr h]

theorem passesOver_of_le {index : ℕ} (h : plan.firstPageInput ≤ index) :
    plan.passesOver map sections index = passedBehind plan map sections := by
  funext container
  simp [passesOver, passedBehind, h, Nat.not_lt.mpr h]

theorem firstPageInput_eq : plan.firstPageInput = plan.firstPageRefs.length := by
  simp [firstPageInput, firstPageRefs, Nat.add_assoc]

/-- The units that a section's references ask for. -/
def Asked (map : MemberToContainer) (passedOver : ℕ → Bool) (refs : List ObjectRef)
    (unit : SharedUnit) : Prop :=
  ∃ ref ∈ refs, request map passedOver ref = some unit

theorem mem_requests_take (hc : plan.Consistent) {unit : SharedUnit} :
    unit ∈ plan.requests map sections (plan.sharedHints.take plan.firstPageInput) ↔
      Asked map (passedFirst sections) plan.firstPageRefs unit := by
  rw [mem_requests, List.map_take, hc.hints, firstPageInput_eq, List.take_left]
  constructor
  · rintro ⟨index, ref, hget, hrequest⟩
    have hlt : index < plan.firstPageInput := by
      rw [firstPageInput_eq]
      exact (List.getElem?_eq_some_iff.mp hget).1
    rw [passesOver_of_lt hlt] at hrequest
    exact ⟨ref, List.mem_of_getElem? hget, hrequest⟩
  · rintro ⟨ref, hmem, hrequest⟩
    obtain ⟨index, hlt, rfl⟩ := List.mem_iff_getElem.mp hmem
    refine ⟨index, _, List.getElem?_eq_getElem hlt, ?_⟩
    rw [passesOver_of_lt (firstPageInput_eq ▸ hlt)]
    exact hrequest

theorem mem_requests_sharedHints (hc : plan.Consistent) {unit : SharedUnit} :
    unit ∈ plan.requests map sections plan.sharedHints ↔
      Asked map (passedFirst sections) plan.firstPageRefs unit ∨
        Asked map (passedBehind plan map sections) plan.part4OtherPagesShared unit := by
  rw [mem_requests, hc.hints]
  constructor
  · rintro ⟨index, ref, hget, hrequest⟩
    by_cases hlt : index < plan.firstPageInput
    · rw [passesOver_of_lt hlt] at hrequest
      rw [List.getElem?_append_left (firstPageInput_eq ▸ hlt)] at hget
      exact .inl ⟨ref, List.mem_of_getElem? hget, hrequest⟩
    · rw [passesOver_of_le (Nat.not_lt.mp hlt)] at hrequest
      rw [List.getElem?_append_right (firstPageInput_eq ▸ Nat.not_lt.mp hlt)] at hget
      exact .inr ⟨ref, List.mem_of_getElem? hget, hrequest⟩
  · rintro (⟨ref, hmem, hrequest⟩ | ⟨ref, hmem, hrequest⟩)
    · obtain ⟨index, hlt, rfl⟩ := List.mem_iff_getElem.mp hmem
      refine ⟨index, plan.firstPageRefs[index], ?_, ?_⟩
      · rw [List.getElem?_append_left hlt, List.getElem?_eq_getElem hlt]
      · rw [passesOver_of_lt (firstPageInput_eq ▸ hlt)]
        exact hrequest
    · obtain ⟨index, hlt, rfl⟩ := List.mem_iff_getElem.mp hmem
      refine ⟨plan.firstPageRefs.length + index, plan.part4OtherPagesShared[index], ?_, ?_⟩
      · rw [List.getElem?_append_right (Nat.le_add_right _ _), Nat.add_sub_cancel_left,
          List.getElem?_eq_getElem hlt]
      · rw [passesOver_of_le (by rw [firstPageInput_eq]; omega)]
        exact hrequest

theorem asked_container {passedOver : ℕ → Bool} {refs : List ObjectRef} {container : ℕ} :
    Asked map passedOver refs (.container container) ↔
      (∃ ref ∈ refs, map.containerOf ref = some container) ∧ passedOver container = false := by
  constructor
  · rintro ⟨ref, hmem, hrequest⟩
    rw [request] at hrequest
    split at hrequest
    · rename_i container' hcontainer
      split at hrequest
      · cases hrequest
      · rename_i hnot
        cases hrequest
        exact ⟨⟨ref, hmem, hcontainer⟩, Bool.eq_false_iff.mpr hnot⟩
    · cases hrequest
  · rintro ⟨⟨ref, hmem, hcontainer⟩, hnot⟩
    refine ⟨ref, hmem, ?_⟩
    simp [request, hcontainer, hnot]

theorem asked_object {passedOver : ℕ → Bool} {refs : List ObjectRef} {object : QpdfObjGen} :
    Asked map passedOver refs (.object object) ↔
      ∃ ref ∈ refs, map.containerOf ref = none ∧ object = ⟨ref.number, ref.generation⟩ := by
  constructor
  · rintro ⟨ref, hmem, hrequest⟩
    rw [request] at hrequest
    split at hrequest
    · split at hrequest <;> cases hrequest
    · rename_i hcontainer
      cases hrequest
      exact ⟨ref, hmem, hcontainer, rfl⟩
  · rintro ⟨ref, hmem, hcontainer, rfl⟩
    refine ⟨ref, hmem, ?_⟩
    simp [request, hcontainer]

variable {renumber : RenumberMap}

/-- The units that are asked for in front. -/
def frontUnits (plan : LinearizationPlan) (map : MemberToContainer)
    (sections : ContainerSections) : List SharedUnit :=
  firstOccurrences (plan.requests map sections (plan.sharedHints.take plan.firstPageInput))

/-- All the units that are asked for. -/
def askedUnits (plan : LinearizationPlan) (map : MemberToContainer)
    (sections : ContainerSections) : List SharedUnit :=
  firstOccurrences (plan.requests map sections plan.sharedHints)

/-- The containers that are put behind the units that are asked for. -/
def appendedUnits (plan : LinearizationPlan) (map : MemberToContainer)
    (sections : ContainerSections) : List SharedUnit :=
  ((plan.part8ContainerNums map).filter fun container =>
    .container container ∉ plan.askedUnits map sections &&
      !passedBehind plan map sections container).map .container

theorem frontUnits_prefix : plan.frontUnits map sections <+: plan.askedUnits map sections := by
  have h := prefix_firstOccurrences_append
    (plan.requests map sections (plan.sharedHints.take plan.firstPageInput))
  rw [frontUnits, askedUnits]
  conv_rhs => rw [← List.take_append_drop plan.firstPageInput plan.sharedHints]
  rw [requests, requests, List.zipIdx_append, List.filterMap_append]
  exact h _

/-- The pages are recomputed entry by entry. -/
theorem recomputeAll_eq_map (plan : LinearizationPlan) (map : MemberToContainer) :
    ∃ recompute : SharedObjectHintEntry → SharedObjectHintEntry,
      (∀ entry, (recompute entry).objectRef = entry.objectRef) ∧
        ∀ entries, plan.recomputeAll map entries = entries.map recompute := by
  cases hoptimization : plan.optimization with
  | none =>
    refine ⟨id, fun _ => rfl, ?_⟩
    intro entries
    rw [recomputeAll, hoptimization, List.map_id]
  | some optimization =>
    by_cases hpages : optimization.objectUsers.any fun object =>
        object.2.toList.any fun user => (Optimization.pageOf user).isSome
    · refine ⟨recomputePages map optimization, fun _ => rfl, ?_⟩
      intro entries
      simp only [recomputeAll, hoptimization, if_pos hpages]
    · refine ⟨id, fun _ => rfl, ?_⟩
      intro entries
      simp only [recomputeAll, hoptimization, if_neg hpages, List.map_id]

theorem Consistent.follows (hc : plan.Consistent) (map : MemberToContainer)
    (sections : ContainerSections) :
    (plan.foldedHints map sections).Follows plan map sections plan.sharedHints := by
  apply follows_foldHint
  · intro hint hmem
    apply hc.valid
    rw [← hc.hints]
    exact List.mem_map_of_mem hmem
  · rw [hc.hints]
    exact hc.disjoint

theorem Consistent.boundary (hc : plan.Consistent) :
    (plan.foldedHints map sections).firstPageOutEnd.getD
        (plan.foldedHints map sections).out.length = (plan.frontUnits map sections).length := by
  have hs := hc.follows map sections
  have hlength : (plan.foldedHints map sections).out.length =
      (plan.askedUnits map sections).length := by
    rw [askedUnits, ← hs.units, List.length_map]
  rw [hs.boundary]
  by_cases hlt : plan.firstPageInput < plan.sharedHints.length
  · rw [if_pos hlt]
    rfl
  · rw [if_neg hlt, frontUnits, List.take_of_length_le (Nat.not_lt.mp hlt)]
    exact hlength

theorem Consistent.appended (hc : plan.Consistent) :
    (plan.appendedContainers map sections (plan.foldedHints map sections)).map entryUnit =
      plan.appendedUnits map sections := by
  have hs := hc.follows map sections
  rw [appendedContainers, appendedUnits, List.map_map]
  have hfilter : ∀ container ∈ plan.part8ContainerNums map,
      (((plan.foldedHints map sections).containerPos.lookup container).isNone &&
        container ∉ sections.openDocument && container ∉ plan.restContainerNums map) =
      (decide (.container container ∉ plan.askedUnits map sections) &&
        !passedBehind plan map sections container) := by
    intro container _
    have hpos : ((plan.foldedHints map sections).containerPos.lookup container).isNone =
        decide (.container container ∉ plan.askedUnits map sections) := by
      rw [← Option.not_isSome, Bool.eq_iff_iff]
      simp only [Bool.not_eq_true', Bool.eq_false_iff, ne_eq, hs.pos, askedUnits]
      exact decide_eq_true_iff.symm
    rw [hpos, passedBehind, Bool.not_or, Bool.and_assoc]
    simp
  rw [List.filter_congr hfilter]
  apply List.map_congr_left
  intro container _
  exact entryUnit_container container []

/-- The checked list has the units that are asked for in front, then the others and the
appended containers, each section in the order of the numbers. -/
theorem canonicalSharedHints_sections (renumber : RenumberMap) (sections : ContainerSections)
    (hc : plan.Consistent) (hrows : ¬map.rows.isEmpty) :
    ∃ front back, plan.canonicalSharedHints map renumber sections = front ++ back ∧
      (front.map entryUnit).Perm (plan.frontUnits map sections) ∧
      (back.map entryUnit).Perm
        ((plan.askedUnits map sections).drop (plan.frontUnits map sections).length ++
          plan.appendedUnits map sections) ∧
      (front.Pairwise fun a b => newNumber renumber a ≤ newNumber renumber b) ∧
      back.Pairwise fun a b => newNumber renumber a ≤ newNumber renumber b := by
  have hs := hc.follows map sections
  obtain ⟨recompute, href, hrecompute⟩ := recomputeAll_eq_map plan map
  have hunit : ∀ entries : List SharedObjectHintEntry,
      (entries.map recompute).map entryUnit = entries.map entryUnit := by
    intro entries
    rw [List.map_map]
    apply List.map_congr_left
    intro entry _
    simp only [Function.comp, entryUnit, href]
  have hnumber : ∀ entry, newNumber renumber (recompute entry) = newNumber renumber entry := by
    intro entry
    simp only [newNumber, href]
  have hle : (plan.frontUnits map sections).length ≤
      (plan.foldedHints map sections).out.length := by
    rw [← List.length_map (f := entryUnit), hs.units]
    exact frontUnits_prefix.length_le
  have htake : ((plan.foldedHints map sections).out.take
      (plan.frontUnits map sections).length).map entryUnit = plan.frontUnits map sections := by
    rw [List.map_take, hs.units]
    exact (List.prefix_iff_eq_take.mp frontUnits_prefix).symm
  generalize hfront : sortByKey (newNumber renumber)
    ((plan.foldedHints map sections).out.take (plan.frontUnits map sections).length) = front
  have hperm : front.Perm ((plan.foldedHints map sections).out.take
      (plan.frontUnits map sections).length) := hfront ▸ perm_sortByKey _ _
  have hlength : (plan.frontUnits map sections).length = front.length := by
    rw [hperm.length_eq, List.length_take, min_eq_left hle]
  refine ⟨front.map recompute, (sortByKey (newNumber renumber)
      ((plan.foldedHints map sections).out.drop (plan.frontUnits map sections).length ++
        plan.appendedContainers map sections (plan.foldedHints map sections))).map recompute,
    ?_, ?_, ?_, ?_, ?_⟩
  · rw [canonicalSharedHints, if_neg hrows]
    simp only [hc.boundary, hrecompute, hfront]
    rw [List.append_assoc, hlength, List.take_left, List.drop_left, List.map_append]
  · rw [hunit, ← htake]
    exact hperm.map entryUnit
  · rw [hunit, askedUnits, ← hs.units, ← hc.appended, ← List.map_drop, ← List.map_append]
    exact (perm_sortByKey _ _).map entryUnit
  · rw [List.pairwise_map]
    simp only [hnumber]
    rw [← hfront]
    exact pairwise_sortByKey _ _
  · rw [List.pairwise_map]
    simp only [hnumber]
    exact pairwise_sortByKey _ _

/-! ## The raw list -/

/-- The numbers that a renumbering gives to a plan: the checked and the raw index agree, every
plain object of the sections has a number, and where nothing is compressed each section is
numbered in the order of the plan. The hints and the members fit the 32-bit counts. -/
structure Numbers (renumber : RenumberMap) (plan : LinearizationPlan)
    (map : MemberToContainer) : Prop where
  agrees : ∀ ref : ObjectRef, ref.Valid →
    renumber.newForOriginal ref = renumber.newForRaw ⟨ref.number, ref.generation⟩
  numbered : ∀ object ∈ plan.firstPageObjects ++ plan.otherPagesShared,
    map.unitOf object = .object object → (renumber.newForRaw object).isSome
  firstPageOrder : map.rows.isEmpty → plan.firstPageObjects.Pairwise fun a b =>
    ((renumber.newForRaw a).map (·.number)).getD 0 ≤ ((renumber.newForRaw b).map (·.number)).getD 0
  otherPagesOrder : map.rows.isEmpty → plan.otherPagesShared.Pairwise fun a b =>
    ((renumber.newForRaw a).map (·.number)).getD 0 ≤ ((renumber.newForRaw b).map (·.number)).getD 0
  fits : plan.sharedHints.length + plan.raw.sharedHints.length + map.rows.length < 2 ^ 32

/-- The raw entry of a checked one. -/
def rawOf (entry : SharedObjectHintEntry) : RawSharedObjectHintEntry :=
  if entry.objectRef.generation = containerGeneration then
    ⟨none, some entry.objectRef.number, entry.referencingPages⟩
  else ⟨some ⟨entry.objectRef.number, entry.objectRef.generation⟩, none, entry.referencingPages⟩

variable {entry : SharedObjectHintEntry}

theorem unit_rawOf : (rawOf entry).unit = some (entryUnit entry) := by
  rw [rawOf, entryUnit]
  split <;> rfl

theorem rawHint_eq_some (h : entry.objectRef.generation ≠ containerGeneration →
    entry.objectRef.Valid) : rawHint entry = some (rawOf entry) := by
  rw [rawHint, rawOf]
  by_cases hgeneration : entry.objectRef.generation = containerGeneration
  · rw [if_pos hgeneration, if_pos hgeneration]
  · rw [if_neg hgeneration, if_neg hgeneration, rawObjectHint, (h hgeneration).tryFromObjectRef]

theorem rawNumber_rawOf (hn : Numbers renumber plan map)
    (h : entry.objectRef.generation ≠ containerGeneration → entry.objectRef.Valid) :
    rawNumber renumber (rawOf entry) = newNumber renumber entry := by
  rw [rawOf, newNumber]
  by_cases hgeneration : entry.objectRef.generation = containerGeneration
  · rw [if_pos hgeneration, if_pos hgeneration]
    rfl
  · rw [if_neg hgeneration, if_neg hgeneration, hn.agrees _ (h hgeneration)]
    rfl

/-- The entries whose units are asked for or appended can be made raw. -/
theorem valid_of_entryUnit (map : MemberToContainer) (sections : ContainerSections)
    (hc : plan.Consistent)
    (hunit : entryUnit entry ∈ plan.askedUnits map sections ++ plan.appendedUnits map sections)
    (hgeneration : entry.objectRef.generation ≠ containerGeneration) : entry.objectRef.Valid := by
  rw [entryUnit, if_neg hgeneration, List.mem_append] at hunit
  rcases hunit with hunit | hunit
  · rw [askedUnits, mem_firstOccurrences, mem_requests_sharedHints hc, asked_object,
      asked_object] at hunit
    have hall : ∃ ref ∈ plan.firstPageRefs ++ plan.part4OtherPagesShared,
        (⟨entry.objectRef.number, entry.objectRef.generation⟩ : QpdfObjGen) =
          ⟨ref.number, ref.generation⟩ := by
      rcases hunit with ⟨ref, hmem, -, heq⟩ | ⟨ref, hmem, -, heq⟩
      · exact ⟨ref, List.mem_append_left _ hmem, heq⟩
      · exact ⟨ref, List.mem_append_right _ hmem, heq⟩
    obtain ⟨ref, hmem, heq⟩ := hall
    simp only [QpdfObjGen.mk.injEq, Nat.cast_inj] at heq
    have hvalid := hc.valid ref hmem
    rw [ObjectRef.Valid] at hvalid ⊢
    rw [heq.1, heq.2]
    exact hvalid
  · rw [appendedUnits, List.mem_map] at hunit
    obtain ⟨container, -, heq⟩ := hunit
    cases heq

/-- The raw list of the checked entries. -/
theorem filterMap_rawHint_sections (sections : ContainerSections) (hc : plan.Consistent)
    (hn : Numbers renumber plan map) (hrows : ¬map.rows.isEmpty) :
    ∃ front back,
      (plan.canonicalSharedHints map renumber sections).filterMap rawHint = front ++ back ∧
      (front.map (·.unit)).Perm ((plan.frontUnits map sections).map some) ∧
      (back.map (·.unit)).Perm
        (((plan.askedUnits map sections).drop (plan.frontUnits map sections).length ++
          plan.appendedUnits map sections).map some) ∧
      (front.Pairwise fun a b => rawNumber renumber a ≤ rawNumber renumber b) ∧
      back.Pairwise fun a b => rawNumber renumber a ≤ rawNumber renumber b := by
  obtain ⟨front, back, heq, hfront, hback, hfrontOrder, hbackOrder⟩ :=
    canonicalSharedHints_sections renumber sections hc hrows
  have hvalidFront : ∀ entry ∈ front, entry.objectRef.generation ≠ containerGeneration →
      entry.objectRef.Valid := by
    intro entry hentry
    apply valid_of_entryUnit map sections hc
    apply List.mem_append_left
    apply frontUnits_prefix.subset
    exact hfront.subset (List.mem_map_of_mem hentry)
  have hvalidBack : ∀ entry ∈ back, entry.objectRef.generation ≠ containerGeneration →
      entry.objectRef.Valid := by
    intro entry hentry
    apply valid_of_entryUnit map sections hc
    rcases List.mem_append.mp (hback.subset (List.mem_map_of_mem hentry)) with hmem | hmem
    · exact List.mem_append_left _ (List.mem_of_mem_drop hmem)
    · exact List.mem_append_right _ hmem
  have hmap : ∀ entries : List SharedObjectHintEntry,
      (∀ entry ∈ entries, entry.objectRef.generation ≠ containerGeneration →
        entry.objectRef.Valid) → entries.filterMap rawHint = entries.map rawOf := by
    intro entries hvalid
    rw [← List.filterMap_eq_map]
    apply List.filterMap_congr
    intro entry hentry
    exact rawHint_eq_some (hvalid entry hentry)
  have hunit : ∀ entries : List SharedObjectHintEntry,
      (entries.map rawOf).map (·.unit) = (entries.map entryUnit).map some := by
    intro entries
    rw [List.map_map, List.map_map]
    apply List.map_congr_left
    intro entry _
    exact unit_rawOf
  refine ⟨front.map rawOf, back.map rawOf, ?_, ?_, ?_, ?_, ?_⟩
  · rw [heq, List.filterMap_append, hmap front hvalidFront, hmap back hvalidBack]
  · rw [hunit]
    exact hfront.map some
  · rw [hunit]
    exact hback.map some
  · rw [List.pairwise_map]
    refine hfrontOrder.imp_of_mem ?_
    intro a b ha hb hab
    rw [rawNumber_rawOf hn (hvalidFront a ha), rawNumber_rawOf hn (hvalidFront b hb)]
    exact hab
  · rw [List.pairwise_map]
    refine hbackOrder.imp_of_mem ?_
    intro a b ha hb hab
    rw [rawNumber_rawOf hn (hvalidBack a ha), rawNumber_rawOf hn (hvalidBack b hb)]
    exact hab

/-! ## The raw objects -/

/-- The count of the first-page section, with the containers that have been counted. -/
theorem foldl_countFirstPage (hlength : hints.length ≤ plan.firstPageInput)
    (hnodup : (hints.map (·.objectRef)).Nodup) :
    (hints.foldl (countFirstPage map sections) (0, [])).1 =
        (firstOccurrences (plan.requests map sections hints)).length ∧
      ∀ container, container ∈ (hints.foldl (countFirstPage map sections) (0, [])).2 ↔
        .container container ∈ firstOccurrences (plan.requests map sections hints) := by
  induction hints using List.reverseRecOn with
  | nil =>
    refine ⟨rfl, ?_⟩
    intro container
    simp [requests, firstOccurrences]
  | append_singleton hints hint ih =>
    rw [List.map_append, List.map_singleton, List.nodup_append'] at hnodup
    rw [List.length_append, List.length_singleton] at hlength
    obtain ⟨hcount, hmem⟩ := ih (by omega) hnodup.1
    have hnew : ∀ hint' ∈ hints, hint'.objectRef ≠ hint.objectRef := by
      intro hint' hhint' heq
      exact hnodup.2.2 (List.mem_map.mpr ⟨hint', hhint', heq⟩) (List.mem_singleton_self _)
    rw [List.foldl_append, List.foldl_cons, List.foldl_nil, requests_concat,
      passesOver_of_lt (by omega)]
    generalize hints.foldl (countFirstPage map sections) (0, []) = s at hcount hmem ⊢
    rw [countFirstPage]
    cases hcontainer : map.containerOf hint.objectRef with
    | none =>
      have hrequest : request map (passedFirst sections) hint.objectRef =
          some (.object ⟨hint.objectRef.number, hint.objectRef.generation⟩) := by
        rw [request, hcontainer]
      have hnot := mt mem_firstOccurrences.mp
        (object_notMem_requests plan map sections hnew)
      rw [hrequest, Option.toList_some, firstOccurrences_concat, insertLast_of_notMem hnot]
      refine ⟨?_, ?_⟩
      · rw [List.length_append, List.length_singleton, hcount]
      · intro container
        rw [List.mem_append, List.mem_singleton, hmem]
        simp
    | some container =>
      by_cases hpassed : passedFirst sections container
      · have hrequest : request map (passedFirst sections) hint.objectRef = none := by
          simp only [request, hcontainer, if_pos hpassed]
        have hsections : container ∈ sections.openDocument ∨ container ∈ sections.secondHalf := by
          simpa [passedFirst] using hpassed
        rw [hrequest, Option.toList_none, List.append_nil]
        simp only [if_pos hsections]
        exact ⟨hcount, hmem⟩
      · have hrequest : request map (passedFirst sections) hint.objectRef =
            some (.container container) := by
          simp only [request, hcontainer, if_neg hpassed]
        have hsections : ¬(container ∈ sections.openDocument ∨
            container ∈ sections.secondHalf) := by
          simpa [passedFirst] using hpassed
        rw [hrequest, Option.toList_some, firstOccurrences_concat]
        simp only [if_neg hsections]
        by_cases hfolded : container ∈ s.2
        · rw [if_pos hfolded, insertLast_of_mem ((hmem container).mp hfolded)]
          exact ⟨hcount, hmem⟩
        · rw [if_neg hfolded, insertLast_of_notMem (mt (hmem container).mpr hfolded)]
          refine ⟨?_, ?_⟩
          · rw [List.length_append, List.length_singleton, hcount]
          · intro container'
            rw [List.mem_append, List.mem_singleton, List.mem_append, List.mem_singleton, hmem,
              SharedUnit.container.injEq]

theorem firstPageCount_eq (hc : plan.Consistent) :
    plan.firstPageCount map sections = (plan.frontUnits map sections).length := by
  apply (foldl_countFirstPage (List.length_take_le _ _) ?_).1
  rw [List.map_take, hc.hints]
  exact hc.disjoint.sublist (List.take_sublist _ _)

/-- The units of the raw hints that a predicate on objects chooses. -/
theorem map_unit_filter_rawHints (hc : plan.Consistent) (hgap : plan.hasRawProjectionGap)
    (p : QpdfObjGen → Bool) :
    (plan.raw.sharedHints.filter fun entry => entry.object.any p).map (·.unit) =
      (((plan.firstPageObjects ++ plan.otherPagesShared).filter p).map .object).map some := by
  have hhints := hc.rawHints hgap
  generalize plan.firstPageObjects ++ plan.otherPagesShared = objects at hhints ⊢
  generalize plan.raw.sharedHints = entries at hhints ⊢
  induction entries generalizing objects with
  | nil =>
    obtain rfl := List.map_eq_nil_iff.mp hhints.symm
    rfl
  | cons entry entries ih =>
    cases objects with
    | nil => cases hhints
    | cons object objects =>
      rw [List.map_cons, List.map_cons, List.cons.injEq, Prod.mk.injEq] at hhints
      obtain ⟨⟨hobject, hcontainer⟩, htail⟩ := hhints
      have hunit : entry.unit = some (.object object) := by
        rw [RawSharedObjectHintEntry.unit, hobject, hcontainer]
      have hany : entry.object.any p = p object := by
        rw [hobject]
        rfl
      rw [List.filter_cons, List.filter_cons, hany]
      cases p object with
      | true => simp only [if_true, List.map_cons, ih objects htail, hunit]
      | false => simpa using ih objects htail

/-- The objects of the first-page section that have no checked reference. -/
theorem map_unit_firstExtra (hc : plan.Consistent) (hgap : plan.hasRawProjectionGap) :
    plan.firstExtra.map (·.unit) = (plan.firstPageRaw.map SharedUnit.object).map some := by
  have hraw : plan.firstPageRaw = plan.firstPageObjects.filter fun object =>
      object.toObjectRef.isNone := by
    rw [firstPageRaw, firstPageObjects, if_pos hgap]
  have hdisjoint := (List.nodup_append'.mp (hc.rawDisjoint hgap)).2.2
  rw [firstExtra, map_unit_filter_rawHints hc hgap, List.filter_append]
  have hfirst : (plan.firstPageObjects.filter fun object => decide (object ∈ plan.firstPageRaw)) =
      plan.firstPageRaw := by
    rw [hraw]
    apply List.filter_congr
    intro object hmem
    rw [Bool.eq_iff_iff]
    simp [hmem]
  have hshared : (plan.otherPagesShared.filter fun object =>
      decide (object ∈ plan.firstPageRaw)) = [] := by
    rw [List.filter_eq_nil_iff]
    intro object hmem
    rw [hraw, decide_eq_true_eq, List.mem_filter]
    exact fun h => hdisjoint h.1 hmem
  rw [hfirst, hshared, List.append_nil]

/-- The objects of Part 8 that have no checked reference. -/
theorem map_unit_part8Extra (hc : plan.Consistent) (hgap : plan.hasRawProjectionGap) :
    plan.part8Extra.map (·.unit) = (plan.part8Raw.map SharedUnit.object).map some := by
  have hraw : plan.part8Raw = plan.otherPagesShared.filter fun object =>
      object.toObjectRef.isNone := by
    rw [part8Raw, otherPagesShared, if_pos hgap]
  have hfirstRaw : plan.firstPageRaw ⊆ plan.firstPageObjects := by
    rw [firstPageRaw, firstPageObjects, if_pos hgap]
    exact List.filter_subset_self _
  have hdisjoint := (List.nodup_append'.mp (hc.rawDisjoint hgap)).2.2
  rw [part8Extra, map_unit_filter_rawHints hc hgap, List.filter_append]
  have hfirst : (plan.firstPageObjects.filter fun object =>
      decide (object ∉ plan.firstPageRaw ∧ object ∈ plan.part8Raw)) = [] := by
    rw [List.filter_eq_nil_iff]
    intro object hmem
    rw [hraw, decide_eq_true_eq, List.mem_filter]
    exact fun h => hdisjoint hmem h.2.1
  have hshared : (plan.otherPagesShared.filter fun object =>
      decide (object ∉ plan.firstPageRaw ∧ object ∈ plan.part8Raw)) = plan.part8Raw := by
    rw [hraw]
    apply List.filter_congr
    intro object hmem
    have hnot : object ∉ plan.firstPageRaw := fun h => hdisjoint (hfirstRaw h) hmem
    rw [Bool.eq_iff_iff]
    simp [hmem, hnot]
  rw [hfirst, hshared, List.nil_append]

/-- The objects of the first-page section that only the raw plan has. -/
def extraFront (plan : LinearizationPlan) : List SharedUnit :=
  if plan.hasRawProjectionGap then plan.firstPageRaw.map .object else []

/-- The objects of Part 8 that only the raw plan has. -/
def extraBehind (plan : LinearizationPlan) : List SharedUnit :=
  if plan.hasRawProjectionGap then plan.part8Raw.map .object else []

/-- The raw objects are spliced into the two sections. -/
theorem canonicalRawSharedHints_sections (sections : ContainerSections) (hc : plan.Consistent)
    (hn : Numbers renumber plan map) (hrows : ¬map.rows.isEmpty) :
    ∃ front back, plan.canonicalRawSharedHints map renumber sections = front ++ back ∧
      (front.map (·.unit)).Perm ((plan.frontUnits map sections ++ plan.extraFront).map some) ∧
      (back.map (·.unit)).Perm
        (((plan.askedUnits map sections).drop (plan.frontUnits map sections).length ++
          plan.appendedUnits map sections ++ plan.extraBehind).map some) ∧
      (front.Pairwise fun a b => rawNumber renumber a ≤ rawNumber renumber b) ∧
      back.Pairwise fun a b => rawNumber renumber a ≤ rawNumber renumber b := by
  obtain ⟨front, back, heq, hfront, hback, hfrontOrder, hbackOrder⟩ :=
    filterMap_rawHint_sections sections hc hn hrows
  rw [canonicalRawSharedHints, if_neg hrows, heq, extraFront, extraBehind]
  by_cases hgap : plan.hasRawProjectionGap
  · have hcount : plan.firstPageCount map sections = front.length := by
      have hlength := hfront.length_eq
      rw [List.length_map, List.length_map] at hlength
      rw [firstPageCount_eq hc, hlength]
    generalize hextra : sortByKey (rawNumber renumber) plan.firstExtra = extra
    have hextraPerm : extra.Perm plan.firstExtra := hextra ▸ perm_sortByKey _ _
    generalize hsorted : sortByKey (rawNumber renumber) (front ++ extra) = sorted
    have hsortedPerm : sorted.Perm (front ++ extra) := hsorted ▸ perm_sortByKey _ _
    refine ⟨sorted, sortByKey (rawNumber renumber) (back ++ plan.part8Extra), ?_, ?_, ?_, ?_, ?_⟩
    · simp only [if_pos hgap, spliceRaw, hextra, hcount, List.take_left, List.drop_left]
      rw [← List.length_append, List.take_left, List.drop_left, hsorted,
        ← hsortedPerm.length_eq, List.append_assoc, List.take_left, List.drop_left]
    · rw [if_pos hgap, List.map_append]
      refine (hsortedPerm.map _).trans ?_
      rw [List.map_append, ← map_unit_firstExtra hc hgap]
      exact hfront.append (hextraPerm.map _)
    · rw [if_pos hgap, List.map_append]
      refine ((perm_sortByKey _ _).map _).trans ?_
      rw [List.map_append, ← map_unit_part8Extra hc hgap]
      exact hback.append_right _
    · rw [← hsorted]
      exact pairwise_sortByKey _ _
    · exact pairwise_sortByKey _ _
  · refine ⟨front, back, ?_, ?_, ?_, hfrontOrder, hbackOrder⟩
    · rw [if_neg hgap]
    · rw [if_neg hgap, List.append_nil]
      exact hfront
    · rw [if_neg hgap, List.append_nil]
      exact hback

/-! ## The units of the list -/

theorem rawIdentities_of_valid {refs : List ObjectRef} (h : ∀ ref ∈ refs, ref.Valid) :
    rawIdentities refs = refs.map fun ref => ⟨ref.number, ref.generation⟩ := by
  rw [rawIdentities, ← List.filterMap_eq_map]
  apply List.filterMap_congr
  intro ref href
  rw [(h ref href).tryFromObjectRef]
  rfl

theorem filterMap_toObjectRef_rawIdentities {refs : List ObjectRef}
    (h : ∀ ref ∈ refs, ref.Valid) :
    (rawIdentities refs).filterMap QpdfObjGen.toObjectRef = refs := by
  rw [rawIdentities_of_valid h, List.filterMap_map]
  conv_rhs => rw [← List.filterMap_some (l := refs)]
  apply List.filterMap_congr
  intro ref href
  exact (h ref href).toObjectRef

/-- The objects of a section and their references. -/
structure Projects (objects : List QpdfObjGen) (refs : List ObjectRef) : Prop where
  perm : (objects.filterMap QpdfObjGen.toObjectRef).Perm refs
  valid : ∀ ref ∈ refs, ref.Valid

theorem Consistent.firstPage (hc : plan.Consistent) :
    Projects plan.firstPageObjects plan.firstPageRefs := by
  have hvalid : ∀ ref ∈ plan.firstPageRefs, ref.Valid := fun ref hmem =>
    hc.valid ref (List.mem_append_left _ hmem)
  refine ⟨?_, hvalid⟩
  by_cases hgap : plan.hasRawProjectionGap
  · exact hc.rawFirstPage hgap
  · rw [firstPageObjects, if_neg hgap, filterMap_toObjectRef_rawIdentities hvalid]

theorem Consistent.shared (hc : plan.Consistent) :
    Projects plan.otherPagesShared plan.part4OtherPagesShared := by
  have hvalid : ∀ ref ∈ plan.part4OtherPagesShared, ref.Valid := fun ref hmem =>
    hc.valid ref (List.mem_append_right _ hmem)
  refine ⟨?_, hvalid⟩
  by_cases hgap : plan.hasRawProjectionGap
  · exact hc.rawShared hgap
  · rw [otherPagesShared, if_neg hgap, filterMap_toObjectRef_rawIdentities hvalid]

variable {objects : List QpdfObjGen} {refs : List ObjectRef} {object : QpdfObjGen}
  {container : ℕ}

theorem Projects.mem_refs (h : Projects objects refs) {ref : ObjectRef} :
    ref ∈ refs ↔ ref.Valid ∧ ⟨ref.number, ref.generation⟩ ∈ objects := by
  rw [← h.perm.mem_iff, List.mem_filterMap]
  constructor
  · rintro ⟨object, hmem, href⟩
    have hvalid := h.valid ref (h.perm.subset (List.mem_filterMap.mpr ⟨object, hmem, href⟩))
    rw [QpdfObjGen.toObjectRef_eq_some] at href
    exact ⟨hvalid, href.1 ▸ hmem⟩
  · rintro ⟨hvalid, hmem⟩
    exact ⟨_, hmem, hvalid.toObjectRef⟩

/-- A container is asked for by an object exactly when it is by a reference. -/
theorem Projects.exists_container (h : Projects objects refs) :
    (∃ object ∈ objects, map.unitOf object = .container container) ↔
      ∃ ref ∈ refs, map.containerOf ref = some container := by
  constructor
  · rintro ⟨object, hmem, hunit⟩
    obtain ⟨ref, href, hcontainer⟩ := MemberToContainer.unitOf_eq_container.mp hunit
    exact ⟨ref, h.perm.subset (List.mem_filterMap.mpr ⟨object, hmem, href⟩), hcontainer⟩
  · rintro ⟨ref, hmem, hcontainer⟩
    obtain ⟨hvalid, hobject⟩ := h.mem_refs.mp hmem
    exact ⟨_, hobject,
      MemberToContainer.unitOf_eq_container.mpr ⟨ref, hvalid.toObjectRef, hcontainer⟩⟩

/-- A plain object is asked for by its reference, or has none. -/
theorem Projects.plain_iff (h : Projects objects refs) :
    object ∈ objects ∧ map.unitOf object = .object object ↔
      (∃ ref ∈ refs, map.containerOf ref = none ∧ object = ⟨ref.number, ref.generation⟩) ∨
        object ∈ objects ∧ object.toObjectRef = none := by
  rw [MemberToContainer.unitOf_eq_object]
  cases href : object.toObjectRef with
  | none =>
    constructor
    · rintro ⟨hmem, -⟩
      exact .inr ⟨hmem, rfl⟩
    · rintro (⟨ref, hmem, -, rfl⟩ | ⟨hmem, -⟩)
      · rw [(h.valid ref hmem).toObjectRef] at href
        cases href
      · simpa using hmem
  | some ref =>
    have heq := (QpdfObjGen.toObjectRef_eq_some.mp href).1
    constructor
    · rintro ⟨hmem, -, hplain⟩
      exact .inl ⟨ref, h.perm.subset (List.mem_filterMap.mpr ⟨object, hmem, href⟩),
        hplain ref rfl, heq⟩
    · rintro (⟨ref', hmem, hplain, heq'⟩ | ⟨-, hnone⟩)
      · have hvalid := h.valid ref' hmem
        rw [heq', hvalid.toObjectRef, Option.some.injEq] at href
        refine ⟨heq' ▸ (h.mem_refs.mp hmem).2, rfl, ?_⟩
        intro ref'' href''
        rw [← Option.some.inj href'', ← href]
        exact hplain
      · cases hnone

theorem Consistent.nodup_objects (hc : plan.Consistent) :
    (plan.firstPageObjects ++ plan.otherPagesShared).Nodup := by
  by_cases hgap : plan.hasRawProjectionGap
  · exact hc.rawDisjoint hgap
  · rw [firstPageObjects, otherPagesShared, if_neg hgap, if_neg hgap,
      rawIdentities_of_valid hc.firstPage.valid, rawIdentities_of_valid hc.shared.valid,
      ← List.map_append]
    refine hc.disjoint.map ?_
    intro ref ref' heq
    cases ref
    cases ref'
    simpa using heq

theorem Consistent.mem_extraFront (hc : plan.Consistent) : .object object ∈ plan.extraFront ↔
    object ∈ plan.firstPageObjects ∧ object.toObjectRef = none := by
  by_cases hgap : plan.hasRawProjectionGap
  · simp [extraFront, firstPageRaw, firstPageObjects, hgap, or_and_right]
  · rw [extraFront, if_neg hgap, firstPageObjects, if_neg hgap,
      rawIdentities_of_valid hc.firstPage.valid, List.mem_map]
    refine iff_of_false List.not_mem_nil ?_
    rintro ⟨⟨ref, hmem, rfl⟩, hnone⟩
    rw [(hc.firstPage.valid ref hmem).toObjectRef] at hnone
    cases hnone

theorem Consistent.mem_extraBehind (hc : plan.Consistent) : .object object ∈ plan.extraBehind ↔
    object ∈ plan.otherPagesShared ∧ object.toObjectRef = none := by
  by_cases hgap : plan.hasRawProjectionGap
  · simp [extraBehind, part8Raw, otherPagesShared, hgap]
  · rw [extraBehind, if_neg hgap, otherPagesShared, if_neg hgap,
      rawIdentities_of_valid hc.shared.valid, List.mem_map]
    refine iff_of_false List.not_mem_nil ?_
    rintro ⟨⟨ref, hmem, rfl⟩, hnone⟩
    rw [(hc.shared.valid ref hmem).toObjectRef] at hnone
    cases hnone

theorem container_notMem_extraFront : .container container ∉ plan.extraFront := by
  rw [extraFront]
  split <;> simp

theorem container_notMem_extraBehind : .container container ∉ plan.extraBehind := by
  rw [extraBehind]
  split <;> simp

theorem object_notMem_appendedUnits : .object object ∉ plan.appendedUnits map sections := by
  simp [appendedUnits]

theorem mem_frontUnits (hc : plan.Consistent) {unit : SharedUnit} :
    unit ∈ plan.frontUnits map sections ↔
      Asked map (passedFirst sections) plan.firstPageRefs unit := by
  rw [frontUnits, mem_firstOccurrences, mem_requests_take hc]

theorem passedFirst_eq_false : passedFirst sections container = false ↔
    container ∉ sections.openDocument ∧ container ∉ sections.secondHalf := by
  simp [passedFirst]

theorem passedBehind_eq_false : passedBehind plan map sections container = false ↔
    container ∉ sections.openDocument ∧ container ∉ plan.restContainerNums map := by
  simp [passedBehind]

/-- The units of the first section are those of the first-page section. -/
theorem Consistent.mem_front (hc : plan.Consistent) {unit : SharedUnit} :
    unit ∈ plan.frontUnits map sections ++ plan.extraFront ↔
      plan.FirstPageUnit map sections unit := by
  rw [List.mem_append, mem_frontUnits hc]
  cases unit with
  | object object =>
    rw [asked_object, hc.mem_extraFront, FirstPageUnit, hc.firstPage.plain_iff]
  | container container =>
    rw [asked_container, passedFirst_eq_false, FirstPageUnit, hc.firstPage.exists_container]
    simp only [container_notMem_extraFront, or_false]

/-- The units that the list has behind those of the first-page section. -/
def ListedBehind (plan : LinearizationPlan) (map : MemberToContainer)
    (sections : ContainerSections) : SharedUnit → Prop
  | .object object => object ∈ plan.otherPagesShared ∧ map.unitOf object = .object object
  | .container container =>
    ((∃ ref ∈ plan.part4OtherPagesShared, map.containerOf ref = some container) ∨
        container ∈ plan.part8ContainerNums map) ∧
      container ∉ sections.openDocument ∧ container ∉ plan.restContainerNums map ∧
      ¬plan.FirstPageUnit map sections (.container container)

theorem mem_drop_askedUnits (hc : plan.Consistent) {unit : SharedUnit} :
    unit ∈ (plan.askedUnits map sections).drop (plan.frontUnits map sections).length ↔
      Asked map (passedBehind plan map sections) plan.part4OtherPagesShared unit ∧
        ¬Asked map (passedFirst sections) plan.firstPageRefs unit := by
  obtain ⟨behind, heq⟩ : plan.frontUnits map sections <+: plan.askedUnits map sections :=
    frontUnits_prefix
  have hnodup : (plan.askedUnits map sections).Nodup := nodup_firstOccurrences _
  have hasked : unit ∈ plan.askedUnits map sections ↔
      Asked map (passedFirst sections) plan.firstPageRefs unit ∨
        Asked map (passedBehind plan map sections) plan.part4OtherPagesShared unit := by
    rw [askedUnits, mem_firstOccurrences, mem_requests_sharedHints hc]
  rw [← heq] at hnodup hasked
  rw [← heq, List.drop_left]
  rw [List.mem_append, mem_frontUnits hc] at hasked
  have hdisjoint := (List.nodup_append'.mp hnodup).2.2
  constructor
  · intro hmem
    have hnot : ¬Asked map (passedFirst sections) plan.firstPageRefs unit := fun h =>
      hdisjoint ((mem_frontUnits hc).mpr h) hmem
    exact ⟨(hasked.mp (.inr hmem)).resolve_left hnot, hnot⟩
  · rintro ⟨hbehind, hnot⟩
    exact (hasked.mpr (.inr hbehind)).resolve_left hnot

theorem mem_appendedUnits (hc : plan.Consistent) :
    .container container ∈ plan.appendedUnits map sections ↔
      container ∈ plan.part8ContainerNums map ∧
        passedBehind plan map sections container = false ∧
        ¬Asked map (passedFirst sections) plan.firstPageRefs (.container container) ∧
        ¬Asked map (passedBehind plan map sections) plan.part4OtherPagesShared
          (.container container) := by
  have hasked : SharedUnit.container container ∈ plan.askedUnits map sections ↔
      Asked map (passedFirst sections) plan.firstPageRefs (.container container) ∨
        Asked map (passedBehind plan map sections) plan.part4OtherPagesShared
          (.container container) := by
    rw [askedUnits, mem_firstOccurrences, mem_requests_sharedHints hc]
  simp only [appendedUnits, List.mem_map, List.mem_filter, Bool.and_eq_true, decide_eq_true_eq,
    Bool.not_eq_true', SharedUnit.container.injEq, exists_eq_right, hasked, not_or]
  tauto

/-- The units of the second section. -/
theorem Consistent.mem_behind (hc : plan.Consistent) {unit : SharedUnit} :
    unit ∈ (plan.askedUnits map sections).drop (plan.frontUnits map sections).length ++
        plan.appendedUnits map sections ++ plan.extraBehind ↔
      plan.ListedBehind map sections unit := by
  rw [List.mem_append, List.mem_append, mem_drop_askedUnits hc]
  cases unit with
  | object object =>
    have hdisjoint := (List.nodup_append'.mp hc.nodup_objects).2.2
    have hnot : Asked map (passedBehind plan map sections) plan.part4OtherPagesShared
        (.object object) → ¬Asked map (passedFirst sections) plan.firstPageRefs
          (.object object) := by
      rw [asked_object, asked_object]
      rintro ⟨ref, hmem, -, rfl⟩ ⟨ref', hmem', -, heq⟩
      exact hdisjoint (heq ▸ (hc.firstPage.mem_refs.mp hmem').2) (hc.shared.mem_refs.mp hmem).2
    rw [and_iff_left_of_imp hnot, asked_object, hc.mem_extraBehind, ListedBehind,
      hc.shared.plain_iff]
    simp only [object_notMem_appendedUnits, or_false]
  | container container =>
    have hfront : .container container ∈ plan.frontUnits map sections ++ plan.extraFront ↔
        plan.FirstPageUnit map sections (.container container) := hc.mem_front
    rw [List.mem_append, mem_frontUnits hc] at hfront
    simp only [container_notMem_extraFront, or_false] at hfront
    rw [mem_appendedUnits hc, hfront, asked_container, passedBehind_eq_false, ListedBehind]
    simp only [container_notMem_extraBehind, or_false]
    by_cases hshared : ∃ ref ∈ plan.part4OtherPagesShared, map.containerOf ref = some container
    · simp only [hshared, true_and, true_or]
      tauto
    · simp only [hshared, false_and, false_or, not_false_eq_true, and_true]
      tauto

/-! ## The list in its sections -/

/-- The folded list is the units of the first-page section, in the order of their numbers, and
then those behind it. -/
structure HasSections (plan : LinearizationPlan) (map : MemberToContainer)
    (renumber : RenumberMap) (sections : ContainerSections)
    (front back : List RawSharedObjectHintEntry) : Prop where
  list : plan.canonicalRawSharedHints map renumber sections = front ++ back
  first : ∀ unit, some unit ∈ front.map (·.unit) ↔ plan.FirstPageUnit map sections unit
  behind : ∀ unit, some unit ∈ back.map (·.unit) ↔ plan.ListedBehind map sections unit
  nodup : ((front ++ back).map (·.unit)).Nodup
  units : ∀ entry ∈ front ++ back, entry.unit.isSome
  frontOrder : front.Pairwise fun a b =>
    SharedObjectHintTable.hintNumber renumber a ≤ SharedObjectHintTable.hintNumber renumber b
  backOrder : back.Pairwise fun a b =>
    SharedObjectHintTable.hintNumber renumber a ≤ SharedObjectHintTable.hintNumber renumber b

theorem hintNumber_eq_rawNumber {entry : RawSharedObjectHintEntry}
    (h : ∀ object, entry.unit = some (.object object) → (renumber.newForRaw object).isSome)
    (hunit : entry.unit.isSome) :
    SharedObjectHintTable.hintNumber renumber entry = rawNumber renumber entry := by
  rw [SharedObjectHintTable.hintNumber, rawNumber]
  cases hcontainer : entry.container with
  | some container => rfl
  | none =>
    cases hobject : entry.object with
    | none => simp [RawSharedObjectHintEntry.unit, hcontainer, hobject] at hunit
    | some object =>
      have hnumber := h object (by rw [RawSharedObjectHintEntry.unit, hcontainer, hobject])
      obtain ⟨new, hnew⟩ := Option.isSome_iff_exists.mp hnumber
      simp [hnew]

/-- The plain objects of the list have numbers. -/
theorem Numbers.isSome (hn : Numbers renumber plan map) {unit : SharedUnit}
    (hunit : plan.FirstPageUnit map sections unit ∨ plan.ListedBehind map sections unit) :
    ∀ object, unit = .object object → (renumber.newForRaw object).isSome := by
  rintro object rfl
  rcases hunit with hunit | hunit
  · exact hn.numbered object (List.mem_append_left _ hunit.1) hunit.2
  · exact hn.numbered object (List.mem_append_right _ hunit.1) hunit.2

theorem Consistent.nodup_units (hc : plan.Consistent) :
    ((plan.frontUnits map sections ++ plan.extraFront) ++
      ((plan.askedUnits map sections).drop (plan.frontUnits map sections).length ++
        plan.appendedUnits map sections ++ plan.extraBehind)).Nodup := by
  have hobjects := hc.nodup_objects
  obtain ⟨hfirst, hshared, hdisjoint⟩ := List.nodup_append'.mp hobjects
  have hfront : (plan.frontUnits map sections).Nodup := nodup_firstOccurrences _
  have hdrop : ((plan.askedUnits map sections).drop
      (plan.frontUnits map sections).length).Nodup :=
    (nodup_firstOccurrences _).sublist (List.drop_sublist _ _)
  have happended : (plan.appendedUnits map sections).Nodup :=
    ((MemberToContainer.nodup_containers.filter _).filter _).map
      fun _ _ h => SharedUnit.container.inj h
  have hinjective : Function.Injective SharedUnit.object := fun _ _ h => SharedUnit.object.inj h
  have hextraFront : plan.extraFront.Nodup := by
    rw [extraFront]
    split
    · rename_i hgap
      rw [firstPageObjects, if_pos hgap] at hfirst
      exact (hfirst.filter _).map hinjective
    · exact List.nodup_nil
  have hextraBehind : plan.extraBehind.Nodup := by
    rw [extraBehind]
    split
    · rename_i hgap
      rw [otherPagesShared, if_pos hgap] at hshared
      exact (hshared.filter _).map hinjective
    · exact List.nodup_nil
  rw [List.nodup_append', List.nodup_append', List.nodup_append', List.nodup_append']
  refine ⟨⟨hfront, hextraFront, ?_⟩, ⟨⟨hdrop, happended, ?_⟩, hextraBehind, ?_⟩, ?_⟩
  · intro unit hmem hextra
    cases unit with
    | object object =>
      rw [mem_frontUnits hc, asked_object] at hmem
      obtain ⟨ref, href, -, rfl⟩ := hmem
      have hnone := (hc.mem_extraFront.mp hextra).2
      rw [(hc.firstPage.valid ref href).toObjectRef] at hnone
      cases hnone
    | container container => exact container_notMem_extraFront hextra
  · intro unit hmem hmem'
    cases unit with
    | object object => exact object_notMem_appendedUnits hmem'
    | container container =>
      exact ((mem_appendedUnits hc).mp hmem').2.2.2 ((mem_drop_askedUnits hc).mp hmem).1
  · intro unit hmem hextra
    cases unit with
    | object object =>
      rcases List.mem_append.mp hmem with hmem | hmem
      · rw [mem_drop_askedUnits hc, asked_object] at hmem
        obtain ⟨⟨ref, href, -, rfl⟩, -⟩ := hmem
        have hnone := (hc.mem_extraBehind.mp hextra).2
        rw [(hc.shared.valid ref href).toObjectRef] at hnone
        cases hnone
      · exact object_notMem_appendedUnits hmem
    | container container => exact container_notMem_extraBehind hextra
  · intro unit hmem hmem'
    rw [hc.mem_front] at hmem
    rw [hc.mem_behind] at hmem'
    cases unit with
    | object object => exact hdisjoint hmem.1 hmem'.1
    | container container => exact hmem'.2.2.2 hmem

/-- The list when some members are compressed. -/
theorem hasSections_of_rows (hc : plan.Consistent) (hn : Numbers renumber plan map)
    (hrows : ¬map.rows.isEmpty) :
    ∃ front back, HasSections plan map renumber sections front back := by
  obtain ⟨front, back, heq, hfront, hback, hfrontOrder, hbackOrder⟩ :=
    canonicalRawSharedHints_sections sections hc hn hrows
  have hfirst : ∀ unit, some unit ∈ front.map (·.unit) ↔
      plan.FirstPageUnit map sections unit := by
    intro unit
    rw [hfront.mem_iff, List.mem_map_of_injective (Option.some_injective _), hc.mem_front]
  have hbehind : ∀ unit, some unit ∈ back.map (·.unit) ↔
      plan.ListedBehind map sections unit := by
    intro unit
    rw [hback.mem_iff, List.mem_map_of_injective (Option.some_injective _), hc.mem_behind]
  have hunits : ∀ entry ∈ front ++ back, entry.unit.isSome := by
    intro entry hentry
    have hmem : entry.unit ∈ front.map (·.unit) ++ back.map (·.unit) := by
      rw [← List.map_append]
      exact List.mem_map_of_mem hentry
    rw [(hfront.append hback).mem_iff, ← List.map_append, List.mem_map] at hmem
    obtain ⟨unit, -, hunit⟩ := hmem
    rw [← hunit]
    rfl
  have hnumber : ∀ entry ∈ front ++ back,
      SharedObjectHintTable.hintNumber renumber entry = rawNumber renumber entry := by
    intro entry hentry
    refine hintNumber_eq_rawNumber ?_ (hunits entry hentry)
    intro object hunit
    suffices hlisted : plan.FirstPageUnit map sections (.object object) ∨
        plan.ListedBehind map sections (.object object) from hn.isSome hlisted object rfl
    rcases List.mem_append.mp hentry with hentry | hentry
    · exact .inl ((hfirst _).mp (hunit ▸ List.mem_map_of_mem hentry))
    · exact .inr ((hbehind _).mp (hunit ▸ List.mem_map_of_mem hentry))
  refine ⟨front, back, heq, hfirst, hbehind, ?_, hunits, ?_, ?_⟩
  · rw [List.map_append, (hfront.append hback).nodup_iff, ← List.map_append]
    exact hc.nodup_units.map (Option.some_injective _)
  · refine hfrontOrder.imp_of_mem ?_
    intro a b ha hb hab
    rw [hnumber a (List.mem_append_left _ ha), hnumber b (List.mem_append_left _ hb)]
    exact hab
  · refine hbackOrder.imp_of_mem ?_
    intro a b ha hb hab
    rw [hnumber a (List.mem_append_right _ ha), hnumber b (List.mem_append_right _ hb)]
    exact hab

/-- The number of a plain object in the output. -/
def plainNumber (renumber : RenumberMap) (object : QpdfObjGen) : ℕ :=
  ((renumber.newForRaw object).map (·.number)).getD 0

theorem hintNumber_of_unit {entry : RawSharedObjectHintEntry}
    (hunit : entry.unit = some (.object object)) :
    SharedObjectHintTable.hintNumber renumber entry = plainNumber renumber object := by
  rw [RawSharedObjectHintEntry.unit] at hunit
  rw [SharedObjectHintTable.hintNumber, plainNumber]
  split at hunit
  · cases hunit
  · rename_i hcontainer hobject
    cases hunit
    rw [hcontainer, hobject]
    rfl
  · cases hunit

/-- Entries of plain objects are in order when the objects are. -/
theorem pairwise_hintNumber {entries : List RawSharedObjectHintEntry}
    (hunits : entries.map (·.unit) = objects.map fun object => some (.object object))
    (horder : objects.Pairwise fun a b => plainNumber renumber a ≤ plainNumber renumber b) :
    entries.Pairwise fun a b => SharedObjectHintTable.hintNumber renumber a ≤
      SharedObjectHintTable.hintNumber renumber b := by
  have hlength : entries.length = objects.length := by
    have hmap := congrArg List.length hunits
    rwa [List.length_map, List.length_map] at hmap
  rw [List.pairwise_iff_getElem] at horder ⊢
  have hget : ∀ (index : ℕ) (h : index < entries.length) (h' : index < objects.length),
      SharedObjectHintTable.hintNumber renumber entries[index] =
        plainNumber renumber objects[index] := by
    intro index h h'
    apply hintNumber_of_unit
    have hindex := congrArg (·[index]?) hunits
    simpa [h, h'] using hindex
  intro i j hi hj hij
  rw [hget i hi (hlength ▸ hi), hget j hj (hlength ▸ hj)]
  exact horder i j _ _ hij

theorem map_unit_of_isEmpty (renumber : RenumberMap) (sections : ContainerSections)
    (hc : plan.Consistent) (hrows : map.rows.isEmpty) :
    (plan.canonicalRawSharedHints map renumber sections).map (·.unit) =
      (plan.firstPageObjects ++ plan.otherPagesShared).map fun object => some (.object object) := by
  rw [canonicalRawSharedHints, if_pos hrows]
  by_cases hgap : plan.hasRawProjectionGap
  · have hall := map_unit_filter_rawHints hc hgap fun _ => true
    have hfilter : (plan.raw.sharedHints.filter fun entry => entry.object.any fun _ => true) =
        plan.raw.sharedHints := by
      rw [List.filter_eq_self]
      intro entry hentry
      have hmem : (entry.object, entry.container) ∈
          plan.raw.sharedHints.map fun entry => (entry.object, entry.container) :=
        List.mem_map_of_mem hentry
      rw [hc.rawHints hgap, List.mem_map] at hmem
      obtain ⟨object, -, heq⟩ := hmem
      rw [← (Prod.mk.inj heq).1]
      rfl
    rw [hfilter, List.filter_true, List.map_map] at hall
    rw [if_pos hgap, hall]
    rfl
  · rw [if_neg hgap, firstPageObjects, otherPagesShared, if_neg hgap, if_neg hgap,
      rawIdentities_of_valid hc.firstPage.valid, rawIdentities_of_valid hc.shared.valid,
      ← List.map_append, ← hc.hints, List.map_map, List.map_map]
    have hvalid : ∀ entry ∈ plan.sharedHints, entry.objectRef.Valid := by
      intro entry hentry
      apply hc.valid
      rw [← hc.hints]
      exact List.mem_map_of_mem hentry
    generalize plan.sharedHints = entries at hvalid
    induction entries with
    | nil => rfl
    | cons entry entries ih =>
      have hentry : rawObjectHint entry = some ⟨some ⟨entry.objectRef.number,
          entry.objectRef.generation⟩, none, entry.referencingPages⟩ := by
        rw [rawObjectHint, (hvalid entry List.mem_cons_self).tryFromObjectRef]
      rw [List.filterMap_cons, hentry, List.map_cons, List.map_cons,
        ih fun entry' hmem => hvalid entry' (List.mem_cons_of_mem entry hmem)]
      rfl

theorem part8ContainerNums_of_isEmpty (hrows : map.rows.isEmpty) :
    plan.part8ContainerNums map = [] := by
  rw [part8ContainerNums, MemberToContainer.containers, List.isEmpty_iff.mp hrows]
  rfl

/-- The list when nothing is compressed. -/
theorem hasSections_of_isEmpty (hc : plan.Consistent) (hn : Numbers renumber plan map)
    (hrows : map.rows.isEmpty) :
    ∃ front back, HasSections plan map renumber sections front back := by
  have hunits := map_unit_of_isEmpty renumber sections hc hrows
  generalize hlist : plan.canonicalRawSharedHints map renumber sections = entries at hunits
  have hnone : ∀ ref, map.containerOf ref = none := fun ref =>
    MemberToContainer.containerOf_of_isEmpty hrows
  have hplain : ∀ object, map.unitOf object = .object object := fun object =>
    MemberToContainer.unitOf_eq_object.mpr ⟨rfl, fun ref _ => hnone ref⟩
  have hfront : (entries.take plan.firstPageObjects.length).map (·.unit) =
      plan.firstPageObjects.map fun object => some (.object object) := by
    rw [List.map_take, hunits, ← List.map_take, List.take_left]
  have hback : (entries.drop plan.firstPageObjects.length).map (·.unit) =
      plan.otherPagesShared.map fun object => some (.object object) := by
    rw [List.map_drop, hunits, ← List.map_drop, List.drop_left]
  refine ⟨entries.take plan.firstPageObjects.length, entries.drop plan.firstPageObjects.length,
    ?_, ?_, ?_, ?_, ?_, ?_, ?_⟩
  · rw [hlist, List.take_append_drop]
  · intro unit
    rw [hfront]
    cases unit with
    | object object => simp [FirstPageUnit, hplain]
    | container container => simp [FirstPageUnit, hplain]
  · intro unit
    rw [hback]
    cases unit with
    | object object => simp [ListedBehind, hplain]
    | container container =>
      simp [ListedBehind, hnone, part8ContainerNums_of_isEmpty hrows]
  · rw [List.take_append_drop, hunits]
    exact hc.nodup_objects.map fun _ _ h => SharedUnit.object.inj (Option.some.inj h)
  · rw [List.take_append_drop]
    intro entry hentry
    have hmem : entry.unit ∈ entries.map (·.unit) := List.mem_map_of_mem hentry
    rw [hunits, List.mem_map] at hmem
    obtain ⟨object, -, hunit⟩ := hmem
    rw [← hunit]
    rfl
  · exact pairwise_hintNumber hfront (hn.firstPageOrder hrows)
  · exact pairwise_hintNumber hback (hn.otherPagesOrder hrows)

theorem exists_hasSections (sections : ContainerSections) (hc : plan.Consistent)
    (hn : Numbers renumber plan map) :
    ∃ front back, HasSections plan map renumber sections front back := by
  by_cases hrows : map.rows.isEmpty
  · exact hasSections_of_isEmpty hc hn hrows
  · exact hasSections_of_rows hc hn hrows

end LinearizationPlan

end Flpdf
